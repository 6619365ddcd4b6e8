import HeliosXCore.Lib.Ram
import HeliosXCore.Rtl.ExUnit

/-! `DataMemory.v` and `MemAccess_top.v`: the memory access unit with the data memory behind it. The
    block RAM `BRAM_32X65536` is generated, so it is a parameter. -/

namespace HeliosXCore
open Rtl

namespace DataMemory
variable {σ : Type} (R : Ram σ (BitVec 16) Word)

/-- One edge. Only the low 16 bits of the addresses are connected; `wea` is tied to 1. -/
def next (en : Bool) (writeAddress writeData readAddress : Word) (s : σ) : σ :=
  R.next (en && true) (writeAddress.setWidth 16) writeData (readAddress.setWidth 16) s

/-- `read_date_o`: what the read port of the RAM shows. -/
def readData (s : σ) : Word := R.dout s

end DataMemory

/-- The input ports of `MemAccessTop`. -/
structure MemTopIn where
  src1 : Word
  src2 : Word
  imm : Word
  ifWriteRrf : Bool
  issue : Bool
  complete : Bool

/-- The store buffer of `mem_access_unit`, and the block RAM. -/
structure MemAccessTop (σ : Type) where
  storeBuffer : StoreBuffer
  bram : σ

namespace MemAccessTop
variable {σ : Type} (R : Ram σ (BitVec 16) Word)

/-- The connections of `mem_access_unit`, which has no port for a tag. -/
def unitIn (i : MemTopIn) (s : MemAccessTop σ) : MemAccessIn where
  src1 := i.src1
  src2 := i.src2
  imm := i.imm
  ifWriteRrf := i.ifWriteRrf
  issue := i.issue
  complete := i.complete
  loadDataFromDataMemory := DataMemory.readData R s.bram
  rrfTag := 0

/-- `rrf_we_o`. -/
def rrfWe (i : MemTopIn) (s : MemAccessTop σ) : Bool := MemAccessUnit.rrfWe (unitIn R i s)

/-- `rob_we_o`. -/
def robWe (i : MemTopIn) (s : MemAccessTop σ) : Bool := MemAccessUnit.robWe (unitIn R i s)

/-- `load_data_o`: from the store buffer or from the RAM. -/
def loadData (i : MemTopIn) (s : MemAccessTop σ) : Word :=
  MemAccessUnit.loadData s.storeBuffer (unitIn R i s)

/-- One edge: the store that leaves the buffer is written, the address of the next load is read. -/
def next (reset : Bool) (i : MemTopIn) (s : MemAccessTop σ) : MemAccessTop σ where
  storeBuffer := s.storeBuffer.next reset (MemAccessUnit.storeIn (unitIn R i s))
  bram := DataMemory.next R s.storeBuffer.memWe s.storeBuffer.writeAddress s.storeBuffer.writeData
    (MemAccessUnit.effectiveAddress (unitIn R i s)) s.bram

end MemAccessTop

end HeliosXCore
