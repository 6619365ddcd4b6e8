import HeliosXCore.Rtl.Alu

/-! `EX/StoreBuffer.v`, `EX/MemAccessUnit.v` and `EX/ExUnit.v`: the store buffer and the latches
    behind the three execution units. -/

namespace HeliosXCore
open Rtl

/-- The input ports of `StoreBuffer`. -/
structure StoreIn where
  issue : Bool
  we : Bool
  address : Word
  writeData : Word
  complete : Bool

/-- The registers of `StoreBuffer`. -/
structure StoreBuffer where
  usedPtr : BitVec 5
  completePtr : BitVec 5
  retirePtr : BitVec 5
  address : BitVec 5 → Word
  data : BitVec 5 → Word
  valid : Bits 5
  hitReg : Bool
  loadIndex : BitVec 5
  memWe : Bool

namespace StoreBuffer

/-- `(ptr == ~0) ? 1 : ptr + 1`. The literal makes the comparison 32 bits wide, with the pointer
    extended by zeros; the sum is truncated to the pointer. -/
def succPtr (ptr : BitVec 5) : BitVec 5 := if ptr.setWidth 32 = ~~~(0 : BitVec 32) then 1 else ptr + 1

/-- Entry `i` answers a load from `addr`. -/
def matchAt (s : StoreBuffer) (addr : Word) (i : ℕ) : Bool :=
  bitAt s.valid i && s.address (BitVec.ofNat 5 i) == addr

/-- The loop over indices 1 to 31: the hit flag and the index of the last match. -/
def loadScan (s : StoreBuffer) (addr : Word) : Bool × BitVec 5 :=
  (List.range' 1 31).foldl
    (fun acc i => if s.matchAt addr i then (true, BitVec.ofNat 5 i) else acc) (false, s.loadIndex)

/-- `hit`: the last load found its address. -/
def hit (s : StoreBuffer) : Bool := s.hitReg

/-- `read_data_o`: the data of the entry the last load found. -/
def readData (s : StoreBuffer) : Word := s.data s.loadIndex

/-- `write_address_o`: the address of the store that was retired last. -/
def writeAddress (s : StoreBuffer) : Word := s.address s.retirePtr

/-- `write_data_o`: its data. -/
def writeData (s : StoreBuffer) : Word := s.data s.retirePtr

/-- The pointers are blocking assignments, so each test reads the pointers the tests before it
    updated; the arrays are written non-blocking at the updated pointers. -/
def next (reset : Bool) (i : StoreIn) (s : StoreBuffer) : StoreBuffer :=
  if reset then ⟨0, 0, 0, fun _ => 0, fun _ => 0, 0, false, 0, false⟩
  else
    let storing := i.issue && i.we
    let loading := i.issue && !i.we
    let usedPtr := if storing then succPtr s.usedPtr else s.usedPtr
    let completePtr := if i.complete then succPtr s.completePtr else s.completePtr
    let draining := (!i.issue || (i.issue && i.we)) && completePtr != s.retirePtr
    let retirePtr := if draining then succPtr s.retirePtr else s.retirePtr
    let valid := if storing then setBit (k := 5) s.valid usedPtr true else s.valid
    { usedPtr := usedPtr
      completePtr := completePtr
      retirePtr := retirePtr
      address := if storing then Function.update s.address usedPtr i.address else s.address
      data := if storing then Function.update s.data usedPtr i.writeData else s.data
      valid := if draining then setBit (k := 5) valid retirePtr false else valid
      hitReg := loading && (s.loadScan i.address).1
      loadIndex := if loading then (s.loadScan i.address).2 else s.loadIndex
      memWe := draining }

end StoreBuffer

/-- The input ports of `MemAccessUnit`. -/
structure MemAccessIn where
  src1 : Word
  src2 : Word
  imm : Word
  ifWriteRrf : Bool
  issue : Bool
  complete : Bool
  loadDataFromDataMemory : Word
  rrfTag : RrfTag

namespace MemAccessUnit

/-- The base register past the immediate. -/
def effectiveAddress (i : MemAccessIn) : Word := i.src1 + i.imm

/-- `rob_we_o` of `MemAccessUnit`: loads and stores are reported as they are issued. -/
def robWe (i : MemAccessIn) : Bool := i.issue

/-- `rrf_we_o` of `MemAccessUnit`: a load has a destination. -/
def rrfWe (i : MemAccessIn) : Bool := i.issue && i.ifWriteRrf

/-- `load_data_o`: the store buffer answers before data memory does. -/
def loadData (s : StoreBuffer) (i : MemAccessIn) : Word :=
  if s.hit then s.readData else i.loadDataFromDataMemory

/-- The connections of the store buffer: what has no destination is a store. -/
def storeIn (i : MemAccessIn) : StoreIn :=
  ⟨i.issue, !i.ifWriteRrf, effectiveAddress i, i.src2, i.complete⟩

end MemAccessUnit

/-- The ALU input ports of `ExUnit`. -/
structure AluIn where
  issue : Bool
  ifWriteRrf : Bool
  rrfTag : RrfTag
  pc : Word
  imm : Word
  aluOp : BitVec 4
  src1 : Word
  srcASelect : BitVec 2
  src2 : Word
  srcBSelect : BitVec 2

/-- The latch behind the ALU unit. -/
structure AluLatch where
  result : Word
  rrfTag : RrfTag
  robWe : Bool
  rrfWe : Bool
  deriving DecidableEq, Repr

/-- The latch behind the branch unit. -/
structure BranchLatch where
  result : Word
  rrfTag : RrfTag
  robWe : Bool
  rrfWe : Bool
  jumpResult : Word
  jumpAddr : Word
  ifJump : Bool
  deriving DecidableEq, Repr

/-- The latch behind the memory access unit. -/
structure MemAccessLatch where
  rrfWe : Bool
  robWe : Bool
  loadAddress : Word
  storeBufferMemWe : Bool
  storeBufferWriteAddress : Word
  storeBufferWriteData : Word
  loadData : Word
  rrfTag : RrfTag
  deriving DecidableEq, Repr

/-- The registers of `ExUnit`; its outputs are the three latches. -/
structure ExUnit where
  alu : AluLatch
  branch : BranchLatch
  memAccess : MemAccessLatch
  storeBuffer : StoreBuffer

namespace ExUnit

/-- All registers 0. -/
def zero : ExUnit :=
  ⟨⟨0, 0, false, false⟩, ⟨0, 0, false, false, 0, 0, false⟩, ⟨false, false, 0, false, 0, 0, 0, 0⟩,
    ⟨0, 0, 0, fun _ => 0, fun _ => 0, 0, false, 0, false⟩⟩

/-- The ALU latch loads in every cycle, issued or not. -/
def aluNext (reset : Bool) (i : AluIn) : AluLatch :=
  if reset then ⟨0, 0, false, false⟩
  else
    ⟨AluUnit.result i.aluOp i.srcASelect i.srcBSelect i.pc i.imm i.src1 i.src2, i.rrfTag,
      AluUnit.robWe i.issue, AluUnit.rrfWe i.issue i.ifWriteRrf⟩

/-- So does the branch latch. -/
def branchNext (reset : Bool) (rrfTag : RrfTag) (i : BranchIn) : BranchLatch :=
  if reset then ⟨0, 0, false, false, 0, 0, false⟩
  else
    ⟨BranchUnit.result i, rrfTag, BranchUnit.robWe i, BranchUnit.rrfWe i, BranchUnit.jumpResult i,
      BranchUnit.jumpAddr i, BranchUnit.ifJump i⟩

/-- So does the memory latch: the load data are those of the load before, the tag is that of this
    one. -/
def memAccessNext (reset : Bool) (i : MemAccessIn) (b : StoreBuffer) : MemAccessLatch :=
  if reset then ⟨false, false, 0, false, 0, 0, 0, 0⟩
  else
    ⟨MemAccessUnit.rrfWe i, MemAccessUnit.robWe i, MemAccessUnit.effectiveAddress i, b.memWe,
      b.writeAddress, b.writeData, MemAccessUnit.loadData b i, i.rrfTag⟩

/-- One edge of the three latches and the store buffer. -/
def next (reset : Bool) (a : AluIn) (branchTag : RrfTag) (b : BranchIn) (m : MemAccessIn)
    (s : ExUnit) : ExUnit where
  alu := aluNext reset a
  branch := branchNext reset branchTag b
  memAccess := memAccessNext reset m s.storeBuffer
  storeBuffer := s.storeBuffer.next reset (MemAccessUnit.storeIn m)

end ExUnit

end HeliosXCore
