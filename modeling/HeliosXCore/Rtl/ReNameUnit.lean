import HeliosXCore.Rtl.Decoder
import HeliosXCore.Rtl.RrfEntryAllocate
import HeliosXCore.Rtl.Arf
import HeliosXCore.Rtl.Rrf

/-! `DP/ReNameUnit.v`: the allocator, the rename table and the RRF around one decoded instruction,
    and the registers between rename and the reservation stations (the DP/SW registers). They load
    in every cycle, also while the allocator refuses the instruction. -/

namespace HeliosXCore
open Rtl

/-- The input ports of `ReNameUnit`. The ports that only pass decoded fields on are the one
    bundle `id`. -/
structure ReNameIn where
  id : IDUnit
  stallDp : Bool
  comInstNum : BitVec 2
  completedDstnum : RegSel
  completedWe : Bool
  completedDstRrftag : RrfTag
  completedPc : Word
  forwards : Forwards
  allocateRrfEn : Bool
  src1EqZero : Bool
  src2EqZero : Bool
  inst2RsType : BitVec 3

/-- The registers of `ReNameUnit` and of the modules inside it. -/
structure ReNameUnit where
  debugCommitEn : Bool
  completedPc : Word
  debugRegId : RegSel
  debugRegWdata : Word
  debugRegWen : Bool
  /-- The decoded fields, one cycle later: `pc_o`, `imm_1_o`, `rs1_o`, `rd_1_o` and so on. -/
  idReg : IDUnit
  rrfAllocatableReg : Bool
  dstRrftagReg : RrfTag
  dstEnReg : Bool
  src1Reg : Word
  src2Reg : Word
  rdy1Reg : Bool
  rdy2Reg : Bool
  reqReg : RSRequest
  nextrrfcycReg : Bool
  arf : Arf
  rrf : Rrf
  rrfAlloc : RrfEntryAllocate

namespace ReNameUnit

/-- All registers 0. -/
def zero : ReNameUnit :=
  ⟨false, 0, 0, 0, false, IDUnit.cleared, false, 0, false, 0, 0, false, false,
    RSRequestGen.gen 0 0, false, ⟨fun _ => 0, ⟨0, 0, 0, 0, 0, 0, 0⟩⟩, ⟨0, fun _ => 0⟩, ⟨0, 0, false⟩⟩

/-- `rrf_allocatable`: the allocator has a tag for the instruction in rename. -/
def rrfAllocatableWire (s : ReNameUnit) (i : ReNameIn) : Bool :=
  s.rrfAlloc.rrfAllocatable i.comInstNum i.id.dec.wrReg

/-- `stall_if_o`. -/
def stallIf (s : ReNameUnit) (i : ReNameIn) : Bool := !s.rrfAllocatableWire i

/-- What a commit tells the rename table. -/
def completed (i : ReNameIn) : Completed :=
  ⟨i.completedWe, i.completedDstnum, i.completedDstRrftag⟩

/-- The rename table is told of the destination also when the allocator refuses it. -/
def setBusy (s : ReNameUnit) (i : ReNameIn) : SetBusy :=
  ⟨i.id.dec.wrReg, i.id.dec.rd, s.rrfAlloc.dstRenameRrftag⟩

/-- `src_o` of a `SrcOprManager`, for source register `r`. -/
def srcWire (s : ReNameUnit) (i : ReNameIn) (r : RegSel) (eqZero : Bool) : Word :=
  let tag := s.arf.reTb.rrftag r
  SrcOprManager.src (s.arf.reTb.busy r) (s.arf.mem r) tag (s.rrf.rsRrfvalid i.forwards tag)
    (s.rrf.rsRrfdata i.forwards tag) eqZero

/-- `ready_o` of a `SrcOprManager`, for source register `r`. -/
def rdyWire (s : ReNameUnit) (i : ReNameIn) (r : RegSel) (eqZero : Bool) : Bool :=
  SrcOprManager.ready (s.arf.reTb.busy r) (s.rrf.rsRrfvalid i.forwards (s.arf.reTb.rrftag r))
    eqZero

/-- `from_rrfdata`: what a commit copies to `ARFData`. -/
def fromRrfdata (s : ReNameUnit) (i : ReNameIn) : Word :=
  s.rrf.dataToArfdata i.completedDstRrftag

/-- One edge. The DP/SW registers load in every cycle, also while the instruction is refused. -/
def next (reset : Bool) (i : ReNameIn) (s : ReNameUnit) : ReNameUnit where
  debugCommitEn := i.comInstNum.getLsbD 0
  completedPc := i.completedPc
  debugRegId := i.completedDstnum
  debugRegWdata := s.fromRrfdata i
  debugRegWen := i.completedWe
  idReg := i.id
  rrfAllocatableReg := s.rrfAllocatableWire i
  dstRrftagReg := s.rrfAlloc.dstRenameRrftag
  dstEnReg := i.id.dec.wrReg
  src1Reg := s.srcWire i i.id.dec.rs1 i.src1EqZero
  src2Reg := s.srcWire i i.id.dec.rs2 i.src2EqZero
  rdy1Reg := s.rdyWire i i.id.dec.rs1 i.src1EqZero
  rdy2Reg := s.rdyWire i i.id.dec.rs2 i.src2EqZero
  reqReg := RSRequestGen.gen i.id.dec.rsEnt i.inst2RsType
  nextrrfcycReg := s.rrfAlloc.nextrrfcyc
  arf := s.arf.next reset (completed i) (s.fromRrfdata i) (s.setBusy i)
  rrf := s.rrf.next reset i.forwards i.allocateRrfEn s.rrfAlloc.dstRenameRrftag i.completedWe
    i.completedDstRrftag
  rrfAlloc := s.rrfAlloc.next reset i.stallDp i.comInstNum i.id.dec.wrReg

end ReNameUnit

end HeliosXCore
