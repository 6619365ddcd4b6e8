import HeliosXCore.Rtl.IFUnit
import HeliosXCore.Rtl.ReNameUnit
import HeliosXCore.Rtl.SingleInstROB
import HeliosXCore.Rtl.SwUnit
import HeliosXCore.Rtl.ExUnit

/-! `HeliosX.v`: the core as it is wired. An input port that nothing is connected to reads 0. -/

namespace HeliosXCore
open Rtl

/-- The registers of the whole core. -/
structure HeliosX where
  ifUnit : IFUnit
  pcT : Word
  pcId : Word
  idUnit : IDUnit
  dp : ReNameUnit
  sw : SwUnit
  ex : ExUnit
  rob : SingleInstROB

namespace HeliosX

/-- All registers 0. -/
def zero : HeliosX :=
  ⟨⟨0, 0, 0⟩, 0, 0, IDUnit.cleared, ReNameUnit.zero, SwUnit.zero, ExUnit.zero, SingleInstROB.zero⟩

/-- The forwarding ports of `u_ReNameUnit`: only the ALU and the load port are connected. -/
def forwards (ex : ExUnit) : Forwards where
  alu1 := ⟨ex.alu.rrfWe, ex.alu.rrfTag, ex.alu.result⟩
  alu2 := Forward.none
  ldst := ⟨ex.memAccess.rrfWe, ex.memAccess.rrfTag, ex.memAccess.loadData⟩
  mul := Forward.none
  branch := Forward.none

/-- The connections of `u_ReNameUnit`, `stall_DP` left open. -/
def dpPorts (id : IDUnit) (f : Forwards) (rob : SingleInstROB) (stallDP : Bool) : ReNameIn where
  id := id
  stallDp := stallDP
  comInstNum := 0#1 ++ BitVec.ofBool rob.comnum
  completedDstnum := rob.dstArf1
  completedWe := rob.arfwe1
  completedDstRrftag := rob.commitPtr1
  completedPc := rob.pcCom
  forwards := f
  allocateRrfEn := false
  src1EqZero := id.dec.rs1 == 0
  src2EqZero := id.dec.rs2 == 0
  inst2RsType := 0

/-- `stall_IF_1`, the only stall of the core. It does not depend on `stall_DP`. -/
def stallOf (id : IDUnit) (f : Forwards) (rob : SingleInstROB) (dp : ReNameUnit) : Bool :=
  dp.stallIf (dpPorts id f rob false)

/-- The connections of `u_ReNameUnit`. -/
def dpIn (id : IDUnit) (f : Forwards) (rob : SingleInstROB) (dp : ReNameUnit) : ReNameIn :=
  dpPorts id f rob (stallOf id f rob dp)

/-- The connections of `u_SingleInstROB`. -/
def robIn (dp : ReNameUnit) (finish : Bool) (finishAddr : RrfTag) : RobIn where
  dp1 := dp.rrfAllocatableReg
  dp1Addr := dp.dstRrftagReg
  pcDp1 := dp.idReg.pc
  dstvalidDp1 := dp.dstEnReg
  dstDp1 := dp.idReg.dec.rd
  finishExAlu1 := finish
  finishExAlu1Addr := finishAddr

/-- The first dispatch slot of `u_SwUint`, out of the DP/SW registers. -/
def dispatch (dp : ReNameUnit) : AluWrite where
  pc := dp.idReg.pc
  op1 := ⟨dp.src1Reg, dp.rdy1Reg⟩
  op2 := ⟨dp.src2Reg, dp.rdy2Reg⟩
  srcA := dp.idReg.dec.srcASel
  srcB := dp.idReg.dec.srcBSel
  imm := dp.idReg.imm
  rrfTag := dp.dstRrftagReg
  dstVal := dp.dstEnReg
  aluOp := dp.idReg.dec.aluOp

/-- The broadcast results of `u_SwUint`. -/
def exeResults (ex : ExUnit) : ExeResults where
  r1 := ⟨ex.alu.rrfTag, ex.alu.result⟩
  r2 := ⟨ex.branch.rrfTag, ex.branch.result⟩
  r3 := ⟨0, 0⟩
  r4 := ⟨0, 0⟩
  r5 := ⟨0, 0⟩

/-- The connections of `u_SwUint`. -/
def swIn (dp : ReNameUnit) (x : ExeResults) (stallDP : Bool) : SwIn where
  nextRrfCycle := dp.nextrrfcycReg
  reqAluNum := dp.reqReg.reqAlunum
  reqMemNum := 0
  dp1 := dispatch dp
  dp2 := AluWrite.zero
  stallDp := stallDP
  killDp := false
  exeResults := x

/-- The ALU connections of `u_ExUnit`: the entry the issuer points at, issued or not. -/
def aluIn (sw : SwUnit) (x : ExeResults) : AluIn where
  issue := sw.exeAluIssue
  ifWriteRrf := sw.issueEntry.exeDstVal
  rrfTag := sw.exeAluRrfTag
  pc := sw.issueEntry.exePc
  imm := sw.issueEntry.exeImm
  aluOp := sw.issueEntry.exeAluOp
  src1 := sw.issueEntry.exeOp1 x
  srcASelect := sw.issueEntry.exeSrcA
  src2 := sw.issueEntry.exeOp2 x
  srcBSelect := sw.issueEntry.exeSrcB

/-- The branch unit of `u_ExUnit` is not connected. -/
def branchIn : BranchIn := ⟨false, false, 0, 0, 0, 0, 0, 0⟩

/-- The memory connections of `u_ExUnit`. -/
def memAccessIn (sw : SwUnit) (x : ExeResults) (dmemRdata : Word) : MemAccessIn where
  src1 := sw.memIssueEntry.exeSrcOp1 x
  src2 := sw.memIssueEntry.exeSrcOp2 x
  imm := sw.memIssueEntry.exeImm
  ifWriteRrf := sw.memIssueEntry.exeDstVal
  issue := sw.exeMemIssue
  complete := false
  loadDataFromDataMemory := dmemRdata
  rrfTag := sw.memIssueEntry.exeRrfTag

/-- `stall_IF`, `stall_ID` and `stall_DP`. -/
def stall (s : HeliosX) : Bool := stallOf s.idUnit (forwards s.ex) s.rob s.dp

/-- `iaddr_o`: the fetch address. -/
def iaddr (s : HeliosX) : Word := s.ifUnit.iaddr

/-- One clock edge. `kill_IF` of `u_IFUnit` is connected to `stall_IF`; the other kills are 0. -/
def next (reset : Bool) (idata dmemRdata : Word) (s : HeliosX) : HeliosX where
  ifUnit := s.ifUnit.next reset s.stall s.stall idata
  pcT := s.iaddr
  pcId := s.pcT
  idUnit := s.idUnit.next reset false s.stall s.ifUnit.inst s.pcId
  dp := s.dp.next reset (dpIn s.idUnit (forwards s.ex) s.rob s.dp)
  sw := s.sw.next reset (swIn s.dp (exeResults s.ex) s.stall)
  ex := s.ex.next reset (aluIn s.sw (exeResults s.ex)) 0 branchIn
    (memAccessIn s.sw (exeResults s.ex) dmemRdata)
  rob := s.rob.next reset (robIn s.dp s.ex.alu.robWe s.ex.alu.rrfTag)

end HeliosX

end HeliosXCore
