import HeliosXCore.Rtl.Consts

/-! `EX/Alu.v`, `EX/SrcSelect.v`, `EX/AluUnit.v` and `EX/BranchUnit.v`: the combinational
    execution units. -/

namespace HeliosXCore
open Rtl

/-- `{31'b0, b}`: the result of a comparison. -/
def ofBool32 (b : Bool) : Word := (BitVec.ofBool b).setWidth 32

/-- The module `Alu`.

    The result is one nested conditional. Its unsigned branches make the whole expression unsigned,
    and that type is passed down to the operands of `$signed(in1) >>> shamt`, so `>>>` shifts in
    zeros there. The comparisons stand inside concatenations, whose operands are self-determined,
    and stay signed. -/
def alu (op : BitVec 4) (in1 in2 : Word) : Word :=
  let shamt := in2.extractLsb' 0 5
  if op = AluOp.add then in1 + in2
  else if op = AluOp.sll then in1 <<< shamt
  else if op = AluOp.xor then in1 ^^^ in2
  else if op = AluOp.or then in1 ||| in2
  else if op = AluOp.and then in1 &&& in2
  else if op = AluOp.srl then in1 >>> shamt
  else if op = AluOp.seq then ofBool32 (in1 == in2)
  else if op = AluOp.sne then ofBool32 (in1 != in2)
  else if op = AluOp.sub then in1 - in2
  else if op = AluOp.sra then in1 >>> shamt
  else if op = AluOp.slt then ofBool32 (in1.slt in2)
  else if op = AluOp.sge then ofBool32 (in2.sle in1)
  else if op = AluOp.sltu then ofBool32 (in1.ult in2)
  else if op = AluOp.sgeu then ofBool32 (in2.ule in1)
  else 0

/-- The module `SrcASelect`: the register, the program counter or 0. -/
def srcASelect (srcASel : BitVec 2) (pc rs1 : Word) : Word :=
  if srcASel = SrcA.rs1 then rs1 else if srcASel = SrcA.pc then pc else 0

/-- The module `SrcBSelect`: the register, the immediate, 4 or 0. -/
def srcBSelect (srcBSel : BitVec 2) (imm rs2 : Word) : Word :=
  if srcBSel = SrcB.rs2 then rs2
  else if srcBSel = SrcB.imm then imm
  else if srcBSel = SrcB.four then 4
  else 0

namespace AluUnit

/-- `result_o` of `AluUnit`: the operation on the two selected sources. -/
def result (aluOp : BitVec 4) (srcASel srcBSel : BitVec 2) (pc imm src1 src2 : Word) : Word :=
  alu aluOp (srcASelect srcASel pc src1) (srcBSelect srcBSel imm src2)

/-- `rob_we_o` of `AluUnit`: every issued instruction is reported to the ROB. -/
def robWe (issue : Bool) : Bool := issue

/-- `rrf_we_o` of `AluUnit`: an issued instruction with a destination writes the RRF. -/
def rrfWe (issue ifWriteRrf : Bool) : Bool := issue && ifWriteRrf

end AluUnit

/-- The inputs of `BranchUnit`. -/
structure BranchIn where
  issue : Bool
  ifWriteRrf : Bool
  aluOp : BitVec 4
  src1 : Word
  src2 : Word
  pc : Word
  imm : Word
  opcode : BitVec 7

namespace BranchUnit

/-- `if_jump_o`: a jump, or a branch whose comparison holds. -/
def ifJump (i : BranchIn) : Bool :=
  if i.opcode = Opcode.jal ∨ i.opcode = Opcode.jalr then true
  else (alu i.aluOp i.src1 i.src2).getLsbD 0

/-- `jump_addr_o`: the immediate past the register for JALR, past the program counter otherwise. -/
def jumpAddr (i : BranchIn) : Word :=
  (if i.opcode = Opcode.jalr then i.src1 else i.pc) + i.imm

/-- `jump_result_o`: where execution goes on. -/
def jumpResult (i : BranchIn) : Word := if ifJump i then jumpAddr i else i.pc + 4

/-- `result_o` of `BranchUnit`: the return address. -/
def result (i : BranchIn) : Word := i.pc + 4

/-- `rob_we_o` of `BranchUnit`. -/
def robWe (i : BranchIn) : Bool := i.issue

/-- `rrf_we_o` of `BranchUnit`. -/
def rrfWe (i : BranchIn) : Bool := i.issue && i.ifWriteRrf

end BranchUnit

end HeliosXCore
