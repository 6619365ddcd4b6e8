import HeliosXCore.Rtl.Consts

/-! `ID/Decoder.v`, `ID/ImmDecoder.v` and `ID/IDUnit.v`: combinational decoding of one word and
    the register between decode and rename. -/

namespace HeliosXCore
open Rtl

/-- The outputs of `Decoder`. -/
structure Decoded where
  immType : BitVec 2
  rs1 : RegSel
  rs2 : RegSel
  rd : RegSel
  srcASel : BitVec 2
  srcBSel : BitVec 2
  wrReg : Bool
  usesRs1 : Bool
  usesRs2 : Bool
  illegalInstruction : Bool
  aluOp : BitVec 4
  rsEnt : BitVec 3
  dmemSize : BitVec 3
  dmemType : BitVec 3
  mdReqOp : BitVec 2
  mdReqIn1Signed : Bool
  mdReqIn2Signed : Bool
  mdReqOutSel : BitVec 2
  deriving DecidableEq, Repr

namespace Decoder

/-- `inst_i[6:0]`. -/
def opcode (inst : Word) : BitVec 7 := inst.extractLsb' 0 7
/-- `inst_i[14:12]`. -/
def funct3 (inst : Word) : BitVec 3 := inst.extractLsb' 12 3
/-- `inst_i[31:25]`. -/
def funct7 (inst : Word) : BitVec 7 := inst.extractLsb' 25 7

/-- One row for each implemented opcode, as every output table of `Decoder` is laid out. -/
def byOpcode {α : Type} (inst : Word) (load store jal jalr lui auipc op opImm other : α) : α :=
  if opcode inst = Opcode.load then load
  else if opcode inst = Opcode.store then store
  else if opcode inst = Opcode.jal then jal
  else if opcode inst = Opcode.jalr then jalr
  else if opcode inst = Opcode.lui then lui
  else if opcode inst = Opcode.auipc then auipc
  else if opcode inst = Opcode.op then op
  else if opcode inst = Opcode.opImm then opImm
  else other

/-- `add_or_sub`: SUB needs the opcode OP, since ADDI has no such bit. -/
def addOrSub (inst : Word) : BitVec 4 :=
  if opcode inst = Opcode.op ∧ (funct7 inst).getLsbD 5 = true then AluOp.sub else AluOp.add

/-- `srl_or_sra`: bit 30 of the word decides. -/
def srlOrSra (inst : Word) : BitVec 4 :=
  if (funct7 inst).getLsbD 5 then AluOp.sra else AluOp.srl

/-- `alu_op_arith`: the operation that `funct3` selects. -/
def aluOpArith (inst : Word) : BitVec 4 :=
  match (funct3 inst).toNat with
  | 0 => addOrSub inst
  | 1 => AluOp.sll
  | 2 => AluOp.slt
  | 3 => AluOp.sltu
  | 4 => AluOp.xor
  | 5 => srlOrSra inst
  | 6 => AluOp.or
  | 7 => AluOp.and
  | _ => AluOp.add

/-- `md_req_op_o`: the operation of a multiplication or division. -/
def mdReqOp (inst : Word) : BitVec 2 :=
  match (funct3 inst).toNat with
  | 0 | 1 | 2 | 3 => MdOp.mul
  | 4 | 5 => MdOp.div
  | 6 | 7 => MdOp.rem
  | _ => MdOp.mul

/-- `md_req_in_1_signed_o`. -/
def mdReqIn1Signed (inst : Word) : Bool :=
  match (funct3 inst).toNat with
  | 1 | 2 | 4 | 6 => true
  | _ => false

/-- `md_req_in_2_signed_o`. -/
def mdReqIn2Signed (inst : Word) : Bool :=
  match (funct3 inst).toNat with
  | 1 | 4 | 6 => true
  | _ => false

/-- `md_req_out_sel_o`: the high word, the remainder or the low word. -/
def mdReqOutSel (inst : Word) : BitVec 2 :=
  match (funct3 inst).toNat with
  | 1 | 2 | 3 => MdOut.hi
  | 6 | 7 => MdOut.rem
  | _ => MdOut.lo

/-- The module `Decoder`. -/
def decode (inst : Word) : Decoded where
  immType := byOpcode inst Imm.I Imm.S Imm.J Imm.J Imm.U Imm.U Imm.I Imm.I 0
  rs1 := inst.extractLsb' 15 5
  rs2 := inst.extractLsb' 20 5
  rd := inst.extractLsb' 7 5
  srcASel := byOpcode inst SrcA.rs1 SrcA.rs1 SrcA.pc SrcA.pc SrcA.zero SrcA.pc SrcA.rs1 SrcA.rs1 0
  srcBSel := byOpcode inst SrcB.imm SrcB.imm SrcB.four SrcB.four SrcB.imm SrcB.imm SrcB.rs2
    SrcB.imm 0
  wrReg := byOpcode inst true false true true true true true true false
  usesRs1 := byOpcode inst true true false false false false true true false
  usesRs2 := byOpcode inst false true false false false false true false false
  illegalInstruction := byOpcode inst false false false false false false false false false
  aluOp := byOpcode inst AluOp.add AluOp.add AluOp.add AluOp.add AluOp.add AluOp.add
    (aluOpArith inst) (aluOpArith inst) 0
  rsEnt := byOpcode inst RsEnt.ldst RsEnt.ldst RsEnt.jal RsEnt.jalr RsEnt.alu RsEnt.alu RsEnt.alu
    RsEnt.alu 0
  dmemSize := 0#1 ++ (funct3 inst).extractLsb' 0 2
  dmemType := funct3 inst
  mdReqOp := mdReqOp inst
  mdReqIn1Signed := mdReqIn1Signed inst
  mdReqIn2Signed := mdReqIn2Signed inst
  mdReqOutSel := mdReqOutSel inst

end Decoder

namespace ImmDecoder

/-- `{21{inst[31]}}` and the like: the sign bit, `n` times. -/
def sign (inst : Word) (n : ℕ) : BitVec n := (inst.extractLsb' 31 1).signExtend n

/-- The immediate of format I. -/
def immI (inst : Word) : Word :=
  sign inst 21 ++ inst.extractLsb' 25 6 ++ inst.extractLsb' 21 4 ++ inst.extractLsb' 20 1

/-- The immediate of format S. -/
def immS (inst : Word) : Word :=
  sign inst 21 ++ inst.extractLsb' 25 6 ++ inst.extractLsb' 8 4 ++ inst.extractLsb' 7 1

/-- The immediate of format U. -/
def immU (inst : Word) : Word :=
  inst.extractLsb' 31 1 ++ inst.extractLsb' 20 11 ++ inst.extractLsb' 12 8 ++ 0#12

/-- The immediate of format J. -/
def immJ (inst : Word) : Word :=
  sign inst 12 ++ inst.extractLsb' 12 8 ++ inst.extractLsb' 20 1 ++ inst.extractLsb' 25 6 ++
    inst.extractLsb' 21 4 ++ 0#1

/-- The module `ImmDecoder`. -/
def imm (inst : Word) (immType : BitVec 2) : Word :=
  if immType = Imm.I then immI inst
  else if immType = Imm.S then immS inst
  else if immType = Imm.U then immU inst
  else if immType = Imm.J then immJ inst
  else immI inst

end ImmDecoder

/-- The registers of `IDUnit`, which are its outputs. -/
structure IDUnit where
  pc : Word
  imm : Word
  dec : Decoded
  deriving DecidableEq, Repr

namespace IDUnit

/-- All decoder outputs 0, as reset leaves them. -/
def decZero : Decoded :=
  ⟨0, 0, 0, 0, 0, 0, false, false, false, false, 0, 0, 0, 0, 0, false, false, 0⟩

/-- The registers as reset or a kill leaves them. -/
def cleared : IDUnit := ⟨entryPoint, 0, decZero⟩

/-- What `IDUnit` registers for the word `inst` at `pc`. -/
def ofInst (inst pc : Word) : IDUnit :=
  let dec := Decoder.decode inst
  ⟨pc, ImmDecoder.imm inst dec.immType, dec⟩

/-- One edge: a stall of rename keeps the registers, a kill clears them. -/
def next (reset killID stallDP : Bool) (inst pc : Word) (s : IDUnit) : IDUnit :=
  if reset || killID then cleared
  else if !stallDP then ofInst inst pc
  else s

end IDUnit

end HeliosXCore
