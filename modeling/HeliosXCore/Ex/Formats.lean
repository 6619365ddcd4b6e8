import HeliosXCore.Ex.Rv32i

/-! The operands that the two decoders extract, and the legality that `Decoder` reports, against the
    RV32I formats. -/

namespace HeliosXCore
open Rtl Rv32i

/-! ### Immediates and operands -/

theorem immS_eq (inst : Word) : ImmDecoder.immS inst =
    (inst.extractLsb' 25 7 ++ inst.extractLsb' 7 5).signExtend 32 := by
  apply BitVec.eq_of_getLsbD_eq
  intro i hi
  simp only [ImmDecoder.immS, ImmDecoder.sign, BitVec.getLsbD_append, BitVec.getLsbD_signExtend,
    BitVec.getLsbD_extractLsb', BitVec.msb_extractLsb', BitVec.msb_append]
  grind

theorem immJ_eq (inst : Word) : ImmDecoder.immJ inst =
    (inst.extractLsb' 31 1 ++ inst.extractLsb' 12 8 ++ inst.extractLsb' 20 1 ++
      inst.extractLsb' 21 10 ++ 0#1).signExtend 32 := by
  apply BitVec.eq_of_getLsbD_eq
  intro i hi
  simp only [ImmDecoder.immJ, ImmDecoder.sign, BitVec.getLsbD_append, BitVec.getLsbD_signExtend,
    BitVec.getLsbD_extractLsb', BitVec.msb_extractLsb', BitVec.msb_append]
  grind

/-- The immediate type that stands for a format. -/
def immTypeOf : Format → BitVec 2
  | .R | .I => Imm.I
  | .S => Imm.S
  | .U => Imm.U
  | .J => Imm.J

/-- Under its own type, an immediate is gathered as its format says. -/
theorem imm_immTypeOf {inst v : Word} {fmt : Format} (h : fmt.imm inst = some v) :
    ImmDecoder.imm inst (immTypeOf fmt) = v := by
  cases fmt with
  | R => cases h
  | I => exact (immI_eq inst).trans (Option.some.inj h)
  | S => exact (immS_eq inst).trans (Option.some.inj h)
  | U => exact (immU_eq inst).trans (Option.some.inj h)
  | J => exact (immJ_eq inst).trans (Option.some.inj h)

/-- The immediate and the operand flags are those of the format. -/
def OperandsAgree (inst : Word) (fmt : Format) : Prop :=
  (∀ v, fmt.imm inst = some v → ImmDecoder.imm inst (Decoder.decode inst).immType = v) ∧
    (Decoder.decode inst).usesRs1 = fmt.hasRs1 ∧ (Decoder.decode inst).usesRs2 = fmt.hasRs2 ∧
    (Decoder.decode inst).wrReg = fmt.hasRd

/-- The rows of the four tables, but for JALR, are those of the format. -/
theorem decode_format {inst : Word} {fmt : Format} (h : Format.ofOpcode (opcode inst) = some fmt)
    (hjalr : opcode inst ≠ Opcode.jalr) :
    (Decoder.decode inst).immType = immTypeOf fmt ∧
      (Decoder.decode inst).usesRs1 = fmt.hasRs1 ∧ (Decoder.decode inst).usesRs2 = fmt.hasRs2 ∧
      (Decoder.decode inst).wrReg = fmt.hasRd := by
  simp only [Decoder.decode, byOpcode_row (rfl : opcode inst = opcode inst)]
  revert h hjalr
  generalize opcode inst = opc
  cases fmt <;> revert opc <;> decide +kernel

/-- The row of JALR has the immediate of JAL, and says that `rs1` is not read. -/
theorem decode_jalr {inst : Word} (h : opcode inst = Opcode.jalr) :
    (Decoder.decode inst).immType = Imm.J ∧ (Decoder.decode inst).usesRs1 = false := by
  simp only [Decoder.decode, byOpcode_row h]
  decide

/-- For every word of the eight opcodes immediate and operands are those of its format exactly when
    it is not a JALR. -/
theorem operandsAgree_iff {inst : Word} {fmt : Format}
    (h : Format.ofOpcode (opcode inst) = some fmt) :
    OperandsAgree inst fmt ↔ opcode inst ≠ Opcode.jalr := by
  constructor
  · rintro ⟨_, hrs1, _⟩ hjalr
    rw [hjalr] at h
    cases h
    rw [(decode_jalr hjalr).2] at hrs1
    cases hrs1
  · intro hjalr
    obtain ⟨himm, hflags⟩ := decode_format h hjalr
    refine ⟨?_, hflags⟩
    intro v hv
    rw [himm]
    exact imm_immTypeOf hv

/-- `sw x7, -4(x2)` and `jalr x1, 4(x5)`. -/
theorem operandsAgree_sw_jalr :
    (OperandsAgree 0xFE712E23 .S ↔ opcode 0xFE712E23 ≠ Opcode.jalr) ∧
      (OperandsAgree 0x004280E7 .I ↔ opcode 0x004280E7 ≠ Opcode.jalr) :=
  ⟨operandsAgree_iff (by decide), operandsAgree_iff (by decide)⟩

/-- The offset 4 of that JALR is decoded as 0x28004, and its base register is not asked for. -/
theorem jalr_operands : Format.ofOpcode (opcode 0x004280E7) = some .I ∧
    Format.I.imm 0x004280E7 = some 4 ∧
    ImmDecoder.imm 0x004280E7 (Decoder.decode 0x004280E7).immType = 0x28004 ∧
    (Decoder.decode 0x004280E7).usesRs1 = false ∧ ¬ OperandsAgree 0x004280E7 .I := by
  refine ⟨by decide, by decide, by decide, by decide, ?_⟩
  rintro ⟨_, hrs1, _⟩
  revert hrs1
  decide

/-! ### Legality -/

/-- The word goes on as a legal ALU operation that writes a register. -/
def PassedOn (inst : Word) : Prop :=
  (Decoder.decode inst).illegalInstruction = false ∧ (Decoder.decode inst).wrReg = true ∧
    (Decoder.decode inst).rsEnt = RsEnt.alu

/-- Every row of the table, the one of all other opcodes included, says that the word is legal. -/
theorem illegalInstruction_eq (inst : Word) : (Decoder.decode inst).illegalInstruction = false := by
  simp only [Decoder.decode, Decoder.byOpcode]
  split_ifs <;> rfl

/-- The ALU station and the destination depend on the opcode only. -/
theorem passedOn_iff (inst : Word) : PassedOn inst ↔
    opcode inst = Opcode.op ∨ opcode inst = Opcode.opImm ∨ opcode inst = Opcode.lui ∨
      opcode inst = Opcode.auipc := by
  rw [PassedOn, and_iff_right (illegalInstruction_eq inst)]
  simp only [Decoder.decode, byOpcode_row (rfl : opcode inst = opcode inst)]
  generalize opcode inst = opc
  revert opc
  decide +kernel

/-- Of the words that are not legal, those of OP and OP-IMM are passed on. -/
theorem passedOn_of_not_legal {inst : Word} (h : legal inst = false) :
    PassedOn inst ↔ opcode inst = Opcode.op ∨ opcode inst = Opcode.opImm := by
  have hlui : opcode inst ≠ Opcode.lui := by
    intro hop
    simp [legal, decode, hop, Opcode.lui] at h
  have hauipc : opcode inst ≠ Opcode.auipc := by
    intro hop
    simp [legal, decode, hop, Opcode.auipc] at h
  simp [passedOn_iff, hlui, hauipc]

/-- `illegal_instruction_o` tells the legal words from the others, and no other is passed on as an
    ALU operation. -/
def Rejects (inst : Word) : Prop :=
  ((Decoder.decode inst).illegalInstruction = false ↔ legal inst = true) ∧
    (legal inst = false → ¬ PassedOn inst)

/-- Of the words outside the M extension `Decoder` judges the legal ones right and no other. -/
theorem rejects_iff (inst : Word) :
    (isM inst = false → Rejects inst) ↔ isM inst = true ∨ legal inst = true := by
  simp only [Rejects, illegalInstruction_eq, true_iff]
  cases hm : isM inst with
  | true => simp
  | false =>
    simp only [true_implies, Bool.false_eq_true, false_or]
    constructor
    · rintro ⟨hlegal, _⟩
      exact hlegal
    · intro hlegal
      refine ⟨hlegal, ?_⟩
      rw [hlegal]
      rintro ⟨⟩

/-- The word 0x40001033 (OP with the `funct3` of SLL and the `funct7` of SUB) is reserved. -/
theorem reserved_passedOn : isM 0x40001033 = false ∧ legal 0x40001033 = false ∧
    (Decoder.decode 0x40001033).illegalInstruction = false ∧ PassedOn 0x40001033 ∧
    ¬ Rejects 0x40001033 := by
  have hpassed : PassedOn 0x40001033 := (passedOn_iff _).mpr (Or.inl (by decide))
  refine ⟨by decide, by decide, by decide, hpassed, ?_⟩
  rintro ⟨_, hnot⟩
  exact hnot (by decide) hpassed

end HeliosXCore
