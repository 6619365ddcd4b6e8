import HeliosXCore.Ex.Rv32i
import HeliosXCore.Lib.Hart

/-! What the words of the four ALU opcodes are executed as. The decoder looks at one bit of `funct7` and
    at that one only where ADD and SUB or the right shifts are told apart, so a reserved word and a word
    of the M extension run as the instruction whose encoding they come closest to. -/

namespace HeliosXCore
open Rtl Rv32i

/-- The instruction that a word of the ALU opcodes is executed as. -/
def executedAs (inst : Word) : Instr :=
  if opcode inst = Opcode.op then
    .op (if funct3 inst = 0 ∧ (funct7 inst).getLsbD 5 = true then .sub else baseFn (funct3 inst))
  else if opcode inst = Opcode.opImm then
    if funct3 inst = 1 ∨ funct3 inst = 5 then .shiftImm (baseFn (funct3 inst)) (shamt inst)
    else .opImm (baseFn (funct3 inst)) (imm12 inst)
  else if opcode inst = Opcode.lui then .lui (imm20 inst)
  else .auipc (imm20 inst)

section Opcodes
variable {inst : Word}

theorem executedAs_op (h : opcode inst = Opcode.op) : executedAs inst = .op (if funct3 inst = 0 ∧
    (funct7 inst).getLsbD 5 = true then .sub else baseFn (funct3 inst)) := if_pos h

theorem executedAs_opImm (h : opcode inst = Opcode.opImm) : executedAs inst =
    if funct3 inst = 1 ∨ funct3 inst = 5 then .shiftImm (baseFn (funct3 inst)) (shamt inst)
    else .opImm (baseFn (funct3 inst)) (imm12 inst) := by
  rw [executedAs, h]
  rfl

theorem executedAs_lui (h : opcode inst = Opcode.lui) : executedAs inst = .lui (imm20 inst) := by
  rw [executedAs, h]
  rfl

theorem executedAs_auipc (h : opcode inst = Opcode.auipc) :
    executedAs inst = .auipc (imm20 inst) := by
  rw [executedAs, h]
  rfl

end Opcodes

/-- What `aluOpArith` selects computes as ADD, SUB or the computation of `funct3`. -/
theorem alu_aluOpArith (inst : Word) (x y : Word) : alu (Decoder.aluOpArith inst) x y =
    if funct3 inst = 0 then alu (Decoder.addOrSub inst) x y
    else (baseFn (funct3 inst)).eval x y := by
  have hbase : ∀ f3 : BitVec 3, baseFn f3 ≠ .sra := by decide
  rw [aluOpArith_eq]
  by_cases h0 : funct3 inst = 0
  · rw [if_pos h0, if_pos h0]
  · rw [if_neg h0, if_neg h0]
    by_cases h5 : funct3 inst = 5
    · rw [if_pos h5, h5, srlOrSra_eq]
      -- both right shifts are logical
      split_ifs
      · exact alu_sra x y
      · exact alu_eq_eval .srl (by decide) x y
    · rw [if_neg h5]
      exact alu_eq_eval _ (hbase _) x y

/-- The low five bits of the immediate are the shift amount. -/
theorem shift_immI {fn : Fn} (hfn : fn.isShift = true) (inst x : Word) :
    fn.eval x (ImmDecoder.immI inst) = fn.eval x ((shamt inst).setWidth 32) := by
  have hlt := (shamt inst).isLt
  refine Fn.eval_shift hfn x ?_
  rw [immI_mod, BitVec.toNat_setWidth]
  omega

/-- ADD of an opcode other than OP, which has no SUB. -/
theorem addOrSub_opImm {inst : Word} (h : opcode inst = Opcode.opImm) :
    Decoder.addOrSub inst = AluOp.add := by
  have h' : Decoder.opcode inst = Opcode.opImm := h
  simp only [Decoder.addOrSub, h']
  rfl

theorem addOrSub_op {inst : Word} (h : opcode inst = Opcode.op) : Decoder.addOrSub inst =
    if (funct7 inst).getLsbD 5 = true then aluOpOf .sub else aluOpOf .add := by
  have h' : Decoder.opcode inst = Opcode.op := h
  simp only [Decoder.addOrSub, h', true_and]
  rfl

/-- `AluUnit` computes, for every word of the four opcodes, the value of the instruction that the word
    is executed as. -/
theorem executed_eq {inst : Word}
    (h : opcode inst = Opcode.op ∨ opcode inst = Opcode.opImm ∨ opcode inst = Opcode.lui ∨
      opcode inst = Opcode.auipc) (pc x1 x2 : Word) :
    executed inst pc x1 x2 = (executedAs inst).result pc x1 x2 := by
  rcases h with hop | himm | hlui | hauipc
  · have hex : executed inst pc x1 x2 = alu (Decoder.aluOpArith inst) x1 x2 := by
      simp only [executed, Decoder.decode, byOpcode_row hop]
      rfl
    rw [hex, executedAs_op hop, alu_aluOpArith, addOrSub_op hop, Instr.result, Instr.operand]
    by_cases h0 : funct3 inst = 0
    · rw [if_pos h0, h0]
      cases (funct7 inst).getLsbD 5 <;> rfl
    · rw [if_neg h0, if_neg fun h => h0 h.1]
  · have hex : executed inst pc x1 x2 =
        alu (Decoder.aluOpArith inst) x1 (ImmDecoder.immI inst) := by
      simp only [executed, Decoder.decode, byOpcode_row himm]
      rfl
    rw [hex, executedAs_opImm himm, alu_aluOpArith, addOrSub_opImm himm]
    by_cases h0 : funct3 inst = 0
    · rw [if_pos h0, h0, if_neg (by decide), Instr.result, Instr.operand, immI_eq]
      rfl
    · rw [if_neg h0]
      by_cases hsh : funct3 inst = 1 ∨ funct3 inst = 5
      · have hshift : (baseFn (funct3 inst)).isShift = true := by
          rcases hsh with h1 | h5
          · rw [h1]
            rfl
          · rw [h5]
            rfl
        rw [if_pos hsh, Instr.result, Instr.operand, shift_immI hshift]
      · rw [if_neg hsh, Instr.result, Instr.operand, immI_eq]
  · have hex : executed inst pc x1 x2 = 0 + ImmDecoder.immU inst := by
      simp only [executed, Decoder.decode, byOpcode_row hlui]
      rfl
    rw [hex, executedAs_lui hlui, immU_eq]
    exact BitVec.zero_add _
  · have hex : executed inst pc x1 x2 = pc + ImmDecoder.immU inst := by
      simp only [executed, Decoder.decode, byOpcode_row hauipc]
      rfl
    rw [hex, executedAs_auipc hauipc, immU_eq]
    rfl

/-! ### Legal words -/

/-- The instruction with a logical shift in the place of an arithmetic one. -/
def logical : Instr → Instr
  | .op .sra => .op .srl
  | .shiftImm .sra n => .shiftImm .srl n
  | ins => ins

/-- A legal word is executed as what it encodes, up to the arithmetic shift. -/
theorem executedAs_of_decode {inst : Word} {ins : Instr} (h : decode inst = some ins) :
    executedAs inst = logical ins := by
  have hlog : ∀ f3 : BitVec 3, logical (.op (baseFn f3)) = .op (baseFn f3) := by decide
  unfold decode at h
  split_ifs at h with hop himm hlui hauipc
  · unfold decodeOp at h
    rw [executedAs_op hop]
    split_ifs at h with h7 hsub hsra
    · obtain rfl := Option.some.inj h
      rw [hlog, h7, if_neg fun hb => absurd hb.2 (by decide)]
    · obtain rfl := Option.some.inj h
      rw [hsub.1, hsub.2, if_pos (by decide)]
      rfl
    · obtain rfl := Option.some.inj h
      rw [hsra.1, hsra.2, if_neg (by decide)]
      rfl
  · unfold decodeOpImm at h
    rw [executedAs_opImm himm]
    split_ifs at h with h1 h7 h5 h7 h7
    · obtain rfl := Option.some.inj h
      rw [h1, if_pos (by decide)]
      rfl
    · obtain rfl := Option.some.inj h
      rw [h5, if_pos (by decide)]
      rfl
    · obtain rfl := Option.some.inj h
      rw [h5, if_pos (by decide)]
      rfl
    · obtain rfl := Option.some.inj h
      rw [if_neg (not_or.mpr ⟨h1, h5⟩)]
      rfl
  · obtain rfl := Option.some.inj h
    exact executedAs_lui hlui
  · obtain rfl := Option.some.inj h
    exact executedAs_auipc hauipc

/-- A logical shift gives another value exactly for a negative value and at least one place. -/
theorem result_logical_iff (ins : Instr) (pc x1 x2 : Word) :
    (logical ins).result pc x1 x2 = ins.result pc x1 x2 ↔
      ¬ (isSra ins = true ∧ x1.msb = true ∧ (ins.operand x2).toNat % 32 ≠ 0) := by
  have hsra : ∀ y : Word, Fn.srl.eval x1 y = Fn.sra.eval x1 y ↔
      ¬ (x1.msb = true ∧ y.toNat % 32 ≠ 0) := by
    intro y
    rw [Fn.eval, Fn.eval, ushiftRight_eq_sshiftRight_iff]
    simp only [not_and_or, not_not, Bool.not_eq_true]
  cases ins with
  | op fn =>
    cases fn <;> simp only [logical, isSra, Instr.result, Instr.operand, hsra] <;> simp
  | shiftImm fn n =>
    cases fn <;> simp only [logical, isSra, Instr.result, Instr.operand, hsra] <;> simp
  | opImm fn imm => simp [logical, isSra]
  | lui imm => simp [logical, isSra]
  | auipc imm => simp [logical, isSra]

/-- A word of the M extension is executed as the computation with its `funct3`. -/
theorem executedAs_isM {inst : Word} (h : isM inst = true) :
    executedAs inst = .op (baseFn (funct3 inst)) := by
  simp only [isM, Bool.and_eq_true, beq_iff_eq] at h
  rw [executedAs_op h.1, h.2, if_neg fun hb => absurd hb.2 (by decide)]

end HeliosXCore
