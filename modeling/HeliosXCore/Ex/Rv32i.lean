import HeliosXCore.Lib.Rv32i
import HeliosXCore.Rtl.Alu
import HeliosXCore.Rtl.Decoder

/-! Decode and execute against the RV32I instruction set.

    For every legal word of the opcodes OP, OP-IMM, LUI and AUIPC the decoder selects the operation,
    the operands and the immediate of the instruction, and `AluUnit` computes its value. The one
    exception is the arithmetic right shift, which `Alu` does as a logical one. -/

namespace HeliosXCore
open Rtl Rv32i

/-- The encoding of a computation on the `op` port of `Alu`. -/
def aluOpOf : Fn → BitVec 4
  | .add => AluOp.add
  | .sub => AluOp.sub
  | .sll => AluOp.sll
  | .slt => AluOp.slt
  | .sltu => AluOp.sltu
  | .xor => AluOp.xor
  | .srl => AluOp.srl
  | .sra => AluOp.sra
  | .or => AluOp.or
  | .and => AluOp.and

/-- The instruction is SRA or SRAI. -/
def isSra : Instr → Bool
  | .op fn => fn == .sra
  | .shiftImm fn _ => fn == .sra
  | _ => false

/-- What `AluUnit` computes for a word at `pc`, given what the two decoders make of it. -/
def executed (inst pc x1 x2 : Word) : Word :=
  let dec := Decoder.decode inst
  AluUnit.result dec.aluOp dec.srcASel dec.srcBSel pc (ImmDecoder.imm inst dec.immType) x1 x2

/-! ### The ALU -/

theorem toNat_shamt (y : Word) : (y.extractLsb' 0 5).toNat = y.toNat % 32 := by
  simp [BitVec.extractLsb'_toNat]

theorem ofBool32_decide (p : Prop) [Decidable p] : ofBool32 (decide p) = if p then 1 else 0 := by
  by_cases h : p <;> simp [h, ofBool32]

/-- `Alu` computes every operation but the arithmetic shift, -/
theorem alu_eq_eval (fn : Fn) (hfn : fn ≠ .sra) (x y : Word) :
    alu (aluOpOf fn) x y = fn.eval x y := by
  cases fn with
  | add => rfl
  | sub => rfl
  | sll => exact congrArg (fun n => x <<< n) (toNat_shamt y)
  | slt => exact ofBool32_decide _
  | sltu => exact ofBool32_decide _
  | xor => rfl
  | srl => exact congrArg (fun n => x >>> n) (toNat_shamt y)
  | sra => exact absurd rfl hfn
  | or => rfl
  | and => rfl

/-- and that one as a logical shift. -/
theorem alu_sra (x y : Word) : alu (aluOpOf .sra) x y = x >>> (y.toNat % 32) :=
  congrArg (fun n => x >>> n) (toNat_shamt y)

theorem alu_eq_eval_iff (fn : Fn) (x y : Word) :
    alu (aluOpOf fn) x y = fn.eval x y ↔ ¬ (fn = .sra ∧ x.msb = true ∧ y.toNat % 32 ≠ 0) := by
  by_cases hfn : fn = .sra
  · subst hfn
    rw [alu_sra, Fn.eval, ushiftRight_eq_sshiftRight_iff]
    simp only [true_and, not_and_or, not_not, Bool.not_eq_true]
  · simp [alu_eq_eval fn hfn, hfn]

/-! ### The decoders -/

theorem immI_eq (inst : Word) : ImmDecoder.immI inst = (imm12 inst).signExtend 32 := by
  apply BitVec.eq_of_getLsbD_eq
  intro i hi
  simp only [ImmDecoder.immI, ImmDecoder.sign, imm12, BitVec.getLsbD_append,
    BitVec.getLsbD_signExtend, BitVec.getLsbD_extractLsb', BitVec.msb_extractLsb']
  grind

theorem immU_eq (inst : Word) : ImmDecoder.immU inst = imm20 inst ++ 0#12 := by
  apply BitVec.eq_of_getLsbD_eq
  intro i hi
  simp only [ImmDecoder.immU, imm20, BitVec.getLsbD_append, BitVec.getLsbD_extractLsb']
  grind

/-- The low bits of the immediate are the shift amount. -/
theorem immI_mod (inst : Word) : (ImmDecoder.immI inst).toNat % 32 = (shamt inst).toNat := by
  rw [← toNat_shamt]
  congr 1
  apply BitVec.eq_of_getLsbD_eq
  intro i hi
  simp only [ImmDecoder.immI, ImmDecoder.sign, shamt, BitVec.getLsbD_append,
    BitVec.getLsbD_extractLsb']
  grind

section decoders
variable {inst : Word}

/-- A table by opcode reads the same row for every word of that opcode. -/
theorem byOpcode_row {α : Type} {opc : BitVec 7} (h : opcode inst = opc) (a b c d e f g k l : α) :
    Decoder.byOpcode inst a b c d e f g k l =
      Decoder.byOpcode (opc.setWidth 32) a b c d e f g k l := by
  have hsame : Decoder.opcode (opc.setWidth 32) = Decoder.opcode inst := by
    rw [← h]
    apply BitVec.eq_of_getLsbD_eq
    intro i hi
    simp only [Decoder.opcode, opcode, BitVec.getLsbD_extractLsb', BitVec.getLsbD_setWidth, hi]
    grind
  simp only [Decoder.byOpcode, hsame]

/-- The operation of `funct3`, given what ADD/SUB and SRL/SRA resolve to. -/
theorem aluOpArith_eq (inst : Word) : Decoder.aluOpArith inst =
    if funct3 inst = 0 then Decoder.addOrSub inst
    else if funct3 inst = 5 then Decoder.srlOrSra inst
    else aluOpOf (baseFn (funct3 inst)) := by
  have hf : funct3 inst = Decoder.funct3 inst := rfl
  rw [hf, Decoder.aluOpArith]
  generalize Decoder.addOrSub inst = a
  generalize Decoder.srlOrSra inst = b
  generalize Decoder.funct3 inst = f3
  revert f3 a b
  decide

theorem srlOrSra_eq (inst : Word) : Decoder.srlOrSra inst =
    if (funct7 inst).getLsbD 5 then aluOpOf .sra else aluOpOf .srl := rfl

theorem aluOpArith_op {ins : Instr} (h : opcode inst = Opcode.op)
    (hd : decodeOp inst = some ins) :
    ∃ fn, ins = .op fn ∧ Decoder.aluOpArith inst = aluOpOf fn := by
  have hsub : Decoder.addOrSub inst =
      if (funct7 inst).getLsbD 5 then aluOpOf .sub else aluOpOf .add := by
    have h' : Decoder.opcode inst = Opcode.op := h
    simp only [Decoder.addOrSub, h', true_and]
    rfl
  rw [aluOpArith_eq, hsub, srlOrSra_eq]
  unfold decodeOp at hd
  split_ifs at hd with h7 hsub hsra
  · refine ⟨_, (Option.some.inj hd).symm, ?_⟩
    rw [h7]
    generalize funct3 inst = f3
    revert f3
    decide
  · refine ⟨_, (Option.some.inj hd).symm, ?_⟩
    rw [hsub.1, hsub.2]
    rfl
  · refine ⟨_, (Option.some.inj hd).symm, ?_⟩
    rw [hsra.1, hsra.2]
    rfl

/-- The upper bits of the immediate tell SRAI from SRLI, and nothing else. -/
theorem aluOpArith_opImm {ins : Instr} (h : opcode inst = Opcode.opImm)
    (hd : decodeOpImm inst = some ins) :
    ∃ fn, (ins = .opImm fn (imm12 inst) ∧ fn ≠ .sra ∨ ins = .shiftImm fn (shamt inst) ∧ fn.isShift) ∧
      Decoder.aluOpArith inst = aluOpOf fn := by
  have hadd : Decoder.addOrSub inst = aluOpOf .add := by
    have h' : Decoder.opcode inst = Opcode.opImm := h
    simp only [Decoder.addOrSub, h']
    rfl
  rw [aluOpArith_eq, hadd, srlOrSra_eq]
  unfold decodeOpImm at hd
  split_ifs at hd with h1 h7 h5 h7 h7
  · refine ⟨_, Or.inr ⟨(Option.some.inj hd).symm, rfl⟩, ?_⟩
    rw [h1]
    rfl
  · refine ⟨_, Or.inr ⟨(Option.some.inj hd).symm, rfl⟩, ?_⟩
    rw [h5, h7]
    rfl
  · refine ⟨_, Or.inr ⟨(Option.some.inj hd).symm, rfl⟩, ?_⟩
    rw [h5, h7]
    rfl
  · have hfn : ∀ f3 : BitVec 3, baseFn f3 ≠ .sra := by decide
    have hadd0 : aluOpOf .add = aluOpOf (baseFn 0) := rfl
    refine ⟨_, Or.inl ⟨(Option.some.inj hd).symm, hfn _⟩, ?_⟩
    rw [if_neg h5]
    split_ifs with h0
    · rw [h0, hadd0]
    · rfl

end decoders

/-! ### The instructions -/

/-- For every legal word of the four opcodes `AluUnit` computes what the instruction set says,
    except for an arithmetic right shift of a negative value by at least one place. -/
theorem executed_eq_result_iff {inst : Word} {ins : Instr} (h : decode inst = some ins)
    (pc x1 x2 : Word) : executed inst pc x1 x2 = ins.result pc x1 x2 ↔
      ¬ (isSra ins = true ∧ x1.msb = true ∧ (ins.operand x2).toNat % 32 ≠ 0) := by
  unfold decode at h
  split_ifs at h with hop himm hlui hauipc
  · rcases aluOpArith_op hop h with ⟨fn, rfl, harith⟩
    have hex : executed inst pc x1 x2 = alu (aluOpOf fn) x1 x2 := by
      simp only [executed, Decoder.decode, byOpcode_row hop, harith]
      rfl
    rw [hex, Instr.result, Instr.operand, alu_eq_eval_iff]
    simp [isSra]
  · rcases aluOpArith_opImm himm h with ⟨fn, hins, harith⟩
    have hex : executed inst pc x1 x2 = alu (aluOpOf fn) x1 (ImmDecoder.immI inst) := by
      simp only [executed, Decoder.decode, byOpcode_row himm, harith]
      rfl
    rcases hins with ⟨rfl, hfn⟩ | ⟨rfl, hfn⟩
    · rw [hex, immI_eq, Instr.result, Instr.operand, alu_eq_eval fn hfn]
      simp [isSra]
    · have hmod : ((shamt inst).setWidth 32).toNat % 32 = (shamt inst).toNat := by
        have hlt := (shamt inst).isLt
        rw [BitVec.toNat_setWidth]
        omega
      have hsh := Fn.eval_shift hfn x1 ((immI_mod inst).trans hmod.symm)
      rw [hex, Instr.result, Instr.operand, ← hsh, alu_eq_eval_iff, immI_mod, hmod]
      simp [isSra]
  · cases h
    have hex : executed inst pc x1 x2 = 0 + ImmDecoder.immU inst := by
      simp only [executed, Decoder.decode, byOpcode_row hlui]
      rfl
    rw [hex, immU_eq, Instr.result, Instr.operand]
    simp [isSra]
  · cases h
    have hex : executed inst pc x1 x2 = pc + ImmDecoder.immU inst := by
      simp only [executed, Decoder.decode, byOpcode_row hauipc]
      rfl
    rw [hex, immU_eq, Instr.result, Instr.operand]
    simp [isSra]

/-- `sub x1, x1, x2`, where the two agree, and `sra x1, x1, x2` of a nonnegative value. -/
theorem executed_sub_sra :
    (executed 0x402080B3 0 7 9 = (Instr.op .sub).result 0 7 9 ↔
      ¬ (isSra (.op .sub) = true ∧ BitVec.msb (7 : Word) = true ∧
        ((Instr.op .sub).operand 9).toNat % 32 ≠ 0)) ∧
    (executed 0x4020D0B3 0 7 1 = (Instr.op .sra).result 0 7 1 ↔
      ¬ (isSra (.op .sra) = true ∧ BitVec.msb (7 : Word) = true ∧
        ((Instr.op .sra).operand 1).toNat % 32 ≠ 0)) :=
  ⟨executed_eq_result_iff (by decide) 0 7 9, executed_eq_result_iff (by decide) 0 7 1⟩

/-- `sra x1, x1, x2` of the least value by one place: 0x40000000, for 0xC0000000. -/
theorem executed_sra_negative : decode 0x4020D0B3 = some (.op .sra) ∧
    executed 0x4020D0B3 0 0x80000000 1 ≠ (Instr.op .sra).result 0 0x80000000 1 := by
  decide

end HeliosXCore
