import HeliosXCore.Lib.Rv32i
import HeliosXCore.Rtl.Alu

/-! Branches and jumps against RV32I. `BranchUnit` decides a branch by bit 0 of `Alu` and adds the
    immediate to the base of the opcode; it never clears bit 0 of a jump target. -/

namespace HeliosXCore
open Rtl Rv32i

/-- The encoding of a comparison on the `op` port of `Alu`. -/
def aluOpOfCond : Cond → BitVec 4
  | .eq => AluOp.seq
  | .ne => AluOp.sne
  | .lt => AluOp.slt
  | .ge => AluOp.sge
  | .ltu => AluOp.sltu
  | .geu => AluOp.sgeu

namespace BranchUnit

/-- The inputs ask for this control transfer. -/
def Asks (i : BranchIn) : Transfer → Prop
  | .branch c => i.opcode = Opcode.branch ∧ i.aluOp = aluOpOfCond c
  | .jal => i.opcode = Opcode.jal
  | .jalr => i.opcode = Opcode.jalr

theorem getLsbD_ofBool32 (b : Bool) : (ofBool32 b).getLsbD 0 = b := by
  cases b <;> rfl

/-- Bit 0 of `Alu` is the comparison. -/
theorem alu_cond (c : Cond) (x y : Word) : (alu (aluOpOfCond c) x y).getLsbD 0 = c.holds x y := by
  cases c with
  | eq => exact getLsbD_ofBool32 (x == y)
  | ne => exact getLsbD_ofBool32 (x != y)
  | lt => exact getLsbD_ofBool32 (x.slt y)
  | ge => exact getLsbD_ofBool32 (y.sle x)
  | ltu => exact getLsbD_ofBool32 (x.ult y)
  | geu => exact getLsbD_ofBool32 (y.ule x)

variable {i : BranchIn}

theorem ifJump_branch {c : Cond} (h : Asks i (.branch c)) : ifJump i = c.holds i.src1 i.src2 := by
  have hjal : i.opcode ≠ Opcode.jal := by rw [h.1]; decide
  have hjalr : i.opcode ≠ Opcode.jalr := by rw [h.1]; decide
  rw [ifJump, if_neg (not_or.mpr ⟨hjal, hjalr⟩), h.2, alu_cond]

theorem jumpResult_branch {c : Cond} (h : Asks i (.branch c)) :
    jumpResult i = (Transfer.branch c).nextPc i.pc i.imm i.src1 i.src2 := by
  have hjalr : i.opcode ≠ Opcode.jalr := by rw [h.1]; decide
  rw [jumpResult, ifJump_branch h, jumpAddr, if_neg hjalr]
  rfl

theorem jumpResult_jal (h : Asks i .jal) :
    jumpResult i = Transfer.jal.nextPc i.pc i.imm i.src1 i.src2 := by
  have hop : i.opcode = Opcode.jal := h
  have hjalr : i.opcode ≠ Opcode.jalr := by rw [hop]; decide
  rw [jumpResult, ifJump, if_pos (Or.inl hop), if_pos rfl, jumpAddr, if_neg hjalr]
  rfl

theorem jumpResult_jalr (h : Asks i .jalr) : jumpResult i = i.src1 + i.imm := by
  have hop : i.opcode = Opcode.jalr := h
  rw [jumpResult, ifJump, if_pos (Or.inr hop), if_pos rfl, jumpAddr, if_pos hop]

/-- The outputs are what the control transfer should give. -/
def Resolves (i : BranchIn) (t : Transfer) : Prop :=
  (∀ c, t = .branch c → ifJump i = c.holds i.src1 i.src2) ∧
    jumpResult i = t.nextPc i.pc i.imm i.src1 i.src2 ∧ result i = i.pc + 4

/-- Every control transfer is resolved as RV32I says, but for JALR with an odd sum. -/
theorem resolves_iff {t : Transfer} (h : Asks i t) :
    Resolves i t ↔ ¬ (t = .jalr ∧ (i.src1 + i.imm).getLsbD 0 = true) := by
  cases t with
  | branch c =>
    have hjump : ∀ c', Transfer.branch c = .branch c' → ifJump i = c'.holds i.src1 i.src2 := by
      rintro c' hc
      cases hc
      exact ifJump_branch h
    simp [Resolves, result, jumpResult_branch h, hjump]
  | jal => simp [Resolves, result, jumpResult_jal h]
  | jalr =>
    have hjump : ∀ c, Transfer.jalr ≠ .branch c := by simp
    simp only [Resolves, result, jumpResult_jalr h, Transfer.nextPc, eq_clear_iff]
    simp [hjump]

/-- `bltu` with operands that differ in sign, and JALR with an odd sum. -/
def bltuIn : BranchIn := ⟨true, false, AluOp.sltu, 1, 0xFFFFFFFF, 0x80000000, 0x10, Opcode.branch⟩
def jalrIn : BranchIn := ⟨true, true, AluOp.add, 0x80000001, 0, 0x80000000, 4, Opcode.jalr⟩

theorem resolves_bltu_jalr :
    (Resolves bltuIn (.branch .ltu) ↔
      ¬ (Transfer.branch .ltu = .jalr ∧ (bltuIn.src1 + bltuIn.imm).getLsbD 0 = true)) ∧
    (Resolves jalrIn .jalr ↔
      ¬ (Transfer.jalr = .jalr ∧ (jalrIn.src1 + jalrIn.imm).getLsbD 0 = true)) :=
  ⟨resolves_iff ⟨rfl, rfl⟩, resolves_iff rfl⟩

/-- The target of that JALR is odd. -/
theorem jalr_keeps_bit_zero : Asks jalrIn .jalr ∧ jumpResult jalrIn = 0x80000005 ∧
    Transfer.jalr.nextPc jalrIn.pc jalrIn.imm jalrIn.src1 jalrIn.src2 = 0x80000004 ∧
    ¬ Resolves jalrIn .jalr := by
  refine ⟨rfl, by decide, by decide, ?_⟩
  rintro ⟨_, hres, _⟩
  revert hres
  decide

end BranchUnit

end HeliosXCore
