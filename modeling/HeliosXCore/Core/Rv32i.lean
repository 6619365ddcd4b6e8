import HeliosXCore.Core.Registers
import HeliosXCore.Ex.Alias

/-! The core against RV32I. The core retires what a hart does that executes each word as the decoder
    and the ALU take it. On a program of legal words this is what RV32I asks for up to the first
    arithmetic right shift of a negative value. -/

namespace HeliosXCore
open Rtl Rv32i

/-- The instruction that a word is executed as, with its registers. -/
def aliasOf (w : Word) : Inst := ⟨executedAs w, rd w, rs1 w, rs2 w⟩

/-- The core leaves reset with any contents of the register file. -/
def hart (s : HeliosX) : Hart := ⟨entryPoint, s.dp.arf.mem⟩

/-- What the debug ports show of an executed instruction. -/
def shown (e : Effect) : Retired := ⟨e.pc, e.rd, e.value, true⟩

/-! ### The sequential machine and the hart -/

section Simulation
variable {imem : Word → Word} (himem : AluProgram imem) (init : RegSel → Word)

/-- Equal up to register x0, which the register file keeps and nobody reads. -/
structure SameRegs (t : SeqState) (h : Hart) : Prop where
  pc : t.pc = h.pc
  regs : ∀ r, r ≠ 0 → t.regs r = h.regs r

theorem SameRegs.read {t : SeqState} {h : Hart} (hs : SameRegs t h) (r : RegSel) :
    t.read r = h.read r := by
  rw [SeqState.read, Hart.read]
  split_ifs with h0
  · rfl
  · exact hs.regs r h0

include himem

theorem SameRegs.value {t : SeqState} {h : Hart} (hs : SameRegs t h) :
    t.result imem = h.value fun a => aliasOf (imem a) := by
  have hop := (isAlu_iff_opcode _).mp (himem t.pc)
  have hex := executed_eq hop t.pc (t.read (rs1 (imem t.pc))) (t.read (rs2 (imem t.pc)))
  refine Eq.trans (show t.result imem = executed (imem t.pc) t.pc _ _ from rfl) (hex.trans ?_)
  rw [hs.read, hs.read, hs.pc]
  rfl

theorem SameRegs.next {t : SeqState} {h : Hart} (hs : SameRegs t h) :
    SameRegs (t.next imem) (h.next fun a => aliasOf (imem a)) where
  pc := congrArg (· + 4) hs.pc
  regs := by
    intro r hr
    have hwr : (t.dec imem).wrReg = true := (himem t.pc).1
    have hrd : (t.dec imem).rd = rd (imem h.pc) := by
      rw [← hs.pc]
      rfl
    rw [SeqState.next, Hart.next, hwr, if_pos rfl, hrd, hs.value himem]
    change Function.update t.regs (rd (imem h.pc)) _ r =
      (if rd (imem h.pc) = 0 then h.regs else Function.update h.regs (rd (imem h.pc)) _) r
    split_ifs with h0
    · rw [Function.update_of_ne (by rw [h0]; exact hr)]
      exact hs.regs r hr
    · rw [Function.update_apply, Function.update_apply, hs.regs r hr]

theorem sameRegs_after (k : ℕ) : SameRegs (SeqState.after imem init k)
    (Hart.after (fun a => aliasOf (imem a)) ⟨entryPoint, init⟩ k) := by
  induction k with
  | zero => exact ⟨rfl, fun _ _ => rfl⟩
  | succ k ih => exact ih.next himem

theorem retire_eq (k : ℕ) : (SeqState.after imem init k).retire imem = shown
    ((Hart.after (fun a => aliasOf (imem a)) ⟨entryPoint, init⟩ k).effect
      fun a => aliasOf (imem a)) := by
  have hs := sameRegs_after himem init k
  have hwr : ((SeqState.after imem init k).dec imem).wrReg = true := (himem _).1
  rw [SeqState.retire, hwr, hs.value himem, shown, Hart.effect, ← hs.pc]
  rfl

theorem seqTrace_eq (n : ℕ) : SeqState.trace imem init n =
    (Hart.trace (fun a => aliasOf (imem a)) ⟨entryPoint, init⟩ n).map shown := by
  rw [SeqState.trace, Hart.trace, List.map_map]
  exact List.map_congr_left fun k _ => retire_eq himem init k

end Simulation

/-! ### Legal programs -/

/-- The next instruction is an arithmetic right shift of a negative value by at least one place. -/
def ShiftsNegative (code : Word → Inst) (h : Hart) : Prop :=
  isSra (code h.pc).instr = true ∧ (h.read (code h.pc).rs1).msb = true ∧
    ((code h.pc).instr.operand (h.read (code h.pc).rs2)).toNat % 32 ≠ 0

section Legal
variable {imem : Word → Word} {code : Word → Inst} (hcode : ∀ a, decodeInst (imem a) = some (code a))
include hcode

theorem decode_code (a : Word) : decode (imem a) = some (code a).instr ∧ rd (imem a) = (code a).rd ∧
    rs1 (imem a) = (code a).rs1 ∧ rs2 (imem a) = (code a).rs2 := by
  obtain ⟨i, hi, heq⟩ := Option.map_eq_some_iff.mp (hcode a)
  rw [hi, ← heq]
  exact ⟨rfl, rfl, rfl, rfl⟩

theorem aliasOf_eq (a : Word) :
    aliasOf (imem a) = { code a with instr := logical (code a).instr } := by
  obtain ⟨hd, h1, h2, h3⟩ := decode_code hcode a
  rw [aliasOf, executedAs_of_decode hd, h1, h2, h3]

/-- A program of legal words is one of ALU instructions. -/
theorem aluProgram_of_legal : AluProgram imem := by
  intro a
  have hd := (decode_code hcode a).1
  refine (isAlu_iff_opcode _).mpr ?_
  unfold decode at hd
  split_ifs at hd with hop himm hlui hauipc
  · exact Or.inl hop
  · exact Or.inr (Or.inl himm)
  · exact Or.inr (Or.inr (Or.inl hlui))
  · exact Or.inr (Or.inr (Or.inr hauipc))

theorem value_eq_iff (h : Hart) : (h.value fun a => aliasOf (imem a)) = h.value code ↔
    ¬ ShiftsNegative code h := by
  have hval : (h.value fun a => aliasOf (imem a)) =
      (logical (code h.pc).instr).result h.pc (h.read (code h.pc).rs1)
        (h.read (code h.pc).rs2) := by
    rw [Hart.value, aliasOf_eq hcode]
  rw [hval]
  exact result_logical_iff _ _ _ _

end Legal

theorem shown_injective : Function.Injective shown := by
  rintro ⟨p, r, v⟩ ⟨p', r', v'⟩ h
  simpa [shown] using h

namespace Core
variable {imem : Word → Word} {s : HeliosX}

theorem retired_eq_trace (himem : AluProgram imem) (hs : s.AfterReset) (dmem : ℕ → Word) (N : ℕ) :
    retired imem dmem s N = (Hart.trace (fun a => aliasOf (imem a)) (hart s)
      (retired imem dmem s N).length).map shown ∧ (retired imem dmem s N).length ≤ N := by
  cases N with
  | zero => exact ⟨rfl, Nat.le_refl 0⟩
  | succ n =>
    have h := AluTrace.cycle himem hs dmem
    constructor
    · rw [length_retired_succ himem hs, retired_succ himem hs]
      exact seqTrace_eq himem _ _
    · rw [length_retired_succ himem hs]
      exact Nat.le_succ_of_le (h.com_le n)

/-- Every program of the opcodes OP, OP-IMM, LUI and AUIPC runs as on a hart that executes each word,
    reserved and multiplication words included, as the instruction that `executedAs` says. -/
theorem runs_aliases (himem : AluProgram imem) (hs : s.AfterReset) (dmem : ℕ → Word) (N : ℕ) :
    retired imem dmem s N <+:
      (Hart.trace (fun a => aliasOf (imem a)) (hart s) N).map shown := by
  obtain ⟨heq, hle⟩ := retired_eq_trace himem hs dmem N
  rw [heq]
  exact (Hart.trace_prefix _ _ hle).map shown

/-- `mul x1, x1, x1` everywhere. -/
def squares : Word → Word := fun _ => 0x021080B3

/-- It is executed as `add x1, x1, x1`. -/
theorem runs_aliases_squares : executedAs 0x021080B3 = .op .add ∧
    retired squares (fun _ => 0) HeliosX.ofReset 20 <+:
      (Hart.trace (fun a => aliasOf (squares a)) (hart HeliosX.ofReset) 20).map shown := by
  have himem : AluProgram squares := by
    intro _
    change (Decoder.decode 0x021080B3).IsAlu
    decide
  exact ⟨by decide, runs_aliases himem HeliosX.afterReset_ofReset (fun _ => 0) 20⟩

/-- The core conforms to RV32I as long as no arithmetic right shift of a negative value is among the
    instructions it retires, and no longer. -/
theorem conforms_iff {code : Word → Inst} (hcode : ∀ a, decodeInst (imem a) = some (code a))
    (hs : s.AfterReset) (dmem : ℕ → Word) (N : ℕ) :
    retired imem dmem s N <+: (Hart.trace code (hart s) N).map shown ↔
      ∀ k, k < (retired imem dmem s N).length → ¬ ShiftsNegative code (Hart.after code (hart s) k) := by
  obtain ⟨heq, hle⟩ := retired_eq_trace (aluProgram_of_legal hcode) hs dmem N
  have hrd : ∀ a, (code a).rd = (aliasOf (imem a)).rd := by
    intro a
    rw [aliasOf_eq hcode]
  have htake : ∀ n, n ≤ N → ((Hart.trace code (hart s) N).map shown).take n =
      (Hart.trace code (hart s) n).map shown := by
    intro n hn
    have hpre := (Hart.trace_prefix code (hart s) hn).map shown
    rw [List.prefix_iff_eq_take, List.length_map, Hart.length_trace] at hpre
    exact hpre.symm
  rw [List.prefix_iff_eq_take, htake _ hle]
  rw [heq, List.length_map, Hart.length_trace, (List.map_injective_iff.mpr shown_injective).eq_iff,
    eq_comm, Hart.trace_eq_iff hrd]
  refine forall₂_congr fun k _ => ?_
  rw [← value_eq_iff hcode, eq_comm]

/-- `lui x1, 0x80000` and then `srai x2, x1, 4` everywhere. -/
def shiftMin : Word → Word := fun a => if a = entryPoint then 0x800000B7 else 0x4040D113

def shiftMinCode : Word → Inst := fun a =>
  if a = entryPoint then ⟨.lui 0x80000, 1, 0, 0⟩ else ⟨.shiftImm .sra 4, 2, 1, 4⟩

theorem decodeInst_shiftMin (a : Word) : decodeInst (shiftMin a) = some (shiftMinCode a) := by
  unfold shiftMin shiftMinCode
  split_ifs <;> decide

theorem conforms_iff_shiftMin : retired shiftMin (fun _ => 0) HeliosX.ofReset 20 <+:
      (Hart.trace shiftMinCode (hart HeliosX.ofReset) 20).map shown ↔
    ∀ k, k < (retired shiftMin (fun _ => 0) HeliosX.ofReset 20).length →
      ¬ ShiftsNegative shiftMinCode (Hart.after shiftMinCode (hart HeliosX.ofReset) k) :=
  conforms_iff decodeInst_shiftMin HeliosX.afterReset_ofReset (fun _ => 0) 20

end Core

end HeliosXCore
