import HeliosXCore.Lib.History
import HeliosXCore.Core.Flow

/-! The sequential machine: one instruction at a time, with the decoder and the ALU of the core. -/

namespace HeliosXCore
open Rtl

/-- What a commit shows on the debug ports. -/
structure Retired where
  pc : Word
  regId : RegSel
  regWdata : Word
  regWen : Bool
  deriving DecidableEq

/-- Program counter and registers. -/
structure SeqState where
  pc : Word
  regs : RegSel → Word

namespace SeqState
variable (imem : Word → Word) (init : RegSel → Word)

/-- Register x0 reads as 0. -/
def read (s : SeqState) (r : RegSel) : Word := if r = 0 then 0 else s.regs r

def dec (s : SeqState) : Decoded := Decoder.decode (imem s.pc)

/-- The result of the instruction at the program counter. -/
def result (s : SeqState) : Word :=
  AluUnit.result (s.dec imem).aluOp (s.dec imem).srcASel (s.dec imem).srcBSel s.pc
    (ImmDecoder.imm (imem s.pc) (s.dec imem).immType) (s.read (s.dec imem).rs1)
    (s.read (s.dec imem).rs2)

def retire (s : SeqState) : Retired :=
  ⟨s.pc, (s.dec imem).rd, s.result imem, (s.dec imem).wrReg⟩

def next (s : SeqState) : SeqState where
  pc := s.pc + 4
  regs := if (s.dec imem).wrReg then Function.update s.regs (s.dec imem).rd (s.result imem)
    else s.regs

/-- The state after `k` instructions. -/
def after : ℕ → SeqState
  | 0 => ⟨entryPoint, init⟩
  | k + 1 => (after k).next imem

/-- What the first `n` instructions show. -/
def trace (n : ℕ) : List Retired := (List.range n).map fun k => (after imem init k).retire imem

theorem trace_succ (n : ℕ) :
    trace imem init (n + 1) = trace imem init n ++ [(after imem init n).retire imem] := by
  rw [trace, List.range_succ, List.map_append]
  rfl

theorem trace_prefix {m n : ℕ} (h : m ≤ n) : trace imem init m <+: trace imem init n := by
  induction n, h using Nat.le_induction with
  | base => exact List.prefix_rfl
  | succ n _ ih =>
    rw [trace_succ]
    exact ih.trans (List.prefix_append _ _)

theorem pc_after (k : ℕ) : (after imem init k).pc = Fetch.wordAddr k := by
  induction k with
  | zero => rfl
  | succ k ih =>
    rw [Fetch.wordAddr_succ, ← ih]
    rfl

theorem dec_after (k : ℕ) : (after imem init k).dec imem = (instAt imem k).dec := by
  rw [dec, pc_after]
  rfl

/-- The youngest of the first `k` instructions that writes `r`. -/
def writer (r : RegSel) (k : ℕ) : Option ℕ := lastBefore (fun i => (instAt imem i).dec.rd = r) k

/-- A register holds what its youngest writer computed. -/
theorem regs_after (himem : AluProgram imem) (r : RegSel) (k : ℕ) :
    (after imem init k).regs r =
      match writer imem r k with
      | none => init r
      | some p => (after imem init p).result imem := by
  induction k with
  | zero => rfl
  | succ k ih =>
    have hnext : (after imem init (k + 1)).regs = Function.update (after imem init k).regs
        (instAt imem k).dec.rd ((after imem init k).result imem) := by
      rw [after, next, dec_after, himem.wrReg, if_pos rfl]
    rw [hnext, Function.update_apply, writer, lastBefore_succ]
    by_cases hr : (instAt imem k).dec.rd = r
    · rw [if_pos hr.symm, if_pos hr]
    · rw [if_neg (Ne.symm hr), if_neg hr]
      exact ih

end SeqState

/-- The writers in the log are those of the program. -/
theorem AluTrace.writerBefore_eq {imem : Word → Word} {init : RegSel → Word} {T : ℕ → Traced}
    (h : AluTrace imem init T) (n : ℕ) (r : RegSel) (i : ℕ) (hi : i ≤ (T n).log.len) :
    (T n).log.writerBefore r i = SeqState.writer imem r i := by
  refine lastBefore_congr ?_
  intro j hj
  have hlt : j < (T n).log.accepted.length := Nat.lt_of_lt_of_le hj hi
  have ha : (T n).log.accepted[j]? = some (T n).log.accepted[j] := List.getElem?_eq_getElem hlt
  rw [Log.writes_iff ha, h.accepted_eq n ha]

end HeliosXCore
