import HeliosXCore.Lib.Rv32i

/-! A hart that executes the integer computations of RV32I, one after the other, and what two programs
    that differ in some computations have in common. -/

namespace Rv32i

/-- An instruction with its registers. -/
structure Inst where
  instr : Instr
  rd : BitVec 5
  rs1 : BitVec 5
  rs2 : BitVec 5
  deriving DecidableEq, Repr

def rd (w : BitVec 32) : BitVec 5 := w.extractLsb' 7 5
def rs1 (w : BitVec 32) : BitVec 5 := w.extractLsb' 15 5
def rs2 (w : BitVec 32) : BitVec 5 := w.extractLsb' 20 5

/-- What a legal word encodes. -/
def decodeInst (w : BitVec 32) : Option Inst := (decode w).map fun i => ⟨i, rd w, rs1 w, rs2 w⟩

/-- Address, destination and value of an executed instruction. -/
structure Effect where
  pc : BitVec 32
  rd : BitVec 5
  value : BitVec 32
  deriving DecidableEq, Repr

/-- The state of a hart: program counter and registers. -/
structure Hart where
  pc : BitVec 32
  regs : BitVec 5 → BitVec 32

namespace Hart
variable (code : BitVec 32 → Inst) (h : Hart)

/-- Register x0 is 0. -/
def read (r : BitVec 5) : BitVec 32 := if r = 0 then 0 else h.regs r

/-- The value that the instruction at the program counter computes. -/
def value : BitVec 32 :=
  (code h.pc).instr.result h.pc (h.read (code h.pc).rs1) (h.read (code h.pc).rs2)

/-- What it does. -/
def effect : Effect := ⟨h.pc, (code h.pc).rd, h.value code⟩

/-- What is written to x0 is lost. -/
def next : Hart where
  pc := h.pc + 4
  regs := if (code h.pc).rd = 0 then h.regs else Function.update h.regs (code h.pc).rd (h.value code)

/-- The state after `k` instructions. -/
def after : ℕ → Hart
  | 0 => h
  | k + 1 => (after k).next code

/-- The effects of the first `n` instructions. -/
def trace (n : ℕ) : List Effect := (List.range n).map fun k => (h.after code k).effect code

theorem length_trace (n : ℕ) : (h.trace code n).length = n := by
  rw [trace, List.length_map, List.length_range]

theorem trace_prefix {m n : ℕ} (hmn : m ≤ n) : h.trace code m <+: h.trace code n := by
  obtain ⟨d, rfl⟩ := Nat.exists_eq_add_of_le hmn
  rw [trace, trace, List.range_add, List.map_append]
  exact List.prefix_append _ _

variable {code h} {code' : BitVec 32 → Inst}

/-- As long as they compute the same values, two programs with the same destinations run alike. -/
theorem after_congr (hrd : ∀ a, (code a).rd = (code' a).rd) {n : ℕ}
    (hv : ∀ k, k < n → (h.after code k).value code = (h.after code k).value code') :
    h.after code n = h.after code' n := by
  induction n with
  | zero => rfl
  | succ n ih =>
    have heq := ih fun k hk => hv k (Nat.lt_succ_of_lt hk)
    rw [after, after, ← heq, next, next, hv n (Nat.lt_succ_self n), hrd]

/-- They have the same trace exactly if they compute the same values. -/
theorem trace_eq_iff (hrd : ∀ a, (code a).rd = (code' a).rd) {n : ℕ} :
    h.trace code n = h.trace code' n ↔
      ∀ k, k < n → (h.after code k).value code = (h.after code k).value code' := by
  constructor
  · intro heq k
    induction k using Nat.strong_induction_on with
    | h k ih =>
      intro hk
      have hk' := congrArg (fun l : List Effect => l[k]?.map Effect.value) heq
      have hafter : h.after code k = h.after code' k :=
        after_congr hrd fun j hj => ih j hj (by omega)
      simpa [trace, hk, ← hafter, effect] using hk'
  · intro hv
    refine List.map_congr_left fun k hk => ?_
    have hk := List.mem_range.mp hk
    rw [← after_congr hrd fun j hj => hv j (by omega), effect, effect, hv k hk, hrd]

end Hart

end Rv32i
