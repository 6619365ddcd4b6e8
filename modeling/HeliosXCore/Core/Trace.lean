import HeliosXCore.Core.Invariant

/-! Facts about several cycles of one run: when an instruction was accepted, when an entry was
    written, and that the log only grows. -/

namespace HeliosXCore
open Rtl

/-- `T n` is the traced core in cycle `n` of a run. -/
structure Trace (imem : Word → Word) (init : RegSel → Word) (T : ℕ → Traced) : Prop where
  next : ∀ n, ∃ d, T (n + 1) = (T n).step imem d
  inv : ∀ n, Inv init (T n)
  start : (T 0).log = Log.empty

theorem Trace.cycle {imem : Word → Word} (himem : AluNopProgram imem) {s : HeliosX}
    (hs : s.AfterReset) (dmem : ℕ → Word) :
    Trace imem s.dp.arf.mem (Traced.cycle imem dmem s) :=
  ⟨fun n => ⟨dmem n, rfl⟩, Inv.cycle himem hs dmem, rfl⟩

namespace HeliosX
variable (hx : HeliosX)

/-- Rename accepts a register-writing instruction in this cycle. -/
def Accepts : Prop := hx.idUnit.dec.wrReg = true ∧ hx.stall = false

/-- `alu_rrf_we_o` and `alu_rrf_tag_o = t`. -/
def Broadcasts (t : RrfTag) : Prop := hx.ex.alu.rrfWe = true ∧ hx.ex.alu.rrfTag = t

/-- Operand `k` of entry `e`. -/
def entrySlot (e : BitVec 3) (k : Src) : Operand := (hx.sw.rsAlu.entry e).slot k

/-- Operand `k` in the DP/SW registers. -/
def regSlot (k : Src) : Operand := (dispatch hx.dp).slot k

end HeliosX

namespace Traced
variable {t : Traced}

theorem accepts_iff : t.sys.accepts t.event = true ↔ t.core.hx.Accepts := by
  rw [Sys.accepts, ← stall_eq, HeliosX.Accepts, Bool.and_eq_true, Bool.not_eq_true']
  rfl

end Traced

namespace Trace
variable {imem : Word → Word} {init : RegSel → Word} {T : ℕ → Traced} (h : Trace imem init T)
include h

theorem len_le_succ (n : ℕ) : (T n).log.len ≤ (T (n + 1)).log.len := by
  obtain ⟨d, hd⟩ := h.next n
  rw [hd, Traced.len_step]
  omega

theorem len_mono {m n : ℕ} (hmn : m ≤ n) : (T m).log.len ≤ (T n).log.len :=
  monotone_nat_of_le_succ (f := fun n => (T n).log.len) h.len_le_succ hmn

theorem written_succ (n : ℕ) : (T (n + 1)).log.written = (T n).log.len := by
  obtain ⟨d, hd⟩ := h.next n
  rw [hd]
  rfl

theorem len_succ (n : ℕ) :
    (T (n + 1)).log.len = (T n).log.len + ((T n).sys.accepts (T n).event).toNat := by
  obtain ⟨d, hd⟩ := h.next n
  rw [hd, Traced.len_step]

/-- The log only grows by an acceptance. -/
theorem accepts_of_len_lt {n : ℕ} (hlt : (T n).log.len < (T (n + 1)).log.len) :
    (T n).core.hx.Accepts := by
  rw [h.len_succ] at hlt
  refine Traced.accepts_iff.mp ?_
  cases hc : (T n).sys.accepts (T n).event with
  | true => rfl
  | false =>
    rw [hc, Bool.toNat_false] at hlt
    omega

theorem len_succ_of_accepts {n : ℕ} (hacc : (T n).core.hx.Accepts) :
    (T (n + 1)).log.len = (T n).log.len + 1 := by
  rw [h.len_succ, Traced.accepts_iff.mpr hacc, Bool.toNat_true]

/-- A result stays. -/
theorem result_mono {m n : ℕ} (hmn : m ≤ n) {p : ℕ} (hp : (T n).log.result p = none) :
    (T m).log.result p = none := by
  induction n, hmn using Nat.le_induction with
  | base => exact hp
  | succ n _ ih =>
    refine ih ?_
    obtain ⟨d, hd⟩ := h.next n
    rw [hd, Traced.result_step] at hp
    split at hp
    · cases hp
    · exact hp

/-- What is in the latch has its result in the next cycle. -/
theorem result_of_exIdx {m p : ℕ} (hp : (T m).exIdx = some p) :
    (T (m + 1)).log.result p = some (T m).core.hx.ex.alu.result := by
  obtain ⟨d, hd⟩ := h.next m
  rw [hd, Traced.result_step, if_pos hp]

/-- Every accepted instruction was accepted in some cycle. -/
theorem accepted_at {n p : ℕ} (hp : p < (T n).log.len) :
    ∃ a, a < n ∧ (T a).log.len = p ∧ (T a).core.hx.Accepts := by
  induction n with
  | zero =>
    rw [h.start] at hp
    cases hp
  | succ n ih =>
    rcases Nat.lt_or_ge p (T n).log.len with hlt | hge
    · obtain ⟨a, ha, hrest⟩ := ih hlt
      exact ⟨a, Nat.lt_succ_of_lt ha, hrest⟩
    · have hacc := h.accepts_of_len_lt (Nat.lt_of_le_of_lt hge hp)
      have hlen := h.len_succ_of_accepts hacc
      exact ⟨n, Nat.lt_succ_self n, by omega, hacc⟩

/-- An accepting cycle makes its instruction the next index. -/
theorem len_lt_of_accepts {a n : ℕ} (ha : (T a).core.hx.Accepts) (han : a < n) :
    (T a).log.len < (T n).log.len := by
  have hlen := h.len_succ_of_accepts ha
  have hmono : (T (a + 1)).log.len ≤ (T n).log.len := h.len_mono han
  omega

/-- A pending instruction was accepted in the cycle before. -/
theorem accepts_of_pending {n : ℕ} (hp : (T n).Pending) :
    ∃ k, n = k + 1 ∧ (T k).core.hx.Accepts ∧ (T n).log.written = (T k).log.len := by
  have hlen := hp.len_eq (h.inv n).acct
  cases n with
  | zero =>
    rw [h.start] at hlen
    cases hlen
  | succ k =>
    have hw := h.written_succ k
    exact ⟨k, rfl, h.accepts_of_len_lt (by omega), hw⟩

/-- A busy entry holds what was written to it last. -/
theorem written_at {n : ℕ} {e : BitVec 3} (hb : (T n).core.hx.Busy e) :
    ∃ w, lastBefore (fun m => (T m).core.hx.WritesEntry e) n = some w ∧
      (T n).idx e = (T w).log.written := by
  induction n with
  | zero =>
    have := ((h.inv 0).station.live e hb).1
    rw [h.start] at this
    cases this
  | succ n ih =>
    obtain ⟨d, hd⟩ := h.next n
    rw [hd] at hb ⊢
    rw [lastBefore_succ]
    rcases Traced.busy_step_cases (h.inv n).front hb with ⟨hw, hidx, -⟩ | ⟨hold, -, hidx, -⟩
    · rw [if_pos hw, hidx]
      exact ⟨n, rfl, rfl⟩
    · rw [if_neg fun hw => Traced.not_busy_of_writes hw hold, hidx]
      exact ih hold

end Trace

end HeliosXCore
