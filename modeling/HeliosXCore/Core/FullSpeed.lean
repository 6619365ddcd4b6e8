import HeliosXCore.Core.Progress

/-! The programs the core runs at one instruction a cycle: those in which no instruction names the
    destination of the one just before it in a register field, be it a source or not. -/

namespace HeliosXCore
open Rtl

namespace Sched
variable (imem : Word → Word)

/-- A register field of instruction `i + 1`, used or not, names the destination of instruction `i`. -/
def Adjacent (i : ℕ) : Prop :=
  ∃ k, (instAt imem (i + 1)).dec.src k ≠ 0 ∧
    (instAt imem i).dec.rd = (instAt imem (i + 1)).dec.src k

variable {imem}

/-- Then instruction `i + 1` waits for it. -/
theorem producer_succ_iff (i : ℕ) (k : Src) : producer imem (i + 1) k = some i ↔
    (instAt imem (i + 1)).dec.src k ≠ 0 ∧
      (instAt imem i).dec.rd = (instAt imem (i + 1)).dec.src k := by
  unfold producer SeqState.writer
  split
  · rename_i h0
    simp [h0]
  · rename_i h0
    rw [lastBefore_succ]
    split
    · rename_i hrd
      exact ⟨fun _ => ⟨h0, hrd⟩, fun _ => rfl⟩
    · rename_i hrd
      refine ⟨fun hp => absurd (lastBefore_lt hp).1 (Nat.lt_irrefl i), fun hp => absurd hp.2 hrd⟩

theorem lt_of_producer {i p : ℕ} {k : Src} (h : producer imem i k = some p) : p < i := by
  unfold producer at h
  split at h
  · cases h
  · exact (lastBefore_lt h).1

/-- Instruction `i + 1` waits alone, right behind instruction `i`. -/
theorem ready_alone_iff (i : ℕ) :
    ready imem ⟨[i + 1], some i⟩ (i + 1) = true ↔ ¬ Adjacent imem i := by
  have hlacks : ∀ k, (!lacks ⟨[i + 1], some i⟩ (producer imem (i + 1) k)) = true ↔
      producer imem (i + 1) k ≠ some i := by
    intro k
    cases hp : producer imem (i + 1) k with
    | none => simp [lacks]
    | some p =>
      have hne : p ≠ i + 1 := Nat.ne_of_lt (lt_of_producer hp)
      have hmem : [i + 1].contains p = false := by simp [hne]
      change (!([i + 1].contains p || some i == some p)) = true ↔ _
      rw [hmem, Bool.false_or, Bool.not_eq_true', beq_eq_false_iff_ne]
      exact ⟨Ne.symm, Ne.symm⟩
  rw [ready, Bool.and_eq_true, hlacks, hlacks]
  simp only [ne_eq, producer_succ_iff]
  refine ⟨?_, fun h => ⟨fun h1 => h ⟨_, h1⟩, fun h2 => h ⟨_, h2⟩⟩⟩
  rintro ⟨h1, h2⟩ ⟨k, hk⟩
  cases k
  · exact h1 hk
  · exact h2 hk

theorem issue_alone (i : ℕ) :
    issue imem ⟨[i + 1], some i⟩ = if ready imem ⟨[i + 1], some i⟩ (i + 1) then some (i + 1)
      else none := by
  rw [issue, List.find?_cons]
  split <;> simp_all

theorem producer_zero (k : Src) : producer imem 0 k = none := by
  cases hp : producer imem 0 k with
  | none => rfl
  | some p => exact absurd (lt_of_producer hp) (Nat.not_lt_zero p)

end Sched

variable {imem : Word → Word}

/-- Up to the first such dependence every instruction is issued as soon as it has arrived. -/
theorem schedule_spaced {n : ℕ} (h : ∀ i, i < n → ¬ Sched.Adjacent imem i) :
    schedule imem (n + 2) = ⟨[n + 1], some n⟩ := by
  induction n with
  | zero =>
    have hready : Sched.ready imem ⟨[0], none⟩ 0 = true := by
      simp [Sched.ready, Sched.producer_zero, Sched.lacks]
    have hissue : Sched.issue imem ⟨[0], none⟩ = some 0 := by
      rw [Sched.issue, List.find?_cons, hready]
    have hone : schedule imem 1 = ⟨[0], none⟩ := rfl
    rw [schedule, hone, Sched.next, Sched.rest, hissue]
    rfl
  | succ n ih =>
    have hready := (Sched.ready_alone_iff n).mpr (h n (Nat.lt_succ_self n))
    have hissue : Sched.issue imem ⟨[n + 1], some n⟩ = some (n + 1) := by
      rw [Sched.issue_alone, hready, if_pos rfl]
    rw [schedule, ih fun i hi => h i (by omega), Sched.next, Sched.rest, hissue]
    simp

theorem waiting_of_spaced {n k : ℕ} (h : ∀ i, i < n → ¬ Sched.Adjacent imem i) (hk : k ≤ n + 2) :
    (schedule imem k).waiting.length < 8 := by
  rcases k with _ | _ | k
  · exact Nat.zero_lt_succ 7
  · exact Nat.lt_of_sub_eq_succ (rfl : 8 - 1 = 6 + 1)
  · rw [schedule_spaced fun i hi => h i (by omega)]
    simp

namespace AluTrace
variable {init : RegSel → Word} {T : ℕ → Traced} (h : AluTrace imem init T)
include h

theorem noDrop_of_spaced (h0 : Exact init (T 0)) {n : ℕ}
    (hsp : ∀ i, i < n → ¬ Sched.Adjacent imem i) : (T (n + 7)).NoDrop :=
  (h.noDrop_iff_schedule h0 (n + 7)).mpr fun _ hk => waiting_of_spaced hsp (by omega)

/-- Instruction `n` is in the ALU latch in cycle `n + 6`. -/
theorem exIdx_of_spaced (h0 : Exact init (T 0)) {n : ℕ}
    (hsp : ∀ i, i < n → ¬ Sched.Adjacent imem i) : (T (n + 6)).exIdx = some n := by
  have hlast := (h.follows h0 (n + 2) ((h.noDrop_iff_schedule h0 (n + 6)).mpr fun _ hk =>
    waiting_of_spaced hsp (by omega))).last
  rw [schedule_spaced hsp] at hlast
  exact hlast.symm

/-- Nothing commits before cycle 7. -/
theorem com_early (h0 : Exact init (T 0)) {n : ℕ} (hn : n ≤ 7) : (T n).log.com = 0 := by
  induction n with
  | zero => rw [h.start]; rfl
  | succ n ih =>
    have hcom := ih (by omega)
    have hex := h.exIdx_of_spaced h0 (n := 0) fun i hi => absurd hi (Nat.not_lt_zero i)
    have hnone := h.result_mono (show n ≤ 6 by omega) ((h.inv 6).latched.live 0 hex).2
    have hc : (T n).core.hx.rob.comnum = false := by
      rw [← Bool.not_eq_true]
      intro hc
      have hsome : ((T n).log.result (T n).log.com).isSome := ((h.inv n).acct.comnum_imp hc).2
      rw [hcom, hnone] at hsome
      cases hsome
    rw [h.com_succ, hcom, hc]
    rfl

/-- From cycle 7 on one instruction commits in each cycle. -/
theorem com_of_spaced (h0 : Exact init (T 0)) {n : ℕ}
    (hsp : ∀ i, i < n → ¬ Sched.Adjacent imem i) : (T (n + 8)).log.com = n + 1 := by
  have hcommit : ∀ m, m ≤ n → (T (m + 7)).log.com = m → (T (m + 8)).log.com = m + 1 := by
    intro m hm hcom
    have hsp' : ∀ i, i < m → ¬ Sched.Adjacent imem i := fun i hi => hsp i (by omega)
    have hres := h.result_of_exIdx (h.exIdx_of_spaced h0 hsp')
    have hwr := h.written_at_noDrop (h.noDrop_of_spaced h0 hsp')
    have hc := (h.inv (m + 7)).comnum_of_result (by omega) (by rw [hcom, hres]; rfl)
    rw [h.com_succ (m + 7), hcom, hc]
    rfl
  have hall : ∀ m, m ≤ n → (T (m + 8)).log.com = m + 1 := by
    intro m
    induction m with
    | zero => exact fun hm => hcommit 0 hm (h.com_early h0 (Nat.le_refl 7))
    | succ m ih => exact fun hm => hcommit (m + 1) hm (ih (by omega))
  exact hall n (Nat.le_refl n)

/-- An instruction that needs the result of the one before it commits late. -/
theorem com_of_adjacent (h0 : Exact init (T 0)) {n : ℕ}
    (hsp : ∀ i, i < n → ¬ Sched.Adjacent imem i) (ha : Sched.Adjacent imem n) :
    (T (n + 9)).log.com = n + 1 := by
  have hnd : (T (n + 7)).NoDrop := h.noDrop_of_spaced h0 hsp
  -- in cycle n + 6 instruction n + 1 is the only one in the station, and it is not ready
  have hf := h.follows h0 (n + 2) ((h.noDrop_iff_schedule h0 (n + 6)).mpr fun _ hk =>
    waiting_of_spaced hsp (by omega))
  have hf' := h.follows h0 (n + 3) hnd
  have hready := (Sched.ready_alone_iff n).not.mpr (not_not.mpr ha)
  have hlast : (T (n + 7)).exIdx = none := by
    rw [← hf'.last, schedule, schedule_spaced hsp, Sched.next, Sched.issue_alone, if_neg hready]
  have hmem : n + 1 ∈ (schedule imem (n + 3)).waiting := by
    rw [schedule, schedule_spaced hsp, Sched.next, Sched.rest, Sched.issue_alone, if_neg hready]
    simp
  obtain ⟨e, hb, he⟩ := (hf'.mem (n + 1)).mp hmem
  have hnone : (T (n + 7)).log.result (n + 1) = none := by
    rw [← he]
    exact ((h.inv (n + 7)).station.live e hb).2.1
  have hcom := h.com_of_spaced h0 hsp
  have hc : (T (n + 8)).core.hx.rob.comnum = false := by
    rw [← Bool.not_eq_true]
    intro hc
    have hsome : ((T (n + 8)).log.result (T (n + 8)).log.com).isSome :=
      ((h.inv (n + 8)).acct.comnum_imp hc).2
    obtain ⟨d, hd⟩ := h.next (n + 7)
    rw [hcom, hd, Traced.result_step, hlast, if_neg (by simp), hnone] at hsome
    cases hsome
  rw [h.com_succ (n + 8), hcom, hc]
  rfl

end AluTrace

namespace Core

/-- The core retires one instruction a cycle, from cycle 8 on, exactly as long as none of them has the
    destination of the one just before it in its `rs1` or `rs2` field, used or not. -/
theorem full_speed_iff (himem : AluProgram imem) {s : HeliosX} (hs : s.AfterReset)
    (dmem : ℕ → Word) (N : ℕ) :
    (∀ M, M ≤ N → retired imem dmem s M = SeqState.trace imem s.dp.arf.mem (M - 8)) ↔
      ∀ i, i + 10 ≤ N → ¬ Sched.Adjacent imem i := by
  have h := AluTrace.cycle himem hs dmem
  have h0 := Exact.start hs
  constructor
  · intro hall
    by_contra hno
    push Not at hno
    classical
    obtain ⟨hN, hadj⟩ := Nat.find_spec hno
    have hsp : ∀ i, i < Nat.find hno → ¬ Sched.Adjacent imem i :=
      fun i hi ha => Nat.find_min hno hi ⟨by omega, ha⟩
    have hret := hall (Nat.find hno + 10) hN
    rw [retired_succ himem hs dmem, h.com_of_adjacent h0 hsp hadj] at hret
    have hlen := congrArg List.length hret
    rw [length_trace, length_trace] at hlen
    omega
  · intro hsp M hM
    rcases M with _ | n
    · rfl
    · rw [retired_succ himem hs dmem]
      rcases Nat.lt_or_ge n 8 with hlt | hge
      · rw [h.com_early h0 (by omega), show n + 1 - 8 = 0 by omega]
      · obtain ⟨m, rfl⟩ : ∃ m, n = m + 8 := ⟨n - 8, by omega⟩
        rw [h.com_of_spaced h0 fun i hi => hsp i (by omega), show m + 8 + 1 - 8 = m + 1 by omega]

theorem full_speed_iff_addiChain :
    (∀ M, M ≤ 12 → retired addiChain (fun _ => 0) HeliosX.ofReset M =
      SeqState.trace addiChain HeliosX.ofReset.dp.arf.mem (M - 8)) ↔
        ∀ i, i + 10 ≤ 12 → ¬ Sched.Adjacent addiChain i :=
  full_speed_iff aluProgram_addiChain HeliosX.afterReset_ofReset (fun _ => 0) 12

end Core

end HeliosXCore
