import HeliosXCore.DpCom.Commit

/-! How soon instructions commit. Each cycle the ROB commits the oldest instruction if it has finished,
    so no other way to commit in order, one at a time, is ever ahead of it. -/

namespace HeliosXCore
open Rtl

namespace Stored
variable {y : Sys}

/-- The oldest instruction that has not committed commits as soon as it has a result. -/
theorem comnum_iff (h : Stored y) (ha : Acct y) :
    y.hw.rob.comnum = true ↔ (y.log.result y.log.com).isSome = true := by
  constructor
  · intro hc
    exact (ha.comnum_imp hc).2
  · intro hr
    have hlt : y.log.com < y.log.written := by
      by_contra hge
      rw [ha.todo _ (by omega)] at hr
      cases hr
    have hv := ha.valid _ (Nat.le_refl _) hlt
    have hf := h.finish _ (Nat.le_refl _) hlt hr
    rw [SingleInstROB.comnum, SingleInstROB.commit1, ha.commitPtr, hv, hf]
    rfl

end Stored

/-- A way to commit the instructions of a run: `f n` of them before cycle `n`, in order, at most one in
    each cycle, and none before its result is there. -/
structure CommitSchedule (s : DpCom) (e : ℕ → Event) (N : ℕ) (f : ℕ → ℕ) : Prop where
  start : f 0 = 0
  one : ∀ n, n < N → f (n + 1) ≤ f n + 1
  finished : ∀ n, n < N → ∀ j, j < f (n + 1) →
    ((Sys.machine.run (Sys.start s) e n).log.result j).isSome = true

section run
variable {s : DpCom} {e : ℕ → Event} {N : ℕ}

theorem com_run_succ (n : ℕ) : (Sys.machine.run (Sys.start s) e (n + 1)).log.com =
    (Sys.machine.run (Sys.start s) e n).log.com +
      (Sys.machine.run (Sys.start s) e n).hw.rob.comnum.toNat := Sys.com_step _ _

/-- The ROB commits at most one instruction in a cycle, and only finished ones. -/
theorem schedule_com (hs : s.AfterReset) (hl : Sys.machine.Legal (Sys.start s) e N) :
    CommitSchedule s e N fun n => (Sys.machine.run (Sys.start s) e n).log.com where
  start := rfl
  one := by
    intro n _
    have := Bool.toNat_le (Sys.machine.run (Sys.start s) e n).hw.rob.comnum
    rw [com_run_succ]
    omega
  finished := by
    intro n hn j hj
    have ha := Acct.run hs (hl.mono (Nat.le_of_lt hn))
    rcases Nat.lt_or_ge j (Sys.machine.run (Sys.start s) e n).log.com with hlt | hge
    · exact ha.done j hlt
    · obtain ⟨hc, rfl⟩ := Sys.eq_com_of_lt_com_step hge hj
      exact (ha.comnum_imp hc).2

theorem le_com_of_schedule (hs : s.AfterReset) (hl : Sys.machine.Legal (Sys.start s) e N)
    (hno : Sys.machine.Always (fun y _ => ¬ y.overwritesHead) (Sys.start s) e N) {f : ℕ → ℕ}
    (hf : CommitSchedule s e N f) {n : ℕ} (hn : n ≤ N) :
    f n ≤ (Sys.machine.run (Sys.start s) e n).log.com := by
  induction n with
  | zero => exact Nat.le_of_eq hf.start
  | succ n ih =>
    have hle := ih (by omega)
    have hone := hf.one n hn
    have ha := Acct.run hs (hl.mono (Nat.le_of_lt hn))
    have hst := Stored.run hs (hl.mono (Nat.le_of_lt hn)) (hno.mono (Nat.le_of_lt hn))
    rw [com_run_succ]
    cases hc : (Sys.machine.run (Sys.start s) e n).hw.rob.comnum with
    | true =>
      rw [Bool.toNat_true]
      omega
    | false =>
      -- the oldest instruction has no result, so that no schedule passes it
      have hnone : ¬ ((Sys.machine.run (Sys.start s) e n).log.result
          (Sys.machine.run (Sys.start s) e n).log.com).isSome = true := by
        rw [← hst.comnum_iff ha, hc]
        exact Bool.false_ne_true
      rw [Bool.toNat_false, Nat.add_zero]
      by_contra hlt
      exact hnone (hf.finished n hn _ (by omega))

/-- As long as no instruction without destination is stored over the oldest one, the ROB commits as
    early as any order of single commits can: its schedule is the greatest one. -/
theorem commits_earliest (hs : s.AfterReset) (hl : Sys.machine.Legal (Sys.start s) e N)
    (hno : Sys.machine.Always (fun y _ => ¬ y.overwritesHead) (Sys.start s) e N) :
    (CommitSchedule s e N fun n => (Sys.machine.run (Sys.start s) e n).log.com) ∧
      ∀ f, CommitSchedule s e N f → ∀ n, n ≤ N → f n ≤ (Sys.machine.run (Sys.start s) e n).log.com :=
  ⟨schedule_com hs hl, fun _ hf _ hn => le_com_of_schedule hs hl hno hf hn⟩

end run

/-- One `addi` after another; the second finishes before the first. -/
def outOfOrder (n : ℕ) : Event :=
  { Event.addi with finish := if n = 4 then some 1 else if n = 6 then some 0 else none }

theorem commits_earliest_outOfOrder :
    (CommitSchedule DpCom.ofReset outOfOrder 10 fun n =>
      (Sys.machine.run (Sys.start DpCom.ofReset) outOfOrder n).log.com) ∧
    ∀ f, CommitSchedule DpCom.ofReset outOfOrder 10 f → ∀ n, n ≤ 10 →
      f n ≤ (Sys.machine.run (Sys.start DpCom.ofReset) outOfOrder n).log.com := by
  have hl : Sys.machine.Legal (Sys.start DpCom.ofReset) outOfOrder 10 := by
    change ∀ n, n < 10 → Sys.Legal _ _
    decide +kernel
  have hno : Sys.machine.Always (fun y _ => ¬ y.overwritesHead) (Sys.start DpCom.ofReset)
      outOfOrder 10 := by
    change ∀ n, n < 10 → ¬ Sys.overwritesHead _ = true
    decide +kernel
  exact commits_earliest DpCom.afterReset_ofReset hl hno

end HeliosXCore
