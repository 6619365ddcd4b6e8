import HeliosXCore.DpCom.Tags

/-! A refused rename. While the allocator refuses an instruction, the counter and the pointer wait,
    but the rename table is told of the destination in every cycle: it maps it to the tag at
    `rrfptr_o`, which nobody has been given. -/

namespace HeliosXCore
open Rtl

/-- What renaming an instruction leaves behind: the table, the new tag and the two operands. -/
structure Renaming where
  reTb : RenameTable
  tag : RrfTag
  src1 : Operand
  src2 : Operand
  deriving DecidableEq

def DpCom.renaming (s : DpCom) : Renaming :=
  ⟨s.dp.arf.reTb, s.dp.dstRrftagReg, ⟨s.dp.src1Reg, s.dp.rdy1Reg⟩, ⟨s.dp.src2Reg, s.dp.rdy2Reg⟩⟩

/-- What commits in this cycle, as the rename table is told of it. -/
def DpCom.completed (s : DpCom) : Completed := ⟨s.rob.arfwe1, s.rob.dstArf1, s.rob.commitPtr1⟩

/-- The same state with rename table `t`. -/
def Sys.withTable (t : RenameTable) (y : Sys) : Sys :=
  { y with hw := { y.hw with dp := { y.hw.dp with arf := { y.hw.dp.arf with reTb := t } } } }

/-- Cycle `n` is the first one in which the instruction in rename is refused. -/
structure FirstRefused (y : Sys) (e : ℕ → Event) (n : ℕ) : Prop where
  refused : (Sys.machine.run y e n).stall (e n) = true
  first : ∀ m, n = m + 1 → (Sys.machine.run y e m).stall (e m) = true → (e m).id ≠ (e n).id

/-- The instruction in rename in cycle `k` has been there since cycle `m` and was refused all along,
    in cycle `m` for the first time. -/
structure RefusedFrom (y : Sys) (e : ℕ → Event) (m k : ℕ) : Prop where
  le : m ≤ k
  first : FirstRefused y e m
  same : ∀ i, m ≤ i → i ≤ k → (e i).id = (e m).id
  refused : ∀ i, m ≤ i → i < k → (Sys.machine.run y e i).stall (e i) = true

/-- No refusal of the first `N` cycles leaves a trace: its edge does only what a commit does, and an
    instruction that is accepted in the end is renamed as if it had not been there before: with the
    table of the cycle in which it was first refused. All else that renaming reads does not depend on
    it (`Acct.step_refused_rest`). -/
structure RefusalsHarmless (y : Sys) (e : ℕ → Event) (N : ℕ) : Prop where
  table : ∀ n, n < N → (Sys.machine.run y e n).stall (e n) = true →
    (Sys.machine.run y e (n + 1)).hw.dp.arf.reTb =
      (Sys.machine.run y e n).hw.dp.arf.reTb.next false
        (Sys.machine.run y e n).hw.completed ⟨false, 0, 0⟩
  rrfptr : ∀ n, n < N → (Sys.machine.run y e n).stall (e n) = true →
    (Sys.machine.run y e (n + 1)).hw.dp.rrfAlloc.rrfptr =
      (Sys.machine.run y e n).hw.dp.rrfAlloc.rrfptr
  freenum : ∀ n, n < N → (Sys.machine.run y e n).stall (e n) = true →
    (Sys.machine.run y e (n + 1)).hw.dp.rrfAlloc.freenum =
      (Sys.machine.run y e n).hw.dp.rrfAlloc.freenum +
        (BitVec.ofBool (Sys.machine.run y e n).hw.rob.comnum).setWidth 7
  accepted : ∀ m k, k < N → RefusedFrom y e m k → (Sys.machine.run y e k).stall (e k) = false →
    (Sys.machine.run y e (k + 1)).hw.renaming =
      (((Sys.machine.run y e k).withTable (Sys.machine.run y e m).hw.dp.arf.reTb).step
        (e k)).hw.renaming

/-- The destination is mapped to the tag at `rrfptr_o` already. -/
def Sys.AlreadyMapped (y : Sys) (e : Event) : Prop :=
  y.hw.dp.arf.reTb.busy e.id.dec.rd = true ∧
    y.hw.dp.arf.reTb.rrftag e.id.dec.rd = y.hw.dp.rrfAlloc.rrfptr

namespace Acct
variable {y : Sys} {e : Event}

/-- A refused instruction has a destination, and nothing commits in its cycle. -/
theorem of_stall (h : Acct y) (hst : y.stall e) :
    e.id.dec.wrReg = true ∧ y.hw.rob.comnum = false ∧ y.log.len = y.log.com + 63 := by
  rw [h.stall_eq] at hst
  simpa [and_assoc] using hst

theorem arfwe1_of_stall (h : Acct y) (hst : y.stall e) : y.hw.rob.arfwe1 = false := by
  have hc : y.hw.rob.commit1 = false := (h.of_stall hst).2.1
  simp [SingleInstROB.arfwe1, hc]

/-- The refused edge leaves the table as it is exactly when it repeats a mapping. -/
theorem table_step_refused (h : Acct y) (hst : y.stall e) :
    (y.step e).hw.dp.arf.reTb = y.hw.dp.arf.reTb ↔ y.AlreadyMapped e :=
  RenameTable.next_eq_self_iff y.hw.completed ⟨e.id.dec.wrReg, e.id.dec.rd, y.hw.dp.rrfAlloc.rrfptr⟩
    y.hw.dp.arf.reTb (h.arfwe1_of_stall hst) (h.of_stall hst).1

/-- With nothing to map and nothing to commit the table would stay as it is. -/
theorem table_idle (h : Acct y) (hst : y.stall e) :
    y.hw.dp.arf.reTb.next false y.hw.completed ⟨false, 0, 0⟩ = y.hw.dp.arf.reTb :=
  RenameTable.next_idle _ _ _ (h.arfwe1_of_stall hst) rfl

end Acct

theorem rrfAlloc_step_refused {y : Sys} {e : Event} (hst : y.stall e) :
    (y.step e).hw.dp.rrfAlloc.rrfptr = y.hw.dp.rrfAlloc.rrfptr ∧
      (y.step e).hw.dp.rrfAlloc.freenum =
        y.hw.dp.rrfAlloc.freenum + (BitVec.ofBool y.hw.rob.comnum).setWidth 7 := by
  have hnext : (y.step e).hw.dp.rrfAlloc =
      y.hw.dp.rrfAlloc.next false (y.stall e) (0#1 ++ BitVec.ofBool y.hw.rob.comnum)
        e.id.dec.wrReg := rfl
  rw [hnext, hst]
  refine ⟨rfl, ?_⟩
  cases y.hw.rob.comnum <;> rfl

/-- All that renaming reads beside the table is after a refused edge as it would be with no instruction
    in rename. -/
theorem Acct.step_refused_rest {y : Sys} {e : Event} (h : Acct y) (hst : y.stall e) :
    let idle := y.step { e with id := IDUnit.cleared }
    (y.step e).hw.dp.arf.mem = idle.hw.dp.arf.mem ∧ (y.step e).hw.dp.rrf = idle.hw.dp.rrf ∧
      (y.step e).hw.dp.rrfAlloc.rrfptr = idle.hw.dp.rrfAlloc.rrfptr ∧
      (y.step e).hw.dp.rrfAlloc.freenum = idle.hw.dp.rrfAlloc.freenum := by
  have h0 : y.hw.dp.rrfAlloc.rrfptr ≠ 0 := h.rrfptr ▸ tagOf_ne_zero _
  obtain ⟨hptr, hnum⟩ := rrfAlloc_step_refused hst
  refine ⟨rfl, rfl, ?_, ?_⟩
  · rw [hptr]
    exact (RrfEntryAllocate.rrfptr_next _ _ false _ h0).symm
  · rw [hnum]
    exact (RrfEntryAllocate.freenum_next_idle _ _ _).symm

section Stalls
variable {y : Sys} {e : ℕ → Event}

theorem FirstRefused.refusedFrom {n : ℕ} (h : FirstRefused y e n) : RefusedFrom y e n n :=
  ⟨le_rfl, h, fun _ h1 h2 => by rw [Nat.le_antisymm h2 h1], fun _ _ _ => by omega⟩

/-- One more cycle of a stall. -/
theorem RefusedFrom.succ {m n : ℕ} (h : RefusedFrom y e m n)
    (hst : (Sys.machine.run y e n).stall (e n)) (hid : (e n).id = (e (n + 1)).id) :
    RefusedFrom y e m (n + 1) := by
  refine ⟨Nat.le_succ_of_le h.le, h.first, ?_, ?_⟩
  · intro i h1 h2
    rcases Nat.le_succ_iff.mp h2 with h2 | rfl
    · exact h.same i h1 h2
    · exact hid.symm.trans (h.same n h.le le_rfl)
  · intro i h1 h2
    rcases Nat.lt_succ_iff_lt_or_eq.mp h2 with h2 | rfl
    · exact h.refused i h1 h2
    · exact hst

/-- Every refusal belongs to a stall that began somewhere. -/
theorem exists_refusedFrom {n : ℕ} (hn : (Sys.machine.run y e n).stall (e n)) :
    ∃ m, RefusedFrom y e m n := by
  induction n with
  | zero => exact ⟨0, FirstRefused.refusedFrom ⟨hn, fun m hm => absurd hm (by omega)⟩⟩
  | succ n ih =>
    -- the stall goes back one more cycle, or the instruction is new in this one
    by_cases hprev : (Sys.machine.run y e n).stall (e n) = true ∧ (e n).id = (e (n + 1)).id
    · obtain ⟨hst, hid⟩ := hprev
      obtain ⟨m, hm⟩ := ih hst
      exact ⟨m, hm.succ hst hid⟩
    · refine ⟨n + 1, FirstRefused.refusedFrom ⟨hn, ?_⟩⟩
      intro m hm hst hid
      obtain rfl : n = m := by omega
      exact hprev ⟨hst, hid⟩

/-- Through a stall a repeated mapping changes nothing. -/
theorem table_run_refused {N m k : ℕ} (hA : ∀ n, n ≤ N → Acct (Sys.machine.run y e n))
    (hk : k ≤ N) (hr : RefusedFrom y e m k) (hm : (Sys.machine.run y e m).AlreadyMapped (e m)) :
    ∀ i, m ≤ i → i ≤ k →
      (Sys.machine.run y e i).hw.dp.arf.reTb = (Sys.machine.run y e m).hw.dp.arf.reTb ∧
        (Sys.machine.run y e i).AlreadyMapped (e i) := by
  intro i hi
  induction i, hi using Nat.le_induction with
  | base => exact fun _ => ⟨rfl, hm⟩
  | succ i hi ih =>
    intro hik
    obtain ⟨ht, hmap⟩ := ih (by omega)
    have hst := hr.refused i hi (by omega)
    have hstep : (Sys.machine.run y e (i + 1)).hw.dp.arf.reTb =
        (Sys.machine.run y e i).hw.dp.arf.reTb :=
      ((hA i (by omega)).table_step_refused hst).mpr hmap
    have hptr : (Sys.machine.run y e (i + 1)).hw.dp.rrfAlloc.rrfptr =
        (Sys.machine.run y e i).hw.dp.rrfAlloc.rrfptr := (rrfAlloc_step_refused hst).1
    have hid : (e (i + 1)).id = (e i).id :=
      (hr.same (i + 1) (by omega) hik).trans (hr.same i hi (by omega)).symm
    refine ⟨hstep.trans ht, ?_⟩
    rw [Sys.AlreadyMapped, hstep, hptr, hid]
    exact hmap

end Stalls

/-- In every run the refusals are harmless exactly when each instruction that is refused has, in the
    first cycle of its stall, a destination that is mapped to the tag at `rrfptr_o` already. -/
theorem refusal_harmless_iff {s : DpCom} (hs : s.AfterReset) {e : ℕ → Event} {N : ℕ}
    (hl : Sys.machine.Legal (Sys.start s) e N) :
    RefusalsHarmless (Sys.start s) e N ↔ ∀ n, n < N → FirstRefused (Sys.start s) e n →
      (Sys.machine.run (Sys.start s) e n).AlreadyMapped (e n) := by
  have hA : ∀ n, n ≤ N → Acct (Sys.machine.run (Sys.start s) e n) :=
    fun n hn => Acct.run hs (hl.mono hn)
  constructor
  · intro hr n hn hf
    have ha := hA n (Nat.le_of_lt hn)
    exact (ha.table_step_refused hf.refused).mp
      ((hr.table n hn hf.refused).trans (ha.table_idle hf.refused))
  · intro hm
    refine ⟨?_, fun n _ hst => (rrfAlloc_step_refused hst).1,
      fun n _ hst => (rrfAlloc_step_refused hst).2, ?_⟩
    · intro n hn hst
      have ha := hA n (Nat.le_of_lt hn)
      obtain ⟨m, hr⟩ := exists_refusedFrom hst
      have hmap := (table_run_refused hA (Nat.le_of_lt hn) hr
        (hm m (Nat.lt_of_le_of_lt hr.le hn) hr.first) n hr.le le_rfl).2
      exact ((ha.table_step_refused hst).mpr hmap).trans (ha.table_idle hst).symm
    · intro m k hk hr _
      have ht := (table_run_refused hA (Nat.le_of_lt hk) hr
        (hm m (Nat.lt_of_le_of_lt hr.le hk) hr.first) k hr.le le_rfl).1
      rw [← ht]
      rfl

/-- Decode presents `first`, then 62 times `addi x1, x1, 1`, which fill the ring. From cycle 63 on
    `addi x2, x2, 1` is refused, until the oldest instruction finishes and commits. -/
def refusedOwnSource (first : Word) (n : ℕ) : Event :=
  let refused := { Event.addi with id := IDUnit.ofInst 0x00110113 entryPoint }
  if n = 0 then { Event.addi with id := IDUnit.ofInst first entryPoint }
  else if n < 63 then Event.addi
  else if n = 64 then { refused with finish := some 0 }
  else refused

theorem id_refusedOwnSource (first : Word) {n : ℕ} (hn : 63 ≤ n) :
    (refusedOwnSource first n).id = IDUnit.ofInst 0x00110113 entryPoint := by
  rw [refusedOwnSource, if_neg (by omega), if_neg (by omega)]
  split <;> rfl

/-- In flight there are 63 times `addi x1, x1, 1`. -/
theorem legal_refusedOwnSource :
    Sys.machine.Legal (Sys.start DpCom.ofReset) (refusedOwnSource 0x00108093) 66 := by
  change ∀ n, n < 66 → Sys.Legal _ _
  decide +kernel

theorem refusedFrom_refusedOwnSource :
    RefusedFrom (Sys.start DpCom.ofReset) (refusedOwnSource 0x00108093) 63 65 where
  le := by decide
  first := ⟨by decide +kernel, fun m hm hst => by
    obtain rfl : 62 = m := by omega
    revert hst
    decide +kernel⟩
  same := fun i h1 _ => by rw [id_refusedOwnSource _ h1, id_refusedOwnSource _ (by decide)]
  refused := by decide +kernel

/-- The refused instruction, whose source nobody writes, ends up waiting on its own tag; with the
    table of cycle 63 it would have read the register. -/
theorem refusal_not_harmless :
    Sys.machine.Legal (Sys.start DpCom.ofReset) (refusedOwnSource 0x00108093) 66 ∧
      RefusedFrom (Sys.start DpCom.ofReset) (refusedOwnSource 0x00108093) 63 65 ∧
      (Sys.machine.run (Sys.start DpCom.ofReset) (refusedOwnSource 0x00108093) 65).stall
        (refusedOwnSource 0x00108093 65) = false ∧
      (Sys.machine.run (Sys.start DpCom.ofReset) (refusedOwnSource 0x00108093) 66).hw.renaming.tag =
        1 ∧
      (Sys.machine.run (Sys.start DpCom.ofReset) (refusedOwnSource 0x00108093) 66).hw.renaming.src1 =
        ⟨1, false⟩ ∧
      (((Sys.machine.run (Sys.start DpCom.ofReset) (refusedOwnSource 0x00108093) 65).withTable
        (Sys.machine.run (Sys.start DpCom.ofReset) (refusedOwnSource 0x00108093) 63).hw.dp.arf.reTb
        ).step (refusedOwnSource 0x00108093 65)).hw.renaming.src1 = ⟨0, true⟩ ∧
      ¬ RefusalsHarmless (Sys.start DpCom.ofReset) (refusedOwnSource 0x00108093) 66 := by
  refine ⟨legal_refusedOwnSource, refusedFrom_refusedOwnSource, by decide +kernel,
    by decide +kernel, by decide +kernel, by decide +kernel, fun h => ?_⟩
  have hsrc := congrArg Renaming.src1
    (h.accepted 63 65 (by decide) refusedFrom_refusedOwnSource (by decide +kernel))
  revert hsrc
  decide +kernel

/-- When the oldest instruction in flight is `addi x2, x2, 1` too, the refusals do no harm. -/
theorem refusals_harmless_ofOldest :
    RefusalsHarmless (Sys.start DpCom.ofReset) (refusedOwnSource 0x00110113) 66 := by
  have hlegal : Sys.machine.Legal (Sys.start DpCom.ofReset) (refusedOwnSource 0x00110113) 66 := by
    change ∀ n, n < 66 → Sys.Legal _ _
    decide +kernel
  have hstalls : ∀ n, n < 66 →
      (Sys.machine.run (Sys.start DpCom.ofReset) (refusedOwnSource 0x00110113) n).stall
        (refusedOwnSource 0x00110113 n) = true → n = 63 ∨ n = 64 := by decide +kernel
  refine (refusal_harmless_iff DpCom.afterReset_ofReset hlegal).mpr ?_
  intro n hn hf
  rcases hstalls n hn hf.refused with rfl | rfl
  · unfold Sys.AlreadyMapped
    decide +kernel
  · refine absurd ?_ (hf.first 63 rfl (by decide +kernel))
    rw [id_refusedOwnSource _ (by decide), id_refusedOwnSource _ (by decide)]

end HeliosXCore
