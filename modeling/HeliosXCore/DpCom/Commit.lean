import HeliosXCore.DpCom.Tags

/-! Commit order. The ROB is written in every cycle after an acceptance, also for an instruction
    without destination, which takes no tag: it is stored at the tag the next register-writing
    instruction will get. With all 63 tags outstanding that is the slot of the oldest one. -/

namespace HeliosXCore
open Rtl

/-- An instruction without destination is about to be stored although no slot is free and none is
    freed in the same cycle. -/
def Sys.overwritesHead (y : Sys) : Bool :=
  y.hw.dp.rrfAllocatableReg && !y.hw.dp.dstEnReg && y.hw.dp.rrfAlloc.freenum == 0 &&
    !y.hw.rob.comnum

/-- What the ROB and the commit port owe the accepted instructions. -/
structure CommitIntegrity (y : Sys) : Prop where
  order : y.log.commits <+: y.log.accepted.map fun a => (a.id.pc, a.id.dec.rd, true)
  /-- A slot that is written is free, or commits in this cycle. -/
  kept : y.hw.dp.rrfAllocatableReg → ∀ j, y.log.com ≤ j → j < y.log.written →
    y.log.tagAt j = y.hw.dp.dstRrftagReg → j = y.log.com ∧ y.hw.rob.comnum
  finished : y.hw.rob.comnum → (y.log.result y.log.com).isSome

/-- The ROB holds the accepted instructions, and the commit port has shown them in order. -/
structure Stored (y : Sys) : Prop where
  finish : ∀ j, y.log.com ≤ j → j < y.log.written → (y.log.result j).isSome →
    bit y.hw.rob.finish (tagOf j)
  dstValid : ∀ j, y.log.com ≤ j → j < y.log.written → bit y.hw.rob.dstValid (tagOf j)
  data : ∀ j a, y.log.com ≤ j → j < y.log.written → y.log.accepted[j]? = some a →
    y.hw.rob.instPc (tagOf j) = a.id.pc ∧ y.hw.rob.dst (tagOf j) = a.id.dec.rd
  commits : y.log.commits =
    (y.log.accepted.take y.log.com).map fun a => (a.id.pc, a.id.dec.rd, true)

namespace Stored
variable {y : Sys} {e : Event}

theorem start (s : DpCom) : Stored (Sys.start s) where
  finish := fun j _ hj => absurd hj (Nat.not_lt_zero j)
  dstValid := fun j _ hj => absurd hj (Nat.not_lt_zero j)
  data := fun j _ _ hj => absurd hj (Nat.not_lt_zero j)
  commits := rfl

/-- The only live slot that the store of this cycle hits is that of the instruction it stores. -/
theorem write_hit (ha : Acct y) (hno : ¬ y.overwritesHead) {j : ℕ}
    (hc : (y.step e).log.com ≤ j) (hw : j < (y.step e).log.written)
    (hdp : y.hw.dp.rrfAllocatableReg) (ht : tagOf j = y.hw.dp.dstRrftagReg) :
    j = y.log.written ∧ y.hw.dp.dstEnReg := by
  obtain ⟨hcj, hjw, hne⟩ := ha.live_step hc hw
  rw [Sys.written_step] at hw
  have hlen := ha.len_eq
  have hcw := ha.com_le
  have hwin := ha.window
  rw [ha.regTag] at ht
  cases hd : y.hw.dp.dstEnReg with
  | true =>
    have hlen' : y.log.len = y.log.written + 1 := by simpa [hdp, hd] using hlen
    exact ⟨(tagOf_eq_iff hcj hjw hcw (by omega)).mp ht, rfl⟩
  | false =>
    have hlen' : y.log.len = y.log.written := by simpa [hdp, hd] using hlen
    exfalso
    rcases Nat.lt_or_ge y.log.written (y.log.com + 63) with hlt | hge
    · have := (tagOf_eq_iff hcj hjw hcw hlt).mp ht
      omega
    · -- the ring is full, so the slot is that of the oldest instruction, which commits now
      have hcom : y.hw.rob.comnum := by
        have hf := ha.freenum_eq_zero.mpr (by omega)
        simpa [Sys.overwritesHead, hdp, hd, hf] using hno
      have hwc : y.log.written = y.log.com + 63 := by omega
      rw [hwc, tagOf_add] at ht
      exact hne hcom (tagOf_inj hcj hjw ht.symm)

theorem finish_step (h : Stored y) (ha : Acct y) (hl : y.Legal e) (hno : ¬ y.overwritesHead)
    {j : ℕ} (hc : (y.step e).log.com ≤ j) (hw : j < (y.step e).log.written)
    (hr : ((y.step e).log.result j).isSome) : bit (y.step e).hw.rob.finish (tagOf j) := by
  change bit (y.hw.rob.next false _).finish _
  rw [SingleInstROB.bit_finish_next]
  split_ifs with hdp hfin
  · have hjw := (write_hit ha hno hc hw hdp.1 hdp.2).1
    rw [Sys.result_step] at hr
    split at hr
    · rename_i hfe
      have := (hl j hfe).1
      omega
    · rw [ha.todo j (by omega)] at hr
      cases hr
  · rfl
  · rw [Sys.result_step] at hr
    split at hr
    · rename_i hfe
      exact absurd ⟨by simp [HeliosX.robIn, Event.wires, hfe], (ha.finishAddr hl hfe).symm⟩ hfin
    · have hjw : j < y.log.written := by
        by_contra hge
        rw [ha.todo j (by omega)] at hr
        cases hr
      exact h.finish j (ha.live_step hc hw).1 hjw hr

/-- An instruction that is live after the step was live before it, or is stored by it. -/
theorem live_or_stored (ha : Acct y) {j : ℕ} (hc : (y.step e).log.com ≤ j)
    (hw : j < (y.step e).log.written)
    (hdp : ¬ (y.hw.dp.rrfAllocatableReg ∧ tagOf j = y.hw.dp.dstRrftagReg)) :
    y.log.com ≤ j ∧ j < y.log.written := by
  refine ⟨(ha.live_step hc hw).1, ?_⟩
  by_contra hge
  exact hdp (ha.stored_now (by omega) (by rwa [Sys.written_step] at hw))

theorem dstValid_step (h : Stored y) (ha : Acct y) (hno : ¬ y.overwritesHead) {j : ℕ}
    (hc : (y.step e).log.com ≤ j) (hw : j < (y.step e).log.written) :
    bit (y.step e).hw.rob.dstValid (tagOf j) := by
  change bit (y.hw.rob.next false _).dstValid _
  rw [SingleInstROB.bit_dstValid_next]
  split_ifs with hdp
  · exact (write_hit ha hno hc hw hdp.1 hdp.2).2
  · obtain ⟨hcj, hjw⟩ := live_or_stored ha hc hw hdp
    exact h.dstValid j hcj hjw

theorem data_step (h : Stored y) (ha : Acct y) (hno : ¬ y.overwritesHead) {j : ℕ} {a : Accepted}
    (hc : (y.step e).log.com ≤ j) (hw : j < (y.step e).log.written)
    (hj : (y.step e).log.accepted[j]? = some a) :
    (y.step e).hw.rob.instPc (tagOf j) = a.id.pc ∧
      (y.step e).hw.rob.dst (tagOf j) = a.id.dec.rd := by
  rw [Sys.accepted_step_of_lt e y (by rwa [Sys.written_step] at hw)] at hj
  change (y.hw.rob.next false _).instPc _ = _ ∧ (y.hw.rob.next false _).dst _ = _
  rw [SingleInstROB.instPc_next, SingleInstROB.dst_next]
  split_ifs with hdp
  · obtain ⟨rfl, hd⟩ := write_hit ha hno hc hw hdp.1 hdp.2
    rw [ha.regId hdp.1 hd, Option.some.injEq] at hj
    rw [← hj]
    exact ⟨rfl, rfl⟩
  · obtain ⟨hcj, hjw⟩ := live_or_stored ha hc hw hdp
    exact h.data j a hcj hjw hj

/-- A commit shows the oldest outstanding instruction on the commit port. -/
theorem commit_port (h : Stored y) (ha : Acct y) (hc : y.hw.rob.comnum) {a : Accepted}
    (hs : y.log.accepted[y.log.com]? = some a) :
    (y.hw.rob.pcCom, y.hw.rob.dstArf1, y.hw.rob.arfwe1) = (a.id.pc, a.id.dec.rd, true) := by
  have hlt := (ha.comnum_imp hc).1
  obtain ⟨hpc, hdst⟩ := h.data _ _ (Nat.le_refl _) hlt hs
  have hv := h.dstValid _ (Nat.le_refl _) hlt
  have hw : y.hw.rob.arfwe1 = true := by
    rw [SingleInstROB.arfwe1, ha.commitPtr, hv]
    exact hc
  rw [SingleInstROB.pcCom, SingleInstROB.dstArf1, ha.commitPtr, hpc, hdst, hw]

theorem commits_step (h : Stored y) (ha : Acct y) :
    (y.step e).log.commits = ((y.step e).log.accepted.take (y.step e).log.com).map
      fun a => (a.id.pc, a.id.dec.rd, true) := by
  have hle : y.log.com + y.hw.rob.comnum.toNat ≤ y.log.accepted.length :=
    Nat.le_trans ha.com_add_le ha.written_le
  rw [Sys.com_step]
  simp only [Sys.step]
  rw [List.take_append_of_le_length hle, h.commits]
  cases hc : y.hw.rob.comnum with
  | false => simp
  | true =>
    obtain ⟨a, hs⟩ := ha.head_accepted hc
    have hcommit := h.commit_port ha hc hs
    simp only [if_true, Bool.toNat_true, List.take_add_one, hs, Option.toList_some,
      List.map_append, List.map_cons, List.map_nil, hcommit]

/-- A legal step that does not overwrite the oldest instruction keeps the ROB faithful. -/
theorem step (h : Stored y) (ha : Acct y) (hl : y.Legal e) (hno : ¬ y.overwritesHead) :
    Stored (y.step e) where
  finish := fun _ => h.finish_step ha hl hno
  dstValid := fun _ => h.dstValid_step ha hno
  data := fun _ _ => h.data_step ha hno
  commits := h.commits_step ha

theorem run {s : DpCom} (hs : s.AfterReset) {e : ℕ → Event} {N : ℕ}
    (hl : Sys.machine.Legal (Sys.start s) e N)
    (hno : Sys.machine.Always (fun y _ => ¬ y.overwritesHead) (Sys.start s) e N) :
    Stored (Sys.machine.run (Sys.start s) e N) := by
  have h := Clocked.run_invariant_while (I := fun y => Acct y ∧ Stored y) ⟨Acct.start hs, start s⟩
    (fun y e hI hle hC => ⟨hI.1.step hle, hI.2.step hI.1 hle hC⟩) hl hno N (Nat.le_refl N)
  exact h.2

theorem commitIntegrity (h : Stored y) (ha : Acct y) (hno : ¬ y.overwritesHead) :
    CommitIntegrity y where
  order := by
    rw [h.commits]
    exact (List.take_prefix _ _).map _
  finished := fun hc => (ha.comnum_imp hc).2
  kept := by
    intro hdp j hc hw ht
    have hlen := ha.written_le
    rw [ha.tagAt (by omega)] at ht
    by_contra hne
    have hcj : (y.step Event.bubble).log.com ≤ j :=
      Sys.com_step_le hc fun hcom hj => hne ⟨hj.symm, hcom⟩
    have := (write_hit ha hno hcj (by rw [Sys.written_step]; omega) hdp ht).1
    omega

end Stored

/-- Storing an instruction without destination over the oldest live one breaks the ROB. -/
theorem CommitIntegrity.not_overwritesHead {y : Sys} (h : CommitIntegrity y) (ha : Acct y) :
    ¬ y.overwritesHead := by
  intro hbad
  simp only [Sys.overwritesHead, Bool.and_eq_true, Bool.not_eq_true', beq_iff_eq] at hbad
  obtain ⟨⟨⟨hdp, hd⟩, hf⟩, hcom⟩ := hbad
  rw [ha.freenum_eq_zero] at hf
  have hlen : y.log.len = y.log.written := by simpa [hd] using ha.len_eq
  have ht : y.log.tagAt y.log.com = y.hw.dp.dstRrftagReg := by
    rw [ha.tagAt (by omega), ha.regTag, ← hlen, hf, tagOf_add]
  have := (h.kept hdp y.log.com (Nat.le_refl _) (by omega) ht).2
  rw [hcom] at this
  cases this

/-- The commit stream is right for as long as no instruction without destination is stored over the
    oldest live one, and no longer. -/
theorem commit_integrity_iff {s : DpCom} (hs : s.AfterReset) {e : ℕ → Event} {N : ℕ}
    (hl : Sys.machine.Legal (Sys.start s) e N) :
    (∀ n, n < N → CommitIntegrity (Sys.machine.run (Sys.start s) e n)) ↔
      ∀ n, n < N → ¬ (Sys.machine.run (Sys.start s) e n).overwritesHead := by
  constructor
  · intro h n hn
    exact (h n hn).not_overwritesHead (Acct.run hs (hl.mono (Nat.le_of_lt hn)))
  · intro h n hn
    have hl' := hl.mono (Nat.le_of_lt hn)
    have hno : Sys.machine.Always (fun y _ => ¬ y.overwritesHead) (Sys.start s) e n :=
      fun k hk => h k (by omega)
    exact (Stored.run hs hl' hno).commitIntegrity (Acct.run hs hl') (h n hn)

/-- 63 instructions `addi x1, x1, 1` fill the ring, one without destination follows, and then the
    oldest one finishes. -/
def bubbleOnFullRing (n : ℕ) : Event :=
  if n = 63 then Event.bubble
  else if n = 65 then { Event.addi with finish := some 0 }
  else Event.addi

theorem legal_bubbleOnFullRing :
    Sys.machine.Legal (Sys.start DpCom.ofReset) bubbleOnFullRing 67 := by
  change ∀ n, n < 67 → Sys.Legal _ _
  decide +kernel

/-- The commit port then shows register x0 and no write in place of x1. -/
theorem commit_order_broken :
    Sys.machine.Legal (Sys.start DpCom.ofReset) bubbleOnFullRing 67 ∧
      ¬ CommitIntegrity (Sys.machine.run (Sys.start DpCom.ofReset) bubbleOnFullRing 67) := by
  refine ⟨legal_bubbleOnFullRing, fun h => absurd h.order ?_⟩
  decide +kernel

theorem commit_integrity_bubbleOnFullRing :
    (∀ n, n < 67 →
        CommitIntegrity (Sys.machine.run (Sys.start DpCom.ofReset) bubbleOnFullRing n)) ↔
      ∀ n, n < 67 →
        ¬ (Sys.machine.run (Sys.start DpCom.ofReset) bubbleOnFullRing n).overwritesHead :=
  commit_integrity_iff DpCom.afterReset_ofReset legal_bubbleOnFullRing

end HeliosXCore
