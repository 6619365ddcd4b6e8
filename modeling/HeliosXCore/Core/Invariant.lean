import HeliosXCore.Core.Drop

/-! The invariant of the whole core. The ring is stalled only behind a lost instruction, and until then
    rename, the RRF and the ROB are in order. -/

namespace HeliosXCore
open Rtl

namespace Traced
variable {t : Traced} {imem : Word → Word} {d : Word}

/-- Only a lost instruction fills the ring. -/
theorem frozen_of_full (hbo : Bound t) (hfull : t.log.len = t.log.com + 63) : t.Frozen := by
  refine ⟨hfull, ?_⟩
  by_contra hd
  have := hbo.com hd
  omega

theorem frozen_of_stall (hbo : Bound t) (ha : Acct t.sys) (hst : t.core.hx.stall = true) :
    t.Frozen ∧ t.core.hx.idUnit.dec.wrReg = true := by
  rw [stall_eq, ha.stall_eq] at hst
  simp only [Bool.and_eq_true, decide_eq_true_iff] at hst
  exact ⟨frozen_of_full hbo hst.2, hst.1.1⟩

theorem not_overwritesHead (hbo : Bound t) (ha : Acct t.sys) (hnf : ¬ t.Frozen) :
    ¬ t.sys.overwritesHead := by
  intro ho
  simp only [Sys.overwritesHead, Bool.and_eq_true, beq_iff_eq] at ho
  exact hnf (frozen_of_full hbo (ha.freenum_eq_zero.mp ho.1.2))

end Traced

/-- What holds in every cycle, whatever the program is. `init` are the contents of the register file
    after reset. -/
structure Kept (init : RegSel → Word) (t : Traced) : Prop where
  acct : Acct t.sys
  quiet : Quiet t.core.hx
  latched : Latched t
  station : Station t
  laps : Laps t
  bound : Bound t
  refused : t.core.hx.dp.rrfAllocatableReg = false →
    t.Frozen ∧ t.core.hx.idUnit.dec.wrReg = true
  phase : t.Frozen ∨ Stored t.sys ∧ Renamed init t.sys

/-- What holds in every cycle of a program of ALU instructions and no-ops. -/
structure Inv (init : RegSel → Word) (t : Traced) : Prop where
  acct : Acct t.sys
  front : FrontOk t.core
  quiet : Quiet t.core.hx
  latched : Latched t
  station : Station t
  laps : Laps t
  bound : Bound t
  refused : t.core.hx.dp.rrfAllocatableReg = false →
    t.Frozen ∧ t.core.hx.idUnit.dec.wrReg = true
  phase : t.Frozen ∨ Stored t.sys ∧ Renamed init t.sys

namespace Kept
variable {init : RegSel → Word} {t : Traced} {imem : Word → Word} {d : Word}

theorem start {s : HeliosX} (hs : s.AfterReset) : Kept s.dp.arf.mem (Traced.start s) := by
  have hdp : DpCom.AfterReset ⟨s.dp, s.rob⟩ := by
    obtain ⟨s0, i1, d1, i2, d2, rfl⟩ := hs
    exact ⟨⟨s0.dp, s0.rob⟩, ⟨s0.idUnit, HeliosX.forwards s0.ex, s0.ex.alu.robWe, s0.ex.alu.rrfTag⟩,
      ⟨IDUnit.cleared, HeliosX.forwards (HeliosX.next true i1 d1 s0).ex, false, 0⟩,
      ⟨rfl, rfl, rfl⟩, rfl⟩
  refine ⟨Acct.start hdp, Quiet.start hs, Latched.start hs, Station.start hs,
    Laps.start hs, Bound.start hs, fun hr => ?_, Or.inr ⟨Stored.start _, Renamed.start hdp⟩⟩
  obtain ⟨s0, i1, d1, i2, d2, rfl⟩ := hs
  have hone := (HeliosX.next true i1 d1 s0).dp.rrfAlloc.rrfAllocatable_eq
    (HeliosX.next true i1 d1 s0).rob.comnum (HeliosX.next true i1 d1 s0).idUnit.dec.wrReg
    (Nat.le_refl 63)
  exact absurd (hone.symm.trans hr) (by simp [HeliosX.next, IDUnit.next, IDUnit.cleared,
    IDUnit.decZero])

/-- A dispatched instruction was accepted. `hreq` is what the request for `RSAlu` says of it. -/
theorem pending_of_writes (h : Kept init t)
    (hreq : t.core.hx.swPorts.reqAluNum ≥ 1 → t.core.hx.dp.dstEnReg = true) {e : BitVec 3}
    (hw : t.core.hx.WritesEntry e) : t.Pending := by
  have hwe := hw.1
  simp only [SwUnit.aluWe1, Bool.and_eq_true, Bool.not_eq_true', decide_eq_true_iff] at hwe
  obtain ⟨⟨⟨⟨hst, -⟩, -⟩, hone⟩, -⟩ := hwe
  change t.core.hx.stall = false at hst
  refine ⟨?_, hreq hone⟩
  cases hr : t.core.hx.dp.rrfAllocatableReg with
  | true => rfl
  | false =>
    obtain ⟨hfr, hwr⟩ := h.refused hr
    rw [hfr.stall h.acct, hwr] at hst
    cases hst

/-- The next pending instruction was renamed with everything in order. -/
theorem renamed_of_pending_step (h : Kept init t) (hp : (t.step imem d).Pending) :
    ¬ t.Frozen ∧ Renamed init t.sys := by
  have hnf : ¬ t.Frozen := by
    intro hfr
    have hst : t.core.hx.stall = true := (hfr.stall h.acct).trans hp.2
    have hacc := hp.1
    rw [Traced.rrfAllocatableReg_step, hst] at hacc
    cases hacc
  exact ⟨hnf, (h.phase.resolve_left hnf).2⟩

/-- A finished oldest instruction commits. -/
theorem comnum_of_result (h : Kept init t) (hlt : t.log.com < t.log.written)
    (hr : (t.log.result t.log.com).isSome) : t.core.hx.rob.comnum = true := by
  rcases h.phase with hfr | ⟨hst, -⟩
  · rw [hfr.2.2.1] at hr
    cases hr
  · have hv := h.acct.valid t.log.com (Nat.le_refl _) hlt
    have hf := hst.finish t.log.com (Nat.le_refl _) hlt hr
    have hptr : t.core.hx.rob.commitPtr1 = tagOf t.log.com := h.acct.commitPtr
    rw [SingleInstROB.comnum, SingleInstROB.commit1, hptr]
    exact Bool.and_eq_true_iff.mpr ⟨hv, hf⟩

/-- Rename and commit stay in order unless the core is frozen. -/
theorem renamed_step (h : Kept init t) (imem : Word → Word) (d : Word) (hfr : ¬ t.Frozen) :
    Stored (t.step imem d).sys ∧ Renamed init (t.step imem d).sys := by
  have hlegal := h.latched.legal
  obtain ⟨hst, hren⟩ := h.phase.resolve_left hfr
  have hns : t.sys.stall t.event = false := by
    cases hs : t.sys.stall t.event with
    | false => rfl
    | true => exact absurd (Traced.frozen_of_stall h.bound h.acct hs).1 hfr
  rw [h.latched.sys_step h.acct imem d]
  exact ⟨hst.step h.acct hlegal (Traced.not_overwritesHead h.bound h.acct hfr),
    hren.step hst h.acct hlegal (h.latched.forwarding h.quiet h.acct) hns⟩

/-- Every cycle in which at most one instruction is dispatched keeps the invariant. -/
theorem step (h : Kept init t) (hf : t.core.OneAtMost)
    (hp : ∀ e, t.core.hx.WritesEntry e → t.Pending) (imem : Word → Word) (d : Word) :
    Kept init (t.step imem d) := by
  refine ⟨?_, h.quiet.step _ d, Latched.step h.station h.acct,
    h.station.step hf h.latched h.quiet h.acct hp
      (fun hpe => (h.renamed_of_pending_step hpe).2),
    h.laps.step hf h.acct hp,
    h.bound.step h.station hf h.latched h.quiet h.laps h.acct hp h.comnum_of_result,
    fun hr => ?_, ?_⟩
  · rw [h.latched.sys_step h.acct imem d]
    exact h.acct.step h.latched.legal
  · have hst : t.core.hx.stall = true := by
      rw [Traced.rrfAllocatableReg_step] at hr
      exact Bool.not_eq_eq_eq_not.mp hr
    obtain ⟨hfr, hwr⟩ := Traced.frozen_of_stall h.bound h.acct hst
    refine ⟨hfr.step hf h.acct, ?_⟩
    change (IDUnit.next false false t.core.hx.stall _ _ t.core.hx.idUnit).dec.wrReg = true
    rw [hst]
    exact hwr
  · by_cases hfr : t.Frozen
    · exact Or.inl (hfr.step hf h.acct)
    · exact Or.inr (h.renamed_step imem d hfr)

/-- A stalled core keeps the instruction in rename, commits nothing and stays stalled. -/
theorem stall_step (h : Kept init t) (hf : t.core.OneAtMost) (h' : Kept init (t.step imem d))
    (hst : t.core.hx.stall = true) :
    (t.step imem d).core.hx.stall = true ∧
      (t.step imem d).core.hx.idUnit = t.core.hx.idUnit ∧ t.core.hx.rob.comnum = false := by
  obtain ⟨hfr, hwr⟩ := Traced.frozen_of_stall h.bound h.acct hst
  have hfr' : (t.step imem d).Frozen := hfr.step hf h.acct
  have hid : (t.step imem d).core.hx.idUnit = t.core.hx.idUnit := by
    change IDUnit.next false false t.core.hx.stall _ _ t.core.hx.idUnit = _
    rw [hst]
    rfl
  refine ⟨?_, hid, hfr.comnum h.acct⟩
  rw [hfr'.stall h'.acct, hid, hwr]

end Kept

namespace Inv
variable {init : RegSel → Word} {t : Traced} {imem : Word → Word} {d : Word}

theorem kept (h : Inv init t) : Kept init t :=
  ⟨h.acct, h.quiet, h.latched, h.station, h.laps, h.bound, h.refused, h.phase⟩

theorem of_kept (h : Kept init t) (hf : FrontOk t.core) : Inv init t :=
  ⟨h.acct, hf, h.quiet, h.latched, h.station, h.laps, h.bound, h.refused, h.phase⟩

theorem start {s : HeliosX} (hs : s.AfterReset) : Inv s.dp.arf.mem (Traced.start s) :=
  of_kept (Kept.start hs) (FrontOk.start hs)

/-- A dispatched instruction was accepted. -/
theorem pending_of_writes (h : Inv init t) {e : BitVec 3} (hw : t.core.hx.WritesEntry e) :
    t.Pending := by
  refine h.kept.pending_of_writes ?_ hw
  intro hreq
  rw [h.front.reqAluNum] at hreq
  cases hd : t.core.hx.dp.dstEnReg with
  | true => rfl
  | false =>
    rw [hd] at hreq
    exact absurd hreq (by decide)

theorem renamed_of_pending_step (h : Inv init t) (hp : (t.step imem d).Pending) :
    ¬ t.Frozen ∧ Renamed init t.sys := h.kept.renamed_of_pending_step hp

theorem comnum_of_result (h : Inv init t) (hlt : t.log.com < t.log.written)
    (hr : (t.log.result t.log.com).isSome) : t.core.hx.rob.comnum = true :=
  h.kept.comnum_of_result hlt hr

/-- Every cycle keeps the invariant. -/
theorem step (h : Inv init t) (himem : AluNopProgram imem) (d : Word) :
    Inv init (t.step imem d) :=
  of_kept (h.kept.step h.front.reqAluNum_ne_two (fun _ hw => h.pending_of_writes hw) imem d)
    (h.front.step himem d)

/-- The invariant holds in every cycle after reset. -/
theorem cycle (himem : AluNopProgram imem) {s : HeliosX} (hs : s.AfterReset) (dmem : ℕ → Word)
    (n : ℕ) : Inv s.dp.arf.mem (Traced.cycle imem dmem s n) :=
  Clocked.run_invariant (M := Traced.machine imem) (start hs)
    (fun _ d h _ => h.step himem d) (fun _ _ => trivial) n (Nat.le_refl n)

end Inv

end HeliosXCore
