import HeliosXCore.Core.Flow

/-! What is left in freed entries. An entry keeps its tag after its instruction has been issued. On a
    program of ALU instructions the freed entry is written again in the next cycle, so until the
    station overflows the only tag left over is that of the instruction in the latch. -/

namespace HeliosXCore
open Rtl

namespace Traced
variable (t : Traced)

/-- Entry `e` has never been written. -/
def Fresh (e : BitVec 3) : Prop := (t.entry e).exeRrfTag = 0

end Traced

/-- What holds of entries that are not busy, whatever the program is. -/
structure Freed (t : Traced) : Prop where
  inj : ∀ e e', ¬ t.Fresh e → ¬ t.Fresh e' → t.idx e = t.idx e' → e = e'
  issued : ∀ e, ¬ t.core.hx.Busy e → ¬ t.Fresh e →
    t.exIdx = some (t.idx e) ∨ (t.log.result (t.idx e)).isSome
  latch : ∀ q, t.exIdx = some q → ∃ e, ¬ t.core.hx.Busy e ∧ ¬ t.Fresh e ∧ t.idx e = q

namespace Traced
variable {t : Traced} {imem : Word → Word} {d : Word}

theorem not_fresh_of_busy (hs : Station t) (ha : Acct t.sys) {e : BitVec 3}
    (hb : t.core.hx.Busy e) : ¬ t.Fresh e := by
  rw [Fresh, tag_of_busy hs ha hb]
  exact tagOf_ne_zero _

theorem fresh_step (hf : t.core.OneAtMost) {e : BitVec 3} (hw : ¬ t.core.hx.WritesEntry e) :
    (t.step imem d).Fresh e ↔ t.Fresh e := by
  rw [Fresh, entry_step hf, if_neg hw]
  rfl

end Traced

namespace Freed
variable {t : Traced} {imem : Word → Word} {d : Word}

theorem start {s : HeliosX} (hs : s.AfterReset) : Freed (Traced.start s) := by
  obtain ⟨s0, i1, d1, i2, d2, rfl⟩ := hs
  exact ⟨fun e _ he => absurd rfl he, fun e _ he => absurd rfl he, fun q hq => by cases hq⟩

theorem inj_step (h : Freed t) (hf : t.core.OneAtMost) (hla : Laps t) (e e' : BitVec 3)
    (he : ¬ (t.step imem d).Fresh e) (he' : ¬ (t.step imem d).Fresh e')
    (hi : (t.step imem d).idx e = (t.step imem d).idx e') : e = e' := by
  rw [Traced.idx_step, Traced.idx_step] at hi
  split_ifs at hi with hw hw' hw'
  · exact hw.2.symm.trans hw'.2
  · have := hla.lt e' ((Traced.fresh_step hf hw').not.mp he')
    omega
  · have := hla.lt e ((Traced.fresh_step hf hw).not.mp he)
    omega
  · exact h.inj e e' ((Traced.fresh_step hf hw).not.mp he) ((Traced.fresh_step hf hw').not.mp he') hi

/-- An entry becomes free by issuing its instruction. -/
theorem issued_step (h : Freed t) (hf : t.core.OneAtMost) (e : BitVec 3)
    (hb : ¬ (t.step imem d).core.hx.Busy e) (he : ¬ (t.step imem d).Fresh e) :
    (t.step imem d).exIdx = some ((t.step imem d).idx e) ∨
      ((t.step imem d).log.result ((t.step imem d).idx e)).isSome := by
  have hw : ¬ t.core.hx.WritesEntry e := by
    intro hw
    have hni : ¬ t.core.hx.sw.IssuesEntry e := fun hi =>
      Traced.not_busy_of_writes hw (Traced.busy_of_issues hi)
    exact hb ((Traced.busy_step hf e).mpr ⟨hni, Or.inl hw⟩)
  rw [Traced.idx_step, if_neg hw]
  by_cases hbt : t.core.hx.Busy e
  · have hi : t.core.hx.sw.IssuesEntry e := by
      by_contra hni
      exact hb ((Traced.busy_step hf e).mpr ⟨hni, Or.inr hbt⟩)
    exact Or.inl (Traced.exIdx_step_eq_some.mpr ⟨e, hi, rfl⟩)
  · right
    rw [Traced.result_step]
    rcases h.issued e hbt ((Traced.fresh_step hf hw).not.mp he) with hex | hres
    · rw [if_pos hex]
      rfl
    · split
      · rfl
      · exact hres

theorem latch_step (hf : t.core.OneAtMost) (hs : Station t) (ha : Acct t.sys) (q : ℕ)
    (hq : (t.step imem d).exIdx = some q) :
    ∃ e, ¬ (t.step imem d).core.hx.Busy e ∧ ¬ (t.step imem d).Fresh e ∧
      (t.step imem d).idx e = q := by
  obtain ⟨e, hi, rfl⟩ := Traced.exIdx_step_eq_some.mp hq
  have hb := Traced.busy_of_issues hi
  have hw : ¬ t.core.hx.WritesEntry e := fun hw => Traced.not_busy_of_writes hw hb
  refine ⟨e, fun hb' => ((Traced.busy_step hf e).mp hb').1 hi, ?_, ?_⟩
  · rw [Traced.fresh_step hf hw]
    exact Traced.not_fresh_of_busy hs ha hb
  · rw [Traced.idx_step, if_neg hw]

theorem step (h : Freed t) (hf : t.core.OneAtMost) (hs : Station t) (hla : Laps t)
    (ha : Acct t.sys) : Freed (t.step imem d) :=
  ⟨h.inj_step hf hla, h.issued_step hf, latch_step hf hs ha⟩

end Freed

/-! ### Until the station overflows -/

/-- A freed entry holds what is in the latch, and the entries that were never written are the last
    ones. -/
structure Packed (t : Traced) : Prop where
  kind : ∀ e, t.core.hx.Busy e ∨ t.Fresh e ∨ t.exIdx = some (t.idx e)
  fresh : ∀ e e', e < e' → t.Fresh e → t.Fresh e'

namespace Traced
variable {t : Traced} {imem : Word → Word} {d : Word}

theorem NoDrop.of_step (h : (t.step imem d).NoDrop) (hf : t.core.OneAtMost) (ha : Acct t.sys) :
    t.NoDrop := fun i hi => h i (hi.step hf ha)

theorem NoDrop.sound (h : t.NoDrop) (j : ℕ) : t.Sound j := fun i _ => h i

/-- A pending instruction that gets no entry is lost. -/
theorem dropped_of_not_written (hs : Station t) (hf : t.core.OneAtMost) (hl : Latched t)
    (ha : Acct t.sys) (hp : t.Pending) (hno : ∀ e, ¬ t.core.hx.WritesEntry e) :
    (t.step imem d).Dropped t.log.written := by
  have hlen := hp.len_eq ha
  refine ⟨?_, ?_, ?_, ?_⟩
  · rw [written_step]
    omega
  · rw [result_step, if_neg, todo ha (Nat.le_refl _)]
    intro hex
    have := (hl.live _ hex).1
    omega
  · intro hex
    obtain ⟨e, hi, he⟩ := exIdx_step_eq_some.mp hex
    have := (hs.live e (busy_of_issues hi)).1
    omega
  · intro e hb
    rw [idx_step, if_neg (hno e)]
    have hb' := ((busy_step hf e).mp hb).2.resolve_left (hno e)
    have := (hs.live e hb').1
    omega

/-- Nothing else is lost. -/
theorem NoDrop.step (h : t.NoDrop) (hf : t.core.OneAtMost) (ha : Acct t.sys)
    (hw : t.Pending → ∃ e, t.core.hx.WritesEntry e) : (t.step imem d).NoDrop := by
  rintro i ⟨hlt, hres, hex, hbusy⟩
  rw [written_step] at hlt
  rw [result_step] at hres
  rcases Nat.lt_or_ge i t.log.written with hold | hnew
  · split at hres
    · cases hres
    · rename_i hne
      rcases placed (h i) hres hold with hex' | ⟨e, hb, he⟩
      · exact hne hex'
      · by_cases hi : t.core.hx.sw.IssuesEntry e
        · exact hex (exIdx_step_eq_some.mpr ⟨e, hi, he⟩)
        · refine hbusy e ((busy_step hf e).mpr ⟨hi, Or.inr hb⟩) ?_
          rw [idx_step, if_neg fun hwe => not_busy_of_writes hwe hb]
          exact he
  · have hp := pending_of_lt ha (by omega)
    have hlen := hp.len_eq ha
    obtain ⟨f, hf'⟩ := hw hp
    have hni : ¬ t.core.hx.sw.IssuesEntry f := fun hi =>
      not_busy_of_writes hf' (busy_of_issues hi)
    refine hbusy f ((busy_step hf f).mpr ⟨hni, Or.inl hf'⟩) ?_
    rw [idx_step, if_pos hf']
    omega

end Traced

namespace Packed
variable {t : Traced} {imem : Word → Word} {d : Word}

theorem start {s : HeliosX} (hs : s.AfterReset) : Packed (Traced.start s) := by
  obtain ⟨s0, i1, d1, i2, d2, rfl⟩ := hs
  exact ⟨fun e => Or.inr (Or.inl rfl), fun _ _ _ _ => rfl⟩

/-- The entry that is written is the one freed last, or the first that was never written. -/
theorem step_of_writes (h : Packed t) (hfr : Freed t) (hf : t.core.OneAtMost) (hs : Station t)
    (ha : Acct t.sys) {f : BitVec 3} (hw : t.core.hx.WritesEntry f) : Packed (t.step imem d) := by
  have hfree := Traced.not_busy_of_writes hw
  have hother : ∀ {e}, e ≠ f → ¬ t.core.hx.WritesEntry e := fun hne hwe => hne (hwe.2.symm.trans hw.2)
  have hbelow : ∀ e, e < f → t.core.hx.Busy e := by
    obtain ⟨hwe, rfl⟩ := hw
    simp only [SwUnit.aluWe1, Bool.and_eq_true] at hwe
    rw [SwUnit.aluRsAllocateEntry1, if_pos hwe.1.1.2]
    exact (AllocateUnit.freeEntry1_spec t.core.hx.sw.rsAlu.busyVector hwe.1.1.2).2
  have hfreshBusy : ∀ e, t.Fresh e → ¬ t.core.hx.Busy e := fun e he hb =>
    Traced.not_fresh_of_busy hs ha hb he
  constructor
  · intro e
    by_cases hef : e = f
    · subst hef
      have hni : ¬ t.core.hx.sw.IssuesEntry e := fun hi => hfree (Traced.busy_of_issues hi)
      exact Or.inl ((Traced.busy_step hf e).mpr ⟨hni, Or.inl hw⟩)
    · by_cases hb : t.core.hx.Busy e
      · by_cases hi : t.core.hx.sw.IssuesEntry e
        · refine Or.inr (Or.inr (Traced.exIdx_step_eq_some.mpr ⟨e, hi, ?_⟩))
          rw [Traced.idx_step, if_neg (hother hef)]
        · exact Or.inl ((Traced.busy_step hf e).mpr ⟨hi, Or.inr hb⟩)
      · by_cases hfe : t.Fresh e
        · exact Or.inr (Or.inl ((Traced.fresh_step hf (hother hef)).mpr hfe))
        · -- the entry freed last is the lowest free one, so it is the one that is written
          exfalso
          have hle : f ≤ e := by
            by_contra hlt
            exact hb (hbelow e (BitVec.not_le.mp hlt))
          have hlt : f < e := BitVec.lt_of_le_ne hle (Ne.symm hef)
          have hff : ¬ t.Fresh f := fun hff => hfe (h.fresh f e hlt hff)
          have hxf := ((h.kind f).resolve_left hfree).resolve_left hff
          have hxe := ((h.kind e).resolve_left hb).resolve_left hfe
          exact hef (hfr.inj e f hfe hff (Option.some.inj (hxe.symm.trans hxf)))
  · intro e e' hlt he
    have hef : e ≠ f := by
      intro hef
      subst hef
      rw [Traced.Fresh, Traced.entry_step hf, if_pos hw] at he
      have htag : t.core.hx.dp.dstRrftagReg = tagOf t.log.written := ha.regTag
      exact tagOf_ne_zero t.log.written (htag.symm.trans he)
    have hfe := (Traced.fresh_step hf (hother hef)).mp he
    have hef' : e' ≠ f := fun hef' => hfreshBusy e hfe (hbelow e (hef' ▸ hlt))
    exact (Traced.fresh_step hf (hother hef')).mpr (h.fresh e e' hlt hfe)

/-- Before the first instruction is dispatched all entries are as reset left them. -/
theorem step_of_empty (h : Packed t) (hf : t.core.OneAtMost) (hs : Station t) (hl : Latched t)
    (hno : ∀ e, ¬ t.core.hx.WritesEntry e) (h0 : t.log.written = 0) : Packed (t.step imem d) := by
  have hfresh : ∀ e, t.Fresh e := by
    intro e
    rcases h.kind e with hb | hfe | hex
    · have := (hs.live e hb).1
      omega
    · exact hfe
    · have := (hl.live _ hex).1
      omega
  have hfresh' : ∀ e, (t.step imem d).Fresh e := fun e =>
    (Traced.fresh_step hf (hno e)).mpr (hfresh e)
  exact ⟨fun e => Or.inr (Or.inl (hfresh' e)), fun _ e' _ _ => hfresh' e'⟩

end Packed

end HeliosXCore
