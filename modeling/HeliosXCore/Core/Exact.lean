import HeliosXCore.Core.Freed

/-! Exact operands. The operands of an instruction behind which nothing is lost are, in every cycle,
    what the accepted writers and the results demand, as long as no operand meets its tag in an idle
    latch. On a program of ALU instructions none does: the tag that the latch takes over when nothing is
    issued is not that of an instruction someone may wait on. -/

namespace HeliosXCore
open Rtl

/-! ### Operands and the latch -/

namespace Traced
variable (t : Traced)

/-- An operand that meets its tag in the latch meets an instruction there. -/
def Called (o : Operand) : Prop :=
  o.valid = false → t.core.hx.ex.alu.rrfTag = o.tag → t.exIdx.isSome

/-- No operand behind which nothing is lost is called by an idle latch. -/
structure NoFalseCall : Prop where
  slot : ∀ e k, t.core.hx.Busy e → t.Sound (t.idx e) → t.Called ((t.entry e).slot k)
  reg : ∀ e k, t.core.hx.WritesEntry e → t.Sound t.log.written → t.Called (t.regSlot k)

/-- An idle latch does not hold the tag of an instruction that may be waited on. -/
def Silent : Prop := t.exIdx = none → ∀ p, p < t.log.len → t.Sound p → t.log.result p = none →
  t.core.hx.ex.alu.rrfTag ≠ tagOf p

variable {t} {init : RegSel → Word} {imem : Word → Word} {d : Word}

theorem called_of_silent (hs : t.Silent) {r : RegSel} {i : ℕ} {o : Operand} (hi : i ≤ t.log.len)
    (hsnd : t.Sound i) (hw : o.valid = false → t.log.Waits r i o) : t.Called o := by
  intro hv htag
  obtain ⟨p, hp, hres, hto⟩ := hw hv
  have hpi := (lastBefore_lt hp).1
  cases hex : t.exIdx with
  | some q => rfl
  | none =>
    exact absurd (htag.trans hto) (hs hex p (by omega) (hsnd.mono (Nat.le_of_lt hpi)) hres)

theorem Silent.noFalseCall (hs : t.Silent) (h : Kept init t)
    (hp : ∀ e, t.core.hx.WritesEntry e → t.Pending) : t.NoFalseCall where
  slot := by
    intro e k hb hsnd
    obtain ⟨a, ha, -⟩ := h.station.data e hb
    have hlt := (h.station.live e hb).1
    have hwl := written_le h.acct
    exact called_of_silent hs (by omega) hsnd (h.station.waits e a k hb ha)
  reg := fun e k hw hsnd =>
    called_of_silent hs (written_le h.acct) hsnd (h.station.regWaits k (hp e hw))

/-- The latch holds the tag of an instruction without a result exactly if it holds the instruction. -/
theorem rrfTag_eq_iff (h : Kept init t) {p : ℕ} (hp : p < t.log.len) (hres : t.log.result p = none)
    (hc : t.core.hx.ex.alu.rrfTag = tagOf p → t.exIdx.isSome) :
    t.core.hx.ex.alu.rrfTag = tagOf p ↔ t.exIdx = some p := by
  refine ⟨?_, h.latched.tag p⟩
  intro htag
  obtain ⟨q, hex⟩ := Option.isSome_iff_exists.mp (hc htag)
  obtain ⟨hq, hqr⟩ := h.latched.live q hex
  have hwl := written_le h.acct
  have hqp := (tagOf_eq_iff_of_none h.acct (by omega) hqr hp hres).mp
    ((h.latched.tag q hex).symm.trans htag)
  rw [hex, hqp]

/-- An operand that watches the latch stays what it should be. -/
theorem operandAt_step (h : Kept init t) {r : RegSel} {i : ℕ} (hi : i ≤ t.log.len)
    (hc : t.Called (t.log.operandAt init r i)) :
    sourceManager (HeliosX.exeResults t.core.hx.ex) (t.log.operandAt init r i) =
      (t.step imem d).log.operandAt init r i := by
  have hw : (t.step imem d).log.writerBefore r i = t.log.writerBefore r i :=
    Sys.writerBefore_step t.event t.sys r hi
  unfold Log.operandAt at hc ⊢
  rw [hw]
  split_ifs with h0
  · rw [sourceManager_valid rfl]
  · rw [if_neg h0] at hc
    cases hp : t.log.writerBefore r i with
    | none => exact sourceManager_valid rfl
    | some p =>
      have hpi := (lastBefore_lt hp).1
      rw [hp] at hc
      simp only [Traced.result_step]
      cases hres : t.log.result p with
      | some v =>
        have hne : t.exIdx ≠ some p := by
          intro hex
          have := (h.latched.live p hex).2
          rw [hres] at this
          cases this
        rw [if_neg hne]
        exact sourceManager_valid rfl
      | none =>
        have htag := tag_concat (tagOf p) false
        have hne : (⟨0#26 ++ tagOf p, false⟩ : Operand).tag ≠ 0 := by
          rw [htag]
          exact tagOf_ne_zero p
        simp only [hres] at hc
        have hiff := rrfTag_eq_iff h (Nat.lt_of_lt_of_le hpi hi) hres
          fun htag' => hc rfl (htag'.trans htag.symm)
        simp only
        rw [Traced.watch_waiting h.quiet rfl hne, htag]
        by_cases hex : t.exIdx = some p
        · rw [if_pos hex, if_pos (hiff.mpr hex)]
        · rw [if_neg hex, if_neg fun htag' => hex (hiff.mp htag')]

end Traced

/-- What the operands in entries and DP/SW registers are. -/
structure Operands (init : RegSel → Word) (t : Traced) : Prop where
  slot : ∀ e a k, t.core.hx.Busy e → t.Sound (t.idx e) → t.log.accepted[t.idx e]? = some a →
    (t.entry e).slot k = t.log.operandAt init (a.id.dec.src k) (t.idx e)
  reg : ∀ k, t.Pending →
    t.regSlot k = t.log.operandAt init (t.core.hx.dp.idReg.dec.src k) t.log.written

namespace Operands
variable {init : RegSel → Word} {t : Traced} {imem : Word → Word} {d : Word}

theorem start {s : HeliosX} (hs : s.AfterReset) : Operands s.dp.arf.mem (Traced.start s) := by
  have hpend : ¬ (Traced.start s).Pending := by
    intro hp
    have := hp.len_eq (Inv.start hs).acct
    cases this
  refine ⟨fun e _ _ hb => ?_, fun _ hp => absurd hp hpend⟩
  have := ((Station.start hs).live e hb).1
  cases this

theorem slot_step (h : Operands init t) (hk : Kept init t) (hf : t.core.OneAtMost)
    (hp : ∀ e, t.core.hx.WritesEntry e → t.Pending) (hc : t.NoFalseCall) (e : BitVec 3)
    (a : Accepted) (k : Src) (hb : (t.step imem d).core.hx.Busy e)
    (hsnd : (t.step imem d).Sound ((t.step imem d).idx e))
    (hacc : (t.step imem d).log.accepted[(t.step imem d).idx e]? = some a) :
    ((t.step imem d).entry e).slot k =
      (t.step imem d).log.operandAt init (a.id.dec.src k) ((t.step imem d).idx e) := by
  have hsnd' := hsnd.of_step hf hk.acct
  have hwl := Traced.written_le hk.acct
  rcases Traced.busy_step_cases hf hb with ⟨hw, hidx, hent⟩ | ⟨hold, -, hidx, hent⟩
  · have hpe := hp e hw
    have hlen := hpe.len_eq hk.acct
    rw [hidx] at hsnd'
    rw [hidx, Traced.accepted_step (by omega)] at hacc
    have hcall := hc.reg e k hw hsnd'
    have hreg := h.reg k hpe
    rw [hreg] at hcall
    rw [Traced.regSlot] at hreg
    rw [hidx, hent, slot_stored, hreg, hpe.id_eq hk.acct hacc]
    exact Traced.operandAt_step hk hwl hcall
  · have hlt := (hk.station.live e hold).1
    rw [hidx] at hsnd'
    rw [hidx, Traced.accepted_step (by omega)] at hacc
    have hcall := hc.slot e k hold hsnd'
    have hslot := h.slot e a k hold hsnd' hacc
    rw [hslot] at hcall
    rw [hidx, hent, slot_held, hslot]
    exact Traced.operandAt_step hk (by omega) hcall

/-- One cycle without a false call. -/
theorem step (h : Operands init t) (hk : Kept init t) (hf : t.core.OneAtMost)
    (hp : ∀ e, t.core.hx.WritesEntry e → t.Pending) (hc : t.NoFalseCall) :
    Operands init (t.step imem d) where
  slot := h.slot_step hk hf hp hc
  reg := fun k hpe =>
    Traced.regSlot_step (hk.renamed_of_pending_step hpe).2 hk.latched hk.quiet hk.acct k

end Operands

/-! ### The tag of a freed entry -/

namespace Freed
variable {init : RegSel → Word} {t : Traced} {imem : Word → Word} {d : Word}

/-- While nothing can be issued, the instruction that the oldest entry waits on is in the latch, and
    the freed entry it came from looks older than every busy one. -/
theorem not_busy_pointed (h : Freed t) (hk : Kept init t)
    (hno : t.core.hx.sw.exeAluIssue = false) (hb : t.core.hx.Busy t.pointed)
    (hsnd : t.Sound (t.idx t.pointed)) : False := by
  obtain ⟨e, hbe, hmin⟩ := exists_oldest (p := t.core.hx.Busy) (f := t.idx) hb
  have hnr : ∀ e, ¬ t.Ready e := by
    intro e hr
    rw [Traced.issue_of_ready hr] at hno
    cases hno
  obtain ⟨k, hv⟩ : ∃ k, ((t.entry e).slot k).valid = false := by
    by_contra hall
    push Not at hall
    exact hnr e ((Traced.ready_iff e).mpr ⟨hbe, fun k => by simpa using hall k⟩)
  obtain ⟨q, hex, hqe, -⟩ := Traced.oldest_waits hk.station hbe hmin
    (hsnd.mono (hmin _ hb)) hv
  obtain ⟨f, -, hff, rfl⟩ := h.latch q hex
  have hwin := Traced.window hk.acct
  have hcq := Traced.com_le_of_none hk.acct (hk.latched.live _ hex).2
  have hpf := Traced.not_fresh_of_busy hk.station hk.acct hb
  have hage := hk.laps.age_lt hk.acct hff hpf (by omega) (Nat.lt_of_lt_of_le hqe (hmin _ hb))
  have hle := SwUnit.age_aluIssueAddr_le t.core.hx.sw (iff_of_false (hnr f) (hnr _))
  exact absurd hle (Nat.not_le.mpr hage)

/-- An edge at which nothing is issued leaves the latch silent, if the tag pointed at is less than a
    lap behind. -/
theorem silent_step (h : Freed t) (hk : Kept init t) (hf : t.core.OneAtMost)
    (hnear : ∀ p, p < (t.step imem d).log.len → (t.step imem d).Sound p → ¬ t.Fresh t.pointed →
      p < t.idx t.pointed + 63) : (t.step imem d).Silent := by
  intro hidle p hp hsnd hres htag
  change (t.entry t.pointed).exeRrfTag = tagOf p at htag
  have hno : t.core.hx.sw.exeAluIssue = false :=
    Traced.exIdx_isSome_step.symm.trans (congrArg Option.isSome hidle)
  have hres' : t.exIdx ≠ some p ∧ t.log.result p = none := by
    rw [Traced.result_step] at hres
    split at hres
    · cases hres
    · rename_i hex
      exact ⟨hex, hres⟩
  have hfe : ¬ t.Fresh t.pointed := fun hfe => tagOf_ne_zero p (htag.symm.trans hfe)
  have htag' := (hk.laps.stamped _ hfe).tag
  have hsw := hk.laps.lt _ hfe
  have hlen := Bound.len_step_le t imem d
  have hlap := hnear p hp hsnd hfe
  have hwl := Traced.written_le hk.acct
  have hwin := Traced.window hk.acct
  have hcp := Traced.com_le_of_none hk.acct hres'.2
  have hidx : t.idx t.pointed = p := by
    rcases Nat.le_total (t.idx t.pointed) p with hle | hle
    · exact tagOf_inj hle hlap (htag'.symm.trans htag)
    · exact (tagOf_inj hle (by omega) (htag.symm.trans htag')).symm
  by_cases hb : t.core.hx.Busy t.pointed
  · exact h.not_busy_pointed hk hno hb (hidx.symm ▸ hsnd.of_step hf hk.acct)
  · rcases h.issued _ hb hfe with hex | hsome
    · exact hres'.1 (hidx ▸ hex)
    · rw [hidx, hres'.2] at hsome
      cases hsome

end Freed

/-! ### Programs of ALU instructions -/

/-- What holds of entries, latch and DP/SW registers on a program of ALU instructions. -/
structure Exact (init : RegSel → Word) (t : Traced) : Prop where
  freed : Freed t
  packed : t.NoDrop → Packed t
  /-- A tag left over is less than a lap behind. -/
  near : ∀ e p, ¬ t.Fresh e → p ≤ t.log.len → t.Sound p → p < t.idx e + 63
  /-- An idle latch calls nobody. -/
  silent : t.exIdx = none → ∀ p, p < t.log.len → t.Sound p → t.log.result p = none →
    t.core.hx.ex.alu.rrfTag ≠ tagOf p
  slot : ∀ e a k, t.core.hx.Busy e → t.Sound (t.idx e) → t.log.accepted[t.idx e]? = some a →
    (t.entry e).slot k = t.log.operandAt init (a.id.dec.src k) (t.idx e)
  reg : ∀ k, t.Pending →
    t.regSlot k = t.log.operandAt init (t.core.hx.dp.idReg.dec.src k) t.log.written

namespace Exact
variable {init : RegSel → Word} {t : Traced} {imem : Word → Word} {d : Word}

theorem start {s : HeliosX} (hs : s.AfterReset) : Exact s.dp.arf.mem (Traced.start s) := by
  have hop := Operands.start hs
  have hfresh : ∀ e, (Traced.start s).Fresh e := by
    intro e
    obtain ⟨s0, i1, d1, i2, d2, rfl⟩ := hs
    rfl
  refine ⟨Freed.start hs, fun _ => Packed.start hs, fun e _ he => absurd (hfresh e) he,
    fun _ p hp => absurd hp (Nat.not_lt_zero p), hop.slot, hop.reg⟩

theorem operands (h : Exact init t) : Operands init t := ⟨h.slot, h.reg⟩

theorem noFalseCall (h : Exact init t) (hI : Inv init t) : t.NoFalseCall :=
  Traced.Silent.noFalseCall h.silent hI.kept fun _ hw => hI.pending_of_writes hw

theorem operands_step (h : Exact init t) (hI : Inv init t) : Operands init (t.step imem d) :=
  h.operands.step hI.kept hI.front (fun _ hw => hI.pending_of_writes hw) (h.noFalseCall hI)

theorem packed_step (h : Exact init t) (hI : Inv init t)
    (hfed : t.NoDrop → t.Pending ∨ t.log.written = 0) (hnd : (t.step imem d).NoDrop) :
    Packed (t.step imem d) := by
  have hnd' := hnd.of_step hI.front hI.acct
  by_cases hw : ∃ f, t.core.hx.WritesEntry f
  · obtain ⟨f, hf⟩ := hw
    exact (h.packed hnd').step_of_writes h.freed hI.front hI.station hI.acct hf
  · push Not at hw
    rcases hfed hnd' with hp | h0
    · exact absurd (Traced.dropped_of_not_written hI.station hI.front hI.latched hI.acct hp hw)
        (hnd _)
    · exact (h.packed hnd').step_of_empty hI.front hI.station hI.latched hw h0

/-- Behind a lost instruction nothing new is sound; before that the freed entries are recent. -/
theorem near_step (h : Exact init t) (hI : Inv init t) (hI' : Inv init (t.step imem d))
    (hfed : t.NoDrop → t.Pending ∨ t.log.written = 0) (e : BitVec 3) (p : ℕ)
    (he : ¬ (t.step imem d).Fresh e) (hp : p ≤ (t.step imem d).log.len)
    (hsnd : (t.step imem d).Sound p) : p < (t.step imem d).idx e + 63 := by
  rcases Nat.lt_or_ge t.log.len p with hgt | hle
  · have hnd : (t.step imem d).NoDrop := by
      intro i hi
      refine hsnd i ?_ hi
      have := hi.1
      rw [Traced.written_step] at this
      omega
    rcases (h.packed_step hI hfed hnd).kind e with hb | hfe | hex
    · have := hI'.bound.busy e hb (hnd.sound _)
      omega
    · exact absurd hfe he
    · have := hI'.bound.latch _ hex (hnd.sound _)
      omega
  · rw [Traced.idx_step]
    by_cases hw : t.core.hx.WritesEntry e
    · have := (hI.pending_of_writes hw).len_eq hI.acct
      rw [if_pos hw]
      omega
    · rw [if_neg hw]
      exact h.near e p ((Traced.fresh_step hI.front hw).not.mp he) hle
        (hsnd.of_step hI.front hI.acct)

/-- One cycle. `hfed`: until something is lost, an instruction is dispatched in every cycle. -/
theorem step (h : Exact init t) (hI : Inv init t) (hI' : Inv init (t.step imem d))
    (hfed : t.NoDrop → t.Pending ∨ t.log.written = 0) : Exact init (t.step imem d) where
  freed := h.freed.step hI.front hI.station hI.laps hI.acct
  packed := h.packed_step hI hfed
  near := h.near_step hI hI' hfed
  silent := h.freed.silent_step hI.kept hI.front fun p hp hsnd hfe => by
    have hlen := Bound.len_step_le t imem d
    exact h.near t.pointed p hfe (by omega) (hsnd.of_step hI.front hI.acct)
  slot := (h.operands_step hI).slot
  reg := (h.operands_step hI).reg

end Exact

theorem AluTrace.exact {imem : Word → Word} {init : RegSel → Word} {T : ℕ → Traced}
    (h : AluTrace imem init T) (h0 : Exact init (T 0)) (n : ℕ) : Exact init (T n) := by
  induction n with
  | zero => exact h0
  | succ n ih =>
    obtain ⟨d, hd⟩ := h.next n
    have hI' := h.inv (n + 1)
    rw [hd] at hI' ⊢
    refine ih.step (h.inv n) hI' ?_
    intro hnd
    rcases Nat.lt_or_ge n 4 with hlt | hge
    · right
      rw [h.written_at_noDrop hnd]
      omega
    · exact Or.inl (h.pending_at_noDrop hnd hge)

end HeliosXCore
