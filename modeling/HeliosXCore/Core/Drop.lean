import Mathlib.Data.FinEnum
import HeliosXCore.Lib.Rank
import HeliosXCore.Core.Order

/-! Instructions that get no entry. When all eight entries are busy the dispatched instruction is
    lost: it never gets a result, so nothing from it on commits, and the ring of tags fills up for
    good. Before that the ring stays nearly empty, because the oldest entry is issued in at least
    every second cycle. -/

namespace HeliosXCore
open Rtl

namespace Traced
variable (t : Traced)

/-- Instruction `j` has left the DP/SW registers, is nowhere, and has no result. -/
def Dropped (j : ℕ) : Prop :=
  j < t.log.written ∧ t.log.result j = none ∧ t.exIdx ≠ some j ∧
    ∀ e, t.core.hx.Busy e → t.idx e ≠ j

/-- No instruction up to `j` is lost. -/
def Sound (j : ℕ) : Prop := ∀ i, i ≤ j → ¬ t.Dropped i

/-- The ring is full of tags behind a lost instruction. -/
def Frozen : Prop := t.log.len = t.log.com + 63 ∧ t.Dropped t.log.com

variable {t} {imem : Word → Word} {d : Word}

theorem Sound.mono {i j : ℕ} (h : t.Sound j) (hij : i ≤ j) : t.Sound i :=
  fun k hk => h k (Nat.le_trans hk hij)

/-- A lost instruction stays lost. -/
theorem Dropped.step {j : ℕ} (h : t.Dropped j) (hf : t.core.OneAtMost) (ha : Acct t.sys) :
    (t.step imem d).Dropped j := by
  obtain ⟨hlt, hres, hex, hbusy⟩ := h
  have hwl := written_le ha
  refine ⟨?_, ?_, ?_, ?_⟩
  · rw [written_step]
    omega
  · rw [result_step, if_neg hex]
    exact hres
  · intro hex'
    obtain ⟨e, hi, he⟩ := exIdx_step_eq_some.mp hex'
    exact hbusy e (busy_of_issues hi) he
  · intro e hb
    rcases busy_step_cases hf hb with ⟨-, hidx, -⟩ | ⟨hold, -, hidx, -⟩
    · omega
    · rw [hidx]
      exact hbusy e hold

theorem Sound.of_step {j : ℕ} (h : (t.step imem d).Sound j) (hf : t.core.OneAtMost)
    (ha : Acct t.sys) : t.Sound j := fun i hi hd => h i hi (hd.step hf ha)

/-- An instruction without a result that is not lost is in the latch, in an entry, or younger. -/
theorem placed {j : ℕ} (h : ¬ t.Dropped j) (hres : t.log.result j = none)
    (hlt : j < t.log.written) : t.exIdx = some j ∨ ∃ e, t.core.hx.Busy e ∧ t.idx e = j := by
  by_contra hnot
  push Not at hnot
  exact h ⟨hlt, hres, hnot.1, hnot.2⟩

/-- The instruction that commits is not lost. -/
theorem not_dropped_of_comnum (ha : Acct t.sys) (hc : t.core.hx.rob.comnum = true) :
    ¬ t.Dropped t.log.com := by
  rintro ⟨-, hres, -⟩
  have hsome : (t.log.result t.log.com).isSome := (ha.comnum_imp hc).2
  rw [hres] at hsome
  cases hsome

/-- The instruction behind the last committed one is not lost while everything older is done. -/
theorem sound_com (ha : Acct t.sys) (h : ¬ t.Dropped t.log.com) : t.Sound t.log.com := by
  intro i hi hd
  rcases Nat.lt_or_eq_of_le hi with hlt | rfl
  · have := ha.done i hlt
    rw [show t.sys.log.result i = none from hd.2.1] at this
    cases this
  · exact h hd

/-! ### A full ring -/

theorem stall_eq (t : Traced) : t.core.hx.stall = t.sys.stall t.event := rfl

/-- Refused is what was in rename when the ring stalled. -/
theorem rrfAllocatableReg_step :
    (t.step imem d).core.hx.dp.rrfAllocatableReg = !t.core.hx.stall :=
  Sys.rrfAllocatableReg_step t.event t.sys

theorem Frozen.comnum (h : t.Frozen) (ha : Acct t.sys) : t.core.hx.rob.comnum = false := by
  cases hc : t.core.hx.rob.comnum with
  | false => rfl
  | true => exact absurd h.2 (not_dropped_of_comnum ha hc)

theorem Frozen.stall (h : t.Frozen) (ha : Acct t.sys) :
    t.core.hx.stall = t.core.hx.idUnit.dec.wrReg := by
  have hc : t.sys.hw.rob.comnum = false := h.comnum ha
  have hl : t.sys.log.len = t.sys.log.com + 63 := h.1
  rw [stall_eq, ha.stall_eq, hc]
  simp only [hl, decide_true, Bool.not_false, Bool.and_true]
  rfl

/-- Nothing is accepted and nothing commits any more. -/
theorem Frozen.step (h : t.Frozen) (hf : t.core.OneAtMost) (ha : Acct t.sys) :
    (t.step imem d).Frozen := by
  have hacc : t.sys.accepts t.event = false := by
    rw [Sys.accepts, ← stall_eq, h.stall ha]
    exact Bool.and_not_self _
  have hcom : (t.step imem d).log.com = t.log.com := by
    rw [com_step, h.comnum ha]
    rfl
  refine ⟨?_, ?_⟩
  · rw [len_step, hacc, hcom]
    exact h.1
  · rw [hcom]
    exact h.2.step hf ha

end Traced

/-! ### How full the station gets -/

namespace Traced
variable (t : Traced)

/-- How many entries hold an instruction as old as that of `e`. -/
def rankOf (e : BitVec 3) : ℕ := rank t.core.hx.Busy t.idx e

/-- The oldest entry can be issued. -/
def OldestReady : Prop :=
  ∃ e, t.Ready e ∧ ∀ e', t.core.hx.Busy e' → t.idx e ≤ t.idx e'

end Traced

/-- Each instruction that is not lost is met by at most 19 later ones before it has a result. -/
structure Bound (t : Traced) : Prop where
  com : ¬ t.Dropped t.log.com → t.log.len ≤ t.log.com + 19
  latch : ∀ j, t.exIdx = some j → t.Sound j → t.log.len ≤ j + 18
  busy : ∀ e, t.core.hx.Busy e → t.Sound (t.idx e) → t.log.len + 2 * t.rankOf e ≤ t.idx e + 19
  waiting : ∀ e, t.core.hx.Busy e → t.Sound (t.idx e) → ¬ t.OldestReady →
    t.log.len + 2 * t.rankOf e ≤ t.idx e + 18

namespace Traced
variable {t : Traced} {imem : Word → Word} {d : Word}

/-- A busy entry lies in the window of the outstanding instructions. -/
theorem busy_window (hs : Station t) (ha : Acct t.sys) {e : BitVec 3} (hb : t.core.hx.Busy e) :
    t.log.com ≤ t.idx e ∧ t.log.len ≤ t.idx e + 63 := by
  have hwin := window ha
  have hge := com_le_of_none ha (hs.live e hb).2.1
  exact ⟨hge, by omega⟩

theorem tag_of_busy (hs : Station t) (ha : Acct t.sys) {e : BitVec 3} (hb : t.core.hx.Busy e) :
    (t.entry e).exeRrfTag = tagOf (t.idx e) := by
  obtain ⟨a, hacc, hm⟩ := hs.data e hb
  rw [hm.tag]
  exact ha.tag _ a hacc

/-- The issuer takes the oldest entry that can be issued. -/
theorem pointed_oldest (hs : Station t) (hla : Laps t) (ha : Acct t.sys) {e : BitVec 3}
    (hr : t.Ready e) : t.Ready t.pointed ∧ t.idx t.pointed ≤ t.idx e := by
  refine SwUnit.aluIssueAddr_oldest (fun a b hra hrb hlt => ?_) hr
  have hne : ∀ {c}, t.Ready c → (t.entry c).exeRrfTag ≠ 0 := fun hrc =>
    tag_of_busy hs ha hrc.1 ▸ tagOf_ne_zero _
  exact hla.age_lt ha (hne hra) (hne hrb) (busy_window hs ha hra.1).2 hlt

/-- The oldest entry is issued as soon as it can be. -/
theorem OldestReady.issues (h : t.OldestReady) (hs : Station t) (hla : Laps t) (ha : Acct t.sys) :
    ∃ e, t.core.hx.sw.IssuesEntry e ∧ ∀ e', t.core.hx.Busy e' → t.idx e ≤ t.idx e' := by
  obtain ⟨e, hr, hmin⟩ := h
  obtain ⟨hrp, hle⟩ := pointed_oldest hs hla ha hr
  exact ⟨t.pointed, ⟨issue_iff.mpr hrp, rfl⟩, fun e' hb => Nat.le_trans hle (hmin e' hb)⟩

/-- An operand that waits on the instruction in the ALU latch is served. -/
theorem served (hl : Latched t) (hq : Quiet t.core.hx) {o : Operand} {p : ℕ}
    (hp : t.exIdx = some p) (ho : o.valid = false) (htag : o.tag = tagOf p) :
    sourceManager (HeliosX.exeResults t.core.hx.ex) o = ⟨t.core.hx.ex.alu.result, true⟩ := by
  rw [watch_waiting hq ho (htag ▸ tagOf_ne_zero p), if_pos]
  exact (hl.tag p hp).trans htag.symm

/-- An operand of the oldest entry can only wait on what is in the latch. -/
theorem oldest_waits (hs : Station t) {e : BitVec 3} (hb : t.core.hx.Busy e)
    (hmin : ∀ e', t.core.hx.Busy e' → t.idx e ≤ t.idx e') (hsnd : t.Sound (t.idx e)) {k : Src}
    (hv : ((t.entry e).slot k).valid = false) :
    ∃ p, t.exIdx = some p ∧ p < t.idx e ∧ ((t.entry e).slot k).tag = tagOf p := by
  obtain ⟨hlt, -⟩ := hs.live e hb
  obtain ⟨a, hacc, -⟩ := hs.data e hb
  obtain ⟨p, hp, hres, htag⟩ := hs.waits e a k hb hacc hv
  have hpe := (lastBefore_lt hp).1
  rcases placed (hsnd p (Nat.le_of_lt hpe)) hres (by omega) with hex | ⟨e1, hb1, he1⟩
  · exact ⟨p, hex, hpe, htag⟩
  · have := hmin e1 hb1
    omega

/-- If the oldest entry cannot be issued, it can in the next cycle: what it waits on is in the
    latch. -/
theorem oldestReady_step (hs : Station t) (hf : t.core.OneAtMost) (hl : Latched t)
    (hq : Quiet t.core.hx) {e0 : BitVec 3} (hb0 : t.core.hx.Busy e0)
    (hsnd : t.Sound (t.idx e0)) (hno : ¬ t.OldestReady) : (t.step imem d).OldestReady := by
  obtain ⟨e, hb, hmin⟩ := exists_oldest (p := t.core.hx.Busy) (f := t.idx) hb0
  have hsnd' := hsnd.mono (hmin e0 hb0)
  have hnr : ¬ t.Ready e := fun hr => hno ⟨e, hr, hmin⟩
  have hni : ¬ t.core.hx.sw.IssuesEntry e := fun hi => hnr (SwUnit.ready_of_issuesEntry hi)
  have hnw : ¬ t.core.hx.WritesEntry e := fun hw => not_busy_of_writes hw hb
  have hlt := (hs.live e hb).1
  refine ⟨e, (ready_iff e).mpr ⟨(busy_step hf e).mpr ⟨hni, Or.inr hb⟩, ?_⟩, ?_⟩
  · intro k
    rw [entry_step hf, if_neg hnw, slot_held]
    cases hv : ((t.entry e).slot k).valid with
    | true => rw [sourceManager_valid hv, hv]
    | false =>
      obtain ⟨p, hex, -, htag⟩ := oldest_waits hs hb hmin hsnd' hv
      rw [served hl hq hex hv htag]
  · intro e' hb'
    rw [idx_step, if_neg hnw]
    rcases busy_step_cases hf hb' with ⟨-, hidx, -⟩ | ⟨hold, -, hidx, -⟩
    · omega
    · rw [hidx]
      exact hmin e' hold

/-- What is as old as an entry after a cycle was as old before it. -/
theorem older_of_step (imem : Word → Word) (d : Word) (hs : Station t) (hf : t.core.OneAtMost)
    {e : BitVec 3} (hb : t.core.hx.Busy e) (e' : BitVec 3) (hb' : (t.step imem d).core.hx.Busy e')
    (hle : (t.step imem d).idx e' ≤ (t.step imem d).idx e) :
    t.core.hx.Busy e' ∧ t.idx e' ≤ t.idx e := by
  have hidxe : (t.step imem d).idx e = t.idx e := if_neg fun hw => not_busy_of_writes hw hb
  have hlt := (hs.live e hb).1
  rcases busy_step_cases hf hb' with ⟨-, hidx, -⟩ | ⟨hold, -, hidx, -⟩
  · omega
  · exact ⟨hold, by omega⟩

end Traced

namespace Bound
variable {t : Traced} {imem : Word → Word} {d : Word}

theorem start {s : HeliosX} (hs : s.AfterReset) : Bound (Traced.start s) := by
  have hfree := (Station.start hs).live
  refine ⟨fun _ => Nat.zero_le _, fun j hj => (by cases hj), fun e hb => ?_, fun e hb => ?_⟩ <;>
  · have := (hfree e hb).1
    cases this

theorem len_step_le (t : Traced) (imem : Word → Word) (d : Word) :
    (t.step imem d).log.len ≤ t.log.len + 1 := by
  rw [Traced.len_step]
  have := Bool.toNat_le (t.sys.accepts t.event)
  omega

/-- The bound of an entry that was written before. -/
theorem held_step (h : Bound t) (hs : Station t) (hf : t.core.OneAtMost) (hl : Latched t)
    (hq : Quiet t.core.hx) (hla : Laps t) (ha : Acct t.sys) {e : BitVec 3}
    (hb : t.core.hx.Busy e) (hsnd : t.Sound (t.idx e)) :
    (t.step imem d).log.len + 2 * (t.step imem d).rankOf e ≤ t.idx e + 19 ∧
      (¬ (t.step imem d).OldestReady →
        (t.step imem d).log.len + 2 * (t.step imem d).rankOf e ≤ t.idx e + 18) := by
  have hlen := len_step_le t imem d
  have hold := Traced.older_of_step imem d hs hf hb
  by_cases hor : t.OldestReady
  · -- the oldest entry is issued, so the rank of every other one drops
    obtain ⟨f, hi, hmin⟩ := hor.issues hs hla ha
    have hrank : (t.step imem d).rankOf e < t.rankOf e :=
      rank_lt_rank hold (Traced.busy_of_issues hi) (hmin e hb)
        fun hbf => ((Traced.busy_step hf f).mp hbf).1 hi
    have := h.busy e hb hsnd
    exact ⟨by omega, fun _ => by omega⟩
  · have hrank : (t.step imem d).rankOf e ≤ t.rankOf e := rank_le_rank hold
    have := h.waiting e hb hsnd hor
    exact ⟨by omega, fun hno => absurd (Traced.oldestReady_step hs hf hl hq hb hsnd hor) hno⟩

/-- The bound of every entry after a cycle. -/
theorem busy_step (h : Bound t) (hs : Station t) (hf : t.core.OneAtMost) (hl : Latched t)
    (hq : Quiet t.core.hx) (hla : Laps t) (ha : Acct t.sys)
    (hp : ∀ e, t.core.hx.WritesEntry e → t.Pending) {e : BitVec 3}
    (hb : (t.step imem d).core.hx.Busy e)
    (hsnd : (t.step imem d).Sound ((t.step imem d).idx e)) :
    (t.step imem d).log.len + 2 * (t.step imem d).rankOf e ≤ (t.step imem d).idx e + 19 ∧
      (¬ (t.step imem d).OldestReady →
        (t.step imem d).log.len + 2 * (t.step imem d).rankOf e ≤ (t.step imem d).idx e + 18) := by
  have hsnd' := hsnd.of_step hf ha
  rcases Traced.busy_step_cases hf hb with ⟨hw, hidx, -⟩ | ⟨hold, -, hidx, -⟩
  · have hlen := (hp e hw).len_eq ha
    have hstep := len_step_le t imem d
    have hcard : Fintype.card (BitVec 3) = 8 := by decide
    have hrank : (t.step imem d).rankOf e ≤ Fintype.card (BitVec 3) := rank_le_card e
    rw [hidx]
    exact ⟨by omega, fun _ => by omega⟩
  · rw [hidx] at hsnd' ⊢
    exact h.held_step hs hf hl hq hla ha hold hsnd'

theorem latch_step (h : Bound t) (hf : t.core.OneAtMost) (ha : Acct t.sys) {j : ℕ}
    (hj : (t.step imem d).exIdx = some j) (hsnd : (t.step imem d).Sound j) :
    (t.step imem d).log.len ≤ j + 18 := by
  obtain ⟨e, hi, rfl⟩ := Traced.exIdx_step_eq_some.mp hj
  have hb := Traced.busy_of_issues hi
  have hrank : 0 < t.rankOf e := rank_pos hb
  have := h.busy e hb (hsnd.of_step hf ha)
  have := len_step_le t imem d
  omega

/-- The oldest outstanding instruction is done in time. `hfin` is what the ROB does with a result. -/
theorem com_step (h : Bound t) (hf : t.core.OneAtMost) (ha : Acct t.sys)
    (hfin : t.log.com < t.log.written → (t.log.result t.log.com).isSome →
      t.core.hx.rob.comnum = true)
    (hd : ¬ (t.step imem d).Dropped (t.step imem d).log.com) :
    (t.step imem d).log.len ≤ (t.step imem d).log.com + 19 := by
  have hlen := len_step_le t imem d
  have hcom : (t.step imem d).log.com = t.log.com + t.core.hx.rob.comnum.toNat := Traced.com_step
  have hle := ha.len_eq
  have hreg := Bool.toNat_le (t.sys.hw.dp.rrfAllocatableReg && t.sys.hw.dp.dstEnReg)
  change t.log.len = t.log.written + _ at hle
  cases hc : t.core.hx.rob.comnum with
  | true =>
    have := h.com (Traced.not_dropped_of_comnum ha hc)
    rw [hc, Bool.toNat_true] at hcom
    omega
  | false =>
    rw [hc, Bool.toNat_false] at hcom
    have hnd : ¬ t.Dropped t.log.com := fun hdr => hd (hcom ▸ hdr.step hf ha)
    rcases Nat.lt_or_ge t.log.com t.log.written with hlt | hge
    · cases hr : t.log.result t.log.com with
      | some v =>
        have := hfin hlt (by rw [hr]; rfl)
        rw [hc] at this
        cases this
      | none =>
        have hsnd := Traced.sound_com ha hnd
        rcases Traced.placed hnd hr hlt with hex | ⟨e, hb, he⟩
        · have := h.latch _ hex hsnd
          omega
        · have hrank : 0 < t.rankOf e := rank_pos hb
          have := h.busy e hb (he.symm ▸ hsnd)
          omega
    · omega

/-- One cycle keeps the bounds. -/
theorem step (h : Bound t) (hs : Station t) (hf : t.core.OneAtMost) (hl : Latched t)
    (hq : Quiet t.core.hx) (hla : Laps t) (ha : Acct t.sys)
    (hp : ∀ e, t.core.hx.WritesEntry e → t.Pending)
    (hfin : t.log.com < t.log.written → (t.log.result t.log.com).isSome →
      t.core.hx.rob.comnum = true) : Bound (t.step imem d) where
  com := h.com_step hf ha hfin
  latch := fun _ => h.latch_step hf ha
  busy := fun _ hb hsnd => (h.busy_step hs hf hl hq hla ha hp hb hsnd).1
  waiting := fun _ hb hsnd hno => (h.busy_step hs hf hl hq hla ha hp hb hsnd).2 hno

end Bound

end HeliosXCore
