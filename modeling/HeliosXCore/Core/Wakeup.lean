import HeliosXCore.Core.Trace

/-! Wakeup. The ALU latch takes tag and value of the entry that the issuer points at in every cycle,
    and the entries look at the tag only. When nothing is issued the tag is that of an entry that is
    not ready, often one left over in a freed entry; an operand that waits on the instruction that
    owns the tag by now takes the value all the same. -/

namespace HeliosXCore
open Rtl

namespace HeliosX
variable (hx : HeliosX)

/-- Entry `e` is busy or being written. -/
def InUse (e : BitVec 3) : Prop := hx.Busy e ∨ hx.WritesEntry e

/-- Operand `k` of entry `e`, or of the instruction that is being written there. -/
def watched (e : BitVec 3) (k : Src) : Operand :=
  if hx.WritesEntry e then hx.regSlot k else hx.entrySlot e k

/-- Operand `k` of the instruction in rename, as it will be in the DP/SW registers. -/
def renameSlot (k : Src) : Operand :=
  let i := dpIn hx.idUnit (forwards hx.ex) hx.rob hx.dp
  let r := hx.idUnit.dec.src k
  ⟨hx.dp.srcWire i r (r == 0), hx.dp.rdyWire i r (r == 0)⟩

/-- An operand waits on tag `t`: in the station, on its way there, or in rename. -/
def Awaits (t : RrfTag) : Prop :=
  (∃ e k, hx.InUse e ∧ (hx.watched e k).valid = false ∧ (hx.watched e k).tag = t) ∨
    hx.Accepts ∧ ∃ k, (hx.renameSlot k).valid = false ∧ (hx.renameSlot k).tag = t

end HeliosX

/-- Each operand that becomes valid at the end of cycle `n` takes the result that is forwarded, of
    the instruction that was issued one cycle earlier and owns the tag. -/
def WakeupSound (C : ℕ → HeliosX) (n : ℕ) : Prop :=
  ∀ e k, (C n).InUse e → ((C n).watched e k).valid = false →
    ((C (n + 1)).entrySlot e k).valid = true →
      (C n).Broadcasts ((C n).watched e k).tag ∧
        ((C (n + 1)).entrySlot e k).op = (C n).ex.alu.result ∧
        ∃ m, n = m + 1 ∧ (C m).sw.exeAluIssue = true ∧
          (C m).sw.exeAluRrfTag = ((C n).watched e k).tag

/-- Instruction `j` was accepted and has not been issued. -/
def Traced.Unissued (t : Traced) (j : ℕ) : Prop := t.log.result j = none ∧ t.exIdx ≠ some j

instance (t : Traced) (j : ℕ) : Decidable (t.Unissued j) := inferInstanceAs (Decidable (_ ∧ _))

/-- If nothing is issued, the entry that the issuer points at does not carry the tag of an accepted
    instruction that has not been issued and that an operand waits on. -/
def Traced.IdleTagFree (t : Traced) : Prop :=
  t.core.hx.sw.exeAluIssue = false →
    ∀ j, j < t.log.len → t.Unissued j → t.core.hx.Awaits (t.log.tagAt j) →
      t.core.hx.sw.exeAluRrfTag ≠ t.log.tagAt j

/-- What becomes of a watched operand. -/
theorem Traced.entrySlot_step {t : Traced} {imem : Word → Word} {d : Word} (hf : t.core.OneAtMost)
    (e : BitVec 3) (k : Src) : (t.step imem d).core.hx.entrySlot e k =
      sourceManager (HeliosX.exeResults t.core.hx.ex) (t.core.hx.watched e k) := by
  change ((t.step imem d).entry e).slot k = _
  rw [Traced.entry_step hf e, HeliosX.watched]
  split_ifs
  · exact slot_stored _ _ k
  · exact slot_held _ _ k

namespace Trace
variable {imem : Word → Word} {init : RegSel → Word} {T : ℕ → Traced} (h : Trace imem init T)
include h

/-- A watched operand that is not valid waits on a stored instruction without a result. -/
theorem watched_waits {n : ℕ} {e : BitVec 3} {k : Src} (hu : (T n).core.hx.InUse e)
    (hv : ((T n).core.hx.watched e k).valid = false) :
    ∃ p, p < (T n).log.written ∧ (T n).log.result p = none ∧
      ((T n).core.hx.watched e k).tag = tagOf p := by
  unfold HeliosX.watched at hv ⊢
  split_ifs at hv ⊢ with hw
  · obtain ⟨p, hp, hres, htag⟩ :=
      (h.inv n).station.regWaits k ((h.inv n).pending_of_writes hw) hv
    exact ⟨p, (lastBefore_lt hp).1, hres, htag⟩
  · have hb := hu.resolve_right hw
    obtain ⟨a, ha, -⟩ := (h.inv n).station.data e hb
    obtain ⟨p, hp, hres, htag⟩ := (h.inv n).station.waits e a k hb ha hv
    have hpe := (lastBefore_lt hp).1
    have hlt := ((h.inv n).station.live e hb).1
    exact ⟨p, by omega, hres, htag⟩

theorem entrySlot_succ (n : ℕ) (e : BitVec 3) (k : Src) :
    (T (n + 1)).core.hx.entrySlot e k =
      sourceManager (HeliosX.exeResults (T n).core.hx.ex) ((T n).core.hx.watched e k) := by
  obtain ⟨d, hd⟩ := h.next n
  rw [hd, Traced.entrySlot_step (h.inv n).front]

/-- The latch carries what the issuer pointed at one cycle earlier. -/
theorem rrfTag_succ (m : ℕ) :
    (T (m + 1)).core.hx.ex.alu.rrfTag = (T m).core.hx.sw.exeAluRrfTag := by
  obtain ⟨d, hd⟩ := h.next m
  rw [hd]
  rfl

theorem exIdx_isSome_succ (m : ℕ) :
    (T (m + 1)).exIdx.isSome = (T m).core.hx.sw.exeAluIssue := by
  obtain ⟨d, hd⟩ := h.next m
  rw [hd, Traced.exIdx_isSome_step]

/-- An operand that waits in a cycle waited in the cycle before, or was in rename then. -/
theorem awaits_of_watched {m : ℕ} {e : BitVec 3} {k : Src} (hu : (T (m + 1)).core.hx.InUse e)
    (hv : ((T (m + 1)).core.hx.watched e k).valid = false) :
    (T m).core.hx.Awaits ((T (m + 1)).core.hx.watched e k).tag := by
  unfold HeliosX.watched at hv ⊢
  split_ifs at hv ⊢ with hw
  · obtain ⟨r, hr, hacc, -⟩ := h.accepts_of_pending ((h.inv (m + 1)).pending_of_writes hw)
    obtain rfl : m = r := Nat.succ.inj hr
    have hreg : (T (m + 1)).core.hx.regSlot k = (T m).core.hx.renameSlot k := by
      obtain ⟨d, hd⟩ := h.next m
      rw [hd]
      cases k <;> rfl
    rw [hreg] at hv ⊢
    exact Or.inr ⟨hacc, k, hv, rfl⟩
  · have hslot := h.entrySlot_succ m e k
    have hb : (T m).core.hx.WritesEntry e ∨ (T m).core.hx.Busy e := by
      have hbn := hu.resolve_right hw
      obtain ⟨d, hd⟩ := h.next m
      rw [hd] at hbn
      exact ((Traced.busy_step (h.inv m).front e).mp hbn).2
    have hvm : ((T m).core.hx.watched e k).valid = false := by
      cases hval : ((T m).core.hx.watched e k).valid with
      | false => rfl
      | true =>
        rw [hslot, sourceManager_valid hval, hval] at hv
        cases hv
    obtain ⟨p, -, -, htag⟩ := h.watched_waits hb.symm hvm
    rw [Traced.watch_waiting (h.inv m).quiet hvm (htag ▸ tagOf_ne_zero p)] at hslot
    rw [hslot] at hv ⊢
    split at hv
    · cases hv
    · rename_i hmiss
      rw [if_neg hmiss]
      exact Or.inl ⟨e, k, hb.symm, hvm, rfl⟩

/-- An operand that is woken up was woken up by an instruction that was issued. -/
theorem issued_of_hit {m : ℕ} {e : BitVec 3} {k : Src} (hm : (T m).IdleTagFree)
    (hu : (T (m + 1)).core.hx.InUse e)
    (hv : ((T (m + 1)).core.hx.watched e k).valid = false)
    (hhit : (T (m + 1)).core.hx.ex.alu.rrfTag = ((T (m + 1)).core.hx.watched e k).tag) :
    (T m).core.hx.sw.exeAluIssue = true := by
  obtain ⟨p, hp, hres, htag⟩ := h.watched_waits hu hv
  have hawait := h.awaits_of_watched hu hv
  cases hi : (T m).core.hx.sw.exeAluIssue with
  | true => rfl
  | false =>
    have hne : (T m).exIdx ≠ some p := by
      intro hex
      have := h.result_of_exIdx hex
      rw [hres] at this
      cases this
    have hlt : p < (T m).log.len := by
      rw [h.written_succ] at hp
      exact hp
    have htagAt : (T m).log.tagAt p = tagOf p := (h.inv m).acct.tagAt hlt
    rw [htag, ← htagAt] at hawait
    have := hm hi p hlt ⟨h.result_mono (Nat.le_succ m) hres, hne⟩ hawait
    rw [htagAt, ← h.rrfTag_succ, hhit] at this
    exact absurd htag this

/-- One cycle without a misleading tag before it. -/
theorem wakeupSound {n : ℕ} (hidle : ∀ m, n = m + 1 → (T m).IdleTagFree) :
    WakeupSound (fun n => (T n).core.hx) n := by
  unfold WakeupSound
  beta_reduce
  intro e k hu hv hv'
  obtain ⟨p, hp, hres, htag⟩ := h.watched_waits hu hv
  have hslot : (T (n + 1)).core.hx.entrySlot e k =
      if (T n).core.hx.ex.alu.rrfTag = ((T n).core.hx.watched e k).tag then
        ⟨(T n).core.hx.ex.alu.result, true⟩
      else (T n).core.hx.watched e k :=
    (h.entrySlot_succ n e k).trans
      (Traced.watch_waiting (h.inv n).quiet hv (htag ▸ tagOf_ne_zero p))
  have hhit : (T n).core.hx.ex.alu.rrfTag = ((T n).core.hx.watched e k).tag := by
    by_contra hmiss
    rw [hslot, if_neg hmiss, hv] at hv'
    cases hv'
  rw [if_pos hhit] at hslot
  obtain ⟨m, rfl⟩ : ∃ m, n = m + 1 := by
    cases n with
    | zero =>
      rw [h.start] at hp
      cases hp
    | succ m => exact ⟨m, rfl⟩
  have hissue := h.issued_of_hit (hidle m rfl) hu hv hhit
  refine ⟨⟨?_, hhit⟩, ?_, m, rfl, hissue, ?_⟩
  · rw [(h.inv (m + 1)).latched.rrfWe, h.exIdx_isSome_succ, hissue]
  · rw [hslot]
  · rw [← h.rrfTag_succ]
    exact hhit

/-- An operand in use that waits on the tag pointed at in an idle cycle is woken up by nobody. -/
theorem not_wakeupSound {m : ℕ} {e : BitVec 3} {k : Src}
    (hi : (T m).core.hx.sw.exeAluIssue = false) (hu : (T m).core.hx.InUse e)
    (hv : ((T m).core.hx.watched e k).valid = false)
    (hmiss : (T m).core.hx.ex.alu.rrfTag ≠ ((T m).core.hx.watched e k).tag)
    (htag : (T m).core.hx.sw.exeAluRrfTag = ((T m).core.hx.watched e k).tag) :
    ¬ WakeupSound (fun n => (T n).core.hx) (m + 1) := by
  intro hsound
  have hne : ∀ n, ((T n).core.hx.watched e k).valid = false → (T n).core.hx.InUse e →
      ((T n).core.hx.watched e k).tag ≠ 0 := by
    intro n hv' hu'
    obtain ⟨p, -, -, hp⟩ := h.watched_waits hu' hv'
    rw [hp]
    exact tagOf_ne_zero p
  -- the operand still waits in the next cycle
  have hslot := h.entrySlot_succ m e k
  rw [Traced.watch_waiting (h.inv m).quiet hv (hne m hv hu), if_neg hmiss] at hslot
  have hb : (T (m + 1)).core.hx.Busy e := by
    obtain ⟨d, hd⟩ := h.next m
    rw [hd]
    refine (Traced.busy_step (h.inv m).front e).mpr ⟨?_, hu.symm⟩
    intro hie
    rw [hie.1] at hi
    cases hi
  have hw : ¬ (T (m + 1)).core.hx.WritesEntry e := fun hw => Traced.not_busy_of_writes hw hb
  have hwatch : (T (m + 1)).core.hx.watched e k = (T m).core.hx.watched e k := by
    rw [HeliosX.watched, if_neg hw, hslot]
  have hv1 : ((T (m + 1)).core.hx.watched e k).valid = false := by rw [hwatch, hv]
  have hslot2 := h.entrySlot_succ (m + 1) e k
  rw [Traced.watch_waiting (h.inv (m + 1)).quiet hv1 (hne _ hv1 (Or.inl hb)), if_pos] at hslot2
  · have hwe := (hsound e k (Or.inl hb) hv1 (by beta_reduce; rw [hslot2])).1.1
    beta_reduce at hwe
    rw [(h.inv (m + 1)).latched.rrfWe, h.exIdx_isSome_succ, hi] at hwe
    cases hwe
  · rw [h.rrfTag_succ, htag, hwatch]

end Trace

/-- For every program of ALU instructions and no-ops: in a run in which, whenever nothing is issued,
    the entry pointed at does not carry the tag of an instruction that is still to be issued and that
    an operand waits on, no operand is woken up but by the forwarded result of its producer. -/
theorem wakeup_sound {imem : Word → Word} (himem : AluNopProgram imem) {s : HeliosX}
    (hs : s.AfterReset) (dmem : ℕ → Word) (N : ℕ)
    (hidle : ∀ m, m < N → (Traced.cycle imem dmem s m).IdleTagFree) :
    ∀ n, n ≤ N → WakeupSound (fun n => (Core.cycle imem dmem s n).hx) n := by
  intro n hn
  have hC : (fun n => (Core.cycle imem dmem s n).hx) =
      fun n => (Traced.cycle imem dmem s n).core.hx := by
    funext n
    rw [Traced.core_cycle]
  rw [hC]
  exact (Trace.cycle himem hs dmem).wakeupSound fun m hm => hidle m (by omega)

/-- In the chain no idle cycle points at the tag of an instruction that is still to be issued. -/
theorem idleTagFree_addiChain :
    ∀ m, m < 12 → (Traced.cycle addiChain (fun _ => 0) HeliosX.ofReset m).IdleTagFree := by
  have h : ∀ m, m < 12 →
      let t := Traced.cycle addiChain (fun _ => 0) HeliosX.ofReset m
      t.core.hx.sw.exeAluIssue = false →
        ∀ j, j < t.log.len → t.Unissued j → t.core.hx.sw.exeAluRrfTag ≠ t.log.tagAt j := by
    decide +kernel
  exact fun m hm hi j hj hu _ => h m hm hi j hj hu

/-- In cycle 10 of the chain the operand of entry 2 is woken up. -/
theorem wakeup_sound_addiChain :
    let C := fun n => (Core.cycle addiChain (fun _ => 0) HeliosX.ofReset n).hx
    WakeupSound C 10 ∧ ((C 10).watched 2 .one).valid = false ∧
      ((C 11).entrySlot 2 .one).valid = true := by
  refine ⟨?_, by decide +kernel, by decide +kernel⟩
  exact wakeup_sound aluProgram_addiChain.aluNop HeliosX.afterReset_ofReset (fun _ => 0) 12
    idleTagFree_addiChain 10 (by omega)

/-- 14 dependent instructions, three fences, 55 independent instructions, then dependent ones. -/
def staleTag (a : Word) : Word :=
  let i := ((a - entryPoint) >>> 2).toNat
  if i < 14 then 0x00108093
  else if i < 17 then 0x0000000f
  else if i < 72 then 0x00000113
  else 0x00108093

theorem aluNop_staleTag : AluNopProgram staleTag := by
  intro a
  simp only [staleTag]
  split_ifs
  · exact Or.inl (by decide)
  · exact Or.inr (by decide)
  · exact Or.inl (by decide)
  · exact Or.inl (by decide)

/-- In cycle 84 an operand in entry 7 waits on tag 14; nothing was issued in cycle 83, but the tag
    left over in a freed entry is 14, so the operand takes the value in the ALU latch. -/
theorem wakeup_unsound :
    AluNopProgram staleTag ∧
      ¬ WakeupSound (fun n => (Core.cycle staleTag (fun _ => 0) HeliosX.ofReset n).hx) 84 := by
  refine ⟨aluNop_staleTag, ?_⟩
  intro h
  have hwe := (h 7 .one (by unfold HeliosX.InUse; decide +kernel) (by decide +kernel)
    (by decide +kernel)).1.1
  exact absurd hwe (by decide +kernel)

end HeliosXCore
