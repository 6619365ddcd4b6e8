import HeliosXCore.Core.Trace

/-! No lost wakeup. An operand that waits in the station or in the DP/SW registers waits on a tag
    that has not been broadcast since its owner was accepted. -/

namespace HeliosXCore
open Rtl

/-- The instruction accepted in cycle `a` owns tag `t` when another one is renamed in cycle `k`: it
    is the last one before that got the tag. -/
def Owns (C : ℕ → HeliosX) (t : RrfTag) (k a : ℕ) : Prop :=
  a < k ∧ (C a).Accepts ∧ (C a).dp.rrfAlloc.rrfptr = t ∧
    ∀ b, a < b → b < k → (C b).Accepts → (C b).dp.rrfAlloc.rrfptr ≠ t

/-- The owner of `t` at the renaming in cycle `k` has not forwarded before cycle `c`. -/
def Unserved (C : ℕ → HeliosX) (t : RrfTag) (k c : ℕ) : Prop :=
  ∃ a, Owns C t k a ∧ ∀ m, a < m → m < c → ¬ (C m).Broadcasts t

namespace Trace
variable {imem : Word → Word} {init : RegSel → Word} {T : ℕ → Traced} (h : Trace imem init T)
include h

/-- The tag of an instruction without a result is not handed out again. -/
theorem rrfptr_ne {c p b : ℕ} (hp : (T c).log.result p = none) (hlt : p < (T b).log.len)
    (hbc : b < c) (hacc : (T b).core.hx.Accepts) :
    (T b).core.hx.dp.rrfAlloc.rrfptr ≠ tagOf p := by
  have hcom := Traced.com_le_of_none (h.inv c).acct hp
  have hlen := h.len_lt_of_accepts hacc hbc
  have hwin := Traced.window (h.inv c).acct
  have hptr : (T b).core.hx.dp.rrfAlloc.rrfptr = tagOf (T b).log.len := (h.inv b).acct.rrfptr
  intro he
  have := tagOf_inj (Nat.le_of_lt hlt) (by omega) (he.symm.trans hptr)
  omega

/-- The tag of an instruction without a result has not been broadcast since its acceptance. -/
theorem not_broadcasts {c p m : ℕ} (hp : (T c).log.result p = none) (hlt : p < (T m).log.len)
    (hmc : m < c) : ¬ (T m).core.hx.Broadcasts (tagOf p) := by
  rintro ⟨hwe, htag⟩
  obtain ⟨q, hq⟩ : ∃ q, (T m).exIdx = some q := by
    rw [(h.inv m).latched.rrfWe] at hwe
    exact Option.isSome_iff_exists.mp hwe
  obtain ⟨hqw, hqr⟩ := (h.inv m).latched.live q hq
  have hwl := Traced.written_le (h.inv m).acct
  have hpr := h.result_mono (Nat.le_of_lt hmc) hp
  have hpq : q = p := (Traced.tagOf_eq_iff_of_none (h.inv m).acct (by omega) hqr hlt hpr).mp
    (((h.inv m).latched.tag q hq).symm.trans htag)
  have hres := h.result_of_exIdx (hpq ▸ hq)
  have hnone : (T (m + 1)).log.result p = none := h.result_mono hmc hp
  rw [hnone] at hres
  cases hres

/-- The producer of a waiting operand has not forwarded. -/
theorem unserved {c k p : ℕ} (hkc : k < c) (hlt : p < (T k).log.len)
    (hp : (T c).log.result p = none) :
    Unserved (fun n => (T n).core.hx) (tagOf p) k c := by
  obtain ⟨a, hak, hlen, hacc⟩ := h.accepted_at hlt
  have hptr : (T a).core.hx.dp.rrfAlloc.rrfptr = tagOf (T a).log.len := (h.inv a).acct.rrfptr
  rw [hlen] at hptr
  have hafter : ∀ m, a < m → p < (T m).log.len := by
    intro m hm
    rw [← hlen]
    exact h.len_lt_of_accepts hacc hm
  refine ⟨a, ⟨hak, hacc, hptr, ?_⟩, ?_⟩
  · intro b hab hbk hb
    exact h.rrfptr_ne hp (hafter b hab) (by omega) hb
  · intro m ham hmc
    exact h.not_broadcasts hp (hafter m ham) hmc

/-- A waiting operand in the DP/SW registers. -/
theorem unserved_of_regSlot {c : ℕ} {k : Src} (hpe : (T c).Pending)
    (hv : ((T c).core.hx.regSlot k).valid = false) :
    ∃ r, c = r + 1 ∧ (T r).core.hx.Accepts ∧
      Unserved (fun n => (T n).core.hx) ((T c).core.hx.regSlot k).tag r c := by
  obtain ⟨r, rfl, hacc, hwr⟩ := h.accepts_of_pending hpe
  obtain ⟨p, hp, hres, htag⟩ := (h.inv (r + 1)).station.regWaits k hpe hv
  refine ⟨r, rfl, hacc, ?_⟩
  change Unserved _ ((T (r + 1)).regSlot k).tag r (r + 1)
  rw [htag]
  refine h.unserved (Nat.lt_succ_self r) ?_ hres
  rw [← hwr]
  exact (lastBefore_lt hp).1

/-- A waiting operand in an entry. -/
theorem unserved_of_entrySlot {c : ℕ} {e : BitVec 3} {k : Src} (hb : (T c).core.hx.Busy e)
    (hv : ((T c).core.hx.entrySlot e k).valid = false) :
    ∃ r, lastBefore (fun n => (T n).core.hx.WritesEntry e) c = some (r + 1) ∧
      (T r).core.hx.Accepts ∧
      Unserved (fun n => (T n).core.hx) ((T c).core.hx.entrySlot e k).tag r c := by
  obtain ⟨w, hw, hidx⟩ := h.written_at hb
  obtain ⟨hwc, hwe⟩ := lastBefore_lt hw
  obtain ⟨r, rfl, hacc, hwr⟩ := h.accepts_of_pending ((h.inv w).pending_of_writes hwe)
  obtain ⟨a, ha, -⟩ := (h.inv c).station.data e hb
  obtain ⟨p, hp, hres, htag⟩ := (h.inv c).station.waits e a k hb ha hv
  refine ⟨r, hw, hacc, ?_⟩
  change Unserved _ (((T c).entry e).slot k).tag r c
  rw [htag]
  refine h.unserved (by omega) ?_ hres
  rw [← hwr, ← hidx]
  exact (lastBefore_lt hp).1

end Trace

/-- For every program of ALU instructions and no-ops and every cycle `c`: the tag that a waiting
    operand of a busy entry, or of the instruction being written, waits on has not been broadcast
    since the instruction that owned it at the renaming of that operand was accepted. An entry's
    instruction was renamed one cycle before it was written. -/
theorem no_lost_wakeup {imem : Word → Word} (himem : AluNopProgram imem) {s : HeliosX}
    (hs : s.AfterReset) (dmem : ℕ → Word) (c : ℕ) (k : Src) :
    let C := fun n => (Core.cycle imem dmem s n).hx
    (∀ e, (C c).Busy e → ((C c).entrySlot e k).valid = false →
      ∃ r, lastBefore (fun n => (C n).WritesEntry e) c = some (r + 1) ∧ (C r).Accepts ∧
        Unserved C ((C c).entrySlot e k).tag r c) ∧
    ((C c).sw.aluWe1 (C c).swPorts = true → ((C c).regSlot k).valid = false →
      ∃ r, c = r + 1 ∧ (C r).Accepts ∧ Unserved C ((C c).regSlot k).tag r c) := by
  have h := Trace.cycle himem hs dmem
  have hC : (fun n => (Core.cycle imem dmem s n).hx) =
      fun n => (Traced.cycle imem dmem s n).core.hx := by
    funext n
    rw [Traced.core_cycle]
  intro C
  have hCC : C = fun n => (Traced.cycle imem dmem s n).core.hx := hC
  clear_value C
  subst hCC
  refine ⟨fun e hb hv => h.unserved_of_entrySlot hb hv, ?_⟩
  intro hwe hv
  exact h.unserved_of_regSlot ((h.inv c).pending_of_writes ⟨hwe, rfl⟩) hv

/-- The second instruction of the chain, in entry 1, in the cycle in which the first one is
    forwarded. -/
theorem no_lost_wakeup_addiChain :
    let C := fun n => (Core.cycle addiChain (fun _ => 0) HeliosX.ofReset n).hx
    ∃ r, lastBefore (fun n => (C n).WritesEntry 1) 6 = some (r + 1) ∧ (C r).Accepts ∧
      Unserved C ((C 6).entrySlot 1 .one).tag r 6 :=
  (no_lost_wakeup aluProgram_addiChain.aluNop HeliosX.afterReset_ofReset (fun _ => 0) 6 .one).1 1
    (by decide +kernel) (by decide +kernel)

end HeliosXCore
