import HeliosXCore.Core.Station
import HeliosXCore.Sw.Age

/-! The age order of the entries in the core: each is stamped with the instruction it was last written
    with, and the pulse of a new lap comes with its first instruction. -/

namespace HeliosXCore
open Rtl

/-- The entries that have been written are stamped with their instructions, and the pulse of a new lap
    and the instructions pass the same two registers. -/
structure Laps (t : Traced) : Prop where
  stamped : ∀ e, (t.entry e).exeRrfTag ≠ 0 → t.core.hx.sw.rsAlu.Stamped t.lap e (t.idx e)
  lt : ∀ e, (t.entry e).exeRrfTag ≠ 0 → t.idx e < t.log.written
  pulse : LapPulse 63 t.lap t.log.written t.log.len t.core.hx.dp.rrfAlloc.nextrrfcyc
    t.core.hx.dp.nextrrfcycReg

namespace Traced
variable {t : Traced} {imem : Word → Word} {d : Word}

theorem len_step : (t.step imem d).log.len = t.log.len + (t.sys.accepts t.event).toNat :=
  Sys.len_step t.event t.sys

theorem nextrrfcyc_step (ha : Acct t.sys) :
    (t.step imem d).core.hx.dp.rrfAlloc.nextrrfcyc =
      (t.sys.accepts t.event && decide (t.log.len % 63 = 62)) := by
  have h0 : t.core.hx.dp.rrfAlloc.rrfptr ≠ 0 := ha.rrfptr ▸ tagOf_ne_zero _
  refine (RrfEntryAllocate.nextrrfcyc_next _ _ _ _ h0).trans ?_
  have hptr : t.core.hx.dp.rrfAlloc.rrfptr = tagOf t.log.len := ha.rrfptr
  have hlast : (t.core.hx.dp.rrfAlloc.rrfptr == 63) = decide (t.log.len % 63 = 62) := by
    rw [hptr, Bool.eq_iff_iff, beq_iff_eq, decide_eq_true_iff]
    exact tagOf_eq_63_iff _
  rw [hlast]
  rfl

end Traced

namespace Laps
variable {t : Traced} {imem : Word → Word} {d : Word}

theorem start {s : HeliosX} (hs : s.AfterReset) : Laps (Traced.start s) := by
  obtain ⟨s0, i1, d1, i2, d2, rfl⟩ := hs
  exact ⟨fun e he => absurd rfl he, fun e he => absurd rfl he, LapPulse.start 63⟩

/-- What is written is the instruction in the DP/SW registers. -/
theorem stamped_step (h : Laps t) (hf : t.core.OneAtMost) (ha : Acct t.sys) (e : BitVec 3)
    (he : ((t.step imem d).entry e).exeRrfTag ≠ 0) :
    (t.step imem d).core.hx.sw.rsAlu.Stamped (t.step imem d).lap e ((t.step imem d).idx e) := by
  rw [Traced.entry_step hf] at he
  rw [Traced.idx_step]
  by_cases hw : t.core.hx.WritesEntry e
  · rw [if_pos hw]
    exact SwUnit.stamped_of_writes hf hw ha.regTag h.pulse
  · rw [if_neg hw] at he ⊢
    exact SwUnit.stamped_of_held hf hw (h.stamped e he) (h.lt e he) h.pulse

theorem lt_step (h : Laps t) (hf : t.core.OneAtMost) (ha : Acct t.sys)
    (hp : ∀ e, t.core.hx.WritesEntry e → t.Pending) (e : BitVec 3)
    (he : ((t.step imem d).entry e).exeRrfTag ≠ 0) :
    (t.step imem d).idx e < (t.step imem d).log.written := by
  have hwl := Traced.written_le ha
  rw [Traced.entry_step hf] at he
  rw [Traced.idx_step, Traced.written_step]
  by_cases hw : t.core.hx.WritesEntry e
  · have hlen := (hp e hw).len_eq ha
    rw [if_pos hw]
    omega
  · rw [if_neg hw] at he ⊢
    have := h.lt e he
    omega

theorem pulse_step (h : Laps t) (ha : Acct t.sys) :
    LapPulse 63 (t.step imem d).lap (t.step imem d).log.written (t.step imem d).log.len
      (t.step imem d).core.hx.dp.rrfAlloc.nextrrfcyc (t.step imem d).core.hx.dp.nextrrfcycReg := by
  rw [Traced.written_step, Traced.len_step, Traced.nextrrfcyc_step ha]
  exact h.pulse.step (by omega) _

theorem step (h : Laps t) (hf : t.core.OneAtMost) (ha : Acct t.sys)
    (hp : ∀ e, t.core.hx.WritesEntry e → t.Pending) : Laps (t.step imem d) where
  stamped := h.stamped_step hf ha
  lt := h.lt_step hf ha hp
  pulse := h.pulse_step ha

/-- In one window the ages are ordered as the instructions are. -/
theorem age_lt (h : Laps t) (ha : Acct t.sys) {e e' : BitVec 3}
    (he : (t.entry e).exeRrfTag ≠ 0) (he' : (t.entry e').exeRrfTag ≠ 0)
    (hwin : t.log.len ≤ t.idx e + 63) (hlt : t.idx e < t.idx e') :
    t.core.hx.sw.rsAlu.age e < t.core.hx.sw.rsAlu.age e' :=
  (h.stamped e he).age_lt (h.stamped e' he') h.pulse (Traced.written_le ha) hwin hlt (h.lt e' he')

end Laps

/-! ### What the issuer picks -/

namespace Traced
variable (t : Traced)

/-- Entry `e` can be issued. -/
def Ready (e : BitVec 3) : Prop := t.core.hx.sw.rsAlu.Ready e

/-- The entry the issuer points at. -/
def pointed : BitVec 3 := t.core.hx.sw.aluIssueAddr

variable {t}

theorem ready_iff (e : BitVec 3) :
    t.Ready e ↔ t.core.hx.Busy e ∧ ∀ k, ((t.entry e).slot k).valid = true := by
  refine and_congr_right fun _ => ⟨?_, fun hk => ⟨hk .one, hk .two⟩⟩
  rintro ⟨h1, h2⟩ k
  cases k
  · exact h1
  · exact h2

theorem issue_iff : t.core.hx.sw.exeAluIssue = true ↔ t.Ready t.pointed := SwUnit.exeAluIssue_iff

/-- A ready entry makes the issuer issue. -/
theorem issue_of_ready {e : BitVec 3} (h : t.Ready e) : t.core.hx.sw.exeAluIssue = true :=
  SwUnit.exeAluIssue_of_ready h

end Traced

end HeliosXCore
