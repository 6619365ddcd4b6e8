import HeliosXCore.Core.Refine
import HeliosXCore.Core.Schedule

/-! Progress. While nothing is lost the core is never more than 23 cycles behind the program; once an
    instruction is lost it retires what is older and stops there. -/

namespace HeliosXCore
open Rtl

namespace Traced
variable {t : Traced} {imem : Word → Word} {d : Word}

/-- An instruction that has left the DP/SW registers is not lost afterwards. -/
theorem not_dropped_step {i : ℕ} (h : ¬ t.Dropped i) (hf : FrontOk t.core)
    (hi : i < t.log.written) : ¬ (t.step imem d).Dropped i := by
  rintro ⟨-, hres, hex, hbusy⟩
  rw [result_step] at hres
  split at hres
  · cases hres
  · rename_i hne
    rcases placed h hres hi with hex' | ⟨e, hb, he⟩
    · exact hne hex'
    · by_cases hie : t.core.hx.sw.IssuesEntry e
      · exact hex (exIdx_step_eq_some.mpr ⟨e, hie, he⟩)
      · refine hbusy e ((busy_step hf e).mpr ⟨hie, Or.inr hb⟩) ?_
        rw [idx_step, if_neg fun hw => not_busy_of_writes hw hb]
        exact he

end Traced

namespace Trace
variable {imem : Word → Word} {init : RegSel → Word} {T : ℕ → Traced} (h : Trace imem init T)
include h

theorem dropped_mono {m n j : ℕ} (hmn : m ≤ n) (hd : (T m).Dropped j) : (T n).Dropped j := by
  induction n, hmn using Nat.le_induction with
  | base => exact hd
  | succ n _ ih =>
    obtain ⟨d, hn⟩ := h.next n
    rw [hn]
    exact ih.step (h.inv n).front (h.inv n).acct

theorem not_dropped_mono {m n j : ℕ} (hmn : m ≤ n) (hj : j < (T m).log.written)
    (hd : ¬ (T m).Dropped j) : ¬ (T n).Dropped j := by
  induction n, hmn using Nat.le_induction with
  | base => exact hd
  | succ n hmn ih =>
    have hw : (T m).log.written ≤ (T n).log.written :=
      monotone_nat_of_le_succ (f := fun k => (T k).log.written)
        (fun k => by
          have := Traced.written_le (h.inv k).acct
          rw [h.written_succ]
          exact this) hmn
    obtain ⟨d, hn⟩ := h.next n
    rw [hn]
    exact Traced.not_dropped_step ih (h.inv n).front (by omega)

/-- Everything older than the oldest uncommitted instruction has its result. -/
theorem com_le_of_dropped {n j : ℕ} (hd : (T n).Dropped j) : (T n).log.com ≤ j :=
  Traced.com_le_of_none (h.inv n).acct hd.2.1

/-- If every dispatch goes well, nothing is lost. -/
theorem noDrop_of_dispatchOk {N : ℕ} (hok : ∀ n, n < N → DispatchOk (T n).core.hx) :
    (T N).NoDrop := by
  induction N with
  | zero =>
    intro i hi
    have := hi.1
    rw [h.start] at this
    cases this
  | succ N ih =>
    have hnd := ih fun n hn => hok n (by omega)
    have hI := h.inv N
    obtain ⟨d, hd⟩ := h.next N
    rw [hd]
    refine hnd.step hI.front hI.acct ?_
    intro hp
    have hst : (T N).core.hx.stall = false := by
      rw [← Bool.not_eq_true]
      exact fun hs => hnd.not_frozen (Traced.frozen_of_stall hI.bound hI.acct hs).1
    have hreq : (T N).core.hx.dp.reqReg.reqAlunum = if (T N).core.hx.dp.dstEnReg then 1 else 0 :=
      hI.front.reqAluNum
    rw [hp.2, if_pos rfl] at hreq
    exact ⟨_, (hok N (Nat.lt_succ_self N) hp.1 hreq hst).2, rfl⟩

/-- A stalled core stays as it is in rename and commits nothing. -/
theorem stall_succ {n : ℕ} (hst : (T n).core.hx.stall = true) :
    (T (n + 1)).core.hx.stall = true ∧ (T (n + 1)).core.hx.idUnit = (T n).core.hx.idUnit ∧
      (T (n + 1)).core.hx.debug = none := by
  obtain ⟨d, hd⟩ := h.next n
  have hI' := h.inv (n + 1)
  rw [hd] at hI' ⊢
  obtain ⟨hst', hid, hcom⟩ := (h.inv n).kept.stall_step (h.inv n).front hI'.kept hst
  refine ⟨hst', hid, ?_⟩
  change (HeliosX.next false _ d (T n).core.hx).debug = _
  rw [HeliosX.debug_next, hcom]
  rfl

end Trace

namespace AluTrace
variable {imem : Word → Word} {init : RegSel → Word} {T : ℕ → Traced} (h : AluTrace imem init T)
include h

/-- While the oldest uncommitted instruction is not lost, the commits keep up. -/
theorem le_com {n : ℕ} (hd : ¬ (T n).Dropped (T n).log.com) : n ≤ (T n).log.com + 22 := by
  have hns := h.no_stall_of_not_frozen (n := n) fun hf => hd hf.2
  have hlen := h.len_at (n := n) fun m hm => hns m (Nat.le_of_lt hm)
  have hcom := (h.inv n).bound.com hd
  omega

/-- The instruction that arrives when eight are waiting is the first one to be lost. -/
theorem dropped_at (h0 : Exact init (T 0)) {k : ℕ}
    (hroom : ∀ j, j < k → (schedule imem j).waiting.length < 8)
    (hfull : 8 ≤ (schedule imem k).waiting.length) :
    (T (k + 5)).Dropped k ∧ ∀ i, i < k → ¬ (T (k + 5)).Dropped i := by
  have hnd : (T (k + 4)).NoDrop :=
    (h.noDrop_iff_schedule h0 (k + 4)).mpr fun j hj => hroom j (by omega)
  have hI := h.inv (k + 4)
  have hp := h.pending_at_noDrop hnd (by omega)
  have hwr : (T (k + 4)).log.written = k := h.written_at_noDrop hnd
  have hnok : ¬ DispatchOk (T (k + 4)).core.hx := by
    rw [h.dispatchOk_iff_schedule h0 k hnd]
    omega
  have hno : ∀ e, ¬ (T (k + 4)).core.hx.WritesEntry e := by
    intro e he
    exact hnok ((h.dispatchOk_iff hnd).mpr fun _ => ⟨e, he⟩)
  obtain ⟨d, hd⟩ := h.next (k + 4)
  rw [hd]
  refine ⟨?_, fun i hi => Traced.not_dropped_step (hnd i) hI.front (by omega)⟩
  have hdrop : ((T (k + 4)).step imem d).Dropped _ :=
    Traced.dropped_of_not_written hI.station hI.front hI.latched hI.acct hp hno
  rwa [hwr] at hdrop

/-- No older one is ever lost. -/
theorem le_of_dropped (h0 : Exact init (T 0)) {k n j : ℕ}
    (hroom : ∀ j, j < k → (schedule imem j).waiting.length < 8)
    (hfull : 8 ≤ (schedule imem k).waiting.length) (hd : (T n).Dropped j) : k ≤ j := by
  rcases Nat.lt_or_ge n (k + 5) with hlt | hge
  · have hnd : (T (k + 4)).NoDrop :=
      (h.noDrop_iff_schedule h0 (k + 4)).mpr fun j hj => hroom j (by omega)
    exact absurd (h.dropped_mono (by omega) hd) (hnd j)
  · obtain ⟨hk, hold⟩ := h.dropped_at h0 hroom hfull
    by_contra hjk
    have hjk' : j < k := by omega
    exact h.not_dropped_mono hge (hjk'.trans hk.1) (hold j hjk') hd

/-- From then on the commits stop at this instruction. -/
theorem com_eq (h0 : Exact init (T 0)) {k n : ℕ}
    (hroom : ∀ j, j < k → (schedule imem j).waiting.length < 8)
    (hfull : 8 ≤ (schedule imem k).waiting.length) (hn : k + 23 ≤ n) : (T n).log.com = k := by
  have hk := (h.dropped_at h0 hroom hfull).1
  have hle := h.com_le_of_dropped (h.dropped_mono (n := n) (by omega) hk)
  by_cases hd : (T n).Dropped (T n).log.com
  · have := h.le_of_dropped h0 hroom hfull hd
    omega
  · have := h.le_com hd
    omega

/-- The first stall comes when the ring is full behind this instruction, and it stays. -/
theorem stall_iff (h0 : Exact init (T 0)) {k : ℕ}
    (hroom : ∀ j, j < k → (schedule imem j).waiting.length < 8)
    (hfull : 8 ≤ (schedule imem k).waiting.length) (n : ℕ) :
    (T n).core.hx.stall = true ↔ k + 66 ≤ n := by
  have hbefore : ∀ n, n < k + 66 → (T n).core.hx.stall = false := by
    intro n
    induction n using Nat.strong_induction_on with
    | h n ih =>
      intro hn
      rw [← Bool.not_eq_true]
      intro hst
      have hfr := (Traced.frozen_of_stall (h.inv n).bound (h.inv n).acct hst).1
      have hlen := h.len_at (n := n) fun m hm => ih m hm (by omega)
      have hfull' : (T n).log.len = (T n).log.com + 63 := hfr.1
      have hcom := h.le_of_dropped h0 hroom hfull hfr.2
      omega
  constructor
  · intro hst
    by_contra hlt
    rw [hbefore n (by omega)] at hst
    cases hst
  · intro hn
    induction n, hn using Nat.le_induction with
    | base =>
      have hlen := h.len_at (n := k + 66) fun m hm => hbefore m hm
      have hcom := h.com_eq h0 hroom hfull (n := k + 66) (by omega)
      have hk := h.dropped_mono (n := k + 66) (by omega) (h.dropped_at h0 hroom hfull).1
      have hfr : (T (k + 66)).Frozen := ⟨by omega, hcom.symm ▸ hk⟩
      rw [hfr.stall (h.inv _).acct, (h.idUnit_at fun m hm => hbefore m hm).2 (by omega), h.alu.wrReg]
    | succ n _ ih => exact (h.stall_succ ih).1

theorem le_com_of_noDrop {n : ℕ} (hnd : (T n).NoDrop) : n ≤ (T n).log.com + 22 := h.le_com (hnd _)

end AluTrace

namespace Core
variable {imem : Word → Word} {s : HeliosX}

/-- What has retired is what has committed one cycle before. -/
theorem retired_succ (himem : AluProgram imem) (hs : s.AfterReset) (dmem : ℕ → Word) (n : ℕ) :
    retired imem dmem s (n + 1) =
      SeqState.trace imem s.dp.arf.mem (Traced.cycle imem dmem s n).log.com := by
  have h := AluTrace.cycle himem hs dmem
  have hv := h.computes (Exact.start hs) (Computes.start s)
  rw [← h.retired_eq hv (debug_start hs) n]
  simp only [retired, Traced.core_cycle]

theorem length_trace (init : RegSel → Word) (n : ℕ) : (SeqState.trace imem init n).length = n := by
  rw [SeqState.trace, List.length_map, List.length_range]

theorem length_retired_succ (himem : AluProgram imem) (hs : s.AfterReset) (dmem : ℕ → Word) (n : ℕ) :
    (retired imem dmem s (n + 1)).length = (Traced.cycle imem dmem s n).log.com := by
  rw [retired_succ himem hs, length_trace]

/-- While no instruction arrives to a full station, the core is at most 23 cycles behind. -/
theorem keeps_up (himem : AluProgram imem) (hs : s.AfterReset) (dmem : ℕ → Word) {N : ℕ}
    (hroom : ∀ k, k + 5 < N → (schedule imem k).waiting.length < 8) :
    ∃ m, N ≤ m + 23 ∧ retired imem dmem s N = SeqState.trace imem s.dp.arf.mem m := by
  cases N with
  | zero => exact ⟨0, by omega, rfl⟩
  | succ n =>
    have h := AluTrace.cycle himem hs dmem
    have hnd := (h.noDrop_iff_schedule (Exact.start hs) n).mpr fun k hk => hroom k (by omega)
    have hle := h.le_com_of_noDrop hnd
    exact ⟨_, by omega, retired_succ himem hs dmem n⟩

/-- Five times `addi x1, x1, 1`, and `addi x2, x0, 0` from then on. -/
def shortChain : Word → Word := fun a =>
  if a.toNat < (Fetch.wordAddr 5).toNat then 0x00108093 else 0x00000113

theorem aluProgram_shortChain : AluProgram shortChain := by
  intro a
  rw [shortChain]
  split_ifs
  · decide
  · decide

/-- After 60 cycles at least 37 instructions have retired. -/
theorem keeps_up_shortChain :
    ∃ m, 60 ≤ m + 23 ∧ retired shortChain (fun _ => 0) HeliosX.ofReset 60 =
      SeqState.trace shortChain HeliosX.ofReset.dp.arf.mem m := by
  have hroom : ∀ k, k < 55 → (schedule shortChain k).waiting.length < 8 := by decide +kernel
  exact keeps_up aluProgram_shortChain HeliosX.afterReset_ofReset (fun _ => 0)
    fun k hk => hroom k (by omega)

/-- If instruction `k` is the first to arrive to a full station, the core retires the `k` instructions
    before it and nothing else, however long it runs. -/
theorem halts_at (himem : AluProgram imem) (hs : s.AfterReset) (dmem : ℕ → Word) {k : ℕ}
    (hroom : ∀ j, j < k → (schedule imem j).waiting.length < 8)
    (hfull : 8 ≤ (schedule imem k).waiting.length) {N : ℕ} (hN : k + 24 ≤ N) :
    retired imem dmem s N = SeqState.trace imem s.dp.arf.mem k := by
  obtain ⟨n, rfl⟩ : ∃ n, N = n + 1 := ⟨N - 1, by omega⟩
  have h := AluTrace.cycle himem hs dmem
  rw [retired_succ himem hs dmem n, h.com_eq (Exact.start hs) hroom hfull (by omega)]

/-- The chain of dependent instructions is cut off by its 16th one. -/
theorem halts_at_addiChain :
    retired addiChain (fun _ => 0) HeliosX.ofReset 60 =
      SeqState.trace addiChain HeliosX.ofReset.dp.arf.mem 15 :=
  halts_at aluProgram_addiChain HeliosX.afterReset_ofReset (fun _ => 0) (k := 15)
    (by decide +kernel) (by decide +kernel) (by omega)

/-- It stalls from cycle `k + 66` on, and in no cycle before. -/
theorem stalls_iff (himem : AluProgram imem) (hs : s.AfterReset) (dmem : ℕ → Word) {k : ℕ}
    (hroom : ∀ j, j < k → (schedule imem j).waiting.length < 8)
    (hfull : 8 ≤ (schedule imem k).waiting.length) (n : ℕ) :
    (cycle imem dmem s n).hx.stall = true ↔ k + 66 ≤ n := by
  rw [← Traced.core_cycle]
  exact (AluTrace.cycle himem hs dmem).stall_iff (Exact.start hs) hroom hfull n

theorem stalls_iff_addiChain :
    (cycle addiChain (fun _ => 0) HeliosX.ofReset 81).hx.stall = true ↔ 15 + 66 ≤ 81 :=
  stalls_iff aluProgram_addiChain HeliosX.afterReset_ofReset (fun _ => 0) (k := 15)
    (by decide +kernel) (by decide +kernel) 81

theorem retired_mono (imem : Word → Word) (dmem : ℕ → Word) (s : HeliosX) {M N : ℕ}
    (h : M ≤ N) : retired imem dmem s M <+: retired imem dmem s N := by
  induction N, h using Nat.le_induction with
  | base => exact List.prefix_rfl
  | succ N _ ih =>
    refine ih.trans ?_
    rw [retired, retired, List.range_succ, List.filterMap_append]
    exact List.prefix_append _ _

/-- The core gets through the whole program exactly if no instruction arrives to a full station. -/
theorem retires_all_iff (himem : AluProgram imem) (hs : s.AfterReset) (dmem : ℕ → Word) :
    (∀ k, ∃ N, k ≤ (retired imem dmem s N).length) ↔
      ∀ k, (schedule imem k).waiting.length < 8 := by
  constructor
  · intro hall
    by_contra hno
    push Not at hno
    have hfull := Nat.find_spec hno
    have hroom : ∀ j, j < Nat.find hno → (schedule imem j).waiting.length < 8 :=
      fun j hj => Nat.lt_of_not_le (Nat.find_min hno hj)
    obtain ⟨N, hN⟩ := hall (Nat.find hno + 1)
    have hle := (retired_mono imem dmem s (M := N) (N := N + (Nat.find hno + 23) + 1)
      (by omega)).length_le
    have h := AluTrace.cycle himem hs dmem
    rw [length_retired_succ himem hs, h.com_eq (Exact.start hs) hroom hfull (by omega)] at hle
    omega
  · intro hroom k
    have h := AluTrace.cycle himem hs dmem
    have hnd := (h.noDrop_iff_schedule (Exact.start hs) (k + 22)).mpr fun j _ => hroom j
    have hle := h.le_com_of_noDrop hnd
    refine ⟨k + 22 + 1, ?_⟩
    rw [length_retired_succ himem hs]
    omega

theorem retires_all_iff_addiChain :
    (∀ k, ∃ N, k ≤ (retired addiChain (fun _ => 0) HeliosX.ofReset N).length) ↔
      ∀ k, (schedule addiChain k).waiting.length < 8 :=
  retires_all_iff aluProgram_addiChain HeliosX.afterReset_ofReset (fun _ => 0)

/-- A stall tells that an instruction has been lost, and it is the end: from then on the same
    instruction is refused in rename in every cycle and nothing commits. -/
theorem stall_final {imem : Word → Word} (himem : AluNopProgram imem) {s : HeliosX}
    (hs : s.AfterReset) (dmem : ℕ → Word) {n : ℕ}
    (hst : (cycle imem dmem s n).hx.stall = true) :
    (∃ m, m < n ∧ ¬ DispatchOk (cycle imem dmem s m).hx) ∧
      ∀ m, n ≤ m → (cycle imem dmem s m).hx.stall = true ∧
        (cycle imem dmem s m).hx.idUnit = (cycle imem dmem s n).hx.idUnit ∧
        (cycle imem dmem s (m + 1)).hx.debug = none := by
  have h := Trace.cycle himem hs dmem
  simp only [← Traced.core_cycle] at hst ⊢
  constructor
  · by_contra hno
    push Not at hno
    have hnd := h.noDrop_of_dispatchOk hno
    exact hnd.not_frozen (Traced.frozen_of_stall (h.inv n).bound (h.inv n).acct hst).1
  · intro m hm
    induction m, hm using Nat.le_induction with
    | base => exact ⟨hst, rfl, (h.stall_succ hst).2.2⟩
    | succ m _ ih =>
      have hnext := h.stall_succ ih.1
      exact ⟨hnext.1, hnext.2.1.trans ih.2.1, (h.stall_succ hnext.1).2.2⟩

theorem stall_final_addiChain :
    (∃ m, m < 81 ∧ ¬ DispatchOk (cycle addiChain (fun _ => 0) HeliosX.ofReset m).hx) ∧
      ∀ m, 81 ≤ m → (cycle addiChain (fun _ => 0) HeliosX.ofReset m).hx.stall = true ∧
        (cycle addiChain (fun _ => 0) HeliosX.ofReset m).hx.idUnit =
          (cycle addiChain (fun _ => 0) HeliosX.ofReset 81).hx.idUnit ∧
        (cycle addiChain (fun _ => 0) HeliosX.ofReset (m + 1)).hx.debug = none := by
  refine stall_final aluProgram_addiChain.aluNop HeliosX.afterReset_ofReset (fun _ => 0) ?_
  rw [← Traced.core_cycle]
  exact ((AluTrace.cycle aluProgram_addiChain HeliosX.afterReset_ofReset _).stall_iff
    (Exact.start HeliosX.afterReset_ofReset) (k := 15) (by decide +kernel) (by decide +kernel)
    81).mpr (Nat.le_refl _)

/-- While every dispatch goes well, at least 44 of the 63 tags are free. -/
theorem tags_spare {imem : Word → Word} (himem : AluNopProgram imem) {s : HeliosX}
    (hs : s.AfterReset) (dmem : ℕ → Word) {n : ℕ}
    (hok : ∀ m, m < n → DispatchOk (cycle imem dmem s m).hx) :
    44 ≤ (cycle imem dmem s n).hx.dp.rrfAlloc.freenum.toNat := by
  have h := Trace.cycle himem hs dmem
  simp only [← Traced.core_cycle] at hok ⊢
  have hI := h.inv n
  have hcom := hI.bound.com (h.noDrop_of_dispatchOk hok _)
  have hfree : (Traced.cycle imem dmem s n).core.hx.dp.rrfAlloc.freenum.toNat +
      (Traced.cycle imem dmem s n).log.len = (Traced.cycle imem dmem s n).log.com + 63 :=
    hI.acct.freenum
  omega

theorem tags_spare_addiChain :
    44 ≤ (cycle addiChain (fun _ => 0) HeliosX.ofReset 10).hx.dp.rrfAlloc.freenum.toNat :=
  tags_spare aluProgram_addiChain.aluNop HeliosX.afterReset_ofReset (fun _ => 0) (by decide +kernel)

end Core

end HeliosXCore
