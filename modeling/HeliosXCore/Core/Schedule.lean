import HeliosXCore.Core.Sequential
import HeliosXCore.Core.Exact

/-! Dispatch. Whether the eight entries can fill up depends on the register dependences of the
    program alone: the core issues as the list schedule below does, in which a result can be used two
    cycles after the issue of its producer. -/

namespace HeliosXCore
open Rtl

/-! ### The schedule of a program -/

/-- The instructions that wait, oldest first, and the one that was issued in the cycle before. -/
structure Sched where
  waiting : List ℕ
  last : Option ℕ
  deriving DecidableEq

namespace Sched
variable (imem : Word → Word)

/-- The instruction whose result source `k` of instruction `i` needs. -/
def producer (i : ℕ) (k : Src) : Option ℕ :=
  if (instAt imem i).dec.src k = 0 then none
  else SeqState.writer imem ((instAt imem i).dec.src k) i

/-- The result of `p` is still missing. -/
def lacks (s : Sched) : Option ℕ → Bool
  | none => false
  | some p => s.waiting.contains p || s.last == some p

/-- Neither operand of instruction `i` is missing. -/
def ready (s : Sched) (i : ℕ) : Bool :=
  !s.lacks (producer imem i .one) && !s.lacks (producer imem i .two)

/-- The oldest instruction that is ready is issued. -/
def issue (s : Sched) : Option ℕ := s.waiting.find? (s.ready imem)

/-- What stays in the station. -/
def rest (s : Sched) : List ℕ :=
  match s.issue imem with
  | some i => s.waiting.erase i
  | none => s.waiting

/-- One cycle, in which instruction `k` arrives. -/
def next (k : ℕ) (s : Sched) : Sched := ⟨s.rest imem ++ [k], s.issue imem⟩

end Sched

/-- The schedule when instruction `k` is about to arrive. -/
def schedule (imem : Word → Word) : ℕ → Sched
  | 0 => ⟨[], none⟩
  | k + 1 => (schedule imem k).next imem k

/-! ### The station follows the schedule -/

/-- The schedule describes the station and the latch. -/
structure Follows (t : Traced) (s : Sched) : Prop where
  sorted : s.waiting.Pairwise (· < ·)
  mem : ∀ i, i ∈ s.waiting ↔ ∃ e, t.core.hx.Busy e ∧ t.idx e = i
  last : s.last = t.exIdx

namespace Follows
variable {imem : Word → Word} {init : RegSel → Word} {t : Traced} {s : Sched} {d : Word}

theorem nodup (h : Follows t s) : s.waiting.Nodup := h.sorted.imp fun hlt => Nat.ne_of_lt hlt

/-- As many instructions wait as entries are busy. -/
theorem length_eq (h : Follows t s) (hs : Station t) :
    s.waiting.length = (Finset.univ.filter fun e => t.core.hx.Busy e).card := by
  have himage : s.waiting.toFinset =
      (Finset.univ.filter fun e => t.core.hx.Busy e).image t.idx := by
    ext i
    simp only [List.mem_toFinset, h.mem, Finset.mem_image, Finset.mem_filter, Finset.mem_univ,
      true_and]
  rw [← List.toFinset_card_of_nodup h.nodup, himage]
  refine Finset.card_image_of_injOn ?_
  intro e he e' he' hi
  simp only [Finset.coe_filter, Finset.mem_univ, true_and, Set.mem_ofPred_eq] at he he'
  exact hs.inj e e' he he' hi

/-- Fewer than eight instructions wait exactly if an entry is free. -/
theorem length_lt_iff (h : Follows t s) (hs : Station t) :
    s.waiting.length < 8 ↔ ∃ e, ¬ t.core.hx.Busy e := by
  have hcard : (Finset.univ : Finset (BitVec 3)).card = 8 := by decide
  have hle : (Finset.univ.filter fun e => t.core.hx.Busy e).card ≤ 8 :=
    (Finset.card_filter_le _ _).trans_eq hcard
  have hall : (Finset.univ.filter fun e => t.core.hx.Busy e).card = 8 ↔
      ∀ e, t.core.hx.Busy e := by
    rw [← hcard, Finset.card_filter_eq_iff]
    exact ⟨fun hb e => hb e (Finset.mem_univ e), fun hb e _ => hb e⟩
  rw [h.length_eq hs, ← not_forall, ← hall]
  omega

/-- The result of a stored instruction is missing exactly if it waits or has just been issued. -/
theorem lacks_iff (h : Follows t s) (hI : Inv init t) (hnd : t.NoDrop) {p : ℕ}
    (hp : p < t.log.written) : s.lacks (some p) = true ↔ t.log.result p = none := by
  simp only [Sched.lacks, Bool.or_eq_true, List.contains_iff_mem, beq_iff_eq, h.mem, h.last]
  refine ⟨?_, fun hres => (Traced.placed (hnd p) hres hp).symm⟩
  intro hor
  rcases hor with ⟨e, hb, rfl⟩ | hex
  · exact (hI.station.live e hb).2.1
  · exact (hI.latched.live p hex).2

/-- An operand is a value exactly if its producer is not missing. -/
theorem valid_iff (h : Follows t s) (hI : Inv init t) (hnd : t.NoDrop) {i : ℕ} (k : Src)
    (hi : i ≤ t.log.written)
    (hw : ∀ r, t.log.writerBefore r i = SeqState.writer imem r i) :
    (t.log.operandAt init ((instAt imem i).dec.src k) i).valid =
      !s.lacks (Sched.producer imem i k) := by
  rw [Log.operandAt, Sched.producer, hw]
  split_ifs with h0
  · rfl
  · cases hp : SeqState.writer imem ((instAt imem i).dec.src k) i with
    | none => rfl
    | some p =>
      have hpi := (lastBefore_lt hp).1
      have hiff := h.lacks_iff hI hnd (p := p) (by omega)
      simp only
      cases hres : t.log.result p with
      | some v =>
        have hlk : s.lacks (some p) = false := by
          rw [← Bool.not_eq_true, hiff, hres]
          simp
        rw [hlk]
        rfl
      | none =>
        rw [hiff.mpr hres]
        rfl

/-- An entry can be issued exactly if its instruction is ready in the schedule. -/
theorem ready_iff (h : Follows t s) (hI : Inv init t) (hE : Exact init t) (hnd : t.NoDrop)
    (hw : ∀ r i, i ≤ t.log.len → t.log.writerBefore r i = SeqState.writer imem r i)
    (hid : ∀ j a, t.log.accepted[j]? = some a → a.id = instAt imem j) {e : BitVec 3}
    (hb : t.core.hx.Busy e) : t.Ready e ↔ s.ready imem (t.idx e) = true := by
  obtain ⟨a, hacc, -⟩ := hI.station.data e hb
  have hlt := (hI.station.live e hb).1
  have hwl := Traced.written_le hI.acct
  have hslot : ∀ k, ((t.entry e).slot k).valid = !s.lacks (Sched.producer imem (t.idx e) k) := by
    intro k
    rw [hE.slot e a k hb (hnd.sound _) hacc, hid _ a hacc]
    exact h.valid_iff hI hnd k (Nat.le_of_lt hlt) fun r => hw r _ (by omega)
  rw [Traced.ready_iff, Sched.ready, Bool.and_eq_true, ← hslot, ← hslot]
  refine ⟨fun ⟨_, hk⟩ => ⟨hk .one, hk .two⟩, fun ⟨h1, h2⟩ => ⟨hb, ?_⟩⟩
  intro k
  cases k
  · exact h1
  · exact h2

/-- The core issues what the schedule issues. -/
theorem issue_eq (h : Follows t s) (hI : Inv init t) (hE : Exact init t) (hnd : t.NoDrop)
    (hw : ∀ r i, i ≤ t.log.len → t.log.writerBefore r i = SeqState.writer imem r i)
    (hid : ∀ j a, t.log.accepted[j]? = some a → a.id = instAt imem j) :
    s.issue imem = (t.step imem d).exIdx := by
  have hready := fun {e} (hb : t.core.hx.Busy e) => h.ready_iff hI hE hnd hw hid hb
  cases hi : t.core.hx.sw.exeAluIssue with
  | false =>
    have hex : (t.step imem d).exIdx = none := by
      rw [← Option.not_isSome_iff_eq_none, Traced.exIdx_isSome_step, hi]
      exact Bool.false_ne_true
    rw [hex, Sched.issue, List.find?_eq_none]
    intro i him hr
    obtain ⟨e, hb, rfl⟩ := (h.mem i).mp him
    rw [Traced.issue_of_ready ((hready hb).mpr hr)] at hi
    cases hi
  | true =>
    have hrp := Traced.issue_iff.mp hi
    have hbp := ((Traced.ready_iff _).mp hrp).1
    rw [Traced.exIdx_step_eq_some.mpr ⟨t.pointed, ⟨hi, rfl⟩, rfl⟩, Sched.issue,
      List.find?_eq_some_iff_append]
    refine ⟨(hready hbp).mp hrp, ?_⟩
    obtain ⟨as, bs, heq⟩ := List.append_of_mem ((h.mem _).mpr ⟨t.pointed, hbp, rfl⟩)
    refine ⟨as, bs, heq, ?_⟩
    intro i hia
    -- an older instruction that were ready would have been pointed at
    have hlt : i < t.idx t.pointed := by
      have hsort := h.sorted
      rw [heq, List.pairwise_append] at hsort
      exact hsort.2.2 i hia _ (List.mem_cons_self ..)
    obtain ⟨e, hb, rfl⟩ := (h.mem i).mp (heq ▸ List.mem_append_left _ hia)
    cases hr : s.ready imem (t.idx e) with
    | false => rfl
    | true =>
      have := (Traced.pointed_oldest hI.station hI.laps hI.acct ((hready hb).mpr hr)).2
      omega

/-- One cycle in which the pending instruction is written. -/
theorem step (h : Follows t s) (hI : Inv init t) (hE : Exact init t) (hnd : t.NoDrop)
    (hw : ∀ r i, i ≤ t.log.len → t.log.writerBefore r i = SeqState.writer imem r i)
    (hid : ∀ j a, t.log.accepted[j]? = some a → a.id = instAt imem j) {f : BitVec 3}
    (hf : t.core.hx.WritesEntry f) :
    Follows (t.step imem d) (s.next imem t.log.written) := by
  have hissue := h.issue_eq (d := d) hI hE hnd hw hid
  have hrest : ∀ i, i ∈ s.rest imem ↔ i ∈ s.waiting ∧ s.issue imem ≠ some i := by
    intro i
    rw [Sched.rest]
    cases hs : s.issue imem with
    | none => simp
    | some j => simp only [h.nodup.mem_erase_iff, ne_eq, Option.some.injEq, eq_comm, and_comm]
  have hlt : ∀ i, i ∈ s.waiting → i < t.log.written := by
    intro i hi
    obtain ⟨e, hb, rfl⟩ := (h.mem i).mp hi
    exact (hI.station.live e hb).1
  refine ⟨?_, ?_, hissue⟩
  · refine List.pairwise_append.mpr ⟨?_, List.pairwise_singleton _ _, ?_⟩
    · rw [Sched.rest]
      cases s.issue imem with
      | none => exact h.sorted
      | some j => exact h.sorted.sublist List.erase_sublist
    · intro i hi j hj
      rw [List.mem_singleton.mp hj]
      exact hlt i ((hrest i).mp hi).1
  · intro i
    have hmem : i ∈ (s.next imem t.log.written).waiting ↔
        (i ∈ s.waiting ∧ s.issue imem ≠ some i) ∨ i = t.log.written := by
      rw [Sched.next, List.mem_append, hrest, List.mem_singleton]
    rw [hmem, hissue, h.mem]
    constructor
    · rintro (⟨⟨e, hb, rfl⟩, hne⟩ | rfl)
      · have hwe : ¬ t.core.hx.WritesEntry e := fun hwe => Traced.not_busy_of_writes hwe hb
        refine ⟨e, (Traced.busy_step hI.front e).mpr ⟨?_, Or.inr hb⟩, ?_⟩
        · intro hie
          exact hne (Traced.exIdx_step_eq_some.mpr ⟨e, hie, rfl⟩)
        · rw [Traced.idx_step, if_neg hwe]
      · refine ⟨f, (Traced.busy_step hI.front f).mpr ⟨?_, Or.inl hf⟩, ?_⟩
        · intro hie
          exact Traced.not_busy_of_writes hf (Traced.busy_of_issues hie)
        · rw [Traced.idx_step, if_pos hf]
    · rintro ⟨e, hb, rfl⟩
      rcases Traced.busy_step_cases hI.front hb with ⟨-, hidx, -⟩ | ⟨hbe, hni, hidx, -⟩
      · exact Or.inr hidx
      · rw [hidx]
        refine Or.inl ⟨⟨e, hbe, rfl⟩, ?_⟩
        intro hex
        obtain ⟨e', hie, he'⟩ := Traced.exIdx_step_eq_some.mp hex
        exact hni (hI.station.inj e' e (Traced.busy_of_issues hie) hbe he' ▸ hie)

end Follows

/-! ### No instruction is dropped -/

/-- A dispatched instruction that was accepted finds a free entry and is written. -/
def DispatchOk (hx : HeliosX) : Prop :=
  hx.dp.rrfAllocatableReg = true → hx.dp.reqReg.reqAlunum = 1 → hx.stall = false →
    (∃ e, ¬ hx.Busy e) ∧ hx.sw.aluWe1 hx.swPorts = true

instance (hx : HeliosX) : Decidable (DispatchOk hx) := inferInstanceAs (Decidable (_ → _ → _ → _))

namespace AluTrace
variable {imem : Word → Word} {init : RegSel → Word} {T : ℕ → Traced} (h : AluTrace imem init T)
include h

/-- Until something is lost, the pending instruction has to get an entry. -/
theorem dispatchOk_iff {n : ℕ} (hnd : (T n).NoDrop) :
    DispatchOk (T n).core.hx ↔ ((T n).Pending → ∃ e, (T n).core.hx.WritesEntry e) := by
  have hI := h.inv n
  have hreq : (T n).core.hx.dp.reqReg.reqAlunum = if (T n).core.hx.dp.dstEnReg then 1 else 0 :=
    hI.front.reqAluNum
  constructor
  · intro hok hp
    have hst := h.no_stall_of_not_frozen hnd.not_frozen n (Nat.le_refl n)
    rw [hp.2, if_pos rfl] at hreq
    exact ⟨_, (hok hp.1 hreq hst).2, rfl⟩
  · intro hw ha hone hst
    have hd : (T n).core.hx.dp.dstEnReg = true := by
      cases hd : (T n).core.hx.dp.dstEnReg with
      | true => rfl
      | false =>
        rw [hd, hone] at hreq
        exact absurd hreq (by decide)
    obtain ⟨e, he⟩ := hw ⟨ha, hd⟩
    exact ⟨⟨e, Traced.not_busy_of_writes he⟩, he.1⟩

/-- Nothing is lost in a cycle exactly if the pending instruction gets an entry. -/
theorem noDrop_succ (n : ℕ) :
    (T (n + 1)).NoDrop ↔ (T n).NoDrop ∧ DispatchOk (T n).core.hx := by
  have hI := h.inv n
  obtain ⟨d, hd⟩ := h.next n
  rw [hd]
  constructor
  · intro hnd
    have hnd' := hnd.of_step hI.front hI.acct
    refine ⟨hnd', (h.dispatchOk_iff hnd').mpr ?_⟩
    intro hp
    by_contra hno
    push Not at hno
    exact hnd _ (Traced.dropped_of_not_written hI.station hI.front hI.latched hI.acct hp hno)
  · rintro ⟨hnd, hok⟩
    exact hnd.step hI.front hI.acct ((h.dispatchOk_iff hnd).mp hok)

theorem noDrop_iff (N : ℕ) : (T N).NoDrop ↔ ∀ n, n < N → DispatchOk (T n).core.hx := by
  induction N with
  | zero =>
    refine ⟨fun _ n hn => absurd hn (Nat.not_lt_zero n), ?_⟩
    intro _ i hi
    have := hi.1
    rw [h.start] at this
    cases this
  | succ N ih =>
    rw [h.noDrop_succ, ih]
    refine ⟨?_, fun hall => ⟨fun n hn => hall n (by omega), hall N (by omega)⟩⟩
    rintro ⟨hlt, hN⟩ n hn
    rcases Nat.lt_succ_iff_lt_or_eq.mp hn with hlt' | rfl
    · exact hlt n hlt'
    · exact hN

/-- Until something is lost, the station follows the schedule. -/
theorem follows (h0 : Exact init (T 0)) (k : ℕ) (hnd : (T (k + 4)).NoDrop) :
    Follows (T (k + 4)) (schedule imem k) := by
  induction k with
  | zero =>
    have hw : (T 4).log.written = 0 := h.written_at_noDrop hnd
    refine ⟨List.Pairwise.nil, ?_, ?_⟩
    · intro i
      refine ⟨fun hi => absurd hi List.not_mem_nil, ?_⟩
      rintro ⟨e, hb, _⟩
      have hlt : (T 4).idx e < (T 4).log.written := ((h.inv 4).station.live e hb).1
      omega
    · cases hex : (T 4).exIdx with
      | none => rfl
      | some q =>
        have hlt : q < (T 4).log.written := ((h.inv 4).latched.live q hex).1
        omega
  | succ k ih =>
    have hnext : (T (k + 4 + 1)).NoDrop := by
      rw [show k + 4 + 1 = k + 1 + 4 by omega]
      exact hnd
    obtain ⟨hnd', hok⟩ := (h.noDrop_succ (k + 4)).mp hnext
    have hp := h.pending_at_noDrop hnd' (by omega)
    have hwr : (T (k + 4)).log.written = k := h.written_at_noDrop hnd'
    obtain ⟨f, hf⟩ := (h.dispatchOk_iff hnd').mp hok hp
    obtain ⟨d, hd⟩ := h.next (k + 4)
    have hstep := (ih hnd').step (d := d) (h.inv (k + 4)) (h.exact h0 (k + 4)) hnd'
      (h.writerBefore_eq (k + 4)) (fun _ _ => h.accepted_eq (k + 4)) hf
    rw [← hd, hwr] at hstep
    rw [show k + 1 + 4 = k + 4 + 1 by omega]
    exact hstep

/-- A pending instruction is written when an entry is free. -/
theorem writes_of_free {n : ℕ} (hnd : (T n).NoDrop) (hp : (T n).Pending)
    (hfree : ∃ e, ¬ (T n).core.hx.Busy e) : ∃ e, (T n).core.hx.WritesEntry e := by
  have hst := h.no_stall_of_not_frozen hnd.not_frozen n (Nat.le_refl n)
  have hreq := (h.inv n).front.reqAluNum
  rw [hp.2, if_pos rfl] at hreq
  have hen : AllocateUnit.en1 3 (T n).core.hx.sw.rsAlu.busyVector = true := by
    rw [AllocateUnit.en1_iff]
    obtain ⟨e, he⟩ := hfree
    exact ⟨e, by simpa [HeliosX.Busy] using he⟩
  have halloc : (T n).core.hx.sw.aluAllocatable (T n).core.hx.swPorts = true := by
    have hone : ∀ b : Bool, (if (1 : BitVec 2) >
        (0#1 ++ BitVec.ofBool true) + (0#1 ++ BitVec.ofBool b) then false else true) = true := by
      decide
    rw [SwUnit.aluAllocatable, AllocateUnit.allocatable, hreq, hen]
    exact hone _
  refine ⟨_, ?_, rfl⟩
  have hst' : (T n).core.hx.swPorts.stallDp = false := hst
  have hkill : (T n).core.hx.swPorts.killDp = false := rfl
  rw [SwUnit.aluWe1, SwUnit.aluAllocateEn1, hst', hkill, hreq, hen, halloc]
  rfl

/-- Instruction `k` gets an entry exactly if the schedule has a place for it. -/
theorem dispatchOk_iff_schedule (h0 : Exact init (T 0)) (k : ℕ) (hnd : (T (k + 4)).NoDrop) :
    DispatchOk (T (k + 4)).core.hx ↔ (schedule imem k).waiting.length < 8 := by
  have hp := h.pending_at_noDrop hnd (by omega)
  rw [h.dispatchOk_iff hnd, (h.follows h0 k hnd).length_lt_iff (h.inv (k + 4)).station]
  refine ⟨?_, fun hfree _ => h.writes_of_free hnd hp hfree⟩
  intro hw
  obtain ⟨e, he⟩ := hw hp
  exact ⟨e, Traced.not_busy_of_writes he⟩

theorem noDrop_iff_schedule (h0 : Exact init (T 0)) (N : ℕ) :
    (T N).NoDrop ↔ ∀ k, k + 4 < N → (schedule imem k).waiting.length < 8 := by
  induction N with
  | zero =>
    rw [h.noDrop_iff]
    exact ⟨fun _ k hk => absurd hk (Nat.not_lt_zero _), fun _ n hn => absurd hn (Nat.not_lt_zero n)⟩
  | succ N ih =>
    rw [h.noDrop_succ]
    constructor
    · rintro ⟨hnd, hok⟩ k hk
      rcases Nat.lt_succ_iff_lt_or_eq.mp hk with hlt | rfl
      · exact ih.mp hnd k hlt
      · exact (h.dispatchOk_iff_schedule h0 k hnd).mp hok
    · intro hall
      have hnd := ih.mpr fun k hk => hall k (by omega)
      refine ⟨hnd, ?_⟩
      rcases Nat.lt_or_ge N 4 with hlt | hge
      · refine (h.dispatchOk_iff hnd).mpr ?_
        intro hp
        have hlen := hp.len_eq (h.inv N).acct
        have hns := h.no_stall_of_not_frozen hnd.not_frozen
        rw [h.len_at fun m hm => hns m (Nat.le_of_lt hm)] at hlen
        omega
      · obtain ⟨k, rfl⟩ : ∃ k, N = k + 4 := ⟨N - 4, by omega⟩
        exact (h.dispatchOk_iff_schedule h0 k hnd).mpr (hall k (Nat.lt_succ_self _))

end AluTrace

/-- For every program of ALU instructions: no accepted instruction is dropped in the first `N`
    cycles exactly if the schedule of the program never has eight instructions waiting when one
    arrives. Instruction `k` arrives in cycle `k + 4`. -/
theorem dispatch_ok_iff {imem : Word → Word} (himem : AluProgram imem) {s : HeliosX}
    (hs : s.AfterReset) (dmem : ℕ → Word) (N : ℕ) :
    (∀ n, n < N → DispatchOk (Core.cycle imem dmem s n).hx) ↔
      ∀ k, k + 4 < N → (schedule imem k).waiting.length < 8 := by
  have h := AluTrace.cycle himem hs dmem
  rw [← h.noDrop_iff_schedule (Exact.start hs), h.noDrop_iff]
  simp only [Traced.core_cycle]

theorem dispatch_ok_addiChain :
    (∀ n, n < 20 → DispatchOk (Core.cycle addiChain (fun _ => 0) HeliosX.ofReset n).hx) ↔
      ∀ k, k + 4 < 20 → (schedule addiChain k).waiting.length < 8 :=
  dispatch_ok_iff aluProgram_addiChain HeliosX.afterReset_ofReset (fun _ => 0) 20

/-- In the chain of dependent instructions the 16th one finds all entries busy in cycle 19. -/
theorem dispatch_drops :
    AluProgram addiChain ∧
      ¬ DispatchOk (Core.cycle addiChain (fun _ => 0) HeliosX.ofReset 19).hx :=
  ⟨aluProgram_addiChain, by decide +kernel⟩

end HeliosXCore
