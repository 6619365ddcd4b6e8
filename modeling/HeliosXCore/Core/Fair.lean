import HeliosXCore.Core.AluPath

/-! No instruction starves in the ALU station. One that has both operands is passed only by older ones,
    of which there are at most seven, and each of these leaves when it passes. -/

namespace HeliosXCore
open Rtl

namespace TracedPath

/-- The eight entries. -/
def entries : Finset (BitVec 3) := (Finset.range 8).image (BitVec.ofNat 3)

theorem mem_entries : ∀ b : BitVec 3, b ∈ entries := by decide

/-- The entries with older instructions that have not been issued. -/
def older (t : TracedPath) (a : BitVec 3) : Finset (BitVec 3) :=
  entries.filter fun b => t.Busy b ∧ t.idx b < t.idx a

theorem mem_older {t : TracedPath} {a b : BitVec 3} :
    b ∈ t.older a ↔ t.Busy b ∧ t.idx b < t.idx a := by
  rw [older, Finset.mem_filter, and_iff_right (mem_entries b)]

theorem card_older_lt (t : TracedPath) (a : BitVec 3) : (t.older a).card < 8 := by
  have hss : t.older a ⊂ entries := by
    refine Finset.filter_ssubset.mpr ⟨a, mem_entries a, ?_⟩
    rintro ⟨-, hlt⟩
    exact Nat.lt_irrefl _ hlt
  exact Finset.card_lt_card hss

namespace Tagged
variable {t : TracedPath} {i : PathIn} (h : t.Tagged) {a : BitVec 3}
include h

/-- A ready instruction that is not issued is passed by an older one. -/
theorem exists_older (hr : t.Ready a) (hni : ¬ t.hw.sw.IssuesEntry a) :
    ∃ b, t.hw.sw.IssuesEntry b ∧ b ∈ t.older a := by
  obtain ⟨hready, hle⟩ := h.pointed_oldest hr
  have hi := SwUnit.exeAluIssue_of_ready hr
  have hne : a ≠ t.hw.sw.aluIssueAddr := fun he => hni ⟨hi, he.symm⟩
  refine ⟨_, ⟨hi, rfl⟩, mem_older.mpr ⟨hready.1, ?_⟩⟩
  exact Nat.lt_of_le_of_ne hle fun he => hne (h.inj _ _ hr.1 hready.1 he.symm)

/-- An entry that waits is not written, and an operand that is there stays. -/
theorem ready_step (hr : t.Ready a) (hni : ¬ t.hw.sw.IssuesEntry a) :
    (t.step i).Ready a ∧ (t.step i).idx a = t.idx a := by
  have hw : ¬ t.Writes i a := by
    intro hw
    have hfree := SwUnit.free_of_writesEntry hw
    rw [hr.1] at hfree
    cases hfree
  have hentry : (t.step i).hw.sw.rsAlu.entry a =
      SwUnit.held i.exeResults (t.hw.sw.rsAlu.entry a) :=
    (SwUnit.entry_next h.reqAluNum_ne_two a).trans (if_neg hw)
  refine ⟨⟨(h.busy_step a).mpr ⟨hni, Or.inr hr.1⟩, ?_, ?_⟩, if_neg hw⟩
  · rw [hentry]
    exact (congrArg Operand.valid (sourceManager_valid hr.2.1)).trans hr.2.1
  · rw [hentry]
    exact (congrArg Operand.valid (sourceManager_valid hr.2.2)).trans hr.2.2

/-- Nobody gets older, and the one that passes is gone. -/
theorem older_step (hr : t.Ready a) (hni : ¬ t.hw.sw.IssuesEntry a) :
    (t.step i).older a ⊂ t.older a := by
  have hidx := (h.ready_step (i := i) hr hni).2
  obtain ⟨b, hb, hmem⟩ := h.exists_older hr hni
  refine (Finset.ssubset_iff_of_subset ?_).mpr ⟨b, hmem, ?_⟩
  · intro c hc
    obtain ⟨hbusy, hlt⟩ := mem_older.mp hc
    obtain ⟨-, hor⟩ := (h.busy_step c).mp hbusy
    rw [hidx] at hlt
    by_cases hw : t.Writes i c
    · -- a new instruction is the youngest
      have hnew : (t.step i).idx c = t.dispatched := if_pos hw
      have := (h.held a hr.1).lt
      omega
    · have hold : (t.step i).idx c = t.idx c := if_neg hw
      rw [hold] at hlt
      exact mem_older.mpr ⟨hor.resolve_left hw, hlt⟩
  · intro hc
    exact ((h.busy_step b).mp (mem_older.mp hc).1).1 hb

end Tagged

section run
variable {s : AluPath} {e : ℕ → PathIn} {N : ℕ}

theorem issued_of_card (hs : s.AfterReset) (hl : machine.Legal (start s) e N) {k n : ℕ}
    {a : BitVec 3} (hn : n + k < N) (hr : (cycle s e n).Ready a)
    (hk : ((cycle s e n).older a).card ≤ k) :
    ∃ m, n ≤ m ∧ m ≤ n + k ∧ (cycle s e m).hw.sw.IssuesEntry a ∧
      (cycle s e m).idx a = (cycle s e n).idx a := by
  induction k generalizing n with
  | zero =>
    have h := tagged_cycle hs e n (hl.mono (by omega))
    refine ⟨n, Nat.le_refl n, by omega, ?_, rfl⟩
    by_contra hni
    obtain ⟨b, -, hb⟩ := h.exists_older hr hni
    rw [Finset.card_eq_zero.mp (Nat.le_zero.mp hk)] at hb
    exact absurd hb (Finset.notMem_empty b)
  | succ k ih =>
    have h := tagged_cycle hs e n (hl.mono (by omega))
    by_cases hi : (cycle s e n).hw.sw.IssuesEntry a
    · exact ⟨n, Nat.le_refl n, by omega, hi, rfl⟩
    · have hnext : cycle s e (n + 1) = (cycle s e n).step (e n) := rfl
      obtain ⟨hr', hidx⟩ := h.ready_step (i := e n) hr hi
      have hcard := Finset.card_lt_card (h.older_step (i := e n) hr hi)
      rw [← hnext] at hr' hidx hcard
      obtain ⟨m, hm, hm', hiss, heq⟩ := ih (by omega) hr' (by omega)
      exact ⟨m, by omega, by omega, hiss, heq.trans hidx⟩

/-- An instruction with both operands is issued within eight cycles, whatever is dispatched behind it,
    as long as the allocator does not stall and gives a tag out again only after its holder and all
    older instructions have been issued. -/
theorem issued_within (hs : s.AfterReset) (hl : machine.Legal (start s) e N) {n : ℕ} {a : BitVec 3}
    (hn : n + 7 < N) (hr : (cycle s e n).Ready a) :
    ∃ m, n ≤ m ∧ m ≤ n + 7 ∧ (cycle s e m).hw.sw.IssuesEntry a ∧
      (cycle s e m).idx a = (cycle s e n).idx a := by
  have hk : ((cycle s e n).older a).card ≤ 7 := Nat.le_of_lt_succ (card_older_lt _ a)
  exact issued_of_card hs hl hn hr hk

end run

/-- The instructions 0 to 6 wait for one tag, which is broadcast in cycle 12. -/
def crowd (n : ℕ) : PathIn :=
  if n < 7 then
    { alwaysReady with fields := ⟨0, ⟨60, false⟩, ⟨2, true⟩, 0, 0, 0, 0, true, 0⟩ }
  else if n = 12 then
    { alwaysReady with exeResults := ⟨⟨60, 5⟩, ⟨0, 0⟩, ⟨0, 0⟩, ⟨0, 0⟩, ⟨0, 0⟩⟩ }
  else alwaysReady

/-- In cycle 13 all eight are ready, and entry 7 has the youngest of them: it is passed by the seven
    others and issued in cycle 20, the last one that the bound allows. -/
theorem issued_within_crowd :
    (∃ m, 13 ≤ m ∧ m ≤ 13 + 7 ∧ (cycle ofReset crowd m).hw.sw.IssuesEntry 7 ∧
        (cycle ofReset crowd m).idx 7 = (cycle ofReset crowd 13).idx 7) ∧
      ∀ m, 13 ≤ m → m < 20 → ¬ (cycle ofReset crowd m).hw.sw.IssuesEntry 7 := by
  have hr : (cycle ofReset crowd 13).Ready 7 := RSAlu.ready_iff.mp (by decide +kernel)
  have hlate : ∀ m, 13 ≤ m → m < 20 → ¬ (cycle ofReset crowd m).hw.sw.IssuesEntry 7 := by
    decide +kernel
  exact ⟨issued_within ⟨_, _, _, rfl, rfl⟩ (N := 21) (by decide +kernel) (by omega) hr, hlate⟩

end TracedPath

end HeliosXCore
