import HeliosXCore.Lib.Tournament
import HeliosXCore.Rtl.AllocateUnit

/-! What `OldestFinder` finds, at every width: the last slot with a least value, and the entry and the
    value of that one slot. -/

namespace HeliosXCore
open Rtl

/-! ### Slices -/

section Slices
variable {len : ℕ}

theorem slice_cast {n n' : ℕ} (h : n = n') (v : BitVec n) (k len : ℕ) :
    slice (v.cast h) k len = slice v k len := by
  subst h
  rfl

theorem slice_zero (a : BitVec len) : slice a 0 len = a := by
  apply BitVec.eq_of_getLsbD_eq
  intro j hj
  simp [slice, hj]

theorem slice_append_zero {n : ℕ} (v : BitVec n) (a : BitVec len) : slice (v ++ a) 0 len = a := by
  apply BitVec.eq_of_getLsbD_eq
  intro j hj
  simp [slice, BitVec.getLsbD_append, hj]

/-- The slices behind the last operand of a concatenation are those of what stands before it. -/
theorem slice_append_succ {n : ℕ} (v : BitVec n) (a : BitVec len) (k : ℕ) :
    slice (v ++ a) (k + 1) len = slice v k len := by
  apply BitVec.eq_of_getLsbD_eq
  intro j hj
  have hge : ¬ (k + 1) * len + j < len := by
    rw [Nat.succ_mul]
    omega
  have hsub : (k + 1) * len + j - len = k * len + j := by
    rw [Nat.succ_mul]
    omega
  simp only [slice, BitVec.getLsbD_extractLsb', BitVec.getLsbD_append, hge, if_false, hsub]

theorem slice_concat2 (a b : BitVec len) :
    slice (concat2 b a) 0 len = a ∧ slice (concat2 b a) 1 len = b := by
  simp only [concat2, slice_cast, slice_append_zero, slice_append_succ, slice_zero, and_self]

theorem slice_concat4 (a b c d : BitVec len) :
    slice (concat4 d c b a) 0 len = a ∧ slice (concat4 d c b a) 1 len = b ∧
      slice (concat4 d c b a) 2 len = c ∧ slice (concat4 d c b a) 3 len = d := by
  simp only [concat4, slice_cast, slice_append_zero, slice_append_succ, slice_zero, and_self]

theorem slice_concat8 (a b c d e f g h : BitVec len) :
    slice (concat8 h g f e d c b a) 0 len = a ∧ slice (concat8 h g f e d c b a) 1 len = b ∧
      slice (concat8 h g f e d c b a) 2 len = c ∧ slice (concat8 h g f e d c b a) 3 len = d ∧
      slice (concat8 h g f e d c b a) 4 len = e ∧ slice (concat8 h g f e d c b a) 5 len = f ∧
      slice (concat8 h g f e d c b a) 6 len = g ∧ slice (concat8 h g f e d c b a) 7 len = h := by
  simp only [concat8, slice_cast, slice_append_zero, slice_append_succ, slice_zero, and_self]

end Slices

section Oldest
variable {m n : ℕ}

/-- One comparator: the second operand wins a tie. -/
def older (p q : BitVec m × BitVec n) : BitVec m × BitVec n := if p.2 < q.2 then p else q

/-- The entry and the value of slot `k` of two flattened vectors. -/
def slotOf {c : ℕ} (entryVector : BitVec (c * m)) (valueVector : BitVec (c * n)) (k : ℕ) :
    BitVec m × BitVec n := (slice entryVector k m, slice valueVector k n)

theorem oldestFinder2_eq (e1 e2 : BitVec m) (v1 v2 : BitVec n) :
    oldestFinder2 (concat2 e2 e1) (concat2 v2 v1) = older (e1, v1) (e2, v2) := by
  simp only [oldestFinder2, slice_concat2, older]
  split_ifs <;> rfl

theorem oldestFinder4_eq (e1 e2 e3 e4 : BitVec m) (v1 v2 v3 v4 : BitVec n) :
    oldestFinder4 (concat4 e4 e3 e2 e1) (concat4 v4 v3 v2 v1) =
      older (older (e1, v1) (e2, v2)) (older (e3, v3) (e4, v4)) := by
  simp only [oldestFinder4, slice_concat4, oldestFinder2_eq]

/-- The three levels, over the slots of any two vectors. -/
theorem oldestFinder_eq_slots (entryVector : BitVec (8 * m)) (valueVector : BitVec (8 * n)) :
    oldestFinder entryVector valueVector =
      older
        (older (older (slotOf entryVector valueVector 0) (slotOf entryVector valueVector 1))
          (older (slotOf entryVector valueVector 2) (slotOf entryVector valueVector 3)))
        (older (older (slotOf entryVector valueVector 4) (slotOf entryVector valueVector 5))
          (older (slotOf entryVector valueVector 6) (slotOf entryVector valueVector 7))) := by
  simp only [oldestFinder, oldestFinder4_eq, oldestFinder2_eq, slotOf]

end Oldest

/-! ### The winner of all eight slots -/

section Winner
variable {m n : ℕ} (entryVector : BitVec (8 * m)) (valueVector : BitVec (8 * n))

/-- Entry and value go on together, so a comparator passes one whole slot. -/
theorem older_slot (a b : ℕ) :
    older (slotOf entryVector valueVector a) (slotOf entryVector valueVector b) =
      slotOf entryVector valueVector (winner (fun k => (slice valueVector k n).toNat) a b) := by
  unfold older winner
  simp only [slotOf, BitVec.lt_def]
  split_ifs <;> rfl

theorem exists_lastMin : ∃ k, LastMin (fun k => (slice valueVector k n).toNat) 0 8 k ∧
    oldestFinder entryVector valueVector = slotOf entryVector valueVector k := by
  have hpair := fun k => (LastMin.single (fun k => (slice valueVector k n).toNat) k).join
    (LastMin.single _ (k + 1))
  have hquad := fun k => (hpair k).join (hpair (k + 2))
  refine ⟨_, (hquad 0).join (hquad 4), ?_⟩
  simp only [oldestFinder_eq_slots, older_slot]

/-- `OldestFinder` returns the entry and the value of one slot, the last of those with a least value;
    it is a slot with most significant bit 0 if there is any. -/
theorem oldestFinder_isGreatest : ∃ k,
    IsGreatest {k | k < 8 ∧ ∀ j, j < 8 → slice valueVector k n ≤ slice valueVector j n} k ∧
      (oldestFinder entryVector valueVector).1 = slice entryVector k m ∧
      (oldestFinder entryVector valueVector).2 = slice valueVector k n ∧
      ((∃ j, j < 8 ∧ (slice valueVector j n).msb = false) →
        (slice valueVector k n).msb = false) := by
  obtain ⟨k, hk, heq⟩ := exists_lastMin entryVector valueVector
  have hgreatest := hk.isGreatest
  simp only [Nat.zero_le, true_and, true_implies, ← BitVec.le_def] at hgreatest
  refine ⟨k, hgreatest, by rw [heq]; rfl, by rw [heq]; rfl, ?_⟩
  rintro ⟨j, hj, hready⟩
  have hle := hk.le j (Nat.zero_le j) hj
  rw [BitVec.msb_eq_false_iff_two_mul_lt] at hready ⊢
  omega

end Winner

end HeliosXCore
