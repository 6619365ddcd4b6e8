import HeliosXCore.Rtl.SwUnit

/-! Two entries of the memory reservation station in one cycle. `InorderAllocIssueUnit` checks entry
    `alloc_ptr_o` and the one at the index `alloc_ptr_o + 1`; `SwUnit` writes `free_mem_entry_1` and
    its successor truncated to the pointer. At the last entry the two are not the same. -/

namespace HeliosXCore
open Rtl

namespace InorderAllocIssueUnit
variable {k : ℕ} {busy : Bits k} {allocPtr : BitVec k}

/-- The index that is checked is the successor that is written: the pointer is wide enough to
    wrap around, or it is not at the last entry. -/
theorem indexSucc_eq (h : 32 ≤ k ∨ allocPtr.toNat + 1 < 2 ^ k) :
    indexSucc allocPtr = (allocPtr + 1).toNat := by
  have hnat : (allocPtr + 1).toNat = (allocPtr.toNat + 1) % 2 ^ k := by
    simp [BitVec.toNat_add]
  rw [hnat, indexSucc]
  rcases h with h | h
  · rw [max_eq_left h]
  · have hle : 2 ^ k ≤ 2 ^ max k 32 := Nat.pow_le_pow_right (by omega) (le_max_left k 32)
    rw [Nat.mod_eq_of_lt h, Nat.mod_eq_of_lt (by omega)]

/-- At the last entry of a shorter pointer the index lies outside the vector. -/
theorem indexSucc_last (hk : k < 32) (h : 2 ^ k ≤ allocPtr.toNat + 1) :
    indexSucc allocPtr = 2 ^ k := by
  have hlt := allocPtr.isLt
  have h32 : 2 ^ k < 2 ^ max k 32 :=
    Nat.pow_lt_pow_right (by omega) (lt_of_lt_of_le hk (le_max_right k 32))
  rw [indexSucc, Nat.mod_eq_of_lt (by omega)]
  omega

/-- A request for two entries, over the two bits that are read. -/
theorem allocatableLogic_two (busy : Bits k) (allocPtr : BitVec k) :
    allocatableLogic false 2 busy allocPtr =
      ((Logic.known !bit busy allocPtr).and (bitSelect busy (indexSucc allocPtr)).not).select
        (.known true) (.known false) := by
  have hfirst : bitSelect busy allocPtr.toNat = .known (bit busy allocPtr) :=
    bitSelect_of_lt busy allocPtr.isLt
  simp [allocatableLogic, hfirst, Logic.not]

theorem allocatableLogic_inside (h : 32 ≤ k ∨ allocPtr.toNat + 1 < 2 ^ k) :
    allocatableLogic false 2 busy allocPtr =
      .known (!bit busy allocPtr && !bit busy (allocPtr + 1)) := by
  have hsecond : bitSelect busy (indexSucc allocPtr) = .known (bit busy (allocPtr + 1)) := by
    rw [indexSucc_eq h]
    exact bitSelect_of_lt busy (allocPtr + 1).isLt
  rw [allocatableLogic_two, hsecond]
  cases bit busy allocPtr <;> cases bit busy (allocPtr + 1) <;> rfl

/-- A busy first entry decides, whatever is read for the second. -/
theorem allocatableLogic_busy (h : bit busy allocPtr = true) :
    allocatableLogic false 2 busy allocPtr = .known false := by
  rw [allocatableLogic_two, h]
  rfl

theorem allocatableLogic_outside (hk : k < 32) (hlast : 2 ^ k ≤ allocPtr.toNat + 1)
    (h : bit busy allocPtr = false) : allocatableLogic false 2 busy allocPtr = .x := by
  rw [allocatableLogic_two, indexSucc_last hk hlast, bitSelect_of_le busy (le_refl _), h]
  rfl

/-- The answer to a request for two entries is exact, and a pair that may be accepted overwrites
    nothing, exactly when the pointer is not at the last entry (or as wide as the literal) or the
    entry it points at is busy. -/
theorem pair_exact_iff (busy : Bits k) (allocPtr : BitVec k) :
    (allocatableLogic false 2 busy allocPtr =
        .known (!bit busy allocPtr && !bit busy (allocPtr + 1)) ∧
      ((allocatableLogic false 2 busy allocPtr).Allows true →
        bit busy allocPtr = false ∧ bit busy (allocPtr + 1) = false)) ↔
      32 ≤ k ∨ allocPtr.toNat + 1 < 2 ^ k ∨ bit busy allocPtr = true := by
  constructor
  · rintro ⟨hexact, _⟩
    by_contra hc
    simp only [not_or, not_le, not_lt, Bool.not_eq_true] at hc
    obtain ⟨hk, hlast, hfree⟩ := hc
    rw [allocatableLogic_outside hk hlast hfree] at hexact
    cases hexact
  · intro h
    have hexact : allocatableLogic false 2 busy allocPtr =
        .known (!bit busy allocPtr && !bit busy (allocPtr + 1)) := by
      rcases h with hk | hlast | hbusy
      · exact allocatableLogic_inside (Or.inl hk)
      · exact allocatableLogic_inside (Or.inr hlast)
      · rw [allocatableLogic_busy hbusy, hbusy]
        rfl
    refine ⟨hexact, ?_⟩
    rw [hexact]
    simp

/-- Three of four entries are busy and the pointer is at the last one, which is free. The answer is
    unknown although entry 0, which the second operation would be written to, is busy. -/
theorem pair_inexact_last :
    allocatableLogic false 2 (0b0111 : Bits 2) (3 : BitVec 2) = .x ∧
      ¬ (allocatableLogic false 2 (0b0111 : Bits 2) (3 : BitVec 2) =
          .known (!bit (0b0111 : Bits 2) (3 : BitVec 2) &&
            !bit (0b0111 : Bits 2) ((3 : BitVec 2) + 1)) ∧
        ((allocatableLogic false 2 (0b0111 : Bits 2) (3 : BitVec 2)).Allows true →
          bit (0b0111 : Bits 2) (3 : BitVec 2) = false ∧
            bit (0b0111 : Bits 2) ((3 : BitVec 2) + 1) = false)) := by decide

end InorderAllocIssueUnit

namespace SwUnit

/-- In `SwUnit` two accepted operations go to free entries, unless the first goes to entry 3. -/
theorem memPair_free {s : SwUnit} {i : SwIn}
    (h : s.memAllocPtr.toNat + 1 < 2 ^ 2 ∨ bit s.rsMem.busyVector s.memAllocPtr = true)
    (hwe : s.memWe2 false i = true) : bit s.rsMem.busyVector s.freeMemEntry1 = false ∧
      bit s.rsMem.busyVector s.freeMemEntry2 = false := by
  simp only [memWe2, Bool.and_eq_true, beq_iff_eq] at hwe
  obtain ⟨⟨_, hacc⟩, hreq⟩ := hwe
  have hallows := InorderAllocIssueUnit.allocatable_allows false i.reqMemNum s.rsMem.busyVector
    s.memAllocPtr
  rw [memAllocatable] at hacc
  rw [hacc, hreq] at hallows
  rcases h with hptr | hbusy
  · rw [InorderAllocIssueUnit.allocatableLogic_inside (Or.inr hptr)] at hallows
    simpa [freeMemEntry1, freeMemEntry2] using hallows
  · rw [InorderAllocIssueUnit.allocatableLogic_busy hbusy] at hallows
    simp at hallows

/-- There, with the bit outside the vector read as 0, the second goes to entry 0 whether that is busy
    or not. -/
theorem memWe2_last {s : SwUnit} {i : SwIn} (hptr : s.memAllocPtr = 3) (hreq : i.reqMemNum = 2) :
    s.memWe2 false i = (!i.stallDp && !i.killDp && !bit s.rsMem.busyVector s.freeMemEntry1) ∧
      s.freeMemEntry2 = 0 := by
  have hout : bitAt s.rsMem.busyVector (InorderAllocIssueUnit.indexSucc s.memAllocPtr) = false := by
    rw [hptr]
    exact BitVec.getLsbD_of_ge _ _ (by decide)
  constructor
  · simp [memWe2, memAllocatable, InorderAllocIssueUnit.allocatable, freeMemEntry1, hreq, hout, bit]
  · rw [freeMemEntry2, freeMemEntry1, hptr]
    rfl

end SwUnit

end HeliosXCore
