import HeliosXCore.Rtl.AllocateUnit

/-! What `AllocateUnit` finds, at every size: the first and the second free entry, and whether there
    are as many as requested. -/

namespace HeliosXCore
open Rtl

/-- The free entries of a busy vector. -/
def freeEntries {n : ℕ} (busy : BitVec n) : Finset ℕ :=
  (Finset.range n).filter fun i => bitAt busy i = false

theorem mem_freeEntries {n : ℕ} {busy : BitVec n} {i : ℕ} :
    i ∈ freeEntries busy ↔ i < n ∧ bitAt busy i = false := by
  simp [freeEntries]

/-! ### One search -/

namespace PriorityEncoder
variable {n g : ℕ}

/-- The downward loop ends with the first free index of the list. -/
theorem foldr_eq_find (p : ℕ → Bool) (g : ℕ) (l : List ℕ) :
    l.foldr (fun i acc => if p i then (BitVec.ofNat g i, true) else acc) (0, false) =
      match l.find? p with
      | some i => (BitVec.ofNat g i, true)
      | none => (0, false) := by
  induction l with
  | nil => rfl
  | cons i l ih =>
    rw [List.foldr_cons, List.find?_cons, ih]
    cases p i <;> rfl

theorem scan_eq (g : ℕ) (inp : BitVec n) :
    scan g inp = match (List.range n).find? fun i => !bitAt inp i with
      | some i => (BitVec.ofNat g i, true)
      | none => (0, false) := foldr_eq_find _ g _

theorem en_iff (g : ℕ) (inp : BitVec n) : en g inp = true ↔ (freeEntries inp).Nonempty := by
  rw [en, scan_eq]
  cases h : (List.range n).find? fun i => !bitAt inp i with
  | none =>
    rw [List.find?_eq_none] at h
    simp only [Bool.false_eq_true, false_iff, Finset.not_nonempty_iff_eq_empty]
    refine Finset.eq_empty_of_forall_notMem ?_
    intro i hi
    obtain ⟨hlt, hfree⟩ := mem_freeEntries.mp hi
    exact h i (List.mem_range.mpr hlt) (by simp [hfree])
  | some i =>
    obtain ⟨hfree, hmem, -⟩ := List.find?_range_eq_some.mp h
    simp only [true_iff]
    exact ⟨i, mem_freeEntries.mpr ⟨List.mem_range.mp hmem, by simpa using hfree⟩⟩

/-- The port is wide enough for every index, so none is truncated. -/
theorem out_isLeast (hlen : n ≤ 2 ^ g) {inp : BitVec n} (h : en g inp = true) :
    IsLeast (freeEntries inp : Set ℕ) (out g inp).toNat := by
  rw [en, scan_eq] at h
  rw [out, scan_eq]
  cases hf : (List.range n).find? fun i => !bitAt inp i with
  | none =>
    rw [hf] at h
    cases h
  | some i =>
    obtain ⟨hfree, hmem, hbelow⟩ := List.find?_range_eq_some.mp hf
    have hlt := List.mem_range.mp hmem
    have hnat : (BitVec.ofNat g i).toNat = i := by
      rw [BitVec.toNat_ofNat, Nat.mod_eq_of_lt (by omega)]
    simp only [hnat]
    refine ⟨mem_freeEntries.mpr ⟨hlt, by simpa using hfree⟩, ?_⟩
    intro j hj
    by_contra hlt'
    have hbusy := hbelow j (by omega)
    rw [(mem_freeEntries.mp hj).2] at hbusy
    cases hbusy

end PriorityEncoder

/-! ### Both searches -/

namespace AllocateUnit
variable {n g : ℕ}

theorem bitAt_busyMask (hlen : n ≤ 2 ^ g) (busy : BitVec n) {i : ℕ} (hi : i < n) :
    bitAt (busyMask g busy) i = decide (i ≤ (freeEntry1 g busy).toNat) := by
  have hnat : (BitVec.ofNat g i).toNat = i := by
    rw [BitVec.toNat_ofNat, Nat.mod_eq_of_lt (by omega)]
  have hlt : freeEntry1 g busy < BitVec.ofNat g i ↔ (freeEntry1 g busy).toNat < i := by
    rw [BitVec.lt_def, hnat]
  rw [busyMask, maskUnit, bitAt_foldl_setBitAt _ _ _ hi]
  simp only [hlt]
  by_cases h : (freeEntry1 g busy).toNat < i
  · simp [h]
  · simp [h, hi, not_lt.mp h]

/-- The mask takes the first free entry away and no other; without one there is nothing to take. -/
theorem freeEntries_masked (hlen : n ≤ 2 ^ g) (busy : BitVec n) :
    freeEntries (busy ||| busyMask g busy) =
      (freeEntries busy).erase (freeEntry1 g busy).toNat := by
  ext i
  rw [Finset.mem_erase, mem_freeEntries, mem_freeEntries]
  by_cases hi : i < n
  · have hor : bitAt (busy ||| busyMask g busy) i = (bitAt busy i || bitAt (busyMask g busy) i) := by
      simp [bitAt]
    rw [hor, bitAt_busyMask hlen busy hi, Bool.or_eq_false_iff, decide_eq_false_iff_not]
    constructor
    · rintro ⟨_, hfree, hlt⟩
      exact ⟨by omega, hi, hfree⟩
    · rintro ⟨hne, _, hfree⟩
      have hmem : i ∈ freeEntries busy := mem_freeEntries.mpr ⟨hi, hfree⟩
      have hen : en1 g busy = true := (PriorityEncoder.en_iff g busy).mpr ⟨i, hmem⟩
      have hle : (freeEntry1 g busy).toNat ≤ i := (PriorityEncoder.out_isLeast hlen hen).2 hmem
      exact ⟨hi, hfree, by omega⟩
  · simp [hi]

theorem en1_iff_nonempty (g : ℕ) (busy : BitVec n) :
    en1 g busy = true ↔ (freeEntries busy).Nonempty := PriorityEncoder.en_iff g busy

theorem freeEntry1_isLeast (hlen : n ≤ 2 ^ g) {busy : BitVec n} (h : en1 g busy = true) :
    IsLeast (freeEntries busy : Set ℕ) (freeEntry1 g busy).toNat :=
  PriorityEncoder.out_isLeast hlen h

theorem en2_iff_nonempty (hlen : n ≤ 2 ^ g) (busy : BitVec n) :
    en2 g busy = true ↔ ((freeEntries busy).erase (freeEntry1 g busy).toNat).Nonempty := by
  rw [← freeEntries_masked hlen]
  exact PriorityEncoder.en_iff g _

theorem freeEntry2_isLeast (hlen : n ≤ 2 ^ g) {busy : BitVec n} (h : en2 g busy = true) :
    IsLeast ((freeEntries busy).erase (freeEntry1 g busy).toNat : Set ℕ)
      (freeEntry2 g busy).toNat := by
  have hleast := PriorityEncoder.out_isLeast hlen h
  rw [freeEntries_masked hlen] at hleast
  exact hleast

section Covered
variable {k : ℕ} (busy : Bits k)

theorem toNat_mem_freeEntries (e : BitVec k) :
    e.toNat ∈ freeEntries busy ↔ bit busy e = false := by
  rw [mem_freeEntries]
  exact and_iff_right e.isLt

theorem exists_mem_freeEntries (p : ℕ → Prop) :
    (∃ i ∈ freeEntries busy, p i) ↔ ∃ e, bit busy e = false ∧ p e.toNat := by
  constructor
  · rintro ⟨i, hi, hp⟩
    have hnat : (BitVec.ofNat k i).toNat = i := by
      rw [BitVec.toNat_ofNat, Nat.mod_eq_of_lt (mem_freeEntries.mp hi).1]
    refine ⟨BitVec.ofNat k i, ?_, by rwa [hnat]⟩
    rwa [← toNat_mem_freeEntries, hnat]
  · rintro ⟨e, he, hp⟩
    exact ⟨e.toNat, (toNat_mem_freeEntries busy e).mpr he, hp⟩

/-- An entry is free exactly when the enable says so. -/
theorem en1_iff : en1 k busy = true ↔ ∃ e, bit busy e = false := by
  rw [en1_iff_nonempty]
  simpa [Finset.Nonempty] using exists_mem_freeEntries busy fun _ => True

/-- The entry that is handed out is free, and no entry below it is. -/
theorem freeEntry1_spec (h : en1 k busy = true) :
    bit busy (freeEntry1 k busy) = false ∧
      ∀ e : BitVec k, e < freeEntry1 k busy → bit busy e = true := by
  obtain ⟨hmem, hleast⟩ := freeEntry1_isLeast (le_refl _) h
  refine ⟨(toNat_mem_freeEntries busy _).mp hmem, ?_⟩
  intro e he
  by_contra hbusy
  have hle := hleast ((toNat_mem_freeEntries busy e).mpr (by simpa using hbusy))
  exact absurd he (BitVec.not_lt.mpr hle)

/-- A second entry is handed out exactly when one behind the first is free. -/
theorem en2_iff : en2 k busy = true ↔ ∃ e, bit busy e = false ∧ freeEntry1 k busy < e := by
  rw [en2_iff_nonempty (le_refl _)]
  have hbehind : ∀ i ∈ freeEntries busy,
      i ≠ (freeEntry1 k busy).toNat ↔ (freeEntry1 k busy).toNat < i := by
    intro i hi
    have hen : en1 k busy = true := (en1_iff_nonempty k busy).mpr ⟨i, hi⟩
    have hle := (freeEntry1_isLeast (le_refl _) hen).2 hi
    omega
  refine Iff.trans ?_ (exists_mem_freeEntries busy fun i => (freeEntry1 k busy).toNat < i)
  simp only [Finset.Nonempty, Finset.mem_erase]
  constructor
  · rintro ⟨i, hne, hi⟩
    exact ⟨i, hi, (hbehind i hi).mp hne⟩
  · rintro ⟨i, hi, hlt⟩
    exact ⟨i, (hbehind i hi).mpr hlt, hi⟩

/-- The second entry is free too, and lies behind the first. -/
theorem freeEntry2_spec (h : en2 k busy = true) :
    bit busy (freeEntry2 k busy) = false ∧ freeEntry1 k busy < freeEntry2 k busy := by
  obtain ⟨hne, hmem⟩ := Finset.mem_erase.mp (freeEntry2_isLeast (le_refl _) h).1
  have hen : en1 k busy = true := (en1_iff_nonempty k busy).mpr ⟨_, hmem⟩
  have hle := (freeEntry1_isLeast (le_refl _) hen).2 hmem
  refine ⟨(toNat_mem_freeEntries busy _).mp hmem, ?_⟩
  rw [BitVec.lt_def]
  omega

end Covered

end AllocateUnit

end HeliosXCore
