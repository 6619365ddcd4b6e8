import HeliosXCore.Lib.Ring
import HeliosXCore.Rtl.Consts

/-! Rename tags as the places of a ring: the `i`-th register-writing instruction is given `tagOf i`,
    in the order 1, 2, ..., 63, 1. -/

namespace HeliosXCore
open Rtl

/-- The tag after `t` in the order 1, 2, ..., 63, 1. -/
def nextTag (t : RrfTag) : RrfTag := if t = 63 then 1 else t + 1

/-- The tag of the `i`-th register-writing instruction, from 0. -/
def tagOf (i : ℕ) : RrfTag := BitVec.ofNat 6 (slot 63 i)

theorem toNat_tagOf (i : ℕ) : (tagOf i).toNat = slot 63 i := by
  have := slot_le (N := 63) (by omega) i
  rw [tagOf, BitVec.toNat_ofNat, Nat.mod_eq_of_lt (by omega)]

theorem tagOf_ne_zero (i : ℕ) : tagOf i ≠ 0 := by
  intro h
  have h' := congrArg BitVec.toNat h
  have := slot_pos 63 i
  rw [toNat_tagOf] at h'
  simp at h'
  omega

/-- The last tag of a lap. -/
theorem tagOf_eq_63_iff (i : ℕ) : tagOf i = 63 ↔ i % 63 = 62 := by
  rw [← BitVec.toNat_inj, toNat_tagOf, slot, show (63 : RrfTag).toNat = 63 from rfl]
  omega

theorem tagOf_inj {i j : ℕ} (hij : i ≤ j) (hj : j < i + 63) (h : tagOf i = tagOf j) : i = j := by
  have h' := congrArg BitVec.toNat h
  rw [toNat_tagOf, toNat_tagOf] at h'
  exact slot_inj hij hj h'

/-- Tags tell apart any two indices of one window. -/
theorem tagOf_eq_iff {b i j : ℕ} (hi : b ≤ i) (hi' : i < b + 63) (hj : b ≤ j) (hj' : j < b + 63) :
    tagOf i = tagOf j ↔ i = j := by
  refine ⟨?_, fun h => by rw [h]⟩
  intro h
  rcases Nat.le_total i j with hle | hle
  · exact tagOf_inj hle (by omega) h
  · exact (tagOf_inj hle (by omega) h.symm).symm

theorem tagOf_succ (i : ℕ) : tagOf (i + 1) = nextTag (tagOf i) := by
  have hle := slot_le (N := 63) (by omega) i
  apply BitVec.eq_of_toNat_eq
  rw [toNat_tagOf, slot_succ (by omega), nextTag, slotSucc]
  by_cases h : slot 63 i = 63
  · rw [if_pos h, if_pos (by rw [tagOf, h]; rfl)]; rfl
  · have h' : tagOf i ≠ 63 := fun e => h (by rw [← toNat_tagOf, e]; rfl)
    rw [if_neg h, if_neg h', BitVec.toNat_add, toNat_tagOf]
    simp
    omega

theorem tagOf_add (i : ℕ) : tagOf (i + 63) = tagOf i := by rw [tagOf, slot_add]; rfl

/-- Following the tags from that of `i` meets the tags of `i`, `i + 1` and so on. -/
theorem iterate_nextTag (i n : ℕ) : nextTag^[n] (tagOf i) = tagOf (i + n) := by
  induction n with
  | zero => rfl
  | succ n ih => rw [Function.iterate_succ_apply', ih, ← tagOf_succ]; rfl

theorem list_iterate_nextTag (i n : ℕ) :
    List.iterate nextTag (tagOf i) n = (List.range' i n).map tagOf := by
  induction n generalizing i with
  | zero => rfl
  | succ n ih => rw [List.iterate, ← tagOf_succ, ih, List.range'_succ, List.map_cons]

/-- At most 63 consecutive instructions have different tags. -/
theorem nodup_tags {i n : ℕ} (hn : n ≤ 63) : ((List.range' i n).map tagOf).Nodup := by
  rw [List.nodup_map_iff_inj_on List.nodup_range']
  intro a ha b hb hab
  rw [List.mem_range'_1] at ha hb
  exact (tagOf_eq_iff ha.1 (by omega) hb.1 (by omega)).mp hab

/-- Every tag but 0 is that of one of 63 consecutive instructions. -/
theorem exists_tagOf (i : ℕ) {t : RrfTag} (ht : t ≠ 0) : ∃ j, i ≤ j ∧ j < i + 63 ∧ tagOf j = t := by
  have h0 : 0 < t.toNat := by
    rw [Nat.pos_iff_ne_zero]
    exact fun h => ht (BitVec.eq_of_toNat_eq h)
  obtain ⟨j, hj, hj', hs⟩ := slot_surj (N := 63) i t.toNat h0 (by have := t.isLt; omega)
  exact ⟨j, hj, hj', BitVec.eq_of_toNat_eq (by rw [toNat_tagOf, hs])⟩

end HeliosXCore
