import HeliosXCore.Rtl.Tag

/-! `DP/RrfEntryAllocate.v`: the allocator of rename tags. Tags are handed out in the order
    1, 2, ..., 63, 1, ...; a 7-bit counter tells a full ring from an empty one. -/

namespace HeliosXCore
open Rtl

/-- The registers of `RrfEntryAllocate`. -/
structure RrfEntryAllocate where
  freenum : BitVec 7
  rrfptr : RrfTag
  nextrrfcyc : Bool
  deriving DecidableEq, Repr

namespace RrfEntryAllocate

/-- `RRF_NUM`. -/
def rrfNum : BitVec 7 := 63

/-- `{1'b0, req_en_i}`. -/
def reqnum (reqEn : Bool) : BitVec 2 := 0#1 ++ BitVec.ofBool reqEn

/-- Evaluated at 32 bits, the width of the literal 1. -/
def rrfptrNextFrom0 (s : RrfEntryAllocate) (reqEn : Bool) : BitVec 7 :=
  ((s.rrfptr.setWidth 32 + (reqnum reqEn).setWidth 32) % (rrfNum.setWidth 32 + 1)).setWidth 7

/-- Tag 0 is left out. -/
def rrfptrNextFrom1 (s : RrfEntryAllocate) (reqEn : Bool) : BitVec 7 :=
  if s.rrfptrNextFrom0 reqEn = 0 then 1 else s.rrfptrNextFrom0 reqEn

/-- `rrfptr` after an accepted request. -/
def rrfptrNext (s : RrfEntryAllocate) (reqEn : Bool) : RrfTag :=
  (s.rrfptrNextFrom1 reqEn).setWidth 6

/-- `rrf_allocatable_o`: the free tags and those freed in this cycle cover the request. -/
def rrfAllocatable (s : RrfEntryAllocate) (comInstNum : BitVec 2) (reqEn : Bool) : Bool :=
  if s.freenum + comInstNum.setWidth 7 < (reqnum reqEn).setWidth 7 then false else true

/-- `dst_rename_rrftag_o`: the tag that is offered, accepted or not. -/
def dstRenameRrftag (s : RrfEntryAllocate) : RrfTag := s.rrfptr

/-- One edge. A stall keeps the pointer; commits are counted all the same. -/
def next (reset stallDp : Bool) (comInstNum : BitVec 2) (reqEn : Bool) (s : RrfEntryAllocate) :
    RrfEntryAllocate :=
  if reset then ⟨rrfNum, 1, false⟩
  else if stallDp then ⟨s.freenum + comInstNum.setWidth 7, s.rrfptr, false⟩
  else
    ⟨s.freenum + comInstNum.setWidth 7 - (reqnum reqEn).setWidth 7, s.rrfptrNext reqEn,
      if s.rrfptr > s.rrfptrNext reqEn then true else false⟩

/-! ### What an edge does -/

theorem rrfptrNext_true (s : RrfEntryAllocate) : s.rrfptrNext true = nextTag s.rrfptr := by
  obtain ⟨f, p, c⟩ := s
  have h : ∀ p : RrfTag, (⟨0, p, false⟩ : RrfEntryAllocate).rrfptrNext true = nextTag p := by
    decide
  exact h p

theorem rrfptrNext_false (s : RrfEntryAllocate) (h0 : s.rrfptr ≠ 0) :
    s.rrfptrNext false = s.rrfptr := by
  obtain ⟨f, p, c⟩ := s
  have h : ∀ p : RrfTag, p ≠ 0 → (⟨0, p, false⟩ : RrfEntryAllocate).rrfptrNext false = p := by
    decide
  exact h p h0

/-- A request is refused exactly when no tag is free and none is freed in the same cycle. -/
theorem rrfAllocatable_eq (s : RrfEntryAllocate) (com req : Bool) (hf : s.freenum.toNat ≤ 63) :
    s.rrfAllocatable (0#1 ++ BitVec.ofBool com) req = (!req || com || s.freenum != 0) := by
  have h : ∀ f : BitVec 7, f.toNat ≤ 63 → ∀ com req : Bool,
      (⟨f, 0, false⟩ : RrfEntryAllocate).rrfAllocatable (0#1 ++ BitVec.ofBool com) req =
        (!req || com || f != 0) := by
    decide
  exact h s.freenum hf com req

/-- The counter after an edge: a commit adds one, an accepted request takes one. -/
theorem freenum_next (s : RrfEntryAllocate) (com req stall : Bool)
    (hf : s.freenum.toNat + com.toNat ≤ 63)
    (hs : stall = !s.rrfAllocatable (0#1 ++ BitVec.ofBool com) req) :
    (s.next false stall (0#1 ++ BitVec.ofBool com) req).freenum.toNat + (req && !stall).toNat =
      s.freenum.toNat + com.toNat := by
  rw [rrfAllocatable_eq s com req (by omega)] at hs
  subst hs
  cases com with
  | true =>
    cases req with
    | false =>
      simp [next, reqnum] at hf ⊢
      omega
    | true =>
      have hadd : s.freenum + 1#7 - 1#7 = s.freenum := by bv_omega
      simp [next, reqnum, hadd]
  | false =>
    cases req with
    | false => simp [next, reqnum]
    | true =>
      by_cases h0 : s.freenum = 0#7
      · simp [next, h0]
      · have : s.freenum.toNat ≠ 0 := fun h => h0 (BitVec.eq_of_toNat_eq h)
        have hb : (s.freenum != 0#7) = true := bne_iff_ne.mpr h0
        simp [next, reqnum, hb] at hf ⊢
        omega

/-- Without a request only the commit is counted. -/
theorem freenum_next_idle (s : RrfEntryAllocate) (com stall : Bool) :
    (s.next false stall (0#1 ++ BitVec.ofBool com) false).freenum =
      s.freenum + (BitVec.ofBool com).setWidth 7 := by
  have hcom : (0#1 ++ BitVec.ofBool com : BitVec 2).setWidth 7 = (BitVec.ofBool com).setWidth 7 := by
    cases com <;> rfl
  cases stall <;> simp [next, reqnum, hcom]

theorem rrfptr_next (s : RrfEntryAllocate) (com : BitVec 2) (req stall : Bool)
    (h0 : s.rrfptr ≠ 0) :
    (s.next false stall com req).rrfptr = if req && !stall then nextTag s.rrfptr else s.rrfptr := by
  cases stall
  · cases req
    · simpa [next] using rrfptrNext_false s h0
    · simpa [next] using rrfptrNext_true s
  · simp [next]

/-- The allocator reports a new lap in the cycle after it has handed out the last tag. -/
theorem nextrrfcyc_next (s : RrfEntryAllocate) (com : BitVec 2) (req stall : Bool)
    (h0 : s.rrfptr ≠ 0) :
    (s.next false stall com req).nextrrfcyc = (req && !stall && s.rrfptr == 63) := by
  obtain ⟨f, p, c⟩ := s
  have h : ∀ p : RrfTag, p ≠ 0 → ∀ req : Bool,
      (if p > (⟨0, p, false⟩ : RrfEntryAllocate).rrfptrNext req then true else false) =
        (req && p == 63) := by
    decide
  cases stall
  · exact (h p h0 req).trans (by rw [Bool.not_false, Bool.and_true])
  · cases req <;> rfl

end RrfEntryAllocate

end HeliosXCore
