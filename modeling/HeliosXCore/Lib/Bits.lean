import Mathlib.Tactic
import Mathlib.Logic.Function.Basic

/-! Packed vectors with one bit for each address, and registers written one bit at a time.

    A `reg [2**k-1:0] v` of a circuit is read and written through `k`-bit addresses: `v[a]` is
    `bit v a` and the assignment `v[a] <= b` is `setBit v a b`. The only fact the proofs need is
    `bit_setBit`: a write changes the addressed bit and no other. -/

namespace Rtl

/-- A packed vector with one bit for each `k`-bit address. -/
abbrev Bits (k : ℕ) := BitVec (2 ^ k)

/-- `v[i]` for a numeric index; an index outside the vector reads 0. -/
def bitAt {n : ℕ} (v : BitVec n) (i : ℕ) : Bool := v.getLsbD i

/-- `v[i] <= b` for a numeric index; an index outside the vector writes nothing. -/
def setBitAt {n : ℕ} (v : BitVec n) (i : ℕ) (b : Bool) : BitVec n :=
  if b then v ||| BitVec.twoPow n i else v &&& ~~~BitVec.twoPow n i

/-- `v[a]` for an address that covers the vector. -/
def bit {k : ℕ} (v : Bits k) (a : BitVec k) : Bool := bitAt v a.toNat

/-- `v[a] <= b` for an address that covers the vector. -/
def setBit {k : ℕ} (v : Bits k) (a : BitVec k) (b : Bool) : Bits k := setBitAt v a.toNat b

theorem bitAt_setBitAt {n : ℕ} (v : BitVec n) (i j : ℕ) (b : Bool) (hj : j < n) :
    bitAt (setBitAt v i b) j = if j = i then b else bitAt v j := by
  unfold bitAt setBitAt
  by_cases h : j = i
  · subst h; cases b <;> simp [hj]
  · have h' : ¬ i = j := fun e => h e.symm
    cases b
    · simp [h, hj]
    · simp [h, h']

/-- A loop that assigns the bits in turn leaves what it assigned. -/
theorem bitAt_foldl_setBitAt {n : ℕ} (f : ℕ → Bool) (m j : ℕ) (hj : j < n) :
    bitAt ((List.range m).foldl (fun v i => setBitAt v i (f i)) (0 : BitVec n)) j =
      (decide (j < m) && f j) := by
  induction m with
  | zero => simp [bitAt]
  | succ m ih =>
    rw [List.range_succ, List.foldl_append, List.foldl_cons, List.foldl_nil,
      bitAt_setBitAt _ _ _ _ hj, ih]
    rcases Nat.lt_trichotomy j m with h | rfl | h
    · simp [Nat.ne_of_lt h, h, Nat.lt_succ_of_lt h]
    · simp
    · simp [Nat.ne_of_gt h, Nat.not_lt.mpr (Nat.le_of_lt h), Nat.not_lt.mpr h]

@[simp] theorem bit_setBit {k : ℕ} (v : Bits k) (a a' : BitVec k) (b : Bool) :
    bit (setBit v a b) a' = if a' = a then b else bit v a' := by
  rw [bit, setBit, bitAt_setBitAt _ _ _ _ a'.isLt, bit]
  simp only [BitVec.toNat_inj]

@[simp] theorem bit_zero {k : ℕ} (a : BitVec k) : bit (0 : Bits k) a = false := by
  simp [bit, bitAt]

/-- Two packed vectors with the same bits are equal. -/
theorem bits_ext {k : ℕ} {v w : Bits k} (h : ∀ a, bit v a = bit w a) : v = w := by
  apply BitVec.eq_of_getLsbD_eq
  intro i hi
  simpa [bit, bitAt, Nat.mod_eq_of_lt hi] using h (BitVec.ofNat k i)

end Rtl
