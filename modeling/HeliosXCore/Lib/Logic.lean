import HeliosXCore.Lib.Bits

/-! Bits that may be unknown, as a simulator propagates them. A bit-select outside its vector is
    unknown, and an operator gives a known result only where the unknown operand does not matter. -/

namespace Rtl

inductive Logic where
  | known (b : Bool)
  | x
  deriving DecidableEq, Repr

namespace Logic

/-- `~a` of one bit. -/
def not : Logic → Logic
  | known b => known !b
  | x => x

/-- `a && b`: a known 0 decides. -/
def and : Logic → Logic → Logic
  | known false, _ => known false
  | known true, b => b
  | x, known false => known false
  | x, _ => x

/-- `c ? a : b`: for an unknown condition the branches are merged. -/
def select (c a b : Logic) : Logic :=
  match c with
  | known true => a
  | known false => b
  | x => if a = b then a else x

/-- The value `b` is one that the bit may have. -/
def Allows (a : Logic) (b : Bool) : Prop := a = x ∨ a = known b

instance (a : Logic) (b : Bool) : Decidable (a.Allows b) := inferInstanceAs (Decidable (_ ∨ _))

@[simp] theorem allows_known {b b' : Bool} : (known b).Allows b' ↔ b = b' := by
  simp [Allows]

@[simp] theorem allows_x (b : Bool) : x.Allows b := Or.inl rfl

theorem Allows.not {a : Logic} {b : Bool} (h : a.Allows b) : a.not.Allows !b := by
  rcases h with rfl | rfl <;> simp [Logic.not]

theorem Allows.and {a a' : Logic} {b b' : Bool} (h : a.Allows b) (h' : a'.Allows b') :
    (a.and a').Allows (b && b') := by
  rcases h with rfl | rfl <;> rcases h' with rfl | rfl <;> revert b b' <;> decide

theorem Allows.select {c : Logic} {b : Bool} (h : c.Allows b) :
    (c.select (known true) (known false)).Allows b := by
  rcases h with rfl | rfl <;> cases b <;> decide

end Logic

/-- `v[i]` for a numeric index. -/
def bitSelect {n : ℕ} (v : BitVec n) (i : ℕ) : Logic := if i < n then .known (bitAt v i) else .x

theorem bitSelect_of_lt {n : ℕ} (v : BitVec n) {i : ℕ} (h : i < n) :
    bitSelect v i = .known (bitAt v i) := if_pos h

theorem bitSelect_of_le {n : ℕ} (v : BitVec n) {i : ℕ} (h : n ≤ i) : bitSelect v i = .x :=
  if_neg (Nat.not_lt.mpr h)

/-- A read that gives 0 outside the vector is one of the possible ones. -/
theorem bitSelect_allows {n : ℕ} (v : BitVec n) (i : ℕ) : (bitSelect v i).Allows (bitAt v i) := by
  rcases Nat.lt_or_ge i n with h | h
  · simp [bitSelect_of_lt v h]
  · simp [bitSelect_of_le v h]

end Rtl
