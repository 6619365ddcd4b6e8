import Mathlib.Tactic

/-! A tournament over consecutive positions in which the smaller value goes on and the later position
    wins a tie. Whatever the tree, the winner of a range is the last position of a least value. -/

namespace Rtl
variable {β : Type} [LinearOrder β] {v : ℕ → β} {lo mid hi a b k : ℕ}

/-- `k` is the last position from `lo` up to `hi` with a least value. -/
structure LastMin (v : ℕ → β) (lo hi k : ℕ) : Prop where
  lo_le : lo ≤ k
  lt_hi : k < hi
  le : ∀ j, lo ≤ j → j < hi → v k ≤ v j
  lt : ∀ j, k < j → j < hi → v k < v j

/-- The position that goes on from a match of `a` and `b`. -/
def winner (v : ℕ → β) (a b : ℕ) : ℕ := if v a < v b then a else b

namespace LastMin

theorem single (v : ℕ → β) (k : ℕ) : LastMin v k (k + 1) k where
  lo_le := le_refl k
  lt_hi := Nat.lt_succ_self k
  le := by
    intro j hj hj'
    rw [show j = k by omega]
  lt := by
    intro j hj hj'
    omega

/-- A match of the winners of two neighbouring ranges finds the winner of both. -/
theorem join (ha : LastMin v lo mid a) (hb : LastMin v mid hi b) : LastMin v lo hi (winner v a b) := by
  have hamid := ha.lt_hi
  have hbmid := hb.lo_le
  have halo := ha.lo_le
  have hbhi := hb.lt_hi
  unfold winner
  split_ifs with h
  · refine ⟨halo, by omega, ?_, ?_⟩
    · intro j hj hj'
      rcases Nat.lt_or_ge j mid with hjm | hjm
      · exact ha.le j hj hjm
      · exact h.le.trans (hb.le j hjm hj')
    · intro j hj hj'
      rcases Nat.lt_or_ge j mid with hjm | hjm
      · exact ha.lt j hj hjm
      · exact h.trans_le (hb.le j hjm hj')
  · have hba : v b ≤ v a := not_lt.mp h
    refine ⟨by omega, hbhi, ?_, ?_⟩
    · intro j hj hj'
      rcases Nat.lt_or_ge j mid with hjm | hjm
      · exact hba.trans (ha.le j hj hjm)
      · exact hb.le j hjm hj'
    · intro j hj hj'
      exact hb.lt j hj hj'

theorem isGreatest (h : LastMin v lo hi k) :
    IsGreatest {k | lo ≤ k ∧ k < hi ∧ ∀ j, lo ≤ j → j < hi → v k ≤ v j} k := by
  refine ⟨⟨h.lo_le, h.lt_hi, h.le⟩, ?_⟩
  rintro j ⟨_, hj, hle⟩
  by_contra hlt
  exact absurd (hle k h.lo_le h.lt_hi) (not_le.mpr (h.lt j (by omega) hj))

end LastMin

end Rtl
