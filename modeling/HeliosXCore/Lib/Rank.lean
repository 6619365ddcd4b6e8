import Mathlib.Tactic
import Mathlib.Data.Finset.Max
import Mathlib.Data.Fintype.Card

/-! The places of a finite store ordered by the age of what they hold. `p` says which places are in
    use and `f` numbers their contents by age. -/

namespace Rtl
variable {α : Type} [Fintype α] {p p' : α → Prop} [DecidablePred p] [DecidablePred p'] {f f' : α → ℕ}

/-- How many places in use hold something as old as place `a` or older. -/
def rank (p : α → Prop) [DecidablePred p] (f : α → ℕ) (a : α) : ℕ :=
  (Finset.univ.filter fun b => p b ∧ f b ≤ f a).card

theorem rank_le_card (a : α) : rank p f a ≤ Fintype.card α := Finset.card_le_univ _

theorem rank_pos {a : α} (ha : p a) : 0 < rank p f a :=
  Finset.card_pos.mpr ⟨a, by simp [ha]⟩

/-- When nothing as old comes in, the rank does not grow. -/
theorem rank_le_rank {a : α} (h : ∀ b, p' b → f' b ≤ f' a → p b ∧ f b ≤ f a) :
    rank p' f' a ≤ rank p f a := by
  refine Finset.card_le_card ?_
  intro b hb
  simp only [Finset.mem_filter, Finset.mem_univ, true_and] at hb ⊢
  exact h b hb.1 hb.2

/-- When moreover something as old has left, the rank has dropped. -/
theorem rank_lt_rank {a c : α} (h : ∀ b, p' b → f' b ≤ f' a → p b ∧ f b ≤ f a) (hc : p c)
    (hca : f c ≤ f a) (hc' : ¬ p' c) : rank p' f' a < rank p f a := by
  refine Finset.card_lt_card (Finset.ssubset_iff_subset_ne.mpr ⟨?_, ?_⟩)
  · intro b hb
    simp only [Finset.mem_filter, Finset.mem_univ, true_and] at hb ⊢
    exact h b hb.1 hb.2
  · intro heq
    have hmem : c ∈ Finset.univ.filter fun b => p b ∧ f b ≤ f a := by simp [hc, hca]
    rw [← heq] at hmem
    simp only [Finset.mem_filter] at hmem
    exact hc' hmem.2.1

/-- A store that is in use has an oldest place. -/
theorem exists_oldest {a : α} (ha : p a) : ∃ b, p b ∧ ∀ c, p c → f b ≤ f c := by
  obtain ⟨b, hb, hmin⟩ := Finset.exists_min_image (Finset.univ.filter p) f ⟨a, by simp [ha]⟩
  simp only [Finset.mem_filter, Finset.mem_univ, true_and] at hb hmin
  exact ⟨b, hb, hmin⟩

end Rtl
