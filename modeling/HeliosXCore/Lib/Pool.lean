import Mathlib.Tactic
import Mathlib.Data.Set.Function

/-! A pool of places for the items of a stream.

    Items are numbered in the order in which they are put into free places, and taken out in any
    order. `Exact` says that the places in use hold just the items that have not been taken, each
    once; `Keeps` relates what a store has at a place to the item that was put there. -/

namespace Rtl

/-- The places in use, the item each place was given last, the items given so far and how often each
    was taken. -/
structure Pool (α β : Type) where
  used : Set α
  holder : α → ℕ
  given : ℕ
  item : ℕ → β
  taken : ℕ → ℕ

namespace Pool
variable {α β γ : Type}

def empty (b : β) : Pool α β := ⟨∅, fun _ => 0, 0, fun _ => b, fun _ => 0⟩

/-- The items that have been given and not taken. -/
def waiting (p : Pool α β) : Set ℕ := {k | k < p.given ∧ p.taken k = 0}

/-- The store `f` has at each place in use something that `R` relates to the item there. -/
def Keeps (p : Pool α β) (R : β → γ → Prop) (f : α → γ) : Prop :=
  ∀ c, c ∈ p.used → R (p.item (p.holder c)) (f c)

/-- The places in use hold the waiting items, each once, and nothing is taken twice. -/
structure Exact (p : Pool α β) : Prop where
  bij : Set.BijOn p.holder p.used p.waiting
  once : ∀ k, p.taken k ≤ 1
  fresh : ∀ k, p.given ≤ k → p.taken k = 0

theorem exact_empty (b : β) : (empty b : Pool α β).Exact := by
  refine ⟨⟨?_, ?_, ?_⟩, fun k => Nat.zero_le 1, fun k _ => rfl⟩
  · rintro a ha
    cases ha
  · rintro a ha
    cases ha
  · rintro k ⟨hk, _⟩
    exact absurd hk (Nat.not_lt_zero k)

theorem Exact.lt {p : Pool α β} (h : p.Exact) {c : α} (hc : c ∈ p.used) : p.holder c < p.given :=
  (h.bij.mapsTo hc).1

/-! ### Taking an item out -/

/-- What place `a` holds is taken out. -/
def take (p : Pool α β) (a : α) : Pool α β where
  used := p.used \ {a}
  holder := p.holder
  given := p.given
  item := p.item
  taken := Function.update p.taken (p.holder a) (p.taken (p.holder a) + 1)

section Take
variable (p : Pool α β) (a : α)

theorem mem_used_take {c : α} : c ∈ (p.take a).used ↔ c ∈ p.used ∧ c ≠ a := Iff.rfl

theorem taken_take_self : (p.take a).taken (p.holder a) = p.taken (p.holder a) + 1 :=
  Function.update_self _ _ _

theorem taken_take_of_ne {k : ℕ} (hk : k ≠ p.holder a) : (p.take a).taken k = p.taken k :=
  Function.update_of_ne hk _ _

end Take

theorem Exact.take {p : Pool α β} {a : α} (h : p.Exact) (ha : a ∈ p.used) : (p.take a).Exact where
  bij := by
    refine ⟨?_, ?_, ?_⟩
    · rintro c ⟨hc, hca⟩
      obtain ⟨hlt, h0⟩ := h.bij.mapsTo hc
      have hne : p.holder c ≠ p.holder a := fun he => hca (h.bij.injOn hc ha he)
      exact ⟨hlt, (p.taken_take_of_ne a hne).trans h0⟩
    · rintro c ⟨hc, _⟩ d ⟨hd, _⟩ hcd
      exact h.bij.injOn hc hd hcd
    · rintro k ⟨hk, h0⟩
      have hne : k ≠ p.holder a := by
        rintro rfl
        rw [p.taken_take_self] at h0
        exact Nat.succ_ne_zero _ h0
      rw [p.taken_take_of_ne a hne] at h0
      obtain ⟨c, hc, rfl⟩ := h.bij.surjOn ⟨hk, h0⟩
      exact ⟨c, ⟨hc, fun he => hne (congrArg p.holder he)⟩, rfl⟩
  once := by
    intro k
    by_cases hk : k = p.holder a
    · rw [hk, p.taken_take_self, (h.bij.mapsTo ha).2]
    · rw [p.taken_take_of_ne a hk]
      exact h.once k
  fresh := by
    intro k hk
    have hne : k ≠ p.holder a := by
      rintro rfl
      exact absurd (h.lt ha) (Nat.not_lt.mpr hk)
    rw [p.taken_take_of_ne a hne]
    exact h.fresh k hk

/-! ### Putting an item in -/

variable [DecidableEq α]

/-- The next item goes to place `a`. -/
def put (p : Pool α β) (a : α) (b : β) : Pool α β where
  used := insert a p.used
  holder := Function.update p.holder a p.given
  given := p.given + 1
  item := Function.update p.item p.given b
  taken := p.taken

section Put
variable (p : Pool α β) (a : α) (b : β)

theorem mem_used_put {c : α} : c ∈ (p.put a b).used ↔ c = a ∨ c ∈ p.used := Iff.rfl

theorem holder_put_self : (p.put a b).holder a = p.given := Function.update_self _ _ _

theorem holder_put_of_ne {c : α} (hc : c ≠ a) : (p.put a b).holder c = p.holder c :=
  Function.update_of_ne hc _ _

theorem item_put_self : (p.put a b).item p.given = b := Function.update_self _ _ _

theorem item_put_of_lt {k : ℕ} (hk : k < p.given) : (p.put a b).item k = p.item k :=
  Function.update_of_ne (Nat.ne_of_lt hk) _ _

end Put

variable {p : Pool α β} {a : α}

theorem Exact.put (h : p.Exact) (ha : a ∉ p.used) (b : β) : (p.put a b).Exact where
  bij := by
    have hold : ∀ c, c ∈ p.used → (p.put a b).holder c = p.holder c := by
      rintro c hc
      refine p.holder_put_of_ne a b ?_
      rintro rfl
      exact ha hc
    have hnew := p.holder_put_self a b
    refine ⟨?_, ?_, ?_⟩
    · rintro c (rfl | hc)
      · rw [hnew]
        exact ⟨Nat.lt_succ_self _, h.fresh _ (le_refl _)⟩
      · rw [hold c hc]
        obtain ⟨hlt, h0⟩ := h.bij.mapsTo hc
        exact ⟨Nat.lt_succ_of_lt hlt, h0⟩
    · rintro c (rfl | hc) d (rfl | hd) hcd
      · rfl
      · rw [hnew, hold d hd] at hcd
        exact absurd (h.lt hd) (by omega)
      · rw [hnew, hold c hc] at hcd
        exact absurd (h.lt hc) (by omega)
      · rw [hold c hc, hold d hd] at hcd
        exact h.bij.injOn hc hd hcd
    · rintro k ⟨hk, h0⟩
      rcases Nat.lt_succ_iff_lt_or_eq.mp hk with hlt | rfl
      · obtain ⟨c, hc, rfl⟩ := h.bij.surjOn ⟨hlt, h0⟩
        exact ⟨c, Or.inr hc, hold c hc⟩
      · exact ⟨a, Or.inl rfl, hnew⟩
  once := h.once
  fresh := fun k hk => h.fresh k (Nat.le_of_succ_le hk)

/-! ### What a store keeps of the items -/

section Keeps
variable {R : β → γ → Prop} {f f' : α → γ}

omit [DecidableEq α] in
theorem keeps_empty (b : β) : (empty b : Pool α β).Keeps R f := by
  rintro c hc
  cases hc

omit [DecidableEq α] in
theorem Keeps.mono (h : p.Keeps R f) (hf : ∀ c, c ∈ p.used → ∀ b, R b (f c) → R b (f' c)) :
    p.Keeps R f' := fun c hc => hf c hc _ (h c hc)

omit [DecidableEq α] in
theorem Keeps.take (h : p.Keeps R f) (a : α) : (p.take a).Keeps R f := fun c hc => h c hc.1

theorem Keeps.put (h : p.Keeps R f) (he : p.Exact) (ha : a ∉ p.used) {b : β} (hR : R b (f a)) :
    (p.put a b).Keeps R f := by
  rintro c (rfl | hc)
  · rw [holder_put_self, item_put_self]
    exact hR
  · have hca : c ≠ a := by
      rintro rfl
      exact ha hc
    rw [p.holder_put_of_ne a b hca, p.item_put_of_lt a b (he.lt hc)]
    exact h c hc

end Keeps

end Pool

end Rtl
