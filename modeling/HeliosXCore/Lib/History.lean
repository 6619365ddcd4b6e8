import Mathlib.Tactic
import Mathlib.Data.Nat.Nth

/-! The first and the last time something holds in a stream of events, and the last entry for a key in
    a list of them. -/

namespace Rtl
variable (p : ℕ → Prop) [DecidablePred p]

/-- The last index below `n` at which `p` holds. -/
def lastBefore : ℕ → Option ℕ
  | 0 => none
  | n + 1 => if p n then some n else lastBefore n

@[simp] theorem lastBefore_zero : lastBefore p 0 = none := rfl

theorem lastBefore_succ (n : ℕ) :
    lastBefore p (n + 1) = if p n then some n else lastBefore p n := rfl

variable {p}

theorem lastBefore_lt {n i : ℕ} (h : lastBefore p n = some i) : i < n ∧ p i := by
  induction n with
  | zero => cases h
  | succ n ih =>
    rw [lastBefore_succ] at h
    split at h
    · rename_i hp
      obtain rfl : n = i := Option.some.inj h
      exact ⟨Nat.lt_succ_self _, hp⟩
    · exact ⟨Nat.lt_succ_of_lt (ih h).1, (ih h).2⟩

/-- Nothing between the last index and the bound satisfies `p`. -/
theorem not_of_lastBefore {n i j : ℕ} (h : lastBefore p n = some i) (hij : i < j) (hj : j < n) :
    ¬ p j := by
  induction n with
  | zero => cases h
  | succ n ih =>
    rw [lastBefore_succ] at h
    split at h
    · obtain rfl : n = i := Option.some.inj h
      omega
    · rename_i hp
      rcases Nat.lt_succ_iff_lt_or_eq.mp hj with hlt | rfl
      · exact ih h hlt
      · exact hp

theorem lastBefore_eq_none {n : ℕ} : lastBefore p n = none ↔ ∀ i, i < n → ¬ p i := by
  induction n with
  | zero => simp
  | succ n ih =>
    rw [lastBefore_succ]
    split
    · rename_i hp
      exact ⟨fun h => absurd h (by simp), fun h => absurd hp (h n (Nat.lt_succ_self n))⟩
    · rename_i hp
      rw [ih]
      refine ⟨?_, fun h i hi => h i (Nat.lt_succ_of_lt hi)⟩
      intro h i hi
      rcases Nat.lt_succ_iff_lt_or_eq.mp hi with hlt | rfl
      · exact h i hlt
      · exact hp

theorem lastBefore_congr {q : ℕ → Prop} [DecidablePred q] {n : ℕ} (h : ∀ i, i < n → (p i ↔ q i)) :
    lastBefore p n = lastBefore q n := by
  induction n with
  | zero => rfl
  | succ n ih =>
    rw [lastBefore_succ, lastBefore_succ, ih fun i hi => h i (Nat.lt_succ_of_lt hi)]
    simp only [h n (Nat.lt_succ_self n)]

/-- Nothing at or after `m` satisfies `p`, so the bound can be lowered to `m`. -/
theorem lastBefore_of_le {m n : ℕ} (hmn : m ≤ n) (h : ∀ i, m ≤ i → i < n → ¬ p i) :
    lastBefore p n = lastBefore p m := by
  induction n with
  | zero => rw [Nat.le_zero.mp hmn]
  | succ n ih =>
    rcases Nat.lt_or_ge n m with hlt | hge
    · rw [show m = n + 1 by omega]
    · rw [lastBefore_succ, if_neg (h n hge (Nat.lt_succ_self n)),
        ih hge fun i hi hi' => h i hi (Nat.lt_succ_of_lt hi')]

/-- A loop over the indices `1, ..., m` that overwrites its result at each one that satisfies `p`
    ends with the result of the last of them. -/
theorem foldl_range'_last {α : Type} (f : ℕ → α) (init : α) (m : ℕ) :
    (List.range' 1 m).foldl (fun acc i => if p i then f i else acc) init =
      match lastBefore (fun i => 0 < i ∧ p i) (m + 1) with
      | some j => f j
      | none => init := by
  induction m with
  | zero => simp [lastBefore_succ]
  | succ m ih =>
    have hm : 1 + 1 * m = m + 1 := by omega
    rw [List.range'_concat, hm, List.foldl_append, ih, lastBefore_succ _ (m + 1)]
    by_cases hp : p (m + 1) <;> simp [hp]

/-- The same for a loop over the indices `0, ..., m - 1`. -/
theorem foldl_range_last {α : Type} (f : ℕ → α) (init : α) (m : ℕ) :
    (List.range m).foldl (fun acc i => if p i then f i else acc) init =
      match lastBefore p m with
      | some j => f j
      | none => init := by
  induction m with
  | zero => rfl
  | succ m ih =>
    rw [List.range_succ, List.foldl_append, ih, lastBefore_succ]
    by_cases hp : p m <;> simp [hp]

/-- A condition that does not always hold has a first cycle in which it fails. -/
theorem exists_first_failure {P : ℕ → Prop} {N : ℕ} (h : ¬ ∀ n, n < N → P n) :
    ∃ n, n < N ∧ ¬ P n ∧ ∀ k, k < n → P k := by
  classical
  push Not at h
  obtain ⟨hN, hP⟩ := Nat.find_spec h
  refine ⟨Nat.find h, hN, hP, ?_⟩
  intro k hk
  by_contra hk'
  exact Nat.find_min h hk ⟨by omega, hk'⟩

/-- A count that starts at `k` or below and ends above passes `k` in some step. -/
theorem exists_crossing {f : ℕ → ℕ} {k n : ℕ} (h0 : f 0 ≤ k) (hn : k < f n) :
    ∃ c, c < n ∧ f c ≤ k ∧ k < f (c + 1) := by
  induction n with
  | zero => omega
  | succ n ih =>
    rcases Nat.lt_or_ge k (f n) with hlt | hge
    · obtain ⟨c, hc, hle, hgt⟩ := ih hlt
      exact ⟨c, by omega, hle, hgt⟩
    · exact ⟨n, Nat.lt_succ_self n, hge, hn⟩

/-- A flag that loads set and releases clear has been set by a last load, and not released since. -/
theorem exists_last_load {b L I : ℕ → Prop} (h0 : ¬ b 0)
    (hb : ∀ j, b (j + 1) → ¬ I j ∧ (L j ∨ b j)) {n : ℕ} (hn : b n) :
    ∃ c, c < n ∧ L c ∧ ∀ j, c < j → j < n → ¬ L j ∧ ¬ I j := by
  induction n with
  | zero => exact absurd hn h0
  | succ n ih =>
    obtain ⟨hi, hor⟩ := hb n hn
    by_cases hl : L n
    · exact ⟨n, Nat.lt_succ_self n, hl, fun j hj hj' => by omega⟩
    · obtain ⟨c, hc, hlc, hno⟩ := ih (hor.resolve_left hl)
      refine ⟨c, by omega, hlc, ?_⟩
      intro j hj hj'
      rcases Nat.lt_succ_iff_lt_or_eq.mp hj' with hlt | rfl
      · exact hno j hj hlt
      · exact ⟨hl, hi⟩

/-- A prefix of a filtered list that nothing stops lies in front of the first that stops. -/
theorem prefix_filter_takeWhile {α : Type} {p stop : α → Bool} (hp : ∀ a, stop a = true → p a = true)
    {l q : List α} (h : q <+: l.filter p) (hq : ∀ a ∈ q, stop a = false) :
    q <+: (l.takeWhile fun a => !stop a).filter p := by
  induction l generalizing q with
  | nil => exact h
  | cons a l ih =>
    cases hpa : p a with
    | false =>
      have hs : stop a = false := by
        rw [← Bool.not_eq_true]
        intro hs
        rw [hp a hs] at hpa
        cases hpa
      rw [List.filter_cons, hpa] at h
      rw [List.takeWhile_cons, hs, Bool.not_false, if_pos rfl, List.filter_cons, hpa]
      exact ih h hq
    | true =>
      rw [List.filter_cons, hpa, if_pos rfl] at h
      rcases List.prefix_cons_iff.mp h with rfl | ⟨t, rfl, ht⟩
      · exact List.nil_prefix
      · have hs := hq a List.mem_cons_self
        rw [List.takeWhile_cons, hs, Bool.not_false, if_pos rfl, List.filter_cons, hpa, if_pos rfl,
          List.prefix_cons_inj]
        exact ih ht fun b hb => hq b (List.mem_cons_of_mem a hb)

/-- The indices below `n` at which `p` holds, as the first ones of them all. -/
theorem filter_range_eq_map_nth (n : ℕ) :
    (List.range n).filter p = (List.range (Nat.count p n)).map (Nat.nth p) := by
  induction n with
  | zero => rw [Nat.count_zero, List.range_zero, List.filter_nil, List.map_nil]
  | succ n ih =>
    rw [List.range_succ, List.filter_append, ih, Nat.count_succ, List.filter_singleton]
    by_cases hp : p n
    · rw [if_pos hp, List.range_succ, List.map_append, List.map_singleton, Nat.nth_count hp,
        decide_eq_true hp, cond_true]
    · rw [if_neg hp, decide_eq_false hp, cond_false, List.append_nil, Nat.add_zero]

/-! ### The last entry for a key -/

section Keys
variable {α β : Type} [DecidableEq α]

/-- The value of the last entry for key `a`. -/
def lastFor (a : α) : List (α × β) → Option β
  | [] => none
  | p :: q => (lastFor a q).or (if p.1 = a then some p.2 else none)

theorem lastFor_cons (a : α) (p : α × β) (q : List (α × β)) :
    lastFor a (p :: q) = (lastFor a q).or (if p.1 = a then some p.2 else none) := rfl

/-- A new entry is the last one for its key. -/
theorem lastFor_concat (a : α) (q : List (α × β)) (p : α × β) :
    lastFor a (q ++ [p]) = if p.1 = a then some p.2 else lastFor a q := by
  induction q with
  | nil => simp [lastFor]
  | cons x q ih =>
    rw [List.cons_append, lastFor_cons, lastFor_cons, ih]
    split_ifs <;> simp

theorem mem_of_lastFor {a : α} {q : List (α × β)} {b : β} (h : lastFor a q = some b) :
    (a, b) ∈ q := by
  induction q with
  | nil => cases h
  | cons p q ih =>
    rw [lastFor_cons] at h
    cases hq : lastFor a q with
    | some b' =>
      rw [hq] at h
      obtain rfl : b' = b := by simpa using h
      exact List.mem_cons_of_mem _ (ih hq)
    | none =>
      rw [hq] at h
      by_cases hp : p.1 = a
      · obtain rfl : p.2 = b := by simpa [hp] using h
        subst hp
        exact List.mem_cons_self
      · simp [hp] at h

theorem isSome_lastFor {a : α} {q : List (α × β)} :
    (lastFor a q).isSome = true ↔ ∃ p ∈ q, p.1 = a := by
  induction q with
  | nil => simp [lastFor]
  | cons p q ih =>
    rw [lastFor_cons, Option.isSome_or, Bool.or_eq_true, ih]
    by_cases hp : p.1 = a <;> simp [hp]

end Keys

end Rtl
