import Mathlib.Data.Nat.Count
import HeliosXCore.Fetch.System

/-! Fetch order. A word reaches `IDUnit` when neither its cycle nor the one before is a stall, and
    always with its own address; but a stall drops the word in the instruction register and the one
    behind it, and repeats an address, so the words after it are not the next ones. -/

namespace HeliosXCore
open Rtl

namespace Fetch
open FetchSys (stateAt)

section Taken
variable (imem : Word → Word) (s : Fetch) (stall : ℕ → Bool)

/-- The decoding of the `k`-th word of the program. -/
def wordOf (k : ℕ) : IDUnit := IDUnit.ofInst (imem (wordAddr k)) (wordAddr k)

/-- The instructions with a destination that `IDUnit` presents and the next stage takes. -/
def taken : ℕ → List IDUnit
  | 0 => []
  | n + 1 => taken n ++
      if !stall n && (stateAt imem s stall n).hw.idUnit.dec.wrReg then
        [(stateAt imem s stall n).hw.idUnit]
      else []

/-- The `k`-th taken instruction is that of the `k`-th word, with its address. -/
def InOrder (n : ℕ) : Prop := ∀ k x, (taken imem s stall n)[k]? = some x → x = wordOf imem k

/-- In cycle `c` a word moves from the instruction register to `IDUnit`. -/
def passes (c : ℕ) : Prop := 2 ≤ c ∧ stall (c - 1) = false ∧ stall c = false

instance : DecidablePred (passes stall) := fun _ => inferInstanceAs (Decidable (_ ∧ _ ∧ _))

/-- How many cycles before `c` lose their word. -/
def lost (c : ℕ) : ℕ := Nat.count (fun i => 2 ≤ i ∧ ¬ passes stall i) c

/-- As many words are lost before cycle `c` as the address of its word is behind, in the numbers of
    words that 32-bit addresses tell apart. -/
def Aligned (c : ℕ) : Prop :=
  lost stall c % 2 ^ 30 = if 3 ≤ c ∧ stall (c - 3) = true then 1 else 0

/-- The cycle in which the word in `IDUnit` passed. -/
def source : ℕ → Option ℕ
  | 0 => none
  | n + 1 => if stall n then source n else if passes stall n then some n else none

/-- The cycles in which the taken words passed. -/
def takenCycles : ℕ → List ℕ
  | 0 => []
  | n + 1 => takenCycles n ++ if stall n then [] else (source stall n).toList

end Taken

variable {imem : Word → Word} {s : Fetch} {stall : ℕ → Bool}

/-! ### Which words are taken -/

theorem source_passes {n c : ℕ} (h : source stall n = some c) : c < n ∧ passes stall c := by
  induction n with
  | zero => cases h
  | succ n ih =>
    rw [source] at h
    split_ifs at h with hs hp
    · exact ⟨Nat.lt_succ_of_lt (ih h).1, (ih h).2⟩
    · obtain rfl : n = c := Option.some.inj h
      exact ⟨Nat.lt_succ_self _, hp⟩

/-- The taken words and the one in `IDUnit` are those that have passed. -/
theorem takenCycles_append_source (n : ℕ) :
    takenCycles stall n ++ (source stall n).toList =
      (List.range n).filter fun c => decide (passes stall c) := by
  induction n with
  | zero => rfl
  | succ n ih =>
    rw [List.range_succ, List.filter_append, ← ih, takenCycles, source]
    cases hs : stall n with
    | true =>
      have hp : ¬ passes stall n := fun h => by rw [h.2.2] at hs; cases hs
      simp [hp]
    | false => by_cases hp : passes stall n <;> simp [hp]

/-- A word is taken in the first stall-free cycle after it has passed. -/
theorem mem_takenCycles {n c : ℕ} :
    c ∈ takenCycles stall n ↔ passes stall c ∧ ∃ d, c < d ∧ d < n ∧ stall d = false := by
  induction n with
  | zero => simp [takenCycles]
  | succ n ih =>
    rw [takenCycles, List.mem_append, ih]
    constructor
    · rintro (⟨hp, d, hcd, hdn, hd⟩ | hsrc)
      · exact ⟨hp, d, hcd, by omega, hd⟩
      · cases hs : stall n with
        | true => simp [hs] at hsrc
        | false =>
          have hsrc' : source stall n = some c := by simpa [hs] using hsrc
          obtain ⟨hcn, hp⟩ := source_passes hsrc'
          exact ⟨hp, n, hcn, Nat.lt_succ_self n, hs⟩
    · rintro ⟨hp, d, hcd, hdn, hd⟩
      rcases Nat.lt_succ_iff_lt_or_eq.mp hdn with hlt | rfl
      · exact Or.inl ⟨hp, d, hcd, hlt, hd⟩
      · have hmem : c ∈ takenCycles stall d ++ (source stall d).toList := by
          rw [takenCycles_append_source]
          simp [hcd, hp]
        rcases List.mem_append.mp hmem with h | h
        · exact Or.inl (ih.mp h)
        · exact Or.inr (by simpa [hd] using h)

/-- The rank of an element of a filtered range counts the elements before it. -/
theorem count_of_filter_range {p : ℕ → Prop} [DecidablePred p] {n k c : ℕ}
    (h : ((List.range n).filter fun i => decide (p i))[k]? = some c) : Nat.count p c = k := by
  induction n with
  | zero => simp at h
  | succ n ih =>
    have hlen : ((List.range n).filter fun i => decide (p i)).length = Nat.count p n :=
      List.countP_eq_length_filter.symm
    rw [List.range_succ, List.filter_append] at h
    rcases Nat.lt_or_ge k (Nat.count p n) with hlt | hge
    · rw [List.getElem?_append_left (by rw [hlen]; exact hlt)] at h
      exact ih h
    · rw [List.getElem?_append_right (by rw [hlen]; exact hge), hlen] at h
      by_cases hp : p n
      · simp only [List.filter_cons, hp, decide_true, if_true, List.filter_nil] at h
        have hk := (List.getElem?_eq_some_iff.mp h).1
        simp only [List.length_cons, List.length_nil] at hk
        have hkn : k - Nat.count p n = 0 := by omega
        rw [hkn] at h
        obtain rfl : n = c := by simpa using h
        omega
      · simp [hp] at h

/-- Every cycle from 2 on passes a word or loses one. -/
theorem count_passes_add_lost (c : ℕ) : Nat.count (passes stall) c + lost stall c = c - 2 := by
  unfold lost
  induction c with
  | zero => rfl
  | succ c ih =>
    rw [Nat.count_succ, Nat.count_succ]
    by_cases h2 : 2 ≤ c
    · by_cases hp : passes stall c <;> simp [h2, hp] <;> omega
    · have hp : ¬ passes stall c := fun h => h2 h.1
      simp [h2, hp]
      omega

/-! ### What is taken -/

theorem wrReg_wordOf (himem : ∀ a, (Decoder.decode (imem a)).wrReg = true) (k : ℕ) :
    (wordOf imem k).dec.wrReg = true := himem _

/-- `IDUnit` holds the word that passed last, at the address it was fetched from, or nothing. -/
theorem idUnit_source (hs : s.AfterReset) (n : ℕ) :
    match source stall n with
    | some c => (stateAt imem s stall n).hw.idUnit = wordOf imem (fetchIndex stall (c - 2))
    | none => (stateAt imem s stall n).hw.idUnit.dec.wrReg = false := by
  induction n with
  | zero => exact idUnit_at_start hs 0 (by omega)
  | succ n ih =>
    rw [source, idUnit_at_succ]
    cases hst : stall n with
    | true => simpa using ih
    | false =>
      by_cases hp : passes stall n
      · obtain ⟨m, rfl⟩ := Nat.exists_eq_add_of_le' hp.1
        simp only [Bool.false_eq_true, if_false, hp, if_true]
        have h1 : stall (m + 1) = false := hp.2.1
        rw [inst_at hs, pcId_at hs, h1]
        rfl
      · simp only [Bool.false_eq_true, if_false, hp]
        suffices h : (stateAt imem s stall n).hw.ifUnit.inst = 0 by
          rw [h]
          exact wrReg_ofInst_zero _
        match n, hp with
        | 0, _ => exact (inst_at_start hs).1
        | 1, _ => exact (inst_at_start hs).2
        | m + 2, hp =>
          rw [inst_at hs, if_pos]
          by_contra hm
          exact hp ⟨by omega, by simpa using hm, hst⟩

theorem taken_eq (hs : s.AfterReset) (himem : ∀ a, (Decoder.decode (imem a)).wrReg = true)
    (n : ℕ) :
    taken imem s stall n =
      (takenCycles stall n).map fun c => wordOf imem (fetchIndex stall (c - 2)) := by
  induction n with
  | zero => rfl
  | succ n ih =>
    rw [taken, takenCycles, List.map_append, ih]
    congr 1
    cases hst : stall n with
    | true => rfl
    | false =>
      have hsrc := @idUnit_source imem s stall hs n
      cases hc : source stall n with
      | none =>
        rw [hc] at hsrc
        simp [hsrc]
      | some c =>
        rw [hc] at hsrc
        simp [hsrc, wrReg_wordOf himem]

theorem wordOf_inj {j k : ℕ} : wordOf imem j = wordOf imem k ↔ j % 2 ^ 30 = k % 2 ^ 30 := by
  rw [← wordAddr_eq_iff]
  refine ⟨fun h => congrArg IDUnit.pc h, ?_⟩
  intro h
  rw [wordOf, wordOf, h]

/-- The word that passes in cycle `c` is the next one exactly when `c` is aligned. -/
theorem wordOf_fetchIndex_eq_iff {c : ℕ} (h2 : 2 ≤ c) :
    wordOf imem (fetchIndex stall (c - 2)) = wordOf imem (Nat.count (passes stall) c) ↔
      Aligned stall c := by
  have hcount := @count_passes_add_lost stall c
  rw [wordOf_inj, Aligned]
  obtain ⟨m, rfl⟩ := Nat.exists_eq_add_of_le' h2
  simp only [Nat.add_sub_cancel] at hcount ⊢
  cases m with
  | zero =>
    simp only [Nat.zero_add] at hcount ⊢
    simp [fetchIndex]
    omega
  | succ m =>
    rw [fetchIndex, show m + 1 + 2 - 3 = m by omega]
    cases stall m
    · simp
      omega
    · simp
      omega

/-- The taken words are in order exactly when each of them passed in an aligned cycle. -/
theorem inOrder_iff_aligned (hs : s.AfterReset)
    (himem : ∀ a, (Decoder.decode (imem a)).wrReg = true) (n : ℕ) :
    InOrder imem s stall n ↔ ∀ c, c ∈ takenCycles stall n → Aligned stall c := by
  have hrank : ∀ k c, (takenCycles stall n)[k]? = some c → Nat.count (passes stall) c = k := by
    intro k c h
    apply count_of_filter_range
    rw [← takenCycles_append_source n,
      List.getElem?_append_left (List.getElem?_eq_some_iff.mp h).1, h]
  rw [InOrder, taken_eq hs himem]
  constructor
  · intro h c hc
    obtain ⟨k, hk⟩ := List.mem_iff_getElem?.mp hc
    have := h k _ (by rw [List.getElem?_map, hk]; rfl)
    rw [← hrank k c hk] at this
    exact (wordOf_fetchIndex_eq_iff (mem_takenCycles.mp hc).1.1).mp this
  · intro h k x hx
    rw [List.getElem?_map, Option.map_eq_some_iff] at hx
    obtain ⟨c, hc, rfl⟩ := hx
    have hmem := List.mem_of_getElem? hc
    rw [← hrank k c hc]
    exact (wordOf_fetchIndex_eq_iff (mem_takenCycles.mp hmem).1.1).mpr (h c hmem)

theorem aligned_of_no_stall {c : ℕ} (h : ∀ i, i < c → stall i = false) : Aligned stall c := by
  have hlost : lost stall c = 0 := by
    rw [lost, Nat.count_iff_forall_not]
    rintro i hi ⟨h2, hp⟩
    exact hp ⟨h2, h _ (by omega), h i hi⟩
  have hrep : ¬ (3 ≤ c ∧ stall (c - 3) = true) := by
    rintro ⟨h3, hst⟩
    rw [h (c - 3) (by omega)] at hst
    cases hst
  rw [Aligned, hlost, if_neg hrep, Nat.zero_mod]

/-- Without a stall the words are taken in order. -/
theorem inOrder_of_no_stall (hs : s.AfterReset)
    (himem : ∀ a, (Decoder.decode (imem a)).wrReg = true) {n : ℕ}
    (h : ∀ i, i < n → stall i = false) : InOrder imem s stall n := by
  rw [inOrder_iff_aligned hs himem]
  intro c hc
  obtain ⟨-, d, hcd, hdn, -⟩ := mem_takenCycles.mp hc
  exact aligned_of_no_stall fun i hi => h i (by omega)

/-- Fetch presents the words of the program in order, each with its own address, exactly when every
    word that gets through passes in an aligned cycle. -/
theorem fetch_in_order_iff (hs : s.AfterReset)
    (himem : ∀ a, (Decoder.decode (imem a)).wrReg = true) (n : ℕ) :
    InOrder imem s stall n ↔
      ∀ c d, passes stall c → c < d → d < n → stall d = false → Aligned stall c := by
  rw [inOrder_iff_aligned hs himem]
  refine ⟨fun h c d hp hcd hdn hd => h c (mem_takenCycles.mpr ⟨hp, d, hcd, hdn, hd⟩),
    fun h c hc => ?_⟩
  obtain ⟨hp, d, hcd, hdn, hd⟩ := mem_takenCycles.mp hc
  exact h c d hp hcd hdn hd

/-- One stall, in cycle 2: the first instruction taken is that of the third word. -/
theorem fetch_loses_words :
    (taken (fun _ => 0x00108093) ofReset (fun c => c == 2) 6 =
        [wordOf (fun _ => 0x00108093) 2]) ∧
      ¬ InOrder (fun _ => 0x00108093) ofReset (fun c => c == 2) 6 := by
  have h : taken (fun _ => 0x00108093) ofReset (fun c => c == 2) 6 =
      [wordOf (fun _ => 0x00108093) 2] := by decide +kernel
  refine ⟨h, fun hin => absurd (hin 0 _ (by rw [h]; rfl)) ?_⟩
  decide +kernel

theorem fetch_in_order_iff_addi :
    InOrder (fun _ => 0x00108093) ofReset (fun c => c == 2) 6 ↔
      ∀ c d, passes (fun c => c == 2) c → c < d → d < 6 → (d == 2) = false →
        Aligned (fun c => c == 2) c :=
  fetch_in_order_iff afterReset_ofReset (fun _ => by decide) 6

end Fetch

end HeliosXCore
