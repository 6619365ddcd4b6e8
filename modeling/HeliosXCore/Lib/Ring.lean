import Mathlib.Tactic

/-! Places of a ring that are numbered from 1.

    The `i`-th item of a stream is kept at place `slot N i` of the `N` places `1, ..., N`. A window
    of at most `N` consecutive items uses each place once. -/

namespace Rtl

/-- The place of item `i` in a ring of `N` places. -/
def slot (N i : ℕ) : ℕ := i % N + 1

/-- The place after `p`. -/
def slotSucc (N p : ℕ) : ℕ := if p = N then 1 else p + 1

theorem slot_pos (N i : ℕ) : 0 < slot N i := Nat.succ_pos _

theorem slot_le {N : ℕ} (hN : 0 < N) (i : ℕ) : slot N i ≤ N := Nat.mod_lt i hN

theorem slot_add (N i : ℕ) : slot N (i + N) = slot N i := by simp [slot]

theorem slot_succ {N : ℕ} (hN : 0 < N) (i : ℕ) : slot N (i + 1) = slotSucc N (slot N i) := by
  have hlt := Nat.mod_lt i hN
  unfold slot slotSucc
  rcases Nat.lt_or_ge 1 N with h1 | h1
  · rw [Nat.add_mod_eq_ite, Nat.mod_eq_of_lt h1]
    split_ifs <;> omega
  · obtain rfl : N = 1 := by omega
    simp [Nat.mod_one]

/-- Two items of one window at the same place are the same item. -/
theorem slot_inj {N i j : ℕ} (hij : i ≤ j) (hj : j < i + N) (h : slot N i = slot N j) : i = j := by
  have hmod : i % N = j % N := by simpa [slot] using h
  have hdvd : N ∣ j - i := (Nat.modEq_iff_dvd' hij).mp hmod
  have := Nat.eq_zero_of_dvd_of_lt hdvd (by omega)
  omega

/-- Every place holds one of `N` consecutive items. -/
theorem slot_surj {N : ℕ} (i p : ℕ) (h0 : 0 < p) (hp : p ≤ N) :
    ∃ j, i ≤ j ∧ j < i + N ∧ slot N j = p := by
  have hN : 0 < N := by omega
  have hlt := Nat.mod_lt i hN
  have hdiv := Nat.div_add_mod i N
  by_cases h : i % N ≤ p - 1
  · refine ⟨N * (i / N) + (p - 1), by omega, by omega, ?_⟩
    rw [slot, Nat.mul_add_mod, Nat.mod_eq_of_lt (by omega)]; omega
  · refine ⟨N * (i / N + 1) + (p - 1), ?_, ?_, ?_⟩
    · rw [Nat.mul_add]; omega
    · rw [Nat.mul_add]; omega
    · rw [slot, Nat.mul_add_mod, Nat.mod_eq_of_lt (by omega)]; omega

/-! ### Laps -/

theorem slot_of_lap {N q i : ℕ} (h : N * q ≤ i) (h' : i < N * q + N) : slot N i = i - N * q + 1 := by
  obtain ⟨d, rfl⟩ := Nat.exists_eq_add_of_le h
  rw [slot, Nat.mul_add_mod, Nat.mod_eq_of_lt (by omega)]
  omega

/-- A bit for the current lap and the place order two items of one window as they came. -/
theorem lapAge_lt {N lap i j : ℕ} {bi bj : Bool} (hbi : bi = true ↔ N * lap ≤ i)
    (hbj : bj = true ↔ N * lap ≤ j) (hi : N * lap ≤ i + N) (hij : i < j)
    (hj : j < N * lap + N) :
    (N + 1) * bi.toNat + slot N i < (N + 1) * bj.toNat + slot N j := by
  cases bi with
  | true =>
    have hle : N * lap ≤ i := hbi.mp rfl
    rw [hbj.mpr (by omega), slot_of_lap hle (by omega), slot_of_lap (by omega) hj]
    omega
  | false =>
    have hlt : i < N * lap := by
      by_contra hge
      exact Bool.false_ne_true (hbi.mpr (by omega))
    cases bj with
    | true =>
      have hle := slot_le (N := N) (by omega) i
      have hpos := slot_pos N j
      simp only [Bool.toNat_false, Bool.toNat_true]
      omega
    | false =>
      have hlt' : j < N * lap := by
        by_contra hge
        exact Bool.false_ne_true (hbj.mpr (by omega))
      -- both items are of the lap before
      obtain ⟨q, rfl⟩ : ∃ q, lap = q + 1 := Nat.exists_eq_succ_of_ne_zero (by
        rintro rfl
        omega)
      rw [Nat.mul_succ] at *
      rw [slot_of_lap (q := q) (by omega) (by omega), slot_of_lap (q := q) (by omega) (by omega)]
      omega

/-- Two registers delay a stream of items and the pulse that reports a full lap: `entered` items have
    come to the first, `left` have gone from the second, and `lap` pulses have been taken there.
    `cyc` and `cycReg` are the pulse behind the first and behind the second register. -/
structure LapPulse (N lap left entered : ℕ) (cyc cycReg : Bool) : Prop where
  left_div : left / N = lap + cycReg.toNat
  left_mod : cycReg = true → left % N = 0
  entered_div : entered / N = left / N + cyc.toNat
  entered_mod : cyc = true → entered % N = 0

namespace LapPulse
variable {N lap left entered : ℕ} {cyc cycReg : Bool}

theorem start (N : ℕ) : LapPulse N 0 0 0 false false := by
  refine ⟨?_, ?_, ?_, ?_⟩ <;> simp

theorem step (h : LapPulse N lap left entered cyc cycReg) (hN : 0 < N) (acc : Bool) :
    LapPulse N (lap + cycReg.toNat) entered (entered + acc.toNat)
      (acc && decide (entered % N = N - 1)) cyc where
  left_div := by rw [h.entered_div, h.left_div]
  left_mod := h.entered_mod
  entered_div := by
    have hdiv := Nat.div_add_mod entered N
    have hmod := Nat.mod_lt entered hN
    cases acc with
    | false => simp
    | true =>
      by_cases hlast : entered % N = N - 1
      · have hnext : entered + 1 = N * (entered / N + 1) := by
          rw [Nat.mul_add]
          omega
        simp only [hlast, Bool.toNat_true, decide_true, Bool.and_self]
        rw [hnext, Nat.mul_div_cancel_left _ hN]
      · have hnext : entered + 1 = entered % N + 1 + N * (entered / N) := by omega
        simp only [hlast, Bool.toNat_true, decide_false, Bool.and_false, Bool.toNat_false]
        rw [hnext, Nat.add_mul_div_left _ _ hN, Nat.div_eq_of_lt (by omega)]
        omega
  entered_mod := by
    rintro hn
    simp only [Bool.and_eq_true, decide_eq_true_iff] at hn
    have hdiv := Nat.div_add_mod entered N
    have hnext : entered + 1 = N * (entered / N + 1) := by
      rw [Nat.mul_add]
      omega
    rw [hn.1, Bool.toNat_true, hnext, Nat.mul_mod_right]

/-- The item that leaves next belongs to the lap that the pulses count. -/
theorem le_left (h : LapPulse N lap left entered cyc cycReg) : N * (lap + cycReg.toNat) ≤ left := by
  rw [← h.left_div]
  exact Nat.mul_div_le left N

/-- When the pulse is there, all items that have left are of the laps before. -/
theorem lt_of_pulse (h : LapPulse N lap left entered cyc cycReg) (hc : cycReg = true) {i : ℕ}
    (hi : i < left) : i < N * (lap + cycReg.toNat) := by
  have hdiv := Nat.div_add_mod left N
  rw [h.left_div, h.left_mod hc] at hdiv
  omega

theorem left_le (h : LapPulse N lap left entered cyc cycReg) (hN : 0 < N) :
    left ≤ N * lap + N := by
  have hdiv := Nat.div_add_mod left N
  have hmod := Nat.mod_lt left hN
  rw [h.left_div, Nat.mul_add] at hdiv
  cases hc : cycReg with
  | false =>
    rw [hc, Bool.toNat_false] at hdiv
    omega
  | true =>
    have hat := h.left_mod hc
    rw [hc, Bool.toNat_true] at hdiv
    omega

end LapPulse

end Rtl
