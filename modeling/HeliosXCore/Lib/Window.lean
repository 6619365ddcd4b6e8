import HeliosXCore.Lib.Bits

/-! A window of consecutive items of a stream, kept in a table that is addressed by `w` bits.

    Item `k` lies at the address `k` modulo `2 ^ w`. As long as the window has at most `2 ^ w` items
    each address holds at most one of them. `Holds` says that a table contains the items of a window
    and `Marks` that a vector of flags marks exactly their addresses. -/

namespace Rtl
variable {w : ℕ} {α : Type}

/-! ### Addresses of consecutive items -/

theorem ofNat_succ (w k : ℕ) : BitVec.ofNat w k + 1 = BitVec.ofNat w (k + 1) :=
  (BitVec.ofNat_add k 1).symm

theorem ofNat_eq_iff_mod {i j : ℕ} : BitVec.ofNat w i = BitVec.ofNat w j ↔ i % 2 ^ w = j % 2 ^ w := by
  rw [← BitVec.toNat_inj, BitVec.toNat_ofNat, BitVec.toNat_ofNat]

/-- Two items of one window at the same address are the same item. -/
theorem ofNat_inj_window {i j : ℕ} (hij : i ≤ j) (hj : j < i + 2 ^ w)
    (h : BitVec.ofNat w i = BitVec.ofNat w j) : i = j := by
  have hdvd : 2 ^ w ∣ j - i := (Nat.modEq_iff_dvd' hij).mp (ofNat_eq_iff_mod.mp h)
  have := Nat.eq_zero_of_dvd_of_lt hdvd (by omega)
  omega

/-- The same, for a window given by its bounds. -/
theorem ofNat_inj_of_mem {lo i j : ℕ} (hi : lo ≤ i) (hi' : i < lo + 2 ^ w) (hj : lo ≤ j)
    (hj' : j < lo + 2 ^ w) (h : BitVec.ofNat w i = BitVec.ofNat w j) : i = j := by
  rcases Nat.le_total i j with hij | hij
  · exact ofNat_inj_window hij (by omega) h
  · exact (ofNat_inj_window hij (by omega) h.symm).symm

/-! ### Records of a stream -/

/-- The stream `x` with item `n` set to `v` when `b` says that it has come. -/
def record (b : Bool) (x : ℕ → α) (n : ℕ) (v : α) : ℕ → α :=
  if b then Function.update x n v else x

theorem record_of_lt {b : Bool} {x : ℕ → α} {n k : ℕ} (hk : k < n) (v : α) :
    record b x n v k = x k := by
  cases b with
  | false => rfl
  | true => exact Function.update_of_ne (Nat.ne_of_lt hk) _ _

theorem record_self {b : Bool} (hb : b = true) (x : ℕ → α) (n : ℕ) (v : α) :
    record b x n v n = v := by
  rw [hb]
  exact Function.update_self _ _ _

/-- What a record of the results of `g` gains. -/
theorem filterMap_range_record {β : Type} (g : α → Option β) (b : Bool) (x : ℕ → α) (n : ℕ) (v : α) :
    (List.range (n + b.toNat)).filterMap (fun k => g (record b x n v k)) =
      (List.range n).filterMap (fun k => g (x k)) ++ if b then (g v).toList else [] := by
  have hold : (List.range n).filterMap (fun k => g (record b x n v k)) =
      (List.range n).filterMap (fun k => g (x k)) :=
    List.filterMap_congr fun k hk => by rw [record_of_lt (List.mem_range.mp hk)]
  cases b with
  | false => simpa using hold
  | true =>
    rw [Bool.toNat_true, List.range_succ, List.filterMap_append, hold, if_pos rfl]
    simp [record_self rfl x n v, Option.toList, List.filterMap_cons]
    cases g v <;> rfl

/-- The first `n` of the records `x 1, x 2, ...`. -/
def firsts (x : ℕ → α) (n : ℕ) : List α := (List.range n).map fun k => x (k + 1)

theorem firsts_congr {x y : ℕ → α} {n : ℕ} (h : ∀ k, 0 < k → k ≤ n → x k = y k) :
    firsts x n = firsts y n :=
  List.map_congr_left fun k hk => h (k + 1) (by omega) (List.mem_range.mp hk)

theorem firsts_record (b : Bool) (x : ℕ → α) (n : ℕ) (v : α) :
    firsts (record b x (n + 1) v) (n + b.toNat) = firsts x n ++ if b then [v] else [] := by
  have hold : firsts (record b x (n + 1) v) n = firsts x n :=
    firsts_congr fun k _ hk => record_of_lt (Nat.lt_succ_of_le hk) v
  cases b with
  | false => simpa using hold
  | true =>
    rw [Bool.toNat_true, firsts, List.range_succ, List.map_append, ← firsts, hold]
    simp [record_self rfl x (n + 1) v]

theorem firsts_mono (x : ℕ → α) {m n : ℕ} (h : m ≤ n) : firsts x m <+: firsts x n := by
  obtain ⟨d, rfl⟩ := Nat.exists_eq_add_of_le h
  rw [firsts, firsts, List.range_add, List.map_append]
  exact List.prefix_append _ _

/-! ### Tables -/

/-- The table `f` holds the items `lo, ..., hi - 1` of the stream `x`. -/
def Holds (f : BitVec w → α) (x : ℕ → α) (lo hi : ℕ) : Prop :=
  ∀ k, lo ≤ k → k < hi → f (BitVec.ofNat w k) = x k

theorem Holds.mono {f : BitVec w → α} {x : ℕ → α} {lo hi lo' hi' : ℕ} (h : Holds f x lo hi)
    (hlo : lo ≤ lo') (hhi : hi' ≤ hi) : Holds f x lo' hi' :=
  fun k hk hk' => h k (by omega) (by omega)

/-- A new item goes to the address after the last one. -/
theorem Holds.push {f : BitVec w → α} {x : ℕ → α} {lo hi : ℕ} (h : Holds f x lo hi)
    (hroom : hi < lo + 2 ^ w) (v : α) :
    Holds (Function.update f (BitVec.ofNat w hi) v) (Function.update x hi v) lo (hi + 1) := by
  intro k hk hk'
  rcases Nat.lt_succ_iff_lt_or_eq.mp hk' with hlt | rfl
  · have hne : BitVec.ofNat w k ≠ BitVec.ofNat w hi := by
      intro he
      have := ofNat_inj_of_mem hk (by omega) (by omega) hroom he
      omega
    rw [Function.update_of_ne hne, Function.update_of_ne (by omega)]
    exact h k hk hlt
  · rw [Function.update_self, Function.update_self]

/-- A table of the last `2 ^ w` items is kept up by writing each new one. -/
theorem Holds.push_last {f : BitVec w → α} {x : ℕ → α} {hi : ℕ} (h : Holds f x (hi - 2 ^ w) hi)
    (v : α) : Holds (Function.update f (BitVec.ofNat w hi) v) (Function.update x hi v)
      (hi + 1 - 2 ^ w) (hi + 1) := by
  have hpos := Nat.two_pow_pos w
  exact (h.mono (show hi - 2 ^ w ≤ hi + 1 - 2 ^ w by omega) (le_refl hi)).push (by omega) v

/-! ### Flags -/

/-- The flags mark the addresses of the items `lo, ..., hi - 1`. -/
def Marks (v : Bits w) (lo hi : ℕ) : Prop :=
  ∀ a, bit v a = true ↔ ∃ k, lo ≤ k ∧ k < hi ∧ BitVec.ofNat w k = a

theorem marks_empty (lo : ℕ) : Marks (0 : Bits w) lo lo := by
  intro a
  rw [bit_zero]
  constructor
  · intro h
    cases h
  · rintro ⟨k, hk, hk', _⟩
    omega

/-- A window with an unmarked next address has room for another item. -/
theorem Marks.lt_of_free {v : Bits w} {lo hi : ℕ} (h : Marks v lo hi) (hlo : lo ≤ hi)
    (hroom : hi ≤ lo + 2 ^ w) (hfree : bit v (BitVec.ofNat w hi) = false) : hi < lo + 2 ^ w := by
  rcases Nat.lt_or_eq_of_le hroom with hlt | rfl
  · exact hlt
  · have hpos := Nat.two_pow_pos w
    have hsame : BitVec.ofNat w lo = BitVec.ofNat w (lo + 2 ^ w) := by
      rw [ofNat_eq_iff_mod, Nat.add_mod_right]
    have hmark := (h _).mpr ⟨lo, le_refl lo, by omega, hsame⟩
    rw [hfree] at hmark
    cases hmark

/-- The marked addresses are those that lie fewer places behind the first than the window is long. -/
theorem Marks.iff_sub {v : Bits w} {lo hi : ℕ} (h : Marks v lo hi) (hroom : hi ≤ lo + 2 ^ w)
    (a : BitVec w) : bit v a = true ↔ (a - BitVec.ofNat w lo).toNat < hi - lo := by
  rw [h a]
  constructor
  · rintro ⟨k, hk, hk', rfl⟩
    obtain ⟨d, rfl⟩ := Nat.exists_eq_add_of_le hk
    have hd : BitVec.ofNat w (lo + d) - BitVec.ofNat w lo = BitVec.ofNat w d := by
      rw [BitVec.ofNat_add, BitVec.add_comm, BitVec.add_sub_cancel]
    rw [hd, BitVec.toNat_ofNat, Nat.mod_eq_of_lt (by omega)]
    omega
  · rintro hlt
    refine ⟨lo + (a - BitVec.ofNat w lo).toNat, by omega, by omega, ?_⟩
    rw [BitVec.ofNat_add, BitVec.ofNat_toNat, BitVec.setWidth_eq, BitVec.add_comm,
      BitVec.sub_add_cancel]

theorem Marks.push {v : Bits w} {lo hi : ℕ} (h : Marks v lo hi) (hlo : lo ≤ hi) :
    Marks (setBit v (BitVec.ofNat w hi) true) lo (hi + 1) := by
  intro a
  rw [bit_setBit]
  constructor
  · intro ha
    split_ifs at ha with heq
    · exact ⟨hi, hlo, by omega, heq.symm⟩
    · rcases (h a).mp ha with ⟨k, hk, hk', hka⟩
      exact ⟨k, hk, by omega, hka⟩
  · rintro ⟨k, hk, hk', rfl⟩
    split_ifs with heq
    · rfl
    · rcases Nat.lt_succ_iff_lt_or_eq.mp hk' with hlt | rfl
      · exact (h _).mpr ⟨k, hk, hlt, rfl⟩
      · exact absurd rfl heq

theorem Marks.pop {v : Bits w} {lo hi : ℕ} (h : Marks v lo hi) (hroom : hi ≤ lo + 2 ^ w) :
    Marks (setBit v (BitVec.ofNat w lo) false) (lo + 1) hi := by
  intro a
  rw [bit_setBit]
  constructor
  · intro ha
    split_ifs at ha with heq
    rcases (h a).mp ha with ⟨k, hk, hk', rfl⟩
    refine ⟨k, ?_, hk', rfl⟩
    rcases Nat.eq_or_lt_of_le hk with rfl | hlt
    · exact absurd rfl heq
    · omega
  · rintro ⟨k, hk, hk', rfl⟩
    have hne : BitVec.ofNat w k ≠ BitVec.ofNat w lo := by
      intro he
      have := ofNat_inj_of_mem (show lo ≤ k by omega) (by omega) (le_refl lo) (by omega) he
      omega
    rw [if_neg hne]
    exact (h _).mpr ⟨k, by omega, hk', rfl⟩

/-- An item less than a lap behind the first lies behind it, or before it if the end is passed. -/
theorem add_mod_of_lt {M lo d : ℕ} (hM : 0 < M) (hd : d < M) :
    (lo + d) % M = if lo % M + d < M then lo % M + d else lo % M + d - M := by
  have hlo := Nat.mod_lt lo hM
  rw [← Nat.mod_add_mod]
  split
  · rename_i h
    exact Nat.mod_eq_of_lt h
  · rename_i h
    rw [Nat.mod_eq_sub_mod (by omega), Nat.mod_eq_of_lt (by omega)]

/-- The marked indices: from that of the first item on, and from 0 on if the window wraps around. -/
theorem Marks.bitAt_iff {v : Bits w} {lo hi i : ℕ} (h : Marks v lo hi)
    (hroom : hi ≤ lo + 2 ^ w) (hi' : i < 2 ^ w) : bitAt v i = true ↔
      (lo % 2 ^ w ≤ i ∧ i + lo < lo % 2 ^ w + hi) ∨ i + 2 ^ w + lo < lo % 2 ^ w + hi := by
  have hpos := Nat.two_pow_pos w
  have hlo := Nat.mod_lt lo hpos
  have hbit : bitAt v i = bit v (BitVec.ofNat w i) := by
    rw [bit, BitVec.toNat_ofNat, Nat.mod_eq_of_lt hi']
  rw [hbit, h]
  constructor
  · rintro ⟨k, hk, hk', hki⟩
    obtain ⟨d, rfl⟩ := Nat.exists_eq_add_of_le hk
    rw [ofNat_eq_iff_mod, Nat.mod_eq_of_lt hi', add_mod_of_lt hpos (by omega)] at hki
    split at hki <;> omega
  · rintro (⟨hge, hlt⟩ | hlt)
    · refine ⟨lo + (i - lo % 2 ^ w), by omega, by omega, ?_⟩
      rw [ofNat_eq_iff_mod, Nat.mod_eq_of_lt hi', add_mod_of_lt hpos (by omega), if_pos (by omega)]
      omega
    · refine ⟨lo + (i + 2 ^ w - lo % 2 ^ w), by omega, by omega, ?_⟩
      rw [ofNat_eq_iff_mod, Nat.mod_eq_of_lt hi', add_mod_of_lt hpos (by omega), if_neg (by omega)]
      omega

end Rtl
