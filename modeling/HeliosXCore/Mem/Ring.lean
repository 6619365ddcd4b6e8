import HeliosXCore.Mem.Drain

/-! The ring that the comments of `StoreBuffer` describe: entries 1 to 31 in turn, entry 0 unused. The
    pointers keep to it until they would wrap around for the first time. -/

namespace HeliosXCore
open Rtl
/-- Up to 31, different numbers are different entries. -/
theorem ofNat_ne_of_le {k c : ℕ} (hk : k ≤ 31) (hc : c ≤ 31) (h : k ≠ c) :
    BitVec.ofNat 5 k ≠ BitVec.ofNat 5 c :=
  fun he => h (ofNat_inj_of_mem (Nat.zero_le k) (by omega) (Nat.zero_le c) (by omega) he)

namespace StoreBuffer

/-- The entry after `ptr` in the order 1, 2, ..., 31, 1; after the initial 0 comes 1. -/
def ringSucc (ptr : BitVec 5) : BitVec 5 := if ptr = 31 then 1 else ptr + 1

/-- Up to entry 31 the entries of the ring are numbered like the stores. -/
theorem ringSucc_iterate {k : ℕ} : ∀ {j : ℕ}, k + j ≤ 31 →
    ringSucc^[j] (BitVec.ofNat 5 k) = BitVec.ofNat 5 (k + j) := by
  intro j
  induction j with
  | zero =>
    intro _
    rfl
  | succ j ih =>
    intro hj
    have hne : BitVec.ofNat 5 (k + j) ≠ 31 :=
      ofNat_ne_of_le (c := 31) (by omega) (le_refl 31) (by omega)
    rw [Function.iterate_succ_apply', ih (by omega), ringSucc, if_neg hne, ofNat_succ]
    rfl

end StoreBuffer

namespace StoreSys

/-- How many stores were issued and not yet handed to memory. -/
def waiting (y : StoreSys) : ℕ := y.log.issued - y.handed

/-- The pending stores are kept in the entries behind `retire_ptr`, in the order of issue. -/
structure RingWindow (y : StoreSys) : Prop where
  zero : bit (k := 5) y.hw.valid 0 = false
  used_pos : 0 < y.log.issued → y.hw.usedPtr ≠ 0
  used : y.hw.usedPtr = StoreBuffer.ringSucc^[y.waiting] y.hw.retirePtr
  valid : ∀ a : BitVec 5, bit (k := 5) y.hw.valid a = true ↔
    ∃ j, 1 ≤ j ∧ j ≤ y.waiting ∧ a = StoreBuffer.ringSucc^[j] y.hw.retirePtr
  distinct : ∀ i j, 1 ≤ i → i ≤ y.waiting → 1 ≤ j → j ≤ y.waiting →
    StoreBuffer.ringSucc^[i] y.hw.retirePtr = StoreBuffer.ringSucc^[j] y.hw.retirePtr → i = j
  stored : ∀ j, 1 ≤ j → j ≤ y.waiting →
    (y.hw.address (StoreBuffer.ringSucc^[j] y.hw.retirePtr),
      y.hw.data (StoreBuffer.ringSucc^[j] y.hw.retirePtr)) = y.log.store (y.handed + j)
  complete : ∃ j, j ≤ y.waiting ∧ y.hw.completePtr = StoreBuffer.ringSucc^[j] y.hw.retirePtr

variable {init : Word → Word} {y : StoreSys}

namespace Inv

theorem handed_add_waiting (h : Inv init y) : y.handed + y.waiting = y.log.issued :=
  Nat.add_sub_cancel' h.handed_le

/-- Before the first wrap the entries behind `retire_ptr` are those of the next stores. -/
theorem ringSucc_retirePtr (h : Inv init y) (hissued : y.log.issued ≤ 31) {j : ℕ}
    (hj : j ≤ y.waiting) :
    StoreBuffer.ringSucc^[j] y.hw.retirePtr = BitVec.ofNat 5 (y.handed + j) := by
  have hsum := h.handed_add_waiting
  rw [h.counts.retire]
  exact StoreBuffer.ringSucc_iterate (by omega)

theorem valid_iff_ring (h : Inv init y) (hissued : y.log.issued ≤ 31) (a : BitVec 5) :
    bit (k := 5) y.hw.valid a = true ↔
      ∃ j, 1 ≤ j ∧ j ≤ y.waiting ∧ a = StoreBuffer.ringSucc^[j] y.hw.retirePtr := by
  have hsum := h.handed_add_waiting
  rw [h.valid]
  constructor
  · rintro ⟨k, hk, hk', rfl⟩
    have hj : k - y.handed ≤ y.waiting := by omega
    refine ⟨k - y.handed, by omega, hj, ?_⟩
    rw [h.ringSucc_retirePtr hissued hj, Nat.add_sub_cancel' (by omega)]
  · rintro ⟨j, hj, hj', rfl⟩
    exact ⟨y.handed + j, by omega, by omega, (h.ringSucc_retirePtr hissued hj').symm⟩

/-- The entries of the pending stores are distinct, -/
theorem ringSucc_inj (h : Inv init y) (hissued : y.log.issued ≤ 31) {i j : ℕ}
    (hi : i ≤ y.waiting) (hj : j ≤ y.waiting)
    (heq : StoreBuffer.ringSucc^[i] y.hw.retirePtr = StoreBuffer.ringSucc^[j] y.hw.retirePtr) :
    i = j := by
  have hsum := h.handed_add_waiting
  rw [h.ringSucc_retirePtr hissued hi, h.ringSucc_retirePtr hissued hj] at heq
  by_contra hne
  exact ofNat_ne_of_le (by omega) (by omega) (by omega) heq

/-- and hold what was stored. -/
theorem ring_stored (h : Inv init y) (hissued : y.log.issued ≤ 31) {j : ℕ} (hj : j ≤ y.waiting) :
    (y.hw.address (StoreBuffer.ringSucc^[j] y.hw.retirePtr),
      y.hw.data (StoreBuffer.ringSucc^[j] y.hw.retirePtr)) = y.log.store (y.handed + j) := by
  have hsum := h.handed_add_waiting
  rw [h.ringSucc_retirePtr hissued hj, h.address _ (by omega) (by omega),
    h.data _ (by omega) (by omega)]
  rfl

theorem ringWindow (h : Inv init y) (hissued : y.log.issued ≤ 31) : RingWindow y where
  zero := by
    rw [← Bool.not_eq_true, h.valid]
    rintro ⟨k, hk, hk', hzero⟩
    exact ofNat_ne_of_le (c := 0) (by omega) (Nat.zero_le 31) (by omega) hzero
  used_pos := by
    intro hpos
    rw [h.counts.used]
    exact ofNat_ne_of_le (c := 0) hissued (Nat.zero_le 31) (by omega)
  used := by
    rw [h.ringSucc_retirePtr hissued (le_refl _), h.counts.used, h.handed_add_waiting]
  valid := h.valid_iff_ring hissued
  distinct := fun _ _ _ hi _ hj heq => h.ringSucc_inj hissued hi hj heq
  stored := fun _ _ hj => h.ring_stored hissued hj
  complete := by
    have hle := h.counts.le
    have hcom := h.committed
    have hsum := h.handed_add_waiting
    have hj : y.log.completed - y.handed ≤ y.waiting := by omega
    refine ⟨y.log.completed - y.handed, hj, ?_⟩
    rw [h.ringSucc_retirePtr hissued hj, h.counts.complete, Nat.add_sub_cancel' hle]

/-- Store 32 takes the pointer to entry 0. -/
theorem not_ringWindow (h : Inv init y) (hissued : y.log.issued = 32) : ¬ RingWindow y := by
  intro hw
  refine hw.used_pos (by omega) ?_
  rw [h.counts.used, hissued]
  rfl

end Inv

section run
variable {s : StoreBuffer} {e : ℕ → StoreIn} {N : ℕ}

theorem issued_run_succ_le (y : StoreSys) (e : ℕ → StoreIn) (n : ℕ) :
    (machine.run y e (n + 1)).log.issued ≤ (machine.run y e n).log.issued + 1 := by
  rw [Clocked.run_succ]
  change ((machine.run y e n).log.step (e n)).issued ≤ _
  rw [StoreLog.issued_step]
  split <;> omega

theorem issued_run_mono (y : StoreSys) (e : ℕ → StoreIn) :
    Monotone fun n => (machine.run y e n).log.issued :=
  monotone_nat_of_le_succ fun n => (machine.run y e n).log.issued_le_step (e n)

/-- The ring is kept in every state of a run exactly when at most 31 stores are issued in it. -/
theorem ring_window_iff (hs : s.AfterReset) (hl : machine.Legal (start s init) e N) :
    (∀ n, n ≤ N → RingWindow (machine.run (start s init) e n)) ↔
      (machine.run (start s init) e N).log.issued ≤ 31 := by
  constructor
  · intro hring
    have hbound : ∀ n, n ≤ N → (machine.run (start s init) e n).log.issued ≤ 31 := by
      intro n
      induction n with
      | zero =>
        intro _
        exact Nat.zero_le 31
      | succ n ih =>
        intro hn
        have hone := issued_run_succ_le (start s init) e n
        have hlast := ih (by omega)
        by_contra hlt
        exact (inv_run hs hl hn).not_ringWindow (by omega) (hring (n + 1) hn)
    exact hbound N (le_refl N)
  · intro hissued n hn
    exact (inv_run hs hl hn).ringWindow ((issued_run_mono _ e hn).trans hissued)

end run

/-- A store in every cycle, completed as it is issued. -/
def storing (_ : ℕ) : StoreIn := ⟨true, true, 5, 7, true⟩

theorem ring_window_iff_storing :
    (∀ n, n ≤ 40 →
        RingWindow (machine.run (start StoreBuffer.cleared fun _ => 0) storing n)) ↔
      (machine.run (start StoreBuffer.cleared fun _ => 0) storing 40).log.issued ≤ 31 :=
  ring_window_iff StoreBuffer.afterReset_cleared (by decide +kernel)

/-- 31 stores that are completed as they are issued, then one more. -/
def oneLap (n : ℕ) : StoreIn :=
  if n < 31 then ⟨true, true, 0, 1, true⟩ else ⟨true, true, 7, 9, false⟩

/-- Store 32 makes entry 0 valid. -/
theorem entry_zero_valid :
    machine.Legal (start StoreBuffer.cleared fun _ => 0) oneLap 32 ∧
      (machine.run (start StoreBuffer.cleared fun _ => 0) oneLap 32).hw.usedPtr = 0 ∧
      bit (k := 5) (machine.run (start StoreBuffer.cleared fun _ => 0) oneLap 32).hw.valid 0 =
        true ∧
      ¬ RingWindow (machine.run (start StoreBuffer.cleared fun _ => 0) oneLap 32) := by
  have hvalid : bit (k := 5)
      (machine.run (start StoreBuffer.cleared fun _ => 0) oneLap 32).hw.valid 0 = true := by
    decide +kernel
  refine ⟨by decide +kernel, by decide +kernel, hvalid, ?_⟩
  intro hw
  rw [hw.zero] at hvalid
  cases hvalid

end StoreSys
end HeliosXCore
