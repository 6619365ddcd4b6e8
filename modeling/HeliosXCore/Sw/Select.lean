import HeliosXCore.Rtl.SwUnit
import HeliosXCore.Sw.Allocate
import HeliosXCore.Sw.Oldest

/-! What `SwUnit` selects for issue: among the ready entries of `RSAlu` the oldest. -/

namespace HeliosXCore
open Rtl

namespace RSAlu

/-- `{sort_bit, exe_rrf_tag}` of an entry, as a number. -/
def age (s : RSAlu) (e : BitVec 3) : ℕ :=
  64 * (bit s.sortBit e).toNat + (s.entry e).exeRrfTag.toNat

/-- Entry `e` is busy and has both operands. -/
def Ready (s : RSAlu) (e : BitVec 3) : Prop :=
  bit s.busyVector e = true ∧ (s.entry e).operand1.valid = true ∧
    (s.entry e).operand2.valid = true

theorem ready_iff {s : RSAlu} {e : BitVec 3} : s.ready e = true ↔ s.Ready e := by
  simp [Ready, ready, RSAluEntry.ready, and_assoc]

end RSAlu

namespace SwUnit

/-- Slot `k` of the issuer holds the number and the history of entry `k`. -/
theorem issuer_slot (s : SwUnit) {k : ℕ} (hk : k < 8) :
    slotOf (concat8 7 6 5 4 3 2 1 0) s.rsAlu.historyVector k =
      (BitVec.ofNat 3 k, s.rsAlu.history (BitVec.ofNat 3 k)) := by
  interval_cases k <;> simp only [slotOf, RSAlu.historyVector, slice_concat8] <;> rfl

/-- The issuer points at an entry whose history is the least of all eight. -/
theorem aluIssuer_spec (s : SwUnit) :
    s.aluIssuer.2 = s.rsAlu.history s.aluIssueAddr ∧
      ∀ e, s.aluIssuer.2 ≤ s.rsAlu.history e := by
  obtain ⟨k, hk, hslot⟩ := exists_lastMin (concat8 7 6 5 4 3 2 1 0) s.rsAlu.historyVector
  have hvalue : ∀ j, j < 8 →
      slice s.rsAlu.historyVector j 8 = s.rsAlu.history (BitVec.ofNat 3 j) :=
    fun j hj => congrArg Prod.snd (s.issuer_slot hj)
  have heq : s.aluIssuer = (BitVec.ofNat 3 k, s.rsAlu.history (BitVec.ofNat 3 k)) :=
    hslot.trans (s.issuer_slot hk.lt_hi)
  constructor
  · rw [aluIssueAddr, heq]
  · intro e
    have hle := hk.le e.toNat (Nat.zero_le _) e.isLt
    simp only [hvalue k hk.lt_hi, hvalue e.toNat e.isLt, BitVec.ofNat_toNat,
      BitVec.setWidth_eq] at hle
    rw [heq]
    exact hle

/-- The value the histories are compared by. -/
theorem toNat_history (s : RSAlu) (e : BitVec 3) :
    (s.history e).toNat =
      128 * (!s.ready e).toNat + 64 * (bit s.sortBit e).toNat + (s.entry e).exeRrfTag.toNat := by
  have h : ∀ (r b : Bool) (t : RrfTag), (BitVec.ofBool r ++ BitVec.ofBool b ++ t).toNat =
      128 * r.toNat + 64 * b.toNat + t.toNat := by decide +kernel
  exact h _ _ _

/-- The issue strobe: the entry pointed at is ready. -/
theorem exeAluIssue_iff {s : SwUnit} : s.exeAluIssue = true ↔ s.rsAlu.Ready s.aluIssueAddr := by
  have h : ∀ (r b : Bool) (t : RrfTag),
      (BitVec.ofBool r ++ BitVec.ofBool b ++ t).getLsbD 7 = r := by decide +kernel
  rw [← RSAlu.ready_iff, exeAluIssue, (aluIssuer_spec s).1, RSAlu.history, h, Bool.not_not]

/-- The entry pointed at has the least history. -/
theorem history_aluIssueAddr_le (s : SwUnit) (e : BitVec 3) :
    (s.rsAlu.history s.aluIssueAddr).toNat ≤ (s.rsAlu.history e).toNat := by
  have h := (aluIssuer_spec s).2 e
  rw [(aluIssuer_spec s).1] at h
  exact h

/-- Among entries that are as ready as the one pointed at, none is older. -/
theorem age_aluIssueAddr_le (s : SwUnit) {e : BitVec 3}
    (h : s.rsAlu.Ready e ↔ s.rsAlu.Ready s.aluIssueAddr) :
    s.rsAlu.age s.aluIssueAddr ≤ s.rsAlu.age e := by
  have hr : s.rsAlu.ready e = s.rsAlu.ready s.aluIssueAddr := by
    rw [Bool.eq_iff_iff, RSAlu.ready_iff, RSAlu.ready_iff, h]
  have hle := history_aluIssueAddr_le s e
  rw [toNat_history, toNat_history, hr] at hle
  rw [RSAlu.age, RSAlu.age]
  omega

/-- A ready entry makes the issuer point at a ready one. -/
theorem exeAluIssue_of_ready {s : SwUnit} {e : BitVec 3} (h : s.rsAlu.Ready e) :
    s.exeAluIssue = true := by
  have hle := history_aluIssueAddr_le s e
  have hlt := (s.rsAlu.entry e).exeRrfTag.isLt
  rw [toNat_history, toNat_history, RSAlu.ready_iff.mpr h] at hle
  rw [exeAluIssue_iff, ← RSAlu.ready_iff]
  cases hr : s.rsAlu.ready s.aluIssueAddr with
  | true => rfl
  | false =>
    rw [hr] at hle
    have := Bool.toNat_le (bit s.rsAlu.sortBit e)
    simp at hle
    omega

/-- Where the ages order the ready entries by `idx`, the one pointed at has the least `idx`. -/
theorem aluIssueAddr_oldest {s : SwUnit} {idx : BitVec 3 → ℕ}
    (hage : ∀ a b, s.rsAlu.Ready a → s.rsAlu.Ready b → idx a < idx b →
      s.rsAlu.age a < s.rsAlu.age b) {e : BitVec 3} (he : s.rsAlu.Ready e) :
    s.rsAlu.Ready s.aluIssueAddr ∧ idx s.aluIssueAddr ≤ idx e := by
  have hr := exeAluIssue_iff.mp (exeAluIssue_of_ready he)
  refine ⟨hr, ?_⟩
  by_contra hlt
  have hyoung := hage e s.aluIssueAddr he hr (Nat.lt_of_not_le hlt)
  exact absurd (age_aluIssueAddr_le s (iff_of_true he hr)) (Nat.not_le.mpr hyoung)

end SwUnit

end HeliosXCore
