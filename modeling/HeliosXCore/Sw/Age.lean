import HeliosXCore.Rtl.Tag
import HeliosXCore.Sw.Station

/-! The age order of the ALU station. An entry keeps its tag and its sort bit when its instruction has
    been issued; the two order all entries whose instructions lie in one window of 63. -/

namespace HeliosXCore
open Rtl

/-- Tag and sort bit of entry `e` are those of instruction `i`, when `lap` laps of the tags have been
    counted. -/
structure RSAlu.Stamped (s : RSAlu) (lap : ℕ) (e : BitVec 3) (i : ℕ) : Prop where
  tag : (s.entry e).exeRrfTag = tagOf i
  sort : bit s.sortBit e = true ↔ 63 * lap ≤ i

section
variable {lap dispatched allocated : ℕ} {cyc cycReg : Bool} {a b : BitVec 3} {i j : ℕ}

/-- In one window the ages are ordered as the instructions are. -/
theorem RSAlu.Stamped.age_lt {s : RSAlu} (hi : s.Stamped lap a i) (hj : s.Stamped lap b j)
    (hp : LapPulse 63 lap dispatched allocated cyc cycReg) (hle : dispatched ≤ allocated)
    (hwin : allocated ≤ i + 63) (hlt : i < j) (hdis : j < dispatched) : s.age a < s.age b := by
  have hfirst := hp.le_left
  have hlast := hp.left_le (by omega)
  rw [RSAlu.age, RSAlu.age, hi.tag, hj.tag, toNat_tagOf, toNat_tagOf]
  exact lapAge_lt hi.sort hj.sort (by omega) hlt (by omega)

namespace SwUnit
variable {s : SwUnit} {w : SwIn}

/-- An entry that is written is stamped with the instruction that comes in. -/
theorem stamped_of_writes (h2 : w.reqAluNum ≠ 2) (hw : s.WritesEntry w a)
    (htag : w.dp1.rrfTag = tagOf dispatched)
    (hp : LapPulse 63 lap dispatched allocated cyc w.nextRrfCycle) :
    (s.next false w).rsAlu.Stamped (lap + w.nextRrfCycle.toNat) a dispatched where
  tag := by
    rw [entry_next h2, if_pos hw]
    exact htag
  sort := by
    rw [sortBit_next h2, if_pos hw]
    exact iff_of_true rfl hp.le_left

/-- The others keep their tags, and lose their sort bits when a new lap begins. -/
theorem stamped_of_held (h2 : w.reqAluNum ≠ 2) (hw : ¬ s.WritesEntry w a)
    (h : s.rsAlu.Stamped lap a i) (hlt : i < dispatched)
    (hp : LapPulse 63 lap dispatched allocated cyc w.nextRrfCycle) :
    (s.next false w).rsAlu.Stamped (lap + w.nextRrfCycle.toNat) a i where
  tag := by
    rw [entry_next h2, if_neg hw]
    exact h.tag
  sort := by
    rw [sortBit_next h2, if_neg hw]
    cases hn : w.nextRrfCycle with
    | false => exact h.sort
    | true =>
      have hold := hp.lt_of_pulse hn hlt
      rw [hn] at hold
      exact iff_of_false Bool.false_ne_true (Nat.not_le.mpr hold)

end SwUnit

end

end HeliosXCore
