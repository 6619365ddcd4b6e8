import HeliosXCore.Lib.History
import HeliosXCore.Lib.Run
import HeliosXCore.Rtl.Arf

/-! The rename table as a map from each register to the tag of its youngest allocation that has not
    committed. Allocations commit in the order they were made; a tag is given out again at the
    earliest in the cycle in which its holder commits. -/

namespace HeliosXCore
open Rtl

namespace RenameTable

/-- Reset was held for at least one edge. -/
def AfterReset (s : RenameTable) : Prop := ∃ s0 c d, s = next true c d s0

/-- What the table says of a register. -/
def lookup (s : RenameTable) (r : RegSel) : Option RrfTag :=
  if s.busy r then some (s.rrftag r) else none

theorem lookup_afterReset {s : RenameTable} (hs : s.AfterReset) (r : RegSel) :
    s.lookup r = none := by
  obtain ⟨s0, c, d, rfl⟩ := hs
  have hb : (next true c d s0).busy r = false := bit_zero (k := 5) r
  rw [lookup, hb]
  rfl

theorem rrftag_of_lookup {s : RenameTable} {r : RegSel} {t : RrfTag} (h : s.lookup r = some t) :
    s.rrftag r = t := by
  rw [lookup] at h
  split_ifs at h
  exact Option.some.inj h

theorem lookup_next (c : Completed) (d : SetBusy) (s : RenameTable) (r : RegSel) :
    (s.next false c d).lookup r =
      if d.dstEn ∧ r = d.dstNum then some d.dstRrftag
      else if c.we ∧ c.dstRrftag = s.rrftag c.dstNum ∧ r = c.dstNum then none
      else s.lookup r := by
  rw [lookup, busy_next, rrftag_next]
  split_ifs <;> simp_all [lookup]

/-- The assignment of the other block to `arf_busy`. -/
def setBusy (d : SetBusy) (s : RenameTable) : RenameTable :=
  { s with arfBusy := if d.dstEn then setBit s.arfBusy d.dstNum true else s.arfBusy }

/-- The two blocks may assign `arf_busy` in either order: "clear arf busy" has the same effect behind
    the other one. -/
theorem clearBusy_setBusy (c : Completed) (d : SetBusy) (s : RenameTable) :
    (s.setBusy d).clearBusy false c d = (s.next false c d).arfBusy := by
  refine bits_ext (k := 5) ?_
  intro r
  have htag : (s.setBusy d).rrftag c.dstNum = s.rrftag c.dstNum := rfl
  have hset : (s.setBusy d).busy r = if d.dstEn ∧ r = d.dstNum then true else s.busy r := by
    cases hd : d.dstEn <;> simp [setBusy, busy, hd]
  have hnext := busy_next c d s r
  rw [busy] at hnext
  rw [hnext, bit_clearBusy, htag, hset]
  by_cases hc : c.we ∧ c.dstRrftag = s.rrftag c.dstNum ∧ r = c.dstNum
  · rw [if_pos hc, if_pos hc, hc.2.2]
    cases hd : d.dstEn <;> simp [beq_eq_decide]
  · rw [if_neg hc, if_neg hc]

end RenameTable

/-- The table and the allocations that have not committed, the oldest first. -/
structure TableSys where
  hw : RenameTable
  pending : List (RegSel × RrfTag)

namespace TableSys

def start (s : RenameTable) : TableSys := ⟨s, []⟩

/-- The pending allocations without the one that commits in this cycle. -/
def kept (c : Completed) (y : TableSys) : List (RegSel × RrfTag) :=
  if c.we then y.pending.tail else y.pending

def step (i : Completed × SetBusy) (y : TableSys) : TableSys where
  hw := y.hw.next false i.1 i.2
  pending := y.kept i.1 ++ if i.2.dstEn then [(i.2.dstNum, i.2.dstRrftag)] else []

/-- A commit is that of the oldest pending allocation, with its register and tag. -/
def CommitOk (y : TableSys) (c : Completed) : Prop :=
  c.we = true → y.pending.head? = some (c.dstNum, c.dstRrftag)

/-- A tag that is allocated is not held by an allocation that stays pending. -/
def AllocOk (y : TableSys) (c : Completed) (d : SetBusy) : Prop :=
  d.dstEn = true → d.dstRrftag ∉ (y.kept c).map Prod.snd

instance (y : TableSys) (c : Completed) : Decidable (y.CommitOk c) :=
  inferInstanceAs (Decidable (_ → _))

instance (y : TableSys) (c : Completed) (d : SetBusy) : Decidable (y.AllocOk c d) :=
  inferInstanceAs (Decidable (_ → _))

def machine : Clocked TableSys (Completed × SetBusy) :=
  ⟨step, fun y i => y.CommitOk i.1 ∧ y.AllocOk i.1 i.2⟩

instance (y : TableSys) (i : Completed × SetBusy) : Decidable (machine.legal y i) :=
  inferInstanceAs (Decidable (_ ∧ _))

/-- What holds in every state. -/
structure Inv (y : TableSys) : Prop where
  nodup : (y.pending.map Prod.snd).Nodup
  lookup : ∀ r, y.hw.lookup r = lastFor r y.pending

variable {y : TableSys} {i : Completed × SetBusy}

theorem inv_start {s : RenameTable} (hs : s.AfterReset) : Inv (start s) where
  nodup := List.nodup_nil
  lookup := RenameTable.lookup_afterReset hs

namespace Inv

theorem nodup_kept (h : Inv y) (c : Completed) : ((y.kept c).map Prod.snd).Nodup := by
  unfold kept
  split
  · rw [List.map_tail]
    exact h.nodup.sublist (List.tail_sublist _)
  · exact h.nodup

theorem nodup_step (h : Inv y) (hl : machine.legal y i) :
    ((step i y).pending.map Prod.snd).Nodup := by
  simp only [step, List.map_append]
  cases hd : i.2.dstEn with
  | false => simpa using h.nodup_kept i.1
  | true =>
    have hnew := hl.2 hd
    simp only [if_true, List.map_cons, List.map_nil]
    refine List.nodup_append.mpr ⟨h.nodup_kept i.1, List.nodup_singleton _, ?_⟩
    rintro t ht t' ht'
    obtain rfl : t' = i.2.dstRrftag := by simpa using ht'
    rintro rfl
    exact hnew ht

/-- A commit clears the mapping of its register exactly when no younger allocation has replaced
    it: tags of pending allocations differ, so the comparison tells. -/
theorem lookup_kept (h : Inv y) (hl : y.CommitOk i.1) (r : RegSel) :
    (if i.1.we ∧ i.1.dstRrftag = y.hw.rrftag i.1.dstNum ∧ r = i.1.dstNum then none
      else y.hw.lookup r) = lastFor r (y.kept i.1) := by
  cases hc : i.1.we with
  | false => simp [kept, hc, h.lookup r]
  | true =>
    obtain ⟨rest, hrest⟩ : ∃ rest, y.pending = (i.1.dstNum, i.1.dstRrftag) :: rest :=
      List.head?_eq_some_iff.mp (hl hc)
    have hkept : y.kept i.1 = rest := by simp [kept, hc, hrest]
    have hlook := h.lookup r
    rw [hrest, lastFor_cons] at hlook
    rw [hkept]
    by_cases hr : r = i.1.dstNum
    · subst hr
      rw [if_pos rfl] at hlook
      cases hlast : lastFor i.1.dstNum rest with
      | none =>
        -- the committing allocation is the only one for its register
        rw [hlast] at hlook
        have htag := RenameTable.rrftag_of_lookup hlook
        simp [htag]
      | some t =>
        have hnodup := h.nodup
        rw [hrest, List.map_cons, List.nodup_cons] at hnodup
        have hne : i.1.dstRrftag ≠ t := by
          rintro rfl
          exact hnodup.1 (List.mem_map_of_mem (mem_of_lastFor hlast))
        rw [hlast] at hlook
        have htag := RenameTable.rrftag_of_lookup hlook
        simp [htag, hne, hlook]
    · have hne : ¬ i.1.dstNum = r := fun he => hr he.symm
      simp [hr, hlook, hne]

theorem lookup_step (h : Inv y) (hl : machine.legal y i) (r : RegSel) :
    (step i y).hw.lookup r = lastFor r (step i y).pending := by
  have hkept := h.lookup_kept hl.1 r
  simp only [step]
  rw [RenameTable.lookup_next, hkept]
  cases hd : i.2.dstEn with
  | false => simp
  | true => simp [lastFor_concat, eq_comm]

end Inv

theorem inv_step (h : Inv y) (hl : machine.legal y i) : Inv (step i y) where
  nodup := h.nodup_step hl
  lookup := h.lookup_step hl

section run
variable {s : RenameTable} {e : ℕ → Completed × SetBusy} {N n : ℕ}

theorem inv_run (hs : s.AfterReset) (hl : machine.Legal (start s) e N) (hn : n ≤ N) :
    Inv (machine.run (start s) e n) :=
  Clocked.run_invariant (inv_start hs) (fun _ _ h hi => inv_step h hi) hl n hn

/-- In every run a register is busy exactly when an allocation for it has not committed, and its six
    tag bits spell the tag of the youngest one. -/
theorem maps_youngest (hs : s.AfterReset) (hl : machine.Legal (start s) e N) (hn : n ≤ N)
    (r : RegSel) :
    ((machine.run (start s) e n).hw.busy r = true ↔
        ∃ p ∈ (machine.run (start s) e n).pending, p.1 = r) ∧
      ∀ t, lastFor r (machine.run (start s) e n).pending = some t →
        (machine.run (start s) e n).hw.rrftag r = t := by
  have hlook := (inv_run hs hl hn).lookup r
  rw [RenameTable.lookup] at hlook
  rw [← isSome_lastFor, ← hlook]
  split_ifs with hb
  · simp [hb]
  · simp [hb]

end run

/-- Register 1 is allocated twice; then its first allocation commits while the tag is given to
    register 2. -/
def renamed (n : ℕ) : Completed × SetBusy :=
  if n = 0 then (⟨false, 0, 0⟩, ⟨true, 1, 5⟩)
  else if n = 1 then (⟨false, 0, 0⟩, ⟨true, 1, 6⟩)
  else (⟨true, 1, 5⟩, ⟨true, 2, 5⟩)

theorem maps_youngest_renamed :
    ((machine.run (start ⟨0, 0, 0, 0, 0, 0, 0⟩) renamed 3).hw.busy 1 = true ↔
        ∃ p ∈ (machine.run (start ⟨0, 0, 0, 0, 0, 0, 0⟩) renamed 3).pending, p.1 = 1) ∧
      ∀ t, lastFor 1 (machine.run (start ⟨0, 0, 0, 0, 0, 0, 0⟩) renamed 3).pending = some t →
        (machine.run (start ⟨0, 0, 0, 0, 0, 0, 0⟩) renamed 3).hw.rrftag 1 = t :=
  maps_youngest (N := 3) ⟨⟨0, 0, 0, 0, 0, 0, 0⟩, ⟨false, 0, 0⟩, ⟨false, 0, 0⟩, rfl⟩
    (by decide +kernel) (by omega) 1

end TableSys

end HeliosXCore
