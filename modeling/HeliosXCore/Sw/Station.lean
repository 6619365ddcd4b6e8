import HeliosXCore.Sw.Select

/-! One edge of `RSAlu` with a single dispatch: the selected entry is written, the issued one is
    freed, every other operand looks at the broadcast results. -/

namespace HeliosXCore
open Rtl

namespace ExeResults

/-- No result is broadcast on the ports that nothing is connected to, nor on the branch port. -/
structure OnlyAlu (x : ExeResults) : Prop where
  r2 : x.r2.dst = 0
  r3 : x.r3.dst = 0
  r4 : x.r4.dst = 0
  r5 : x.r5.dst = 0

variable {x : ExeResults} {t : RrfTag}

theorem hit_eq (hx : x.OnlyAlu) (ht : t ≠ 0) : x.hit t = (x.r1.dst == t) := by
  have h0 : ((0 : RrfTag) == t) = false := beq_false_of_ne ht.symm
  simp only [hit, hx.r2, hx.r3, hx.r4, hx.r5, h0, Bool.or_false]

theorem pick_of_hit (ht : x.r1.dst = t) (other : Word) : x.pick t other = x.r1.data := by
  simp [pick, ht]

end ExeResults

/-- An operand that waits stays as it is unless its tag is broadcast. -/
theorem sourceManager_waiting {x : ExeResults} {o : Operand} (hx : x.OnlyAlu) (ho : o.valid = false)
    (ht : o.tag ≠ 0) :
    sourceManager x o = if x.r1.dst = o.tag then ⟨x.r1.data, true⟩ else o := by
  have hmk : sourceManager x o = ⟨x.pick o.tag o.op, x.r1.dst == o.tag⟩ := by
    rw [sourceManager, ExeResults.hit_eq hx ht, ho]
    rfl
  rw [hmk]
  by_cases h : x.r1.dst = o.tag
  · rw [if_pos h, ExeResults.pick_of_hit h, h, beq_self_eq_true]
  · have hb : (x.r1.dst == o.tag) = false := beq_false_of_ne h
    have hpick : x.pick o.tag o.op = o.op := by
      simp only [ExeResults.pick, h, hx.r2, hx.r3, hx.r4, hx.r5, ht.symm, if_false]
    rw [if_neg h, hpick, hb, ← ho]

theorem sourceManager_valid {x : ExeResults} {o : Operand} (ho : o.valid = true) :
    sourceManager x o = o := by
  rw [sourceManager, ho, Bool.true_or, if_pos rfl, ← ho]

/-- The write path of an entry does what an entry would do with the operand. -/
theorem written_eq_sourceManager (x : ExeResults) (o : Operand) :
    RSOperand.written true x o = sourceManager x o := by
  cases o with
  | mk op valid =>
    cases valid with
    | true => simp [RSOperand.written, RSOperand.writeOpUpdate, sourceManager]
    | false =>
      cases h : x.hit (Operand.tag ⟨op, false⟩) with
      | true => simp [RSOperand.written, RSOperand.writeOpUpdate, sourceManager, h]
      | false =>
        simp only [RSOperand.written, RSOperand.writeOpUpdate, sourceManager, h]
        simp only [ExeResults.hit, Bool.or_eq_false_iff, beq_eq_false_iff_ne] at h
        simp [ExeResults.pick, h]

namespace RSPort
variable {sel : ℕ} {α : Type}

theorem selected_iff (p1 p2 : RSPort sel α) (e : BitVec sel) :
    selected p1 p2 e = true ↔ (p1.we = true ∧ p1.addr = e) ∨ (p2.we = true ∧ p2.addr = e) := by
  simp [selected, hits]

theorem dataFor_first (zero : α) {p1 p2 : RSPort sel α} (h1 : p1.we = true) :
    dataFor zero p1 p2 p1.addr = p1.data := by
  simp [dataFor, hits, h1]

/-- The second port is seen at an entry that the first one does not write. -/
theorem dataFor_second (zero : α) {p1 p2 : RSPort sel α} (h2 : p2.we = true)
    (hne : p1.we = true → p1.addr ≠ p2.addr) : dataFor zero p1 p2 p2.addr = p2.data := by
  have h1 : p1.hits p2.addr = false := by
    cases hwe : p1.we with
    | false => simp [hits, hwe]
    | true => simp [hits, hne hwe]
  have hhit : p2.hits p2.addr = true := by simp [hits, h2]
  rw [dataFor, h1, hhit]
  rfl

/-- A write port sets the bit of its entry. -/
theorem bit_write (p : RSPort sel α) (v : Bits sel) (e : BitVec sel) :
    bit (if p.we then setBit v p.addr true else v) e = (p.hits e || bit v e) := by
  cases hw : p.we with
  | false => simp [hits, hw]
  | true =>
    by_cases h : p.addr = e
    · simp [hits, hw, h]
    · simp [hits, hw, h, Ne.symm h]

theorem bit_busyNext (p1 p2 : RSPort sel α) (clear : Bool) (a : BitVec sel) (v : Bits sel)
    (e : BitVec sel) :
    bit (busyNext false p1 p2 clear a v) e =
      if clear ∧ a = e then false else (selected p1 p2 e || bit v e) := by
  have hw : bit (if p2.we then setBit (if p1.we then setBit v p1.addr true else v) p2.addr true
      else if p1.we then setBit v p1.addr true else v) e = (selected p1 p2 e || bit v e) := by
    rw [bit_write, bit_write, selected, Bool.or_left_comm, Bool.or_assoc]
  cases clear with
  | false => simpa [busyNext] using hw
  | true =>
    by_cases h : a = e
    · simp [busyNext, h]
    · simpa [busyNext, h, Ne.symm h] using hw

end RSPort

namespace SwUnit
variable {s : SwUnit} {i : SwIn}

/-- Reset was held at one edge or more, from any power-on state. -/
def AfterReset (s : SwUnit) : Prop := ∃ s0 i, s = SwUnit.next true i s0

/-- No entry is busy after reset. -/
theorem AfterReset.busyVector (hs : s.AfterReset) :
    s.rsAlu.busyVector = 0 ∧ s.rsMem.busyVector = 0 := by
  obtain ⟨s0, i, rfl⟩ := hs
  exact ⟨rfl, rfl⟩

/-- Entry `e` is written in this cycle. -/
def WritesEntry (s : SwUnit) (i : SwIn) (e : BitVec 3) : Prop :=
  s.aluWe1 i = true ∧ s.aluRsAllocateEntry1 = e

instance (e : BitVec 3) : Decidable (s.WritesEntry i e) := inferInstanceAs (Decidable (_ ∧ _))

/-- Entry `e` is issued in this cycle. -/
def IssuesEntry (s : SwUnit) (e : BitVec 3) : Prop := s.exeAluIssue = true ∧ s.aluIssueAddr = e

instance (e : BitVec 3) : Decidable (s.IssuesEntry e) := inferInstanceAs (Decidable (_ ∧ _))

/-- What a dispatched instruction looks like in its entry. -/
def stored (x : ExeResults) (w : AluWrite) : RSAluEntry where
  operand1 := sourceManager x w.op1
  operand2 := sourceManager x w.op2
  exePc := w.pc
  exeImm := w.imm
  exeRrfTag := w.rrfTag
  exeDstVal := w.dstVal
  exeAluOp := w.aluOp
  exeSrcA := w.srcA
  exeSrcB := w.srcB

/-- What an entry that is not written does. -/
def held (x : ExeResults) (s : RSAluEntry) : RSAluEntry :=
  { s with
    operand1 := sourceManager x s.operand1
    operand2 := sourceManager x s.operand2 }

theorem free_of_writesEntry {e : BitVec 3} (h : s.WritesEntry i e) :
    bit s.rsAlu.busyVector e = false := by
  obtain ⟨hwe, rfl⟩ := h
  simp only [aluWe1, Bool.and_eq_true] at hwe
  rw [aluRsAllocateEntry1, if_pos hwe.1.1.2]
  exact (AllocateUnit.freeEntry1_spec s.rsAlu.busyVector hwe.1.1.2).1

theorem ready_of_issuesEntry {e : BitVec 3} (h : s.IssuesEntry e) : s.rsAlu.Ready e := by
  obtain ⟨hi, rfl⟩ := h
  exact exeAluIssue_iff.mp hi

theorem aluWe2_eq_false (h : i.reqAluNum ≠ 2) : s.aluWe2 i = false := by
  rw [aluWe2, beq_false_of_ne h, Bool.and_false, Bool.false_and]

/-- Some port writes entry `e`. -/
def selects (s : SwUnit) (i : SwIn) (e : BitVec 3) : Bool :=
  RSPort.selected (s.aluPort1 i) (s.aluPort2 i) e

/-- What the ports write there. -/
def dispatched (s : SwUnit) (i : SwIn) (e : BitVec 3) : AluWrite :=
  RSPort.dataFor AluWrite.zero (s.aluPort1 i) (s.aluPort2 i) e

/-- Every entry is written with the instruction for it or watches the broadcast results. -/
theorem entry_next_eq (e : BitVec 3) :
    (s.next false i).rsAlu.entry e =
      if s.selects i e then stored i.exeResults (s.dispatched i e)
      else held i.exeResults (s.rsAlu.entry e) := by
  change (s.rsAlu.entry e).next false (s.selects i e) (s.dispatched i e) i.exeResults = _
  cases s.selects i e with
  | true => simp [RSAluEntry.next, RSOperand.next, written_eq_sourceManager, stored]
  | false => simp [RSAluEntry.next, RSOperand.next, held]

theorem selects_iff (e : BitVec 3) :
    s.selects i e = true ↔ s.WritesEntry i e ∨
      (s.aluWe2 i = true ∧ s.aluRsAllocateEntry2 = e) := RSPort.selected_iff _ _ e

/-- With one instruction in a cycle the second port is idle. -/
theorem selects_iff_writes (h2 : i.reqAluNum ≠ 2) (e : BitVec 3) :
    s.selects i e = true ↔ s.WritesEntry i e := by
  simp [selects_iff, aluWe2_eq_false h2]

theorem dispatched_eq {e : BitVec 3} (hw : s.WritesEntry i e) : s.dispatched i e = i.dp1 := by
  obtain ⟨hwe, rfl⟩ := hw
  have hport : (s.aluPort1 i).we = true := hwe
  exact RSPort.dataFor_first _ hport

theorem entry_next (h2 : i.reqAluNum ≠ 2) (e : BitVec 3) :
    (s.next false i).rsAlu.entry e =
      if s.WritesEntry i e then stored i.exeResults i.dp1
      else held i.exeResults (s.rsAlu.entry e) := by
  rw [entry_next_eq]
  simp only [selects_iff_writes h2]
  by_cases hw : s.WritesEntry i e
  · rw [if_pos hw, if_pos hw, dispatched_eq hw]
  · rw [if_neg hw, if_neg hw]

end SwUnit

/-- A written entry sets its sort bit, and the first write of a lap clears the others. -/
theorem RSAlu.bit_sortBitNext (lap : Bool) (p1 p2 : RSPort 3 AluWrite) (v : Bits 3) (e : BitVec 3)
    (h2 : p2.we = false) :
    bit (sortBitNext false lap p1 p2 v) e =
      if p1.we ∧ p1.addr = e then true else if lap then false else bit v e := by
  have hone : ∀ a e : BitVec 3, bit (1#8 <<< a : Bits 3) e = decide (a = e) := by decide
  cases lap with
  | false => cases hw : p1.we <;> simp [sortBitNext, hw, h2, eq_comm (b := e)]
  | true =>
    have hz : oneHot p2 = 0#8 := by simp [oneHot, h2]
    have hor : sortBitNext false true p1 p2 v = oneHot p1 := by
      change oneHot p1 ||| oneHot p2 = oneHot p1
      rw [hz]
      exact BitVec.or_zero
    rw [hor]
    cases hw : p1.we with
    | false =>
      have h1 : oneHot p1 = 0#8 := by simp [oneHot, hw]
      rw [h1]
      simpa using bit_zero e
    | true =>
      have h1 : oneHot p1 = (1#8 <<< p1.addr : Bits 3) := by simp [oneHot, hw]
      rw [h1, hone]
      by_cases he : p1.addr = e <;> simp [he]

namespace SwUnit
variable {s : SwUnit} {i : SwIn}

/-- The issued entry is freed, also in the cycle in which others are taken. -/
theorem busy_next (e : BitVec 3) :
    bit (s.next false i).rsAlu.busyVector e = true ↔
      ¬ s.IssuesEntry e ∧ (s.selects i e = true ∨ bit s.rsAlu.busyVector e = true) := by
  have hnext : bit (s.next false i).rsAlu.busyVector e =
      if s.IssuesEntry e then false else (s.selects i e || bit s.rsAlu.busyVector e) :=
    RSPort.bit_busyNext _ _ _ _ _ e
  rw [hnext]
  by_cases hi : s.IssuesEntry e
  · simp [hi]
  · simp [hi]

theorem busy_next_of_one (h2 : i.reqAluNum ≠ 2) (e : BitVec 3) :
    bit (s.next false i).rsAlu.busyVector e = true ↔
      ¬ s.IssuesEntry e ∧ (s.WritesEntry i e ∨ bit s.rsAlu.busyVector e = true) := by
  rw [busy_next, selects_iff_writes h2]

theorem sortBit_next (h2 : i.reqAluNum ≠ 2) (e : BitVec 3) :
    bit (s.next false i).rsAlu.sortBit e =
      if s.WritesEntry i e then true
      else if i.nextRrfCycle then false
      else bit s.rsAlu.sortBit e :=
  RSAlu.bit_sortBitNext _ _ _ _ e (aluWe2_eq_false h2)

end SwUnit

end HeliosXCore
