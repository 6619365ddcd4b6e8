import HeliosXCore.Sw.Station
import HeliosXCore.Lib.Window
import HeliosXCore.Lib.Run

/-! The memory reservation station, a queue of four entries without a head pointer. The busy entries
    are a window that ends before the allocation pointer; its first entry is found again in each
    cycle and is the only one that is issued. -/

namespace HeliosXCore
open Rtl

/-! ### The head of a window -/

namespace InorderAllocIssueUnit

/-- The first entry of a window of one to four entries is found: plain, wrapped around or full. -/
theorem issuePtr_window : ∀ (v : Bits 2) (first n : BitVec 2),
    (∀ a : BitVec 2, bit v a = decide ((a - first).toNat < n.toNat + 1)) →
      issuePtr v (first + n + 1) = first := by decide +kernel

theorem issuePtr_eq {v : Bits 2} {lo hi : ℕ} (h : Marks v lo hi) (hlt : lo < hi)
    (hroom : hi ≤ lo + 4) : issuePtr v (BitVec.ofNat 2 hi) = BitVec.ofNat 2 lo := by
  obtain ⟨n, rfl⟩ : ∃ n, hi = lo + n + 1 := ⟨hi - lo - 1, by omega⟩
  have hn : (BitVec.ofNat 2 n).toNat = n := by
    rw [BitVec.toNat_ofNat, Nat.mod_eq_of_lt (by omega)]
  rw [← ofNat_succ, BitVec.ofNat_add]
  refine issuePtr_window v _ _ ?_
  intro a
  rw [Bool.eq_iff_iff, h.iff_sub hroom a, decide_eq_true_iff, hn]
  omega

end InorderAllocIssueUnit

/-! ### One edge of the station -/

namespace SwUnit
variable {s : SwUnit} {i : SwIn}

theorem AfterReset.memAllocPtr (hs : s.AfterReset) : s.memAllocPtr = 0 := by
  obtain ⟨s0, i, rfl⟩ := hs
  rfl

/-- The dispatch is accepted. -/
def memAccepts (s : SwUnit) (i : SwIn) : Bool := !i.stallDp && !i.killDp && s.memAllocatable false i

theorem memWe1_eq : s.memWe1 false i = (s.memAccepts i && decide (i.reqMemNum ≥ 1)) := rfl

theorem memWe2_eq : s.memWe2 false i = (s.memAccepts i && i.reqMemNum == 2) := rfl

/-- The second port writes only together with the first. -/
theorem memWe1_of_memWe2 (h : s.memWe2 false i = true) : s.memWe1 false i = true := by
  rw [memWe2_eq, Bool.and_eq_true, beq_iff_eq] at h
  rw [memWe1_eq, h.1, h.2]
  rfl

/-- The allocation pointer moves over what is written. -/
theorem memAllocPtr_next (h3 : i.reqMemNum ≠ 3) :
    (s.next false i).memAllocPtr = s.memAllocPtr +
      BitVec.ofNat 2 ((s.memWe1 false i).toNat + (s.memWe2 false i).toNat) := by
  have hreq : ∀ r : BitVec 2, r ≠ 3 →
      r.setWidth 2 = BitVec.ofNat 2 ((decide (r ≥ 1)).toNat + (r == 2).toNat) := by decide
  have hnext : (s.next false i).memAllocPtr =
      if s.memAccepts i then s.memAllocPtr + i.reqMemNum.setWidth 2 else s.memAllocPtr := rfl
  rw [hnext, memWe1_eq, memWe2_eq]
  cases s.memAccepts i with
  | false => simp
  | true => rw [if_pos rfl, Bool.true_and, Bool.true_and, hreq _ h3]

/-- The issue strobe: the entry pointed at is ready. -/
theorem exeMemIssue_eq (s : SwUnit) : s.exeMemIssue = s.rsMem.ready s.memIssueAddr := by
  have hvec : ∀ (r0 r1 r2 r3 : Bool) (a : BitVec 2),
      bitAt (BitVec.ofBool r3 ++ BitVec.ofBool r2 ++ BitVec.ofBool r1 ++ BitVec.ofBool r0) a.toNat =
        if a = 0 then r0 else if a = 1 then r1 else if a = 2 then r2 else r3 := by decide
  have hcases : ∀ a : BitVec 2, a = 0 ∨ a = 1 ∨ a = 2 ∨ a = 3 := by decide
  refine (hvec _ _ _ _ s.memIssueAddr).trans ?_
  rcases hcases s.memIssueAddr with h | h | h | h <;> rw [h] <;> rfl

/-- An operation that is issued was busy and has both operands. -/
theorem ready_of_exeMemIssue (h : s.exeMemIssue = true) :
    bit s.rsMem.busyVector s.memIssueAddr = true ∧ s.memIssueEntry.operand1.valid = true ∧
      s.memIssueEntry.operand2.valid = true := by
  rw [exeMemIssue_eq] at h
  simpa [RSAccessMem.ready, RSAccessMemEntry.ready, memIssueEntry, and_assoc] using h

/-- Some port writes entry `e`. -/
def memSelects (s : SwUnit) (i : SwIn) (e : BitVec 2) : Bool :=
  RSPort.selected (s.memPort1 false i) (s.memPort2 false i) e

/-- What the ports write there. -/
def memDispatched (s : SwUnit) (i : SwIn) (e : BitVec 2) : MemWrite :=
  RSPort.dataFor MemWrite.zero (s.memPort1 false i) (s.memPort2 false i) e

theorem memSelects_iff (e : BitVec 2) :
    s.memSelects i e = true ↔ (s.memWe1 false i = true ∧ s.memAllocPtr = e) ∨
      (s.memWe2 false i = true ∧ s.memAllocPtr + 1 = e) := RSPort.selected_iff _ _ e

theorem memDispatched_of_memWe1 (h : s.memWe1 false i = true) :
    s.memDispatched i s.memAllocPtr = memWrite i.dp1 := by
  have hport : (s.memPort1 false i).we = true := h
  exact RSPort.dataFor_first _ hport

theorem memDispatched_of_memWe2 (h : s.memWe2 false i = true) :
    s.memDispatched i (s.memAllocPtr + 1) = memWrite i.dp2 := by
  have hne : ∀ p : BitVec 2, p ≠ p + 1 := by decide
  have hport : (s.memPort2 false i).we = true := h
  have hport1 : (s.memPort1 false i).we = true →
      (s.memPort1 false i).addr ≠ (s.memPort2 false i).addr := fun _ => hne _
  exact RSPort.dataFor_second _ hport hport1

end SwUnit

/-- The entry has the fields that `w` was written with; an operand that was valid has its value. -/
structure RSAccessMemEntry.Carries (w : MemWrite) (s : RSAccessMemEntry) : Prop where
  pc : s.exePc = w.pc
  imm : s.exeImm = w.imm
  tag : s.exeRrfTag = w.rrfTag
  dstVal : s.exeDstVal = w.dstVal
  op1 : w.op1.valid = true → s.operand1 = w.op1
  op2 : w.op2.valid = true → s.operand2 = w.op2

namespace RSAccessMemEntry

/-- An entry that is written has the fields of what is dispatched to it. -/
theorem carries_written (w : MemWrite) (x : ExeResults) (s : RSAccessMemEntry) :
    Carries w (s.next false true w x) := by
  refine ⟨rfl, rfl, rfl, rfl, ?_, ?_⟩
  · rintro hv
    exact (written_eq_sourceManager x w.op1).trans (sourceManager_valid hv)
  · rintro hv
    exact (written_eq_sourceManager x w.op2).trans (sourceManager_valid hv)

/-- An entry that is not written keeps them. -/
theorem Carries.held {w : MemWrite} {s : RSAccessMemEntry} (h : Carries w s) (w' : MemWrite)
    (x : ExeResults) : Carries w (s.next false false w' x) := by
  refine ⟨h.pc, h.imm, h.tag, h.dstVal, ?_, ?_⟩
  · rintro hv
    refine Eq.trans ?_ (h.op1 hv)
    exact sourceManager_valid ((congrArg Operand.valid (h.op1 hv)).trans hv)
  · rintro hv
    refine Eq.trans ?_ (h.op2 hv)
    exact sourceManager_valid ((congrArg Operand.valid (h.op2 hv)).trans hv)

end RSAccessMemEntry

/-! ### The traced queue -/

/-- `SwUnit` with a record of the memory operations: those dispatched, in order, and the entries
    from which operations were issued, in order. -/
structure TracedMem where
  hw : SwUnit
  dispatched : ℕ
  op : ℕ → MemWrite
  issued : ℕ
  out : ℕ → RSAccessMemEntry

namespace TracedMem

def start (s : SwUnit) : TracedMem := ⟨s, 0, fun _ => .zero, 0, fun _ => .zero⟩

/-- The operations when the first port has written. -/
def op1 (i : SwIn) (t : TracedMem) : ℕ → MemWrite :=
  record (t.hw.memWe1 false i) t.op t.dispatched (SwUnit.memWrite i.dp1)

def step (i : SwIn) (t : TracedMem) : TracedMem where
  hw := t.hw.next false i
  dispatched := t.dispatched + ((t.hw.memWe1 false i).toNat + (t.hw.memWe2 false i).toNat)
  op := record (t.hw.memWe2 false i) (t.op1 i) (t.dispatched + 1) (SwUnit.memWrite i.dp2)
  issued := t.issued + t.hw.exeMemIssue.toNat
  out := record t.hw.exeMemIssue t.out t.issued t.hw.memIssueEntry

/-- Entry `a` holds an operation that has not been issued. -/
def Busy (t : TracedMem) (a : BitVec 2) : Prop := bit t.hw.rsMem.busyVector a = true

instance (t : TracedMem) (a : BitVec 2) : Decidable (t.Busy a) := inferInstanceAs (Decidable (_ = _))

/-- At most two operations are dispatched, and only into free entries. -/
def FreeDispatch (t : TracedMem) (i : SwIn) : Prop :=
  i.reqMemNum ≠ 3 ∧ (t.hw.memWe1 false i = true → ¬ t.Busy t.hw.freeMemEntry1) ∧
    (t.hw.memWe2 false i = true → ¬ t.Busy t.hw.freeMemEntry2)

instance (t : TracedMem) (i : SwIn) : Decidable (t.FreeDispatch i) :=
  inferInstanceAs (Decidable (_ ∧ _ ∧ _))

/-- No entry is written while it is busy. -/
theorem FreeDispatch.not_selects {t : TracedMem} {i : SwIn} (hl : t.FreeDispatch i) {e : BitVec 2}
    (hb : t.Busy e) : t.hw.memSelects i e = false := by
  obtain ⟨_, hf1, hf2⟩ := hl
  rw [← Bool.not_eq_true, SwUnit.memSelects_iff]
  rintro (⟨hwe, rfl⟩ | ⟨hwe, rfl⟩)
  · exact hf1 hwe hb
  · exact hf2 hwe hb

def machine : Clocked TracedMem SwIn := ⟨step, FreeDispatch⟩

instance (t : TracedMem) (i : SwIn) : Decidable (machine.legal t i) :=
  inferInstanceAs (Decidable (t.FreeDispatch i))

/-- The queue in cycle `n` under the inputs `e`. -/
def cycle (s : SwUnit) (e : ℕ → SwIn) (n : ℕ) : TracedMem := machine.run (start s) e n

/-- The busy entries are the window from the oldest operation that has not been issued to the
    allocation pointer, that operation is pointed at, and operations are issued in order. -/
structure InOrder (t : TracedMem) : Prop where
  le : t.issued ≤ t.dispatched
  room : t.dispatched ≤ t.issued + 4
  allocPtr : t.hw.memAllocPtr = BitVec.ofNat 2 t.dispatched
  window : Marks t.hw.rsMem.busyVector t.issued t.dispatched
  entry : ∀ k, t.issued ≤ k → k < t.dispatched →
    RSAccessMemEntry.Carries (t.op k) (t.hw.rsMem.entry (BitVec.ofNat 2 k))
  out : ∀ k, k < t.issued → RSAccessMemEntry.Carries (t.op k) (t.out k) ∧
    (t.out k).operand1.valid = true ∧ (t.out k).operand2.valid = true

theorem inOrder_start {s : SwUnit} (hs : s.AfterReset) : (start s).InOrder where
  le := le_refl 0
  room := by
    change 0 ≤ 0 + 4
    omega
  allocPtr := hs.memAllocPtr
  window := by
    have hb : (start s).hw.rsMem.busyVector = 0 := hs.busyVector.2
    rw [hb]
    exact marks_empty 0
  entry := fun k _ hk => absurd hk (Nat.not_lt_zero k)
  out := fun k hk => absurd hk (Nat.not_lt_zero k)

/-! ### What one cycle records -/

section Record
variable (i : SwIn) (t : TracedMem)

theorem op_step_of_lt {k : ℕ} (hk : k < t.dispatched) : (t.step i).op k = t.op k :=
  (record_of_lt (Nat.lt_succ_of_lt hk) _).trans (record_of_lt hk _)

theorem op_step_first (hwe : t.hw.memWe1 false i = true) :
    (t.step i).op t.dispatched = SwUnit.memWrite i.dp1 :=
  (record_of_lt (Nat.lt_succ_self _) _).trans (record_self hwe _ _ _)

theorem op_step_second (hwe : t.hw.memWe2 false i = true) :
    (t.step i).op (t.dispatched + 1) = SwUnit.memWrite i.dp2 := record_self hwe _ _ _

theorem out_step_of_lt {k : ℕ} (hk : k < t.issued) : (t.step i).out k = t.out k :=
  record_of_lt hk _

theorem out_step_issued (hi : t.hw.exeMemIssue = true) :
    (t.step i).out t.issued = t.hw.memIssueEntry := record_self hi _ _ _

end Record

end TracedMem

/-- Writes behind a window and the release of its first entry move the window. -/
theorem RSPort.marks_busyNext {sel : ℕ} {α : Type} {p1 p2 : RSPort sel α} {clear : Bool}
    {a : BitVec sel} {v : Bits sel} {lo hi : ℕ} (h : Marks v lo hi) (hlo : lo ≤ hi)
    (h1 : p1.addr = BitVec.ofNat sel hi) (h2 : p2.addr = BitVec.ofNat sel (hi + 1))
    (h21 : p2.we = true → p1.we = true) (ha : clear = true → a = BitVec.ofNat sel lo)
    (hroom : hi + (p1.we.toNat + p2.we.toNat) ≤ lo + 2 ^ sel) :
    Marks (busyNext false p1 p2 clear a v) (lo + clear.toNat)
      (hi + (p1.we.toNat + p2.we.toNat)) := by
  have hw1 : Marks (if p1.we then setBit v p1.addr true else v) lo (hi + p1.we.toNat) := by
    cases p1.we with
    | false => exact h
    | true =>
      rw [h1]
      exact h.push hlo
  have hw2 : Marks (if p2.we then setBit (if p1.we then setBit v p1.addr true else v) p2.addr true
      else if p1.we then setBit v p1.addr true else v) lo (hi + (p1.we.toNat + p2.we.toNat)) := by
    cases hp : p2.we with
    | false => exact hw1
    | true =>
      rw [h21 hp] at hw1 ⊢
      rw [h2]
      exact hw1.push (by omega)
  cases clear with
  | false => exact hw2
  | true =>
    rw [ha rfl]
    exact hw2.pop hroom

namespace TracedMem

namespace InOrder
variable {t : TracedMem} {i : SwIn} (h : t.InOrder)
include h

/-- The oldest operation that has not been issued is pointed at. -/
theorem head (hlt : t.issued < t.dispatched) :
    t.hw.memIssueAddr = BitVec.ofNat 2 t.issued := by
  rw [SwUnit.memIssueAddr, h.allocPtr]
  exact InorderAllocIssueUnit.issuePtr_eq h.window hlt h.room

/-- It is the only one that is issued. -/
theorem lt_of_issue (hi : t.hw.exeMemIssue = true) : t.issued < t.dispatched := by
  obtain ⟨k, hk, hk', _⟩ := (h.window _).mp (SwUnit.ready_of_exeMemIssue hi).1
  omega

theorem issued_carries (hi : t.hw.exeMemIssue = true) :
    RSAccessMemEntry.Carries (t.op t.issued) t.hw.memIssueEntry := by
  have hlt := h.lt_of_issue hi
  rw [SwUnit.memIssueEntry, h.head hlt]
  exact h.entry t.issued (le_refl _) hlt

/-- What is dispatched finds room. -/
theorem room_dispatch (hl : t.FreeDispatch i) :
    t.dispatched + ((t.hw.memWe1 false i).toNat + (t.hw.memWe2 false i).toNat) ≤ t.issued + 4 := by
  obtain ⟨_, hf1, hf2⟩ := hl
  simp only [Busy, Bool.not_eq_true, SwUnit.freeMemEntry1, SwUnit.freeMemEntry2] at hf1 hf2
  rw [h.allocPtr] at hf1 hf2
  have hroom := h.room
  cases hw2 : t.hw.memWe2 false i with
  | false =>
    cases hw1 : t.hw.memWe1 false i with
    | false => exact hroom
    | true => exact h.window.lt_of_free h.le hroom (hf1 hw1)
  | true =>
    have hw1 := SwUnit.memWe1_of_memWe2 hw2
    have hlt := h.window.lt_of_free h.le hroom (hf1 hw1)
    have hne : ∀ a : BitVec 2, a + 1 ≠ a := by decide
    have hfree : bit (setBit t.hw.rsMem.busyVector (BitVec.ofNat 2 t.dispatched) true)
        (BitVec.ofNat 2 (t.dispatched + 1)) = false := by
      rw [bit_setBit, ← ofNat_succ, if_neg (hne _)]
      exact hf2 hw2
    rw [hw1]
    exact (h.window.push h.le).lt_of_free (Nat.le_succ_of_le h.le) hlt hfree

/-- After a cycle each waiting operation is in its entry, old ones and new ones. -/
theorem entry_step (hl : t.FreeDispatch i) {k : ℕ} (hk : t.issued ≤ k)
    (hk' : k < t.dispatched + ((t.hw.memWe1 false i).toNat + (t.hw.memWe2 false i).toNat)) :
    RSAccessMemEntry.Carries ((t.step i).op k)
      ((t.step i).hw.rsMem.entry (BitVec.ofNat 2 k)) := by
  have hnext : ∀ e, (t.step i).hw.rsMem.entry e = (t.hw.rsMem.entry e).next false
      (t.hw.memSelects i e) (t.hw.memDispatched i e) i.exeResults := fun _ => rfl
  rw [hnext]
  rcases Nat.lt_or_ge k t.dispatched with hlt | hge
  · have hb : t.Busy (BitVec.ofNat 2 k) := (h.window _).mpr ⟨k, hk, hlt, rfl⟩
    rw [hl.not_selects hb, op_step_of_lt i t hlt]
    exact (h.entry k hk hlt).held _ _
  · have h12 := SwUnit.memWe1_of_memWe2 (s := t.hw) (i := i)
    cases hw1 : t.hw.memWe1 false i with
    | false =>
      have hw2 : t.hw.memWe2 false i = false := by
        rw [← Bool.not_eq_true]
        rintro hw2
        rw [h12 hw2] at hw1
        cases hw1
      rw [hw1, hw2] at hk'
      exact absurd hk' (Nat.not_lt.mpr hge)
    | true =>
      rcases Nat.eq_or_lt_of_le hge with rfl | hgt
      · have hsel : t.hw.memSelects i t.hw.memAllocPtr = true :=
          (SwUnit.memSelects_iff _).mpr (Or.inl ⟨hw1, rfl⟩)
        rw [op_step_first i t hw1, ← h.allocPtr, hsel, SwUnit.memDispatched_of_memWe1 hw1]
        exact RSAccessMemEntry.carries_written _ _ _
      · cases hw2 : t.hw.memWe2 false i with
        | false =>
          rw [hw1, hw2, Bool.toNat_true, Bool.toNat_false] at hk'
          omega
        | true =>
          obtain rfl : k = t.dispatched + 1 := by
            rw [hw1, hw2, Bool.toNat_true] at hk'
            omega
          have hsel : t.hw.memSelects i (t.hw.memAllocPtr + 1) = true :=
            (SwUnit.memSelects_iff _).mpr (Or.inr ⟨hw2, rfl⟩)
          rw [op_step_second i t hw2, ← ofNat_succ, ← h.allocPtr, hsel,
            SwUnit.memDispatched_of_memWe2 hw2]
          exact RSAccessMemEntry.carries_written _ _ _

/-- One cycle, with an issue and up to two dispatches, moves the window. -/
theorem step (hl : t.FreeDispatch i) : (t.step i).InOrder where
  le := by
    change t.issued + t.hw.exeMemIssue.toNat ≤ t.dispatched + _
    have hle := h.le
    cases hi : t.hw.exeMemIssue with
    | false =>
      rw [Bool.toNat_false]
      omega
    | true =>
      have hlt := h.lt_of_issue hi
      rw [Bool.toNat_true]
      omega
  room := Nat.le_trans (h.room_dispatch hl) (by
    change t.issued + 4 ≤ t.issued + t.hw.exeMemIssue.toNat + 4
    omega)
  allocPtr := by
    change (t.hw.next false i).memAllocPtr = _
    rw [SwUnit.memAllocPtr_next hl.1, h.allocPtr, ← BitVec.ofNat_add]
    rfl
  window := by
    refine RSPort.marks_busyNext h.window h.le h.allocPtr ?_ SwUnit.memWe1_of_memWe2 ?_
      (h.room_dispatch hl)
    · rw [← ofNat_succ, ← h.allocPtr]
      rfl
    · rintro hi
      exact h.head (h.lt_of_issue hi)
  entry := by
    rintro k hk hk'
    exact h.entry_step hl (Nat.le_trans (Nat.le_add_right _ _) hk) hk'
  out := by
    rintro k hk
    rcases Nat.lt_or_ge k t.issued with hlt | hge
    · rw [op_step_of_lt i t (Nat.lt_of_lt_of_le hlt h.le), out_step_of_lt i t hlt]
      exact h.out k hlt
    · change k < t.issued + t.hw.exeMemIssue.toNat at hk
      cases hi : t.hw.exeMemIssue with
      | false =>
        rw [hi, Bool.toNat_false] at hk
        omega
      | true =>
        obtain rfl : k = t.issued := by
          rw [hi, Bool.toNat_true] at hk
          omega
        rw [op_step_of_lt i t (h.lt_of_issue hi), out_step_issued i t hi]
        exact ⟨h.issued_carries hi, (SwUnit.ready_of_exeMemIssue hi).2⟩

end InOrder

/-- Memory operations are issued in dispatch order, each once, as long as dispatch writes free
    entries only. -/
theorem issue_inOrder {s : SwUnit} (hs : s.AfterReset) (e : ℕ → SwIn) (n : ℕ)
    (hl : machine.Legal (start s) e n) :
    (cycle s e n).InOrder ∧
      ((cycle s e n).issued < (cycle s e n).dispatched →
        (cycle s e n).hw.memIssueAddr = BitVec.ofNat 2 (cycle s e n).issued) ∧
      ((cycle s e n).hw.exeMemIssue = true →
        (cycle s e n).issued < (cycle s e n).dispatched ∧
          RSAccessMemEntry.Carries ((cycle s e n).op (cycle s e n).issued)
            (cycle s e n).hw.memIssueEntry) := by
  have h : (cycle s e n).InOrder :=
    Clocked.run_invariant (inOrder_start hs) (fun _ _ ht hi => ht.step hi) hl n (le_refl n)
  refine ⟨h, fun hlt => h.head hlt, ?_⟩
  rintro hi
  exact ⟨h.lt_of_issue hi, h.issued_carries hi⟩

/-- Two loads with both operands in every cycle. -/
def twoLoads : SwIn where
  nextRrfCycle := false
  reqAluNum := 0
  reqMemNum := 2
  dp1 := ⟨0, ⟨16, true⟩, ⟨0, true⟩, 0, 0, 4, 1, true, 0⟩
  dp2 := ⟨4, ⟨32, true⟩, ⟨0, true⟩, 0, 0, 8, 2, true, 0⟩
  stallDp := false
  killDp := false
  exeResults := ⟨⟨0, 0⟩, ⟨0, 0⟩, ⟨0, 0⟩, ⟨0, 0⟩, ⟨0, 0⟩⟩

/-- The queue fills, wraps around and issues one operation in each cycle. -/
theorem issue_inOrder_twoLoads :
    (cycle (SwUnit.zero.next true twoLoads) (fun _ => twoLoads) 6).InOrder :=
  (issue_inOrder ⟨SwUnit.zero, twoLoads, rfl⟩ (fun _ => twoLoads) 6 (by decide +kernel)).1

end TracedMem

end HeliosXCore
