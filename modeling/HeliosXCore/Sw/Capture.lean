import HeliosXCore.Lib.History
import HeliosXCore.Sw.ExactlyOnce
import HeliosXCore.Sw.Queue

/-! What an issued instruction computes with. In both reservation stations an operand that was not a
    value when it was dispatched is the data of the first broadcast of its tag, in the cycle of the
    dispatch or later. -/

namespace HeliosXCore
open Rtl

/-! ### One operand -/

/-- The operand `o` after `d` cycles of broadcasts, the first of them in cycle `c`. -/
def watch (x : ℕ → ExeResults) (o : Operand) (c : ℕ) : ℕ → Operand
  | 0 => o
  | d + 1 => sourceManager (x (c + d)) (watch x o c d)

/-- `v` is the value of `o`, or the data of the first broadcast of its tag in the cycles `c, ..., n - 1`.
    Of several results of one cycle the first of the five counts. -/
def Captures (x : ℕ → ExeResults) (o : Operand) (c n : ℕ) (v : Word) : Prop :=
  (o.valid = true ∧ v = o.op) ∨ (o.valid = false ∧ ∃ j, c ≤ j ∧ j < n ∧
    (x j).hit o.tag = true ∧ v = (x j).pick o.tag o.op ∧
    ∀ i, c ≤ i → i < j → (x i).hit o.tag = false)

section Operand
variable {x : ℕ → ExeResults} {o : Operand} {c : ℕ}

theorem sourceManager_hit {x : ExeResults} (ho : o.valid = false) (h : x.hit o.tag = true) :
    sourceManager x o = ⟨x.pick o.tag o.op, true⟩ := by
  rw [sourceManager, ho, h]
  rfl

theorem sourceManager_miss {x : ExeResults} (h : x.hit o.tag = false) : sourceManager x o = o := by
  have hpick : x.pick o.tag o.op = o.op := by
    simp only [ExeResults.hit, Bool.or_eq_false_iff, beq_eq_false_iff_ne] at h
    simp [ExeResults.pick, h]
  rw [sourceManager, h, hpick, Bool.or_false, ite_self]

theorem watch_valid (ho : o.valid = true) (d : ℕ) : watch x o c d = o := by
  induction d with
  | zero => rfl
  | succ d ih => rw [watch, ih, sourceManager_valid ho]

/-- Until its tag is broadcast an operand waits, and from then on it is that result. -/
theorem watch_waiting (ho : o.valid = false) (d : ℕ) :
    (watch x o c d = o ∧ ∀ i, c ≤ i → i < c + d → (x i).hit o.tag = false) ∨
      ∃ j, c ≤ j ∧ j < c + d ∧ (x j).hit o.tag = true ∧
        (∀ i, c ≤ i → i < j → (x i).hit o.tag = false) ∧
        watch x o c d = ⟨(x j).pick o.tag o.op, true⟩ := by
  induction d with
  | zero => exact Or.inl ⟨rfl, fun i hi hi' => by omega⟩
  | succ d ih =>
    rcases ih with ⟨heq, hno⟩ | ⟨j, hj, hj', hhit, hno, heq⟩
    · rw [watch, heq]
      cases hhit : (x (c + d)).hit o.tag with
      | true =>
        exact Or.inr ⟨c + d, by omega, by omega, hhit, fun i hi hi' => hno i hi hi',
          sourceManager_hit ho hhit⟩
      | false =>
        refine Or.inl ⟨sourceManager_miss hhit, ?_⟩
        intro i hi hi'
        rcases Nat.lt_succ_iff_lt_or_eq.mp hi' with hlt | rfl
        · exact hno i hi hlt
        · exact hhit
    · refine Or.inr ⟨j, hj, by omega, hhit, hno, ?_⟩
      rw [watch, heq, sourceManager_valid rfl]

theorem captures_of_watch {d : ℕ} (hv : (watch x o c d).valid = true) :
    Captures x o c (c + d) (watch x o c d).op := by
  cases ho : o.valid with
  | true => exact Or.inl ⟨ho, by rw [watch_valid ho]⟩
  | false =>
    rcases watch_waiting (x := x) (c := c) ho d with ⟨heq, -⟩ | ⟨j, hj, hj', hhit, hno, heq⟩
    · rw [heq, ho] at hv
      cases hv
    · exact Or.inr ⟨ho, j, hj, hj', hhit, by rw [heq], hno⟩

/-- A slot that is loaded with `w` and watches the broadcasts in every cycle is, after its last load, what
    the loaded operand has become. -/
theorem slot_eq_watch {r w : ℕ → Operand} {L : ℕ → Prop} [DecidablePred L]
    (hr : ∀ j, r (j + 1) = sourceManager (x j) (if L j then w j else r j)) (hc : L c) {d : ℕ}
    (hno : ∀ j, c < j → j < c + d + 1 → ¬ L j) : r (c + d + 1) = watch x (w c) c (d + 1) := by
  induction d with
  | zero =>
    change r (c + 1) = sourceManager (x (c + 0)) (w c)
    rw [hr, if_pos hc]
    rfl
  | succ d ih =>
    have hstep := hr (c + d + 1)
    rw [if_neg (hno _ (by omega) (by omega)), ih fun j hj hj' => hno j hj (by omega)] at hstep
    exact hstep

/-- What is loaded is captured by the time it is a value. -/
theorem captures_of_slot {r w : ℕ → Operand} {L : ℕ → Prop} [DecidablePred L]
    (hr : ∀ j, r (j + 1) = sourceManager (x j) (if L j then w j else r j)) (hc : L c) {n : ℕ}
    (hlt : c < n) (hno : ∀ j, c < j → j < n → ¬ L j) (hv : (r n).valid = true) :
    Captures x (w c) c n (r n).op := by
  obtain ⟨d, rfl⟩ := Nat.exists_eq_add_of_lt hlt
  have heq := slot_eq_watch hr hc hno
  rw [heq] at hv ⊢
  exact captures_of_watch hv

/-- An entry writes and watches its operands alike. -/
theorem RSOperand.next_eq (we : Bool) (x : ExeResults) (w o : Operand) :
    RSOperand.next false we x w o = sourceManager x (if we = true then w else o) := by
  cases we with
  | true => exact written_eq_sourceManager x w
  | false => rfl

theorem RSOperand.exeOp_valid {x : ExeResults} (ho : o.valid = true) : exeOp x o = o.op := by
  simp [exeOp, ho]

end Operand

/-! ### The stations -/

namespace SwUnit

/-- The unit under any inputs. -/
def machine : Clocked SwUnit SwIn := ⟨next false, fun _ _ => True⟩

/-- The unit in cycle `n`. -/
def cycle (s : SwUnit) (e : ℕ → SwIn) (n : ℕ) : SwUnit := machine.run s e n

/-- A port of `RSAlu` writes `w` into entry `a`. -/
def WritesAlu (s : SwUnit) (i : SwIn) (a : BitVec 3) (w : AluWrite) : Prop :=
  (s.aluWe1 i = true ∧ s.aluRsAllocateEntry1 = a ∧ w = i.dp1) ∨
    (s.aluWe2 i = true ∧ s.aluRsAllocateEntry2 = a ∧ w = i.dp2)

/-- A port of `RSAccessMem` writes `w` into entry `a`. -/
def WritesMem (s : SwUnit) (i : SwIn) (a : BitVec 2) (w : MemWrite) : Prop :=
  (s.memWe1 false i = true ∧ s.freeMemEntry1 = a ∧ w = memWrite i.dp1) ∨
    (s.memWe2 false i = true ∧ s.freeMemEntry2 = a ∧ w = memWrite i.dp2)

variable {s : SwUnit} {i : SwIn}

theorem writesAlu_of_selects {a : BitVec 3} (h : s.selects i a = true) :
    s.WritesAlu i a (s.dispatched i a) := by
  rcases (selects_iff a).mp h with ⟨hwe, rfl⟩ | ⟨hwe, rfl⟩
  · exact Or.inl ⟨hwe, rfl, dispatched_of_aluWe1 hwe⟩
  · exact Or.inr ⟨hwe, rfl, dispatched_of_aluWe2 hwe⟩

theorem writesMem_of_selects {a : BitVec 2} (h : s.memSelects i a = true) :
    s.WritesMem i a (s.memDispatched i a) := by
  rcases (memSelects_iff a).mp h with ⟨hwe, rfl⟩ | ⟨hwe, rfl⟩
  · exact Or.inl ⟨hwe, rfl, memDispatched_of_memWe1 hwe⟩
  · exact Or.inr ⟨hwe, rfl, memDispatched_of_memWe2 hwe⟩

theorem memBusy_next (e : BitVec 2) (h : bit (s.next false i).rsMem.busyVector e = true) :
    ¬ (s.exeMemIssue = true ∧ s.memIssueAddr = e) ∧
      (s.memSelects i e = true ∨ bit s.rsMem.busyVector e = true) := by
  have hnext : bit (s.next false i).rsMem.busyVector e =
      if s.exeMemIssue ∧ s.memIssueAddr = e then false
      else (s.memSelects i e || bit s.rsMem.busyVector e) := RSPort.bit_busyNext _ _ _ _ _ e
  rw [hnext] at h
  split at h
  · cases h
  · rename_i hi
    exact ⟨hi, Bool.or_eq_true_iff.mp h⟩

/-! ### What an issue goes back to -/

/-- The instruction that `RSAlu` issues in cycle `n` is `w`, written in cycle `c`: nothing was written
    into its entry or issued from it in between, it has the fields of `w`, and both operands are what
    those of `w` have captured. -/
structure AluIssueOf (s : SwUnit) (e : ℕ → SwIn) (n c : ℕ) (w : AluWrite) : Prop where
  before : c < n
  written : (cycle s e c).WritesAlu (e c) (cycle s e n).aluIssueAddr w
  untouched : ∀ j, c < j → j < n →
    ¬ (cycle s e j).selects (e j) (cycle s e n).aluIssueAddr = true ∧
      ¬ (cycle s e j).IssuesEntry (cycle s e n).aluIssueAddr
  fields : RSAluEntry.Carries w (cycle s e n).issueEntry
  op1 : Captures (fun j => (e j).exeResults) w.op1 c n
    ((cycle s e n).issueEntry.exeOp1 (e n).exeResults)
  op2 : Captures (fun j => (e j).exeResults) w.op2 c n
    ((cycle s e n).issueEntry.exeOp2 (e n).exeResults)

/-- The same for `RSAccessMem`. -/
structure MemIssueOf (s : SwUnit) (e : ℕ → SwIn) (n c : ℕ) (w : MemWrite) : Prop where
  before : c < n
  written : (cycle s e c).WritesMem (e c) (cycle s e n).memIssueAddr w
  untouched : ∀ j, c < j → j < n →
    ¬ (cycle s e j).memSelects (e j) (cycle s e n).memIssueAddr = true ∧
      ¬ ((cycle s e j).exeMemIssue = true ∧ (cycle s e j).memIssueAddr = (cycle s e n).memIssueAddr)
  fields : RSAccessMemEntry.Carries w (cycle s e n).memIssueEntry
  op1 : Captures (fun j => (e j).exeResults) w.op1 c n
    ((cycle s e n).memIssueEntry.exeSrcOp1 (e n).exeResults)
  op2 : Captures (fun j => (e j).exeResults) w.op2 c n
    ((cycle s e n).memIssueEntry.exeSrcOp2 (e n).exeResults)

section run
variable (e : ℕ → SwIn) {n : ℕ}

/-- A busy entry of `RSAlu` was written, and neither written again nor issued since. -/
theorem alu_last_write (hs : s.AfterReset) {a : BitVec 3}
    (hb : bit (cycle s e n).rsAlu.busyVector a = true) :
    ∃ c, c < n ∧ (cycle s e c).selects (e c) a = true ∧
      ∀ j, c < j → j < n → ¬ (cycle s e j).selects (e j) a = true ∧ ¬ (cycle s e j).IssuesEntry a := by
  refine exists_last_load (b := fun j => bit (cycle s e j).rsAlu.busyVector a = true) ?_ ?_ hb
  · change ¬ bit s.rsAlu.busyVector a = true
    rw [hs.busyVector.1, bit_zero]
    exact Bool.false_ne_true
  · intro j hj
    exact (busy_next a).mp hj

theorem mem_last_write (hs : s.AfterReset) {a : BitVec 2}
    (hb : bit (cycle s e n).rsMem.busyVector a = true) :
    ∃ c, c < n ∧ (cycle s e c).memSelects (e c) a = true ∧
      ∀ j, c < j → j < n → ¬ (cycle s e j).memSelects (e j) a = true ∧
        ¬ ((cycle s e j).exeMemIssue = true ∧ (cycle s e j).memIssueAddr = a) := by
  refine exists_last_load (b := fun j => bit (cycle s e j).rsMem.busyVector a = true) ?_ ?_ hb
  · change ¬ bit s.rsMem.busyVector a = true
    rw [hs.busyVector.2, bit_zero]
    exact Bool.false_ne_true
  · intro j hj
    exact memBusy_next a hj

/-- An entry keeps the fields of its last write. -/
theorem alu_carries {a : BitVec 3} {c : ℕ} (hc : c < n)
    (hsel : (cycle s e c).selects (e c) a = true)
    (hno : ∀ j, c < j → j < n → ¬ (cycle s e j).selects (e j) a = true) :
    RSAluEntry.Carries ((cycle s e c).dispatched (e c) a) ((cycle s e n).rsAlu.entry a) := by
  have hnext : ∀ j, (cycle s e (j + 1)).rsAlu.entry a = _ := fun j =>
    entry_next_eq (s := cycle s e j) (i := e j) a
  induction n, hc using Nat.le_induction with
  | base =>
    rw [hnext, if_pos hsel]
    exact carries_stored _ _
  | succ n hcn ih =>
    rw [hnext, if_neg (hno n hcn (Nat.lt_succ_self n))]
    exact carries_held (ih fun j hj hj' => hno j hj (Nat.lt_succ_of_lt hj'))

theorem mem_carries {a : BitVec 2} {c : ℕ} (hc : c < n)
    (hsel : (cycle s e c).memSelects (e c) a = true)
    (hno : ∀ j, c < j → j < n → ¬ (cycle s e j).memSelects (e j) a = true) :
    RSAccessMemEntry.Carries ((cycle s e c).memDispatched (e c) a)
      ((cycle s e n).rsMem.entry a) := by
  have hnext : ∀ j, (cycle s e (j + 1)).rsMem.entry a = ((cycle s e j).rsMem.entry a).next false
      ((cycle s e j).memSelects (e j) a) ((cycle s e j).memDispatched (e j) a)
      (e j).exeResults := fun _ => rfl
  induction n, hc using Nat.le_induction with
  | base =>
    rw [hnext, hsel]
    exact RSAccessMemEntry.carries_written _ _ _
  | succ n hcn ih =>
    rw [hnext, Bool.eq_false_of_not_eq_true (hno n hcn (Nat.lt_succ_self n))]
    exact (ih fun j hj hj' => hno j hj (Nat.lt_succ_of_lt hj')).held _ _

variable (n)

/-- Whatever the inputs are, each issue of `RSAlu` goes back to one write, and computes with the first
    broadcast of each tag that was waited on. -/
theorem alu_issue_captures (hs : s.AfterReset) (hi : (cycle s e n).exeAluIssue = true) :
    ∃ c w, AluIssueOf s e n c w := by
  obtain ⟨hb, hop1, hop2⟩ := exeAluIssue_iff.mp hi
  obtain ⟨c, hc, hsel, hno⟩ := alu_last_write e hs hb
  have hsel' := fun j hj hj' => (hno j hj hj').1
  refine ⟨c, _, hc, writesAlu_of_selects hsel, hno, alu_carries e hc hsel hsel', ?_, ?_⟩
  · rw [RSAluEntry.exeOp1, issueEntry, RSOperand.exeOp_valid hop1]
    refine captures_of_slot (r := fun j => ((cycle s e j).rsAlu.entry _).operand1)
      (w := fun j => ((cycle s e j).dispatched (e j) _).op1) ?_ hsel hc hsel' hop1
    exact fun _ => RSOperand.next_eq _ _ _ _
  · rw [RSAluEntry.exeOp2, issueEntry, RSOperand.exeOp_valid hop2]
    refine captures_of_slot (r := fun j => ((cycle s e j).rsAlu.entry _).operand2)
      (w := fun j => ((cycle s e j).dispatched (e j) _).op2) ?_ hsel hc hsel' hop2
    exact fun _ => RSOperand.next_eq _ _ _ _

/-- So does each issue of a memory operation, with its address and its store data. -/
theorem mem_issue_captures (hs : s.AfterReset) (hi : (cycle s e n).exeMemIssue = true) :
    ∃ c w, MemIssueOf s e n c w := by
  obtain ⟨hb, hv1, hv2⟩ := ready_of_exeMemIssue hi
  obtain ⟨c, hc, hsel, hno⟩ := mem_last_write e hs hb
  have hsel' := fun j hj hj' => (hno j hj hj').1
  refine ⟨c, _, hc, writesMem_of_selects hsel, hno, mem_carries e hc hsel hsel', ?_, ?_⟩
  · rw [RSAccessMemEntry.exeSrcOp1, RSOperand.exeOp_valid hv1]
    refine captures_of_slot (r := fun j => ((cycle s e j).rsMem.entry _).operand1)
      (w := fun j => ((cycle s e j).memDispatched (e j) _).op1) ?_ hsel hc hsel' hv1
    exact fun _ => RSOperand.next_eq _ _ _ _
  · rw [RSAccessMemEntry.exeSrcOp2, RSOperand.exeOp_valid hv2]
    refine captures_of_slot (r := fun j => ((cycle s e j).rsMem.entry _).operand2)
      (w := fun j => ((cycle s e j).memDispatched (e j) _).op2) ?_ hsel hc hsel' hv2
    exact fun _ => RSOperand.next_eq _ _ _ _

end run

/-- An ALU instruction and then a memory operation that both wait on tag 5, which is broadcast in
    cycle 3. -/
def lateOperand (n : ℕ) : SwIn where
  nextRrfCycle := false
  reqAluNum := if n = 0 then 1 else 0
  reqMemNum := if n = 1 then 1 else 0
  dp1 := ⟨0, ⟨5, false⟩, ⟨7, true⟩, 0, 0, 0, 9, true, 0⟩
  dp2 := AluWrite.zero
  stallDp := false
  killDp := false
  exeResults := ⟨⟨if n = 3 then 5 else 0, 42⟩, ⟨0, 0⟩, ⟨0, 0⟩, ⟨0, 0⟩, ⟨0, 0⟩⟩

theorem alu_issue_captures_lateOperand :
    ∃ c w, AluIssueOf (zero.next true (lateOperand 0)) lateOperand 4 c w :=
  alu_issue_captures lateOperand 4 ⟨zero, lateOperand 0, rfl⟩ (by decide +kernel)

theorem mem_issue_captures_lateOperand :
    ∃ c w, MemIssueOf (zero.next true (lateOperand 0)) lateOperand 4 c w :=
  mem_issue_captures lateOperand 4 ⟨zero, lateOperand 0, rfl⟩ (by decide +kernel)

end SwUnit

/-! ### The memory operations by their numbers -/

namespace TracedMem

/-- An operation is in its entry at the end of the cycle in which it is dispatched. -/
theorem InOrder.selects_new {t : TracedMem} {i : SwIn} (h : t.InOrder) {k : ℕ}
    (hk : t.dispatched ≤ k) (hk' : k < (t.step i).dispatched) :
    t.hw.memSelects i (BitVec.ofNat 2 k) = true ∧
      t.hw.memDispatched i (BitVec.ofNat 2 k) = (t.step i).op k := by
  change k < t.dispatched + ((t.hw.memWe1 false i).toNat + (t.hw.memWe2 false i).toNat) at hk'
  have h12 := SwUnit.memWe1_of_memWe2 (s := t.hw) (i := i)
  have hw1 : t.hw.memWe1 false i = true := by
    by_contra hw1
    have hw2 : ¬ t.hw.memWe2 false i = true := fun hw2 => hw1 (h12 hw2)
    rw [Bool.not_eq_true] at hw1 hw2
    rw [hw1, hw2] at hk'
    exact absurd hk' (Nat.not_lt.mpr hk)
  rcases Nat.eq_or_lt_of_le hk with rfl | hlt
  · rw [← h.allocPtr, op_step_first i t hw1, SwUnit.memDispatched_of_memWe1 hw1]
    exact ⟨(SwUnit.memSelects_iff _).mpr (Or.inl ⟨hw1, rfl⟩), rfl⟩
  · have hw2 : t.hw.memWe2 false i = true := by
      by_contra hw2
      rw [Bool.not_eq_true] at hw2
      rw [hw1, hw2, Bool.toNat_true, Bool.toNat_false] at hk'
      omega
    obtain rfl : k = t.dispatched + 1 := by
      rw [hw1, hw2, Bool.toNat_true] at hk'
      omega
    rw [← ofNat_succ, ← h.allocPtr, op_step_second i t hw2, SwUnit.memDispatched_of_memWe2 hw2]
    exact ⟨(SwUnit.memSelects_iff _).mpr (Or.inr ⟨hw2, rfl⟩), rfl⟩

/-- Operation `k` is dispatched in cycle `c`. -/
def DispatchedIn (s : SwUnit) (e : ℕ → SwIn) (c k : ℕ) : Prop :=
  (cycle s e c).dispatched ≤ k ∧ k < (cycle s e (c + 1)).dispatched

section run
variable {s : SwUnit} {e : ℕ → SwIn} {N : ℕ}

theorem dispatched_mono : Monotone fun n => (cycle s e n).dispatched :=
  monotone_nat_of_le_succ fun _ => Nat.le_add_right _ _

theorem issued_mono : Monotone fun n => (cycle s e n).issued :=
  monotone_nat_of_le_succ fun _ => Nat.le_add_right _ _

theorem op_of_lt {m n k : ℕ} (hmn : m ≤ n) (hk : k < (cycle s e m).dispatched) :
    (cycle s e n).op k = (cycle s e m).op k := by
  induction n, hmn using Nat.le_induction with
  | base => rfl
  | succ n hmn ih => exact (op_step_of_lt _ _ (Nat.lt_of_lt_of_le hk (dispatched_mono hmn))).trans ih

theorem out_of_lt {m n k : ℕ} (hmn : m ≤ n) (hk : k < (cycle s e m).issued) :
    (cycle s e n).out k = (cycle s e m).out k := by
  induction n, hmn using Nat.le_induction with
  | base => rfl
  | succ n hmn ih => exact (out_step_of_lt _ _ (Nat.lt_of_lt_of_le hk (issued_mono hmn))).trans ih

theorem inOrder_run (hs : s.AfterReset) (hl : machine.Legal (start s) e N) {n : ℕ} (hn : n ≤ N) :
    (cycle s e n).InOrder :=
  Clocked.run_invariant (M := machine) (inOrder_start hs) (fun _ _ ht hi => ht.step hi) hl n hn

/-- Operation `k`, dispatched in cycle `c` and issued in cycle `m`, has kept its fields, and its operands
    are what they have captured in between. -/
structure Issued (s : SwUnit) (e : ℕ → SwIn) (t : TracedMem) (k c m : ℕ) : Prop where
  dispatched : DispatchedIn s e c k
  before : c < m
  fields : RSAccessMemEntry.Carries (t.op k) (t.out k)
  op1 : Captures (fun j => (e j).exeResults) (t.op k).op1 c m (t.out k).operand1.op
  op2 : Captures (fun j => (e j).exeResults) (t.op k).op2 c m (t.out k).operand2.op

/-- Every operation that was issued has come that way. -/
theorem exists_issued (hs : s.AfterReset) (hl : machine.Legal (start s) e N) {k : ℕ}
    (hk : k < (cycle s e N).issued) : ∃ c m, m < N ∧ Issued s e (cycle s e N) k c m := by
  obtain ⟨m, hm, hle, hgt⟩ := exists_crossing (f := fun n => (cycle s e n).issued) (Nat.zero_le k) hk
  have hissue : (cycle s e m).hw.exeMemIssue = true ∧ k = (cycle s e m).issued := by
    change (cycle s e m).issued ≤ k at hle
    change k < (cycle s e m).issued + (cycle s e m).hw.exeMemIssue.toNat at hgt
    cases hi : (cycle s e m).hw.exeMemIssue with
    | false =>
      rw [hi, Bool.toNat_false] at hgt
      omega
    | true =>
      rw [hi, Bool.toNat_true] at hgt
      exact ⟨rfl, by omega⟩
  obtain ⟨hi, hkm⟩ := hissue
  have hO := inOrder_run hs hl (Nat.le_of_lt hm)
  have hlt := hO.lt_of_issue hi
  rw [← hkm] at hlt
  obtain ⟨c, hc, hlec, hgtc⟩ :=
    exists_crossing (f := fun n => (cycle s e n).dispatched) (Nat.zero_le k) hlt
  obtain ⟨hsel, hdisp⟩ := (inOrder_run hs hl (by omega)).selects_new hlec hgtc
  have hop : (cycle s e N).op k = (cycle s e c).hw.memDispatched (e c) (BitVec.ofNat 2 k) :=
    (op_of_lt (m := c + 1) (by omega) hgtc).trans hdisp.symm
  have hout : (cycle s e N).out k = (cycle s e m).hw.rsMem.entry (BitVec.ofNat 2 k) := by
    rw [out_of_lt (m := m + 1) hm hgt, hkm, ← hO.head (hkm ▸ hlt)]
    exact out_step_issued _ _ hi
  have hno : ∀ j, c < j → j < m →
      ¬ (cycle s e j).hw.memSelects (e j) (BitVec.ofNat 2 k) = true := by
    intro j hj hj'
    have hb : (cycle s e j).Busy (BitVec.ofNat 2 k) := by
      refine ((inOrder_run hs hl (by omega)).window _).mpr ⟨k, ?_, ?_, rfl⟩
      · exact (issued_mono (Nat.le_of_lt hj')).trans hle
      · exact Nat.lt_of_lt_of_le hgtc (dispatched_mono hj)
    rw [Bool.not_eq_true]
    exact (hl j (by omega)).not_selects hb
  obtain ⟨-, hv1, hv2⟩ := SwUnit.ready_of_exeMemIssue hi
  rw [SwUnit.memIssueEntry, hO.head (hkm ▸ hlt), ← hkm] at hv1 hv2
  refine ⟨c, m, hm, ⟨hlec, hgtc⟩, hc, ((inOrder_run hs hl (le_refl N)).out k hk).1, ?_, ?_⟩
  · rw [hop, hout]
    refine captures_of_slot (r := fun j => ((cycle s e j).hw.rsMem.entry _).operand1)
      (w := fun j => ((cycle s e j).hw.memDispatched (e j) _).op1) ?_ hsel hc hno hv1
    exact fun _ => RSOperand.next_eq _ _ _ _
  · rw [hop, hout]
    refine captures_of_slot (r := fun j => ((cycle s e j).hw.rsMem.entry _).operand2)
      (w := fun j => ((cycle s e j).hw.memDispatched (e j) _).op2) ?_ hsel hc hno hv2
    exact fun _ => RSOperand.next_eq _ _ _ _

end run

end TracedMem
end HeliosXCore
