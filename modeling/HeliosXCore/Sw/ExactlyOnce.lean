import HeliosXCore.Sw.Station
import HeliosXCore.Lib.Pool
import HeliosXCore.Lib.Run

/-! The ALU reservation station under any inputs. It is a pool of eight places: an instruction that
    is written waits in one busy entry, and is issued from it once, with the fields it was written
    with. -/

namespace HeliosXCore
open Rtl

/-! ### The two write ports -/

namespace SwUnit
variable {s : SwUnit} {i : SwIn}

theorem aluWe1_iff : s.aluWe1 i = true ↔ i.stallDp = false ∧ i.killDp = false ∧
    s.aluAllocateEn1 = true ∧ 1 ≤ i.reqAluNum ∧ s.aluAllocatable i = true := by
  simp [aluWe1, and_assoc]

theorem aluWe2_iff : s.aluWe2 i = true ↔ i.stallDp = false ∧ i.killDp = false ∧
    s.aluAllocateEn2 = true ∧ i.reqAluNum = 2 ∧ s.aluAllocatable i = true := by
  simp [aluWe2, and_assoc]

theorem free_of_aluWe1 (h : s.aluWe1 i = true) :
    bit s.rsAlu.busyVector s.aluRsAllocateEntry1 = false := free_of_writesEntry ⟨h, rfl⟩

theorem free_of_aluWe2 (h : s.aluWe2 i = true) :
    bit s.rsAlu.busyVector s.aluRsAllocateEntry2 = false := by
  have hen := (aluWe2_iff.mp h).2.2.1
  rw [aluRsAllocateEntry2, if_pos hen]
  exact (AllocateUnit.freeEntry2_spec s.rsAlu.busyVector hen).1

/-- Two writes of one cycle go to different entries. -/
theorem allocateEntry_ne (h1 : s.aluWe1 i = true) (h2 : s.aluWe2 i = true) :
    s.aluRsAllocateEntry2 ≠ s.aluRsAllocateEntry1 := by
  have hen1 := (aluWe1_iff.mp h1).2.2.1
  have hen2 := (aluWe2_iff.mp h2).2.2.1
  have hlt := (AllocateUnit.freeEntry2_spec s.rsAlu.busyVector hen2).2
  rw [aluRsAllocateEntry1, aluRsAllocateEntry2, if_pos hen1, if_pos hen2]
  rintro he
  rw [he] at hlt
  exact BitVec.lt_irrefl _ hlt

/-- With one free entry there is no second one to hand out. -/
theorem aluAllocateEn2_eq_false (h : ∃! a, bit s.rsAlu.busyVector a = false) :
    s.aluAllocateEn2 = false := by
  obtain ⟨a, ha, hone⟩ := h
  rw [← Bool.not_eq_true, aluAllocateEn2, AllocateUnit.en2_iff]
  rintro ⟨b, hb, hlt⟩
  have hen1 := (AllocateUnit.en1_iff s.rsAlu.busyVector).mpr ⟨a, ha⟩
  have hfree := (AllocateUnit.freeEntry1_spec s.rsAlu.busyVector hen1).1
  rw [hone b hb, hone _ hfree] at hlt
  exact BitVec.lt_irrefl _ hlt

/-- Two instructions are written together or not at all. -/
theorem no_write_of_en2 (h2 : i.reqAluNum = 2) (hen : s.aluAllocateEn2 = false) :
    s.aluWe1 i = false ∧ s.aluWe2 i = false := by
  have hall : s.aluAllocatable i = false := by
    have hsum : ∀ b : Bool,
        (2 : BitVec 2) > (0#1 ++ BitVec.ofBool b) + (0#1 ++ BitVec.ofBool false) := by decide
    have hen' : AllocateUnit.en2 3 s.rsAlu.busyVector = false := hen
    rw [aluAllocatable, AllocateUnit.allocatable, h2, hen', if_pos (hsum _)]
  constructor
  · rw [aluWe1, hall, Bool.and_false]
  · rw [aluWe2, hall, Bool.and_false]

theorem free_of_selects {e : BitVec 3} (h : s.selects i e = true) :
    bit s.rsAlu.busyVector e = false := by
  rcases (selects_iff e).mp h with ⟨hwe, rfl⟩ | ⟨hwe, rfl⟩
  · exact free_of_aluWe1 hwe
  · exact free_of_aluWe2 hwe

/-- What is written is not issued at the same edge. -/
theorem not_issues_of_selects {e : BitVec 3} (h : s.selects i e = true) : ¬ s.IssuesEntry e := by
  rintro hi
  have hb := (ready_of_issuesEntry hi).1
  rw [free_of_selects h] at hb
  cases hb

theorem dispatched_of_aluWe1 (h : s.aluWe1 i = true) :
    s.dispatched i s.aluRsAllocateEntry1 = i.dp1 := dispatched_eq ⟨h, rfl⟩

theorem dispatched_of_aluWe2 (h : s.aluWe2 i = true) :
    s.dispatched i s.aluRsAllocateEntry2 = i.dp2 := by
  have hport : (s.aluPort2 i).we = true := h
  have hne : (s.aluPort1 i).we = true → (s.aluPort1 i).addr ≠ (s.aluPort2 i).addr := by
    intro h1
    exact (allocateEntry_ne h1 h).symm
  exact RSPort.dataFor_second _ hport hne

end SwUnit

/-! ### The station and its pool -/

/-- The fields of an entry, its operands apart, are those it was written with. -/
structure RSAluEntry.Carries (w : AluWrite) (s : RSAluEntry) : Prop where
  pc : s.exePc = w.pc
  imm : s.exeImm = w.imm
  tag : s.exeRrfTag = w.rrfTag
  dstVal : s.exeDstVal = w.dstVal
  aluOp : s.exeAluOp = w.aluOp
  srcA : s.exeSrcA = w.srcA
  srcB : s.exeSrcB = w.srcB

theorem SwUnit.carries_stored (x : ExeResults) (w : AluWrite) :
    RSAluEntry.Carries w (stored x w) := ⟨rfl, rfl, rfl, rfl, rfl, rfl, rfl⟩

theorem SwUnit.carries_held {x : ExeResults} {w : AluWrite} {s : RSAluEntry}
    (h : RSAluEntry.Carries w s) : RSAluEntry.Carries w (held x s) :=
  ⟨h.pc, h.imm, h.tag, h.dstVal, h.aluOp, h.srcA, h.srcB⟩

namespace RSPort
variable {sel : ℕ} {α γ : Type} {port : RSPort sel α} {p : Pool (BitVec sel) α}

/-- A port that writes puts the next item into the pool. -/
def put (port : RSPort sel α) (p : Pool (BitVec sel) α) : Pool (BitVec sel) α :=
  if port.we then p.put port.addr port.data else p

theorem mem_used_put {c : BitVec sel} :
    c ∈ (port.put p).used ↔ (port.we = true ∧ port.addr = c) ∨ c ∈ p.used := by
  rw [put]
  cases port.we with
  | false => simp
  | true => simp [Pool.mem_used_put, eq_comm]

/-- A port that writes to a free place keeps the pool exact. -/
theorem exact_put (h : p.Exact) (ha : port.we = true → port.addr ∉ p.used) :
    (port.put p).Exact := by
  rw [put]
  split_ifs with hwe
  · exact h.put (ha hwe) _
  · exact h

theorem keeps_put {R : α → γ → Prop} {f : BitVec sel → γ} (h : p.Keeps R f) (he : p.Exact)
    (ha : port.we = true → port.addr ∉ p.used)
    (hR : port.we = true → R port.data (f port.addr)) : (port.put p).Keeps R f := by
  rw [put]
  split_ifs with hwe
  · exact h.put he (ha hwe) (hR hwe)
  · exact h

end RSPort

/-- `SwUnit` with a record of what was written to the ALU station and issued from it. -/
structure TracedSw where
  hw : SwUnit
  pool : Pool (BitVec 3) AluWrite

namespace TracedSw

def start (s : SwUnit) : TracedSw := ⟨s, Pool.empty AluWrite.zero⟩

/-- The pool when the entry pointed at has been issued. -/
def poolIssued (t : TracedSw) : Pool (BitVec 3) AluWrite :=
  if t.hw.exeAluIssue then t.pool.take t.hw.aluIssueAddr else t.pool

/-- One cycle: an issue, and what is in `dp1` and `dp2` when the two ports write. -/
def step (i : SwIn) (t : TracedSw) : TracedSw where
  hw := t.hw.next false i
  pool := (t.hw.aluPort2 i).put ((t.hw.aluPort1 i).put t.poolIssued)

/-- Any inputs may come. -/
def machine : Clocked TracedSw SwIn := ⟨step, fun _ _ => True⟩

/-- The station in cycle `n` under the inputs `e`. -/
def cycle (s : SwUnit) (e : ℕ → SwIn) (n : ℕ) : TracedSw := machine.run (start s) e n

/-- The trace does not disturb the station. -/
theorem hw_cycle (s : SwUnit) (e : ℕ → SwIn) (n : ℕ) :
    (cycle s e (n + 1)).hw = (cycle s e n).hw.next false (e n) := rfl

/-- Entry `a` holds an instruction that has not been issued. -/
def Busy (t : TracedSw) (a : BitVec 3) : Prop := bit t.hw.rsAlu.busyVector a = true

/-- The busy entries are the places in use of an exact pool, and keep what was written. -/
structure Exact (t : TracedSw) : Prop where
  used : ∀ a, a ∈ t.pool.used ↔ t.Busy a
  pool : t.pool.Exact
  carries : t.pool.Keeps RSAluEntry.Carries t.hw.rsAlu.entry

theorem exact_start {s : SwUnit} (hs : s.AfterReset) : (start s).Exact where
  used := by
    intro a
    have hb : ¬ (start s).Busy a := by
      rw [Busy, start, hs.busyVector.1, bit_zero]
      exact Bool.false_ne_true
    exact iff_of_false (fun ha => by cases ha) hb
  pool := Pool.exact_empty _
  carries := Pool.keeps_empty _

theorem busy_step (i : SwIn) (t : TracedSw) (a : BitVec 3) :
    (t.step i).Busy a ↔ ¬ t.hw.IssuesEntry a ∧ (t.hw.selects i a = true ∨ t.Busy a) :=
  SwUnit.busy_next (s := t.hw) a

/-- An entry that is not written keeps the fields it has. -/
theorem carries_step (i : SwIn) (t : TracedSw) {a : BitVec 3} {w : AluWrite}
    (ha : t.hw.selects i a = false) (hw : RSAluEntry.Carries w (t.hw.rsAlu.entry a)) :
    RSAluEntry.Carries w ((t.step i).hw.rsAlu.entry a) := by
  rw [step, SwUnit.entry_next_eq, ha]
  exact SwUnit.carries_held hw

/-- An entry that is written has the fields of what is dispatched to it. -/
theorem carries_step_of_selects (i : SwIn) (t : TracedSw) {a : BitVec 3}
    (ha : t.hw.selects i a = true) :
    RSAluEntry.Carries (t.hw.dispatched i a) ((t.step i).hw.rsAlu.entry a) := by
  rw [step, SwUnit.entry_next_eq, ha]
  exact SwUnit.carries_stored _ _

namespace Exact
variable {t : TracedSw} (h : t.Exact)
include h

/-- Only a busy entry is issued. -/
theorem mem_poolIssued (a : BitVec 3) :
    a ∈ t.poolIssued.used ↔ t.Busy a ∧ ¬ t.hw.IssuesEntry a := by
  rw [poolIssued, SwUnit.IssuesEntry]
  cases t.hw.exeAluIssue with
  | false => simp [h.used]
  | true => simp [Pool.mem_used_take, h.used, eq_comm]

theorem poolIssued_exact : t.poolIssued.Exact := by
  rw [poolIssued]
  split_ifs with hi
  · exact h.pool.take ((h.used _).mpr (SwUnit.exeAluIssue_iff.mp hi).1)
  · exact h.pool

theorem poolIssued_keeps : t.poolIssued.Keeps RSAluEntry.Carries t.hw.rsAlu.entry := by
  rw [poolIssued]
  split_ifs with hi
  · exact h.carries.take _
  · exact h.carries

/-- The first port writes to a free place. -/
theorem port1_free (i : SwIn) (hwe : t.hw.aluWe1 i = true) :
    t.hw.aluRsAllocateEntry1 ∉ t.poolIssued.used := by
  rw [h.mem_poolIssued]
  rintro ⟨hb, _⟩
  rw [Busy, SwUnit.free_of_aluWe1 hwe] at hb
  cases hb

/-- So does the second, also after the first has written. -/
theorem port2_free (i : SwIn) (hwe : t.hw.aluWe2 i = true) :
    t.hw.aluRsAllocateEntry2 ∉ ((t.hw.aluPort1 i).put t.poolIssued).used := by
  rw [RSPort.mem_used_put, h.mem_poolIssued]
  rintro (⟨hwe1, ha⟩ | ⟨hb, _⟩)
  · exact SwUnit.allocateEntry_ne hwe1 hwe ha.symm
  · rw [Busy, SwUnit.free_of_aluWe2 hwe] at hb
    cases hb

/-- One cycle, with an issue and up to two writes, keeps the pool exact. -/
theorem step (i : SwIn) : (t.step i).Exact where
  used := by
    intro a
    have hmem : a ∈ (t.step i).pool.used ↔ (t.hw.aluWe2 i = true ∧ t.hw.aluRsAllocateEntry2 = a) ∨
        (t.hw.aluWe1 i = true ∧ t.hw.aluRsAllocateEntry1 = a) ∨ a ∈ t.poolIssued.used :=
      RSPort.mem_used_put.trans (or_congr Iff.rfl RSPort.mem_used_put)
    rw [hmem, h.mem_poolIssued, busy_step, SwUnit.selects_iff]
    constructor
    · rintro (hw2 | hw1 | ⟨hb, hni⟩)
      · exact ⟨SwUnit.not_issues_of_selects (SwUnit.selects_iff a |>.mpr (Or.inr hw2)),
          Or.inl (Or.inr hw2)⟩
      · exact ⟨SwUnit.not_issues_of_selects (SwUnit.selects_iff a |>.mpr (Or.inl hw1)),
          Or.inl (Or.inl hw1)⟩
      · exact ⟨hni, Or.inr hb⟩
    · rintro ⟨hni, (hw1 | hw2) | hb⟩
      · exact Or.inr (Or.inl hw1)
      · exact Or.inl hw2
      · exact Or.inr (Or.inr ⟨hb, hni⟩)
  pool := RSPort.exact_put (RSPort.exact_put h.poolIssued_exact (h.port1_free i)) (h.port2_free i)
  carries := by
    have hsel : ∀ a, t.Busy a → t.hw.selects i a = false := by
      rintro a hb
      rw [← Bool.not_eq_true]
      rintro hs
      rw [Busy, SwUnit.free_of_selects hs] at hb
      cases hb
    have hold : t.poolIssued.Keeps RSAluEntry.Carries (t.step i).hw.rsAlu.entry := by
      refine h.poolIssued_keeps.mono ?_
      intro a ha w hw
      exact carries_step i t (hsel a ((h.mem_poolIssued a).mp ha).1) hw
    refine RSPort.keeps_put (RSPort.keeps_put hold h.poolIssued_exact (h.port1_free i) ?_)
      (RSPort.exact_put h.poolIssued_exact (h.port1_free i)) (h.port2_free i) ?_
    · rintro hwe
      have hc := carries_step_of_selects i t (SwUnit.selects_iff _ |>.mpr (Or.inl ⟨hwe, rfl⟩))
      rw [SwUnit.dispatched_of_aluWe1 hwe] at hc
      exact hc
    · rintro hwe
      have hc := carries_step_of_selects i t (SwUnit.selects_iff _ |>.mpr (Or.inr ⟨hwe, rfl⟩))
      rw [SwUnit.dispatched_of_aluWe2 hwe] at hc
      exact hc

end Exact

/-- Under any inputs the pool is exact in every cycle after reset. -/
theorem exact_cycle {s : SwUnit} (hs : s.AfterReset) (e : ℕ → SwIn) (n : ℕ) :
    (cycle s e n).Exact :=
  Clocked.run_invariant (exact_start hs) (fun _ i h _ => h.step i) (fun _ _ => trivial) n (le_refl n)

/-- What the station guarantees in a state `t` in which the inputs are `i`. -/
structure ExactlyOnce (t : TracedSw) (i : SwIn) : Prop where
  /-- The busy entries hold the instructions written and not issued, one each. -/
  busy : Set.BijOn t.pool.holder {a | t.Busy a} {k | k < t.pool.given ∧ t.pool.taken k = 0}
  once : ∀ k, t.pool.taken k ≤ 1
  free1 : t.hw.aluWe1 i = true → ¬ t.Busy t.hw.aluRsAllocateEntry1
  free2 : t.hw.aluWe2 i = true → ¬ t.Busy t.hw.aluRsAllocateEntry2
  apart : t.hw.aluWe1 i = true → t.hw.aluWe2 i = true →
    t.hw.aluRsAllocateEntry1 ≠ t.hw.aluRsAllocateEntry2
  /-- What is issued was written, was not issued before, and has its fields and both operands. -/
  issued : t.hw.exeAluIssue = true → t.Busy t.hw.aluIssueAddr ∧
    RSAluEntry.Carries (t.pool.item (t.pool.holder t.hw.aluIssueAddr)) t.hw.issueEntry ∧
      t.hw.issueEntry.operand1.valid = true ∧ t.hw.issueEntry.operand2.valid = true
  two : i.reqAluNum = 2 → (∃! a, ¬ t.Busy a) → t.hw.aluWe1 i = false ∧ t.hw.aluWe2 i = false

/-- After reset the station holds each instruction exactly once, whatever the inputs are. -/
theorem exactlyOnce {s : SwUnit} (hs : s.AfterReset) (e : ℕ → SwIn) (n : ℕ) :
    (cycle s e n).ExactlyOnce (e n) := by
  have h := exact_cycle hs e n
  have hset : (cycle s e n).pool.used = {a | (cycle s e n).Busy a} := Set.ext h.used
  refine ⟨hset ▸ h.pool.bij, h.pool.once, ?_, ?_, ?_, ?_, ?_⟩
  · rintro hwe
    simp [Busy, SwUnit.free_of_aluWe1 hwe]
  · rintro hwe
    simp [Busy, SwUnit.free_of_aluWe2 hwe]
  · rintro h1 h2
    exact (SwUnit.allocateEntry_ne h1 h2).symm
  · rintro hi
    obtain ⟨hb, h1, h2⟩ := SwUnit.exeAluIssue_iff.mp hi
    exact ⟨hb, h.carries _ ((h.used _).mpr hb), h1, h2⟩
  · rintro h2 hone
    simp only [Busy, Bool.not_eq_true] at hone
    exact SwUnit.no_write_of_en2 h2 (SwUnit.aluAllocateEn2_eq_false hone)

/-- Two instructions with both operands in every cycle. -/
def twoAtOnce : SwIn where
  nextRrfCycle := false
  reqAluNum := 2
  reqMemNum := 0
  dp1 := ⟨0, ⟨1, true⟩, ⟨2, true⟩, 0, 0, 0, 1, true, 0⟩
  dp2 := ⟨4, ⟨3, true⟩, ⟨4, true⟩, 0, 0, 0, 2, true, 0⟩
  stallDp := false
  killDp := false
  exeResults := ⟨⟨0, 0⟩, ⟨0, 0⟩, ⟨0, 0⟩, ⟨0, 0⟩, ⟨0, 0⟩⟩

theorem exactlyOnce_twoAtOnce :
    (cycle (SwUnit.zero.next true twoAtOnce) (fun _ => twoAtOnce) 12).ExactlyOnce twoAtOnce :=
  exactlyOnce ⟨SwUnit.zero, twoAtOnce, rfl⟩ (fun _ => twoAtOnce) 12

-- there the second cycle issues one instruction and writes two more
example : (cycle (SwUnit.zero.next true twoAtOnce) (fun _ => twoAtOnce) 1).hw.exeAluIssue = true ∧
    (cycle (SwUnit.zero.next true twoAtOnce) (fun _ => twoAtOnce) 1).hw.aluWe2 twoAtOnce = true := by
  decide +kernel

end TracedSw

end HeliosXCore
