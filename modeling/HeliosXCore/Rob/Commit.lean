import HeliosXCore.Lib.Run
import HeliosXCore.Lib.Window
import HeliosXCore.Rtl.ROB

/-! The order of commits from `ROB`.

    Instructions are numbered from 0 in the order of dispatch; instruction `k` is at address `k`
    modulo 64. The commit pointers are masked with `6'b1` in place of 63, so they never leave the
    entries 0 and 1, and a commit does not clear `finish`. What is committed is in order as long as
    only the instructions 0 and 1 finish there, in the same cycle, and both entries are taken by the
    instructions 64 and 65 in the cycle in which they commit. -/

namespace HeliosXCore
open Rtl

/-- The reorder buffer, what was dispatched to it and reported to it, and what it committed. -/
structure RobSys where
  hw : ROB
  /-- How many instructions were dispatched. -/
  disp : ℕ
  /-- Destination register and its validity of each instruction. -/
  inst : ℕ → RegSel × Bool
  /-- The instruction was reported as finished. -/
  fin : ℕ → Bool
  /-- How many instructions were committed, `comnum_o` in total. -/
  com : ℕ

namespace RobSys

def start (s : ROB) : RobSys := ⟨s, 0, fun _ => (0, false), fun _ => false, 0⟩

def step (i : DualRobIn) (y : RobSys) : RobSys where
  hw := y.hw.next false i
  disp := y.disp + i.dp1.dp.toNat + i.dp2.dp.toNat
  inst :=
    let m := if i.dp1.dp then Function.update y.inst y.disp (i.dp1.dst, i.dp1.dstvalid) else y.inst
    if i.dp2.dp then Function.update m (y.disp + 1) (i.dp2.dst, i.dp2.dstvalid) else m
  fin := fun k => y.fin k ||
    decide (y.com ≤ k ∧ k < y.disp ∧ ROB.Finishes i (BitVec.ofNat 6 k))
  com := y.com + y.hw.comnum.toNat

/-- What the rest of the core may do: dispatch in order at consecutive addresses, with at most 64
    uncommitted instructions, and report only dispatched, unfinished and uncommitted ones. -/
structure RobLegal (y : RobSys) (i : DualRobIn) : Prop where
  dp2 : i.dp2.dp = true → i.dp1.dp = true
  addr1 : i.dp1.dp = true → i.dp1.addr = BitVec.ofNat 6 y.disp
  addr2 : i.dp2.dp = true → i.dp2.addr = BitVec.ofNat 6 (y.disp + 1)
  room : (step i y).disp ≤ (step i y).com + 64
  finish : ∀ a, ROB.Finishes i a →
    ∃ k, y.com ≤ k ∧ k < y.disp ∧ BitVec.ofNat 6 k = a ∧ y.fin k = false

def machine : Clocked RobSys DualRobIn := ⟨step, RobLegal⟩

/-- The commits of the cycle are the next instructions in dispatch order. -/
structure CommitsInOrder (y : RobSys) : Prop where
  succ : y.hw.commitPtr2 = y.hw.commitPtr1 + 1
  first : y.hw.commit1 = true → y.com < y.disp ∧ y.hw.commitPtr1 = BitVec.ofNat 6 y.com ∧
    (y.hw.dstArf1, y.hw.arfwe1) = y.inst y.com
  second : y.hw.commit2 = true → y.hw.commit1 = true ∧ y.com + 1 < y.disp ∧
    y.hw.commitPtr2 = BitVec.ofNat 6 (y.com + 1) ∧
    (y.hw.dstArf2, y.hw.arfwe2) = y.inst (y.com + 1)

/-- What keeps the next commits in order. When the entries 0 and 1 have finished, both are
    dispatched to again in this cycle; when neither has, the cycle reports entry 1 only together with
    entry 0, and neither of them once something was committed. -/
def StepOk (y : RobSys) (i : DualRobIn) : Prop :=
  match bit y.hw.finish 0, bit y.hw.finish 1 with
  | true, true => i.dp2.dp = true ∧ y.disp = 64
  | false, false =>
    (ROB.Finishes i 1 → ROB.Finishes i 0) ∧ (ROB.Finishes i 0 → y.com = 0)
  | _, _ => False

/-- What holds while all commits so far were in order: none, or those of instructions 0 and 1 with
    64 and 65 in their place. -/
structure Good (y : RobSys) : Prop where
  ptr : y.hw.commitPtr1 = 0
  room : y.disp ≤ y.com + 64
  dst : Holds y.hw.dst (Prod.fst ∘ y.inst) (y.disp - 64) y.disp
  dstValid : Holds (bit y.hw.dstValid) (Prod.snd ∘ y.inst) (y.disp - 64) y.disp
  order : bit y.hw.finish 1 = true → bit y.hw.finish 0 = true
  phase : (y.com = 0 ∧ ∀ k, k < 2 → bit y.hw.finish (BitVec.ofNat 6 k) = true → k < y.disp) ∨
    (y.com = 2 ∧ y.disp = 66 ∧ bit y.hw.finish 0 = false)

variable {y : RobSys} {i : DualRobIn}

/-! ### One edge -/

theorem disp_step_cases (hl : RobLegal y i) :
    (i.dp1.dp = false ∧ i.dp2.dp = false ∧ (step i y).disp = y.disp) ∨
    (i.dp1.dp = true ∧ i.dp2.dp = false ∧ (step i y).disp = y.disp + 1) ∨
    (i.dp1.dp = true ∧ i.dp2.dp = true ∧ (step i y).disp = y.disp + 2) := by
  have hdisp : (step i y).disp = y.disp + i.dp1.dp.toNat + i.dp2.dp.toNat := rfl
  cases h1 : i.dp1.dp <;> cases h2 : i.dp2.dp
  · exact Or.inl ⟨rfl, rfl, by rw [hdisp, h1, h2]; rfl⟩
  · exact absurd (hl.dp2 h2) (by rw [h1]; decide)
  · exact Or.inr (Or.inl ⟨rfl, rfl, by rw [hdisp, h1, h2]; rfl⟩)
  · exact Or.inr (Or.inr ⟨rfl, rfl, by rw [hdisp, h1, h2]; rfl⟩)

/-- A table that records one part of each instruction. -/
theorem table_step {α : Type} {f : RrfTag → α} {part : RegSel × Bool → α} (hl : RobLegal y i)
    (h : Holds f (part ∘ y.inst) (y.disp - 64) y.disp) :
    Holds (ROB.record i.dp2 (part (i.dp2.dst, i.dp2.dstvalid))
        (ROB.record i.dp1 (part (i.dp1.dst, i.dp1.dstvalid)) f))
      (part ∘ (step i y).inst) ((step i y).disp - 64) (step i y).disp := by
  rcases disp_step_cases hl with ⟨h1, h2, hd⟩ | ⟨h1, h2, hd⟩ | ⟨h1, h2, hd⟩
  · rw [hd]
    simp only [step, ROB.record, h1, h2, Bool.false_eq_true, if_false]
    exact h
  · rw [hd]
    simp only [step, ROB.record, h1, h2, hl.addr1 h1, Bool.false_eq_true, if_false, if_true,
      Function.comp_update]
    exact h.push_last _
  · rw [hd]
    simp only [step, ROB.record, h1, h2, hl.addr1 h1, hl.addr2 h2, if_true, Function.comp_update]
    exact (h.push_last _).push_last _

theorem bit_recordBit_eq (d : RobDispatch) (b : Bool) (v : Bits 6) :
    bit (ROB.recordBit d b v) = ROB.record d b (bit v) := by
  funext a
  rw [ROB.bit_recordBit, ROB.record_apply]

/-- The entry of an instruction that is in flight before and after the edge is not dispatched to. -/
theorem finish_in_flight (hl : RobLegal y i) {k : ℕ} (hk : k < y.disp)
    (hk' : (step i y).disp ≤ k + 64) :
    bit (step i y).hw.finish (BitVec.ofNat 6 k) = true ↔
      ROB.Finishes i (BitVec.ofNat 6 k) ∨ bit y.hw.finish (BitVec.ofNat 6 k) = true := by
  have hne : ∀ j, y.disp ≤ j → j < (step i y).disp → BitVec.ofNat 6 j ≠ BitVec.ofNat 6 k := by
    intro j hj hj' he
    have := ofNat_inj_window (w := 6) (show k ≤ j by omega) (by omega) he.symm
    omega
  have h2 : ¬ (i.dp2.dp = true ∧ i.dp2.addr = BitVec.ofNat 6 k) := by
    rintro ⟨hd, ha⟩
    have hdisp := disp_step_cases hl
    rw [hl.addr2 hd] at ha
    exact hne (y.disp + 1) (by omega) (by grind) ha
  have h1 : ¬ (i.dp1.dp = true ∧ i.dp1.addr = BitVec.ofNat 6 k) := by
    rintro ⟨hd, ha⟩
    have hdisp := disp_step_cases hl
    rw [hl.addr1 hd] at ha
    exact hne y.disp (le_refl _) (by grind) ha
  have hnext : bit (step i y).hw.finish (BitVec.ofNat 6 k) = _ :=
    ROB.bit_finish_next i y.hw (BitVec.ofNat 6 k)
  rw [hnext, if_neg h2, if_neg h1]
  split <;> simp_all

/-! ### The commits of a cycle -/

theorem commitPtr2_eq_one (hp : y.hw.commitPtr1 = 0) : y.hw.commitPtr2 = 1 := by
  rw [ROB.commitPtr2, hp]
  decide

section cycle
variable (h : Good y)
include h

theorem Good.commit1_eq : y.hw.commit1 = bit y.hw.finish 0 := by
  rw [ROB.commit1, h.ptr]

theorem Good.commit2_eq : y.hw.commit2 = bit y.hw.finish 1 := by
  rw [ROB.commit2, commitPtr2_eq_one h.ptr]

/-- The commit pointer after the edge. -/
theorem Good.ptr_step (i : DualRobIn) : (step i y).hw.commitPtr1 =
    ((0 : RrfTag) + (0#5 ++ BitVec.ofBool (bit y.hw.finish 0)) +
      (0#5 ++ BitVec.ofBool (bit y.hw.finish 1))) &&& 0b1 := by
  change (y.hw.commitPtr1 + (0#5 ++ BitVec.ofBool y.hw.commit1) +
    (0#5 ++ BitVec.ofBool y.hw.commit2)) &&& 0b1 = _
  rw [h.commit1_eq, h.commit2_eq, h.ptr]

theorem Good.com_step (i : DualRobIn) :
    (step i y).com = y.com + (bit y.hw.finish 0).toNat + (bit y.hw.finish 1).toNat := by
  change y.com + y.hw.comnum.toNat = _
  rw [ROB.comnum, h.commit1_eq, h.commit2_eq]
  cases bit y.hw.finish 0 <;> cases bit y.hw.finish 1 <;> rfl

/-- While the state is good the commits of the cycle are in order. -/
theorem Good.commitsInOrder : CommitsInOrder y := by
  have hptr2 := commitPtr2_eq_one h.ptr
  have hroom := h.room
  -- the entries of instructions 0 and 1 still hold what they were dispatched with
  have hread : ∀ k, k < y.disp → y.disp ≤ 64 → (y.hw.dst (BitVec.ofNat 6 k),
      bit y.hw.dstValid (BitVec.ofNat 6 k)) = y.inst k := by
    intro k hk hd
    have h1 := h.dst k (by omega) hk
    have h2 := h.dstValid k (by omega) hk
    rw [h1, h2]
    rfl
  refine ⟨?_, ?_, ?_⟩
  · rw [hptr2, h.ptr]
    rfl
  · intro hc
    have hf := hc
    rw [h.commit1_eq] at hf
    rcases h.phase with ⟨hcom, hfin⟩ | ⟨_, _, h0⟩
    · have hlt := hfin 0 (by omega) hf
      rw [ROB.dstArf1, ROB.arfwe1, hc, h.ptr, hcom, Bool.and_true]
      exact ⟨hlt, rfl, hread 0 hlt (by omega)⟩
    · rw [h0] at hf
      cases hf
  · intro hc
    have hf := hc
    rw [h.commit2_eq] at hf
    rcases h.phase with ⟨hcom, hfin⟩ | ⟨_, _, h0⟩
    · have hlt := hfin 1 (by omega) hf
      rw [ROB.dstArf2, ROB.arfwe2, hc, hptr2, hcom, Bool.and_true, h.commit1_eq]
      exact ⟨h.order hf, hlt, rfl, hread 1 hlt (by omega)⟩
    · rw [h.order hf] at h0
      cases h0

end cycle

/-! ### From one cycle to the next -/

/-- Nothing commits from the entries 0 and 1 in a state where the commit count has moved on. -/
theorem CommitsInOrder.not_finish (hc : CommitsInOrder y) (hp : y.hw.commitPtr1 = 0)
    (hcom : y.com = 2) : bit y.hw.finish 0 = false ∧ bit y.hw.finish 1 = false := by
  have h0 : ¬ y.hw.commit1 = true := by
    intro h1
    have heq := (hc.first h1).2.1
    rw [hp, hcom] at heq
    exact absurd heq (by decide)
  have h1 : ¬ y.hw.commit2 = true := fun h2 => h0 (hc.second h2).1
  rw [ROB.commit1, hp] at h0
  rw [ROB.commit2, commitPtr2_eq_one hp] at h1
  exact ⟨by simpa using h0, by simpa using h1⟩

theorem CommitsInOrder.order (hc : CommitsInOrder y) (hp : y.hw.commitPtr1 = 0)
    (h1 : bit y.hw.finish 1 = true) : bit y.hw.finish 0 = true := by
  have hfirst := (hc.second (by rw [ROB.commit2, commitPtr2_eq_one hp, h1])).1
  rwa [ROB.commit1, hp] at hfirst

/-- Good states differ only in what the edge does to the entries 0 and 1. -/
theorem good_of_step (h : Good y) (hl : RobLegal y i) (hp : (step i y).hw.commitPtr1 = 0)
    (horder : bit (step i y).hw.finish 1 = true → bit (step i y).hw.finish 0 = true)
    (hphase : ((step i y).com = 0 ∧ ∀ k, k < 2 →
        bit (step i y).hw.finish (BitVec.ofNat 6 k) = true → k < (step i y).disp) ∨
      ((step i y).com = 2 ∧ (step i y).disp = 66 ∧ bit (step i y).hw.finish 0 = false)) :
    Good (step i y) where
  ptr := hp
  room := hl.room
  dst := table_step hl h.dst
  dstValid := by
    have hbits : bit (step i y).hw.dstValid = ROB.record i.dp2 i.dp2.dstvalid
        (ROB.record i.dp1 i.dp1.dstvalid (bit y.hw.dstValid)) := by
      rw [← bit_recordBit_eq, ← bit_recordBit_eq]
      rfl
    rw [hbits]
    exact table_step hl h.dstValid
  order := horder
  phase := hphase

/-- An entry that has not finished finishes with an edge exactly when the cycle reports it. -/
theorem finish_step_iff (hl : RobLegal y i) (hcom : (step i y).com = y.com) {a : RrfTag}
    (ha : bit y.hw.finish a = false) :
    bit (step i y).hw.finish a = true ↔ ROB.Finishes i a := by
  have hroom := hl.room
  rw [hcom] at hroom
  constructor
  · intro hf
    have hnext : bit (step i y).hw.finish a = _ := ROB.bit_finish_next i y.hw a
    rw [hnext, ha] at hf
    split_ifs at hf with _ _ hfin
    exact hfin
  · intro hfin
    rcases hl.finish a hfin with ⟨k, hk, hk', rfl, _⟩
    exact (finish_in_flight hl hk' (by omega)).mpr (Or.inl hfin)

/-- Neither entry has finished: the reports of the cycle decide. -/
theorem step_none (h : Good y) (hl : RobLegal y i) (h0 : bit y.hw.finish 0 = false)
    (h1 : bit y.hw.finish 1 = false) :
    (StepOk y i → Good (step i y)) ∧ (CommitsInOrder (step i y) → StepOk y i) := by
  have hcom : (step i y).com = y.com := by
    rw [h.com_step, h0, h1]
    rfl
  have hptr : (step i y).hw.commitPtr1 = 0 := by
    rw [h.ptr_step, h0, h1]
    decide
  have hf0 := finish_step_iff hl hcom h0
  have hf1 := finish_step_iff hl hcom h1
  have hok : StepOk y i ↔
      (ROB.Finishes i 1 → ROB.Finishes i 0) ∧ (ROB.Finishes i 0 → y.com = 0) := by
    simp only [StepOk, h0, h1]
  have hdisp := disp_step_cases hl
  have hroom := hl.room
  rw [hok]
  constructor
  · rintro ⟨hboth, hfirst⟩
    refine good_of_step h hl hptr (fun hf => hf0.mpr (hboth (hf1.mp hf))) ?_
    rcases h.phase with ⟨hzero, hfin⟩ | ⟨htwo, h66, _⟩
    · refine Or.inl ⟨hcom.trans hzero, ?_⟩
      intro k hk hf
      have hk0 : bit y.hw.finish (BitVec.ofNat 6 k) = false := by
        rcases (show k = 0 ∨ k = 1 by omega) with rfl | rfl
        · exact h0
        · exact h1
      rcases hl.finish _ ((finish_step_iff hl hcom hk0).mp hf) with ⟨k', hk1, hk2, hk3, _⟩
      have hmod : k' % 2 ^ 6 = k % 2 ^ 6 := ofNat_eq_iff_mod.mp hk3
      omega
    · refine Or.inr ⟨hcom.trans htwo, by omega, ?_⟩
      by_contra hf
      have := hfirst (hf0.mp (by simpa using hf))
      omega
  · intro hc
    refine ⟨fun hf => hf0.mp (hc.order hptr (hf1.mpr hf)), ?_⟩
    intro hf
    rcases h.phase with ⟨hzero, _⟩ | ⟨htwo, _, _⟩
    · exact hzero
    · have hno := (hc.not_finish hptr (hcom.trans htwo)).1
      rw [hf0.mpr hf] at hno
      cases hno

/-- Both entries have finished and commit: they must be dispatched to in this cycle. -/
theorem step_both (h : Good y) (hl : RobLegal y i) (h0 : bit y.hw.finish 0 = true)
    (h1 : bit y.hw.finish 1 = true) :
    (StepOk y i → Good (step i y)) ∧ (CommitsInOrder (step i y) → StepOk y i) := by
  have hzero : y.com = 0 ∧ 1 < y.disp ∧ y.disp ≤ 64 := by
    have hroom := h.room
    rcases h.phase with ⟨hzero, hfin⟩ | ⟨_, _, hno⟩
    · exact ⟨hzero, hfin 1 (by omega) h1, by omega⟩
    · rw [h0] at hno
      cases hno
  have hcom : (step i y).com = 2 := by
    rw [h.com_step, h0, h1, hzero.1]
    rfl
  have hptr : (step i y).hw.commitPtr1 = 0 := by
    rw [h.ptr_step, h0, h1]
    decide
  have hok : StepOk y i ↔ i.dp2.dp = true ∧ y.disp = 64 := by
    simp only [StepOk, h0, h1]
  have hnext : ∀ a, bit (step i y).hw.finish a = _ := fun a => ROB.bit_finish_next i y.hw a
  rw [hok]
  constructor
  · rintro ⟨h2, h64⟩
    have hd1 := hl.dp2 h2
    have ha1 : i.dp1.addr = 0 := by
      rw [hl.addr1 hd1, h64]
      rfl
    have ha2 : i.dp2.addr = 1 := by
      rw [hl.addr2 h2, h64]
      rfl
    have hn0 : bit (step i y).hw.finish 0 = false := by
      rw [hnext]
      simp [hd1, ha1]
    have hn1 : bit (step i y).hw.finish 1 = false := by
      rw [hnext]
      simp [h2, ha2]
    refine good_of_step h hl hptr ?_ (Or.inr ⟨hcom, ?_, hn0⟩)
    · intro hf
      rw [hn1] at hf
      cases hf
    · have hdisp := disp_step_cases hl
      rw [h2] at hdisp
      grind
  · intro hc
    have hno := hc.not_finish hptr hcom
    -- each of the two entries is written by one of the dispatch ports
    have hwritten : ∀ a, bit y.hw.finish a = true → bit (step i y).hw.finish a = false →
        (i.dp2.dp = true ∧ (BitVec.ofNat 6 (y.disp + 1)) = a) ∨
          (i.dp1.dp = true ∧ BitVec.ofNat 6 y.disp = a) := by
      intro a hold hnew
      rw [hnext, hold] at hnew
      split_ifs at hnew with hd2 hd1
      · exact Or.inl ⟨hd2.1, by rw [← hl.addr2 hd2.1, hd2.2]⟩
      · exact Or.inr ⟨hd1.1, by rw [← hl.addr1 hd1.1, hd1.2]⟩
    have hw0 := hwritten (BitVec.ofNat 6 0) h0 hno.1
    have hw1 := hwritten (BitVec.ofNat 6 1) h1 hno.2
    simp only [ofNat_eq_iff_mod] at hw0 hw1
    rcases hw0 with ⟨_, hw0⟩ | ⟨_, hw0⟩
    · rcases hw1 with ⟨_, hw1⟩ | ⟨_, hw1⟩ <;> omega
    · rcases hw1 with ⟨hd2, hw1⟩ | ⟨_, hw1⟩
      · exact ⟨hd2, by omega⟩
      · omega

/-- One entry has finished: the masked pointer moves to 1, and its successor to 0. -/
theorem step_first (h : Good y) (h0 : bit y.hw.finish 0 = true) (h1 : bit y.hw.finish 1 = false) :
    ¬ CommitsInOrder (step i y) := by
  intro hc
  have hptr : (step i y).hw.commitPtr1 = 1 := by
    rw [h.ptr_step, h0, h1]
    decide
  have hsucc := hc.succ
  rw [ROB.commitPtr2, hptr] at hsucc
  exact absurd hsucc (by decide)

theorem good_step (h : Good y) (hl : RobLegal y i) :
    (StepOk y i → Good (step i y)) ∧ (CommitsInOrder (step i y) → StepOk y i) := by
  cases h0 : bit y.hw.finish 0 with
  | true =>
    cases h1 : bit y.hw.finish 1 with
    | true => exact step_both h hl h0 h1
    | false =>
      refine ⟨?_, fun hc => absurd hc (step_first h h0 h1)⟩
      intro hok
      simp only [StepOk, h0, h1] at hok
  | false =>
    cases h1 : bit y.hw.finish 1 with
    | true =>
      have := h.order h1
      rw [h0] at this
      cases this
    | false => exact step_none h hl h0 h1

/-! ### Whole runs -/

/-- Reset was held for at least one edge. -/
def AfterReset (s : ROB) : Prop := ∃ i s0, s = ROB.next true i s0

theorem finish_afterReset {s : ROB} (hs : AfterReset s) (a : RrfTag) : bit s.finish a = false := by
  rcases hs with ⟨i, s0, rfl⟩
  simp only [ROB.next, ROB.bit_clearFinish, if_true]
  split_ifs
  · rfl
  · rfl
  · exact bit_zero a

theorem good_start {s : ROB} (hs : AfterReset s) : Good (start s) where
  ptr := by
    rcases hs with ⟨i, s0, rfl⟩
    rfl
  room := Nat.zero_le _
  dst := fun k _ hk => absurd hk (Nat.not_lt_zero k)
  dstValid := fun k _ hk => absurd hk (Nat.not_lt_zero k)
  order := by
    intro h1
    rw [show (start s).hw = s from rfl, finish_afterReset hs] at h1
    cases h1
  phase := by
    refine Or.inl ⟨rfl, ?_⟩
    intro k _ hk
    rw [show (start s).hw = s from rfl, finish_afterReset hs] at hk
    cases hk

/-- In a run every commit is in order exactly when every step is of the kind that keeps it so. -/
theorem commits_in_order_iff {s : ROB} {e : ℕ → DualRobIn} {N : ℕ} (hs : AfterReset s)
    (hl : machine.Legal (start s) e N) :
    (∀ n, n ≤ N → CommitsInOrder (machine.run (start s) e n)) ↔
      ∀ n, n < N → StepOk (machine.run (start s) e n) (e n) := by
  constructor
  · intro hc
    have hgood : ∀ n, n ≤ N → Good (machine.run (start s) e n) := by
      intro n
      induction n with
      | zero => intro _; exact good_start hs
      | succ n ih =>
        intro hn
        have hstep := good_step (ih (by omega)) (hl n (by omega))
        exact hstep.1 (hstep.2 (hc (n + 1) hn))
    intro n hn
    exact (good_step (hgood n hn.le) (hl n hn)).2 (hc (n + 1) hn)
  · intro hok n hn
    have hgood : Good (machine.run (start s) e n) :=
      Clocked.run_invariant_while (I := Good) (C := StepOk) (good_start hs)
        (fun y i hy hi hstep => (good_step hy hi).1 hstep) hl hok n hn
    exact hgood.commitsInOrder

/-- Nothing is dispatched or reported. -/
def idle : DualRobIn :=
  let d : RobDispatch := ⟨false, 0, 0, false, false, 0, 0, false⟩
  let f : RobFinish := ⟨false, 0⟩
  ⟨d, d, f, f, f, f, f, false, 0⟩

/-- Two instructions are dispatched together and finish together. -/
def twoCommits : ℕ → DualRobIn
  | 0 => { idle with
      dp1 := ⟨true, 0, 0x1000, false, true, 1, 0, false⟩
      dp2 := ⟨true, 1, 0x1004, false, true, 2, 0, false⟩ }
  | 1 => { idle with finishExAlu1 := ⟨true, 0⟩, finishExAlu2 := ⟨true, 1⟩ }
  | _ => idle

theorem afterReset_zero : AfterReset ROB.zero := ⟨idle, ROB.zero, rfl⟩

theorem legal_idle {y : RobSys} (h : y.disp ≤ y.com + 64) : RobLegal y idle where
  dp2 := by
    intro hd
    cases hd
  addr1 := by
    intro hd
    cases hd
  addr2 := by
    intro hd
    cases hd
  room := by
    change y.disp ≤ y.com + y.hw.comnum.toNat + 64
    omega
  finish := by
    intro a ha
    rw [ROB.finishes_iff] at ha
    simp [idle] at ha

theorem legal_twoCommits : machine.Legal (start ROB.zero) twoCommits 3 := by
  intro n hn
  rcases (show n = 0 ∨ n = 1 ∨ n = 2 by omega) with rfl | rfl | rfl
  · refine ⟨fun _ => rfl, fun _ => rfl, fun _ => rfl, by decide, ?_⟩
    intro a ha
    rw [ROB.finishes_iff] at ha
    simp [twoCommits, idle] at ha
  · refine ⟨?_, ?_, ?_, by decide, ?_⟩
    · intro hd
      cases hd
    · intro hd
      cases hd
    · intro hd
      cases hd
    · intro a ha
      rw [ROB.finishes_iff] at ha
      simp only [twoCommits, idle, true_and, Bool.false_eq_true, false_and, or_false] at ha
      rcases ha with rfl | rfl
      · exact ⟨0, by decide, by decide, rfl, by decide⟩
      · exact ⟨1, by decide, by decide, rfl, by decide⟩
  · exact legal_idle (by decide)

theorem commits_in_order_iff_two :
    (∀ n, n ≤ 3 → CommitsInOrder (machine.run (start ROB.zero) twoCommits n)) ↔
      ∀ n, n < 3 → StepOk (machine.run (start ROB.zero) twoCommits n) (twoCommits n) :=
  commits_in_order_iff afterReset_zero legal_twoCommits

/-- The two instructions commit again in the next cycle, the pointer being 0 again. -/
theorem two_commits_repeated : machine.Legal (start ROB.zero) twoCommits 3 ∧
    ¬ CommitsInOrder (machine.run (start ROB.zero) twoCommits 3) := by
  refine ⟨legal_twoCommits, ?_⟩
  intro h
  have hlt := (h.first (by decide)).1
  revert hlt
  decide

end RobSys
end HeliosXCore
