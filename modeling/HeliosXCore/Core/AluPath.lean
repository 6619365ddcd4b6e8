import HeliosXCore.Core.Links
import HeliosXCore.Lib.Run
import HeliosXCore.Sw.Age

/-! The way of a tag from the allocator to the ALU station, cut out of the core: any operands, any
    results broadcast, an instruction or a bubble in each cycle. The station issues the oldest entry
    that is ready, also while the tags of two laps are in it. -/

namespace HeliosXCore
open Rtl

/-- What comes from outside in one cycle: whether an ALU instruction is in rename, the registers it
    leaves for the station, and what is committed and broadcast. -/
structure PathIn where
  inst : Bool
  fields : AluWrite
  comInstNum : BitVec 2
  exeResults : ExeResults

/-- The tag allocator, the DP/SW registers that the ALU station reads, and `SwUnit`. -/
structure AluPath where
  rrfAlloc : RrfEntryAllocate
  nextrrfcycReg : Bool
  reqAlunumReg : BitVec 2
  slotReg : AluWrite
  sw : SwUnit

namespace AluPath

/-- `stall_IF_1`, the only stall of the core. -/
def stall (s : AluPath) (i : PathIn) : Bool := !s.rrfAlloc.rrfAllocatable i.comInstNum i.inst

/-- The connections of `u_SwUint`. -/
def swPorts (s : AluPath) (i : PathIn) : SwIn where
  nextRrfCycle := s.nextrrfcycReg
  reqAluNum := s.reqAlunumReg
  reqMemNum := 0
  dp1 := s.slotReg
  dp2 := AluWrite.zero
  stallDp := s.stall i
  killDp := false
  exeResults := i.exeResults

def next (reset : Bool) (i : PathIn) (s : AluPath) : AluPath where
  rrfAlloc := s.rrfAlloc.next reset (s.stall i) i.comInstNum i.inst
  nextrrfcycReg := s.rrfAlloc.nextrrfcyc
  reqAlunumReg := if i.inst then 1 else 0
  slotReg := { i.fields with rrfTag := s.rrfAlloc.dstRenameRrftag, dstVal := i.inst }
  sw := s.sw.next reset (s.swPorts i)

/-- Reset was held for two edges or more. The first clears the decoder, so that there is a bubble in
    rename at the second. -/
def AfterReset (s : AluPath) : Prop :=
  ∃ s0 i1 i2, i2.inst = false ∧ s = AluPath.next true i2 (AluPath.next true i1 s0)

end AluPath

/-! ### The path in the core -/

namespace HeliosX
variable (hx : HeliosX)

def aluPath : AluPath where
  rrfAlloc := hx.dp.rrfAlloc
  nextrrfcycReg := hx.dp.nextrrfcycReg
  reqAlunumReg := hx.dp.reqReg.reqAlunum
  slotReg := dispatch hx.dp
  sw := hx.sw

/-- What the rest of the core gives to the path in this cycle. -/
def pathIn : PathIn where
  inst := hx.idUnit.dec.wrReg
  fields := dispatch (hx.dp.next false (dpIn hx.idUnit (forwards hx.ex) hx.rob hx.dp))
  comInstNum := 0#1 ++ BitVec.ofBool hx.rob.comnum
  exeResults := exeResults hx.ex

variable {hx}

/-- With ALU instructions and no-ops in rename the core moves its path as `AluPath.next` says. -/
theorem aluPath_next (h : hx.idUnit.dec.AluOrNop) (idata d : Word) :
    (hx.next false idata d).aluPath = hx.aluPath.next false hx.pathIn := by
  have hreq : (RSRequestGen.gen hx.idUnit.dec.rsEnt 0).reqAlunum =
      if hx.idUnit.dec.wrReg then 1 else 0 := by
    rcases h with ⟨hw, he⟩ | ⟨hw, he⟩ <;> rw [hw, he] <;> rfl
  have hpath : (hx.next false idata d).aluPath =
      { hx.aluPath.next false hx.pathIn with
        reqAlunumReg := (RSRequestGen.gen hx.idUnit.dec.rsEnt 0).reqAlunum } := rfl
  rw [hpath, hreq]
  rfl

theorem AfterReset.aluPath (hs : hx.AfterReset) : hx.aluPath.AfterReset := by
  obtain ⟨s0, i1, d1, i2, d2, rfl⟩ := hs
  have hreq : (RSRequestGen.gen IDUnit.decZero.rsEnt 0).reqAlunum = 0 := by decide
  refine ⟨s0.aluPath, s0.pathIn,
    ⟨false, dispatch (HeliosX.next true i2 d2 (HeliosX.next true i1 d1 s0)).dp, 0,
      exeResults (HeliosX.next true i1 d1 s0).ex⟩, rfl, ?_⟩
  have hpath : (HeliosX.next true i2 d2 (HeliosX.next true i1 d1 s0)).aluPath =
      { (HeliosX.next true i2 d2 (HeliosX.next true i1 d1 s0)).aluPath with
        reqAlunumReg := (RSRequestGen.gen IDUnit.decZero.rsEnt 0).reqAlunum } := rfl
  rw [hpath, hreq]
  rfl

end HeliosX

/-! ### The traced path -/

/-- The path with a record of the instructions, numbered as they come: how many have been given a
    tag, how many have left the DP/SW registers, which one each entry was written with, and how
    often the tags have started over in the sort bits. -/
structure TracedPath where
  hw : AluPath
  allocated : ℕ
  dispatched : ℕ
  idx : BitVec 3 → ℕ
  lap : ℕ

namespace TracedPath

def start (s : AluPath) : TracedPath := ⟨s, 0, 0, fun _ => 0, 0⟩

/-- The DP/SW registers hold an instruction. -/
def pending (t : TracedPath) : Bool := t.hw.reqAlunumReg == 1

/-- Entry `a` is written in this cycle. -/
def Writes (t : TracedPath) (i : PathIn) (a : BitVec 3) : Prop :=
  t.hw.sw.WritesEntry (t.hw.swPorts i) a

instance (t : TracedPath) (i : PathIn) (a : BitVec 3) : Decidable (t.Writes i a) :=
  inferInstanceAs (Decidable (t.hw.sw.WritesEntry (t.hw.swPorts i) a))

def step (i : PathIn) (t : TracedPath) : TracedPath where
  hw := t.hw.next false i
  allocated := t.allocated + i.inst.toNat
  dispatched := t.dispatched + t.pending.toNat
  idx a := if t.Writes i a then t.dispatched else t.idx a
  lap := t.lap + t.hw.nextrrfcycReg.toNat

/-- Entry `a` holds an instruction that has not been issued. -/
def Busy (t : TracedPath) (a : BitVec 3) : Prop := bit t.hw.sw.rsAlu.busyVector a = true

instance (t : TracedPath) (a : BitVec 3) : Decidable (t.Busy a) := inferInstanceAs (Decidable (_ = _))

/-- The allocator does not stall, and gives a tag out again only when the instruction that held it
    and all older ones have been issued: nothing that stays in the station is 63 instructions old. -/
def FreeTag (t : TracedPath) (i : PathIn) : Prop :=
  t.hw.stall i = false ∧ (i.inst = true →
    ∀ a, t.Busy a → ¬ t.hw.sw.IssuesEntry a → t.allocated < t.idx a + 63)

instance (t : TracedPath) (i : PathIn) : Decidable (t.FreeTag i) :=
  inferInstanceAs (Decidable (_ ∧ (_ → _)))

def machine : Clocked TracedPath PathIn := ⟨step, FreeTag⟩

instance (t : TracedPath) (i : PathIn) : Decidable (machine.legal t i) :=
  inferInstanceAs (Decidable (t.FreeTag i))

/-- The path in cycle `n` under the inputs `e`. -/
def cycle (s : AluPath) (e : ℕ → PathIn) (n : ℕ) : TracedPath := machine.run (start s) e n

/-- The path inside the core on a program runs as the path by itself does on what the core gives it. -/
theorem aluPath_cycle {imem : Word → Word} (himem : AluNopProgram imem) (dmem : ℕ → Word)
    {s : HeliosX} (hs : s.AfterReset) (n : ℕ) :
    (Core.cycle imem dmem s n).hx.aluPath =
      (cycle s.aluPath (fun m => (Core.cycle imem dmem s m).hx.pathIn) n).hw := by
  have hfront : ∀ m, FrontOk (Core.cycle imem dmem s m) := by
    intro m
    induction m with
    | zero => exact FrontOk.start hs
    | succ m ih => exact ih.step himem (dmem m)
  induction n with
  | zero => rfl
  | succ n ih =>
    refine (HeliosX.aluPath_next (hfront n).idUnit _ _).trans ?_
    rw [ih]
    rfl

/-- What the busy entry `a` holds: the tag and the lap of its instruction, which is in the last 63. -/
structure Held (t : TracedPath) (a : BitVec 3) : Prop where
  stamped : t.hw.sw.rsAlu.Stamped t.lap a (t.idx a)
  lt : t.idx a < t.dispatched
  window : t.allocated ≤ t.idx a + 63

/-- The tags of the allocator, of the DP/SW registers and of the busy entries are those of
    consecutive instructions, and the pulse of a new lap comes with its first instruction. -/
structure Tagged (t : TracedPath) : Prop where
  rrfptr : t.hw.rrfAlloc.rrfptr = tagOf t.allocated
  req : t.hw.reqAlunumReg = if t.pending then 1 else 0
  len : t.allocated = t.dispatched + t.pending.toNat
  regTag : t.pending = true → t.hw.slotReg.rrfTag = tagOf t.dispatched
  pulse : LapPulse 63 t.lap t.dispatched t.allocated t.hw.rrfAlloc.nextrrfcyc t.hw.nextrrfcycReg
  held : ∀ a, t.Busy a → t.Held a
  inj : ∀ a b, t.Busy a → t.Busy b → t.idx a = t.idx b → a = b

theorem tagged_start {s : AluPath} (hs : s.AfterReset) : (start s).Tagged := by
  obtain ⟨s0, i1, i2, hinst, rfl⟩ := hs
  have hpend : (start (AluPath.next true i2 (AluPath.next true i1 s0))).pending = false := by
    change ((if i2.inst then 1 else 0 : BitVec 2) == 1) = false
    rw [hinst]
    rfl
  have hidle : ∀ a, ¬ (start (AluPath.next true i2 (AluPath.next true i1 s0))).Busy a := by
    rintro a hb
    change bit (0 : Bits 3) a = true at hb
    rw [bit_zero] at hb
    cases hb
  refine ⟨rfl, ?_, ?_, ?_, LapPulse.start 63, fun a hb => absurd hb (hidle a),
    fun a _ hb => absurd hb (hidle a)⟩
  · rw [hpend]
    change (if i2.inst then 1 else 0 : BitVec 2) = 0
    rw [hinst]
    rfl
  · rw [hpend]
    rfl
  · rintro hp
    rw [hpend] at hp
    cases hp

namespace Tagged
variable {t : TracedPath} {i : PathIn} (h : t.Tagged)
include h

theorem reqAluNum_ne_two : (t.hw.swPorts i).reqAluNum ≠ 2 := by
  change t.hw.reqAlunumReg ≠ 2
  rw [h.req]
  cases t.pending <;> decide

/-- Only an instruction in the DP/SW registers is written. -/
theorem pending_of_writes {a : BitVec 3} (hw : t.Writes i a) : t.pending = true := by
  have hreq : (1 : BitVec 2) ≤ t.hw.reqAlunumReg := by
    have hwe := hw.1
    simp only [SwUnit.aluWe1, Bool.and_eq_true, decide_eq_true_iff] at hwe
    exact hwe.1.2
  rw [h.req] at hreq
  cases hp : t.pending with
  | true => rfl
  | false =>
    rw [hp] at hreq
    exact absurd hreq (by decide)

theorem busy_step (a : BitVec 3) :
    (t.step i).Busy a ↔ ¬ t.hw.sw.IssuesEntry a ∧ (t.Writes i a ∨ t.Busy a) :=
  SwUnit.busy_next_of_one (s := t.hw.sw) h.reqAluNum_ne_two a

/-- What is written is the instruction that leaves the DP/SW registers. -/
theorem held_step_of_writes {a : BitVec 3} (hw : t.Writes i a) : (t.step i).Held a := by
  have hp := h.pending_of_writes hw
  have hidx : (t.step i).idx a = t.dispatched := if_pos hw
  have hlen := h.len
  refine ⟨?_, ?_, ?_⟩
  · rw [hidx]
    exact SwUnit.stamped_of_writes h.reqAluNum_ne_two hw (h.regTag hp) h.pulse
  · rw [hidx]
    change t.dispatched < t.dispatched + t.pending.toNat
    rw [hp]
    exact Nat.lt_succ_self _
  · rw [hidx]
    change t.allocated + i.inst.toNat ≤ _
    rw [hp, Bool.toNat_true] at hlen
    have := Bool.toNat_le i.inst
    omega

/-- An entry that stays keeps its instruction, and the window reaches it still. -/
theorem held_step_of_busy {a : BitVec 3} (hl : t.FreeTag i) (hb : t.Busy a)
    (hni : ¬ t.hw.sw.IssuesEntry a) (hw : ¬ t.Writes i a) : (t.step i).Held a := by
  obtain ⟨hst, hlt, hwin⟩ := h.held a hb
  have hidx : (t.step i).idx a = t.idx a := if_neg hw
  refine ⟨?_, ?_, ?_⟩
  · rw [hidx]
    exact SwUnit.stamped_of_held h.reqAluNum_ne_two hw hst hlt h.pulse
  · rw [hidx]
    exact Nat.lt_of_lt_of_le hlt (Nat.le_add_right _ _)
  · rw [hidx]
    change t.allocated + i.inst.toNat ≤ _
    cases hi : i.inst with
    | false => exact hwin
    | true => exact hl.2 hi a hb hni

theorem inj_step {a b : BitVec 3} (ha : (t.step i).Busy a) (hb : (t.step i).Busy b)
    (hab : (t.step i).idx a = (t.step i).idx b) : a = b := by
  have hidx : ∀ c, (t.step i).idx c = if t.Writes i c then t.dispatched else t.idx c :=
    fun _ => rfl
  rw [hidx, hidx] at hab
  obtain ⟨_, ha⟩ := (h.busy_step a).mp ha
  obtain ⟨_, hb⟩ := (h.busy_step b).mp hb
  by_cases hwa : t.Writes i a <;> by_cases hwb : t.Writes i b
  · exact hwa.2.symm.trans hwb.2
  · rw [if_pos hwa, if_neg hwb] at hab
    exact absurd (h.held b (hb.resolve_left hwb)).lt (by omega)
  · rw [if_neg hwa, if_pos hwb] at hab
    exact absurd (h.held a (ha.resolve_left hwa)).lt (by omega)
  · rw [if_neg hwa, if_neg hwb] at hab
    exact h.inj a b (ha.resolve_left hwa) (hb.resolve_left hwb) hab

theorem step (hl : t.FreeTag i) : (t.step i).Tagged := by
  have hpend : (t.step i).pending = i.inst := by
    change ((if i.inst then 1 else 0 : BitVec 2) == 1) = i.inst
    cases i.inst <;> rfl
  have h0 : t.hw.rrfAlloc.rrfptr ≠ 0 := h.rrfptr ▸ tagOf_ne_zero _
  refine ⟨?_, ?_, ?_, ?_, ?_, ?_, fun a b => h.inj_step⟩
  · refine (RrfEntryAllocate.rrfptr_next _ _ _ _ h0).trans ?_
    change (if i.inst && !t.hw.stall i then _ else _) = tagOf (t.allocated + i.inst.toNat)
    rw [hl.1, h.rrfptr]
    cases i.inst with
    | false => rfl
    | true => exact (tagOf_succ _).symm
  · rw [hpend]
    rfl
  · rw [hpend]
    change t.allocated + i.inst.toNat = t.dispatched + t.pending.toNat + i.inst.toNat
    rw [h.len]
  · rintro _
    change t.hw.rrfAlloc.rrfptr = tagOf (t.dispatched + t.pending.toNat)
    rw [h.rrfptr, h.len]
  · have hcyc : (t.step i).hw.rrfAlloc.nextrrfcyc =
        (i.inst && decide (t.allocated % 63 = 62)) := by
      refine (RrfEntryAllocate.nextrrfcyc_next _ _ _ _ h0).trans ?_
      have hlast : (tagOf t.allocated == 63) = decide (t.allocated % 63 = 62) := by
        rw [Bool.eq_iff_iff, beq_iff_eq, decide_eq_true_iff]
        exact tagOf_eq_63_iff _
      rw [hl.1, h.rrfptr, hlast, Bool.not_false, Bool.and_true]
    have hpulse := h.pulse.step (by omega) i.inst
    rw [hcyc]
    change LapPulse 63 (t.lap + t.hw.nextrrfcycReg.toNat) (t.dispatched + t.pending.toNat)
      (t.allocated + i.inst.toNat) _ t.hw.rrfAlloc.nextrrfcyc
    rw [← h.len]
    exact hpulse
  · rintro a hb
    obtain ⟨hni, hwb⟩ := (h.busy_step a).mp hb
    by_cases hw : t.Writes i a
    · exact h.held_step_of_writes hw
    · exact h.held_step_of_busy hl (hwb.resolve_left hw) hni hw

end Tagged

theorem tagged_cycle {s : AluPath} (hs : s.AfterReset) (e : ℕ → PathIn) (n : ℕ)
    (hl : machine.Legal (start s) e n) : (cycle s e n).Tagged :=
  Clocked.run_invariant (tagged_start hs) (fun _ _ h hi => h.step hi) hl n (le_refl n)

/-! ### What is issued -/

/-- Entry `a` is busy and has both operands. -/
def Ready (t : TracedPath) (a : BitVec 3) : Prop := t.hw.sw.rsAlu.Ready a

/-- The entry pointed at was dispatched no later than any other that is ready. -/
theorem Tagged.pointed_oldest {t : TracedPath} (h : t.Tagged) {a : BitVec 3} (hr : t.Ready a) :
    t.Ready t.hw.sw.aluIssueAddr ∧ t.idx t.hw.sw.aluIssueAddr ≤ t.idx a := by
  refine SwUnit.aluIssueAddr_oldest (fun b c hb hc hlt => ?_) hr
  obtain ⟨hst, -, hwin⟩ := h.held b hb.1
  obtain ⟨hst', hlt', -⟩ := h.held c hc.1
  exact hst.age_lt hst' h.pulse (by have := h.len; omega) hwin hlt hlt'

/-- What is issued was dispatched before all other entries that are ready, and something is issued
    when an entry is ready. -/
structure OldestFirst (t : TracedPath) : Prop where
  oldest : t.hw.sw.exeAluIssue = true → t.Ready t.hw.sw.aluIssueAddr ∧
    ∀ a, t.Ready a → a ≠ t.hw.sw.aluIssueAddr → t.idx t.hw.sw.aluIssueAddr < t.idx a
  issues : (∃ a, t.Ready a) → t.hw.sw.exeAluIssue = true

/-- The oldest ready instruction is issued, for runs over any number of laps of the tags. -/
theorem issue_oldest {s : AluPath} (hs : s.AfterReset) (e : ℕ → PathIn) (n : ℕ)
    (hl : machine.Legal (start s) e n) : (cycle s e n).OldestFirst := by
  have h := tagged_cycle hs e n hl
  refine ⟨?_, ?_⟩
  · rintro hi
    have hr : (cycle s e n).Ready (cycle s e n).hw.sw.aluIssueAddr := SwUnit.exeAluIssue_iff.mp hi
    refine ⟨hr, ?_⟩
    rintro a ha hne
    exact Nat.lt_of_le_of_ne (h.pointed_oldest ha).2 fun he => hne (h.inj _ _ ha.1 hr.1 he.symm)
  · rintro ⟨a, ha⟩
    exact SwUnit.exeAluIssue_of_ready ha

/-- An instruction with both operands in every cycle, and a commit. -/
def alwaysReady : PathIn where
  inst := true
  fields := ⟨0, ⟨1, true⟩, ⟨2, true⟩, 0, 0, 0, 0, true, 0⟩
  comInstNum := 1
  exeResults := ⟨⟨0, 0⟩, ⟨0, 0⟩, ⟨0, 0⟩, ⟨0, 0⟩, ⟨0, 0⟩⟩

/-- The path that reset leaves, with a bubble in rename. -/
def ofReset : AluPath :=
  AluPath.next true { alwaysReady with inst := false }
    (AluPath.next true alwaysReady ⟨⟨0, 0, false⟩, false, 0, AluWrite.zero, SwUnit.zero⟩)

/-- Instruction 60 waits until the tags have started over. -/
def acrossWrap (n : ℕ) : PathIn :=
  if n = 60 then
    { alwaysReady with fields := ⟨0, ⟨9, false⟩, ⟨2, true⟩, 0, 0, 0, 0, true, 0⟩ }
  else if n = 66 then
    { alwaysReady with exeResults := ⟨⟨9, 5⟩, ⟨0, 0⟩, ⟨0, 0⟩, ⟨0, 0⟩, ⟨0, 0⟩⟩ }
  else alwaysReady

theorem issue_oldest_acrossWrap : (cycle ofReset acrossWrap 67).OldestFirst :=
  issue_oldest ⟨_, _, _, rfl, rfl⟩ acrossWrap 67 (by decide +kernel)

-- it is issued from entry 0 with tag 61, before the instruction with tag 3 in entry 1
example : (cycle ofReset acrossWrap 67).hw.sw.aluIssueAddr = 0 ∧
    (cycle ofReset acrossWrap 67).idx 0 = 60 ∧ (cycle ofReset acrossWrap 67).idx 1 = 65 := by
  decide +kernel

end TracedPath

end HeliosXCore
