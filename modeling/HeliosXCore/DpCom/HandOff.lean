import HeliosXCore.Lib.Run
import HeliosXCore.Lib.History
import HeliosXCore.Rtl.HeliosX

/-! The hand-off from rename to the reservation station: `ReNameUnit` and `SwUnit` with the stall
    they share. The write enable of `SwUnit` looks at the stall of the instruction that is in rename
    now, the data is that of the instruction before it, and the DP/SW registers in between load in
    every cycle. -/

namespace HeliosXCore
open Rtl

/-- `u_ReNameUnit` and `u_SwUint`. -/
structure HandOff where
  dp : ReNameUnit
  sw : SwUnit

/-- What the rest of the core drives: the instruction, the forwarding ports, a ROB in any state (so
    that commits come at any time) and the broadcast results. -/
structure HandOffIn where
  id : IDUnit
  forwards : Forwards
  rob : SingleInstROB
  exeResults : ExeResults

namespace HandOff

/-- The shared `stall_DP`. -/
def stall (i : HandOffIn) (s : HandOff) : Bool := HeliosX.stallOf i.id i.forwards i.rob s.dp

def next (reset : Bool) (i : HandOffIn) (s : HandOff) : HandOff where
  dp := s.dp.next reset (HeliosX.dpIn i.id i.forwards i.rob s.dp)
  sw := s.sw.next reset (HeliosX.swIn s.dp i.exeResults (s.stall i))

/-- Reset was held for two or more edges; `IDUnit` is cleared by then. -/
def AfterReset (s : HandOff) : Prop :=
  ∃ s0 i1 i2, i2.id = IDUnit.cleared ∧ s = next true i2 (next true i1 s0)

/-- An instruction of the ALU class: it has a destination and goes to `RSAlu`. -/
def AluClass (id : IDUnit) : Prop := id.dec.wrReg = true ∧ id.dec.rsEnt = RsEnt.alu

instance : DecidablePred AluClass := fun _ => inferInstanceAs (Decidable (_ ∧ _))

/-- The circuit; the environment presents instructions of the ALU class. -/
def machine : Clocked HandOff HandOffIn := ⟨next false, fun _ i => AluClass i.id⟩

/-- The write enable of this cycle. -/
def writes (i : HandOffIn) (s : HandOff) : Bool :=
  s.sw.aluWe1 (HeliosX.swIn s.dp i.exeResults (s.stall i))

/-- The instructions that rename accepted in the first `n` cycles, as they were renamed: with their
    tags and operands. -/
def accepted (s : HandOff) (e : ℕ → HandOffIn) : ℕ → List AluWrite
  | 0 => []
  | n + 1 => accepted s e n ++
      if (machine.run s e n).stall (e n) then []
      else [HeliosX.dispatch (machine.run s e (n + 1)).dp]

/-- What was written into `RSAlu` in the first `n` cycles. -/
def written (s : HandOff) (e : ℕ → HandOffIn) : ℕ → List AluWrite
  | 0 => []
  | n + 1 => written s e n ++
      if (machine.run s e n).writes (e n) then [HeliosX.dispatch (machine.run s e n).dp] else []

/-- `RSAlu` has a free entry. -/
def HasFree (s : HandOff) (_ : HandOffIn) : Prop := s.sw.aluAllocateEn1 = true

/-! ### One cycle -/

theorem reqAlunum_of_aluClass {id : IDUnit} (h : AluClass id) :
    (RSRequestGen.gen id.dec.rsEnt 0).reqAlunum = 1 := by
  rw [h.2]
  rfl

/-- With a request and a free entry, the write enable is the negated stall. -/
theorem writes_eq {s : HandOff} {i : HandOffIn} (hfree : s.HasFree i)
    (hreq : s.dp.reqReg.reqAlunum = 1) : s.writes i = !s.stall i := by
  have hen : AllocateUnit.en1 3 s.sw.rsAlu.busyVector = true := hfree
  have hall : AllocateUnit.allocatable 3 s.sw.rsAlu.busyVector 1 = true := by
    rw [AllocateUnit.allocatable, hen]
    cases AllocateUnit.en2 3 s.sw.rsAlu.busyVector <;> rfl
  simp only [writes, SwUnit.aluWe1, HeliosX.swIn, SwUnit.aluAllocateEn1, SwUnit.aluAllocatable,
    hreq, hen, hall]
  simp

theorem writes_of_no_request {s : HandOff} {i : HandOffIn} (hreq : s.dp.reqReg.reqAlunum = 0) :
    s.writes i = false := by
  simp [writes, SwUnit.aluWe1, HeliosX.swIn, hreq]

/-- Reset leaves no request in the DP/SW registers, and all tags free. -/
theorem no_request_afterReset {s : HandOff} (hs : s.AfterReset) (i : HandOffIn) :
    s.writes i = false ∧ s.stall i = false := by
  obtain ⟨s0, i1, i2, hid, rfl⟩ := hs
  refine ⟨writes_of_no_request ?_, ?_⟩
  · change (RSRequestGen.gen i2.id.dec.rsEnt 0).reqAlunum = 0
    rw [hid]
    rfl
  · have h := RrfEntryAllocate.rrfAllocatable_eq ⟨RrfEntryAllocate.rrfNum, 1, false⟩
      i.rob.comnum i.id.dec.wrReg (by decide)
    have h' : RrfEntryAllocate.rrfAllocatable ⟨RrfEntryAllocate.rrfNum, 1, false⟩
        (0#1 ++ BitVec.ofBool i.rob.comnum) i.id.dec.wrReg = true := by
      rw [h]
      simp [RrfEntryAllocate.rrfNum]
    exact congrArg (fun b => !b) h'

/-! ### Runs -/

variable {s : HandOff} {e : ℕ → HandOffIn} {N : ℕ}

theorem writes_run (hl : machine.Legal s e N) (hfree : machine.Always HasFree s e (N + 1))
    {n : ℕ} (hn : n < N) :
    (machine.run s e (n + 1)).writes (e (n + 1)) = !(machine.run s e (n + 1)).stall (e (n + 1)) :=
  writes_eq (hfree (n + 1) (by omega)) (reqAlunum_of_aluClass (hl n hn))

/-- Up to a cycle without a stall so far, every accepted instruction has been written. -/
theorem written_eq_of_no_stall (hs : s.AfterReset) (hl : machine.Legal s e N)
    (hfree : machine.Always HasFree s e (N + 1)) {n : ℕ} (hn : n ≤ N)
    (hst : ∀ k, k ≤ n → (machine.run s e k).stall (e k) = false) :
    written s e (n + 1) = accepted s e n := by
  induction n with
  | zero => simp [written, accepted, (no_request_afterReset hs (e 0)).1]
  | succ n ih =>
    rw [written, ih (by omega) fun k hk => hst k (by omega), accepted,
      writes_run hl hfree (by omega), hst (n + 1) (Nat.le_refl _), hst n (by omega)]
    simp

/-- At the first stall the instruction accepted just before it is not written. -/
theorem written_ne_of_first_stall (hs : s.AfterReset) (hl : machine.Legal s e N)
    (hfree : machine.Always HasFree s e (N + 1)) {n : ℕ} (hn : n ≤ N)
    (hbefore : ∀ k, k < n → (machine.run s e k).stall (e k) = false)
    (hst : (machine.run s e n).stall (e n) = true) : written s e (n + 1) ≠ accepted s e n := by
  cases n with
  | zero => exact absurd (hst.symm.trans (no_request_afterReset hs (e 0)).2) (by decide)
  | succ n =>
    have hprev := written_eq_of_no_stall hs hl hfree (n := n) (by omega)
      fun k hk => hbefore k (by omega)
    rw [written, hprev, accepted, writes_run hl hfree (by omega), hst,
      hbefore n (Nat.lt_succ_self n)]
    simp

/-- Every accepted instruction is written once, in the next cycle and as it was renamed, exactly as
    long as the allocator refuses nothing. -/
theorem handed_off_iff (hs : s.AfterReset) (hl : machine.Legal s e N)
    (hfree : machine.Always HasFree s e (N + 1)) :
    (∀ n, n ≤ N → written s e (n + 1) = accepted s e n) ↔
      ∀ n, n ≤ N → (machine.run s e n).stall (e n) = false := by
  constructor
  · intro h
    by_contra hst
    have hst' : ¬ ∀ n, n < N + 1 → (machine.run s e n).stall (e n) = false :=
      fun hall => hst fun n hn => hall n (by omega)
    obtain ⟨n, hn, hstall, hbefore⟩ := exists_first_failure hst'
    exact written_ne_of_first_stall hs hl hfree (by omega) hbefore (by simpa using hstall)
      (h n (by omega))
  · intro h n hn
    exact written_eq_of_no_stall hs hl hfree hn fun k hk => h k (by omega)

/-- A state that reset leaves, all registers 0 before it. -/
def ofReset : HandOff :=
  let i : HandOffIn := ⟨IDUnit.cleared, Forwards.none, SingleInstROB.zero, ⟨⟨0, 0⟩, ⟨0, 0⟩, ⟨0, 0⟩,
    ⟨0, 0⟩, ⟨0, 0⟩⟩⟩
  next true i (next true i ⟨ReNameUnit.zero, SwUnit.zero⟩)

theorem afterReset_ofReset : AfterReset ofReset := ⟨_, _, _, rfl, rfl⟩

/-- A ROB that commits an instruction. -/
def committing : SingleInstROB := ⟨2, 2, 2, fun _ => 0, fun _ => 0, 1⟩

/-- `addi x1, x0, 0` in every cycle, and commits from cycle 64 on, when all tags are in use. -/
def fillThenCommit (n : ℕ) : HandOffIn :=
  ⟨IDUnit.ofInst 0x00000093 entryPoint, Forwards.none,
    if 64 ≤ n then committing else SingleInstROB.zero,
    ⟨⟨0, 0⟩, ⟨0, 0⟩, ⟨0, 0⟩, ⟨0, 0⟩, ⟨0, 0⟩⟩⟩

theorem legal_fillThenCommit (N : ℕ) : machine.Legal ofReset fillThenCommit N :=
  fun _ _ => (by decide : AluClass (IDUnit.ofInst 0x00000093 entryPoint))

theorem hasFree_fillThenCommit : machine.Always HasFree ofReset fillThenCommit 66 := by
  change ∀ n, n < 66 → SwUnit.aluAllocateEn1 _ = true
  decide +kernel

/-- Cycle 63 is a stall. The instruction with tag 63, accepted just before it, is lost, and the one
    that was refused is written twice. -/
theorem hand_off_broken :
    machine.Legal ofReset fillThenCommit 65 ∧ machine.Always HasFree ofReset fillThenCommit 66 ∧
      (accepted ofReset fillThenCommit 65).map AluWrite.rrfTag =
        (List.range' 1 63).map (BitVec.ofNat 6) ++ [1] ∧
      (written ofReset fillThenCommit 66).map AluWrite.rrfTag =
        (List.range' 1 62).map (BitVec.ofNat 6) ++ [1, 1] ∧
      ¬ ∀ n, n ≤ 65 → written ofReset fillThenCommit (n + 1) = accepted ofReset fillThenCommit n := by
  have hacc : (accepted ofReset fillThenCommit 65).map AluWrite.rrfTag =
      (List.range' 1 63).map (BitVec.ofNat 6) ++ [1] := by decide +kernel
  have hwr : (written ofReset fillThenCommit 66).map AluWrite.rrfTag =
      (List.range' 1 62).map (BitVec.ofNat 6) ++ [1, 1] := by decide +kernel
  refine ⟨legal_fillThenCommit 65, hasFree_fillThenCommit, hacc, hwr, ?_⟩
  intro h
  have h65 := congrArg (List.map AluWrite.rrfTag) (h 65 (by decide))
  rw [hacc, hwr] at h65
  exact absurd h65 (by decide +kernel)

theorem handed_off_fillThenCommit :
    (∀ n, n ≤ 65 → written ofReset fillThenCommit (n + 1) = accepted ofReset fillThenCommit n) ↔
      ∀ n, n ≤ 65 → (machine.run ofReset fillThenCommit n).stall (fillThenCommit n) = false :=
  handed_off_iff afterReset_ofReset (legal_fillThenCommit 65) hasFree_fillThenCommit

end HandOff

end HeliosXCore
