import HeliosXCore.Lib.Run
import HeliosXCore.Rtl.HeliosX

/-! Fetch and decode: `IFUnit`, the delay registers `pc_t` and `pc_id` and `IDUnit` as HeliosX wires
    them, with an instruction memory that answers one cycle after the address. The stall is an
    input.

    The program counter counts cycles, whatever the stalls are, so the address of every fetch has a
    closed form. -/

namespace HeliosXCore
open Rtl

/-- The registers of the front end. -/
structure Fetch where
  ifUnit : IFUnit
  pcT : Word
  pcId : Word
  idUnit : IDUnit

namespace Fetch

/-- One edge. A stall kills the word in `IFUnit` and keeps the one in `IDUnit`. -/
def next (reset stall : Bool) (idata : Word) (s : Fetch) : Fetch where
  ifUnit := s.ifUnit.next reset stall stall idata
  pcT := s.ifUnit.iaddr
  pcId := s.pcT
  idUnit := s.idUnit.next reset false stall s.ifUnit.inst s.pcId

/-- Reset was held for two or more edges, from any power-on state. -/
def AfterReset (s : Fetch) : Prop :=
  ∃ s0 st1 st2 w1 w2, s = next true st2 w2 (next true st1 w1 s0)

/-- A state that reset leaves, all registers 0 before it. -/
def ofReset : Fetch := next true false 0 (next true false 0 ⟨⟨0, 0, 0⟩, 0, 0, IDUnit.cleared⟩)

theorem afterReset_ofReset : AfterReset ofReset := ⟨_, _, _, _, _, rfl⟩

end Fetch

/-- The front end and the word its memory delivers. -/
structure FetchSys where
  hw : Fetch
  idata : Word

namespace FetchSys

/-- The front end after reset, with no word fetched yet. -/
def start (s : Fetch) : FetchSys := ⟨s, 0⟩

/-- One cycle: the word at the fetch address comes with the next one. -/
def step (imem : Word → Word) (stall : Bool) (y : FetchSys) : FetchSys :=
  ⟨y.hw.next false stall y.idata, imem y.hw.ifUnit.iaddr⟩

/-- The front end with instruction memory `imem`; any cycle may be a stall. -/
def machine (imem : Word → Word) : Clocked FetchSys Bool := ⟨step imem, fun _ _ => True⟩

/-- The state after `n` cycles. -/
def stateAt (imem : Word → Word) (s : Fetch) (stall : ℕ → Bool) (n : ℕ) : FetchSys :=
  (machine imem).run (start s) stall n

end FetchSys

namespace Fetch

/-- The address of the `k`-th word of the program. -/
def wordAddr (k : ℕ) : Word := entryPoint + 4 * BitVec.ofNat 32 k

/-- Which word is addressed in each cycle: a stall repeats the number of its own cycle. -/
def fetchIndex (stall : ℕ → Bool) : ℕ → ℕ
  | 0 => 0
  | c + 1 => if stall c then c else c + 1

theorem wordAddr_succ (k : ℕ) : wordAddr (k + 1) = wordAddr k + 4 := by
  have h : BitVec.ofNat 32 (k + 1) = BitVec.ofNat 32 k + 1 := BitVec.ofNat_add k 1
  rw [wordAddr, wordAddr, h]
  generalize BitVec.ofNat 32 k = x
  rw [BitVec.mul_add, BitVec.add_assoc]
  rfl

/-- Two words share an address when their numbers differ by a multiple of `2 ^ 30`. -/
theorem wordAddr_eq_iff (j k : ℕ) : wordAddr j = wordAddr k ↔ j % 2 ^ 30 = k % 2 ^ 30 := by
  rw [wordAddr, wordAddr, BitVec.add_right_inj, ← BitVec.toNat_inj, BitVec.toNat_mul,
    BitVec.toNat_mul, BitVec.toNat_ofNat, BitVec.toNat_ofNat]
  simp only [show (4 : BitVec 32).toNat = 4 from rfl]
  omega

/-- An empty instruction register decodes to an instruction without destination. -/
theorem wrReg_ofInst_zero (pc : Word) : (IDUnit.ofInst 0 pc).dec.wrReg = false := by
  change (Decoder.decode 0).wrReg = false
  decide

variable {imem : Word → Word} {s : Fetch} {stall : ℕ → Bool}

open FetchSys (stateAt)

theorem stateAt_succ (n : ℕ) :
    stateAt imem s stall (n + 1) = FetchSys.step imem (stall n) (stateAt imem s stall n) := rfl

theorem pc_at (hs : s.AfterReset) (n : ℕ) :
    (stateAt imem s stall n).hw.ifUnit.pc = wordAddr n := by
  induction n with
  | zero => obtain ⟨s0, st1, st2, w1, w2, rfl⟩ := hs; rfl
  | succ n ih =>
    rw [wordAddr_succ, ← ih]
    rfl

theorem iaddr_at (hs : s.AfterReset) (n : ℕ) :
    (stateAt imem s stall n).hw.ifUnit.iaddr = wordAddr (fetchIndex stall n) := by
  cases n with
  | zero => obtain ⟨s0, st1, st2, w1, w2, rfl⟩ := hs; rfl
  | succ n =>
    have hpc : (stateAt imem s stall n).hw.ifUnit.pc = wordAddr n := pc_at hs n
    have hnpc : (stateAt imem s stall (n + 1)).hw.ifUnit.iaddr =
        if stall n then (stateAt imem s stall n).hw.ifUnit.pc
        else (stateAt imem s stall n).hw.ifUnit.pc + 4 := rfl
    rw [hnpc, hpc, fetchIndex]
    cases stall n
    · exact (wordAddr_succ n).symm
    · rfl

theorem idata_at (hs : s.AfterReset) (n : ℕ) :
    (stateAt imem s stall (n + 1)).idata = imem (wordAddr (fetchIndex stall n)) :=
  congrArg imem (iaddr_at hs n)

/-- `pc_id` is the address of the word in the instruction register. -/
theorem pcId_at (hs : s.AfterReset) (n : ℕ) :
    (stateAt imem s stall (n + 2)).hw.pcId = wordAddr (fetchIndex stall n) :=
  iaddr_at hs n

/-- A stall empties the instruction register; the word that arrives in its cycle is lost. -/
theorem inst_at (hs : s.AfterReset) (n : ℕ) :
    (stateAt imem s stall (n + 2)).hw.ifUnit.inst =
      if stall (n + 1) then 0 else imem (wordAddr (fetchIndex stall n)) := by
  have hinst : (stateAt imem s stall (n + 2)).hw.ifUnit.inst =
      if stall (n + 1) then 0
      else if !stall (n + 1) then (stateAt imem s stall (n + 1)).idata
      else (stateAt imem s stall (n + 1)).hw.ifUnit.inst := rfl
  rw [hinst, idata_at hs]
  cases stall (n + 1) <;> rfl

/-- The instruction register is empty in the first two cycles. -/
theorem inst_at_start (hs : s.AfterReset) :
    (stateAt imem s stall 0).hw.ifUnit.inst = 0 ∧ (stateAt imem s stall 1).hw.ifUnit.inst = 0 := by
  obtain ⟨s0, st1, st2, w1, w2, rfl⟩ := hs
  refine ⟨rfl, ?_⟩
  have hinst : (stateAt imem (next true st2 w2 (next true st1 w1 s0)) stall 1).hw.ifUnit.inst =
      if stall 0 then 0 else if !stall 0 then 0 else 0 := rfl
  rw [hinst]
  cases stall 0 <;> rfl

theorem idUnit_at_zero (hs : s.AfterReset) : (stateAt imem s stall 0).hw.idUnit = IDUnit.cleared := by
  obtain ⟨s0, st1, st2, w1, w2, rfl⟩ := hs
  rfl

/-- `IDUnit` holds while stalled, else it decodes the instruction register. -/
theorem idUnit_at_succ (n : ℕ) :
    (stateAt imem s stall (n + 1)).hw.idUnit =
      if stall n then (stateAt imem s stall n).hw.idUnit
      else IDUnit.ofInst (stateAt imem s stall n).hw.ifUnit.inst (stateAt imem s stall n).hw.pcId := by
  have h : (stateAt imem s stall (n + 1)).hw.idUnit =
      if !stall n then IDUnit.ofInst (stateAt imem s stall n).hw.ifUnit.inst
        (stateAt imem s stall n).hw.pcId
      else (stateAt imem s stall n).hw.idUnit := rfl
  rw [h]
  cases stall n <;> rfl

/-- Without stalls the `k`-th word is decoded three cycles after its address was given. -/
theorem idUnit_of_no_stall (hs : s.AfterReset) (k : ℕ) (h : ∀ c, c < k + 3 → stall c = false) :
    (stateAt imem s stall (k + 3)).hw.idUnit = IDUnit.ofInst (imem (wordAddr k)) (wordAddr k) := by
  have hidx : fetchIndex stall k = k := by
    cases k with
    | zero => rfl
    | succ k => rw [fetchIndex, h k (by omega)]; rfl
  rw [idUnit_at_succ, h (k + 2) (by omega), inst_at hs, pcId_at hs, h (k + 1) (by omega), hidx]
  rfl

/-- No instruction is presented before cycle 3. -/
theorem idUnit_at_start (hs : s.AfterReset) (n : ℕ) (hn : n < 3) :
    (stateAt imem s stall n).hw.idUnit.dec.wrReg = false := by
  have h0 : (stateAt imem s stall 0).hw.idUnit.dec.wrReg = false := by
    rw [idUnit_at_zero hs]
    rfl
  have h1 : (stateAt imem s stall 1).hw.idUnit.dec.wrReg = false := by
    rw [idUnit_at_succ, (inst_at_start hs).1]
    split
    · exact h0
    · exact wrReg_ofInst_zero _
  have h2 : (stateAt imem s stall 2).hw.idUnit.dec.wrReg = false := by
    rw [idUnit_at_succ, (inst_at_start hs).2]
    split
    · exact h1
    · exact wrReg_ofInst_zero _
  match n, hn with
  | 0, _ => exact h0
  | 1, _ => exact h1
  | 2, _ => exact h2

end Fetch

end HeliosXCore
