import HeliosXCore.Lib.Run
import HeliosXCore.Rtl.HeliosX

/-! Rename and commit: `ReNameUnit` and `SingleInstROB` as HeliosX wires them. Decode and the
    execution units are the environment; it presents an instruction, drives the forwarding ports
    and reports at most one finished instruction in each cycle.

    Beside the circuit a log keeps what an observer has seen: the register-writing instructions in
    the order in which rename accepted them, how many of them the ROB has stored, the committed
    outputs and the results. -/

namespace HeliosXCore
open Rtl

/-- `u_ReNameUnit` and `u_SingleInstROB`. -/
structure DpCom where
  dp : ReNameUnit
  rob : SingleInstROB

/-- What the rest of the core drives in one cycle. -/
structure DpComIn where
  id : IDUnit
  forwards : Forwards
  finish : Bool
  finishAddr : RrfTag

namespace DpCom

/-- `stall_DP`, out of the allocator. -/
def stall (i : DpComIn) (s : DpCom) : Bool := HeliosX.stallOf i.id i.forwards s.rob s.dp

/-- One edge of both units. -/
def next (reset : Bool) (i : DpComIn) (s : DpCom) : DpCom where
  dp := s.dp.next reset (HeliosX.dpIn i.id i.forwards s.rob s.dp)
  rob := s.rob.next reset (HeliosX.robIn s.dp i.finish i.finishAddr)

/-- The ports while the units around are in reset themselves: no destination, no write. -/
def Idle (i : DpComIn) : Prop :=
  i.id.dec.wrReg = false ∧ i.forwards.alu1.we = false ∧ i.forwards.alu2.we = false

/-- Reset was held for two or more edges, from any power-on state. -/
def AfterReset (s : DpCom) : Prop :=
  ∃ s0 i1 i2, Idle i2 ∧ s = next true i2 (next true i1 s0)

/-- A state that reset leaves, all registers 0 before it. -/
def ofReset : DpCom :=
  let i : DpComIn := ⟨IDUnit.cleared, Forwards.none, false, 0⟩
  next true i (next true i ⟨ReNameUnit.zero, SingleInstROB.zero⟩)

theorem afterReset_ofReset : AfterReset ofReset := ⟨_, _, _, ⟨rfl, rfl, rfl⟩, rfl⟩

/-- `stall_DP`: an instruction with a destination meets a full ring and no commit. -/
theorem stall_eq (i : DpComIn) (s : DpCom) (hf : s.dp.rrfAlloc.freenum.toNat ≤ 63) :
    s.stall i = (i.id.dec.wrReg && !s.rob.comnum && s.dp.rrfAlloc.freenum == 0) := by
  have h := s.dp.rrfAlloc.rrfAllocatable_eq s.rob.comnum i.id.dec.wrReg hf
  simp only [stall, HeliosX.stallOf, ReNameUnit.stallIf, ReNameUnit.rrfAllocatableWire,
    HeliosX.dpPorts, h, Bool.not_or, Bool.not_not, bne, Bool.and_assoc]

end DpCom

/-- A register-writing instruction that rename accepted, and the tag it was given. -/
structure Accepted where
  id : IDUnit
  tag : RrfTag
  deriving DecidableEq

/-- What an observer has seen. -/
structure Log where
  accepted : List Accepted
  /-- How many of `accepted` the ROB has stored. -/
  written : ℕ
  /-- `(pc_com_o, dst_arf_1_o, arfwe_1_o)` over the cycles with `comnum_o = 1`. -/
  commits : List (Word × RegSel × Bool)
  /-- The result that was forwarded for each index of `accepted`. -/
  result : ℕ → Option Word

namespace Log

/-- What has been seen before the first cycle. -/
def empty : Log := ⟨[], 0, [], fun _ => none⟩

/-- How many instructions have been accepted. -/
def len (l : Log) : ℕ := l.accepted.length

/-- How many of them have committed. -/
def com (l : Log) : ℕ := l.commits.length

/-- The tag of the `j`-th accepted instruction. -/
def tagAt (l : Log) (j : ℕ) : RrfTag :=
  match l.accepted[j]? with
  | some a => a.tag
  | none => 0

end Log

/-- What the environment does in one cycle. `finish` is the index, in the order of acceptance, of the
    instruction whose finish is reported; without one the address port carries `idleAddr`. -/
structure Event where
  id : IDUnit
  forwards : Forwards
  finish : Option ℕ
  idleAddr : RrfTag

/-- What the event drives: a finish is reported under the tag of its instruction. -/
def Event.wires (e : Event) (l : Log) : DpComIn where
  id := e.id
  forwards := e.forwards
  finish := e.finish.isSome
  finishAddr := match e.finish with
    | some j => l.tagAt j
    | none => e.idleAddr

/-- Decode presents `addi x1, x1, 1` and nothing finishes. -/
def Event.addi : Event := ⟨IDUnit.ofInst 0x00108093 entryPoint, Forwards.none, none, 0⟩

/-- Decode presents an instruction without destination and nothing finishes. -/
def Event.bubble : Event := ⟨IDUnit.cleared, Forwards.none, none, 0⟩

/-- The circuit and its log. -/
structure Sys where
  hw : DpCom
  log : Log

namespace Sys

/-- The state that reset leaves, with an empty log. -/
def start (s : DpCom) : Sys := ⟨s, Log.empty⟩

/-- The instruction in rename is refused. -/
def stall (e : Event) (y : Sys) : Bool := y.hw.stall (e.wires y.log)

/-- Rename accepts a register-writing instruction. -/
def accepts (e : Event) (y : Sys) : Bool := e.id.dec.wrReg && !y.stall e

/-- One cycle of the circuit and of the observer. -/
def step (e : Event) (y : Sys) : Sys where
  hw := y.hw.next false (e.wires y.log)
  log :=
    { accepted := y.log.accepted ++
        if y.accepts e then [⟨e.id, y.hw.dp.rrfAlloc.rrfptr⟩] else []
      written := y.log.accepted.length
      commits := y.log.commits ++
        if y.hw.rob.comnum then [(y.hw.rob.pcCom, y.hw.rob.dstArf1, y.hw.rob.arfwe1)] else []
      result := match e.finish with
        | some j => Function.update y.log.result j (some e.forwards.alu1.data)
        | none => y.log.result }

/-- A finish event names a stored instruction that has not finished yet. -/
def Legal (y : Sys) (e : Event) : Prop :=
  ∀ j, e.finish = some j → j < y.log.written ∧ y.log.result j = none

instance (y : Sys) (e : Event) : Decidable (y.Legal e) :=
  inferInstanceAs (Decidable (∀ j ∈ e.finish, j < y.log.written ∧ y.log.result j = none))

/-- The system with an environment that finishes in any order and with any delay. -/
def machine : Clocked Sys Event := ⟨step, Legal⟩

/-! ### What a step does to the log -/

theorem stall_eq (e : Event) (y : Sys) (hf : y.hw.dp.rrfAlloc.freenum.toNat ≤ 63) :
    y.stall e = (e.id.dec.wrReg && !y.hw.rob.comnum && y.hw.dp.rrfAlloc.freenum == 0) :=
  DpCom.stall_eq _ _ hf

theorem len_step (e : Event) (y : Sys) :
    (y.step e).log.len = y.log.len + (y.accepts e).toNat := by
  cases h : y.accepts e <;> simp [step, Log.len, h]

theorem com_step (e : Event) (y : Sys) :
    (y.step e).log.com = y.log.com + y.hw.rob.comnum.toNat := by
  cases h : y.hw.rob.comnum <;> simp [step, Log.com, h]

/-- Only the instruction that commits leaves the window. -/
theorem com_step_le {e : Event} {y : Sys} {j : ℕ} (hj : y.log.com ≤ j)
    (hne : y.hw.rob.comnum → y.log.com ≠ j) : (y.step e).log.com ≤ j := by
  rw [com_step]
  cases hc : y.hw.rob.comnum with
  | false => simpa using hj
  | true =>
    have := hne hc
    rw [Bool.toNat_true]
    omega

theorem eq_com_of_lt_com_step {e : Event} {y : Sys} {j : ℕ} (hj : y.log.com ≤ j)
    (hlt : j < (y.step e).log.com) : y.hw.rob.comnum ∧ j = y.log.com := by
  rw [com_step] at hlt
  cases hc : y.hw.rob.comnum with
  | false =>
    rw [hc, Bool.toNat_false] at hlt
    omega
  | true =>
    rw [hc, Bool.toNat_true] at hlt
    exact ⟨rfl, by omega⟩

theorem written_step (e : Event) (y : Sys) : (y.step e).log.written = y.log.len := rfl

/-- Accepted instructions keep their index. -/
theorem accepted_step_of_lt (e : Event) (y : Sys) {i : ℕ} (hi : i < y.log.len) :
    (y.step e).log.accepted[i]? = y.log.accepted[i]? := List.getElem?_append_left hi

/-- A newly accepted instruction gets the tag at `rrfptr_o`. -/
theorem accepted_step_len (e : Event) (y : Sys) :
    (y.step e).log.accepted[y.log.len]? =
      if y.accepts e then some ⟨e.id, y.hw.dp.rrfAlloc.rrfptr⟩ else none := by
  cases h : y.accepts e <;> simp [step, Log.len, h]

theorem result_step (e : Event) (y : Sys) (j : ℕ) :
    (y.step e).log.result j =
      if e.finish = some j then some e.forwards.alu1.data else y.log.result j := by
  cases h : e.finish with
  | none => simp [step, h]
  | some i =>
    by_cases hj : j = i
    · simp [step, h, hj]
    · have hj' : i ≠ j := fun hi => hj hi.symm
      simp [step, h, hj, hj']

/-- A result stays. -/
theorem result_isSome_step (e : Event) (y : Sys) {j : ℕ} (h : (y.log.result j).isSome) :
    ((y.step e).log.result j).isSome := by
  rw [result_step]
  split
  · rfl
  · exact h

/-! ### What a step does to the DP/SW registers -/

theorem rrfAllocatableReg_step (e : Event) (y : Sys) :
    (y.step e).hw.dp.rrfAllocatableReg = !y.stall e := (Bool.not_not _).symm

theorem dstEnReg_step (e : Event) (y : Sys) : (y.step e).hw.dp.dstEnReg = e.id.dec.wrReg := rfl

theorem dstRrftagReg_step (e : Event) (y : Sys) :
    (y.step e).hw.dp.dstRrftagReg = y.hw.dp.rrfAlloc.rrfptr := rfl

end Sys

end HeliosXCore
