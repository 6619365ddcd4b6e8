import HeliosXCore.Rtl.Consts

/-! `COM/ROB.v`: the reorder buffer for two instructions a cycle. Its output `brcond_combranch_o` is
    not driven. -/

namespace HeliosXCore
open Rtl

/-- One dispatch port of `ROB`. -/
structure RobDispatch where
  dp : Bool
  addr : RrfTag
  pc : Word
  storebit : Bool
  dstvalid : Bool
  dst : RegSel
  bhr : BitVec 10
  isbranch : Bool

/-- One finish port of `ROB`. -/
structure RobFinish where
  finish : Bool
  addr : RrfTag

/-- The input ports of `ROB`. -/
structure DualRobIn where
  dp1 : RobDispatch
  dp2 : RobDispatch
  finishExAlu1 : RobFinish
  finishExAlu2 : RobFinish
  finishExMul : RobFinish
  finishExLdst : RobFinish
  finishExBranch : RobFinish
  finishExBranchBrcond : Bool
  finishExBranchJmpaddr : Word

/-- The registers of `ROB`. -/
structure ROB where
  commitPtr1 : RrfTag
  finish : Bits 6
  storebit : Bits 6
  dstValid : Bits 6
  brcond : Bits 6
  isbranch : Bits 6
  instPc : RrfTag → Word
  jmpaddr : RrfTag → Word
  dst : RrfTag → RegSel
  bhr : RrfTag → BitVec 10

namespace ROB

/-- All registers 0. -/
def zero : ROB := ⟨0, 0, 0, 0, 0, 0, fun _ => 0, fun _ => 0, fun _ => 0, fun _ => 0⟩

/-- The mask `6'b1` keeps one bit of the sum. -/
def commitPtr2 (s : ROB) : RrfTag := (s.commitPtr1 + (0#5 ++ 1#1)) &&& 0b1

/-- `commit_1`: the entry at the first pointer has finished. -/
def commit1 (s : ROB) : Bool := bit s.finish s.commitPtr1

/-- `commit_2`: the entry at the second pointer has finished, whether or not the first has. -/
def commit2 (s : ROB) : Bool := bit s.finish s.commitPtr2

/-- `comnum_o`: how many instructions commit. -/
def comnum (s : ROB) : BitVec 2 :=
  (BitVec.ofBool s.commit1).setWidth 2 + (BitVec.ofBool s.commit2).setWidth 2

/-- `store_commit_o`: a store commits. -/
def storeCommit (s : ROB) : Bool :=
  (s.commit1 && bit s.storebit s.commitPtr1) || (s.commit2 && bit s.storebit s.commitPtr2)

/-- `dst_arf_1_o`. -/
def dstArf1 (s : ROB) : RegSel := s.dst s.commitPtr1

/-- `dst_arf_2_o`. -/
def dstArf2 (s : ROB) : RegSel := s.dst s.commitPtr2

/-- `arfwe_1_o`: the first commit writes a register. -/
def arfwe1 (s : ROB) : Bool := bit s.dstValid s.commitPtr1 && s.commit1

/-- `arfwe_2_o`: the second commit writes a register. -/
def arfwe2 (s : ROB) : Bool := bit s.dstValid s.commitPtr2 && s.commit2

/-- `combranch_o`: a branch commits. -/
def combranch (s : ROB) : Bool :=
  (s.commit1 && bit s.isbranch s.commitPtr1) || (s.commit2 && bit s.isbranch s.commitPtr2)

/-- The entry that `pc_combranch_o`, `bhr_combranch_o` and `jmpaddr_combranch_o` read. -/
def combranchPtr (s : ROB) : RrfTag :=
  if s.commit1 && bit s.isbranch s.commitPtr1 then s.commitPtr1 else s.commitPtr2

/-- `pc_combranch_o`. -/
def pcCombranch (s : ROB) : Word := s.instPc s.combranchPtr

/-- `bhr_combranch_o`. -/
def bhrCombranch (s : ROB) : BitVec 10 := s.bhr s.combranchPtr

/-- `jmpaddr_combranch_o`. -/
def jmpaddrCombranch (s : ROB) : Word := s.jmpaddr s.combranchPtr

/-- `finish[addr] <= 1'b1` when the port reports the end of an instruction. -/
def setFinish (f : RobFinish) (v : Bits 6) : Bits 6 := if f.finish then setBit v f.addr true else v

/-- `finish[addr] <= 1'b0` when the port dispatches an instruction. -/
def clearFinish (d : RobDispatch) (v : Bits 6) : Bits 6 := if d.dp then setBit v d.addr false else v

/-- A bit that a dispatch port records. -/
def recordBit (d : RobDispatch) (b : Bool) (v : Bits 6) : Bits 6 :=
  if d.dp then setBit v d.addr b else v

/-- A field that a dispatch port records. -/
def record {α : Type} (d : RobDispatch) (x : α) (m : RrfTag → α) : RrfTag → α :=
  if d.dp then Function.update m d.addr x else m

/-- One edge: commits move the pointer on, finishes set bits, dispatches overwrite entries. -/
def next (reset : Bool) (i : DualRobIn) (s : ROB) : ROB where
  commitPtr1 :=
    if reset then 0
    else (s.commitPtr1 + (0#5 ++ BitVec.ofBool s.commit1) + (0#5 ++ BitVec.ofBool s.commit2)) &&& 0b1
  finish :=
    let v :=
      if reset then 0
      else setFinish i.finishExLdst (setFinish i.finishExMul (setFinish i.finishExBranch
        (setFinish i.finishExAlu2 (setFinish i.finishExAlu1 s.finish))))
    clearFinish i.dp2 (clearFinish i.dp1 v)
  brcond :=
    if reset then 0
    else if i.finishExBranch.finish then
      setBit s.brcond i.finishExBranch.addr i.finishExBranchBrcond
    else s.brcond
  jmpaddr :=
    if !reset && i.finishExBranch.finish then
      Function.update s.jmpaddr i.finishExBranch.addr i.finishExBranchJmpaddr
    else s.jmpaddr
  instPc := record i.dp2 i.dp2.pc (record i.dp1 i.dp1.pc s.instPc)
  dst := record i.dp2 i.dp2.dst (record i.dp1 i.dp1.dst s.dst)
  isbranch := recordBit i.dp2 i.dp2.isbranch (recordBit i.dp1 i.dp1.isbranch s.isbranch)
  storebit := recordBit i.dp2 i.dp2.storebit (recordBit i.dp1 i.dp1.storebit s.storebit)
  dstValid := recordBit i.dp2 i.dp2.dstvalid (recordBit i.dp1 i.dp1.dstvalid s.dstValid)
  bhr := record i.dp2 i.dp2.bhr (record i.dp1 i.dp1.bhr s.bhr)

/-- Some finish port names address `a`. -/
def Finishes (i : DualRobIn) (a : RrfTag) : Prop :=
  ∃ f ∈ [i.finishExAlu1, i.finishExAlu2, i.finishExBranch, i.finishExMul, i.finishExLdst],
    f.finish = true ∧ f.addr = a

instance (i : DualRobIn) (a : RrfTag) : Decidable (Finishes i a) := by
  unfold Finishes; infer_instance

/-! ### What an edge does -/

theorem bit_setFinish (f : RobFinish) (v : Bits 6) (a : RrfTag) :
    bit (setFinish f v) a = if f.finish = true ∧ f.addr = a then true else bit v a := by
  cases h : f.finish <;> simp [setFinish, h, eq_comm]

theorem bit_clearFinish (d : RobDispatch) (v : Bits 6) (a : RrfTag) :
    bit (clearFinish d v) a = if d.dp = true ∧ d.addr = a then false else bit v a := by
  cases h : d.dp <;> simp [clearFinish, h, eq_comm]

theorem bit_recordBit (d : RobDispatch) (b : Bool) (v : Bits 6) (a : RrfTag) :
    bit (recordBit d b v) a = if d.dp = true ∧ d.addr = a then b else bit v a := by
  cases h : d.dp <;> simp [recordBit, h, eq_comm]

theorem record_apply {α : Type} (d : RobDispatch) (x : α) (m : RrfTag → α) (a : RrfTag) :
    record d x m a = if d.dp = true ∧ d.addr = a then x else m a := by
  cases h : d.dp <;> simp [record, h, Function.update_apply, eq_comm]

theorem finishes_iff (i : DualRobIn) (a : RrfTag) : Finishes i a ↔
    (i.finishExAlu1.finish = true ∧ i.finishExAlu1.addr = a) ∨
    (i.finishExAlu2.finish = true ∧ i.finishExAlu2.addr = a) ∨
    (i.finishExBranch.finish = true ∧ i.finishExBranch.addr = a) ∨
    (i.finishExMul.finish = true ∧ i.finishExMul.addr = a) ∨
    (i.finishExLdst.finish = true ∧ i.finishExLdst.addr = a) := by
  simp [Finishes]

theorem bit_finish_next (i : DualRobIn) (s : ROB) (a : RrfTag) :
    bit (s.next false i).finish a =
      if i.dp2.dp = true ∧ i.dp2.addr = a then false
      else if i.dp1.dp = true ∧ i.dp1.addr = a then false
      else if Finishes i a then true
      else bit s.finish a := by
  simp only [next, bit_clearFinish, bit_setFinish, finishes_iff, Bool.false_eq_true, if_false]
  grind

end ROB

end HeliosXCore
