import HeliosXCore.Rtl.Tag

/-! `COM/SingleInstROB.v`: the reorder buffer that HeliosX commits from. -/

namespace HeliosXCore
open Rtl

/-- The input ports of `SingleInstROB`. -/
structure RobIn where
  dp1 : Bool
  dp1Addr : RrfTag
  pcDp1 : Word
  dstvalidDp1 : Bool
  dstDp1 : RegSel
  finishExAlu1 : Bool
  finishExAlu1Addr : RrfTag

/-- The registers of `SingleInstROB`. -/
structure SingleInstROB where
  valid : Bits 6
  finish : Bits 6
  dstValid : Bits 6
  instPc : RrfTag → Word
  dst : RrfTag → RegSel
  commitPtr1 : RrfTag

namespace SingleInstROB

/-- All registers 0. -/
def zero : SingleInstROB := ⟨0, 0, 0, fun _ => 0, fun _ => 0, 0⟩

/-- `commit_1`: the instruction at the pointer is there and has finished. -/
def commit1 (s : SingleInstROB) : Bool := bit s.valid s.commitPtr1 && bit s.finish s.commitPtr1

/-- `comnum_o`: one instruction commits. -/
def comnum (s : SingleInstROB) : Bool := s.commit1

/-- `dst_arf_1_o`: its destination. -/
def dstArf1 (s : SingleInstROB) : RegSel := s.dst s.commitPtr1

/-- `pc_com_o`: its address. -/
def pcCom (s : SingleInstROB) : Word := s.instPc s.commitPtr1

/-- `arfwe_1_o`: it writes a register. -/
def arfwe1 (s : SingleInstROB) : Bool := bit s.dstValid s.commitPtr1 && s.commit1

/-- The wire `commit_ptr`. -/
def commitPtr (s : SingleInstROB) : RrfTag :=
  (s.commitPtr1 + (0#5 ++ BitVec.ofBool s.commit1)) &&& 0b111111

/-- One edge. A dispatch comes last and wins over the commit and the finish of its entry. -/
def next (reset : Bool) (i : RobIn) (s : SingleInstROB) : SingleInstROB where
  commitPtr1 := if reset then 1 else if s.commitPtr = 0 then 1 else s.commitPtr
  valid :=
    let v := if reset then 0 else if s.commit1 then setBit s.valid s.commitPtr1 false else s.valid
    if i.dp1 then setBit v i.dp1Addr true else v
  finish :=
    let v := if reset then 0
      else if i.finishExAlu1 then setBit s.finish i.finishExAlu1Addr true else s.finish
    if i.dp1 then setBit v i.dp1Addr false else v
  instPc := if i.dp1 then Function.update s.instPc i.dp1Addr i.pcDp1 else s.instPc
  dst := if i.dp1 then Function.update s.dst i.dp1Addr i.dstDp1 else s.dst
  dstValid := if i.dp1 then setBit s.dstValid i.dp1Addr i.dstvalidDp1 else s.dstValid

/-! ### What an edge does -/

theorem bit_valid_next (i : RobIn) (s : SingleInstROB) (t : RrfTag) :
    bit (s.next false i).valid t =
      if i.dp1 ∧ t = i.dp1Addr then true
      else if s.commit1 ∧ t = s.commitPtr1 then false
      else bit s.valid t := by
  cases h1 : i.dp1 <;> cases h2 : s.commit1 <;> simp [next, h1, h2]

theorem bit_finish_next (i : RobIn) (s : SingleInstROB) (t : RrfTag) :
    bit (s.next false i).finish t =
      if i.dp1 ∧ t = i.dp1Addr then false
      else if i.finishExAlu1 ∧ t = i.finishExAlu1Addr then true
      else bit s.finish t := by
  cases h1 : i.dp1 <;> cases h2 : i.finishExAlu1 <;> simp [next, h1, h2]

theorem bit_finish_reset (i : RobIn) (s : SingleInstROB) (t : RrfTag) :
    bit (s.next true i).finish t = false := by
  cases h : i.dp1
  · simp only [next, h, if_true]; exact bit_zero t
  · simp only [next, h, if_true, bit_setBit]; split <;> first | rfl | exact bit_zero t

theorem bit_dstValid_next (i : RobIn) (s : SingleInstROB) (t : RrfTag) :
    bit (s.next false i).dstValid t =
      if i.dp1 ∧ t = i.dp1Addr then i.dstvalidDp1 else bit s.dstValid t := by
  cases h1 : i.dp1 <;> simp [next, h1]

theorem instPc_next (i : RobIn) (s : SingleInstROB) (t : RrfTag) :
    (s.next false i).instPc t = if i.dp1 ∧ t = i.dp1Addr then i.pcDp1 else s.instPc t := by
  cases h1 : i.dp1 <;> simp [next, h1, Function.update_apply]

theorem dst_next (i : RobIn) (s : SingleInstROB) (t : RrfTag) :
    (s.next false i).dst t = if i.dp1 ∧ t = i.dp1Addr then i.dstDp1 else s.dst t := by
  cases h1 : i.dp1 <;> simp [next, h1, Function.update_apply]

/-- The commit pointer moves on with a commit and skips tag 0. -/
theorem commitPtr1_next (i : RobIn) (s : SingleInstROB) (h0 : s.commitPtr1 ≠ 0) :
    (s.next false i).commitPtr1 = if s.commit1 then nextTag s.commitPtr1 else s.commitPtr1 := by
  have h : ∀ p : RrfTag, p ≠ 0 → ∀ c : Bool,
      (if (p + (0#5 ++ BitVec.ofBool c)) &&& 0b111111 = 0 then 1
        else (p + (0#5 ++ BitVec.ofBool c)) &&& 0b111111) = if c then nextTag p else p := by
    decide
  exact h s.commitPtr1 h0 s.commit1

end SingleInstROB

end HeliosXCore
