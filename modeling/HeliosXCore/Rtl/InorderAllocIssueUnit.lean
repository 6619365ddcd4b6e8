import HeliosXCore.Lib.Logic

/-! `SW/Searcher.v` and `SW/InorderAllocIssueUnit.v`: in-order allocation and issue for the memory
    reservation station. The head is recomputed in each cycle from the busy vector. -/

namespace HeliosXCore
open Rtl

/-- `SearchBegin`: the loop runs down, so the smallest set index is the last assignment. -/
def searchBegin {entNum : ℕ} (entSel : ℕ) (entry : BitVec entNum) : BitVec entSel × Bool :=
  (List.range entNum).foldr
    (fun i acc => if bitAt entry i then (BitVec.ofNat entSel i, true) else acc) (0, false)

/-- `SearchEnd`: the loop runs up, so the largest set index is the last assignment. -/
def searchEnd {entNum : ℕ} (entSel : ℕ) (entry : BitVec entNum) : BitVec entSel × Bool :=
  (List.range entNum).foldl
    (fun acc i => if bitAt entry i then (BitVec.ofNat entSel i, true) else acc) (0, false)

namespace InorderAllocIssueUnit
variable {entSel entNum : ℕ}

/-- `issue_ptr_o`. The sum `end_0 + 1` is truncated to the width of the port. -/
def issuePtr (busyVector : BitVec entNum) (allocPtr : BitVec entSel) : BitVec entSel :=
  let end0 := searchEnd entSel (~~~busyVector)
  let begin1 := searchBegin entSel busyVector
  let end1 := searchEnd entSel busyVector
  if !end0.2 then allocPtr
  else if begin1.1 = 0 ∧ end1.1.toNat = entNum - 1 then end0.1 + 1
  else begin1.1

/-- `issue_valid_o`: the head of the queue has both operands. -/
def issueValid (busyVector readyVector : BitVec entNum) (allocPtr : BitVec entSel) : Bool :=
  bitAt readyVector (issuePtr busyVector allocPtr).toNat

/-- The index `alloc_ptr_o + 1`. The literal makes it at least 32 bits wide, so with a narrower
    pointer it does not wrap around at the last entry. -/
def indexSucc (allocPtr : BitVec entSel) : ℕ := (allocPtr.toNat + 1) % 2 ^ max entSel 32

/-- `allocatable_o`, with the bits outside the vector unknown. -/
def allocatableLogic (reset : Bool) (reqNum : BitVec 2) (busyVector : BitVec entNum)
    (allocPtr : BitVec entSel) : Logic :=
  if reset then .known false
  else if reqNum = 0 then .known true
  else if reqNum = 1 then
    (bitSelect busyVector allocPtr.toNat).not.select (.known true) (.known false)
  else
    ((bitSelect busyVector allocPtr.toNat).not.and
      (bitSelect busyVector (indexSucc allocPtr)).not).select (.known true) (.known false)

/-- `allocatable_o` of a circuit in which the bits outside the vector read 0. -/
def allocatable (reset : Bool) (reqNum : BitVec 2) (busyVector : BitVec entNum)
    (allocPtr : BitVec entSel) : Bool :=
  if reset then false
  else if reqNum = 0 then true
  else if reqNum = 1 then !bitAt busyVector allocPtr.toNat
  else !bitAt busyVector allocPtr.toNat && !bitAt busyVector (indexSucc allocPtr)

theorem allocatable_allows (reset : Bool) (reqNum : BitVec 2) (busyVector : BitVec entNum)
    (allocPtr : BitVec entSel) : (allocatableLogic reset reqNum busyVector allocPtr).Allows
      (allocatable reset reqNum busyVector allocPtr) := by
  unfold allocatableLogic allocatable
  split_ifs
  · simp
  · simp
  · exact (bitSelect_allows busyVector _).not.select
  · exact ((bitSelect_allows busyVector _).not.and (bitSelect_allows busyVector _).not).select

/-- The register `alloc_ptr_o`. -/
def next (reset dpStall dpKill : Bool) (reqNum : BitVec 2) (busyVector : BitVec entNum)
    (allocPtr : BitVec entSel) : BitVec entSel :=
  if reset then 0
  else if !dpStall && !dpKill && allocatable reset reqNum busyVector allocPtr then
    allocPtr + reqNum.setWidth entSel
  else allocPtr

end InorderAllocIssueUnit

end HeliosXCore
