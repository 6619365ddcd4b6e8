import HeliosXCore.Rtl.Consts

/-! `DP/Rrf.v`, `DP/SrcOprManager.v` and `DP/RSRequestGen.v`: the rename register file with its
    bypass, the choice of a source operand and the requests to the reservation stations. -/

namespace HeliosXCore
open Rtl

/-- One forwarding port of an execution unit. -/
structure Forward where
  we : Bool
  rrftag : RrfTag
  data : Word
  deriving DecidableEq, Repr

/-- An unconnected forwarding port. -/
def Forward.none : Forward := ⟨false, 0, 0⟩

/-- The five forwarding ports of `Rrf`. -/
structure Forwards where
  alu1 : Forward
  alu2 : Forward
  ldst : Forward
  mul : Forward
  branch : Forward
  deriving DecidableEq, Repr

/-- Five unconnected ports. -/
def Forwards.none : Forwards :=
  ⟨Forward.none, Forward.none, Forward.none, Forward.none, Forward.none⟩

/-- The registers of `Rrf`: a result and whether it is there, for each tag. -/
structure Rrf where
  rrfValid : Bits 6
  rrfData : RrfTag → Word

namespace Rrf

/-- `forward_accessible_1` and `forward_accessible_2`, for the tag of the read port. -/
def forwardAccessible (f : Forwards) (tag : RrfTag) : Bool :=
  if f.alu1.we || f.alu2.we || f.ldst.we || f.mul.we || f.branch.we then
    tag == f.alu1.rrftag || tag == f.alu2.rrftag || tag == f.ldst.rrftag || tag == f.mul.rrftag ||
      tag == f.branch.rrftag
  else false

/-- `rs1_rrfdata_o` and `rs2_rrfdata_o`. -/
def rsRrfdata (s : Rrf) (f : Forwards) (tag : RrfTag) : Word :=
  if !bit s.rrfValid tag && forwardAccessible f tag then
    if tag = f.alu1.rrftag then f.alu1.data
    else if tag = f.alu2.rrftag then f.alu2.data
    else if tag = f.ldst.rrftag then f.ldst.data
    else if tag = f.mul.rrftag then f.mul.data
    else f.branch.data
  else s.rrfData tag

/-- `rs1_rrfvalid_o` and `rs2_rrfvalid_o`. -/
def rsRrfvalid (s : Rrf) (f : Forwards) (tag : RrfTag) : Bool :=
  if !bit s.rrfValid tag && forwardAccessible f tag then true else bit s.rrfValid tag

/-- `data_to_arfdata_o`: the result that a commit copies. -/
def dataToArfdata (s : Rrf) (completedDstRrftag : RrfTag) : Word := s.rrfData completedDstRrftag

/-- `rrf_data[tag] <= data` when the port writes; of the five ports only the two ALU ones do. -/
def storeData (f : Forward) (m : RrfTag → Word) : RrfTag → Word :=
  if f.we then Function.update m f.rrftag f.data else m

/-- `rrf_valid[tag] <= 1` when the port writes. -/
def storeValid (f : Forward) (v : Bits 6) : Bits 6 :=
  if f.we then setBit v f.rrftag true else v

/-- One edge. The allocation comes last and wins over the ports and the commit. -/
def next (reset : Bool) (f : Forwards) (allocateRrfEn : Bool) (allocateRrftag : RrfTag)
    (completedEn : Bool) (completedDstRrftag : RrfTag) (s : Rrf) : Rrf where
  rrfValid :=
    let v := if reset then 0 else s.rrfValid
    let v := if completedEn then setBit v completedDstRrftag false else v
    let v := storeValid f.alu2 (storeValid f.alu1 v)
    if allocateRrfEn then setBit v allocateRrftag false else v
  rrfData := storeData f.alu2 (storeData f.alu1 s.rrfData)

/-- Only the `alu1` port may carry a result. -/
structure OnlyAlu1 (f : Forwards) : Prop where
  alu2 : f.alu2.we = false ∧ f.alu2.rrftag = 0
  ldst : f.ldst.we = false ∧ f.ldst.rrftag = 0
  mul : f.mul.we = false ∧ f.mul.rrftag = 0
  branch : f.branch.we = false ∧ f.branch.rrftag = 0

theorem forwardAccessible_eq {f : Forwards} (hf : OnlyAlu1 f) {tag : RrfTag} (ht : tag ≠ 0) :
    forwardAccessible f tag = (f.alu1.we && tag == f.alu1.rrftag) := by
  have ht' : (tag == 0#6) = false := beq_false_of_ne ht
  cases h : f.alu1.we <;>
    simp [forwardAccessible, h, hf.alu2, hf.ldst, hf.mul, hf.branch, ht']

/-- A read finds the stored value, or the one that is on the `alu1` port. -/
theorem rsRrfvalid_eq (s : Rrf) {f : Forwards} (hf : OnlyAlu1 f) {tag : RrfTag} (ht : tag ≠ 0) :
    s.rsRrfvalid f tag = (bit s.rrfValid tag || (f.alu1.we && tag == f.alu1.rrftag)) := by
  rw [rsRrfvalid, forwardAccessible_eq hf ht]
  cases bit s.rrfValid tag <;> cases f.alu1.we && tag == f.alu1.rrftag <;> rfl

theorem rsRrfdata_of_valid (s : Rrf) (f : Forwards) {tag : RrfTag} (hv : bit s.rrfValid tag) :
    s.rsRrfdata f tag = s.rrfData tag := by simp [rsRrfdata, hv]

theorem rsRrfdata_of_forward (s : Rrf) {f : Forwards} (hf : OnlyAlu1 f) {tag : RrfTag}
    (ht : tag ≠ 0) (hv : bit s.rrfValid tag = false) (hw : f.alu1.we) (he : tag = f.alu1.rrftag) :
    s.rsRrfdata f tag = f.alu1.data := by
  have ha : forwardAccessible f tag = true := by
    rw [forwardAccessible_eq hf ht, hw, he]
    simp
  rw [rsRrfdata, hv, ha]
  simp [he]

/-! ### What an edge does -/

theorem bit_storeValid (f : Forward) (v : Bits 6) (t : RrfTag) :
    bit (storeValid f v) t = if f.we ∧ t = f.rrftag then true else bit v t := by
  cases h : f.we <;> simp [storeValid, h]

theorem storeData_apply (f : Forward) (m : RrfTag → Word) (t : RrfTag) :
    storeData f m t = if f.we ∧ t = f.rrftag then f.data else m t := by
  cases h : f.we <;> simp [storeData, h, Function.update_apply]

/-- An allocation clears the entry last; before it the two ALU ports set it and a commit clears it. -/
theorem bit_rrfValid_edge (f : Forwards) (allocEn : Bool) (allocTag : RrfTag) (com : Bool)
    (comTag : RrfTag) (s : Rrf) (t : RrfTag) :
    bit (s.next false f allocEn allocTag com comTag).rrfValid t =
      if allocEn ∧ t = allocTag then false
      else if f.alu2.we ∧ t = f.alu2.rrftag then true
      else if f.alu1.we ∧ t = f.alu1.rrftag then true
      else if com ∧ t = comTag then false
      else bit s.rrfValid t := by
  cases allocEn <;> cases com <;> simp [next, bit_storeValid]

theorem rrfData_edge (f : Forwards) (allocEn : Bool) (allocTag : RrfTag) (com : Bool)
    (comTag : RrfTag) (s : Rrf) (t : RrfTag) :
    (s.next false f allocEn allocTag com comTag).rrfData t =
      if f.alu2.we ∧ t = f.alu2.rrftag then f.alu2.data
      else if f.alu1.we ∧ t = f.alu1.rrftag then f.alu1.data
      else s.rrfData t := by
  simp only [next, storeData_apply]

theorem bit_rrfValid_next (f : Forwards) (allocTag : RrfTag) (com : Bool) (comTag : RrfTag)
    (s : Rrf) (t : RrfTag) (h2 : f.alu2.we = false) :
    bit (s.next false f false allocTag com comTag).rrfValid t =
      if f.alu1.we ∧ t = f.alu1.rrftag then true
      else if com ∧ t = comTag then false
      else bit s.rrfValid t := by
  simp [bit_rrfValid_edge, h2]

theorem bit_rrfValid_reset (f : Forwards) (allocTag : RrfTag) (com : Bool) (comTag : RrfTag)
    (s : Rrf) (t : RrfTag) (h1 : f.alu1.we = false) (h2 : f.alu2.we = false) :
    bit (s.next true f false allocTag com comTag).rrfValid t = false := by
  cases hc : com with
  | false => simp [next, storeValid, h1, h2, bit, bitAt]
  | true =>
    have h := bit_setBit (k := 6) 0 comTag t false
    simp only [bit_zero, ite_self] at h
    simpa [next, storeValid, h1, h2, hc] using h

theorem rrfData_next (f : Forwards) (allocEn : Bool) (allocTag : RrfTag) (com : Bool)
    (comTag : RrfTag) (s : Rrf) (t : RrfTag) (h2 : f.alu2.we = false) :
    (s.next false f allocEn allocTag com comTag).rrfData t =
      if f.alu1.we ∧ t = f.alu1.rrftag then f.alu1.data else s.rrfData t := by
  simp [rrfData_edge, h2]

end Rrf

namespace SrcOprManager

/-- `src_o`: 0 for register 0, else the register, its result, or the tag to wait on. -/
def src (arfBusy : Bool) (arfData : Word) (arfRrftag : RrfTag) (rrfValid : Bool) (rrfData : Word)
    (srcEqZero : Bool) : Word :=
  if srcEqZero then 0
  else if !arfBusy then arfData
  else if rrfValid then rrfData
  else 0#26 ++ arfRrftag

/-- `ready_o`: `src_o` is a value. -/
def ready (arfBusy rrfValid srcEqZero : Bool) : Bool := srcEqZero || !arfBusy || rrfValid

end SrcOprManager

/-- The outputs of `RSRequestGen`. -/
structure RSRequest where
  req1Alu : Bool
  req2Alu : Bool
  reqAlunum : BitVec 2
  req1Branch : Bool
  req2Branch : Bool
  reqBranchnum : BitVec 2
  req1Mul : Bool
  req2Mul : Bool
  reqMulnum : BitVec 2
  req1Ldst : Bool
  req2Ldst : Bool
  reqLdstnum : BitVec 2
  deriving DecidableEq, Repr

namespace RSRequestGen

/-- `{1'b0, r1} + {1'b0, r2}`. -/
def reqnum (r1 r2 : Bool) : BitVec 2 := (0#1 ++ BitVec.ofBool r1) + (0#1 ++ BitVec.ofBool r2)

/-- The requests that the classes of the two instructions make. -/
def gen (inst1RsType inst2RsType : BitVec 3) : RSRequest where
  req1Alu := inst1RsType == RsEnt.alu
  req2Alu := inst2RsType == RsEnt.alu
  reqAlunum := reqnum (inst1RsType == RsEnt.alu) (inst2RsType == RsEnt.alu)
  req1Branch := inst1RsType == RsEnt.branch
  req2Branch := inst2RsType == RsEnt.branch
  reqBranchnum := reqnum (inst1RsType == RsEnt.branch) (inst2RsType == RsEnt.branch)
  req1Mul := inst1RsType == RsEnt.mul
  req2Mul := inst2RsType == RsEnt.mul
  reqMulnum := reqnum (inst1RsType == RsEnt.mul) (inst2RsType == RsEnt.mul)
  req1Ldst := inst1RsType == RsEnt.ldst
  req2Ldst := inst2RsType == RsEnt.ldst
  reqLdstnum := reqnum (inst1RsType == RsEnt.ldst) (inst2RsType == RsEnt.ldst)

end RSRequestGen

end HeliosXCore
