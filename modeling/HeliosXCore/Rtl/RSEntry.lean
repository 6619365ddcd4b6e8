import HeliosXCore.Rtl.Consts

/-! `SW/SourceManager.v`, `SW/RSAluEntry.v` and `SW/RSAccessMemEntry.v`: one reservation-station
    entry. Both kinds of entry keep their two operands in the same way; an operand that is not
    valid holds the tag it waits on in its low six bits. -/

namespace HeliosXCore
open Rtl

/-- One broadcast result: `exe_result_k_i` and `exe_result_k_dst_i`. -/
structure ExeResult where
  dst : RrfTag
  data : Word
  deriving DecidableEq, Repr

/-- The five broadcast results. -/
structure ExeResults where
  r1 : ExeResult
  r2 : ExeResult
  r3 : ExeResult
  r4 : ExeResult
  r5 : ExeResult
  deriving DecidableEq, Repr

/-- An operand and whether it is a value. -/
structure Operand where
  op : Word
  valid : Bool
  deriving DecidableEq, Repr

/-- The tag an operand waits on. -/
def Operand.tag (o : Operand) : RrfTag := o.op.extractLsb' 0 6

/-- Some broadcast result carries the tag. -/
def ExeResults.hit (x : ExeResults) (tag : RrfTag) : Bool :=
  x.r1.dst == tag || x.r2.dst == tag || x.r3.dst == tag || x.r4.dst == tag || x.r5.dst == tag

/-- The data of the first broadcast result that carries the tag. -/
def ExeResults.pick (x : ExeResults) (tag : RrfTag) (other : Word) : Word :=
  if x.r1.dst = tag then x.r1.data
  else if x.r2.dst = tag then x.r2.data
  else if x.r3.dst = tag then x.r3.data
  else if x.r4.dst = tag then x.r4.data
  else if x.r5.dst = tag then x.r5.data
  else other

/-- The module `SourceManager`: an operand that waits on a broadcast tag takes the result. -/
def sourceManager (x : ExeResults) (o : Operand) : Operand where
  op := if o.valid then o.op else x.pick o.tag o.op
  valid := o.valid || x.hit o.tag

namespace RSOperand

/-- `write_op_update_k`: the operand that is written waits on a tag of this very cycle. -/
def writeOpUpdate (we : Bool) (x : ExeResults) (w : Operand) : Bool :=
  if we && !w.valid then x.hit w.tag else false

/-- `write_op_k` and `write_valid_k`: the dispatched operand, or a result broadcast in the same
    cycle. -/
def written (we : Bool) (x : ExeResults) (w : Operand) : Operand where
  op := if !writeOpUpdate we x w then w.op else x.pick w.tag w.op
  valid := w.valid || writeOpUpdate we x w

/-- `exe_op_k_o`. -/
def exeOp (x : ExeResults) (o : Operand) : Word :=
  if !o.valid && (sourceManager x o).valid then (sourceManager x o).op else o.op

/-- One edge: the operand is written, or watches the broadcast results. -/
def next (reset we : Bool) (x : ExeResults) (w o : Operand) : Operand :=
  if reset then ⟨0, false⟩
  else if we then written we x w
  else sourceManager x o

end RSOperand

/-- What a dispatch writes into an entry of `RSAlu`. -/
structure AluWrite where
  pc : Word
  op1 : Operand
  op2 : Operand
  srcA : BitVec 2
  srcB : BitVec 2
  imm : Word
  rrfTag : RrfTag
  dstVal : Bool
  aluOp : BitVec 4
  deriving DecidableEq, Repr

/-- All write data 0, which an entry that is not selected sees. -/
def AluWrite.zero : AluWrite := ⟨0, ⟨0, false⟩, ⟨0, false⟩, 0, 0, 0, 0, false, 0⟩

/-- The registers of `RSAluEntry`. -/
structure RSAluEntry where
  operand1 : Operand
  operand2 : Operand
  exePc : Word
  exeImm : Word
  exeRrfTag : RrfTag
  exeDstVal : Bool
  exeAluOp : BitVec 4
  exeSrcA : BitVec 2
  exeSrcB : BitVec 2
  deriving DecidableEq, Repr

namespace RSAluEntry

/-- All registers 0. -/
def zero : RSAluEntry := ⟨⟨0, false⟩, ⟨0, false⟩, 0, 0, 0, false, 0, 0, 0⟩

/-- `ready_o`: a busy entry with both operands. -/
def ready (busy : Bool) (s : RSAluEntry) : Bool := busy && s.operand1.valid && s.operand2.valid

/-- `exe_op_1_o`. -/
def exeOp1 (x : ExeResults) (s : RSAluEntry) : Word := RSOperand.exeOp x s.operand1

/-- `exe_op_2_o`. -/
def exeOp2 (x : ExeResults) (s : RSAluEntry) : Word := RSOperand.exeOp x s.operand2

/-- One edge: a write replaces all fields, otherwise only the operands may change. -/
def next (reset we : Bool) (w : AluWrite) (x : ExeResults) (s : RSAluEntry) : RSAluEntry where
  operand1 := RSOperand.next reset we x w.op1 s.operand1
  operand2 := RSOperand.next reset we x w.op2 s.operand2
  exePc := if reset then 0 else if we then w.pc else s.exePc
  exeImm := if reset then 0 else if we then w.imm else s.exeImm
  exeRrfTag := if reset then 0 else if we then w.rrfTag else s.exeRrfTag
  exeDstVal := if reset then false else if we then w.dstVal else s.exeDstVal
  exeAluOp := if reset then 0 else if we then w.aluOp else s.exeAluOp
  exeSrcA := if reset then 0 else if we then w.srcA else s.exeSrcA
  exeSrcB := if reset then 0 else if we then w.srcB else s.exeSrcB

end RSAluEntry

/-- What a dispatch writes into an entry of `RSAccessMem`. -/
structure MemWrite where
  pc : Word
  op1 : Operand
  op2 : Operand
  imm : Word
  rrfTag : RrfTag
  dstVal : Bool
  deriving DecidableEq, Repr

/-- All write data 0, which an entry that is not selected sees. -/
def MemWrite.zero : MemWrite := ⟨0, ⟨0, false⟩, ⟨0, false⟩, 0, 0, false⟩

/-- The registers of `RSAccessMemEntry`. -/
structure RSAccessMemEntry where
  operand1 : Operand
  operand2 : Operand
  exePc : Word
  exeImm : Word
  exeRrfTag : RrfTag
  exeDstVal : Bool
  deriving DecidableEq, Repr

namespace RSAccessMemEntry

/-- All registers 0. -/
def zero : RSAccessMemEntry := ⟨⟨0, false⟩, ⟨0, false⟩, 0, 0, 0, false⟩

/-- `ready_o`: a busy entry with both operands. -/
def ready (busy : Bool) (s : RSAccessMemEntry) : Bool :=
  busy && s.operand1.valid && s.operand2.valid

/-- `exe_src_op_1_o`: the base address. -/
def exeSrcOp1 (x : ExeResults) (s : RSAccessMemEntry) : Word := RSOperand.exeOp x s.operand1

/-- `exe_src_op_2_o`: the store data. -/
def exeSrcOp2 (x : ExeResults) (s : RSAccessMemEntry) : Word := RSOperand.exeOp x s.operand2

/-- One edge, as in `RSAluEntry`. -/
def next (reset wen : Bool) (w : MemWrite) (x : ExeResults) (s : RSAccessMemEntry) :
    RSAccessMemEntry where
  operand1 := RSOperand.next reset wen x w.op1 s.operand1
  operand2 := RSOperand.next reset wen x w.op2 s.operand2
  exePc := if reset then 0 else if wen then w.pc else s.exePc
  exeImm := if reset then 0 else if wen then w.imm else s.exeImm
  exeRrfTag := if reset then 0 else if wen then w.rrfTag else s.exeRrfTag
  exeDstVal := if reset then false else if wen then w.dstVal else s.exeDstVal

end RSAccessMemEntry

end HeliosXCore
