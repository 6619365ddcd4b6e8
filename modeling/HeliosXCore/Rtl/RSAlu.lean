import HeliosXCore.Rtl.RSEntry
import HeliosXCore.Rtl.AllocateUnit

/-! `SW/RSAlu.v` and `SW/RSAccessMem.v`: the reservation stations, eight and four entries with two
    write ports, a busy bit for each entry and (for `RSAlu`) a sort bit that orders two laps of
    tags. -/

namespace HeliosXCore
open Rtl

/-- One write port of a reservation station. -/
structure RSPort (sel : ℕ) (α : Type) where
  we : Bool
  addr : BitVec sel
  data : α

namespace RSPort
variable {sel : ℕ} {α : Type}

/-- `select_write_signal_e_k`. -/
def hits (p : RSPort sel α) (e : BitVec sel) : Bool := p.we && p.addr == e

/-- `select_rs_entry_e`. -/
def selected (p1 p2 : RSPort sel α) (e : BitVec sel) : Bool := p1.hits e || p2.hits e

/-- The write data entry `e` sees: of the first port that selects it, else zeros. -/
def dataFor (zero : α) (p1 p2 : RSPort sel α) (e : BitVec sel) : α :=
  if p1.hits e then p1.data else if p2.hits e then p2.data else zero

/-- `busy_vector_o`: both writes set, then the issued entry is cleared. -/
def busyNext (reset : Bool) (p1 p2 : RSPort sel α) (clearBusy : Bool) (issueAddr : BitVec sel)
    (busy : Bits sel) : Bits sel :=
  if reset then 0
  else
    let v := if p1.we then setBit busy p1.addr true else busy
    let v := if p2.we then setBit v p2.addr true else v
    if clearBusy then setBit v issueAddr false else v

end RSPort

/-- The registers of `RSAlu`. -/
structure RSAlu where
  entry : BitVec 3 → RSAluEntry
  sortBit : Bits 3
  busyVector : Bits 3

namespace RSAlu

/-- `ready[e]`: entry `e` is busy and has both operands. -/
def ready (s : RSAlu) (e : BitVec 3) : Bool := (s.entry e).ready (bit s.busyVector e)

/-- `{~ready, sort_bit, exe_rrf_tag}` of one entry. -/
def history (s : RSAlu) (e : BitVec 3) : BitVec 8 :=
  BitVec.ofBool (!s.ready e) ++ BitVec.ofBool (bit s.sortBit e) ++ (s.entry e).exeRrfTag

/-- `history_vector_o`: the least history is that of the entry to issue. -/
def historyVector (s : RSAlu) : BitVec (8 * 8) :=
  concat8 (s.history 7) (s.history 6) (s.history 5) (s.history 4) (s.history 3) (s.history 2)
    (s.history 1) (s.history 0)

/-- `8'b1 << addr` when the port writes, else 0. -/
def oneHot (p : RSPort 3 AluWrite) : Bits 3 := if p.we then 1#8 <<< p.addr else 0

/-- `sort_bit`: a written entry sets its bit, a new lap of the tags clears all others. -/
def sortBitNext (reset nextRrfCycle : Bool) (p1 p2 : RSPort 3 AluWrite) (sortBit : Bits 3) :
    Bits 3 :=
  if reset then 1#8
  else if nextRrfCycle then oneHot p1 ||| oneHot p2
  else
    let v := if p1.we then setBit sortBit p1.addr true else sortBit
    if p2.we then setBit v p2.addr true else v

/-- One edge of all eight entries, their busy bits and their sort bits. -/
def next (reset nextRrfCycle clearBusy : Bool) (issueAddr : BitVec 3) (p1 p2 : RSPort 3 AluWrite)
    (x : ExeResults) (s : RSAlu) : RSAlu where
  entry e := (s.entry e).next reset (RSPort.selected p1 p2 e)
    (RSPort.dataFor AluWrite.zero p1 p2 e) x
  sortBit := sortBitNext reset nextRrfCycle p1 p2 s.sortBit
  busyVector := RSPort.busyNext reset p1 p2 clearBusy issueAddr s.busyVector

end RSAlu

/-- The registers of `RSAccessMem`. -/
structure RSAccessMem where
  entry : BitVec 2 → RSAccessMemEntry
  busyVector : Bits 2

namespace RSAccessMem

/-- `ready[e]`: entry `e` is busy and has both operands. -/
def ready (s : RSAccessMem) (e : BitVec 2) : Bool := (s.entry e).ready (bit s.busyVector e)

/-- `ready_vector_o`. -/
def readyVector (s : RSAccessMem) : BitVec 4 :=
  BitVec.ofBool (s.ready 3) ++ BitVec.ofBool (s.ready 2) ++ BitVec.ofBool (s.ready 1) ++
    BitVec.ofBool (s.ready 0)

/-- One edge of all four entries and their busy bits. -/
def next (reset clearBusy : Bool) (issueAddr : BitVec 2) (p1 p2 : RSPort 2 MemWrite)
    (x : ExeResults) (s : RSAccessMem) : RSAccessMem where
  entry e := (s.entry e).next reset (RSPort.selected p1 p2 e)
    (RSPort.dataFor MemWrite.zero p1 p2 e) x
  busyVector := RSPort.busyNext reset p1 p2 clearBusy issueAddr s.busyVector

end RSAccessMem

end HeliosXCore
