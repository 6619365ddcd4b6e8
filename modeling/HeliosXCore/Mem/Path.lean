import HeliosXCore.Mem.Drain
import HeliosXCore.Rtl.HeliosX
import HeliosXCore.Sw.Capture

/-! The memory path: the memory station of `SwUnit` connected to `MemAccessUnit` as in `HeliosX.v`, up to
    the ports of data memory. The request for memory entries and the commit of stores, which `HeliosX.v`
    leaves open, are inputs here.

    Stores get to data memory in the order in which they were dispatched, through a station that looks
    for its head and a ring that looks for nothing. -/

namespace HeliosXCore
open Rtl

/-- The ports of `SwUnit`, the commit of stores and what data memory returns. -/
structure MemPathIn where
  sw : SwIn
  complete : Bool
  dmemRdata : Word

/-- The connections of `MemAccessUnit`. -/
def MemPathIn.memAccess (i : MemPathIn) (s : SwUnit) : MemAccessIn :=
  { HeliosX.memAccessIn s i.sw.exeResults i.dmemRdata with complete := i.complete }

/-- The station and the store buffer with their records, the latch of `ExUnit` behind the buffer, and
    the writes that data memory has taken. -/
structure MemPath where
  station : TracedMem
  buffer : StoreSys
  latch : MemAccessLatch
  taken : List (Word × Word)

namespace MemPath

def start (s : SwUnit) (b : StoreBuffer) : MemPath :=
  ⟨TracedMem.start s, StoreSys.start b (fun _ => 0), ⟨false, false, 0, false, 0, 0, 0, 0⟩, []⟩

/-- What the ports `dmem_we_o`, `dmem_waddr_o` and `dmem_wdata_o` ask for. -/
def port (p : MemPath) : List (Word × Word) :=
  if p.latch.storeBufferMemWe then
    [(p.latch.storeBufferWriteAddress, p.latch.storeBufferWriteData)] else []

/-- What the store buffer presents to the latch. -/
def presented (p : MemPath) : List (Word × Word) :=
  if p.buffer.hw.memWe then [(p.buffer.hw.writeAddress, p.buffer.hw.writeData)] else []

/-- What the store buffer is asked for. -/
def storeIn (i : MemPathIn) (p : MemPath) : StoreIn := MemAccessUnit.storeIn (i.memAccess p.station.hw)

def step (i : MemPathIn) (p : MemPath) : MemPath where
  station := p.station.step i.sw
  buffer := StoreSys.step (p.storeIn i) p.buffer
  latch := ExUnit.memAccessNext false (i.memAccess p.station.hw) p.buffer.hw
  taken := p.taken ++ p.port

/-- At most two operations are asked for, no pair in front of a busy entry 0, and the store buffer is
    told of the commit of stores it has, with room for what is issued. -/
def machine : Clocked MemPath MemPathIn :=
  ⟨step, fun p i => (i.sw.reqMemNum ≠ 3 ∧ p.station.hw.queue.PairOk (p.station.hw.queueIn i.sw)) ∧
    StoreSys.machine.legal p.buffer (p.storeIn i)⟩

instance (p : MemPath) (i : MemPathIn) : Decidable (machine.legal p i) :=
  inferInstanceAs (Decidable ((_ ∧ _) ∧ (_ ∧ _)))

/-- The path in cycle `n`. -/
def cycle (s : SwUnit) (b : StoreBuffer) (e : ℕ → MemPathIn) (n : ℕ) : MemPath :=
  machine.run (start s b) e n

/-- The core is this path with both inputs at 0. -/
theorem heliosX_next (hx : HeliosX) (idata d : Word) {p : MemPath} (hsw : p.station.hw = hx.sw)
    (hb : p.buffer.hw = hx.ex.storeBuffer) :
    let i : MemPathIn := ⟨HeliosX.swIn hx.dp (HeliosX.exeResults hx.ex) hx.stall, false, d⟩
    (p.step i).station.hw = (hx.next false idata d).sw ∧
      (p.step i).buffer.hw = (hx.next false idata d).ex.storeBuffer ∧
      (p.step i).latch = (hx.next false idata d).ex.memAccess := by
  obtain ⟨⟨sw, m, op, n, out⟩, ⟨buf, log, handed, write, mem⟩, latch, taken⟩ := p
  obtain rfl : sw = hx.sw := hsw
  obtain rfl : buf = hx.ex.storeBuffer := hb
  exact ⟨rfl, rfl, rfl⟩

/-! ### What was issued -/

/-- The write that an issued operation asks for; a load asks for none. -/
def writeOf (s : RSAccessMemEntry) : Option (Word × Word) :=
  if s.exeDstVal then none else some (s.operand1.op + s.exeImm, s.operand2.op)

/-- The writes of the operations issued so far. -/
def stores (p : MemPath) : List (Word × Word) :=
  (List.range p.station.issued).filterMap fun k => writeOf (p.station.out k)

/-- What holds in every state. -/
structure Inv (p : MemPath) : Prop where
  inOrder : p.station.InOrder
  buffer : StoreSys.Inv (fun _ => 0) p.buffer
  /-- The store buffer has been given the writes of the operations issued. -/
  issued : p.stores = firsts p.buffer.log.store p.buffer.log.issued
  /-- What it has presented is taken, at the ports or in front of the latch. -/
  handed : p.taken ++ p.port ++ p.presented = firsts p.buffer.write p.buffer.handed

theorem inv_start {s : SwUnit} (hs : s.AfterReset) :
    Inv (start s StoreBuffer.cleared) :=
  ⟨TracedMem.inOrder_start hs, StoreSys.inv_start _, rfl, rfl⟩

section Step
variable {p : MemPath} {i : MemPathIn}

/-- A store is issued to the buffer exactly if the station issues an operation that writes no
    register, with the address and the data of that operation. -/
theorem storeIn_eq (hi : p.station.hw.exeMemIssue = true) :
    (if (p.storeIn i).storing then [((p.storeIn i).address, (p.storeIn i).writeData)] else []) =
      (writeOf p.station.hw.memIssueEntry).toList := by
  obtain ⟨-, hv1, hv2⟩ := SwUnit.ready_of_exeMemIssue hi
  have hop1 := RSOperand.exeOp_valid (x := i.sw.exeResults) hv1
  have hop2 := RSOperand.exeOp_valid (x := i.sw.exeResults) hv2
  have haddr : (p.storeIn i).address =
      p.station.hw.memIssueEntry.operand1.op + p.station.hw.memIssueEntry.exeImm := by
    rw [← hop1]
    rfl
  have hdata : (p.storeIn i).writeData = p.station.hw.memIssueEntry.operand2.op := hop2
  have hst : (p.storeIn i).storing = !p.station.hw.memIssueEntry.exeDstVal := by
    change (p.station.hw.exeMemIssue && !p.station.hw.memIssueEntry.exeDstVal) = _
    rw [hi, Bool.true_and]
  rw [haddr, hdata, hst, writeOf]
  cases p.station.hw.memIssueEntry.exeDstVal <;> rfl

theorem not_storing (hi : p.station.hw.exeMemIssue = false) : (p.storeIn i).storing = false := by
  change (p.station.hw.exeMemIssue && _) = false
  rw [hi, Bool.false_and]

theorem stores_step : (p.step i).stores = p.stores ++
    if (p.storeIn i).storing then [((p.storeIn i).address, (p.storeIn i).writeData)] else [] := by
  have hrec := filterMap_range_record writeOf p.station.hw.exeMemIssue p.station.out p.station.issued
    p.station.hw.memIssueEntry
  refine hrec.trans (congrArg (p.stores ++ ·) ?_)
  cases hi : p.station.hw.exeMemIssue with
  | false =>
    rw [not_storing hi]
    rfl
  | true => rw [storeIn_eq hi, if_pos rfl]

theorem log_step (l : StoreLog) (j : StoreIn) : firsts (l.step j).store (l.step j).issued =
    firsts l.store l.issued ++ if j.storing then [(j.address, j.writeData)] else [] := by
  have hissued : (l.step j).issued = l.issued + j.storing.toNat := by
    rw [StoreLog.issued_step]
    cases j.storing <;> rfl
  rw [hissued]
  exact firsts_record _ _ _ _

theorem write_step (j : StoreIn) (y : StoreSys) :
    firsts (StoreSys.step j y).write (StoreSys.step j y).handed = firsts y.write y.handed ++
      if (StoreSys.step j y).hw.memWe then
        [((StoreSys.step j y).hw.writeAddress, (StoreSys.step j y).hw.writeData)] else [] := by
  have hhanded : (StoreSys.step j y).handed = y.handed + (StoreSys.step j y).hw.memWe.toNat := by
    change (if (StoreSys.step j y).hw.memWe then _ else _) = _
    cases (StoreSys.step j y).hw.memWe <;> rfl
  rw [hhanded]
  exact firsts_record _ _ _ _

theorem Inv.step (h : Inv p) (hl : machine.legal p i) : Inv (p.step i) where
  inOrder := h.inOrder.step (TracedMem.freeDispatch_of_pairOk hl.1.1 hl.1.2)
  buffer := StoreSys.inv_step h.buffer hl.2
  issued := by
    rw [stores_step, h.issued]
    exact (log_step _ _).symm
  handed := by
    have hport : (p.step i).port = p.presented := rfl
    have htaken : (p.step i).taken = p.taken ++ p.port := rfl
    rw [htaken, hport, h.handed]
    exact (write_step _ _).symm

/-- What data memory has taken are the first stores that were issued. -/
theorem Inv.taken_first (h : Inv p) : p.taken <+: p.stores := by
  have hd := h.buffer.drainsInOrder
  have hfirst : firsts p.buffer.write p.buffer.handed = firsts p.buffer.log.store p.buffer.handed :=
    firsts_congr fun k hk hk' => (hd.write k hk hk').2
  have hpre : p.taken <+: firsts p.buffer.write p.buffer.handed := by
    rw [← h.handed, List.append_assoc]
    exact List.prefix_append _ _
  rw [hfirst] at hpre
  rw [h.issued]
  exact hpre.trans (firsts_mono _ h.buffer.handed_le)

end Step

/-! ### Runs -/

/-- What operation `w`, dispatched in cycle `c` and issued in cycle `m`, asks memory for: its operands
    are captured from the broadcasts `x` in between, and a load asks for no write. -/
def Asks (x : ℕ → ExeResults) (w : MemWrite) (c m : ℕ) (v : Option (Word × Word)) : Prop :=
  ∃ base data, Captures x w.op1 c m base ∧ Captures x w.op2 c m data ∧
    v = if w.dstVal then none else some (base + w.imm, data)

section run
variable {s : SwUnit} {b : StoreBuffer} {e : ℕ → MemPathIn} {N n : ℕ}

theorem inv_run (hs : s.AfterReset) (hb : b.AfterReset) (hl : machine.Legal (start s b) e N)
    (hn : n ≤ N) : Inv (cycle s b e n) := by
  refine Clocked.run_invariant (I := Inv) ?_ (fun _ _ h hi => h.step hi) hl n hn
  rw [hb.eq]
  exact inv_start hs

/-- The station goes its own way. -/
theorem station_cycle (n : ℕ) :
    (cycle s b e n).station = TracedMem.cycle s (fun j => (e j).sw) n := by
  induction n with
  | zero => rfl
  | succ n ih => exact congrArg (TracedMem.step (e n).sw) ih

theorem station_legal (hl : machine.Legal (start s b) e N) :
    TracedMem.machine.Legal (TracedMem.start s) (fun j => (e j).sw) N := by
  intro n hn
  have hfree := TracedMem.freeDispatch_of_pairOk (hl n hn).1.1 (hl n hn).1.2
  change TracedMem.FreeDispatch (cycle s b e n).station _ at hfree
  rwa [station_cycle] at hfree

/-- In every run that dispatches no pair in front of a busy entry 0, completes only stores that the
    buffer has and keeps room in it: what data memory has taken is, in order, what the first dispatched
    stores ask for. -/
theorem stores_taken_in_order (hs : s.AfterReset) (hb : b.AfterReset)
    (hl : machine.Legal (start s b) e N) (hn : n ≤ N) :
    ∃ v : ℕ → Option (Word × Word),
      (∀ k, k < (cycle s b e n).station.issued → ∃ c m, c < m ∧ m < n ∧
        TracedMem.DispatchedIn s (fun j => (e j).sw) c k ∧
        Asks (fun j => (e j).sw.exeResults) ((cycle s b e n).station.op k) c m (v k)) ∧
      (cycle s b e n).taken <+: (List.range (cycle s b e n).station.issued).filterMap v := by
  refine ⟨fun k => writeOf ((cycle s b e n).station.out k), ?_, (inv_run hs hb hl hn).taken_first⟩
  intro k hk
  rw [station_cycle] at hk ⊢
  obtain ⟨c, m, hm, hi⟩ := TracedMem.exists_issued hs ((station_legal hl).mono hn) hk
  refine ⟨c, m, hi.before, hm, hi.dispatched, _, _, hi.op1, hi.op2, ?_⟩
  simp only [writeOf, hi.fields.imm, hi.fields.dstVal]

end run

/-- Two stores at once, the first of which waits for its data until cycle 3. -/
def lateData (n : ℕ) : MemPathIn where
  sw := {
    nextRrfCycle := false
    reqAluNum := 0
    reqMemNum := if n = 0 then 2 else 0
    dp1 := ⟨0, ⟨16, true⟩, ⟨5, false⟩, 0, 0, 4, 1, false, 0⟩
    dp2 := ⟨4, ⟨32, true⟩, ⟨7, true⟩, 0, 0, 0, 2, false, 0⟩
    stallDp := false
    killDp := false
    exeResults := ⟨⟨if n = 3 then 5 else 0, 42⟩, ⟨0, 0⟩, ⟨0, 0⟩, ⟨0, 0⟩, ⟨0, 0⟩⟩ }
  complete := decide (n = 6) || decide (n = 8)
  dmemRdata := 0

theorem stores_taken_in_order_lateData :
    let p := cycle (SwUnit.zero.next true (lateData 0).sw) StoreBuffer.cleared lateData 12
    ∃ v : ℕ → Option (Word × Word),
      (∀ k, k < p.station.issued → ∃ c m, c < m ∧ m < 12 ∧
        TracedMem.DispatchedIn (SwUnit.zero.next true (lateData 0).sw)
          (fun j => (lateData j).sw) c k ∧
        Asks (fun j => (lateData j).sw.exeResults) (p.station.op k) c m (v k)) ∧
      p.taken <+: (List.range p.station.issued).filterMap v :=
  stores_taken_in_order ⟨SwUnit.zero, (lateData 0).sw, rfl⟩ StoreBuffer.afterReset_cleared
    (N := 12) (by decide +kernel) (by omega)

/-- The younger store has waited for the older one. -/
example : (cycle (SwUnit.zero.next true (lateData 0).sw) StoreBuffer.cleared lateData 12).taken =
    [(20, 42), (32, 7)] := by decide +kernel

end MemPath

end HeliosXCore
