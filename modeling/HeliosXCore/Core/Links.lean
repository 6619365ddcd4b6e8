import HeliosXCore.Core.System

/-! What connects the parts of the core: the front end delivers ALU instructions and no-ops, the
    memory side stays silent, and the ALU latch reports exactly the instruction that was issued. With
    that, rename and commit see the environment that their own analysis assumes. -/

namespace HeliosXCore
open Rtl

/-! ### The front end -/

/-- Only words of the program, or empty words, are on their way. -/
structure FrontOk (c : Core) : Prop where
  idata : (Decoder.decode c.idata).AluOrNop
  inst : (Decoder.decode c.hx.ifUnit.inst).AluOrNop
  idUnit : c.hx.idUnit.dec.AluOrNop
  idReg : c.hx.dp.idReg.dec.AluOrNop
  dstEn : c.hx.dp.dstEnReg = c.hx.dp.idReg.dec.wrReg
  req : c.hx.dp.reqReg = RSRequestGen.gen c.hx.dp.idReg.dec.rsEnt 0

theorem aluOrNop_zero : (Decoder.decode 0).AluOrNop := Or.inr (by decide)

theorem aluOrNop_decZero : IDUnit.decZero.AluOrNop := Or.inr (by decide)

namespace FrontOk
variable {c : Core}

theorem start {s : HeliosX} (hs : s.AfterReset) : FrontOk (Core.start s) := by
  obtain ⟨s0, i1, d1, i2, d2, rfl⟩ := hs
  exact ⟨aluOrNop_zero, aluOrNop_zero, aluOrNop_decZero, aluOrNop_decZero, rfl, rfl⟩

theorem step {imem : Word → Word} (himem : AluNopProgram imem) (h : FrontOk c) (d : Word) :
    FrontOk (c.step imem d) := by
  refine ⟨himem _, ?_, ?_, h.idUnit, rfl, rfl⟩
  · change (Decoder.decode (if c.hx.stall then 0 else if !c.hx.stall then c.idata
      else c.hx.ifUnit.inst)).AluOrNop
    cases c.hx.stall
    · exact h.idata
    · exact aluOrNop_zero
  · change (IDUnit.next false false c.hx.stall c.hx.ifUnit.inst c.hx.pcId
      c.hx.idUnit).dec.AluOrNop
    cases c.hx.stall
    · exact h.inst
    · exact h.idUnit

/-- The request in the DP/SW registers is for at most one entry of `RSAlu`. -/
theorem reqAluNum (h : FrontOk c) :
    c.hx.swPorts.reqAluNum = if c.hx.dp.dstEnReg then 1 else 0 := by
  have hreq : c.hx.swPorts.reqAluNum =
      (RSRequestGen.gen c.hx.dp.idReg.dec.rsEnt 0).reqAlunum := by rw [← h.req]; rfl
  rw [hreq, h.dstEn]
  rcases h.idReg with ⟨hw, he⟩ | ⟨hw, he⟩ <;> rw [hw, he] <;> rfl

theorem reqAluNum_ne_two (h : FrontOk c) : c.hx.swPorts.reqAluNum ≠ 2 := by
  rw [h.reqAluNum]
  cases c.hx.dp.dstEnReg <;> decide

end FrontOk

/-- At most one instruction is dispatched in a cycle. -/
def Core.OneAtMost (c : Core) : Prop := c.hx.swPorts.reqAluNum ≠ 2

instance {c : Core} : Coe (FrontOk c) c.OneAtMost := ⟨FrontOk.reqAluNum_ne_two⟩

/-! ### The memory side and the branch unit -/

/-- The memory reservation station is empty, and no result comes from memory or branches. -/
structure Quiet (hx : HeliosX) : Prop where
  busy : ∀ e, bit hx.sw.rsMem.busyVector e = false
  entryTag : ∀ e, (hx.sw.rsMem.entry e).exeRrfTag = 0
  entryDst : ∀ e, (hx.sw.rsMem.entry e).exeDstVal = false
  memWe : hx.ex.memAccess.rrfWe = false
  memTag : hx.ex.memAccess.rrfTag = 0
  branchTag : hx.ex.branch.rrfTag = 0

namespace Quiet
variable {hx : HeliosX}

theorem start {s : HeliosX} (hs : s.AfterReset) : Quiet s := by
  obtain ⟨s0, i1, d1, i2, d2, rfl⟩ := hs
  exact ⟨fun e => bit_zero e, fun _ => rfl, fun _ => rfl, rfl, rfl, rfl⟩

theorem memWe_eq_false (hx : HeliosX) :
    hx.sw.memWe1 false hx.swPorts = false ∧ hx.sw.memWe2 false hx.swPorts = false := by
  have h1 : decide ((0 : BitVec 2) ≥ 1) = false := by decide
  have h2 : ((0 : BitVec 2) == 2) = false := by decide
  refine ⟨?_, ?_⟩
  · rw [SwUnit.memWe1]
    exact (congrArg _ h1).trans (Bool.and_false _)
  · rw [SwUnit.memWe2]
    exact (congrArg _ h2).trans (Bool.and_false _)

theorem step (h : Quiet hx) (idata d : Word) : Quiet (hx.next false idata d) := by
  obtain ⟨h1, h2⟩ := memWe_eq_false hx
  have hsel : ∀ e, RSPort.selected (hx.sw.memPort1 false hx.swPorts)
      (hx.sw.memPort2 false hx.swPorts) e = false := by
    intro e
    simp [RSPort.selected, RSPort.hits, SwUnit.memPort1, SwUnit.memPort2, h1, h2]
  have hentry : ∀ e, (hx.next false idata d).sw.rsMem.entry e =
      (hx.sw.rsMem.entry e).next false
        (RSPort.selected (hx.sw.memPort1 false hx.swPorts) (hx.sw.memPort2 false hx.swPorts) e)
        (RSPort.dataFor MemWrite.zero (hx.sw.memPort1 false hx.swPorts)
          (hx.sw.memPort2 false hx.swPorts) e) (HeliosX.exeResults hx.ex) := fun _ => rfl
  have hbusy := fun e => RSPort.bit_busyNext (hx.sw.memPort1 false hx.swPorts)
    (hx.sw.memPort2 false hx.swPorts) hx.sw.exeMemIssue hx.sw.memIssueAddr
    hx.sw.rsMem.busyVector e
  refine ⟨?_, ?_, ?_, ?_, ?_, rfl⟩
  · intro e
    refine (hbusy e).trans ?_
    rw [hsel, h.busy]
    simp
  · intro e
    rw [hentry, hsel]
    exact h.entryTag e
  · intro e
    rw [hentry, hsel]
    exact h.entryDst e
  · change (hx.sw.exeMemIssue && hx.sw.memIssueEntry.exeDstVal) = false
    rw [SwUnit.memIssueEntry, h.entryDst, Bool.and_false]
  · exact h.entryTag _

theorem onlyAlu1 (h : Quiet hx) : Rrf.OnlyAlu1 (HeliosX.forwards hx.ex) :=
  ⟨⟨rfl, rfl⟩, ⟨h.memWe, h.memTag⟩, ⟨rfl, rfl⟩, ⟨rfl, rfl⟩⟩

theorem onlyAlu (h : Quiet hx) : (HeliosX.exeResults hx.ex).OnlyAlu :=
  ⟨h.branchTag, rfl, rfl, rfl⟩

end Quiet

/-! ### The ALU latch -/

/-- The latch writes exactly when it holds an issued instruction, and then with its tag; that
    instruction has been stored in the ROB and has no result yet. -/
structure Latched (t : Traced) : Prop where
  robWe : t.core.hx.ex.alu.robWe = t.exIdx.isSome
  rrfWe : t.core.hx.ex.alu.rrfWe = t.exIdx.isSome
  tag : ∀ j, t.exIdx = some j → t.core.hx.ex.alu.rrfTag = tagOf j
  live : ∀ j, t.exIdx = some j → j < t.log.written ∧ t.log.result j = none

namespace Latched
variable {t : Traced}

theorem start {s : HeliosX} (hs : s.AfterReset) : Latched (Traced.start s) := by
  obtain ⟨s0, i1, d1, i2, d2, rfl⟩ := hs
  refine ⟨rfl, rfl, ?_, ?_⟩ <;>
  · intro j hj
    cases hj

theorem legal (h : Latched t) : t.sys.Legal t.event := h.live

theorem forwarding (h : Latched t) (hq : Quiet t.core.hx) (ha : Acct t.sys) :
    t.sys.Forwarding t.event := by
  refine ⟨hq.onlyAlu1, h.rrfWe, ?_⟩
  intro j hj
  have hlt := (h.live j hj).1
  have hle := ha.written_le
  have hjl : j < t.sys.log.len := Nat.lt_of_lt_of_le hlt hle
  rw [ha.tagAt hjl]
  exact h.tag j hj

/-- The core drives rename and commit as the event says. -/
theorem sys_step (h : Latched t) (ha : Acct t.sys) (imem : Word → Word) (d : Word) :
    (t.step imem d).sys = t.sys.step t.event := by
  have haddr : (t.event.wires t.log).finishAddr = t.core.hx.ex.alu.rrfTag := by
    cases hj : t.exIdx with
    | none => simp [Event.wires, Traced.event, hj]
    | some j => exact (ha.finishAddr h.legal hj).trans (h.tag j hj).symm
  have hrob : (t.step imem d).core.hx.rob = (t.sys.step t.event).hw.rob := by
    change t.core.hx.rob.next false (HeliosX.robIn t.core.hx.dp t.core.hx.ex.alu.robWe
        t.core.hx.ex.alu.rrfTag) =
      t.core.hx.rob.next false (HeliosX.robIn t.core.hx.dp t.exIdx.isSome
        (t.event.wires t.log).finishAddr)
    rw [haddr, h.robWe]
  change (⟨⟨_, (t.step imem d).core.hx.rob⟩, _⟩ : Sys) = _
  rw [hrob]
  rfl

end Latched

end HeliosXCore
