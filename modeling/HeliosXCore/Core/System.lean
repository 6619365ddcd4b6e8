import HeliosXCore.DpCom.Rename
import HeliosXCore.Sw.Station
import HeliosXCore.Fetch.System

/-! The whole core on a program. The instruction memory answers in the next cycle, data memory reads
    return anything. A trace of the core keeps, beside the log of rename and commit, which accepted
    instruction each entry of the reservation station and the ALU latch hold. -/

namespace HeliosXCore
open Rtl

/-! ### Programs -/

/-- An instruction for the ALU: `OP`, `OP_IMM`, `LUI` or `AUIPC`. -/
def Decoded.IsAlu (d : Decoded) : Prop := d.wrReg = true ∧ d.rsEnt = RsEnt.alu

/-- A word that the decoder turns into nothing. -/
def Decoded.IsNop (d : Decoded) : Prop := d.wrReg = false ∧ d.rsEnt = 0

instance : DecidablePred Decoded.IsAlu := fun _ => inferInstanceAs (Decidable (_ ∧ _))

instance : DecidablePred Decoded.IsNop := fun _ => inferInstanceAs (Decidable (_ ∧ _))

def Decoded.AluOrNop (d : Decoded) : Prop := d.IsAlu ∨ d.IsNop

/-- Every word is an ALU instruction. -/
def AluProgram (imem : Word → Word) : Prop := ∀ a, (Decoder.decode (imem a)).IsAlu

/-- Every word is an ALU instruction or decodes to nothing. -/
def AluNopProgram (imem : Word → Word) : Prop := ∀ a, (Decoder.decode (imem a)).AluOrNop

theorem AluProgram.aluNop {imem : Word → Word} (h : AluProgram imem) : AluNopProgram imem :=
  fun a => Or.inl (h a)

/-- The ALU instructions are those with the four opcodes, whatever the other bits are. -/
theorem isAlu_iff_opcode (w : Word) :
    (Decoder.decode w).IsAlu ↔ Decoder.opcode w = Opcode.op ∨ Decoder.opcode w = Opcode.opImm ∨
      Decoder.opcode w = Opcode.lui ∨ Decoder.opcode w = Opcode.auipc := by
  constructor
  · intro h
    by_contra hno
    push Not at hno
    obtain ⟨h1, h2, h3, h4⟩ := hno
    have he := h.2
    simp only [Decoder.decode, Decoder.byOpcode, h1, h2, h3, h4, if_false] at he
    split_ifs at he <;> exact absurd he (by decide)
  · intro h
    rcases h with h | h | h | h <;>
      simp [Decoded.IsAlu, Decoder.decode, Decoder.byOpcode, h, Opcode.op, Opcode.opImm,
        Opcode.lui, Opcode.auipc, Opcode.load, Opcode.store, Opcode.jal, Opcode.jalr]

/-- `addi x1, x1, 1` everywhere: each instruction needs the result of the one before. -/
def addiChain : Word → Word := fun _ => 0x00108093

theorem aluProgram_addiChain : AluProgram addiChain := by
  intro _
  change (Decoder.decode 0x00108093).IsAlu
  decide

/-! ### The two operands -/

/-- The first or the second source operand. -/
inductive Src
  | one
  | two
  deriving DecidableEq

/-- The number of source register `k`. -/
def Decoded.src (k : Src) (d : Decoded) : RegSel :=
  match k with
  | .one => d.rs1
  | .two => d.rs2

/-- Operand `k` of an entry. -/
def RSAluEntry.slot (k : Src) (s : RSAluEntry) : Operand :=
  match k with
  | .one => s.operand1
  | .two => s.operand2

/-- Operand `k` of a dispatch. -/
def AluWrite.slot (k : Src) (w : AluWrite) : Operand :=
  match k with
  | .one => w.op1
  | .two => w.op2

@[simp] theorem slot_stored (x : ExeResults) (w : AluWrite) (k : Src) :
    (SwUnit.stored x w).slot k = sourceManager x (w.slot k) := by cases k <;> rfl

@[simp] theorem slot_held (x : ExeResults) (s : RSAluEntry) (k : Src) :
    (SwUnit.held x s).slot k = sourceManager x (s.slot k) := by cases k <;> rfl

/-! ### The core and its memories -/

/-- Reset was held for two or more edges, from any power-on state. -/
def HeliosX.AfterReset (s : HeliosX) : Prop :=
  ∃ s0 i1 d1 i2 d2, s = HeliosX.next true i2 d2 (HeliosX.next true i1 d1 s0)

/-- A state that reset leaves, all registers 0 before it. -/
def HeliosX.ofReset : HeliosX := HeliosX.next true 0 0 (HeliosX.next true 0 0 HeliosX.zero)

theorem HeliosX.afterReset_ofReset : HeliosX.ofReset.AfterReset := ⟨_, _, _, _, _, rfl⟩

/-- The core and the word on `idata_i`. -/
structure Core where
  hx : HeliosX
  idata : Word

namespace Core

/-- The core after reset, with no word fetched yet. -/
def start (s : HeliosX) : Core := ⟨s, 0⟩

/-- One cycle: the word at the fetch address comes with the next one. -/
def step (imem : Word → Word) (dmemRdata : Word) (c : Core) : Core :=
  ⟨c.hx.next false c.idata dmemRdata, imem c.hx.iaddr⟩

/-- The core on the program `imem`; its only input is what data memory returns. -/
def machine (imem : Word → Word) : Clocked Core Word := ⟨step imem, fun _ _ => True⟩

/-- The core in cycle `n` after reset. -/
def cycle (imem : Word → Word) (dmem : ℕ → Word) (s : HeliosX) (n : ℕ) : Core :=
  (machine imem).run (start s) dmem n

end Core

namespace HeliosX
variable (hx : HeliosX)

/-- The connections of `u_SwUint` in this cycle. -/
def swPorts : SwIn := swIn hx.dp (exeResults hx.ex) hx.stall

/-- Entry `e` of the reservation station is written in this cycle. -/
def WritesEntry (e : BitVec 3) : Prop := hx.sw.WritesEntry hx.swPorts e

instance (e : BitVec 3) : Decidable (hx.WritesEntry e) :=
  inferInstanceAs (Decidable (hx.sw.WritesEntry hx.swPorts e))

/-- Entry `e` holds an instruction that has not been issued. -/
def Busy (e : BitVec 3) : Prop := bit hx.sw.rsAlu.busyVector e = true

instance (e : BitVec 3) : Decidable (hx.Busy e) := inferInstanceAs (Decidable (_ = _))

end HeliosX

/-! ### The traced core -/

/-- The core with a record of what its registers hold: the log, the index of the instruction in each
    entry and in the ALU latch, and how often the tags have started over in the sort bits. -/
structure Traced where
  core : Core
  log : Log
  idx : BitVec 3 → ℕ
  exIdx : Option ℕ
  lap : ℕ

namespace Traced

/-- Nothing has been recorded after reset. -/
def start (s : HeliosX) : Traced := ⟨Core.start s, Log.empty, fun _ => 0, none, 0⟩

/-- Rename and commit, as a part of the core. -/
def sys (t : Traced) : Sys := ⟨⟨t.core.hx.dp, t.core.hx.rob⟩, t.log⟩

/-- What the rest of the core does to them in this cycle. -/
def event (t : Traced) : Event :=
  ⟨t.core.hx.idUnit, HeliosX.forwards t.core.hx.ex, t.exIdx, t.core.hx.ex.alu.rrfTag⟩

/-- One cycle of the core and of the record. -/
def step (imem : Word → Word) (dmemRdata : Word) (t : Traced) : Traced where
  core := t.core.step imem dmemRdata
  log := (t.sys.step t.event).log
  idx e := if t.core.hx.WritesEntry e then t.log.written else t.idx e
  exIdx := if t.core.hx.sw.exeAluIssue then some (t.idx t.core.hx.sw.aluIssueAddr) else none
  lap := t.lap + t.core.hx.dp.nextrrfcycReg.toNat

def machine (imem : Word → Word) : Clocked Traced Word := ⟨step imem, fun _ _ => True⟩

/-- The traced core in cycle `n` after reset. -/
def cycle (imem : Word → Word) (dmem : ℕ → Word) (s : HeliosX) (n : ℕ) : Traced :=
  (machine imem).run (start s) dmem n

theorem cycle_succ (imem : Word → Word) (dmem : ℕ → Word) (s : HeliosX) (n : ℕ) :
    cycle imem dmem s (n + 1) = (cycle imem dmem s n).step imem (dmem n) := rfl

/-- The trace does not disturb the core. -/
theorem core_cycle (imem : Word → Word) (dmem : ℕ → Word) (s : HeliosX) (n : ℕ) :
    (cycle imem dmem s n).core = Core.cycle imem dmem s n := by
  induction n with
  | zero => rfl
  | succ n ih =>
    rw [cycle_succ]
    change ((cycle imem dmem s n).core).step imem (dmem n) = _
    rw [ih]
    rfl

end Traced

end HeliosXCore
