import HeliosXCore.Rtl.RSAlu
import HeliosXCore.Rtl.InorderAllocIssueUnit

/-! `SW/SwUnit.v`: select and wakeup. Dispatch writes free entries, the comparator tree picks the
    entry to issue, and issued entries are freed in the same edge. -/

namespace HeliosXCore
open Rtl

/-- The input ports of `SwUnit`; the two dispatch slots are bundles. -/
structure SwIn where
  nextRrfCycle : Bool
  reqAluNum : BitVec 2
  reqMemNum : BitVec 2
  dp1 : AluWrite
  dp2 : AluWrite
  stallDp : Bool
  killDp : Bool
  exeResults : ExeResults

/-- The registers of `SwUnit` and of the modules inside it. -/
structure SwUnit where
  rsAlu : RSAlu
  rsMem : RSAccessMem
  memAllocPtr : BitVec 2

namespace SwUnit

/-- All registers 0. -/
def zero : SwUnit := ⟨⟨fun _ => .zero, 0, 0⟩, ⟨fun _ => .zero, 0⟩, 0⟩

/-- The part of a dispatch slot that `RSAccessMem` stores. -/
def memWrite (d : AluWrite) : MemWrite := ⟨d.pc, d.op1, d.op2, d.imm, d.rrfTag, d.dstVal⟩

/-- `alu_allocate_en_1`: an entry of the ALU station is free. -/
def aluAllocateEn1 (s : SwUnit) : Bool := AllocateUnit.en1 3 s.rsAlu.busyVector

/-- `alu_allocate_en_2`: so is a second one. -/
def aluAllocateEn2 (s : SwUnit) : Bool := AllocateUnit.en2 3 s.rsAlu.busyVector

/-- `alu_allocatable`: enough entries are free for the request. -/
def aluAllocatable (s : SwUnit) (i : SwIn) : Bool :=
  AllocateUnit.allocatable 3 s.rsAlu.busyVector i.reqAluNum

/-- `alu_rs_allocate_entry_1`: the entry for the first slot. -/
def aluRsAllocateEntry1 (s : SwUnit) : BitVec 3 :=
  if s.aluAllocateEn1 then AllocateUnit.freeEntry1 3 s.rsAlu.busyVector else 0

/-- `alu_rs_allocate_entry_2`: the entry for the second slot. -/
def aluRsAllocateEntry2 (s : SwUnit) : BitVec 3 :=
  if s.aluAllocateEn2 then AllocateUnit.freeEntry2 3 s.rsAlu.busyVector else 0

/-- `alu_we_1`: the first slot is written. Without a free entry it is not, and nobody is told. -/
def aluWe1 (s : SwUnit) (i : SwIn) : Bool :=
  !i.stallDp && !i.killDp && s.aluAllocateEn1 && decide (i.reqAluNum ≥ 1) && s.aluAllocatable i

/-- `alu_we_2`: the second slot is written. -/
def aluWe2 (s : SwUnit) (i : SwIn) : Bool :=
  !i.stallDp && !i.killDp && s.aluAllocateEn2 && i.reqAluNum == 2 && s.aluAllocatable i

/-- The first write port of `RSAlu`. -/
def aluPort1 (s : SwUnit) (i : SwIn) : RSPort 3 AluWrite :=
  ⟨s.aluWe1 i, s.aluRsAllocateEntry1, i.dp1⟩

/-- The second write port of `RSAlu`. -/
def aluPort2 (s : SwUnit) (i : SwIn) : RSPort 3 AluWrite :=
  ⟨s.aluWe2 i, s.aluRsAllocateEntry2, i.dp2⟩

/-- `(alu_issue_entry, alu_entry_value)`. -/
def aluIssuer (s : SwUnit) : BitVec 3 × BitVec 8 :=
  oldestFinder (concat8 7 6 5 4 3 2 1 0) s.rsAlu.historyVector

/-- `alu_issue_addr`: the entry that is issued if any is. -/
def aluIssueAddr (s : SwUnit) : BitVec 3 := s.aluIssuer.1

/-- `alu_clear_busy` and `exe_alu_issue_o`. -/
def exeAluIssue (s : SwUnit) : Bool := !s.aluIssuer.2.getLsbD 7

/-- The entry the issue address selects, issued or not. -/
def issueEntry (s : SwUnit) : RSAluEntry := s.rsAlu.entry s.aluIssueAddr

/-- `exe_alu_rrf_tag_o`: its tag. -/
def exeAluRrfTag (s : SwUnit) : RrfTag := s.issueEntry.exeRrfTag

/-- `free_mem_entry_1`: the tail of the queue. -/
def freeMemEntry1 (s : SwUnit) : BitVec 2 := s.memAllocPtr

/-- `free_mem_entry_2`: the entry behind it. -/
def freeMemEntry2 (s : SwUnit) : BitVec 2 := s.freeMemEntry1 + 1

/-- `mem_allocatable`: the memory station has room for the request. -/
def memAllocatable (reset : Bool) (s : SwUnit) (i : SwIn) : Bool :=
  InorderAllocIssueUnit.allocatable reset i.reqMemNum s.rsMem.busyVector s.memAllocPtr

/-- `mem_we_1`: the first slot is written. -/
def memWe1 (reset : Bool) (s : SwUnit) (i : SwIn) : Bool :=
  !i.stallDp && !i.killDp && s.memAllocatable reset i && decide (i.reqMemNum ≥ 1)

/-- `mem_we_2`: the second slot is written. -/
def memWe2 (reset : Bool) (s : SwUnit) (i : SwIn) : Bool :=
  !i.stallDp && !i.killDp && s.memAllocatable reset i && i.reqMemNum == 2

/-- The first write port of `RSAccessMem`. -/
def memPort1 (reset : Bool) (s : SwUnit) (i : SwIn) : RSPort 2 MemWrite :=
  ⟨s.memWe1 reset i, s.freeMemEntry1, memWrite i.dp1⟩

/-- The second write port of `RSAccessMem`. -/
def memPort2 (reset : Bool) (s : SwUnit) (i : SwIn) : RSPort 2 MemWrite :=
  ⟨s.memWe2 reset i, s.freeMemEntry2, memWrite i.dp2⟩

/-- `mem_issue_addr`: the head of the queue. -/
def memIssueAddr (s : SwUnit) : BitVec 2 :=
  InorderAllocIssueUnit.issuePtr s.rsMem.busyVector s.memAllocPtr

/-- `mem_issue_valid`, `mem_clear_busy` and `exe_mem_issue_o`. -/
def exeMemIssue (s : SwUnit) : Bool :=
  InorderAllocIssueUnit.issueValid s.rsMem.busyVector s.rsMem.readyVector s.memAllocPtr

/-- The entry it selects, issued or not. -/
def memIssueEntry (s : SwUnit) : RSAccessMemEntry := s.rsMem.entry s.memIssueAddr

/-- One edge of both stations and of the tail of the memory queue. -/
def next (reset : Bool) (i : SwIn) (s : SwUnit) : SwUnit where
  rsAlu := s.rsAlu.next reset i.nextRrfCycle s.exeAluIssue s.aluIssueAddr (s.aluPort1 i)
    (s.aluPort2 i) i.exeResults
  rsMem := s.rsMem.next reset s.exeMemIssue s.memIssueAddr (s.memPort1 reset i)
    (s.memPort2 reset i) i.exeResults
  memAllocPtr := InorderAllocIssueUnit.next reset i.stallDp i.killDp i.reqMemNum s.rsMem.busyVector
    s.memAllocPtr

end SwUnit

end HeliosXCore
