import HeliosXCore.Core.Sequential
import HeliosXCore.Core.Exact

/-! The core refines the sequential machine. Whatever has a result behind which nothing is lost has
    the right one, and only such instructions commit. -/

namespace HeliosXCore
open Rtl

/-- `S j` is the state of a sequential machine in front of the `j`-th accepted instruction. -/
structure Mirrors (imem : Word → Word) (init : RegSel → Word) (S : ℕ → SeqState) (t : Traced) :
    Prop where
  id : ∀ j a, t.log.accepted[j]? = some a → a.id = IDUnit.ofInst (imem (S j).pc) (S j).pc
  wrReg : ∀ j, j < t.log.len → ((S j).dec imem).wrReg = true
  regs : ∀ j r, j < t.log.len → (S j).regs r =
    match t.log.writerBefore r j with
    | none => init r
    | some p => (S p).result imem

/-- Results, and the value in the latch, are those of the machine. -/
structure Computes (imem : Word → Word) (S : ℕ → SeqState) (t : Traced) : Prop where
  result : ∀ j v, t.Sound j → t.log.result j = some v → v = (S j).result imem
  latch : ∀ j, t.exIdx = some j → t.Sound j → t.core.hx.ex.alu.result = (S j).result imem

namespace Computes
variable {imem : Word → Word} {init : RegSel → Word} {S : ℕ → SeqState} {t : Traced} {d : Word}

theorem start (s : HeliosX) : Computes imem S (Traced.start s) :=
  ⟨fun _ _ _ hres => (by cases hres), fun _ hex => (by cases hex)⟩

/-- An operand that is a value is the value the machine reads. -/
theorem operandAt_op (h : Computes imem S t) (hmi : Mirrors imem init S t) {r : RegSel} {i : ℕ}
    (hi : i < t.log.len) (hsnd : t.Sound i) (hv : (t.log.operandAt init r i).valid = true) :
    (t.log.operandAt init r i).op = (S i).read r := by
  unfold Log.operandAt at hv ⊢
  rw [SeqState.read, hmi.regs i r hi]
  split_ifs at hv ⊢ with h0
  · rfl
  · cases hp : t.log.writerBefore r i with
    | none => rfl
    | some p =>
      rw [hp] at hv
      simp only at hv ⊢
      cases hres : t.log.result p with
      | none => rw [hres] at hv; cases hv
      | some v => exact h.result p v (hsnd.mono (Nat.le_of_lt (lastBefore_lt hp).1)) hres

/-- The value of the entry that is issued. -/
theorem result_of_ready (h : Computes imem S t) (hmi : Mirrors imem init S t)
    (hop : Operands init t) (hk : Kept init t) {e : BitVec 3} (hr : t.Ready e)
    (hsnd : t.Sound (t.idx e)) (x : ExeResults) :
    AluUnit.result (t.entry e).exeAluOp (t.entry e).exeSrcA (t.entry e).exeSrcB (t.entry e).exePc
      (t.entry e).exeImm ((t.entry e).exeOp1 x) ((t.entry e).exeOp2 x) =
      (S (t.idx e)).result imem := by
  obtain ⟨hb, hv⟩ := (Traced.ready_iff e).mp hr
  obtain ⟨a, hacc, hm⟩ := hk.station.data e hb
  have hlen : t.idx e < t.log.len :=
    Nat.lt_of_lt_of_le (hk.station.live e hb).1 (Traced.written_le hk.acct)
  have hs : ∀ k, ((t.entry e).slot k).op = (S (t.idx e)).read (a.id.dec.src k) := by
    intro k
    have hs := hop.slot e a k hb hsnd hacc
    have hvk := hv k
    rw [hs] at hvk ⊢
    exact h.operandAt_op hmi hlen hsnd hvk
  have hexe : ∀ o : Operand, o.valid = true → RSOperand.exeOp x o = o.op := by
    intro o ho
    simp [RSOperand.exeOp, ho]
  have h1 : (t.entry e).exeOp1 x = _ := (hexe _ (hv .one)).trans (hs .one)
  have h2 : (t.entry e).exeOp2 x = _ := (hexe _ (hv .two)).trans (hs .two)
  rw [SeqState.result, h1, h2, hm.aluOp, hm.srcA, hm.srcB, hm.pc, hm.imm, hmi.id _ a hacc]
  rfl

/-- One cycle keeps the values right. -/
theorem step (h : Computes imem S t) (hmi : Mirrors imem init S t) (hop : Operands init t)
    (hk : Kept init t) (hf : t.core.OneAtMost) : Computes imem S (t.step imem d) where
  result := by
    intro j v hsnd hres
    have hsnd' := hsnd.of_step hf hk.acct
    rw [Traced.result_step] at hres
    split at hres
    · rename_i hex
      rw [← Option.some.inj hres]
      exact h.latch j hex hsnd'
    · exact h.result j v hsnd' hres
  latch := by
    intro j hex hsnd
    obtain ⟨e, hi, rfl⟩ := Traced.exIdx_step_eq_some.mp hex
    have hr : t.Ready e := SwUnit.ready_of_issuesEntry hi
    obtain ⟨-, rfl⟩ := hi
    exact h.result_of_ready hmi hop hk hr (hsnd.of_step hf hk.acct) _

end Computes

namespace HeliosX

/-- The debug ports, in a cycle in which they show a commit. -/
def debug (hx : HeliosX) : Option Retired :=
  if hx.dp.debugCommitEn then
    some ⟨hx.dp.completedPc, hx.dp.debugRegId, hx.dp.debugRegWdata, hx.dp.debugRegWen⟩
  else none

/-- What the commit port shows, with the value that goes to the register file. -/
def committed (hx : HeliosX) : Retired :=
  ⟨hx.rob.pcCom, hx.rob.dstArf1, hx.dp.rrf.rrfData hx.rob.commitPtr1, hx.rob.arfwe1⟩

theorem debug_next (idata d : Word) (reset : Bool) (hx : HeliosX) :
    (hx.next reset idata d).debug = if hx.rob.comnum then some hx.committed else none := by
  have hbit : ∀ b : Bool, (0#1 ++ BitVec.ofBool b : BitVec 2).getLsbD 0 = b := by decide
  have hen : (hx.next reset idata d).dp.debugCommitEn = hx.rob.comnum := hbit _
  rw [debug, hen]
  rfl

end HeliosX

/-- What the debug ports show in the first `N` cycles. -/
def Core.retired (imem : Word → Word) (dmem : ℕ → Word) (s : HeliosX) (N : ℕ) : List Retired :=
  (List.range N).filterMap fun n => (Core.cycle imem dmem s n).hx.debug

/-- A commit does what the machine does. -/
theorem Computes.committed_eq {imem : Word → Word} {init : RegSel → Word} {S : ℕ → SeqState}
    {t : Traced} (h : Computes imem S t) (hmi : Mirrors imem init S t) (hk : Kept init t)
    (hc : t.core.hx.rob.comnum = true) :
    t.core.hx.committed = (S t.log.com).retire imem := by
  have hnd := Traced.not_dropped_of_comnum hk.acct hc
  obtain ⟨hst, hren⟩ := hk.phase.resolve_left fun hf => hnd hf.2
  obtain ⟨a, ha⟩ := hk.acct.head_accepted hc
  have hport := hst.commit_port hk.acct hc ha
  simp only [Prod.mk.injEq] at hport
  have hval := h.result _ _ (Traced.sound_com hk.acct hnd) (hren.committed_data hk.acct hc)
  have hptr : t.core.hx.rob.commitPtr1 = tagOf t.log.com := hk.acct.commitPtr
  have hid := hmi.id _ _ ha
  have hlt : t.log.com < t.log.len :=
    Nat.lt_of_lt_of_le (hk.acct.comnum_imp hc).1 (Traced.written_le hk.acct)
  rw [HeliosX.committed, SeqState.retire, hmi.wrReg _ hlt, ← hval, hptr, Retired.mk.injEq]
  refine ⟨?_, ?_, rfl, hport.2.2⟩
  · exact hport.1.trans (by rw [hid]; rfl)
  · exact hport.2.1.trans (by rw [hid]; rfl)

namespace AnyTrace
variable {imem : Word → Word} {init : RegSel → Word} {S : ℕ → SeqState} {T : ℕ → Traced}
  (h : AnyTrace imem init T)
include h

/-- The debug ports show a commit one cycle later. -/
theorem debug_succ (n : ℕ) : (T (n + 1)).core.hx.debug =
    if (T n).core.hx.rob.comnum then some (T n).core.hx.committed else none := by
  obtain ⟨d, hd⟩ := h.next n
  rw [hd]
  exact HeliosX.debug_next _ _ _ _

theorem com_succ (n : ℕ) :
    (T (n + 1)).log.com = (T n).log.com + (T n).core.hx.rob.comnum.toNat := by
  obtain ⟨d, hd⟩ := h.next n
  rw [hd, Traced.com_step]

/-- The commits shown so far are the first instructions of the machine. -/
theorem retired_eq {n : ℕ} (hmi : ∀ m, m < n → Mirrors imem init S (T m))
    (hv : ∀ m, m < n → Computes imem S (T m)) (h0 : (T 0).core.hx.debug = none) :
    (List.range (n + 1)).filterMap (fun m => (T m).core.hx.debug) =
      (List.range (T n).log.com).map fun j => (S j).retire imem := by
  induction n with
  | zero =>
    rw [h.start]
    simp [h0, Log.empty, Log.com]
  | succ n ih =>
    rw [List.range_succ, List.filterMap_append,
      ih (fun m hm => hmi m (by omega)) fun m hm => hv m (by omega), h.com_succ,
      List.filterMap_cons, h.debug_succ n]
    cases hc : (T n).core.hx.rob.comnum with
    | false => simp
    | true =>
      have hn := Nat.lt_succ_self n
      simp [(hv n hn).committed_eq (hmi n hn) (h.kept n) hc, List.range_succ]

end AnyTrace

namespace AluTrace
variable {imem : Word → Word} {init : RegSel → Word} {T : ℕ → Traced} (h : AluTrace imem init T)
include h

/-- The accepted instructions are those of the program. -/
theorem mirrors (n : ℕ) : Mirrors imem init (SeqState.after imem init) (T n) where
  id := by
    intro j a ha
    rw [h.accepted_eq n ha, SeqState.pc_after]
    rfl
  wrReg := fun j _ => by rw [SeqState.dec_after, h.alu.wrReg]
  regs := by
    intro j r hj
    have hregs := SeqState.regs_after imem init h.alu r j
    rw [← h.writerBefore_eq n r j hj.le] at hregs
    exact hregs

theorem computes (h0 : Exact init (T 0)) (hv : Computes imem (SeqState.after imem init) (T 0))
    (n : ℕ) : Computes imem (SeqState.after imem init) (T n) := by
  induction n with
  | zero => exact hv
  | succ n ih =>
    obtain ⟨d, hd⟩ := h.next n
    rw [hd]
    exact ih.step (h.mirrors n) (h.exact h0 n).operands (h.inv n).kept (h.inv n).front

theorem com_succ (n : ℕ) :
    (T (n + 1)).log.com = (T n).log.com + (T n).core.hx.rob.comnum.toNat := h.any.com_succ n

/-- The commits shown so far are the first instructions of the sequential machine. -/
theorem retired_eq (hv : ∀ n, Computes imem (SeqState.after imem init) (T n))
    (h0 : (T 0).core.hx.debug = none) (n : ℕ) :
    (List.range (n + 1)).filterMap (fun m => (T m).core.hx.debug) =
      SeqState.trace imem init (T n).log.com :=
  h.any.retired_eq (fun m _ => h.mirrors m) (fun m _ => hv m) h0

theorem com_le (n : ℕ) : (T n).log.com ≤ n := by
  induction n with
  | zero => rw [h.start]; exact Nat.le_refl 0
  | succ n ih =>
    have := Bool.toNat_le (T n).core.hx.rob.comnum
    rw [h.com_succ]
    omega

end AluTrace

/-- Nothing commits in the edge that ends the reset. -/
theorem debug_start {s : HeliosX} (hs : s.AfterReset) : s.debug = none := by
  obtain ⟨s0, i1, d1, i2, d2, rfl⟩ := hs
  have hrob : (HeliosX.next true i1 d1 s0).rob.comnum = false := by
    have hf : ∀ t, bit (HeliosX.next true i1 d1 s0).rob.finish t = false :=
      fun t => SingleInstROB.bit_finish_reset _ _ t
    rw [SingleInstROB.comnum, SingleInstROB.commit1, hf, Bool.and_false]
  rw [HeliosX.debug_next, hrob]
  rfl

/-- For every program of ALU instructions, any contents of the register file and any number of
    cycles, what the debug ports show is a prefix of what the sequential machine does. -/
theorem refines_sequential {imem : Word → Word} (himem : AluProgram imem) {s : HeliosX}
    (hs : s.AfterReset) (dmem : ℕ → Word) (N : ℕ) :
    Core.retired imem dmem s N <+: SeqState.trace imem s.dp.arf.mem N := by
  cases N with
  | zero => exact List.nil_prefix
  | succ n =>
    have h := AluTrace.cycle himem hs dmem
    have hv := h.computes (Exact.start hs) (Computes.start s)
    have hret := h.retired_eq hv (debug_start hs) n
    have hC : Core.retired imem dmem s (n + 1) =
        (List.range (n + 1)).filterMap fun m => (Traced.cycle imem dmem s m).core.hx.debug := by
      simp only [Core.retired, Traced.core_cycle]
    rw [hC, hret]
    exact SeqState.trace_prefix imem _ (Nat.le_succ_of_le (h.com_le n))

/-- In the chain a commit shows in every second cycle from cycle 8 on. -/
theorem refines_sequential_addiChain :
    (Core.retired addiChain (fun _ => 0) HeliosX.ofReset 13).length = 3 ∧
      Core.retired addiChain (fun _ => 0) HeliosX.ofReset 13 <+:
        SeqState.trace addiChain HeliosX.ofReset.dp.arf.mem 13 :=
  ⟨by decide +kernel,
    refines_sequential aluProgram_addiChain HeliosX.afterReset_ofReset (fun _ => 0) 13⟩

/-- The register file may hold anything after reset. -/
theorem exists_afterReset (m : RegSel → Word) : ∃ s : HeliosX, s.AfterReset ∧ s.dp.arf.mem = m := by
  let s0 := { HeliosX.zero with
    dp := { HeliosX.zero.dp with arf := { HeliosX.zero.dp.arf with mem := m } } }
  have hkeep : ∀ s : HeliosX, (∀ t, bit s.rob.finish t = false) →
      (HeliosX.next true 0 0 s).dp.arf.mem = s.dp.arf.mem := by
    intro s hfin
    have hwe : s.rob.arfwe1 = false := by
      rw [SingleInstROB.arfwe1, SingleInstROB.commit1, hfin, Bool.and_false, Bool.and_false]
    simp [HeliosX.next, ReNameUnit.next, Arf.next, syncRAM2r2w, ReNameUnit.completed,
      HeliosX.dpIn, HeliosX.dpPorts, hwe]
  refine ⟨HeliosX.next true 0 0 (HeliosX.next true 0 0 s0), ⟨_, _, _, _, _, rfl⟩, ?_⟩
  rw [hkeep _ fun t => SingleInstROB.bit_finish_reset _ _ t, hkeep s0 fun t => bit_zero t]

end HeliosXCore
