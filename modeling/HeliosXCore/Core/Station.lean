import HeliosXCore.Core.Links

/-! The reservation station on a program. Each busy entry holds one accepted instruction that has
    not been issued, and an operand that is not valid waits on a writer that has no result yet. -/

namespace HeliosXCore
open Rtl

/-- The operand `o`, for register `r` of the instruction with index `i`, waits on the youngest older
    writer of `r`, which has no result yet. -/
def Log.Waits (l : Log) (r : RegSel) (i : ℕ) (o : Operand) : Prop :=
  ∃ p, l.writerBefore r i = some p ∧ l.result p = none ∧ o.tag = tagOf p

/-- The operand of register `r` for the instruction with index `i`: the register file before any
    writer, else the result of the youngest older writer, else its tag. -/
def Log.operandAt (init : RegSel → Word) (l : Log) (r : RegSel) (i : ℕ) : Operand :=
  if r = 0 then ⟨0, true⟩
  else match l.writerBefore r i with
    | none => ⟨init r, true⟩
    | some p => match l.result p with
      | some v => ⟨v, true⟩
      | none => ⟨0#26 ++ tagOf p, false⟩

/-- The fields of an entry are those of the accepted instruction `a`. -/
structure RSAluEntry.Matches (s : RSAluEntry) (a : Accepted) : Prop where
  pc : s.exePc = a.id.pc
  imm : s.exeImm = a.id.imm
  tag : s.exeRrfTag = a.tag
  dstVal : s.exeDstVal = true
  aluOp : s.exeAluOp = a.id.dec.aluOp
  srcA : s.exeSrcA = a.id.dec.srcASel
  srcB : s.exeSrcB = a.id.dec.srcBSel

namespace Traced
variable (t : Traced)

/-- The DP/SW registers hold an accepted instruction with a destination. -/
def Pending : Prop := t.core.hx.dp.rrfAllocatableReg = true ∧ t.core.hx.dp.dstEnReg = true

/-- The entry `e` of the reservation station. -/
def entry (e : BitVec 3) : RSAluEntry := t.core.hx.sw.rsAlu.entry e

/-- The operand in the DP/SW registers. -/
def regSlot (k : Src) : Operand := (HeliosX.dispatch t.core.hx.dp).slot k

end Traced

/-- What the entries and the DP/SW registers hold. -/
structure Station (t : Traced) : Prop where
  live : ∀ e, t.core.hx.Busy e →
    t.idx e < t.log.written ∧ t.log.result (t.idx e) = none ∧ t.exIdx ≠ some (t.idx e)
  inj : ∀ e e', t.core.hx.Busy e → t.core.hx.Busy e' → t.idx e = t.idx e' → e = e'
  data : ∀ e, t.core.hx.Busy e →
    ∃ a, t.log.accepted[t.idx e]? = some a ∧ (t.entry e).Matches a
  waits : ∀ e a k, t.core.hx.Busy e → t.log.accepted[t.idx e]? = some a →
    ((t.entry e).slot k).valid = false →
      t.log.Waits (a.id.dec.src k) (t.idx e) ((t.entry e).slot k)
  regWaits : ∀ k, t.Pending → (t.regSlot k).valid = false →
    t.log.Waits (t.core.hx.dp.idReg.dec.src k) t.log.written (t.regSlot k)

namespace Traced
variable {t : Traced} {imem : Word → Word} {d : Word}

/-! ### One edge of the station -/

theorem entry_step (hf : t.core.OneAtMost) (e : BitVec 3) :
    (t.step imem d).entry e =
      if t.core.hx.WritesEntry e then
        SwUnit.stored (HeliosX.exeResults t.core.hx.ex) (HeliosX.dispatch t.core.hx.dp)
      else SwUnit.held (HeliosX.exeResults t.core.hx.ex) (t.entry e) :=
  SwUnit.entry_next hf e

theorem busy_step (hf : t.core.OneAtMost) (e : BitVec 3) :
    (t.step imem d).core.hx.Busy e ↔
      ¬ t.core.hx.sw.IssuesEntry e ∧ (t.core.hx.WritesEntry e ∨ t.core.hx.Busy e) :=
  SwUnit.busy_next_of_one hf e

theorem idx_step (e : BitVec 3) :
    (t.step imem d).idx e = if t.core.hx.WritesEntry e then t.log.written else t.idx e := rfl

/-- What a busy entry holds after a cycle: what has just been written, or what it held before. -/
theorem busy_step_cases (hf : t.core.OneAtMost) {e : BitVec 3}
    (hb : (t.step imem d).core.hx.Busy e) :
    (t.core.hx.WritesEntry e ∧ (t.step imem d).idx e = t.log.written ∧
      (t.step imem d).entry e =
        SwUnit.stored (HeliosX.exeResults t.core.hx.ex) (HeliosX.dispatch t.core.hx.dp)) ∨
    (t.core.hx.Busy e ∧ ¬ t.core.hx.sw.IssuesEntry e ∧ (t.step imem d).idx e = t.idx e ∧
      (t.step imem d).entry e =
        SwUnit.held (HeliosX.exeResults t.core.hx.ex) (t.entry e)) := by
  obtain ⟨hni, hwb⟩ := (busy_step hf e).mp hb
  rw [idx_step, entry_step hf]
  by_cases hw : t.core.hx.WritesEntry e
  · exact Or.inl ⟨hw, if_pos hw, if_pos hw⟩
  · exact Or.inr ⟨hwb.resolve_left hw, hni, if_neg hw, if_neg hw⟩

/-- The entry that is written was free. -/
theorem not_busy_of_writes {e : BitVec 3} (h : t.core.hx.WritesEntry e) : ¬ t.core.hx.Busy e := by
  have := SwUnit.free_of_writesEntry h
  simp [HeliosX.Busy, this]

theorem busy_of_issues {e : BitVec 3} (h : t.core.hx.sw.IssuesEntry e) : t.core.hx.Busy e :=
  (SwUnit.ready_of_issuesEntry h).1

/-- The instruction that is issued next is the one whose entry is pointed at. -/
theorem exIdx_step_eq_some {j : ℕ} :
    (t.step imem d).exIdx = some j ↔ ∃ e, t.core.hx.sw.IssuesEntry e ∧ t.idx e = j := by
  change (if t.core.hx.sw.exeAluIssue then some (t.idx t.core.hx.sw.aluIssueAddr) else none) =
    some j ↔ _
  cases hi : t.core.hx.sw.exeAluIssue with
  | false => simp [SwUnit.IssuesEntry, hi]
  | true => simp [SwUnit.IssuesEntry, hi]

theorem exIdx_isSome_step : (t.step imem d).exIdx.isSome = t.core.hx.sw.exeAluIssue := by
  change Option.isSome (if t.core.hx.sw.exeAluIssue then some _ else none) = _
  cases t.core.hx.sw.exeAluIssue <;> rfl

theorem log_step : (t.step imem d).log = (t.sys.step t.event).log := rfl

theorem accepted_step {i : ℕ} (hi : i < t.log.len) :
    (t.step imem d).log.accepted[i]? = t.log.accepted[i]? :=
  Sys.accepted_step_of_lt t.event t.sys hi

theorem com_step : (t.step imem d).log.com = t.log.com + t.core.hx.rob.comnum.toNat :=
  Sys.com_step t.event t.sys

/-- Only the instruction in the ALU latch gets a result. -/
theorem result_step (j : ℕ) :
    (t.step imem d).log.result j =
      if t.exIdx = some j then some t.core.hx.ex.alu.result else t.log.result j :=
  Sys.result_step t.event t.sys j

theorem written_step : (t.step imem d).log.written = t.log.len := rfl

theorem written_le (ha : Acct t.sys) : t.log.written ≤ t.log.len := ha.written_le

theorem window (ha : Acct t.sys) : t.log.len ≤ t.log.com + 63 := ha.window

/-- A pending instruction is the last accepted one. -/
theorem Pending.len_eq (hp : t.Pending) (ha : Acct t.sys) : t.log.len = t.log.written + 1 := by
  refine ha.len_eq.trans ?_
  change _ + (t.core.hx.dp.rrfAllocatableReg && t.core.hx.dp.dstEnReg).toNat = _
  rw [hp.1, hp.2]
  rfl

theorem Pending.id_eq (hp : t.Pending) (ha : Acct t.sys) {a : Accepted}
    (hacc : t.log.accepted[t.log.written]? = some a) : a.id = t.core.hx.dp.idReg :=
  congrArg Accepted.id (Option.some.inj (hacc.symm.trans (ha.regId hp.1 hp.2)))

theorem pending_of_lt (ha : Acct t.sys) (hlt : t.log.written < t.log.len) : t.Pending := by
  have hlen := ha.len_eq
  change t.log.len = t.log.written +
    (t.core.hx.dp.rrfAllocatableReg && t.core.hx.dp.dstEnReg).toNat at hlen
  cases hr : t.core.hx.dp.rrfAllocatableReg && t.core.hx.dp.dstEnReg with
  | false =>
    rw [hr, Bool.toNat_false] at hlen
    omega
  | true => exact Bool.and_eq_true_iff.mp hr

/-- An instruction without a result has not committed. -/
theorem com_le_of_none (ha : Acct t.sys) {p : ℕ} (hp : t.log.result p = none) :
    t.log.com ≤ p := by
  by_contra hlt
  have := ha.done p (Nat.lt_of_not_le hlt)
  rw [show t.sys.log.result p = none from hp] at this
  cases this

/-- Two accepted instructions without results have different tags. -/
theorem tagOf_eq_iff_of_none (ha : Acct t.sys) {p q : ℕ} (hp : p < t.log.len)
    (hpr : t.log.result p = none) (hq : q < t.log.len) (hqr : t.log.result q = none) :
    tagOf p = tagOf q ↔ p = q := by
  have hwin := window ha
  exact tagOf_eq_iff (com_le_of_none ha hpr) (by omega) (com_le_of_none ha hqr) (by omega)

theorem todo (ha : Acct t.sys) {j : ℕ} (hj : t.log.written ≤ j) : t.log.result j = none :=
  ha.todo j hj

/-- An operand that waits takes the result in the latch if the tag there is its own. -/
theorem watch_waiting (hq : Quiet t.core.hx) {o : Operand} (ho : o.valid = false) (hne : o.tag ≠ 0) :
    sourceManager (HeliosX.exeResults t.core.hx.ex) o =
      if t.core.hx.ex.alu.rrfTag = o.tag then ⟨t.core.hx.ex.alu.result, true⟩ else o :=
  sourceManager_waiting hq.onlyAlu ho hne

/-- An operand that still waits after a cycle has not been served in it. -/
theorem waits_step (hl : Latched t) (hq : Quiet t.core.hx) {r : RegSel} {i : ℕ} {o : Operand}
    (hi : i ≤ t.log.len) (hw : o.valid = false → t.log.Waits r i o)
    (hv : (sourceManager (HeliosX.exeResults t.core.hx.ex) o).valid = false) :
    (t.step imem d).log.Waits r i (sourceManager (HeliosX.exeResults t.core.hx.ex) o) := by
  cases ho : o.valid with
  | true =>
    rw [sourceManager_valid ho, ho] at hv
    cases hv
  | false =>
    obtain ⟨p, hp, hres, htag⟩ := hw ho
    have hne : o.tag ≠ 0 := by rw [htag]; exact tagOf_ne_zero p
    rw [watch_waiting hq ho hne] at hv ⊢
    split at hv
    · cases hv
    · rename_i hmiss
      rw [if_neg hmiss]
      refine ⟨p, ?_, ?_, htag⟩
      · rw [log_step]
        exact (Sys.writerBefore_step t.event t.sys r hi).trans hp
      · rw [result_step, if_neg]
        · exact hres
        · intro hex
          exact hmiss ((hl.tag p hex).trans htag.symm)

end Traced

namespace Station
variable {t : Traced} {imem : Word → Word} {d : Word}

theorem start {s : HeliosX} (hs : s.AfterReset) : Station (Traced.start s) := by
  obtain ⟨s0, i1, d1, i2, d2, rfl⟩ := hs
  have hfree : ∀ e, ¬ (Traced.start (HeliosX.next true i2 d2
      (HeliosX.next true i1 d1 s0))).core.hx.Busy e := by
    intro e h
    have h' : bit (0 : Bits 3) e = true := h
    rw [bit_zero] at h'
    cases h'
  exact ⟨fun e h => absurd h (hfree e), fun e _ h => absurd h (hfree e),
    fun e h => absurd h (hfree e), fun e _ _ h => absurd h (hfree e), fun k h => by cases h.2⟩

/-- A held instruction stays without a result while it is not in the ALU latch. -/
theorem live_step (h : Station t) (hf : t.core.OneAtMost) (hl : Latched t) (ha : Acct t.sys)
    (hp : ∀ e, t.core.hx.WritesEntry e → t.Pending) (e : BitVec 3)
    (hb : (t.step imem d).core.hx.Busy e) :
    (t.step imem d).idx e < (t.step imem d).log.written ∧
      (t.step imem d).log.result ((t.step imem d).idx e) = none ∧
      (t.step imem d).exIdx ≠ some ((t.step imem d).idx e) := by
  have hwl := Traced.written_le ha
  rw [Traced.written_step, Traced.result_step]
  rcases Traced.busy_step_cases hf hb with ⟨hw, hidx, -⟩ | ⟨hold, hni, hidx, -⟩
  · have hlen := (hp e hw).len_eq ha
    rw [hidx, if_neg, Traced.todo ha (Nat.le_refl _)]
    · refine ⟨by omega, rfl, ?_⟩
      intro hex
      obtain ⟨e', hi, he'⟩ := Traced.exIdx_step_eq_some.mp hex
      have := (h.live e' (Traced.busy_of_issues hi)).1
      omega
    · intro hex
      have := (hl.live _ hex).1
      omega
  · obtain ⟨hlt, hres, hex⟩ := h.live e hold
    rw [hidx, if_neg hex]
    refine ⟨by omega, hres, ?_⟩
    intro hex'
    obtain ⟨e', hi, he'⟩ := Traced.exIdx_step_eq_some.mp hex'
    have := h.inj e' e (Traced.busy_of_issues hi) hold he'
    exact hni (this ▸ hi)

/-- No two entries hold the same instruction. -/
theorem inj_step (h : Station t) (hf : t.core.OneAtMost) (e e' : BitVec 3)
    (hb : (t.step imem d).core.hx.Busy e) (hb' : (t.step imem d).core.hx.Busy e')
    (he : (t.step imem d).idx e = (t.step imem d).idx e') : e = e' := by
  rcases Traced.busy_step_cases hf hb with ⟨hw, hidx, -⟩ | ⟨hold, -, hidx, -⟩
  · rcases Traced.busy_step_cases hf hb' with ⟨hw', -⟩ | ⟨hold', -, hidx', -⟩
    · exact hw.2.symm.trans hw'.2
    · have := (h.live e' hold').1
      omega
  · rcases Traced.busy_step_cases hf hb' with ⟨-, hidx', -⟩ | ⟨hold', -, hidx', -⟩
    · have := (h.live e hold).1
      omega
    · exact h.inj e e' hold hold' (hidx.symm.trans (he.trans hidx'))

/-- A dispatched instruction is stored with the fields it was renamed with. -/
theorem data_step (h : Station t) (hf : t.core.OneAtMost) (ha : Acct t.sys)
    (hp : ∀ e, t.core.hx.WritesEntry e → t.Pending) (e : BitVec 3)
    (hb : (t.step imem d).core.hx.Busy e) :
    ∃ a, (t.step imem d).log.accepted[(t.step imem d).idx e]? = some a ∧
      ((t.step imem d).entry e).Matches a := by
  have hwl := Traced.written_le ha
  rcases Traced.busy_step_cases hf hb with ⟨hw, hidx, hent⟩ | ⟨hold, -, hidx, hent⟩
  · have hpe := hp e hw
    have hlen := hpe.len_eq ha
    rw [hidx, hent, Traced.accepted_step (by omega)]
    exact ⟨_, ha.regId hpe.1 hpe.2, rfl, rfl, rfl, hpe.2, rfl, rfl, rfl⟩
  · obtain ⟨a, hacc, hm⟩ := h.data e hold
    have hlt := (h.live e hold).1
    rw [hidx, hent, Traced.accepted_step (by omega)]
    exact ⟨a, hacc, hm.pc, hm.imm, hm.tag, hm.dstVal, hm.aluOp, hm.srcA, hm.srcB⟩

/-- An operand of an entry that is not valid still waits after a cycle. -/
theorem entry_waits_step (h : Station t) (hf : t.core.OneAtMost) (hl : Latched t)
    (hq : Quiet t.core.hx) (ha : Acct t.sys)
    (hp : ∀ e, t.core.hx.WritesEntry e → t.Pending) (e : BitVec 3) (a : Accepted) (k : Src)
    (hb : (t.step imem d).core.hx.Busy e)
    (hacc : (t.step imem d).log.accepted[(t.step imem d).idx e]? = some a)
    (hv : (((t.step imem d).entry e).slot k).valid = false) :
    (t.step imem d).log.Waits (a.id.dec.src k) ((t.step imem d).idx e)
      (((t.step imem d).entry e).slot k) := by
  have hwl := Traced.written_le ha
  rcases Traced.busy_step_cases hf hb with ⟨hw, hidx, hent⟩ | ⟨hold, -, hidx, hent⟩
  · have hpe := hp e hw
    have hlen := hpe.len_eq ha
    rw [hidx, Traced.accepted_step (by omega)] at hacc
    rw [hent, slot_stored] at hv ⊢
    rw [hidx, hpe.id_eq ha hacc]
    exact Traced.waits_step hl hq hwl (h.regWaits k hpe) hv
  · have hlt := (h.live e hold).1
    rw [hidx, Traced.accepted_step (by omega)] at hacc
    rw [hent, slot_held] at hv ⊢
    rw [hidx]
    exact Traced.waits_step hl hq (by omega) (h.waits e a k hold hacc) hv

end Station

/-! ### The DP/SW registers and the ALU latch -/

theorem tag_concat (t : RrfTag) (v : Bool) : (⟨0#26 ++ t, v⟩ : Operand).tag = t := by
  rw [Operand.tag]
  exact BitVec.extractLsb'_append_eq_right

/-- An operand that is not valid waits. -/
theorem Log.waits_of_operandAt {l : Log} {init : RegSel → Word} {r : RegSel} {i : ℕ}
    (h : (l.operandAt init r i).valid = false) : l.Waits r i (l.operandAt init r i) := by
  unfold Log.operandAt at h ⊢
  split_ifs at h ⊢ with h0
  cases hw : l.writerBefore r i with
  | none => rw [hw] at h; cases h
  | some p =>
    simp only [hw] at h ⊢
    cases hr : l.result p with
    | some v => rw [hr] at h; cases h
    | none => exact ⟨p, hw, hr, tag_concat _ _⟩

namespace Traced
variable {t : Traced} {imem : Word → Word} {d : Word}

/-- The DP/SW registers get the operands of the instruction that is in rename. -/
theorem regSlot_step {init : RegSel → Word} (hr : Renamed init t.sys) (hl : Latched t)
    (hq : Quiet t.core.hx) (ha : Acct t.sys) (k : Src) :
    (t.step imem d).regSlot k =
      (t.step imem d).log.operandAt init ((t.step imem d).core.hx.dp.idReg.dec.src k)
        (t.step imem d).log.written := by
  have hcap := fun r => hr.capture ha hl.legal (hl.forwarding hq ha)
    (HeliosX.dpIn t.core.hx.idUnit (HeliosX.forwards t.core.hx.ex) t.core.hx.rob t.core.hx.dp) rfl r
  have hop : ∀ r, t.sys.log.operand init (t.sys.step t.event).log.result r =
      (t.step imem d).log.operandAt init r (t.step imem d).log.written := by
    intro r
    have hw : (t.step imem d).log.writerBefore r (t.step imem d).log.written =
        t.sys.log.writer r := Sys.writerBefore_step t.event t.sys r (Nat.le_refl _)
    rw [Log.operand, Log.operandAt, hw]
    cases hwr : t.sys.log.writer r with
    | none => rfl
    | some w =>
      simp only [ha.tagAt (lastBefore_lt hwr).1]
      rfl
  cases k
  · exact (hcap _).trans (hop _)
  · exact (hcap _).trans (hop _)

end Traced

namespace Latched
variable {t : Traced} {imem : Word → Word} {d : Word}

/-- The entry that is issued goes to the latch. -/
theorem step (hs : Station t) (ha : Acct t.sys) : Latched (t.step imem d) := by
  have hwl := Traced.written_le ha
  have hissued : ∀ j, (t.step imem d).exIdx = some j →
      t.core.hx.sw.exeAluIssue = true ∧ t.idx t.core.hx.sw.aluIssueAddr = j ∧
        t.core.hx.Busy t.core.hx.sw.aluIssueAddr := by
    intro j hj
    obtain ⟨e, hi, he⟩ := Traced.exIdx_step_eq_some.mp hj
    have hb := Traced.busy_of_issues hi
    obtain ⟨hi', rfl⟩ := hi
    exact ⟨hi', he, hb⟩
  refine ⟨?_, ?_, ?_, ?_⟩
  · rw [Traced.exIdx_isSome_step]
    rfl
  · rw [Traced.exIdx_isSome_step]
    change (t.core.hx.sw.exeAluIssue && t.core.hx.sw.issueEntry.exeDstVal) = _
    cases hi : t.core.hx.sw.exeAluIssue with
    | false => rfl
    | true =>
      obtain ⟨a, -, hm⟩ := hs.data _ (Traced.busy_of_issues ⟨hi, rfl⟩)
      exact (Bool.true_and _).trans hm.dstVal
  · intro j hj
    obtain ⟨-, hidx, hb⟩ := hissued j hj
    obtain ⟨a, hacc, hm⟩ := hs.data _ hb
    rw [← hidx, ← ha.tag _ a hacc]
    exact hm.tag
  · intro j hj
    obtain ⟨-, hidx, hb⟩ := hissued j hj
    obtain ⟨hlt, hres, hne⟩ := hs.live _ hb
    rw [hidx] at hlt hres hne
    rw [Traced.written_step, Traced.result_step, if_neg hne]
    exact ⟨by omega, hres⟩

end Latched

namespace Station
variable {t : Traced} {imem : Word → Word} {d : Word}

/-- One cycle keeps the station in order. The instruction in rename is looked at only when it is
    accepted; `hr` gives the rename state then. -/
theorem step {init : RegSel → Word} (h : Station t) (hf : t.core.OneAtMost) (hl : Latched t)
    (hq : Quiet t.core.hx) (ha : Acct t.sys)
    (hp : ∀ e, t.core.hx.WritesEntry e → t.Pending)
    (hr : (t.step imem d).Pending → Renamed init t.sys) : Station (t.step imem d) where
  live := h.live_step hf hl ha hp
  inj := h.inj_step hf
  data := h.data_step hf ha hp
  waits := h.entry_waits_step hf hl hq ha hp
  regWaits := by
    intro k hpe hv
    rw [Traced.regSlot_step (hr hpe) hl hq ha] at hv ⊢
    exact Log.waits_of_operandAt hv

end Station

end HeliosXCore
