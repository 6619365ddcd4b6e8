import HeliosXCore.Lib.History
import HeliosXCore.DpCom.Commit

/-! Operand capture. While no instruction is refused, the rename table maps each register to its
    youngest uncommitted writer, the RRF holds the results of the outstanding writers and the
    register file those of the committed ones. A source operand is read from whichever of the three
    (or of the forwarding port) has it. -/

namespace HeliosXCore
open Rtl

/-- The accepted instruction with index `i` writes register `r`. -/
def Log.writes (l : Log) (r : RegSel) (i : ℕ) : Prop :=
  (l.accepted[i]?.map fun a => a.id.dec.rd) = some r

instance (l : Log) (r : RegSel) : DecidablePred (l.writes r) :=
  fun _ => inferInstanceAs (Decidable (_ = _))

/-- The youngest writer of `r` among the first `n` accepted instructions. -/
def Log.writerBefore (l : Log) (r : RegSel) (n : ℕ) : Option ℕ := lastBefore (l.writes r) n

/-- The youngest accepted writer of `r`. -/
def Log.writer (l : Log) (r : RegSel) : Option ℕ := l.writerBefore r l.len

/-- The execution units forward on the `alu1` port only, each result with its finish event. -/
structure Sys.Forwarding (y : Sys) (e : Event) : Prop where
  only : Rrf.OnlyAlu1 e.forwards
  we : e.forwards.alu1.we = e.finish.isSome
  tag : ∀ j, e.finish = some j → e.forwards.alu1.rrftag = y.log.tagAt j

/-- The operand of register `r` that an instruction accepted now must get: the register file before
    any writer, else the result of the youngest accepted writer, else its tag. -/
def Log.operand (init : RegSel → Word) (l : Log) (result : ℕ → Option Word) (r : RegSel) :
    Operand :=
  if r = 0 then ⟨0, true⟩
  else match l.writer r with
    | none => ⟨init r, true⟩
    | some w => match result w with
      | some v => ⟨v, true⟩
      | none => ⟨0#26 ++ l.tagAt w, false⟩

/-- What the rename table, the RRF and the register file hold. -/
structure Renamed (init : RegSel → Word) (y : Sys) : Prop where
  busy : ∀ r w, y.log.writer r = some w → y.log.com ≤ w →
    y.hw.dp.arf.reTb.busy r ∧ y.hw.dp.arf.reTb.rrftag r = tagOf w
  idle : ∀ r, (∀ w, y.log.writer r = some w → w < y.log.com) → y.hw.dp.arf.reTb.busy r = false
  valid : ∀ j, y.log.com ≤ j → j < y.log.len →
    bit y.hw.dp.rrf.rrfValid (tagOf j) = (y.log.result j).isSome
  free : ∀ t, (∀ j, y.log.com ≤ j → j < y.log.len → tagOf j ≠ t) →
    bit y.hw.dp.rrf.rrfValid t = false
  data : ∀ j v, y.log.com ≤ j → y.log.result j = some v → y.hw.dp.rrf.rrfData (tagOf j) = v
  mem : ∀ r, match y.log.writerBefore r y.log.com with
    | none => y.hw.dp.arf.mem r = init r
    | some w => y.log.result w = some (y.hw.dp.arf.mem r)

namespace Log

theorem writes_iff {l : Log} {r : RegSel} {i : ℕ} {a : Accepted} (h : l.accepted[i]? = some a) :
    l.writes r i ↔ a.id.dec.rd = r := by simp [writes, h]

end Log

namespace Sys

/-- The writers below the length of the log stay what they are. -/
theorem writes_step (e : Event) (y : Sys) (r : RegSel) {i : ℕ} (hi : i < y.log.len) :
    (y.step e).log.writes r i ↔ y.log.writes r i := by
  rw [Log.writes, accepted_step_of_lt e y hi, Log.writes]

theorem writerBefore_step (e : Event) (y : Sys) (r : RegSel) {n : ℕ} (hn : n ≤ y.log.len) :
    (y.step e).log.writerBefore r n = y.log.writerBefore r n :=
  lastBefore_congr fun _ hi => writes_step e y r (Nat.lt_of_lt_of_le hi hn)

/-- An accepted instruction becomes the youngest writer of its destination. -/
theorem writer_step (e : Event) (y : Sys) (r : RegSel) :
    (y.step e).log.writer r =
      if y.accepts e ∧ e.id.dec.rd = r then some y.log.len else y.log.writer r := by
  rw [Log.writer, len_step]
  cases h : y.accepts e with
  | false =>
    simp only [Bool.toNat_false, Nat.add_zero, Bool.false_eq_true, false_and, if_false]
    exact writerBefore_step e y r (Nat.le_refl _)
  | true =>
    have hs := accepted_step_len e y
    rw [if_pos h] at hs
    rw [Log.writerBefore, Bool.toNat_true, lastBefore_succ]
    simp only [Log.writes_iff hs, true_and]
    split
    · rfl
    · exact writerBefore_step e y r (Nat.le_refl _)

end Sys

namespace Renamed
variable {init : RegSel → Word} {y : Sys} {e : Event} {w : ℕ} {v : Word}

/-! ### The ports of one cycle -/

/-- The tag on the forwarding port is that of the instruction that finishes. -/
theorem alu1_tag (ha : Acct y) (hl : y.Legal e) (hf : y.Forwarding e) {j : ℕ}
    (hj : e.finish = some j) : e.forwards.alu1.rrftag = tagOf j := by
  have := (hl j hj).1
  have := ha.written_le
  rw [hf.tag j hj, ha.tagAt (by omega)]

/-- The instruction that finishes does not commit in the same cycle. -/
theorem com_step_le_finish (ha : Acct y) (hl : y.Legal e) {j : ℕ} (hj : e.finish = some j) :
    (y.step e).log.com ≤ j := by
  refine Sys.com_step_le (ha.com_le_finish hl hj) ?_
  rintro hc rfl
  have hr := (ha.comnum_imp hc).2
  rw [(hl _ hj).2] at hr
  cases hr

/-- The forwarding port hits the tag of an index of the new window exactly when that one finishes. -/
theorem alu1_hit (ha : Acct y) (hl : y.Legal e) (hf : y.Forwarding e) {j : ℕ}
    (hc : (y.step e).log.com ≤ j) (hj : j < (y.step e).log.com + 63) :
    (e.forwards.alu1.we ∧ tagOf j = e.forwards.alu1.rrftag) ↔ e.finish = some j := by
  rw [hf.we]
  cases hfe : e.finish with
  | none => simp
  | some i =>
    have hiw := (hl i hfe).1
    have hci := com_step_le_finish ha hl hfe
    have := ha.written_le
    have := ha.window
    have := Sys.com_step e y
    rw [alu1_tag ha hl hf hfe, tagOf_eq_iff hc hj hci (by omega)]
    simp [eq_comm]

/-- A commit clears with the tag of the oldest instruction, its register and its result. -/
theorem completedWe (hs : Stored y) (ha : Acct y) :
    y.hw.rob.arfwe1 = y.hw.rob.comnum := by
  cases hc : y.hw.rob.comnum with
  | false =>
    have hc' : y.hw.rob.commit1 = false := hc
    simp [SingleInstROB.arfwe1, hc']
  | true =>
    obtain ⟨a, has⟩ := ha.head_accepted hc
    have := hs.commit_port ha hc has
    simp only [Prod.mk.injEq] at this
    exact this.2.2

theorem committed_rd (hs : Stored y) (ha : Acct y) (hc : y.hw.rob.comnum) :
    y.log.writes y.hw.rob.dstArf1 y.log.com := by
  obtain ⟨a, has⟩ := ha.head_accepted hc
  have := hs.commit_port ha hc has
  simp only [Prod.mk.injEq] at this
  rw [Log.writes_iff has, this.2.1]

theorem committed_data (h : Renamed init y) (ha : Acct y) (hc : y.hw.rob.comnum) :
    y.log.result y.log.com = some (y.hw.dp.rrf.rrfData (tagOf y.log.com)) := by
  obtain ⟨v, hv⟩ := Option.isSome_iff_exists.mp (ha.comnum_imp hc).2
  rw [h.data _ v (Nat.le_refl _) hv, hv]

/-! ### One step -/

/-- An acceptance maps its destination, a commit unmaps the register that still has its tag. -/
theorem busy_step (hs : Stored y) (ha : Acct y) (hns : y.stall e = false) (r : RegSel) :
    (y.step e).hw.dp.arf.reTb.busy r =
      if y.accepts e ∧ e.id.dec.rd = r then true
      else if y.hw.rob.comnum ∧ tagOf y.log.com = y.hw.dp.arf.reTb.rrftag r ∧
        y.hw.rob.dstArf1 = r then false
      else y.hw.dp.arf.reTb.busy r := by
  have hacc : y.accepts e = e.id.dec.wrReg := by simp [Sys.accepts, hns]
  refine (RenameTable.busy_next ⟨y.hw.rob.arfwe1, y.hw.rob.dstArf1, y.hw.rob.commitPtr1⟩
    ⟨e.id.dec.wrReg, e.id.dec.rd, y.hw.dp.rrfAlloc.rrfptr⟩ y.hw.dp.arf.reTb r).trans ?_
  simp only [completedWe hs ha, ha.commitPtr, hacc, eq_comm (a := r)]
  by_cases hr : y.hw.rob.dstArf1 = r <;> simp [hr]

theorem rrftag_step (ha : Acct y) (hns : y.stall e = false) (r : RegSel) :
    (y.step e).hw.dp.arf.reTb.rrftag r =
      if y.accepts e ∧ e.id.dec.rd = r then tagOf y.log.len else y.hw.dp.arf.reTb.rrftag r := by
  have hacc : y.accepts e = e.id.dec.wrReg := by simp [Sys.accepts, hns]
  refine (RenameTable.rrftag_next ⟨y.hw.rob.arfwe1, y.hw.rob.dstArf1, y.hw.rob.commitPtr1⟩
    ⟨e.id.dec.wrReg, e.id.dec.rd, y.hw.dp.rrfAlloc.rrfptr⟩ y.hw.dp.arf.reTb r).trans ?_
  simp only [ha.rrfptr, hacc]
  by_cases h1 : e.id.dec.rd = r
  · simp [h1]
  · simp [h1, Ne.symm h1]

/-- A result sets its valid bit and a commit clears it. -/
theorem rrfValid_step (hs : Stored y) (ha : Acct y) (hf : y.Forwarding e) (t : RrfTag) :
    bit (y.step e).hw.dp.rrf.rrfValid t =
      if e.forwards.alu1.we ∧ t = e.forwards.alu1.rrftag then true
      else if y.hw.rob.comnum ∧ t = tagOf y.log.com then false
      else bit y.hw.dp.rrf.rrfValid t := by
  refine (Rrf.bit_rrfValid_next e.forwards y.hw.dp.rrfAlloc.rrfptr y.hw.rob.arfwe1
    y.hw.rob.commitPtr1 y.hw.dp.rrf t hf.only.alu2.1).trans ?_
  rw [completedWe hs ha, ha.commitPtr]

theorem rrfData_step (hf : y.Forwarding e) (t : RrfTag) :
    (y.step e).hw.dp.rrf.rrfData t =
      if e.forwards.alu1.we ∧ t = e.forwards.alu1.rrftag then e.forwards.alu1.data
      else y.hw.dp.rrf.rrfData t :=
  Rrf.rrfData_next e.forwards false y.hw.dp.rrfAlloc.rrfptr y.hw.rob.arfwe1 y.hw.rob.commitPtr1
    y.hw.dp.rrf t hf.only.alu2.1

/-- A commit copies the result of the oldest instruction to its register. -/
theorem mem_step (hs : Stored y) (ha : Acct y) (r : RegSel) :
    (y.step e).hw.dp.arf.mem r =
      if y.hw.rob.comnum ∧ y.hw.rob.dstArf1 = r then y.hw.dp.rrf.rrfData (tagOf y.log.com)
      else y.hw.dp.arf.mem r := by
  refine (Arf.mem_next ⟨y.hw.rob.arfwe1, y.hw.rob.dstArf1, y.hw.rob.commitPtr1⟩
    (y.hw.dp.rrf.rrfData y.hw.rob.commitPtr1)
    ⟨e.id.dec.wrReg, e.id.dec.rd, y.hw.dp.rrfAlloc.rrfptr⟩ y.hw.dp.arf r).trans ?_
  simp only [completedWe hs ha, ha.commitPtr, eq_comm (a := r)]

/-- A writer that is the youngest of its register is mapped until it commits. -/
theorem mapped_step (h : Renamed init y) (hs : Stored y) (ha : Acct y) (hns : y.stall e = false)
    {r : RegSel} {w : ℕ} (hw : (y.step e).log.writer r = some w)
    (hcw : (y.step e).log.com ≤ w) :
    (y.step e).hw.dp.arf.reTb.busy r ∧ (y.step e).hw.dp.arf.reTb.rrftag r = tagOf w := by
  rw [busy_step hs ha hns, rrftag_step ha hns]
  rw [Sys.writer_step] at hw
  rw [Sys.com_step] at hcw
  split at hw
  · rename_i hacc
    obtain rfl : y.log.len = w := Option.some.inj hw
    simp [hacc]
  · rename_i hacc
    obtain ⟨hb, ht⟩ := h.busy r w hw (by omega)
    have hwl := (lastBefore_lt hw).1
    have hwin := ha.window
    rw [if_neg hacc, if_neg hacc, if_neg]
    · exact ⟨hb, ht⟩
    · rintro ⟨hc, hct, -⟩
      rw [ht, tagOf_eq_iff (Nat.le_refl _) (by omega) (by omega) (by omega)] at hct
      simp [hc] at hcw
      omega

/-- A register whose writers have all committed is not busy. -/
theorem idle_step (h : Renamed init y) (hs : Stored y) (ha : Acct y) (hns : y.stall e = false)
    {r : RegSel} (hw : ∀ w, (y.step e).log.writer r = some w → w < (y.step e).log.com) :
    (y.step e).hw.dp.arf.reTb.busy r = false := by
  rw [busy_step hs ha hns]
  rw [Sys.writer_step] at hw
  have hcle := ha.com_add_le
  have hwle := ha.written_le
  split_ifs with hacc hcom
  · have := hw y.log.len (by rw [if_pos hacc])
    rw [Sys.com_step] at this
    omega
  · rfl
  · rw [if_neg hacc] at hw
    by_cases hall : ∀ w, y.log.writer r = some w → w < y.log.com
    · exact h.idle r hall
    · -- the youngest writer is the instruction that commits in this cycle
      push Not at hall
      obtain ⟨w, hrw, hcw⟩ := hall
      obtain ⟨hc, rfl⟩ := Sys.eq_com_of_lt_com_step hcw (hw w hrw)
      obtain ⟨hb, ht⟩ := h.busy r _ hrw (Nat.le_refl _)
      have hrd := committed_rd hs ha hc
      have hrr := (lastBefore_lt hrw).2
      rw [Log.writes] at hrd hrr
      exact absurd ⟨hc, ht.symm, Option.some.inj (hrd.symm.trans hrr)⟩ hcom

theorem valid_step (h : Renamed init y) (hs : Stored y) (ha : Acct y) (hl : y.Legal e)
    (hf : y.Forwarding e) {j : ℕ} (hc : (y.step e).log.com ≤ j) (hj : j < (y.step e).log.len) :
    bit (y.step e).hw.dp.rrf.rrfValid (tagOf j) = ((y.step e).log.result j).isSome := by
  have hwin := ha.window
  have hwin' := ha.len_le_step (e := e)
  have hcom := Sys.com_step e y
  have hlen := Sys.len_step e y
  rw [rrfValid_step hs ha hf, Sys.result_step]
  by_cases hfin : e.finish = some j
  · rw [if_pos ((alu1_hit ha hl hf hc (by omega)).mpr hfin), if_pos hfin]
    rfl
  · rw [if_neg (fun hh => hfin ((alu1_hit ha hl hf hc (by omega)).mp hh)), if_neg hfin]
    rcases Nat.lt_or_ge j y.log.len with hlt | hge
    · rw [if_neg, h.valid j (by omega) hlt]
      rintro ⟨hcn, ht⟩
      rw [hcn] at hcom
      simp at hcom
      have := tagOf_inj (by omega) (by omega) ht.symm
      omega
    · -- a new tag: free before, or freed by the commit of this cycle
      have hacc : y.accepts e := by
        cases hna : y.accepts e with
        | true => rfl
        | false => rw [hna, Bool.toNat_false] at hlen; omega
      obtain rfl : j = y.log.len := by rw [hacc, Bool.toNat_true] at hlen; omega
      rw [ha.todo _ ha.written_le, Option.isSome_none]
      split_ifs with hcl
      · rfl
      · apply h.free
        intro i hci hil ht
        rcases Nat.lt_or_ge y.log.len (y.log.com + 63) with hlt' | hge'
        · have := (tagOf_eq_iff hci (by omega) (Nat.le_trans ha.com_le ha.written_le) hlt').mp ht
          omega
        · have hfull : y.log.len = y.log.com + 63 := by omega
          cases hcn : y.hw.rob.comnum with
          | true => exact hcl ⟨hcn, by rw [hfull, tagOf_add]⟩
          | false => simp [hcn, hacc] at hcom hlen; omega

theorem free_step (h : Renamed init y) (hs : Stored y) (ha : Acct y) (hl : y.Legal e)
    (hf : y.Forwarding e) {t : RrfTag}
    (ht : ∀ j, (y.step e).log.com ≤ j → j < (y.step e).log.len → tagOf j ≠ t) :
    bit (y.step e).hw.dp.rrf.rrfValid t = false := by
  have hlen := Sys.len_step e y
  rw [rrfValid_step hs ha hf]
  split_ifs with hhit hclr
  · cases hfe : e.finish with
    | none => simp [hf.we, hfe] at hhit
    | some i =>
      have := (hl i hfe).1
      have := ha.written_le
      have hti := hhit.2.trans (alu1_tag ha hl hf hfe)
      exact absurd hti.symm (ht i (com_step_le_finish ha hl hfe) (by omega))
  · rfl
  · apply h.free
    intro j hcj hjl hjt
    rcases Nat.lt_or_ge j (y.step e).log.com with hlt | hge
    · obtain ⟨hcn, rfl⟩ := Sys.eq_com_of_lt_com_step hcj hlt
      exact hclr ⟨hcn, hjt.symm⟩
    · exact ht j hge (by omega) hjt

theorem data_step (h : Renamed init y) (ha : Acct y) (hl : y.Legal e) (hf : y.Forwarding e)
    {j : ℕ} {v : Word} (hc : (y.step e).log.com ≤ j) (hj : (y.step e).log.result j = some v) :
    (y.step e).hw.dp.rrf.rrfData (tagOf j) = v := by
  have hcom := Sys.com_step e y
  have hwl := ha.written_le
  have hwin := ha.window
  rw [Sys.result_step] at hj
  rw [rrfData_step hf]
  by_cases hfin : e.finish = some j
  · have := (hl j hfin).1
    rw [if_pos hfin] at hj
    rw [if_pos ((alu1_hit ha hl hf hc (by omega)).mpr hfin)]
    exact Option.some.inj hj
  · rw [if_neg hfin] at hj
    have hjw : j < y.log.written := by
      by_contra hge
      rw [ha.todo j (by omega)] at hj
      cases hj
    rw [if_neg fun hh => hfin ((alu1_hit ha hl hf hc (by omega)).mp hh)]
    exact h.data j v (by omega) hj

/-- The result of a committed instruction stays. -/
theorem result_step_of_lt_com (ha : Acct y) (hl : y.Legal e) {w : ℕ}
    (hw : w < (y.step e).log.com) : (y.step e).log.result w = y.log.result w := by
  rw [Sys.result_step, if_neg]
  intro hfe
  have := com_step_le_finish ha hl hfe
  omega

/-- A commit makes the oldest instruction the last committed writer of its register. -/
theorem committed_step (h : Renamed init y) (hs : Stored y) (ha : Acct y) (hl : y.Legal e)
    (r : RegSel) :
    match (y.step e).log.writerBefore r (y.step e).log.com with
    | none => (y.step e).hw.dp.arf.mem r = init r
    | some w => (y.step e).log.result w = some ((y.step e).hw.dp.arf.mem r) := by
  have hcom := Sys.com_step e y
  have hle : (y.step e).log.com ≤ y.log.len := by
    rw [hcom]
    exact Nat.le_trans ha.com_add_le ha.written_le
  have hm := h.mem r
  rw [Sys.writerBefore_step e y r hle, mem_step hs ha]
  by_cases hnew : y.hw.rob.comnum ∧ y.hw.rob.dstArf1 = r
  · obtain ⟨hc, rfl⟩ := hnew
    have hcom' : (y.step e).log.com = y.log.com + 1 := by rw [hcom, hc]; rfl
    rw [hcom', Log.writerBefore, lastBefore_succ, if_pos (committed_rd hs ha hc),
      if_pos ⟨hc, rfl⟩]
    simp only
    rw [result_step_of_lt_com ha hl (by omega), committed_data h ha hc]
  · -- no writer of `r` commits, so the last committed one is the same as before
    have hsame : y.log.writerBefore r (y.step e).log.com = y.log.writerBefore r y.log.com := by
      refine lastBefore_of_le (by omega) fun i hi hi' hwr => hnew ?_
      obtain ⟨hc, rfl⟩ := Sys.eq_com_of_lt_com_step hi hi'
      have hrd := committed_rd hs ha hc
      rw [Log.writes] at hrd hwr
      exact ⟨hc, Option.some.inj (hrd.symm.trans hwr)⟩
    rw [hsame, if_neg hnew]
    cases hw : y.log.writerBefore r y.log.com with
    | none => rw [hw] at hm; exact hm
    | some w =>
      rw [hw] at hm
      have := (lastBefore_lt hw).1
      simp only
      rw [result_step_of_lt_com ha hl (by omega)]
      exact hm

/-- A step in which nothing is refused keeps the rename state in order. -/
theorem step (h : Renamed init y) (hs : Stored y) (ha : Acct y) (hl : y.Legal e)
    (hf : y.Forwarding e) (hns : y.stall e = false) : Renamed init (y.step e) where
  busy := fun _ _ => h.mapped_step hs ha hns
  idle := fun _ => h.idle_step hs ha hns
  valid := fun _ => h.valid_step hs ha hl hf
  free := fun _ => h.free_step hs ha hl hf
  data := fun _ _ => h.data_step ha hl hf
  mem := h.committed_step hs ha hl

theorem start {s : DpCom} (hs : s.AfterReset) : Renamed s.dp.arf.mem (Sys.start s) := by
  obtain ⟨s0, i1, i2, ⟨-, h1, h2⟩, rfl⟩ := hs
  have hidle : ∀ r, (DpCom.next true i2 (DpCom.next true i1 s0)).dp.arf.reTb.busy r = false :=
    fun r => bit_zero r
  have hvalid : ∀ t, bit (DpCom.next true i2 (DpCom.next true i1 s0)).dp.rrf.rrfValid t = false :=
    fun t => Rrf.bit_rrfValid_reset _ _ _ _ _ t h1 h2
  constructor
  case busy => intro r w hw; cases hw
  case idle => exact fun r _ => hidle r
  case valid => exact fun j _ hj => absurd hj (Nat.not_lt_zero j)
  case free => exact fun t _ => hvalid t
  case data => intro j v _ hj; cases hj
  case mem => exact fun r => rfl

/-! ### Reading an operand -/

section Wires
variable {s : ReNameUnit} {i : ReNameIn} {r : RegSel} {t : RrfTag}

theorem wires_of_zero : (⟨s.srcWire i r true, s.rdyWire i r true⟩ : Operand) = ⟨0, true⟩ := rfl

theorem wires_of_idle (hb : s.arf.reTb.busy r = false) :
    (⟨s.srcWire i r false, s.rdyWire i r false⟩ : Operand) = ⟨s.arf.mem r, true⟩ := by
  simp [ReNameUnit.srcWire, ReNameUnit.rdyWire, SrcOprManager.src, SrcOprManager.ready, hb]

theorem wires_of_valid (hb : s.arf.reTb.busy r) (ht : s.arf.reTb.rrftag r = t)
    (hv : s.rrf.rsRrfvalid i.forwards t = true) :
    (⟨s.srcWire i r false, s.rdyWire i r false⟩ : Operand) =
      ⟨s.rrf.rsRrfdata i.forwards t, true⟩ := by
  simp [ReNameUnit.srcWire, ReNameUnit.rdyWire, SrcOprManager.src, SrcOprManager.ready, hb, ht, hv]

theorem wires_of_waiting (hb : s.arf.reTb.busy r) (ht : s.arf.reTb.rrftag r = t)
    (hv : s.rrf.rsRrfvalid i.forwards t = false) :
    (⟨s.srcWire i r false, s.rdyWire i r false⟩ : Operand) = ⟨0#26 ++ t, false⟩ := by
  simp [ReNameUnit.srcWire, ReNameUnit.rdyWire, SrcOprManager.src, SrcOprManager.ready, hb, ht, hv]

end Wires

/-- The mapped writer has a result: the RRF holds it. -/
theorem read_result (h : Renamed init y) (hw : y.log.com ≤ w) (hwl : w < y.log.len)
    (hr : y.log.result w = some v) :
    y.hw.dp.rrf.rsRrfvalid e.forwards (tagOf w) ∧
      y.hw.dp.rrf.rsRrfdata e.forwards (tagOf w) = v := by
  have hv : bit y.hw.dp.rrf.rrfValid (tagOf w) := by rw [h.valid w hw hwl, hr]; rfl
  refine ⟨?_, ?_⟩
  · rw [Rrf.rsRrfvalid]
    simp [hv]
  · rw [Rrf.rsRrfdata_of_valid _ _ hv, h.data w v hw hr]

/-- The mapped writer has no result before this cycle: the bypass looks at the `alu1` port. -/
theorem read_waiting (h : Renamed init y) (ha : Acct y) (hl : y.Legal e) (hf : y.Forwarding e)
    (hw : y.log.com ≤ w) (hwl : w < y.log.len) (hr : y.log.result w = none) :
    y.hw.dp.rrf.rsRrfvalid e.forwards (tagOf w) = decide (e.finish = some w) ∧
      (e.finish = some w →
        y.hw.dp.rrf.rsRrfdata e.forwards (tagOf w) = e.forwards.alu1.data) := by
  have hv : bit y.hw.dp.rrf.rrfValid (tagOf w) = false := by rw [h.valid w hw hwl, hr]; rfl
  have hcom := Sys.com_step e y
  have hwin := ha.window
  have hcw : (y.step e).log.com ≤ w := by
    refine Sys.com_step_le hw ?_
    rintro hc rfl
    have := (ha.comnum_imp hc).2
    rw [hr] at this
    cases this
  have hhit := alu1_hit ha hl hf hcw (by omega)
  constructor
  · rw [Rrf.rsRrfvalid_eq _ hf.only (tagOf_ne_zero w), hv, Bool.false_or, Bool.eq_iff_iff]
    simpa using hhit
  · intro hfin
    obtain ⟨hwe, htag⟩ := hhit.mpr hfin
    exact Rrf.rsRrfdata_of_forward _ hf.only (tagOf_ne_zero w) hv hwe htag

/-- Rename reads every operand as the accepted writers and the results up to this cycle demand. -/
theorem capture (h : Renamed init y) (ha : Acct y) (hl : y.Legal e) (hf : y.Forwarding e)
    (i : ReNameIn) (hi : i.forwards = e.forwards) (r : RegSel) :
    (⟨y.hw.dp.srcWire i r (r == 0), y.hw.dp.rdyWire i r (r == 0)⟩ : Operand) =
      y.log.operand init (y.step e).log.result r := by
  have hcle := ha.com_le
  have hwle := ha.written_le
  by_cases h0 : r = 0
  · subst h0
    exact wires_of_zero
  have hz : (r == 0) = false := beq_false_of_ne h0
  rw [Log.operand, if_neg h0, hz]
  have hm := h.mem r
  cases hw : y.log.writer r with
  | none =>
    have hb := h.idle r fun w hw' => by rw [hw] at hw'; cases hw'
    have hnone : y.log.writerBefore r y.log.com = none :=
      lastBefore_eq_none.mpr fun j hj => lastBefore_eq_none.mp hw j (by omega)
    rw [hnone] at hm
    rw [wires_of_idle hb, hm]
  | some w =>
    have hwl := (lastBefore_lt hw).1
    simp only
    rcases Nat.lt_or_ge w y.log.com with hlt | hge
    · -- committed: the register file has the value
      have hb := h.idle r fun w' hw' => by rw [hw] at hw'; cases hw'; exact hlt
      have hsame : y.log.writerBefore r y.log.com = some w := by
        rw [← hw]
        refine (lastBefore_of_le (by omega) ?_).symm
        intro j hj hj'
        exact not_of_lastBefore hw (by omega) hj'
      rw [hsame] at hm
      simp only at hm
      rw [result_step_of_lt_com ha hl (by rw [Sys.com_step]; omega), hm, wires_of_idle hb]
    · obtain ⟨hb, ht⟩ := h.busy r w hw hge
      rw [Sys.result_step]
      cases hr : y.log.result w with
      | some v =>
        have hnf : e.finish ≠ some w := by
          intro hfe
          rw [(hl w hfe).2] at hr
          cases hr
        obtain ⟨hv, hd⟩ := h.read_result (e := e) hge hwl hr
        rw [← hi] at hv hd
        rw [if_neg hnf, wires_of_valid hb ht hv, hd]
      | none =>
        obtain ⟨hv, hd⟩ := h.read_waiting ha hl hf hge hwl hr
        rw [← hi] at hv hd
        by_cases hfin : e.finish = some w
        · rw [if_pos hfin, wires_of_valid hb ht (hv.trans (decide_eq_true hfin)), hd hfin, hi]
        · rw [if_neg hfin, wires_of_waiting hb ht (hv.trans (decide_eq_false hfin)), ha.tagAt hwl]

end Renamed

/-! ### Runs that never fill the ring -/

/-- Fewer than 63 register-writing instructions are outstanding. -/
def Sys.Room (y : Sys) : Prop := y.log.outstanding.length < 63

theorem Sys.room_iff {y : Sys} : y.Room ↔ y.log.len < y.log.com + 63 := by
  rw [Sys.Room, Log.length_outstanding]
  omega

/-- With room left nothing is refused and no slot of the ROB is overwritten. -/
theorem Acct.of_room {y : Sys} (h : Acct y) (hr : y.Room) :
    (∀ e, y.stall e = false) ∧ ¬ y.overwritesHead := by
  have hne : y.log.len ≠ y.log.com + 63 := Nat.ne_of_lt (Sys.room_iff.mp hr)
  constructor
  · intro e
    rw [h.stall_eq]
    simp [hne]
  · intro ho
    simp only [Sys.overwritesHead, Bool.and_eq_true, beq_iff_eq] at ho
    exact hne (h.freenum_eq_zero.mp ho.1.2)

/-- The rename state is in order along a run that leaves room and forwards on `alu1`. -/
theorem Renamed.run {s : DpCom} (hs : s.AfterReset) {e : ℕ → Event} {N : ℕ}
    (hl : Sys.machine.Legal (Sys.start s) e N)
    (hf : Sys.machine.Always Sys.Forwarding (Sys.start s) e N)
    (hr : Sys.machine.Always (fun y _ => y.Room) (Sys.start s) e N) :
    Acct (Sys.machine.run (Sys.start s) e N) ∧ Stored (Sys.machine.run (Sys.start s) e N) ∧
      Renamed s.dp.arf.mem (Sys.machine.run (Sys.start s) e N) := by
  refine Clocked.run_invariant_while (C := fun y e => y.Forwarding e ∧ y.Room)
    (I := fun y => Acct y ∧ Stored y ∧ Renamed s.dp.arf.mem y)
    ⟨Acct.start hs, Stored.start s, Renamed.start hs⟩ ?_ hl
    (fun n hn => ⟨hf n hn, hr n hn⟩) N (Nat.le_refl N)
  rintro y e ⟨ha, hst, hren⟩ hle ⟨hfe, hro⟩
  obtain ⟨hns, hno⟩ := ha.of_room hro
  exact ⟨ha.step hle, hst.step ha hle hno, hren.step hst ha hle hfe (hns e)⟩

/-- While fewer than 63 writers are outstanding, every instruction is accepted and the DP/SW
    registers get its two operands: the register file before any writer, the result of the youngest
    older writer once it is forwarded (in the same cycle at the latest), its tag until then. -/
theorem operands_captured {s : DpCom} (hs : s.AfterReset) {e : ℕ → Event} {N : ℕ}
    (hl : Sys.machine.Legal (Sys.start s) e N)
    (hf : Sys.machine.Always Sys.Forwarding (Sys.start s) e N)
    (hr : Sys.machine.Always (fun y _ => y.Room) (Sys.start s) e N) (n : ℕ) (hn : n < N) :
    let y := Sys.machine.run (Sys.start s) e n
    let y' := Sys.machine.run (Sys.start s) e (n + 1)
    y.stall (e n) = false ∧
      (⟨y'.hw.dp.src1Reg, y'.hw.dp.rdy1Reg⟩ : Operand) =
        y.log.operand s.dp.arf.mem y'.log.result (e n).id.dec.rs1 ∧
      (⟨y'.hw.dp.src2Reg, y'.hw.dp.rdy2Reg⟩ : Operand) =
        y.log.operand s.dp.arf.mem y'.log.result (e n).id.dec.rs2 := by
  obtain ⟨ha, -, hren⟩ := Renamed.run hs (hl.mono (Nat.le_of_lt hn)) (hf.mono (Nat.le_of_lt hn))
    (hr.mono (Nat.le_of_lt hn))
  exact ⟨(ha.of_room (hr n hn)).1 _, hren.capture ha (hl n hn) (hf n hn) _ rfl _,
    hren.capture ha (hl n hn) (hf n hn) _ rfl _⟩

/-- `addi x1, x1, 1` in every cycle; the first of them forwards 7 in cycle 3. -/
def forwardFirst (n : ℕ) : Event :=
  if n = 3 then
    { Event.addi with
      finish := some 0
      forwards := { Forwards.none with alu1 := ⟨true, 1, 7⟩ } }
  else Event.addi

theorem legal_forwardFirst : Sys.machine.Legal (Sys.start DpCom.ofReset) forwardFirst 5 := by
  change ∀ n, n < 5 → Sys.Legal _ _
  decide

theorem forwarding_forwardFirst :
    Sys.machine.Always Sys.Forwarding (Sys.start DpCom.ofReset) forwardFirst 5 := by
  intro n _
  by_cases h : n = 3
  · subst h
    refine ⟨⟨⟨rfl, rfl⟩, ⟨rfl, rfl⟩, ⟨rfl, rfl⟩, ⟨rfl, rfl⟩⟩, rfl, ?_⟩
    intro j hj
    obtain rfl : 0 = j := Option.some.inj hj
    decide
  · rw [forwardFirst, if_neg h]
    exact ⟨⟨⟨rfl, rfl⟩, ⟨rfl, rfl⟩, ⟨rfl, rfl⟩, ⟨rfl, rfl⟩⟩, rfl, fun j hj => by cases hj⟩

theorem operands_captured_forwardFirst :
    let y := Sys.machine.run (Sys.start DpCom.ofReset) forwardFirst 3
    let y' := Sys.machine.run (Sys.start DpCom.ofReset) forwardFirst 4
    y.stall (forwardFirst 3) = false ∧
      (⟨y'.hw.dp.src1Reg, y'.hw.dp.rdy1Reg⟩ : Operand) =
        y.log.operand DpCom.ofReset.dp.arf.mem y'.log.result (forwardFirst 3).id.dec.rs1 ∧
      (⟨y'.hw.dp.src2Reg, y'.hw.dp.rdy2Reg⟩ : Operand) =
        y.log.operand DpCom.ofReset.dp.arf.mem y'.log.result (forwardFirst 3).id.dec.rs2 := by
  refine operands_captured DpCom.afterReset_ofReset legal_forwardFirst forwarding_forwardFirst ?_ 3
    (by decide)
  change ∀ n, n < 5 → List.length _ < 63
  decide

end HeliosXCore
