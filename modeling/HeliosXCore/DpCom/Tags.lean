import HeliosXCore.DpCom.System

/-! Tag accounting. The outstanding register-writing instructions are the indices from `com` up to
    `len`, at most 63 of them, and index `j` holds tag `tagOf j`. -/

namespace HeliosXCore
open Rtl

/-- What the counters, the pointers and the ROB say about the log. An index is live when it lies
    between `com` and `written`. -/
structure Acct (y : Sys) : Prop where
  com_le : y.log.com ≤ y.log.written
  len_eq : y.log.len =
    y.log.written + (y.hw.dp.rrfAllocatableReg && y.hw.dp.dstEnReg).toNat
  window : y.log.len ≤ y.log.com + 63
  freenum : y.hw.dp.rrfAlloc.freenum.toNat + y.log.len = y.log.com + 63
  rrfptr : y.hw.dp.rrfAlloc.rrfptr = tagOf y.log.len
  commitPtr : y.hw.rob.commitPtr1 = tagOf y.log.com
  regTag : y.hw.dp.dstRrftagReg = tagOf y.log.written
  regId : y.hw.dp.rrfAllocatableReg → y.hw.dp.dstEnReg →
    y.log.accepted[y.log.written]? = some ⟨y.hw.dp.idReg, y.hw.dp.dstRrftagReg⟩
  tag : ∀ i a, y.log.accepted[i]? = some a → a.tag = tagOf i
  valid : ∀ j, y.log.com ≤ j → j < y.log.written → bit y.hw.rob.valid (tagOf j)
  finish : ∀ j, y.log.com ≤ j → j < y.log.written → bit y.hw.rob.finish (tagOf j) →
    (y.log.result j).isSome
  idle : ∀ t, (∀ j, y.log.com ≤ j → j < y.log.written → tagOf j ≠ t) →
    bit y.hw.rob.valid t → bit y.hw.rob.finish t → False
  done : ∀ j, j < y.log.com → (y.log.result j).isSome
  todo : ∀ j, y.log.written ≤ j → y.log.result j = none

namespace Acct
variable {y : Sys} {e : Event}

theorem written_le (h : Acct y) : y.log.written ≤ y.log.len := by rw [h.len_eq]; omega

theorem freenum_le (h : Acct y) : y.hw.dp.rrfAlloc.freenum.toNat ≤ 63 := by
  have := h.freenum; have := h.com_le; have := h.written_le; omega

theorem freenum_eq_zero (h : Acct y) :
    y.hw.dp.rrfAlloc.freenum = 0 ↔ y.log.len = y.log.com + 63 := by
  have := h.freenum
  rw [← BitVec.toNat_inj, show (0 : BitVec 7).toNat = 0 from rfl]
  omega

/-- A commit takes the oldest stored instruction, which has finished. -/
theorem comnum_imp (h : Acct y) (hc : y.hw.rob.comnum) :
    y.log.com < y.log.written ∧ (y.log.result y.log.com).isSome := by
  simp only [SingleInstROB.comnum, SingleInstROB.commit1, h.commitPtr, Bool.and_eq_true] at hc
  have hlt : y.log.com < y.log.written := by
    by_contra hge
    exact h.idle (tagOf y.log.com) (fun j hj hj' => by omega) hc.1 hc.2
  exact ⟨hlt, h.finish _ (Nat.le_refl _) hlt hc.2⟩

theorem com_add_le (h : Acct y) : y.log.com + y.hw.rob.comnum.toNat ≤ y.log.written := by
  cases hc : y.hw.rob.comnum with
  | false => simpa using h.com_le
  | true => have := (h.comnum_imp hc).1; simp; omega

theorem head_accepted (h : Acct y) (hc : y.hw.rob.comnum) :
    ∃ a, y.log.accepted[y.log.com]? = some a :=
  ⟨_, List.getElem?_eq_getElem (Nat.lt_of_lt_of_le (h.comnum_imp hc).1 h.written_le)⟩

/-- The allocator refuses exactly when the ring is full and nothing commits. -/
theorem stall_eq (h : Acct y) :
    y.stall e = (e.id.dec.wrReg && !y.hw.rob.comnum && decide (y.log.len = y.log.com + 63)) := by
  rw [Sys.stall_eq e y h.freenum_le]
  congr 1
  rw [beq_eq_decide]
  exact decide_eq_decide.mpr h.freenum_eq_zero

theorem tagAt (h : Acct y) {j : ℕ} (hj : j < y.log.len) : y.log.tagAt j = tagOf j := by
  have hs : y.log.accepted[j]? = some y.log.accepted[j] := List.getElem?_eq_getElem hj
  rw [Log.tagAt, hs]
  exact h.tag j _ hs

/-- The address of a finish event is the tag of the instruction it names. -/
theorem finishAddr (h : Acct y) (hl : y.Legal e) {j : ℕ} (hj : e.finish = some j) :
    (e.wires y.log).finishAddr = tagOf j := by
  have hlt := (hl j hj).1
  simp only [Event.wires, hj]
  exact h.tagAt (by have := h.written_le; omega)

theorem com_le_finish (h : Acct y) (hl : y.Legal e) {j : ℕ} (hj : e.finish = some j) :
    y.log.com ≤ j := by
  by_contra hlt
  have hd := h.done j (by omega)
  rw [(hl j hj).2] at hd
  exact absurd hd (by simp)

/-! ### One step -/

/-- The tag of a live index is not that of another index of the window. -/
theorem tag_ne {i j : ℕ} (hi : y.log.com ≤ i) (hi' : i < y.log.com + 63)
    (hj : y.log.com ≤ j) (hj' : j < y.log.com + 63) (hij : i ≠ j) : tagOf i ≠ tagOf j :=
  fun he => hij ((tagOf_eq_iff hi hi' hj hj').mp he)

theorem len_le_step (h : Acct y) : (y.step e).log.len ≤ (y.step e).log.com + 63 := by
  rw [Sys.len_step, Sys.com_step, Sys.accepts, h.stall_eq]
  have := h.window
  by_cases hfull : y.log.len = y.log.com + 63 <;> cases e.id.dec.wrReg <;>
    cases y.hw.rob.comnum <;> simp [hfull] <;> omega

theorem freenum_step (h : Acct y) :
    (y.step e).hw.dp.rrfAlloc.freenum.toNat + (y.step e).log.len =
      (y.step e).log.com + 63 := by
  have hf := RrfEntryAllocate.freenum_next y.hw.dp.rrfAlloc y.hw.rob.comnum e.id.dec.wrReg
    (y.stall e) (by have := h.freenum; have := h.com_add_le; have := h.written_le; omega)
    (by simp only [Sys.stall, DpCom.stall, HeliosX.stallOf, ReNameUnit.stallIf,
          ReNameUnit.rrfAllocatableWire, HeliosX.dpPorts, Event.wires])
  have h0 := h.freenum
  rw [Sys.len_step, Sys.com_step, Sys.accepts]
  change (y.hw.dp.rrfAlloc.next false (y.stall e) (0#1 ++ BitVec.ofBool y.hw.rob.comnum)
    e.id.dec.wrReg).freenum.toNat + _ = _
  omega

theorem rrfptr_step (h : Acct y) :
    (y.step e).hw.dp.rrfAlloc.rrfptr = tagOf (y.step e).log.len := by
  have h0 : y.hw.dp.rrfAlloc.rrfptr ≠ 0 := by rw [h.rrfptr]; exact tagOf_ne_zero _
  have hp := RrfEntryAllocate.rrfptr_next y.hw.dp.rrfAlloc
    (0#1 ++ BitVec.ofBool y.hw.rob.comnum) e.id.dec.wrReg (y.stall e) h0
  rw [Sys.len_step]
  change (y.hw.dp.rrfAlloc.next false (y.stall e) (0#1 ++ BitVec.ofBool y.hw.rob.comnum)
    e.id.dec.wrReg).rrfptr = _
  rw [hp, Sys.accepts, h.rrfptr, ← tagOf_succ]
  cases e.id.dec.wrReg && !y.stall e <;> rfl

theorem commitPtr_step (h : Acct y) :
    (y.step e).hw.rob.commitPtr1 = tagOf (y.step e).log.com := by
  have h0 : y.hw.rob.commitPtr1 ≠ 0 := by rw [h.commitPtr]; exact tagOf_ne_zero _
  have hp := SingleInstROB.commitPtr1_next
    (HeliosX.robIn y.hw.dp (e.wires y.log).finish (e.wires y.log).finishAddr) y.hw.rob h0
  rw [Sys.com_step]
  change (y.hw.rob.next false _).commitPtr1 = _
  rw [hp, h.commitPtr, ← tagOf_succ, SingleInstROB.comnum]
  cases y.hw.rob.commit1 <;> rfl

theorem regId_step (ha : (y.step e).hw.dp.rrfAllocatableReg)
    (hd : (y.step e).hw.dp.dstEnReg) :
    (y.step e).log.accepted[(y.step e).log.written]? =
      some ⟨(y.step e).hw.dp.idReg, (y.step e).hw.dp.dstRrftagReg⟩ := by
  have hacc : y.accepts e := by
    rw [Sys.rrfAllocatableReg_step] at ha
    rw [Sys.dstEnReg_step] at hd
    rw [Sys.accepts, ha, hd]
    rfl
  rw [Sys.written_step, Sys.accepted_step_len, if_pos hacc]
  rfl

theorem tag_step (h : Acct y) {i : ℕ} {a : Accepted} (hi : (y.step e).log.accepted[i]? = some a) :
    a.tag = tagOf i := by
  rcases Nat.lt_trichotomy i y.log.len with hlt | rfl | hgt
  · rw [Sys.accepted_step_of_lt e y hlt] at hi
    exact h.tag i a hi
  · rw [Sys.accepted_step_len] at hi
    split at hi
    · rw [Option.some.injEq] at hi
      rw [← hi]
      exact h.rrfptr
    · cases hi
  · have hlen := (List.getElem?_eq_some_iff.mp hi).1
    have := Sys.len_step e y
    change i < (y.step e).log.len at hlen
    cases hacc : y.accepts e <;> simp [hacc] at this <;> omega

/-- An instruction is stored in the cycle after its acceptance, at its tag. -/
theorem stored_now (h : Acct y) {j : ℕ} (hge : y.log.written ≤ j) (hlt : j < y.log.len) :
    y.hw.dp.rrfAllocatableReg ∧ tagOf j = y.hw.dp.dstRrftagReg := by
  have hl := h.len_eq
  cases ha : y.hw.dp.rrfAllocatableReg && y.hw.dp.dstEnReg with
  | false => simp [ha] at hl; omega
  | true =>
    obtain rfl : j = y.log.written := by simp [ha] at hl; omega
    exact ⟨(Bool.and_eq_true _ _ ▸ ha).1, h.regTag.symm⟩

/-- The indices that are live after the step, with their place in the window before it. -/
theorem live_step (h : Acct y) {j : ℕ} (hc : (y.step e).log.com ≤ j)
    (hw : j < (y.step e).log.written) :
    y.log.com ≤ j ∧ j < y.log.com + 63 ∧ (y.hw.rob.comnum → y.log.com ≠ j) := by
  rw [Sys.com_step] at hc
  rw [Sys.written_step] at hw
  have := h.window
  refine ⟨by omega, by omega, ?_⟩
  intro hcom
  rw [hcom] at hc
  simp at hc
  omega

theorem valid_step (h : Acct y) {j : ℕ} (hc : (y.step e).log.com ≤ j)
    (hw : j < (y.step e).log.written) : bit (y.step e).hw.rob.valid (tagOf j) := by
  obtain ⟨hcj, hjw, hne⟩ := h.live_step hc hw
  change bit (y.hw.rob.next false _).valid _
  rw [SingleInstROB.bit_valid_next]
  split_ifs with hdp hcom
  · rfl
  · have := tag_ne (Nat.le_refl _) (by omega) hcj hjw (hne hcom.1)
    exact absurd (hcom.2.trans h.commitPtr).symm this
  · rcases Nat.lt_or_ge j y.log.written with hlt | hge
    · exact h.valid j hcj hlt
    · exact absurd (h.stored_now hge (by rwa [Sys.written_step] at hw)) hdp

theorem finish_step (h : Acct y) (hl : y.Legal e) {j : ℕ} (hc : (y.step e).log.com ≤ j)
    (hw : j < (y.step e).log.written) (hf : bit (y.step e).hw.rob.finish (tagOf j)) :
    ((y.step e).log.result j).isSome := by
  obtain ⟨hcj, hjw, hne⟩ := h.live_step hc hw
  have hwl := h.written_le
  have hwin := h.window
  change bit (y.hw.rob.next false _).finish _ at hf
  rw [SingleInstROB.bit_finish_next] at hf
  split_ifs at hf with hdp hfin
  · cases hfe : e.finish with
    | none => simp [HeliosX.robIn, Event.wires, hfe] at hfin
    | some i =>
      have hi : tagOf j = tagOf i := hfin.2.trans (h.finishAddr hl hfe)
      have hiw := (hl i hfe).1
      have hci := h.com_le_finish hl hfe
      rw [tagOf_eq_iff hcj hjw hci (by omega)] at hi
      rw [Sys.result_step, if_pos (by rw [hfe, hi])]
      rfl
  · rcases Nat.lt_or_ge j y.log.written with hlt | hge
    · exact Sys.result_isSome_step e y (h.finish j hcj hlt hf)
    · exact absurd (h.stored_now hge (by rwa [Sys.written_step] at hw)) hdp

/-- A slot that holds no live instruction is not at once valid and finished. -/
theorem idle_step (h : Acct y) (hl : y.Legal e) {t : RrfTag}
    (ht : ∀ j, (y.step e).log.com ≤ j → j < (y.step e).log.written → tagOf j ≠ t)
    (hv : bit (y.step e).hw.rob.valid t) (hf : bit (y.step e).hw.rob.finish t) : False := by
  have hwl := h.written_le
  change bit (y.hw.rob.next false _).valid _ at hv
  change bit (y.hw.rob.next false _).finish _ at hf
  rw [SingleInstROB.bit_valid_next] at hv
  rw [SingleInstROB.bit_finish_next] at hf
  split_ifs at hv hf with hdp hcom hfin
  · cases hfe : e.finish with
    | none => simp [HeliosX.robIn, Event.wires, hfe] at hfin
    | some i =>
      -- the finished instruction is live before the step, and still live after it
      have hiw := (hl i hfe).1
      have hci := h.com_le_finish hl hfe
      have hti : t = tagOf i := hfin.2.trans (h.finishAddr hl hfe)
      refine ht i (Sys.com_step_le hci fun hc he => hcom ⟨hc, ?_⟩)
        (by rw [Sys.written_step]; omega) hti.symm
      rw [hti, h.commitPtr, he]
  · refine h.idle t ?_ hv hf
    intro j hcj hjw hjt
    refine ht j (Sys.com_step_le hcj fun hc he => hcom ⟨hc, ?_⟩)
      (by rw [Sys.written_step]; omega) hjt
    rw [← hjt, h.commitPtr, he]

theorem done_step (h : Acct y) {j : ℕ} (hj : j < (y.step e).log.com) :
    ((y.step e).log.result j).isSome := by
  apply Sys.result_isSome_step
  rcases Nat.lt_or_ge j y.log.com with hlt | hge
  · exact h.done j hlt
  · obtain ⟨hc, rfl⟩ := Sys.eq_com_of_lt_com_step hge hj
    exact (h.comnum_imp hc).2

theorem todo_step (h : Acct y) (hl : y.Legal e) {j : ℕ} (hj : (y.step e).log.written ≤ j) :
    (y.step e).log.result j = none := by
  rw [Sys.written_step] at hj
  have hwl := h.written_le
  rw [Sys.result_step, if_neg, h.todo j (by omega)]
  intro hfe
  have := (hl j hfe).1
  omega

/-- Every legal step keeps the accounts. -/
theorem step (h : Acct y) (hl : y.Legal e) : Acct (y.step e) where
  com_le := by
    rw [Sys.com_step, Sys.written_step]
    have := h.com_add_le
    have := h.written_le
    omega
  len_eq := by
    rw [Sys.len_step, Sys.written_step, Sys.rrfAllocatableReg_step, Sys.dstEnReg_step,
      Sys.accepts, Bool.and_comm]
  window := h.len_le_step
  freenum := h.freenum_step
  rrfptr := h.rrfptr_step
  commitPtr := h.commitPtr_step
  regTag := by rw [Sys.dstRrftagReg_step, Sys.written_step, h.rrfptr]
  regId := regId_step
  tag := fun _ _ => h.tag_step
  valid := fun _ => h.valid_step
  finish := fun _ => h.finish_step hl
  idle := fun _ => h.idle_step hl
  done := fun _ => h.done_step
  todo := fun _ => h.todo_step hl

/-- Reset leaves an empty ring; the DP/SW registers hold an instruction without destination. -/
theorem start {s : DpCom} (h : s.AfterReset) : Acct (Sys.start s) := by
  obtain ⟨s0, i1, i2, ⟨hid, -, -⟩, rfl⟩ := h
  have hdst : (DpCom.next true i2 (DpCom.next true i1 s0)).dp.dstEnReg = false := hid
  have hfin : ∀ t, bit (DpCom.next true i2 (DpCom.next true i1 s0)).rob.finish t = false :=
    fun t => SingleInstROB.bit_finish_reset _ _ t
  constructor
  case len_eq => simp [Sys.start, Log.len, Log.empty, hdst]
  case regId => simp [Sys.start, hdst]
  case idle => exact fun t _ _ hf => by simp [Sys.start, hfin t] at hf
  all_goals simp [Sys.start, Log.com, Log.len, Log.empty]
  all_goals rfl

/-- The accounts hold in every state of a legal run. -/
theorem run {s : DpCom} (hs : s.AfterReset) {e : ℕ → Event} {N : ℕ}
    (hl : Sys.machine.Legal (Sys.start s) e N) :
    Acct (Sys.machine.run (Sys.start s) e N) :=
  Clocked.run_invariant (start hs) (fun _ _ h he => h.step he) hl N (Nat.le_refl N)

end Acct

/-! ### The allocator and the ROB agree on the outstanding tags -/

/-- The accepted register-writing instructions that have not committed, oldest first. -/
def Log.outstanding (l : Log) : List Accepted := l.accepted.drop l.com

/-- The tags in use are those from `commit_ptr_1_o` up to `rrfptr_o` in the order 1, 2, ..., 63, 1,
    and `freenum_o` counts the others. -/
structure TagsAccounted (y : Sys) : Prop where
  freenum : y.hw.dp.rrfAlloc.freenum.toNat + y.log.outstanding.length = 63
  tags : y.log.outstanding.map Accepted.tag =
    List.iterate nextTag y.hw.rob.commitPtr1 y.log.outstanding.length
  rrfptr : y.hw.dp.rrfAlloc.rrfptr = nextTag^[y.log.outstanding.length] y.hw.rob.commitPtr1
  full : y.hw.dp.rrfAlloc.freenum = 0 →
    ∀ t, t ≠ 0 → t ∈ y.log.outstanding.map Accepted.tag
  nodup : (y.log.outstanding.map Accepted.tag).Nodup
  not_allocated_zero : ∀ a ∈ y.log.accepted, a.tag ≠ 0
  not_commit_zero : y.hw.rob.commitPtr1 ≠ 0

theorem Log.length_outstanding (l : Log) : l.outstanding.length = l.len - l.com :=
  List.length_drop

theorem Acct.map_tag_outstanding {y : Sys} (h : Acct y) :
    y.log.outstanding.map Accepted.tag =
      (List.range' y.log.com (y.log.len - y.log.com)).map tagOf := by
  apply List.ext_getElem
  · simp [Log.length_outstanding]
  · intro i h1 h2
    simp only [Log.outstanding, List.getElem_map, List.getElem_drop, List.getElem_range', one_mul]
    exact h.tag _ _ (List.getElem?_eq_getElem _)

theorem Acct.tagsAccounted {y : Sys} (h : Acct y) : TagsAccounted y := by
  have hf := h.freenum
  have hc := h.com_le
  have hw := h.written_le
  refine ⟨?_, ?_, ?_, ?_, ?_, ?_, ?_⟩
  · rw [Log.length_outstanding]; omega
  · rw [h.map_tag_outstanding, h.commitPtr, Log.length_outstanding, list_iterate_nextTag]
  · rw [h.rrfptr, h.commitPtr, Log.length_outstanding, iterate_nextTag]
    congr 1
    omega
  · intro h0 t ht
    obtain ⟨j, hj, hj', rfl⟩ := exists_tagOf y.log.com ht
    rw [h.freenum_eq_zero] at h0
    rw [h.map_tag_outstanding]
    exact List.mem_map_of_mem (List.mem_range'_1.mpr ⟨hj, by omega⟩)
  · rw [h.map_tag_outstanding]
    exact nodup_tags (by omega)
  · intro a ha
    obtain ⟨i, hi⟩ := List.mem_iff_getElem?.mp ha
    rw [h.tag i a hi]
    exact tagOf_ne_zero i
  · rw [h.commitPtr]
    exact tagOf_ne_zero _

/-- In every reachable state the two pointers and the counter describe the outstanding tags. -/
theorem tags_accounted {s : DpCom} (hs : s.AfterReset) {e : ℕ → Event} {N : ℕ}
    (hl : Sys.machine.Legal (Sys.start s) e N) :
    TagsAccounted (Sys.machine.run (Sys.start s) e N) :=
  (Acct.run hs hl).tagsAccounted

/-- `addi x1, x1, 1` in every cycle. The 63 tags are taken when the oldest instruction finishes. -/
def finishOnFullRing (n : ℕ) : Event :=
  if n = 63 then { Event.addi with finish := some 0 } else Event.addi

/-- In cycle 64 tag 1 is freed by the commit and given out again. -/
theorem tags_accounted_finishOnFullRing :
    (Sys.machine.run (Sys.start DpCom.ofReset) finishOnFullRing 64).hw.rob.comnum = true ∧
      (Sys.machine.run (Sys.start DpCom.ofReset) finishOnFullRing 64).hw.rob.commitPtr1 = 1 ∧
      (Sys.machine.run (Sys.start DpCom.ofReset) finishOnFullRing 65).log.tagAt 63 = 1 ∧
      TagsAccounted (Sys.machine.run (Sys.start DpCom.ofReset) finishOnFullRing 65) := by
  have hl : Sys.machine.Legal (Sys.start DpCom.ofReset) finishOnFullRing 65 := by
    change ∀ n, n < 65 → Sys.Legal _ _
    decide +kernel
  exact ⟨by decide +kernel, by decide +kernel, by decide +kernel,
    tags_accounted DpCom.afterReset_ofReset hl⟩

end HeliosXCore
