import HeliosXCore.Core.Registers
import HeliosXCore.Core.Wakeup

/-! Any program, with the values it computes. What goes wrong is never the order and never the decoding:
    as long as no operand is woken up by an idle latch, every commit shows what the sequential machine
    computes. Before the tags come round a second time, none is. -/

namespace HeliosXCore
open Rtl

/-! ### The sequential machine in front of the register-writing words -/

/-- Word `k` writes a register. -/
def WritesAt (imem : Word → Word) (k : ℕ) : Prop := (instAt imem k).dec.wrReg = true

instance (imem : Word → Word) : DecidablePred (WritesAt imem) :=
  fun _ => inferInstanceAs (Decidable (_ = _))

namespace SeqState
variable (imem : Word → Word) (init : RegSel → Word)

/-- The state in front of the `j`-th word that writes a register. -/
noncomputable def atWriter (j : ℕ) : SeqState := after imem init (Nat.nth (WritesAt imem) j)

/-- What it shows of the register-writing words in front of the first load or jump, of `n` words. -/
def shownBeforeStop (n : ℕ) : List Retired :=
  (((List.range n).takeWhile fun k => !decide (instAt imem k).dec.Stops).filter
    fun k => decide (WritesAt imem k)).map fun k => (after imem init k).retire imem

theorem writers_eq (n : ℕ) : writers imem n = (List.range (Nat.count (WritesAt imem) n)).map
    fun j => instAt imem (Nat.nth (WritesAt imem) j) := by
  have hfilter := congrArg (List.map (instAt imem)) (filter_range_eq_map_nth (p := WritesAt imem) n)
  rw [List.map_map] at hfilter
  rw [writers, List.filter_map]
  refine Eq.trans ?_ hfilter
  congr 2
  funext k
  exact Bool.decide_eq_true.symm

theorem writesAt_nth {n j : ℕ} (hj : j < (writers imem n).length) :
    WritesAt imem (Nat.nth (WritesAt imem) j) ∧
      Nat.count (WritesAt imem) (Nat.nth (WritesAt imem) j) = j := by
  rw [writers_eq, List.length_map, List.length_range] at hj
  have hcard := fun hf => Nat.lt_of_lt_of_le hj (Nat.count_le_card hf n)
  exact ⟨Nat.nth_mem j hcard, Nat.count_nth hcard⟩

/-- A register holds what the youngest word that writes it computed. -/
theorem regs_after_writers (r : RegSel) (k : ℕ) : (after imem init k).regs r =
    match lastBefore (fun j => (instAt imem (Nat.nth (WritesAt imem) j)).dec.rd = r)
      (Nat.count (WritesAt imem) k) with
    | none => init r
    | some p => (atWriter imem init p).result imem := by
  induction k with
  | zero => rfl
  | succ k ih =>
    have hnext : (after imem init (k + 1)).regs = if WritesAt imem k then
        Function.update (after imem init k).regs (instAt imem k).dec.rd
          ((after imem init k).result imem)
        else (after imem init k).regs := by
      rw [after, next, dec_after]
      rfl
    rw [hnext, Nat.count_succ]
    by_cases hw : WritesAt imem k
    · rw [if_pos hw, if_pos hw, Function.update_apply, lastBefore_succ, Nat.nth_count hw]
      by_cases hr : (instAt imem k).dec.rd = r
      · rw [if_pos hr.symm, if_pos hr]
        simp only [atWriter, Nat.nth_count hw]
      · rw [if_neg (Ne.symm hr), if_neg hr]
        exact ih
    · rw [if_neg hw, if_neg hw]
      exact ih

end SeqState

namespace AnyTrace
variable {imem : Word → Word} {init : RegSel → Word} {T : ℕ → Traced} (h : AnyTrace imem init T)
include h

/-- The `j`-th accepted instruction is the `j`-th word that writes a register. -/
theorem accepted_at_writer (n : ℕ) {j : ℕ} {a : Accepted} (ha : (T n).log.accepted[j]? = some a) :
    j < (writers imem (n - 3)).length ∧ a.id = instAt imem (Nat.nth (WritesAt imem) j) := by
  obtain ⟨hlt, rfl⟩ := List.getElem?_eq_some_iff.mp ha
  have hmap : j < ((T n).log.accepted.map Accepted.id).length := by rwa [List.length_map]
  have hlen := Nat.lt_of_lt_of_le hmap (h.accepted_first n).length_le
  have hget := (h.accepted_first n).getElem hmap
  rw [List.getElem_map] at hget
  simp only [SeqState.writers_eq, List.getElem_map, List.getElem_range] at hget
  exact ⟨hlen, hget⟩

theorem len_le_writers (n : ℕ) : (T n).log.len ≤ (writers imem (n - 3)).length := by
  have hle := (h.accepted_first n).length_le
  rwa [List.length_map] at hle

theorem writerBefore_eq (n : ℕ) (r : RegSel) {j : ℕ} (hj : j ≤ (T n).log.len) :
    (T n).log.writerBefore r j =
      lastBefore (fun i => (instAt imem (Nat.nth (WritesAt imem) i)).dec.rd = r) j := by
  refine lastBefore_congr ?_
  intro i hi
  have hlt : i < (T n).log.accepted.length := Nat.lt_of_lt_of_le hi hj
  have ha : (T n).log.accepted[i]? = some (T n).log.accepted[i] := List.getElem?_eq_getElem hlt
  rw [Log.writes_iff ha, (h.accepted_at_writer n ha).2]

theorem mirrors (n : ℕ) : Mirrors imem init (SeqState.atWriter imem init) (T n) where
  id := by
    intro j a ha
    rw [(h.accepted_at_writer n ha).2, SeqState.atWriter, SeqState.pc_after]
    rfl
  wrReg := by
    intro j hj
    rw [SeqState.atWriter, SeqState.dec_after]
    exact (SeqState.writesAt_nth imem (Nat.lt_of_lt_of_le hj (h.len_le_writers n))).1
  regs := by
    intro j r hj
    have hcount := (SeqState.writesAt_nth imem
      (Nat.lt_of_lt_of_le hj (h.len_le_writers n))).2
    have hregs := SeqState.regs_after_writers imem init r (Nat.nth (WritesAt imem) j)
    rw [hcount, ← h.writerBefore_eq n r hj.le] at hregs
    exact hregs

/-! ### Runs without false calls -/

/-- As long as no operand is called by an idle latch, the core computes what the machine does. -/
theorem computes (hp : ∀ n e, (T n).core.hx.WritesEntry e → (T n).Pending)
    (h0 : Operands init (T 0)) (hv0 : Computes imem (SeqState.atWriter imem init) (T 0)) {n : ℕ}
    (hc : ∀ m, m < n → (T m).NoFalseCall) :
    Operands init (T n) ∧ Computes imem (SeqState.atWriter imem init) (T n) := by
  induction n with
  | zero => exact ⟨h0, hv0⟩
  | succ n ih =>
    obtain ⟨hop, hv⟩ := ih fun m hm => hc m (by omega)
    obtain ⟨d, hd⟩ := h.next n
    rw [hd]
    exact ⟨hop.step (h.kept n) (h.one n) (hp n) (hc n (Nat.lt_succ_self n)),
      hv.step (h.mirrors n) hop (h.kept n) (h.one n)⟩

/-- What commits is in front of the first load or jump. -/
theorem places_before_stop (n : ℕ) (ho : OnlyAluRuns (T n)) :
    (List.range (T n).log.com).map (Nat.nth (WritesAt imem)) <+:
      ((List.range (n - 3)).takeWhile fun k => !decide (instAt imem k).dec.Stops).filter
        fun k => decide (WritesAt imem k) := by
  have hcom : (T n).log.com ≤ (T n).log.len :=
    Nat.le_trans (h.kept n).acct.com_le (h.kept n).acct.written_le
  refine prefix_filter_takeWhile (fun k hk => ?_) ?_ ?_
  · exact decide_eq_true (of_decide_eq_true hk).1
  · have hle : (T n).log.com ≤ Nat.count (WritesAt imem) (n - 3) := by
      have hlen := Nat.le_trans hcom (h.len_le_writers n)
      rwa [SeqState.writers_eq, List.length_map, List.length_range] at hlen
    rw [filter_range_eq_map_nth]
    refine List.IsPrefix.map _ ?_
    rw [← Nat.min_eq_left hle, ← List.take_range]
    exact List.take_prefix _ _
  · intro k hk
    obtain ⟨j, hj, rfl⟩ := List.mem_map.mp hk
    have hj' := List.mem_range.mp hj
    have ha : (T n).log.accepted[j]? = some _ :=
      List.getElem?_eq_getElem (Nat.lt_of_lt_of_le hj' hcom)
    rw [decide_eq_false_iff_not, ← (h.accepted_at_writer n ha).2]
    exact fun hs => hs.2 (ho.result j ((h.kept n).acct.done j hj') _ ha)

theorem shown_of_computes (hd0 : (T 0).core.hx.debug = none) {n : ℕ} (ho : OnlyAluRuns (T n))
    (hv : ∀ m, m < n → Computes imem (SeqState.atWriter imem init) (T m)) :
    (List.range (n + 1)).filterMap (fun m => (T m).core.hx.debug) <+:
      SeqState.shownBeforeStop imem init (n - 3) := by
  have hpre := (h.places_before_stop n ho).map fun k => (SeqState.after imem init k).retire imem
  rw [List.map_map] at hpre
  rw [h.retired_eq (fun m _ => h.mirrors m) hv hd0]
  exact hpre

theorem mem_of_computes (h0 : (T 0).core.hx.dp.arf.mem = init) {n k : ℕ}
    (hv : ∀ m, m ≤ n → Computes imem (SeqState.atWriter imem init) (T m))
    (hk : (writers imem k).length = (T n).log.com) :
    (T n).core.hx.dp.arf.mem = (SeqState.after imem init k).regs := by
  funext r
  have hle : (T n).log.com ≤ (T n).log.len :=
    Nat.le_trans (h.kept n).acct.com_le (h.kept n).acct.written_le
  rw [SeqState.writers_eq, List.length_map, List.length_range] at hk
  have hregs := SeqState.regs_after_writers imem init r k
  rw [hk, ← h.writerBefore_eq n r hle] at hregs
  exact (h.mem_eq h0 hv r).trans hregs.symm

/-! ### Where there are none -/

/-- A false call would be an unsound wakeup. -/
theorem noFalseCall_of_wakeupSound {n : ℕ} (hw : WakeupSound (fun n => (T n).core.hx) n) :
    (T n).NoFalseCall := by
  obtain ⟨d, hd⟩ := h.next n
  have hcall : ∀ e k, (T n).core.hx.InUse e → (T n).Called ((T n).core.hx.watched e k) := by
    intro e k hu hv htag
    have hvalid : ((T (n + 1)).core.hx.entrySlot e k).valid = true := by
      rw [hd, Traced.entrySlot_step (h.one n)]
      simp [sourceManager, ExeResults.hit, HeliosX.exeResults, htag]
    have hwe := (hw e k hu hv hvalid).1.1
    beta_reduce at hwe
    rwa [(h.kept n).latched.rrfWe] at hwe
  constructor
  · intro e k hb _
    have hslot := hcall e k (Or.inl hb)
    rwa [HeliosX.watched, if_neg fun hw => Traced.not_busy_of_writes hw hb] at hslot
  · intro e k hw _
    have hreg := hcall e k (Or.inr hw)
    rwa [HeliosX.watched, if_pos hw] at hreg

theorem freed (h0 : Freed (T 0)) (n : ℕ) : Freed (T n) := by
  induction n with
  | zero => exact h0
  | succ n ih =>
    obtain ⟨d, hd⟩ := h.next n
    rw [hd]
    exact ih.step (h.one n) (h.kept n).station (h.kept n).laps (h.kept n).acct

/-- In the first lap no two instructions have had the same tag. -/
theorem noFalseCall_of_len_le (hp : ∀ n e, (T n).core.hx.WritesEntry e → (T n).Pending)
    (h0 : Freed (T 0)) {n : ℕ} (hlen : (T n).log.len ≤ 63) : (T n).NoFalseCall := by
  refine Traced.Silent.noFalseCall ?_ (h.kept n) (hp n)
  cases n with
  | zero =>
    intro _ p hlt
    rw [h.start] at hlt
    cases hlt
  | succ n =>
    have hfr := h.freed h0 n
    obtain ⟨d, hd⟩ := h.next n
    rw [hd] at hlen ⊢
    exact hfr.silent_step (h.kept n) (h.one n) fun p hlt _ _ => by omega

end AnyTrace

/-- In the first `N` cycles the core does what the sequential machine does with the register-writing
    words in front of the first load or jump. -/
structure Core.Refines (imem : Word → Word) (dmem : ℕ → Word) (s : HeliosX) (N : ℕ) : Prop where
  shown : retired imem dmem s N <+: SeqState.shownBeforeStop imem s.dp.arf.mem (N - 4)
  /-- The register file is the one behind as many words that write a register. -/
  regs : ∀ n k, n < N → (writers imem k).length = (retired imem dmem s (n + 1)).length →
    (cycle imem dmem s n).hx.dp.arf.mem = (SeqState.after imem s.dp.arf.mem k).regs

namespace Core
variable {imem : Word → Word} {s : HeliosX}

theorem refines_of_noFalseCall (hs : s.AfterReset) (dmem : ℕ → Word) {N : ℕ}
    (hc : ∀ n, n + 1 < N → (Traced.cycle imem dmem s n).NoFalseCall) : Refines imem dmem s N := by
  have h := AnyTrace.cycle imem hs dmem
  have hv : ∀ n, n < N →
      Computes imem (SeqState.atWriter imem s.dp.arf.mem) (Traced.cycle imem dmem s n) :=
    fun n hn => (h.computes (Traced.pending_cycle imem hs dmem) (Operands.start hs) (Computes.start s)
      fun m hm => hc m (by omega)).2
  constructor
  · cases N with
    | zero => exact List.nil_prefix
    | succ n =>
      have hpre := h.shown_of_computes (debug_start hs) (Traced.cycle_any imem hs dmem n).2.2
        fun m hm => hv m (by omega)
      simp only [Traced.core_cycle] at hpre
      exact hpre
  · intro n k hn hk
    have hret := h.retired_eq (n := n) (fun m _ => h.mirrors m) (fun m hm => hv m (by omega))
      (debug_start hs)
    simp only [Traced.core_cycle] at hret
    rw [retired, hret, List.length_map, List.length_range] at hk
    rw [← Traced.core_cycle]
    exact h.mem_of_computes rfl (fun m hm => hv m (by omega)) hk

/-- Wakeup is all that can go wrong: if it is sound in the first `N` cycles of a program, whatever the
    program is, the core does what the sequential machine does. -/
theorem refines_of_wakeupSound (hs : s.AfterReset) (dmem : ℕ → Word) {N : ℕ}
    (hw : ∀ n, n + 1 < N → WakeupSound (fun n => (cycle imem dmem s n).hx) n) :
    Refines imem dmem s N := by
  refine refines_of_noFalseCall hs dmem fun n hn => ?_
  refine (AnyTrace.cycle imem hs dmem).noFalseCall_of_wakeupSound ?_
  simp only [Traced.core_cycle]
  exact hw n hn

/-- `addi x1, x1, 1` with a fence behind each. -/
def fencedChain : Word → Word := fun a => if a.getLsbD 2 then 0x0000000f else 0x00108093

theorem aluNop_fencedChain : AluNopProgram fencedChain := by
  intro a
  rw [fencedChain]
  split_ifs
  · exact Or.inr (by decide)
  · exact Or.inl (by decide)

theorem refines_of_wakeupSound_fencedChain :
    Refines fencedChain (fun _ => 0) HeliosX.ofReset 20 := by
  have hidle : ∀ m, m < 20 →
      let t := Traced.cycle fencedChain (fun _ => 0) HeliosX.ofReset m
      t.core.hx.sw.exeAluIssue = false →
        ∀ j, j < t.log.len → t.Unissued j → t.core.hx.sw.exeAluRrfTag ≠ t.log.tagAt j := by
    decide +kernel
  refine refines_of_wakeupSound HeliosX.afterReset_ofReset (fun _ => 0) fun n hn => ?_
  have h := Trace.cycle aluNop_fencedChain HeliosX.afterReset_ofReset (fun _ => 0)
  have hw := h.wakeupSound (n := n) fun m hm hi j hj hu _ => hidle m (by omega) hi j hj hu
  simp only [Traced.core_cycle] at hw
  exact hw

/-- So it does in the first lap, until 63 words that write a register have come by. -/
theorem refines_first_lap (hs : s.AfterReset) (dmem : ℕ → Word) {N : ℕ}
    (hN : (writers imem (N - 4)).length ≤ 63) : Refines imem dmem s N := by
  refine refines_of_noFalseCall hs dmem fun n hn => ?_
  have h := AnyTrace.cycle imem hs dmem
  refine h.noFalseCall_of_len_le (Traced.pending_cycle imem hs dmem) (Freed.start hs) ?_
  have hle := (writers_mono imem (show n - 3 ≤ N - 4 by omega)).length_le
  have := h.len_le_writers n
  omega

/-- 60 cycles of `storeThenJump` are within the first lap. -/
theorem refines_first_lap_storeThenJump :
    Refines storeThenJump (fun _ => 0) HeliosX.ofReset 60 :=
  refines_first_lap HeliosX.afterReset_ofReset (fun _ => 0) (by decide +kernel)

/-- In the second lap the increments of `staleTag` go wrong: 15 comes behind 22. -/
example : (cycle staleTag (fun _ => 0) HeliosX.ofReset 99).hx.debug.map Retired.regWdata = some 22 ∧
    (cycle staleTag (fun _ => 0) HeliosX.ofReset 100).hx.debug.map Retired.regWdata = some 15 := by
  decide +kernel

end Core

end HeliosXCore
