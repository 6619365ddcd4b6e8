import HeliosXCore.Core.Refine

/-! Any program at all. The core has no way back for the results of loads and jumps: the first of them
    ends what commits. Stores and branches pass like no-ops, and data memory is never written. -/

namespace HeliosXCore
open Rtl

/-! ### Instructions that nothing finishes -/

/-- It writes a register, but is not sent to the ALU. -/
def Decoded.Stops (d : Decoded) : Prop := d.wrReg = true ∧ d.rsEnt ≠ RsEnt.alu

instance : DecidablePred Decoded.Stops := fun _ => inferInstanceAs (Decidable (_ ∧ _))

/-- These are the loads and the two jumps. -/
theorem stops_iff_opcode (w : Word) :
    (Decoder.decode w).Stops ↔ Decoder.opcode w = Opcode.load ∨ Decoder.opcode w = Opcode.jal ∨
      Decoder.opcode w = Opcode.jalr := by
  constructor
  · intro h
    by_contra hno
    push Not at hno
    obtain ⟨h1, h2, h3⟩ := hno
    obtain ⟨hw, he⟩ := h
    simp only [Decoder.decode, Decoder.byOpcode, h1, h2, h3, if_false] at hw he
    split_ifs at hw he <;> exact he rfl
  · intro h
    rcases h with h | h | h <;>
      simp [Decoded.Stops, Decoder.decode, Decoder.byOpcode, h, Opcode.load, Opcode.store,
        Opcode.jal, Opcode.jalr, RsEnt.ldst, RsEnt.jal, RsEnt.jalr, RsEnt.branch, RsEnt.alu]

/-- What goes to the ALU writes a register. -/
theorem wrReg_of_alu {w : Word} (h : (Decoder.decode w).rsEnt = RsEnt.alu) :
    (Decoder.decode w).wrReg = true := by
  simp only [Decoder.decode, Decoder.byOpcode] at h ⊢
  split_ifs at h ⊢ <;> first | rfl | exact absurd h (by decide)

/-- The register-writing instructions among the first `m` words. -/
def writers (imem : Word → Word) (m : ℕ) : List IDUnit :=
  ((List.range m).map (instAt imem)).filter fun i => i.dec.wrReg

/-- Those in front of the first load or jump. -/
def beforeStop (imem : Word → Word) (m : ℕ) : List IDUnit :=
  (((List.range m).map (instAt imem)).takeWhile fun i => !decide i.dec.Stops).filter
    fun i => i.dec.wrReg

theorem writers_succ (imem : Word → Word) (m : ℕ) :
    writers imem (m + 1) =
      writers imem m ++ if (instAt imem m).dec.wrReg then [instAt imem m] else [] := by
  rw [writers, List.range_succ, List.map_append, List.filter_append, List.map_singleton,
    List.filter_singleton, Bool.cond_eq_ite]
  rfl

theorem writers_mono (imem : Word → Word) {m n : ℕ} (h : m ≤ n) :
    writers imem m <+: writers imem n := by
  induction n, h using Nat.le_induction with
  | base => exact List.prefix_rfl
  | succ n _ ih =>
    rw [writers_succ]
    exact ih.trans (List.prefix_append _ _)

/-! ### The front end -/

/-- What is sent to the ALU has a destination, and the request belongs to the instruction. -/
structure FrontAny (c : Core) : Prop where
  idUnit : c.hx.idUnit.dec.rsEnt = RsEnt.alu → c.hx.idUnit.dec.wrReg = true
  idReg : c.hx.dp.idReg.dec.rsEnt = RsEnt.alu → c.hx.dp.idReg.dec.wrReg = true
  dstEn : c.hx.dp.dstEnReg = c.hx.dp.idReg.dec.wrReg
  req : c.hx.dp.reqReg = RSRequestGen.gen c.hx.dp.idReg.dec.rsEnt 0

namespace FrontAny
variable {c : Core} (h : FrontAny c)
include h

theorem step (imem : Word → Word) (d : Word) : FrontAny (c.step imem d) := by
  refine ⟨?_, h.idUnit, rfl, rfl⟩
  change (IDUnit.next false false c.hx.stall c.hx.ifUnit.inst c.hx.pcId c.hx.idUnit).dec.rsEnt = _ →
    (IDUnit.next false false c.hx.stall c.hx.ifUnit.inst c.hx.pcId c.hx.idUnit).dec.wrReg = true
  cases c.hx.stall
  · exact wrReg_of_alu
  · exact h.idUnit

theorem oneAtMost : c.OneAtMost := by
  have hgen : ∀ r : BitVec 3, (RSRequestGen.gen r 0).reqAlunum ≠ 2 := by decide
  change c.hx.dp.reqReg.reqAlunum ≠ 2
  rw [h.req]
  exact hgen _

/-- Only an instruction for the ALU is dispatched. -/
theorem alu_of_req (hreq : c.hx.swPorts.reqAluNum ≥ 1) : c.hx.dp.idReg.dec.rsEnt = RsEnt.alu := by
  have hgen : ∀ r : BitVec 3, (RSRequestGen.gen r 0).reqAlunum ≥ 1 → r = RsEnt.alu := by decide
  change c.hx.dp.reqReg.reqAlunum ≥ 1 at hreq
  rw [h.req] at hreq
  exact hgen _ hreq

theorem dstEn_of_req (hreq : c.hx.swPorts.reqAluNum ≥ 1) : c.hx.dp.dstEnReg = true := by
  rw [h.dstEn]
  exact h.idReg (h.alu_of_req hreq)

end FrontAny

theorem FrontAny.start {s : HeliosX} (hs : s.AfterReset) : FrontAny (Core.start s) := by
  have hne : (0 : BitVec 3) ≠ RsEnt.alu := by decide
  obtain ⟨s0, i1, d1, i2, d2, rfl⟩ := hs
  exact ⟨fun h => absurd h hne, fun h => absurd h hne, rfl, rfl⟩

/-! ### Only ALU instructions get results -/

namespace Traced

/-- If instruction `j` was accepted, it is for the ALU. -/
def AluAt (t : Traced) (j : ℕ) : Prop :=
  ∀ a, t.log.accepted[j]? = some a → a.id.dec.rsEnt = RsEnt.alu

variable {t : Traced} {imem : Word → Word} {d : Word}

theorem AluAt.step {j : ℕ} (h : t.AluAt j) (hj : j < t.log.len) : (t.step imem d).AluAt j := by
  intro a ha
  rw [accepted_step hj] at ha
  exact h a ha

end Traced

/-- What is in an entry or in the latch, or has a result, is for the ALU. -/
structure OnlyAluRuns (t : Traced) : Prop where
  busy : ∀ e, t.core.hx.Busy e → t.AluAt (t.idx e)
  latch : ∀ j, t.exIdx = some j → t.AluAt j
  result : ∀ j, (t.log.result j).isSome → t.AluAt j

namespace OnlyAluRuns
variable {init : RegSel → Word} {t : Traced} {imem : Word → Word} {d : Word}

theorem start {s : HeliosX} (hs : s.AfterReset) : OnlyAluRuns (Traced.start s) := by
  refine ⟨fun e hb => ?_, fun j hj => (by cases hj), fun j hj => (by cases hj)⟩
  have := ((Station.start hs).live e hb).1
  cases this

theorem step (h : OnlyAluRuns t) (hk : Kept init t) (hf : FrontAny t.core)
    (hp : ∀ e, t.core.hx.WritesEntry e → t.Pending) : OnlyAluRuns (t.step imem d) where
  busy := by
    intro e hb
    rcases Traced.busy_step_cases hf.oneAtMost hb with ⟨hw, hidx, -⟩ | ⟨hold, -, hidx, -⟩
    · have hpe := hp e hw
      have hlen := hpe.len_eq hk.acct
      have hreq : t.core.hx.swPorts.reqAluNum ≥ 1 := by
        have hwe := hw.1
        simp only [SwUnit.aluWe1, Bool.and_eq_true, decide_eq_true_iff] at hwe
        exact hwe.1.2
      rw [hidx]
      refine Traced.AluAt.step ?_ (by omega)
      intro a ha
      rw [hpe.id_eq hk.acct ha]
      exact hf.alu_of_req hreq
    · have hlt := (hk.station.live e hold).1
      have hwl := Traced.written_le hk.acct
      rw [hidx]
      exact (h.busy e hold).step (by omega)
  latch := by
    intro j hj
    obtain ⟨e, hi, rfl⟩ := Traced.exIdx_step_eq_some.mp hj
    have hb := Traced.busy_of_issues hi
    have hlt := (hk.station.live e hb).1
    have hwl := Traced.written_le hk.acct
    exact (h.busy e hb).step (by omega)
  result := by
    intro j hj
    have hlt : j < t.log.len := by
      by_contra hge
      have hwl := Traced.written_le hk.acct
      rw [Traced.result_step] at hj
      split at hj
      · rename_i hex
        have := (hk.latched.live j hex).1
        omega
      · rw [Traced.todo hk.acct (by omega)] at hj
        cases hj
    refine Traced.AluAt.step ?_ hlt
    rw [Traced.result_step] at hj
    split at hj
    · rename_i hex
      exact h.latch j hex
    · exact h.result j hj

end OnlyAluRuns

/-! ### Runs -/

/-- Nothing is accepted and nothing commits in a frozen core. -/
theorem Traced.Frozen.log_step {t : Traced} {imem : Word → Word} {d : Word} (h : t.Frozen)
    (ha : Acct t.sys) : (t.step imem d).log.accepted = t.log.accepted ∧
      (t.step imem d).log.commits = t.log.commits := by
  have hacc : t.sys.accepts t.event = false := by
    rw [Sys.accepts, ← Traced.stall_eq, h.stall ha]
    exact Bool.and_not_self _
  have hcom : t.sys.hw.rob.comnum = false := h.comnum ha
  rw [Traced.log_step]
  simp only [Sys.step, hacc, hcom, Bool.false_eq_true, if_false, List.append_nil]
  exact ⟨rfl, rfl⟩

theorem Traced.cycle_any (imem : Word → Word) {s : HeliosX} (hs : s.AfterReset) (dmem : ℕ → Word)
    (n : ℕ) : Kept s.dp.arf.mem (Traced.cycle imem dmem s n) ∧
      FrontAny (Traced.cycle imem dmem s n).core ∧ OnlyAluRuns (Traced.cycle imem dmem s n) := by
  induction n with
  | zero => exact ⟨Kept.start hs, FrontAny.start hs, OnlyAluRuns.start hs⟩
  | succ n ih =>
    obtain ⟨hk, hf, ho⟩ := ih
    have hp : ∀ e, (Traced.cycle imem dmem s n).core.hx.WritesEntry e →
        (Traced.cycle imem dmem s n).Pending := fun _ hw => hk.pending_of_writes hf.dstEn_of_req hw
    rw [Traced.cycle_succ]
    exact ⟨hk.step hf.oneAtMost hp imem _, hf.step imem _, ho.step hk hf hp⟩

theorem Traced.pending_cycle (imem : Word → Word) {s : HeliosX} (hs : s.AfterReset) (dmem : ℕ → Word)
    (n : ℕ) (e : BitVec 3) (hw : (Traced.cycle imem dmem s n).core.hx.WritesEntry e) :
    (Traced.cycle imem dmem s n).Pending :=
  (Traced.cycle_any imem hs dmem n).1.pending_of_writes
    (Traced.cycle_any imem hs dmem n).2.1.dstEn_of_req hw

theorem AnyTrace.cycle (imem : Word → Word) {s : HeliosX} (hs : s.AfterReset) (dmem : ℕ → Word) :
    AnyTrace imem s.dp.arf.mem (Traced.cycle imem dmem s) where
  next n := ⟨dmem n, rfl⟩
  kept n := (Traced.cycle_any imem hs dmem n).1
  one n := (Traced.cycle_any imem hs dmem n).2.1.oneAtMost
  start := rfl
  front := Traced.front_cycle imem dmem hs

namespace AnyTrace
variable {imem : Word → Word} {init : RegSel → Word} {T : ℕ → Traced} (h : AnyTrace imem init T)
include h

/-- Until the first stall every register-writing word of the program is accepted, in order. -/
theorem accepted_eq {n : ℕ} (hns : ∀ m, m < n → (T m).core.hx.stall = false) :
    (T n).log.accepted.map Accepted.id = writers imem (n - 3) := by
  induction n with
  | zero =>
    rw [h.start]
    rfl
  | succ n ih =>
    have hns' : ∀ m, m < n → (T m).core.hx.stall = false := fun m hm => hns m (by omega)
    have hid := h.idUnit_at hns'
    have hacc : (T n).sys.accepts (T n).event = (T n).core.hx.idUnit.dec.wrReg := by
      rw [Sys.accepts, ← Traced.stall_eq, hns n (Nat.lt_succ_self n), Bool.not_false, Bool.and_true]
      rfl
    obtain ⟨d, hd⟩ := h.next n
    have hstep : (T (n + 1)).log.accepted.map Accepted.id = (T n).log.accepted.map Accepted.id ++
        if (T n).core.hx.idUnit.dec.wrReg then [(T n).core.hx.idUnit] else [] := by
      rw [hd, Traced.log_step, ← hacc]
      simp only [Sys.step, List.map_append]
      congr 1
      split <;> rfl
    rw [hstep, ih hns']
    rcases Nat.lt_or_ge n 3 with hlt | hge
    · rw [hid.1 hlt, show n + 1 - 3 = n - 3 by omega]
      exact List.append_nil _
    · rw [hid.2 hge, show n + 1 - 3 = n - 3 + 1 by omega, writers_succ]

/-- What was accepted so far is a prefix of the register-writing words. -/
theorem accepted_first (n : ℕ) :
    (T n).log.accepted.map Accepted.id <+: writers imem (n - 3) := by
  induction n with
  | zero =>
    rw [h.start]
    exact List.nil_prefix
  | succ n ih =>
    by_cases hfr : (T n).Frozen
    · obtain ⟨d, hd⟩ := h.next n
      rw [hd, (hfr.log_step (h.kept n).acct).1]
      exact ih.trans (writers_mono imem (by omega))
    · have hns := h.no_stall_of_not_frozen hfr
      rw [h.accepted_eq fun m hm => hns m (by omega)]

/-- The commits are the first instructions that were accepted. -/
theorem commits_eq (n : ℕ) : (T n).log.commits =
    ((T n).log.accepted.take (T n).log.com).map fun a => (a.id.pc, a.id.dec.rd, true) := by
  induction n with
  | zero =>
    rw [h.start]
    rfl
  | succ n ih =>
    have hk := h.kept n
    obtain ⟨d, hd⟩ := h.next n
    rw [hd]
    rcases hk.phase with hfr | ⟨hst, -⟩
    · obtain ⟨hacc, hcom⟩ : ((T n).step imem d).log.accepted = _ ∧ _ := hfr.log_step hk.acct
      rw [Log.com, hcom, hacc]
      exact ih
    · exact hst.commits_step hk.acct

/-- The debug ports show the commits one cycle later. -/
theorem debug_eq (h0 : (T 0).core.hx.debug = none) (n : ℕ) :
    ((List.range (n + 1)).filterMap fun m => (T m).core.hx.debug).map
      (fun r => (r.pc, r.regId, r.regWen)) = (T n).log.commits := by
  induction n with
  | zero =>
    rw [h.start]
    simp [h0, Log.empty]
  | succ n ih =>
    obtain ⟨d, hd⟩ := h.next n
    have hlog : (T (n + 1)).log.commits = (T n).log.commits ++
        if (T n).core.hx.rob.comnum then
          [((T n).core.hx.rob.pcCom, (T n).core.hx.rob.dstArf1, (T n).core.hx.rob.arfwe1)]
        else [] := by
      rw [hd]
      rfl
    rw [List.range_succ, List.filterMap_append, List.map_append, ih, hlog, List.filterMap_cons,
      h.debug_succ]
    cases (T n).core.hx.rob.comnum <;> rfl

/-- Every instruction that has committed is for the ALU. -/
theorem alu_of_committed {n : ℕ} (ho : OnlyAluRuns (T n)) {a : Accepted}
    (ha : a ∈ (T n).log.accepted.take (T n).log.com) : a.id.dec.rsEnt = RsEnt.alu := by
  obtain ⟨j, hj, rfl⟩ := List.mem_take_iff_getElem.mp ha
  have hlt : j < (T n).log.com := Nat.lt_of_lt_of_le hj (Nat.min_le_left _ _)
  exact ho.result j ((h.kept n).acct.done j hlt) _ (List.getElem?_eq_getElem _)

/-- The commits are a prefix of what comes before the first load or jump. -/
theorem commits_first (n : ℕ) (ho : OnlyAluRuns (T n)) :
    (T n).log.commits <+:
      (beforeStop imem (n - 3)).map fun i => (i.pc, i.dec.rd, true) := by
  have hpre : ((T n).log.accepted.take (T n).log.com).map Accepted.id <+: writers imem (n - 3) :=
    ((List.take_prefix _ _).map _).trans (h.accepted_first n)
  have hstop : ∀ i ∈ ((T n).log.accepted.take (T n).log.com).map Accepted.id,
      decide i.dec.Stops = false := by
    intro i hi
    obtain ⟨a, ha, rfl⟩ := List.mem_map.mp hi
    rw [decide_eq_false_iff_not]
    exact fun hs => hs.2 (h.alu_of_committed ho ha)
  have hwr : ∀ i : IDUnit, decide i.dec.Stops = true → i.dec.wrReg = true :=
    fun i hi => (of_decide_eq_true hi).1
  have hbefore := prefix_filter_takeWhile hwr hpre hstop
  have hmap := hbefore.map fun i : IDUnit => (i.pc, i.dec.rd, true)
  rw [List.map_map] at hmap
  rw [h.commits_eq]
  exact hmap

/-- From a stall on the core is stalled, and nothing commits. -/
theorem stall_from {m n : ℕ} (hmn : m ≤ n) (hst : (T m).core.hx.stall = true) :
    (T n).core.hx.stall = true ∧ (T n).core.hx.rob.comnum = false := by
  have hstep : ∀ n, (T n).core.hx.stall = true →
      (T (n + 1)).core.hx.stall = true ∧ (T n).core.hx.rob.comnum = false := by
    intro n hst
    obtain ⟨d, hd⟩ := h.next n
    have hk' := h.kept (n + 1)
    rw [hd] at hk' ⊢
    obtain ⟨hst', -, hcom⟩ := (h.kept n).stall_step (h.one n) hk' hst
    exact ⟨hst', hcom⟩
  induction n, hmn using Nat.le_induction with
  | base => exact ⟨hst, (hstep m hst).2⟩
  | succ n _ ih =>
    have hst' := (hstep n ih.1).1
    exact ⟨hst', (hstep (n + 1) hst').2⟩

/-- With a load or jump among the accepted words the commits stop there. -/
theorem com_le_of_stops {n k : ℕ} (ho : OnlyAluRuns (T n)) (hk : (instAt imem k).dec.Stops)
    (hacc : writers imem (k + 1) <+: (T n).log.accepted.map Accepted.id) :
    (T n).log.com ≤ (writers imem k).length := by
  have hget : (writers imem (k + 1))[(writers imem k).length]? = some (instAt imem k) := by
    rw [writers_succ, if_pos hk.1, List.getElem?_append_right (Nat.le_refl _), Nat.sub_self]
    rfl
  obtain ⟨rest, hrest⟩ := hacc
  have hacc' : ((T n).log.accepted.map Accepted.id)[(writers imem k).length]? =
      some (instAt imem k) := by
    rw [← hrest, List.getElem?_append_left (List.getElem?_eq_some_iff.mp hget).1, hget]
  rw [List.getElem?_map, Option.map_eq_some_iff] at hacc'
  obtain ⟨a, ha, hid⟩ := hacc'
  refine Traced.com_le_of_none (h.kept n).acct ?_
  rw [← Option.not_isSome_iff_eq_none]
  intro hres
  have halu := ho.result _ hres a ha
  rw [hid] at halu
  exact hk.2 halu

/-- Once 63 more words that write a register have arrived the ring is full. -/
theorem exists_stall {k m : ℕ} (ho : OnlyAluRuns (T (m + 3))) (hk : (instAt imem k).dec.Stops)
    (hm : (writers imem k).length + 63 < (writers imem m).length) :
    ∃ c, c < m + 3 ∧ (T c).core.hx.stall = true := by
  by_contra hno
  push Not at hno
  have hacc := h.accepted_eq (n := m + 3) fun c hc => Bool.eq_false_of_not_eq_true (hno c hc)
  rw [Nat.add_sub_cancel] at hacc
  have hkm : k + 1 ≤ m := by
    by_contra hlt
    have := (writers_mono imem (m := m) (n := k) (by omega)).length_le
    omega
  have hcom := h.com_le_of_stops ho hk (hacc ▸ writers_mono imem hkm)
  have hwin : (T (m + 3)).log.accepted.length ≤ (T (m + 3)).log.com + 63 :=
    Traced.window (h.kept (m + 3)).acct
  have hlen := congrArg List.length hacc
  rw [List.length_map] at hlen
  omega

end AnyTrace

namespace Core
variable (imem : Word → Word) {s : HeliosX}

/-- What any program commits in `N` cycles is a prefix of its register-writing words, and ends in front
    of the first load or jump. -/
theorem commits_before_stop (hs : s.AfterReset) (dmem : ℕ → Word) (N : ℕ) :
    (retired imem dmem s N).map (fun r => (r.pc, r.regId, r.regWen)) <+:
      (beforeStop imem (N - 4)).map fun i => (i.pc, i.dec.rd, true) := by
  cases N with
  | zero => exact List.nil_prefix
  | succ n =>
    have h := AnyTrace.cycle imem hs dmem
    have hpre := h.commits_first n (Traced.cycle_any imem hs dmem n).2.2
    rw [← h.debug_eq (debug_start hs) n] at hpre
    simp only [Traced.core_cycle] at hpre
    exact hpre

/-- A store as word 1, a jump as word 3, and `addi x1, x0, 0` everywhere else. -/
def storeThenJump : Word → Word := fun a =>
  if a = Fetch.wordAddr 1 then 0x00102023 else if a = Fetch.wordAddr 3 then 0x000000EF
  else 0x00000093

/-- Two instructions commit: the store leaves no trace, and the jump never finishes. -/
theorem commits_before_stop_storeThenJump :
    (retired storeThenJump (fun _ => 0) HeliosX.ofReset 20).length = 2 ∧
      (retired storeThenJump (fun _ => 0) HeliosX.ofReset 20).map
        (fun r => (r.pc, r.regId, r.regWen)) <+:
        (beforeStop storeThenJump (20 - 4)).map fun i => (i.pc, i.dec.rd, true) :=
  ⟨by decide +kernel,
    commits_before_stop storeThenJump HeliosX.afterReset_ofReset (fun _ => 0) 20⟩

/-- Behind a load or jump and 63 more words that write a register the core is stalled for good. -/
theorem stalls_behind_stop {imem} (hs : s.AfterReset) (dmem : ℕ → Word) {k m : ℕ}
    (hk : (instAt imem k).dec.Stops)
    (hm : (writers imem k).length + 63 < (writers imem m).length) {n : ℕ} (hn : m + 3 ≤ n) :
    (cycle imem dmem s n).hx.stall = true ∧ (cycle imem dmem s (n + 1)).hx.debug = none := by
  have h := AnyTrace.cycle imem hs dmem
  obtain ⟨c, hc, hst⟩ := h.exists_stall (Traced.cycle_any imem hs dmem (m + 3)).2.2 hk hm
  obtain ⟨hst', hcom⟩ := h.stall_from (n := n) (by omega) hst
  rw [Traced.core_cycle] at hst' hcom
  refine ⟨hst', ?_⟩
  change (HeliosX.next false _ _ (cycle imem dmem s n).hx).debug = none
  rw [HeliosX.debug_next, hcom]
  rfl

theorem stalls_behind_stop_storeThenJump :
    (cycle storeThenJump (fun _ => 0) HeliosX.ofReset 75).hx.stall = true ∧
      (cycle storeThenJump (fun _ => 0) HeliosX.ofReset (75 + 1)).hx.debug = none :=
  stalls_behind_stop HeliosX.afterReset_ofReset (fun _ => 0) (k := 3) (m := 72) (by decide +kernel)
    (by decide +kernel) (by omega)

end Core

end HeliosXCore
