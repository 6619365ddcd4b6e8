import HeliosXCore.Core.Trace

/-! The stream of instructions. On a program of ALU instructions the `j`-th accepted instruction is
    the `j`-th word, one is accepted in every cycle from cycle 3 on, and the first stall is the end of
    the stream. -/

namespace HeliosXCore
open Rtl

/-- The `j`-th word of the program, decoded. -/
def instAt (imem : Word → Word) (j : ℕ) : IDUnit :=
  IDUnit.ofInst (imem (Fetch.wordAddr j)) (Fetch.wordAddr j)

theorem AluProgram.wrReg {imem : Word → Word} (h : AluProgram imem) (j : ℕ) :
    (instAt imem j).dec.wrReg = true := (h _).1

/-- The front end of the core. -/
def Core.fetch (c : Core) : FetchSys := ⟨⟨c.hx.ifUnit, c.hx.pcT, c.hx.pcId, c.hx.idUnit⟩, c.idata⟩

/-- No instruction is lost. -/
def Traced.NoDrop (t : Traced) : Prop := ∀ i, ¬ t.Dropped i

theorem Traced.NoDrop.not_frozen {t : Traced} (hn : t.NoDrop) : ¬ t.Frozen := fun hf => hn _ hf.2

/-- The traced core on any program, with at most one dispatch in a cycle. -/
structure AnyTrace (imem : Word → Word) (init : RegSel → Word) (T : ℕ → Traced) : Prop where
  next : ∀ n, ∃ d, T (n + 1) = (T n).step imem d
  kept : ∀ n, Kept init (T n)
  one : ∀ n, (T n).core.OneAtMost
  start : (T 0).log = Log.empty
  front : ∃ f : Fetch, f.AfterReset ∧
    ∀ n, (T n).core.fetch = FetchSys.stateAt imem f (fun m => (T m).core.hx.stall) n

/-- In a run the front end sees nothing of the core but the stalls. -/
theorem Traced.front_cycle (imem : Word → Word) (dmem : ℕ → Word) {s : HeliosX}
    (hs : s.AfterReset) : ∃ f : Fetch, f.AfterReset ∧
      ∀ n, (Traced.cycle imem dmem s n).core.fetch = FetchSys.stateAt imem f
        (fun m => (Traced.cycle imem dmem s m).core.hx.stall) n := by
  refine ⟨(Core.start s).fetch.hw, ?_, ?_⟩
  · obtain ⟨s0, i1, d1, i2, d2, rfl⟩ := hs
    exact ⟨⟨s0.ifUnit, s0.pcT, s0.pcId, s0.idUnit⟩, s0.stall, _, i1, i2, rfl⟩
  · intro n
    induction n with
    | zero => rfl
    | succ n ih =>
      rw [Fetch.stateAt_succ, ← ih]
      rfl

namespace AnyTrace
variable {imem : Word → Word} {init : RegSel → Word} {T : ℕ → Traced} (h : AnyTrace imem init T)
include h

theorem frozen_mono {m n : ℕ} (hmn : m ≤ n) (hf : (T m).Frozen) : (T n).Frozen := by
  induction n, hmn using Nat.le_induction with
  | base => exact hf
  | succ n _ ih =>
    obtain ⟨d, hd⟩ := h.next n
    rw [hd]
    exact ih.step (h.one n) (h.kept n).acct

/-- A stall is the end: it finds the ring full behind a lost instruction. -/
theorem no_stall_of_not_frozen {n : ℕ} (hn : ¬ (T n).Frozen) :
    ∀ m, m ≤ n → (T m).core.hx.stall = false := by
  intro m hm
  cases hs : (T m).core.hx.stall with
  | false => rfl
  | true =>
    have hfr := (Traced.frozen_of_stall (h.kept m).bound (h.kept m).acct hs).1
    exact absurd (h.frozen_mono hm hfr) hn

/-- What is in rename while there was no stall. -/
theorem idUnit_at {n : ℕ} (hns : ∀ m, m < n → (T m).core.hx.stall = false) :
    (n < 3 → (T n).core.hx.idUnit.dec.wrReg = false) ∧
      (3 ≤ n → (T n).core.hx.idUnit = instAt imem (n - 3)) := by
  obtain ⟨f, hf, hfetch⟩ := h.front
  have hid : (T n).core.hx.idUnit =
      (FetchSys.stateAt imem f (fun m => (T m).core.hx.stall) n).hw.idUnit := by
    rw [← hfetch]
    rfl
  rw [hid]
  refine ⟨fun hlt => Fetch.idUnit_at_start hf n hlt, ?_⟩
  intro hge
  obtain ⟨k, rfl⟩ : ∃ k, n = k + 3 := ⟨n - 3, by omega⟩
  exact Fetch.idUnit_of_no_stall hf k hns

end AnyTrace

/-- The traced core on a program of ALU instructions. -/
structure AluTrace (imem : Word → Word) (init : RegSel → Word) (T : ℕ → Traced) : Prop
    extends Trace imem init T where
  alu : AluProgram imem
  front : ∃ f : Fetch, f.AfterReset ∧
    ∀ n, (T n).core.fetch = FetchSys.stateAt imem f (fun m => (T m).core.hx.stall) n

theorem AluTrace.cycle {imem : Word → Word} (himem : AluProgram imem) {s : HeliosX}
    (hs : s.AfterReset) (dmem : ℕ → Word) :
    AluTrace imem s.dp.arf.mem (Traced.cycle imem dmem s) :=
  ⟨Trace.cycle himem.aluNop hs dmem, himem, Traced.front_cycle imem dmem hs⟩

namespace AluTrace
variable {imem : Word → Word} {init : RegSel → Word} {T : ℕ → Traced} (h : AluTrace imem init T)
include h

theorem any : AnyTrace imem init T :=
  ⟨h.next, fun n => (h.inv n).kept, fun n => (h.inv n).front.reqAluNum_ne_two, h.start, h.front⟩

theorem frozen_mono {m n : ℕ} (hmn : m ≤ n) (hf : (T m).Frozen) : (T n).Frozen :=
  h.any.frozen_mono hmn hf

theorem no_stall_of_not_frozen {n : ℕ} (hn : ¬ (T n).Frozen) :
    ∀ m, m ≤ n → (T m).core.hx.stall = false := h.any.no_stall_of_not_frozen hn

theorem idUnit_at {n : ℕ} (hns : ∀ m, m < n → (T m).core.hx.stall = false) :
    (n < 3 → (T n).core.hx.idUnit.dec.wrReg = false) ∧
      (3 ≤ n → (T n).core.hx.idUnit = instAt imem (n - 3)) := h.any.idUnit_at hns

/-- While there is no stall, one instruction is accepted in every cycle from cycle 3 on. -/
theorem len_at {n : ℕ} (hns : ∀ m, m < n → (T m).core.hx.stall = false) :
    (T n).log.len = n - 3 := by
  induction n with
  | zero => rw [h.start]; rfl
  | succ n ih =>
    have hns' : ∀ m, m < n → (T m).core.hx.stall = false := fun m hm => hns m (by omega)
    have hid := h.idUnit_at hns'
    have hst : (T n).sys.stall (T n).event = false := hns n (Nat.lt_succ_self n)
    have hacc : (T n).sys.accepts (T n).event = (T n).core.hx.idUnit.dec.wrReg := by
      rw [Sys.accepts, hst, Bool.not_false, Bool.and_true]
      rfl
    rw [h.len_succ, ih hns', hacc]
    rcases Nat.lt_or_ge n 3 with hlt | hge
    · rw [hid.1 hlt, Bool.toNat_false]
      omega
    · rw [hid.2 hge, h.alu.wrReg, Bool.toNat_true]
      omega

/-- The accepted instructions are the words of the program in order. -/
theorem accepted_eq (n : ℕ) {j : ℕ} {a : Accepted} (ha : (T n).log.accepted[j]? = some a) :
    a.id = instAt imem j := by
  induction n with
  | zero =>
    rw [h.start] at ha
    cases ha
  | succ n ih =>
    obtain ⟨d, hd⟩ := h.next n
    have hjl : j < (T (n + 1)).log.len := (List.getElem?_eq_some_iff.mp ha).1
    rw [hd] at ha
    rcases Nat.lt_or_ge j (T n).log.len with hlt | hge
    · exact ih ((Sys.accepted_step_of_lt (T n).event (T n).sys hlt).symm.trans ha)
    · have hacc := h.accepts_of_len_lt (Nat.lt_of_le_of_lt hge hjl)
      have hlen := h.len_succ_of_accepts hacc
      obtain rfl : j = (T n).log.len := by omega
      have hnew := Sys.accepted_step_len (T n).event (T n).sys
      rw [if_pos (Traced.accepts_iff.mpr hacc)] at hnew
      obtain ⟨hwr, hst⟩ := hacc
      -- a stall before this cycle would have frozen the ring, and nothing would be accepted
      have hnf : ¬ (T n).Frozen := by
        intro hfr
        rw [hfr.stall (h.inv n).acct, hwr] at hst
        cases hst
      have hns := h.no_stall_of_not_frozen hnf
      have hid := h.idUnit_at (n := n) fun m hm => hns m (Nat.le_of_lt hm)
      have hlenn := h.len_at (n := n) fun m hm => hns m (Nat.le_of_lt hm)
      have hge3 : 3 ≤ n := by
        by_contra hlt
        rw [hid.1 (by omega)] at hwr
        cases hwr
      have ha' := Option.some.inj (ha.symm.trans hnew)
      rw [ha', hlenn, ← hid.2 hge3]
      rfl

/-- Before anything is lost an instruction is pending in every cycle from cycle 4 on. -/
theorem written_at_noDrop {n : ℕ} (hn : (T n).NoDrop) : (T n).log.written = n - 4 := by
  have hns := h.no_stall_of_not_frozen hn.not_frozen
  cases n with
  | zero => rw [h.start]; rfl
  | succ n =>
    rw [h.written_succ, h.len_at fun m hm => hns m (by omega)]
    rfl

theorem pending_at_noDrop {n : ℕ} (hn : (T n).NoDrop) (h4 : 4 ≤ n) : (T n).Pending := by
  have hns := h.no_stall_of_not_frozen hn.not_frozen
  have hlen := h.len_at (n := n) fun m hm => hns m (Nat.le_of_lt hm)
  have hw := h.written_at_noDrop hn
  exact Traced.pending_of_lt (h.inv n).acct (by omega)

end AluTrace

end HeliosXCore
