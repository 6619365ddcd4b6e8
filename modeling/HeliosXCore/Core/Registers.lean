import HeliosXCore.Core.Progress
import HeliosXCore.Core.AnyProgram

/-! The register file. In every cycle `ARFData` holds what the sequential machine holds after the
    instructions that have committed, also when the core has come to its end. -/

namespace HeliosXCore
open Rtl

/-- An edge without a commit leaves the register file alone. -/
theorem Traced.mem_step {t : Traced} {imem : Word → Word} {d : Word}
    (hc : t.core.hx.rob.comnum = false) :
    (t.step imem d).core.hx.dp.arf.mem = t.core.hx.dp.arf.mem := by
  have hwe : t.core.hx.rob.arfwe1 = false := by
    have hc' : t.core.hx.rob.commit1 = false := hc
    rw [SingleInstROB.arfwe1, hc', Bool.and_false]
  funext r
  refine (Arf.mem_next _ _ _ _ r).trans (if_neg ?_)
  intro hcom
  have hwe' : t.core.hx.rob.arfwe1 = true := hcom.1
  rw [hwe] at hwe'
  cases hwe'

/-- Nothing that has committed is lost. -/
theorem Traced.sound_of_lt_com {t : Traced} (ha : Acct t.sys) {j : ℕ} (hj : j < t.log.com) :
    t.Sound j := by
  intro i hi hd
  have hdone := ha.done i (Nat.lt_of_le_of_lt hi hj)
  rw [show t.sys.log.result i = none from hd.2.1] at hdone
  cases hdone

/-- A register whose committed writers are accounted for holds what the youngest of them computed. -/
theorem Computes.mem_of_renamed {imem : Word → Word} {init : RegSel → Word} {S : ℕ → SeqState}
    {t : Traced} (hv : Computes imem S t) (ha : Acct t.sys) (hr : Renamed init t.sys) (r : RegSel) :
    t.core.hx.dp.arf.mem r =
      match t.log.writerBefore r t.log.com with
      | none => init r
      | some p => (S p).result imem := by
  have hmem := hr.mem r
  change match t.log.writerBefore r t.log.com with
    | none => _
    | some w => t.log.result w = some _ at hmem
  cases hp : t.log.writerBefore r t.log.com with
  | none =>
    rw [hp] at hmem
    exact hmem
  | some p =>
    rw [hp] at hmem
    exact hv.result p _ (Traced.sound_of_lt_com ha (lastBefore_lt hp).1) hmem

namespace AnyTrace
variable {imem : Word → Word} {init : RegSel → Word} {S : ℕ → SeqState} {T : ℕ → Traced}
  (h : AnyTrace imem init T)
include h

/-- A register holds what the youngest committed instruction that writes it computed. -/
theorem mem_eq (h0 : (T 0).core.hx.dp.arf.mem = init) {n : ℕ}
    (hv : ∀ m, m ≤ n → Computes imem S (T m)) (r : RegSel) : (T n).core.hx.dp.arf.mem r =
      match (T n).log.writerBefore r (T n).log.com with
      | none => init r
      | some p => (S p).result imem := by
  induction n with
  | zero =>
    rw [h0, h.start]
    rfl
  | succ n ih =>
    have hk := h.kept n
    have hcom := h.com_succ n
    obtain ⟨d, hd⟩ := h.next n
    by_cases hfr : (T n).Frozen
    · have hc := hfr.comnum hk.acct
      replace hcom : (T (n + 1)).log.com = (T n).log.com := hcom.trans (by rw [hc]; rfl)
      have hle := Nat.le_trans hk.acct.com_le hk.acct.written_le
      have hw : ((T n).step imem d).log.writerBefore r (T n).log.com =
          (T n).log.writerBefore r (T n).log.com := Sys.writerBefore_step _ _ r hle
      rw [← hd, ← hcom] at hw
      rw [hw, hcom, hd, Traced.mem_step hc]
      exact ih fun m hm => hv m (by omega)
    · have hren := (hk.renamed_step imem d hfr).2
      rw [← hd] at hren
      exact (hv (n + 1) (Nat.le_refl _)).mem_of_renamed (h.kept (n + 1)).acct hren r

end AnyTrace

namespace AluTrace
variable {imem : Word → Word} {init : RegSel → Word} {T : ℕ → Traced} (h : AluTrace imem init T)
include h

theorem mem_eq (h0 : (T 0).core.hx.dp.arf.mem = init)
    (hv : ∀ n, Computes imem (SeqState.after imem init) (T n)) (n : ℕ) :
    (T n).core.hx.dp.arf.mem = (SeqState.after imem init (T n).log.com).regs := by
  funext r
  have hle : (T n).log.com ≤ (T n).log.len :=
    Nat.le_trans (h.inv n).acct.com_le (h.inv n).acct.written_le
  rw [SeqState.regs_after imem init h.alu, ← h.writerBefore_eq n r _ hle]
  exact h.any.mem_eq h0 (fun m _ => hv m) r

end AluTrace

namespace Core
variable {imem : Word → Word} {s : HeliosX}

/-- In every cycle of a program of ALU instructions the register file is the one of the sequential
    machine, after as many instructions as the debug ports have shown one cycle later. -/
theorem registers_eq (himem : AluProgram imem) (hs : s.AfterReset) (dmem : ℕ → Word) (n : ℕ) :
    (cycle imem dmem s n).hx.dp.arf.mem =
      (SeqState.after imem s.dp.arf.mem (retired imem dmem s (n + 1)).length).regs := by
  have h := AluTrace.cycle himem hs dmem
  have hv := h.computes (Exact.start hs) (Computes.start s)
  rw [retired_succ himem hs dmem n, length_trace, ← Traced.core_cycle]
  exact h.mem_eq rfl hv n

theorem registers_eq_addiChain :
    (cycle addiChain (fun _ => 0) HeliosX.ofReset 40).hx.dp.arf.mem =
      (SeqState.after addiChain HeliosX.ofReset.dp.arf.mem
        (retired addiChain (fun _ => 0) HeliosX.ofReset (40 + 1)).length).regs :=
  registers_eq aluProgram_addiChain HeliosX.afterReset_ofReset (fun _ => 0) 40

end Core

end HeliosXCore
