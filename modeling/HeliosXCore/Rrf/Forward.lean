import HeliosXCore.Lib.Run
import HeliosXCore.Rrf.Bypass

/-! A result on a forwarding port: what a read sees in the cycle of the forward and in the cycles
    after it.

    In its own cycle a result on any of the five ports passes through the bypass. Only the ports
    `alu1` and `alu2` also store it, so a result on another port is gone one cycle later unless the
    entry held it already. -/

namespace HeliosXCore
open Rtl

/-- The five forwarding ports of `Rrf`. -/
inductive Port where
  | alu1
  | alu2
  | ldst
  | mul
  | branch
  deriving DecidableEq, Repr

namespace Forwards

def port (f : Forwards) : Port → Forward
  | .alu1 => f.alu1
  | .alu2 => f.alu2
  | .ldst => f.ldst
  | .mul => f.mul
  | .branch => f.branch

theorem port_mem_ports (f : Forwards) (p : Port) : f.port p ∈ f.ports := by
  cases p <;> simp [port, ports]

end Forwards

/-- The input ports of `Rrf` that act on the entries. -/
structure RrfIn where
  forwards : Forwards
  allocateRrfEn : Bool
  allocateRrftag : RrfTag
  completedEn : Bool
  completedDstRrftag : RrfTag

namespace RrfIn

/-- Nothing is forwarded, allocated or completed. -/
def idle : RrfIn := ⟨Forwards.none, false, 0, false, 0⟩

/-- Some port forwards tag `t`. -/
def Forwarded (i : RrfIn) (t : RrfTag) : Prop := ∃ p, (i.forwards.port p).writes t = true

/-- Tag `t` is completed. -/
def Completed (i : RrfIn) (t : RrfTag) : Prop := i.completedEn = true ∧ i.completedDstRrftag = t

/-- Tag `t` is allocated. -/
def Allocated (i : RrfIn) (t : RrfTag) : Prop := i.allocateRrfEn = true ∧ i.allocateRrftag = t

end RrfIn

theorem RrfIn.not_forwarded_idle (t : RrfTag) : ¬ RrfIn.idle.Forwarded t := by
  rintro ⟨p, hp⟩
  cases p <;> cases hp

namespace Rrf

/-- The RRF out of reset, any inputs. -/
def machine : Clocked Rrf RrfIn where
  step i s := s.next false i.forwards i.allocateRrfEn i.allocateRrftag i.completedEn
    i.completedDstRrftag
  legal _ _ := True

/-- The result `d` of tag `t`, forwarded under the inputs `i`, can be read until the entry is
    completed, re-allocated or forwarded again. -/
structure Survives (s : Rrf) (i : RrfIn) (t : RrfTag) (d : Word) : Prop where
  /-- The read in the cycle of the forward, of an entry that was not valid. -/
  bypass : bit s.rrfValid t = false →
    s.rsRrfvalid i.forwards t = true ∧ s.rsRrfdata i.forwards t = d
  /-- A read `n` cycles after the edge that follows. -/
  read : ∀ (e : ℕ → RrfIn) (n : ℕ), (∀ k, k ≤ n → ¬ (e k).Forwarded t) →
    (∀ k, k < n → ¬ (e k).Completed t ∧ ¬ (e k).Allocated t) →
    (machine.run (machine.step i s) e n).rsRrfvalid (e n).forwards t = true ∧
      (machine.run (machine.step i s) e n).rsRrfdata (e n).forwards t = d
  /-- What is copied to `ARFData` when the tag is completed. -/
  arfdata : ∀ (e : ℕ → RrfIn) (n : ℕ), (∀ k, k ≤ n → ¬ (e k).Forwarded t) →
    (∀ k, k < n → ¬ (e k).Completed t ∧ ¬ (e k).Allocated t) → (e n).Completed t →
    (machine.run (machine.step i s) e n).dataToArfdata t = d

/-- Entry `t` is valid and holds `d`. -/
def Holds (s : Rrf) (t : RrfTag) (d : Word) : Prop := bit s.rrfValid t = true ∧ s.rrfData t = d

variable {s : Rrf} {i : RrfIn} {t : RrfTag} {d : Word} {p : Port}

theorem Holds.read (h : Holds s t d) (f : Forwards) :
    s.rsRrfvalid f t = true ∧ s.rsRrfdata f t = d := by
  rcases h with ⟨hv, hd⟩
  rw [rsRrfvalid_eq_or, rsRrfdata_of_valid s f hv, hv]
  exact ⟨rfl, hd⟩

theorem writes_iff {q : Forward} : (q.we = true ∧ t = q.rrftag) ↔ q.writes t = true := by
  simp [Forward.writes, Forward.carries]

/-- An edge keeps an entry whose tag is not forwarded, completed or allocated. -/
theorem step_of_quiet (hf : ¬ (i.forwards.alu1.writes t = true))
    (hf' : ¬ (i.forwards.alu2.writes t = true)) (hc : ¬ i.Completed t) (ha : ¬ i.Allocated t) :
    bit (machine.step i s).rrfValid t = bit s.rrfValid t ∧
      (machine.step i s).rrfData t = s.rrfData t := by
  have hc' : ¬ (i.completedEn = true ∧ t = i.completedDstRrftag) := by
    rintro ⟨h1, h2⟩
    exact hc ⟨h1, h2.symm⟩
  have ha' : ¬ (i.allocateRrfEn = true ∧ t = i.allocateRrftag) := by
    rintro ⟨h1, h2⟩
    exact ha ⟨h1, h2.symm⟩
  constructor
  · simp only [machine, bit_rrfValid_edge, writes_iff, hf, hf', hc', ha', Bool.false_eq_true, if_false]
  · simp only [machine, rrfData_edge, writes_iff, hf, hf', Bool.false_eq_true, if_false]

theorem Holds.step (h : Holds s t d) (hf : ¬ i.Forwarded t) (hc : ¬ i.Completed t)
    (ha : ¬ i.Allocated t) : Holds (machine.step i s) t d := by
  have hq := step_of_quiet (s := s) (fun h1 => hf ⟨.alu1, h1⟩) (fun h2 => hf ⟨.alu2, h2⟩) hc ha
  exact ⟨hq.1.trans h.1, hq.2.trans h.2⟩

/-- A held entry is held until its tag is forwarded, completed or allocated. -/
theorem Holds.run (h : Holds s t d) (e : ℕ → RrfIn) (n : ℕ)
    (hf : ∀ k, k < n → ¬ (e k).Forwarded t)
    (hc : ∀ k, k < n → ¬ (e k).Completed t ∧ ¬ (e k).Allocated t) :
    Holds (machine.run s e n) t d := by
  induction n with
  | zero => exact h
  | succ n ih =>
    have hn : n < n + 1 := Nat.lt_succ_self n
    have ih' := ih (fun k hk => hf k (by omega)) (fun k hk => hc k (by omega))
    exact ih'.step (hf n hn) (hc n hn).1 (hc n hn).2

theorem not_writes_of_ne (hother : ∀ q, q ≠ p → (i.forwards.port q).rrftag ≠ t) {q : Port}
    (hq : q ≠ p) : ¬ (i.forwards.port q).writes t = true := by
  intro hw
  simp only [Forward.writes, Forward.carries, Bool.and_eq_true, beq_iff_eq] at hw
  exact hother q hq hw.2.symm

/-- The ports other than the ALU ones leave the entry as it was. -/
theorem step_of_not_alu (hother : ∀ q, q ≠ p → (i.forwards.port q).rrftag ≠ t)
    (halu : ¬ (p = .alu1 ∨ p = .alu2)) (hc : ¬ i.Completed t) (ha : ¬ i.Allocated t) :
    bit (machine.step i s).rrfValid t = bit s.rrfValid t ∧
      (machine.step i s).rrfData t = s.rrfData t := by
  push Not at halu
  exact step_of_quiet (not_writes_of_ne hother halu.1.symm) (not_writes_of_ne hother halu.2.symm)
    hc ha

section forward
variable (hp : i.forwards.port p = ⟨true, t, d⟩)
  (hother : ∀ q, q ≠ p → (i.forwards.port q).rrftag ≠ t)
include hp hother

/-- In the cycle of the forward the bypass gives the result, on every port. -/
theorem bypass_of_forward (hv : bit s.rrfValid t = false) :
    s.rsRrfvalid i.forwards t = true ∧ s.rsRrfdata i.forwards t = d := by
  have hfind : i.forwards.ports.find? (Forward.carries t) = some (i.forwards.port p) := by
    have hiff : ∀ q, t = (i.forwards.port q).rrftag ↔ q = p := by
      intro q
      constructor
      · intro hq
        by_contra hne
        exact hother q hne hq.symm
      · rintro rfl
        rw [hp]
    have h1 : t = i.forwards.alu1.rrftag ↔ Port.alu1 = p := hiff .alu1
    have h2 : t = i.forwards.alu2.rrftag ↔ Port.alu2 = p := hiff .alu2
    have h3 : t = i.forwards.ldst.rrftag ↔ Port.ldst = p := hiff .ldst
    have h4 : t = i.forwards.mul.rrftag ↔ Port.mul = p := hiff .mul
    have h5 : t = i.forwards.branch.rrftag ↔ Port.branch = p := hiff .branch
    simp only [Forwards.ports, find_cons, List.find?_nil, h1, h2, h3, h4, h5]
    cases p <;> rfl
  have ha : forwardAccessible i.forwards t = true := by
    rw [forwardAccessible_eq_any, Bool.and_eq_true, List.any_eq_true, List.any_eq_true]
    have hmem := i.forwards.port_mem_ports p
    refine ⟨⟨_, hmem, ?_⟩, ⟨_, hmem, List.find?_some hfind⟩⟩
    rw [hp]
  constructor
  · rw [rsRrfvalid_eq_or, ha, Bool.or_true]
  · rw [rsRrfdata_of_find hv ha hfind, hp]

/-- The two ALU ports store the result. -/
theorem holds_of_alu (halu : p = .alu1 ∨ p = .alu2) (ha : ¬ i.Allocated t) :
    Holds (machine.step i s) t d := by
  have ha' : ¬ (i.allocateRrfEn = true ∧ t = i.allocateRrftag) := by
    rintro ⟨h1, h2⟩
    exact ha ⟨h1, h2.symm⟩
  rcases halu with rfl | rfl
  · have h2 : ¬ i.forwards.alu2.writes t = true := not_writes_of_ne (q := .alu2) hother (by decide)
    have h1 : i.forwards.alu1 = ⟨true, t, d⟩ := hp
    constructor
    · simp only [machine, bit_rrfValid_edge, writes_iff, h2, ha', Bool.false_eq_true,
        if_false]
      simp [Forward.writes, Forward.carries, h1]
    · simp only [machine, rrfData_edge, writes_iff, h2, Bool.false_eq_true, if_false]
      simp [Forward.writes, Forward.carries, h1]
  · have h2 : i.forwards.alu2 = ⟨true, t, d⟩ := hp
    constructor
    · simp only [machine, bit_rrfValid_edge, writes_iff, ha', if_false]
      simp [Forward.writes, Forward.carries, h2]
    · simp [machine, rrfData_edge, h2]

end forward

/-- A forwarded result survives exactly when an ALU port carries it or the entry holds it already. -/
theorem survives_iff (s : Rrf) (i : RrfIn) (p : Port) (t : RrfTag) (d : Word)
    (hp : i.forwards.port p = ⟨true, t, d⟩)
    (hother : ∀ q, q ≠ p → (i.forwards.port q).rrftag ≠ t)
    (hc : ¬ i.Completed t) (ha : ¬ i.Allocated t) :
    Survives s i t d ↔
      p = .alu1 ∨ p = .alu2 ∨ (bit s.rrfValid t = true ∧ s.rrfData t = d) := by
  constructor
  · intro h
    by_cases halu : p = .alu1 ∨ p = .alu2
    · rcases halu with h1 | h2
      · exact Or.inl h1
      · exact Or.inr (Or.inl h2)
    · have hstep := step_of_not_alu (s := s) hother halu hc ha
      -- one idle cycle after the forward reads the entry alone
      have hread := h.read (fun _ => RrfIn.idle) 0 (fun _ _ => RrfIn.not_forwarded_idle t) (by omega)
      have hno : forwardAccessible RrfIn.idle.forwards t = false := rfl
      rw [Clocked.run_zero, rsRrfvalid_eq_or, rsRrfdata_of_not_accessible hno, hno, Bool.or_false,
        hstep.1, hstep.2] at hread
      exact Or.inr (Or.inr hread)
  · intro h
    have hholds : Holds (machine.step i s) t d := by
      by_cases halu : p = .alu1 ∨ p = .alu2
      · exact holds_of_alu hp hother halu ha
      · have hstep := step_of_not_alu (s := s) hother halu hc ha
        rcases h with h | h | h
        · exact absurd (Or.inl h) halu
        · exact absurd (Or.inr h) halu
        · exact ⟨hstep.1.trans h.1, hstep.2.trans h.2⟩
    refine ⟨fun hv => bypass_of_forward hp hother hv, ?_, ?_⟩
    · intro e n hf hcl
      exact (hholds.run e n (fun k hk => hf k (by omega)) hcl).read _
    · intro e n hf hcl _
      exact (hholds.run e n (fun k hk => hf k (by omega)) hcl).2

/-- Port `p` forwards data 9 for tag 5 and no other port shows the tag. -/
def forwardOn (p : Port) : RrfIn :=
  let w : Forward := ⟨true, 5, 9⟩
  let f := Forwards.none
  match p with
  | .alu1 => { RrfIn.idle with forwards := { f with alu1 := w } }
  | .alu2 => { RrfIn.idle with forwards := { f with alu2 := w } }
  | .ldst => { RrfIn.idle with forwards := { f with ldst := w } }
  | .mul => { RrfIn.idle with forwards := { f with mul := w } }
  | .branch => { RrfIn.idle with forwards := { f with branch := w } }

/-- Into an empty RRF the forward survives on the ALU ports only. -/
theorem survives_iff_empty :
    (Survives ⟨0, fun _ => 0⟩ (forwardOn .alu1) 5 9 ↔ Port.alu1 = .alu1 ∨ Port.alu1 = .alu2 ∨
      (bit (k := 6) 0 5 = true ∧ (0 : Word) = 9)) ∧
    (Survives ⟨0, fun _ => 0⟩ (forwardOn .mul) 5 9 ↔ Port.mul = .alu1 ∨ Port.mul = .alu2 ∨
      (bit (k := 6) 0 5 = true ∧ (0 : Word) = 9)) := by
  have hother : ∀ p q, q ≠ p → ((forwardOn p).forwards.port q).rrftag ≠ 5 := by
    rintro p q hq
    cases p <;> cases q <;> first | exact absurd rfl hq | decide
  constructor
  · exact survives_iff _ _ .alu1 5 9 rfl (hother _) (by simp [RrfIn.Completed, forwardOn, RrfIn.idle])
      (by simp [RrfIn.Allocated, forwardOn, RrfIn.idle])
  · exact survives_iff _ _ .mul 5 9 rfl (hother _) (by simp [RrfIn.Completed, forwardOn, RrfIn.idle])
      (by simp [RrfIn.Allocated, forwardOn, RrfIn.idle])

/-- A load result is readable in its own cycle and not in the next one. -/
theorem load_forward_lost :
    (forwardOn .ldst).forwards.port .ldst = ⟨true, 5, 9⟩ ∧
      ¬ Survives ⟨0, fun _ => 0⟩ (forwardOn .ldst) 5 9 := by
  refine ⟨rfl, ?_⟩
  intro h
  have hread := (h.read (fun _ => RrfIn.idle) 0 (fun _ _ => RrfIn.not_forwarded_idle 5) (by omega)).1
  revert hread
  decide

end Rrf
end HeliosXCore
