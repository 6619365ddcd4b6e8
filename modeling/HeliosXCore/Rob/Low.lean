import HeliosXCore.Rob.Commit

/-! The reach of `ROB`. The commit pointers are masked with `6'b1`, so of its 64 entries only two are
    ever seen: what is dispatched to the other 62 or reported for them changes no output, in any
    cycle. -/

namespace HeliosXCore
open Rtl

namespace ROB

/-- The output ports but `brcond_combranch_o`, which nothing drives. -/
structure Outputs where
  commitPtr1 : RrfTag
  commitPtr2 : RrfTag
  comnum : BitVec 2
  storeCommit : Bool
  arfwe1 : Bool
  arfwe2 : Bool
  dstArf1 : RegSel
  dstArf2 : RegSel
  pcCombranch : Word
  bhrCombranch : BitVec 10
  jmpaddrCombranch : Word
  combranch : Bool

def outputs (s : ROB) : Outputs :=
  ⟨s.commitPtr1, s.commitPtr2, s.comnum, s.storeCommit, s.arfwe1, s.arfwe2, s.dstArf1, s.dstArf2,
    s.pcCombranch, s.bhrCombranch, s.jmpaddrCombranch, s.combranch⟩

/-- The entries that a masked pointer reaches. -/
def Low (a : RrfTag) : Prop := a = 0 ∨ a = 1

theorem low_mask : ∀ a : RrfTag, Low (a &&& 0b1) := by
  unfold Low
  decide

/-- The two buffers agree in the entries 0 and 1. -/
structure SameLow (s s' : ROB) : Prop where
  ptr : s.commitPtr1 = s'.commitPtr1
  finish : ∀ a, Low a → bit s.finish a = bit s'.finish a
  storebit : ∀ a, Low a → bit s.storebit a = bit s'.storebit a
  dstValid : ∀ a, Low a → bit s.dstValid a = bit s'.dstValid a
  isbranch : ∀ a, Low a → bit s.isbranch a = bit s'.isbranch a
  instPc : ∀ a, Low a → s.instPc a = s'.instPc a
  jmpaddr : ∀ a, Low a → s.jmpaddr a = s'.jmpaddr a
  dst : ∀ a, Low a → s.dst a = s'.dst a
  bhr : ∀ a, Low a → s.bhr a = s'.bhr a

theorem SameLow.refl (s : ROB) : SameLow s s :=
  ⟨rfl, fun _ _ => rfl, fun _ _ => rfl, fun _ _ => rfl, fun _ _ => rfl, fun _ _ => rfl,
    fun _ _ => rfl, fun _ _ => rfl, fun _ _ => rfl⟩

/-- The port dispatches to entry `a` in both cycles the same, or in neither. -/
def SameDispatch (d d' : RobDispatch) (a : RrfTag) : Prop :=
  (d.dp = true ∧ d.addr = a ↔ d'.dp = true ∧ d'.addr = a) ∧
    (d.dp = true ∧ d.addr = a → d = d')

/-- The inputs agree in what they say of the entries 0 and 1. -/
structure SameLowIn (i i' : DualRobIn) : Prop where
  dp1 : ∀ a, Low a → SameDispatch i.dp1 i'.dp1 a
  dp2 : ∀ a, Low a → SameDispatch i.dp2 i'.dp2 a
  finish : ∀ a, Low a → (Finishes i a ↔ Finishes i' a)
  branch : ∀ a, Low a → (i.finishExBranch.finish = true ∧ i.finishExBranch.addr = a ↔
    i'.finishExBranch.finish = true ∧ i'.finishExBranch.addr = a)
  jmpaddr : ∀ a, Low a → i.finishExBranch.finish = true ∧ i.finishExBranch.addr = a →
    i.finishExBranchJmpaddr = i'.finishExBranchJmpaddr

/-! ### One edge -/

/-- A field that is recorded alike stays alike. -/
theorem SameDispatch.record {α : Type} {d d' : RobDispatch} {a : RrfTag} (h : SameDispatch d d' a)
    (f : RobDispatch → α) {m m' : RrfTag → α} (hm : m a = m' a) :
    ROB.record d (f d) m a = ROB.record d' (f d') m' a := by
  rw [record_apply, record_apply]
  by_cases hd : d.dp = true ∧ d.addr = a
  · rw [if_pos hd, if_pos (h.1.mp hd), h.2 hd]
  · rw [if_neg hd, if_neg fun hd' => hd (h.1.mpr hd'), hm]

theorem SameDispatch.recordBit {d d' : RobDispatch} {a : RrfTag} (h : SameDispatch d d' a)
    (f : RobDispatch → Bool) {v v' : Bits 6} (hv : bit v a = bit v' a) :
    bit (ROB.recordBit d (f d) v) a = bit (ROB.recordBit d' (f d') v') a := by
  rw [bit_recordBit, bit_recordBit]
  by_cases hd : d.dp = true ∧ d.addr = a
  · rw [if_pos hd, if_pos (h.1.mp hd), h.2 hd]
  · rw [if_neg hd, if_neg fun hd' => hd (h.1.mpr hd'), hv]

section Step
variable {s s' : ROB} {i i' : DualRobIn} (h : SameLow s s') (hs : Low s.commitPtr1)
include h hs

theorem SameLow.commits : s.commit1 = s'.commit1 ∧ s.commit2 = s'.commit2 ∧
    s.commitPtr2 = s'.commitPtr2 := by
  have hptr2 : s.commitPtr2 = s'.commitPtr2 := by rw [commitPtr2, commitPtr2, h.ptr]
  refine ⟨?_, ?_, hptr2⟩
  · rw [commit1, commit1, ← h.ptr]
    exact h.finish _ hs
  · rw [commit2, commit2, ← hptr2]
    exact h.finish _ (low_mask _)

theorem SameLow.outputs_eq : s.outputs = s'.outputs := by
  obtain ⟨hc1, hc2, hptr2⟩ := h.commits hs
  have hl2 : Low s.commitPtr2 := low_mask _
  have hbranch : s.combranchPtr = s'.combranchPtr ∧ Low s.combranchPtr := by
    rw [combranchPtr, combranchPtr, ← hc1, ← h.ptr, ← hptr2, ← h.isbranch _ hs]
    refine ⟨rfl, ?_⟩
    split_ifs
    · exact hs
    · exact hl2
  obtain ⟨hb, hlb⟩ := hbranch
  simp only [outputs, comnum, storeCommit, arfwe1, arfwe2, dstArf1, dstArf2, pcCombranch,
    bhrCombranch, jmpaddrCombranch, combranch, ← hb, ← hc1, ← hc2, ← hptr2, ← h.ptr,
    h.storebit _ hs, h.storebit _ hl2, h.dstValid _ hs, h.dstValid _ hl2, h.dst _ hs, h.dst _ hl2,
    h.instPc _ hlb, h.bhr _ hlb, h.jmpaddr _ hlb, h.isbranch _ hs, h.isbranch _ hl2]

theorem SameLow.step (hi : SameLowIn i i') : SameLow (s.next false i) (s'.next false i') where
  ptr := by
    obtain ⟨hc1, hc2, -⟩ := h.commits hs
    simp only [next, ← hc1, ← hc2, h.ptr]
  finish := by
    intro a ha
    rw [bit_finish_next, bit_finish_next]
    simp only [(hi.dp1 a ha).1, (hi.dp2 a ha).1, hi.finish a ha, h.finish a ha]
  storebit := fun a ha =>
    (hi.dp2 a ha).recordBit _ ((hi.dp1 a ha).recordBit _ (h.storebit a ha))
  dstValid := fun a ha =>
    (hi.dp2 a ha).recordBit _ ((hi.dp1 a ha).recordBit _ (h.dstValid a ha))
  isbranch := fun a ha =>
    (hi.dp2 a ha).recordBit _ ((hi.dp1 a ha).recordBit _ (h.isbranch a ha))
  instPc := fun a ha => (hi.dp2 a ha).record _ ((hi.dp1 a ha).record _ (h.instPc a ha))
  jmpaddr := by
    intro a ha
    have hnext : ∀ (s : ROB) (i : DualRobIn), (s.next false i).jmpaddr a =
        if i.finishExBranch.finish = true ∧ i.finishExBranch.addr = a then i.finishExBranchJmpaddr
        else s.jmpaddr a := by
      intro s i
      cases hf : i.finishExBranch.finish <;> simp [next, hf, Function.update_apply, eq_comm]
    rw [hnext, hnext]
    by_cases hb : i.finishExBranch.finish = true ∧ i.finishExBranch.addr = a
    · rw [if_pos hb, if_pos ((hi.branch a ha).mp hb), hi.jmpaddr a ha hb]
    · rw [if_neg hb, if_neg fun hb' => hb ((hi.branch a ha).mpr hb'), h.jmpaddr a ha]
  dst := fun a ha => (hi.dp2 a ha).record _ ((hi.dp1 a ha).record _ (h.dst a ha))
  bhr := fun a ha => (hi.dp2 a ha).record _ ((hi.dp1 a ha).record _ (h.bhr a ha))

end Step

/-! ### Runs -/

def machine : Clocked ROB DualRobIn := ⟨next false, fun _ _ => True⟩

theorem low_run {s : ROB} (hs : RobSys.AfterReset s) (e : ℕ → DualRobIn) (n : ℕ) :
    Low (machine.run s e n).commitPtr1 := by
  cases n with
  | zero =>
    obtain ⟨i, s0, rfl⟩ := hs
    exact Or.inl rfl
  | succ n => exact low_mask _

/-- Two environments that agree about the entries 0 and 1 see the same outputs in every cycle, whatever
    they do with the other entries. -/
theorem outputs_low {s : ROB} (hs : RobSys.AfterReset s) (e e' : ℕ → DualRobIn)
    (he : ∀ n, SameLowIn (e n) (e' n)) (n : ℕ) :
    (machine.run s e n).outputs = (machine.run s e' n).outputs := by
  have hsame : ∀ n, SameLow (machine.run s e n) (machine.run s e' n) := by
    intro n
    induction n with
    | zero => exact SameLow.refl s
    | succ n ih => exact ih.step (low_run hs e n) (he n)
  exact (hsame n).outputs_eq (low_run hs e n)

/-- An instruction is dispatched to entry 2 and finishes. -/
def third : ℕ → DualRobIn
  | 0 => { RobSys.idle with dp1 := ⟨true, 2, 0x1008, false, true, 3, 0, false⟩ }
  | 1 => { RobSys.idle with finishExAlu1 := ⟨true, 2⟩ }
  | _ => RobSys.idle

theorem sameLowIn_third (n : ℕ) : SameLowIn (third n) RobSys.idle := by
  rcases n with _ | _ | n <;> refine ⟨?_, ?_, ?_, ?_, ?_⟩ <;> rintro a (rfl | rfl) <;>
    simp [third, RobSys.idle, SameDispatch, finishes_iff]

/-- Nothing is ever seen of it. -/
theorem outputs_low_third : (machine.run ROB.zero third 100).outputs =
    (machine.run ROB.zero (fun _ => RobSys.idle) 100).outputs :=
  outputs_low RobSys.afterReset_zero third (fun _ => RobSys.idle) sameLowIn_third 100

end ROB

end HeliosXCore
