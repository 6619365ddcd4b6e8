import HeliosXCore.Core.AnyProgram
import HeliosXCore.Sw.InOrder

/-! Data memory and the core. `SwUnit` is asked for no memory operation, so nothing is ever issued to
    `MemAccessUnit` and nothing is written. What data memory returns reaches one register only, and from
    there nothing. -/

namespace HeliosXCore
open Rtl

/-! ### Nothing is written -/

/-- The memory station is empty and the store buffer drained. -/
structure MemoryIdle (hx : HeliosX) : Prop where
  quiet : Quiet hx
  drained : hx.ex.storeBuffer.completePtr = hx.ex.storeBuffer.retirePtr
  bufferWe : hx.ex.storeBuffer.memWe = false
  portWe : hx.ex.memAccess.storeBufferMemWe = false

namespace Quiet
variable {hx : HeliosX} (h : Quiet hx)
include h

theorem exeMemIssue_eq_false : hx.sw.exeMemIssue = false := by
  rw [← Bool.not_eq_true]
  intro hi
  have hb := (SwUnit.ready_of_exeMemIssue hi).1
  rw [h.busy] at hb
  cases hb

end Quiet

namespace MemoryIdle
variable {hx : HeliosX}

theorem start {s : HeliosX} (hs : s.AfterReset) : MemoryIdle s := by
  have hq := Quiet.start hs
  obtain ⟨s0, i1, d1, i2, d2, rfl⟩ := hs
  exact ⟨hq, rfl, rfl, rfl⟩

theorem step (h : MemoryIdle hx) (idata d : Word) : MemoryIdle (hx.next false idata d) := by
  have hissue := h.quiet.exeMemIssue_eq_false
  refine ⟨h.quiet.step idata d, ?_, ?_, h.bufferWe⟩
  · simp [HeliosX.next, ExUnit.next, StoreBuffer.next, MemAccessUnit.storeIn, HeliosX.memAccessIn,
      hissue, h.drained]
  · simp [HeliosX.next, ExUnit.next, StoreBuffer.next, MemAccessUnit.storeIn, HeliosX.memAccessIn,
      hissue, h.drained]

end MemoryIdle

/-! ### Nothing is read -/

namespace Rrf
variable (s : Rrf) {f : Forwards} (x : Word) (tag : RrfTag)

/-- What the load port carries is not seen while it carries tag 0: `alu2`, unconnected, hides it. -/
theorem rsRrfdata_ldst (h2 : f.alu2.rrftag = 0) (h3 : f.ldst.rrftag = 0) :
    s.rsRrfdata { f with ldst := { f.ldst with data := x } } tag = s.rsRrfdata f tag := by
  have hpick : (if tag = f.alu1.rrftag then f.alu1.data else if tag = f.alu2.rrftag then f.alu2.data
      else if tag = f.ldst.rrftag then x else if tag = f.mul.rrftag then f.mul.data
      else f.branch.data) =
      if tag = f.alu1.rrftag then f.alu1.data else if tag = f.alu2.rrftag then f.alu2.data
      else if tag = f.ldst.rrftag then f.ldst.data else if tag = f.mul.rrftag then f.mul.data
      else f.branch.data := by
    rw [h2, h3]
    split_ifs <;> rfl
  exact congrArg (fun v => if !bit s.rrfValid tag && forwardAccessible f tag then v
    else s.rrfData tag) hpick

end Rrf

namespace HeliosX
variable {hx : HeliosX}

/-- The core without the register that the word from data memory goes to. -/
def forgetLoad (hx : HeliosX) : HeliosX :=
  { hx with ex := { hx.ex with memAccess := { hx.ex.memAccess with loadData := 0 } } }

/-- The operands rename reads do not depend on that register. -/
theorem srcWire_forgetLoad (hq : Quiet hx) (r : RegSel) (z : Bool) :
    hx.dp.srcWire (dpIn hx.idUnit (forwards hx.ex) hx.rob hx.dp) r z =
      hx.dp.srcWire (dpIn hx.idUnit (forwards hx.forgetLoad.ex) hx.rob hx.dp) r z := by
  have hf : forwards hx.forgetLoad.ex =
      { forwards hx.ex with ldst := { (forwards hx.ex).ldst with data := 0 } } := rfl
  have hdata := hx.dp.rrf.rsRrfdata_ldst (f := forwards hx.ex) 0 (hx.dp.arf.reTb.rrftag r) rfl
    hq.memTag
  rw [← hf] at hdata
  change SrcOprManager.src _ _ _ _ (hx.dp.rrf.rsRrfdata (forwards hx.ex) _) _ = _
  rw [← hdata]
  rfl

theorem dp_next_forgetLoad (hq : Quiet hx) :
    hx.dp.next false (dpIn hx.idUnit (forwards hx.ex) hx.rob hx.dp) =
      hx.dp.next false (dpIn hx.idUnit (forwards hx.forgetLoad.ex) hx.rob hx.dp) := by
  have h1 := srcWire_forgetLoad hq hx.idUnit.dec.rs1 (hx.idUnit.dec.rs1 == 0)
  have h2 := srcWire_forgetLoad hq hx.idUnit.dec.rs2 (hx.idUnit.dec.rs2 == 0)
  change ReNameUnit.mk _ _ _ _ _ _ _ _ _ _ _ _ _ _ _ _ _ _ = ReNameUnit.mk _ _ _ _ _ _ _ _ _ _ _ _ _ _
    _ _ _ _
  rw [ReNameUnit.mk.injEq]
  exact ⟨rfl, rfl, rfl, rfl, rfl, rfl, rfl, rfl, rfl, h1, h2, rfl, rfl, rfl, rfl, rfl, rfl, rfl⟩

/-- One cycle, with another word in that register and another one from data memory. -/
theorem next_forgetLoad (hq : Quiet hx) (idata d d' : Word) :
    (hx.next false idata d).forgetLoad = (hx.forgetLoad.next false idata d').forgetLoad := by
  have hdp := dp_next_forgetLoad hq
  change HeliosX.mk _ _ _ _ _ _ _ _ = HeliosX.mk _ _ _ _ _ _ _ _
  rw [HeliosX.mk.injEq]
  exact ⟨rfl, rfl, rfl, rfl, hdp, rfl, rfl, rfl⟩

theorem debug_forgetLoad (hx : HeliosX) : hx.forgetLoad.debug = hx.debug := rfl

end HeliosX

/-! ### Runs -/

namespace Core
variable (imem : Word → Word) {s : HeliosX}

theorem memoryIdle (hs : s.AfterReset) (dmem : ℕ → Word) (n : ℕ) :
    MemoryIdle (cycle imem dmem s n).hx :=
  Clocked.run_invariant (M := machine imem) (I := fun c => MemoryIdle c.hx) (MemoryIdle.start hs)
    (fun _ d h _ => h.step _ d) (fun _ _ => trivial) n (Nat.le_refl n)

/-- Whatever the program is, no memory operation is issued and `dmem_we_o` is never raised, also when
    the program is full of stores. -/
theorem never_writes_memory (hs : s.AfterReset) (dmem : ℕ → Word) (n : ℕ) :
    (cycle imem dmem s n).hx.sw.exeMemIssue = false ∧
      (cycle imem dmem s n).hx.ex.memAccess.storeBufferMemWe = false :=
  ⟨(memoryIdle imem hs dmem n).quiet.exeMemIssue_eq_false, (memoryIdle imem hs dmem n).portWe⟩

/-- `sw x1, 0(x0)` everywhere. -/
def allStores : Word → Word := fun _ => 0x00102023

theorem never_writes_memory_allStores :
    (cycle allStores (fun _ => 0) HeliosX.ofReset 50).hx.sw.exeMemIssue = false ∧
      (cycle allStores (fun _ => 0) HeliosX.ofReset 50).hx.ex.memAccess.storeBufferMemWe = false :=
  never_writes_memory allStores HeliosX.afterReset_ofReset (fun _ => 0) 50

/-- The register that the word from data memory goes to aside, two runs go the same way. -/
theorem cycle_forgetLoad (hs : s.AfterReset) (dmem dmem' : ℕ → Word) (n : ℕ) :
    (cycle imem dmem s n).hx.forgetLoad = (cycle imem dmem' s n).hx.forgetLoad ∧
      (cycle imem dmem s n).idata = (cycle imem dmem' s n).idata := by
  induction n with
  | zero => exact ⟨rfl, rfl⟩
  | succ n ih =>
    obtain ⟨hhx, hidata⟩ := ih
    have hq := (memoryIdle imem hs dmem n).quiet
    have hq' := (memoryIdle imem hs dmem' n).quiet
    have hnext : ∀ dmem : ℕ → Word, (cycle imem dmem s (n + 1)).hx =
        (cycle imem dmem s n).hx.next false (cycle imem dmem s n).idata (dmem n) := fun _ => rfl
    have hword : ∀ dmem : ℕ → Word, (cycle imem dmem s (n + 1)).idata =
        imem (cycle imem dmem s n).hx.forgetLoad.iaddr := fun _ => rfl
    constructor
    · rw [hnext dmem, hnext dmem', HeliosX.next_forgetLoad hq _ (dmem n) 0,
        HeliosX.next_forgetLoad hq' _ (dmem' n) 0, hhx, hidata]
    · rw [hword dmem, hword dmem', hhx]

/-- What data memory returns is seen nowhere: two runs of any program with different answers agree in
    every register but that one in every cycle, and they fetch and commit the same. -/
theorem unaffected_by_memory (hs : s.AfterReset) (dmem dmem' : ℕ → Word) (n : ℕ) :
    (cycle imem dmem s n).hx.forgetLoad = (cycle imem dmem' s n).hx.forgetLoad ∧
      (cycle imem dmem s n).hx.iaddr = (cycle imem dmem' s n).hx.iaddr ∧
      retired imem dmem s n = retired imem dmem' s n := by
  have hview : ∀ {α : Type} (f : HeliosX → α), (∀ hx, f hx.forgetLoad = f hx) → ∀ m,
      f (cycle imem dmem s m).hx = f (cycle imem dmem' s m).hx := by
    intro α f hf m
    rw [← hf, (cycle_forgetLoad imem hs dmem dmem' m).1, hf]
  exact ⟨(cycle_forgetLoad imem hs dmem dmem' n).1, hview HeliosX.iaddr (fun _ => rfl) n,
    List.filterMap_congr fun m _ => hview HeliosX.debug HeliosX.debug_forgetLoad m⟩

/-- A program of loads, each from the address that the one before returned. -/
def pointerChase : Word → Word := fun _ => 0x0000A083

theorem unaffected_by_memory_pointerChase :
    (cycle pointerChase (fun _ => 0) HeliosX.ofReset 50).hx.forgetLoad =
        (cycle pointerChase (fun n => BitVec.ofNat 32 n) HeliosX.ofReset 50).hx.forgetLoad ∧
      (cycle pointerChase (fun _ => 0) HeliosX.ofReset 50).hx.iaddr =
        (cycle pointerChase (fun n => BitVec.ofNat 32 n) HeliosX.ofReset 50).hx.iaddr ∧
      retired pointerChase (fun _ => 0) HeliosX.ofReset 50 =
        retired pointerChase (fun n => BitVec.ofNat 32 n) HeliosX.ofReset 50 :=
  unaffected_by_memory pointerChase HeliosX.afterReset_ofReset (fun _ => 0)
    (fun n => BitVec.ofNat 32 n) 50

end Core

end HeliosXCore
