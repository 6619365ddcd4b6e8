import HeliosXCore.Mem.Load
import HeliosXCore.Rtl.MemAccessTop

/-! The memory access unit on its data memory. The memory holds what a prefix of the committed stores
    leaves, at 16-bit addresses, every committed store gets there, and loads are answered in program
    order. -/

namespace HeliosXCore
open Rtl

namespace StoreSys
variable {init : Word → Word} {y : StoreSys} {i : StoreIn}

/-- In a cycle without a load the next committed store is handed over, if there is one. -/
theorem Inv.handed_step_of_not_loading (h : Inv init y) (hl : machine.legal y i)
    (hn : i.loading = false) :
    (step i y).handed = min (y.handed + 1) (y.log.step i).completed := by
  have hle := h.counts.le.trans (y.log.completed_le_step i)
  have hcom := h.committed_step hl.1
  have hroom := hl.2
  rw [Room, h.handed_step] at hroom
  change (y.log.step i).issued ≤ _ at hroom
  rw [h.handed_step]
  cases hd : StoreBuffer.drains i y.log y.handed with
  | true =>
    have := h.counts.lt_of_drains hd
    rw [if_pos rfl]
    omega
  | false =>
    rw [hd, if_neg Bool.false_ne_true] at hroom
    simp only [StoreBuffer.drains, hn, Bool.not_false, Bool.true_and, bne_eq_false_iff_eq] at hd
    have := ofNat_inj_window hle (by omega) hd.symm
    rw [if_neg Bool.false_ne_true]
    omega

/-- Each cycle without a load brings the memory one store closer to `c` committed ones. -/
theorem Inv.min_le_handed_step (h : Inv init y) (hl : machine.legal y i) {c : ℕ}
    (hc : c ≤ y.log.completed) :
    min c (y.handed + (decide (i.loading = false)).toNat) ≤ (step i y).handed := by
  have hmono := h.handed_le_step i
  have hcom := y.log.completed_le_step i
  cases hn : i.loading with
  | true =>
    rw [decide_eq_false (by decide), Bool.toNat_false]
    omega
  | false =>
    rw [decide_eq_true rfl, Bool.toNat_true, h.handed_step_of_not_loading hl hn]
    omega

end StoreSys

namespace MemTopIn

/-- What the store buffer is asked for. -/
def storeIn (i : MemTopIn) : StoreIn := ⟨i.issue, !i.ifWriteRrf, i.src1 + i.imm, i.src2, i.complete⟩

/-- The cell of the data memory. -/
def cell (i : MemTopIn) : BitVec 16 := (i.src1 + i.imm).setWidth 16

end MemTopIn

/-- The cell and the data of each store. -/
def cellStore (store : ℕ → Word × Word) (k : ℕ) : BitVec 16 × Word :=
  ((store k).1.setWidth 16, (store k).2)

/-- The data memory of a machine that carries out the first `n` stores. -/
def programMemory (init : BitVec 16 → Word) (store : ℕ → Word × Word) (n : ℕ) : BitVec 16 → Word :=
  written init (cellStore store) n

/-- The store buffer with its log, and the block RAM. -/
structure TopSys (σ : Type) where
  sys : StoreSys
  bram : σ

namespace TopSys
variable {σ : Type} (R : Ram σ (BitVec 16) Word) (contents : σ → BitVec 16 → Word)

/-- The hardware. -/
def top (y : TopSys σ) : MemAccessTop σ := ⟨y.sys.hw, y.bram⟩

/-- Addresses that share a cell hold the same. -/
def wide (init : BitVec 16 → Word) (a : Word) : Word := init (a.setWidth 16)

def start (s : MemAccessTop σ) : TopSys σ :=
  ⟨StoreSys.start s.storeBuffer (wide (contents s.bram)), s.bram⟩

def step (i : MemTopIn) (y : TopSys σ) : TopSys σ :=
  ⟨StoreSys.step i.storeIn y.sys, (y.top.next R false i).bram⟩

theorem top_step (i : MemTopIn) (y : TopSys σ) : (step R i y).top = y.top.next R false i := rfl

/-- The environment keeps to what the store buffer needs: only stores that were issued are completed,
    once each, and at most 31 are issued and not yet handed to memory. -/
def machine : Clocked (TopSys σ) MemTopIn :=
  ⟨step R, fun y i => StoreSys.machine.legal y.sys i.storeIn⟩

instance (y : TopSys σ) (i : MemTopIn) : Decidable ((machine R).legal y i) :=
  inferInstanceAs (Decidable (StoreSys.machine.legal y.sys i.storeIn))

/-- How many stores have reached the block RAM: the one that is presented is still on its way. -/
def stored (y : TopSys σ) : ℕ := y.sys.handed - y.sys.hw.memWe.toNat

/-- What holds in every state. -/
structure Inv (init : BitVec 16 → Word) (y : TopSys σ) : Prop where
  sys : StoreSys.Inv (wide init) y.sys
  presents : y.sys.hw.memWe = true → 0 < y.sys.handed
  ram : contents y.bram = programMemory init y.sys.log.store y.stored

variable {R contents} {init : BitVec 16 → Word} {y : TopSys σ} {i : MemTopIn}

theorem inv_start (s : MemAccessTop σ) (hs : s.storeBuffer = StoreBuffer.cleared) :
    Inv contents (contents s.bram) (start contents s) := by
  refine ⟨?_, ?_, ?_⟩
  · change StoreSys.Inv _ (StoreSys.start s.storeBuffer _)
    rw [hs]
    exact StoreSys.inv_start _
  · intro hwe
    change s.storeBuffer.memWe = true at hwe
    rw [hs] at hwe
    cases hwe
  · change _ = programMemory _ _ (0 - _)
    rw [Nat.zero_sub]
    rfl

/-- What is handed over now reaches the block RAM at the end of the next cycle. -/
theorem stored_step (R : Ram σ (BitVec 16) Word) (i : MemTopIn) (y : TopSys σ) :
    (step R i y).stored = y.sys.handed ∧
      ((step R i y).sys.hw.memWe = true → 0 < (step R i y).sys.handed) := by
  have hh : (step R i y).sys.handed =
      if (step R i y).sys.hw.memWe then y.sys.handed + 1 else y.sys.handed := rfl
  unfold stored
  rw [hh]
  cases (step R i y).sys.hw.memWe <;> simp

namespace Inv

theorem handed_eq (h : Inv contents init y) :
    y.sys.handed = y.stored + y.sys.hw.memWe.toNat := by
  unfold stored
  cases hwe : y.sys.hw.memWe with
  | false => rfl
  | true =>
    have := h.presents hwe
    simp only [Bool.toNat_true]
    omega

/-- The store that is presented is the last one handed over. -/
theorem presented (h : Inv contents init y) :
    (y.sys.hw.writeAddress, y.sys.hw.writeData) = y.sys.log.store y.sys.handed :=
  StoreSys.presented_eq h.sys.counts h.sys.address h.sys.data h.sys.handed_le

/-- At the end of the cycle the block RAM has all stores handed over. -/
theorem contents_step (hR : R.Keeps contents) (h : Inv contents init y) (i : MemTopIn) :
    contents (step R i y).bram = programMemory init y.sys.log.store y.sys.handed := by
  have hw : contents (step R i y).bram = if y.sys.hw.memWe && true then
      Function.update (contents y.bram) (y.sys.hw.writeAddress.setWidth 16) y.sys.hw.writeData
      else contents y.bram := hR.write _ _ _ _ _
  rw [hw, h.ram, Bool.and_true]
  have heq := h.handed_eq
  cases hwe : y.sys.hw.memWe with
  | false =>
    rw [hwe, Bool.toNat_false, Nat.add_zero] at heq
    rw [heq]
    rfl
  | true =>
    rw [hwe, Bool.toNat_true] at heq
    have hp := h.presented
    rw [heq] at hp ⊢
    rw [if_pos rfl, programMemory, programMemory, written_succ, cellStore, ← hp]

theorem step (hR : R.Keeps contents) (h : Inv contents init y)
    (hl : (machine R).legal y i) : Inv contents init (step R i y) := by
  obtain ⟨hst, hpr⟩ := stored_step R i y
  refine ⟨StoreSys.inv_step h.sys hl, hpr, ?_⟩
  rw [h.contents_step hR, hst]
  refine written_congr ?_
  intro k _ hk
  have hstore : (y.sys.log.step i.storeIn).store k = y.sys.log.store k :=
    y.sys.log.store_step i.storeIn (hk.trans h.sys.handed_le)
  rw [cellStore, cellStore]
  exact congrArg (fun p : Word × Word => (p.1.setWidth 16, p.2)) hstore.symm

end Inv

/-- The stores so far that share a cell with `a` go to `a`. -/
def Apart (y : TopSys σ) (a : Word) : Prop :=
  ∀ k, 0 < k → k ≤ y.sys.log.issued → (y.sys.log.store k).1.setWidth 16 = a.setWidth 16 →
    (y.sys.log.store k).1 = a

/-- The cell that the load reads is written in the same cycle. -/
def Clash (i : MemTopIn) (y : TopSys σ) : Prop :=
  y.sys.hw.memWe = true ∧ y.sys.hw.writeAddress.setWidth 16 = i.cell

theorem Apart.programMemory_eq {a : Word} (h : Apart y a) {m : ℕ} (hm : m ≤ y.sys.log.issued) :
    programMemory init y.sys.log.store m (a.setWidth 16) =
      latest (wide init) y.sys.log.store a m := by
  induction m with
  | zero => rfl
  | succ m ih =>
    have hiff : a.setWidth 16 = (y.sys.log.store (m + 1)).1.setWidth 16 ↔
        (y.sys.log.store (m + 1)).1 = a :=
      ⟨fun heq => h (m + 1) (by omega) hm heq.symm, fun heq => by rw [heq]⟩
    have ih' := ih (by omega)
    rw [programMemory] at ih' ⊢
    rw [written_succ, latest, Function.update_apply, ih']
    simp only [cellStore, hiff]

/-- A load that hits was preceded by a store to its address. -/
theorem exists_of_hit (h : StoreSys.Inv (wide init) y.sys) {i : StoreIn}
    (hload : i.loading = true) (hhit : (StoreSys.step i y.sys).hw.hit = true) :
    ∃ k, Youngest y.sys.log.store i.address y.sys.log.issued k := by
  have hscan := (StoreBuffer.next_of_load (s := y.sys.hw) hload).1
  rw [StoreBuffer.loadScan_eq] at hscan
  cases hlast : lastBefore (fun n => 0 < n ∧ y.sys.hw.matchAt i.address n = true) 32 with
  | none =>
    rw [hlast] at hscan
    exact absurd (hscan.symm.trans hhit) Bool.false_ne_true
  | some j =>
    obtain ⟨hj, -, hmatch⟩ := lastBefore_lt hlast
    obtain ⟨k, hk, hk', -, ha⟩ := (StoreSys.matchAt_iff h hj).mp hmatch
    exact exists_youngest (by omega) hk' ha

theorem loadData_eq (j : MemTopIn) (y : TopSys σ) : y.top.loadData R j =
    if y.sys.hw.hit then y.sys.hw.readData else R.dout y.bram := rfl

/-- When no store to the cell is on its way, a load that misses gets what is stored. -/
theorem loadData_of_miss (hR : R.Keeps contents) (h : Inv contents init y)
    (hclash : ¬ Clash i y) (hmiss : (step R i y).sys.hw.hit = false) (j : MemTopIn) :
    (step R i y).top.loadData R j = programMemory init y.sys.log.store y.sys.handed i.cell := by
  have hread : R.dout (step R i y).bram = contents y.bram i.cell := by
    refine hR.read _ _ _ _ _ ?_
    rwa [Bool.and_true]
  rw [loadData_eq, hmiss, if_neg Bool.false_ne_true, hread, h.ram]
  have heq := h.handed_eq
  cases hwe : y.sys.hw.memWe with
  | false =>
    rw [hwe, Bool.toNat_false, Nat.add_zero] at heq
    rw [heq]
  | true =>
    rw [hwe, Bool.toNat_true] at heq
    have hp := congrArg Prod.fst h.presented
    rw [heq] at hp ⊢
    rw [programMemory, programMemory, written_succ, Function.update_of_ne]
    intro hcell
    refine hclash ⟨hwe, ?_⟩
    rw [show y.sys.hw.writeAddress = _ from hp]
    exact hcell.symm

/-- A load whose cell nobody else uses and that does not clash is answered in program order exactly if
    the scan of the store buffer can tell the latest store. -/
theorem loadData_iff (hR : R.Keeps contents) (h : Inv contents init y)
    (hload : i.storeIn.loading = true) (hapart : Apart y (i.src1 + i.imm)) (hclash : ¬ Clash i y)
    (j : MemTopIn) :
    (step R i y).top.loadData R j =
        programMemory init y.sys.log.store y.sys.log.issued i.cell ↔
      StoreSys.ScanOk (wide init) (i.src1 + i.imm) y.sys := by
  have hall : programMemory init y.sys.log.store y.sys.log.issued _ = _ :=
    hapart.programMemory_eq (le_refl _)
  have hsees := StoreSys.seesLatest_iff (i := i.storeIn) h.sys hload
  change StoreSys.SeesLatest _ _ _ ↔ StoreSys.ScanOk _ (i.src1 + i.imm) _ at hsees
  rw [MemTopIn.cell, hall, ← hsees]
  cases hhit : (step R i y).sys.hw.hit with
  | true =>
    rw [loadData_eq, hhit, if_pos rfl]
    constructor
    · intro heq
      obtain ⟨k, hk⟩ := exists_of_hit h.sys hload hhit
      exact .of_hit hk hhit (heq.trans (hk.latest_eq _))
    · intro hs
      obtain ⟨k, hk, hk'⟩ := hs.hit hhit
      exact hk'.trans (hk.latest_eq _).symm
  | false =>
    rw [loadData_of_miss hR h hclash hhit j, MemTopIn.cell,
      hapart.programMemory_eq h.sys.handed_le, StoreSys.seesLatest_of_miss h.sys hhit]
    rfl

/-- A load that misses and reads the cell being written gets the data from before the write, if the
    block RAM shows it. -/
theorem loadData_of_clash (hold : ∀ we wa wd ra b, R.dout (R.next we wa wd ra b) = contents b ra)
    (h : Inv contents init y) (hclash : Clash i y) (hmiss : (step R i y).sys.hw.hit = false)
    (j : MemTopIn) : (step R i y).top.loadData R j =
      programMemory init y.sys.log.store (y.sys.handed - 1) i.cell := by
  have hread : R.dout (step R i y).bram = contents y.bram i.cell := hold _ _ _ _ _
  have hst : y.stored = y.sys.handed - 1 := by
    rw [stored, hclash.1]
    rfl
  rw [loadData_eq, hmiss, if_neg Bool.false_ne_true, hread, h.ram, hst]

/-- The store that is written is then the latest one to the address. -/
theorem issued_of_clash (h : Inv contents init y) (hload : i.storeIn.loading = true)
    (hapart : Apart y (i.src1 + i.imm)) (hclash : Clash i y)
    (hmiss : (step R i y).sys.hw.hit = false)
    (hscan : StoreSys.ScanOk (wide init) (i.src1 + i.imm) y.sys) :
    programMemory init y.sys.log.store y.sys.log.issued i.cell =
      (y.sys.log.store y.sys.handed).2 := by
  have hsees := (StoreSys.seesLatest_iff (i := i.storeIn) h.sys hload).mpr hscan
  have hsame := (StoreSys.seesLatest_of_miss (i := i.storeIn) h.sys hmiss).mp hsees
  change latest _ _ (i.src1 + i.imm) _ = latest _ _ (i.src1 + i.imm) _ at hsame
  rw [MemTopIn.cell, hapart.programMemory_eq (le_refl _), ← hsame,
    ← hapart.programMemory_eq h.sys.handed_le]
  have hcell : (cellStore y.sys.log.store y.sys.handed).1 = i.cell := by
    rw [← hclash.2, cellStore, ← h.presented]
  obtain ⟨m, hm⟩ : ∃ m, y.sys.handed = m + 1 := ⟨_, (Nat.sub_add_cancel (h.presents hclash.1)).symm⟩
  rw [hm] at hcell ⊢
  rw [programMemory, written_succ, hcell]
  exact Function.update_self _ _ _

section run
variable {s : MemAccessTop σ} {e : ℕ → MemTopIn} {N n : ℕ}

theorem inv_run (hR : R.Keeps contents) (hs : s.storeBuffer.AfterReset)
    (hl : (machine R).Legal (start contents s) e N) (hn : n ≤ N) :
    Inv contents (contents s.bram) ((machine R).run (start contents s) e n) :=
  Clocked.run_invariant (M := machine R) (inv_start s hs.eq) (fun _ _ h hi => h.step hR hi) hl n hn

end run

/-! A run: two stores, committed as they are issued, then loads from the first address. -/

/-- The hardware after reset, the block RAM a `readFirst` one that holds 0. -/
def cleared : MemAccessTop ((BitVec 16 → Word) × Word) := ⟨StoreBuffer.cleared, (fun _ => 0, 0)⟩

def twoStores (n : ℕ) : MemTopIn :=
  if n = 0 then ⟨4, 5, 0, false, true, true⟩
  else if n = 1 then ⟨4, 6, 4, false, true, true⟩
  else ⟨4, 0, 0, true, true, false⟩

/-- The state in cycle `n` of this run. -/
abbrev twoStoresAt (n : ℕ) : TopSys ((BitVec 16 → Word) × Word) :=
  (machine (Ram.readFirst (BitVec 16) Word)).run (start Prod.fst cleared) twoStores n

theorem legal_twoStores :
    (machine (Ram.readFirst (BitVec 16) Word)).Legal (start Prod.fst cleared) twoStores 6 := by
  decide +kernel

section run
variable {s : MemAccessTop σ} {e : ℕ → MemTopIn} {N n : ℕ}

/-- In every run with room in the store buffer, in which only issued stores are completed, the data
    memory holds what a prefix of the committed stores leaves. -/
theorem memory_is_replay (hR : R.Keeps contents) (hs : s.storeBuffer.AfterReset)
    (hl : (machine R).Legal (start contents s) e N) (hn : n ≤ N) :
    ∃ m, m ≤ ((machine R).run (start contents s) e n).sys.log.completed ∧
      contents ((machine R).run (start contents s) e n).bram =
        programMemory (contents s.bram) ((machine R).run (start contents s) e n).sys.log.store m := by
  have h := inv_run hR hs hl hn
  have heq := h.handed_eq
  have hle := h.sys.counts.le
  exact ⟨_, by omega, h.ram⟩

end run

theorem memory_is_replay_twoStores :
    ∃ m, m ≤ (twoStoresAt 3).sys.log.completed ∧ (twoStoresAt 3).bram.1 =
      programMemory cleared.bram.1 (twoStoresAt 3).sys.log.store m :=
  memory_is_replay Ram.readFirst_keeps StoreBuffer.afterReset_cleared legal_twoStores (by omega)

section run
variable {s : MemAccessTop σ} {e : ℕ → MemTopIn} {N n : ℕ}

/-- How many of the `k` cycles from cycle `n` on issue no load. -/
def freeCycles (e : ℕ → MemTopIn) (n k : ℕ) : ℕ :=
  Nat.count (fun j => (e (n + j)).storeIn.loading = false) k

theorem completed_le_run (hle : n ≤ N) :
    ((machine R).run (start contents s) e n).sys.log.completed ≤
      ((machine R).run (start contents s) e N).sys.log.completed := by
  induction N, hle using Nat.le_induction with
  | base => exact le_refl _
  | succ N _ ih => exact ih.trans (StoreLog.completed_le_step _ _)

theorem min_le_handed (hR : R.Keeps contents) (hs : s.storeBuffer.AfterReset)
    (hl : (machine R).Legal (start contents s) e N) {k : ℕ} (hk : n + k ≤ N) :
    min ((machine R).run (start contents s) e n).sys.log.completed
        (((machine R).run (start contents s) e n).sys.handed + freeCycles e n k) ≤
      ((machine R).run (start contents s) e (n + k)).sys.handed := by
  induction k with
  | zero => exact min_le_right _ _
  | succ k ih =>
    have hle := ih (by omega)
    have hcom : ((machine R).run (start contents s) e n).sys.log.completed ≤ _ :=
      completed_le_run (Nat.le_add_right n k)
    have hstep := (inv_run hR hs hl (n := n + k) (by omega)).sys.min_le_handed_step
      (hl (n + k) (by omega)) hcom
    have hcount : freeCycles e n (k + 1) =
        freeCycles e n k + (decide ((e (n + k)).storeIn.loading = false)).toNat := by
      rw [freeCycles, Nat.count_succ, freeCycles]
      split <;> simp_all
    change _ ≤ ((machine R).run (start contents s) e (n + k + 1)).sys.handed
    rw [Clocked.run_succ, hcount]
    change _ ≤ (StoreSys.step _ _).handed
    omega

/-- With room in the store buffer, and only issued stores completed: the stores that are committed in
    cycle `n` are in the data memory when as many cycles without a load have passed as stores were
    waiting, and one more cycle. -/
theorem flushes (hR : R.Keeps contents) (hs : s.storeBuffer.AfterReset)
    (hl : (machine R).Legal (start contents s) e N) {k : ℕ} (hk : n + k + 1 ≤ N)
    (hfree : ((machine R).run (start contents s) e n).sys.log.completed ≤
      ((machine R).run (start contents s) e n).sys.handed + freeCycles e n k) :
    ∃ m, ((machine R).run (start contents s) e n).sys.log.completed ≤ m ∧
      m ≤ ((machine R).run (start contents s) e (n + k + 1)).sys.log.completed ∧
      contents ((machine R).run (start contents s) e (n + k + 1)).bram =
        programMemory (contents s.bram)
          ((machine R).run (start contents s) e (n + k + 1)).sys.log.store m := by
  have hle := min_le_handed hR hs hl (n := n) (k := k) (by omega)
  have h := inv_run hR hs hl hk
  have hst := (stored_step R (e (n + k)) ((machine R).run (start contents s) e (n + k))).1
  have heq := h.handed_eq
  have hcom := h.sys.counts.le
  refine ⟨_, ?_, by omega, h.ram⟩
  change _ ≤ (step R _ _).stored
  rw [hst]
  omega

end run

theorem flushes_twoStores :
    ∃ m, (twoStoresAt 1).sys.log.completed ≤ m ∧
      m ≤ (twoStoresAt (1 + 1 + 1)).sys.log.completed ∧ (twoStoresAt (1 + 1 + 1)).bram.1 =
        programMemory cleared.bram.1 (twoStoresAt (1 + 1 + 1)).sys.log.store m :=
  flushes Ram.readFirst_keeps StoreBuffer.afterReset_cleared legal_twoStores (by omega)
    (by decide +kernel)

section run
variable {s : MemAccessTop σ} {e : ℕ → MemTopIn} {N n : ℕ}

/-- In every run with room in the store buffer, in which only issued stores are completed, for a load
    whose cell no store to another address uses and that does not read the cell being written:
    `load_data_o` in the next cycle is what the stores before the load leave at its address, exactly if
    the scan of the store buffer can tell the latest one. -/
theorem load_in_order_iff (hR : R.Keeps contents) (hs : s.storeBuffer.AfterReset)
    (hl : (machine R).Legal (start contents s) e N) (hn : n < N)
    (hload : (e n).storeIn.loading = true)
    (hapart : Apart ((machine R).run (start contents s) e n) ((e n).src1 + (e n).imm))
    (hclash : ¬ Clash (e n) ((machine R).run (start contents s) e n)) :
    ((machine R).run (start contents s) e (n + 1)).top.loadData R (e (n + 1)) =
        programMemory (contents s.bram) ((machine R).run (start contents s) e n).sys.log.store
          ((machine R).run (start contents s) e n).sys.log.issued (e n).cell ↔
      StoreSys.ScanOk (wide (contents s.bram)) ((e n).src1 + (e n).imm)
        ((machine R).run (start contents s) e n).sys :=
  loadData_iff hR (inv_run hR hs hl hn.le) hload hapart hclash _

end run

theorem load_in_order_iff_twoStores :
    (twoStoresAt (2 + 1)).top.loadData (Ram.readFirst _ _) (twoStores (2 + 1)) =
        programMemory cleared.bram.1 (twoStoresAt 2).sys.log.store (twoStoresAt 2).sys.log.issued
          (twoStores 2).cell ↔
      StoreSys.ScanOk (wide cleared.bram.1) ((twoStores 2).src1 + (twoStores 2).imm)
        (twoStoresAt 2).sys := by
  refine load_in_order_iff Ram.readFirst_keeps StoreBuffer.afterReset_cleared legal_twoStores
    (by omega) (by decide +kernel) ?_ ?_
  · intro k hk hk'
    have hle : k ≤ 2 := hk'
    interval_cases k <;> decide +kernel
  · rintro ⟨-, hcell⟩
    revert hcell
    decide +kernel

section run
variable {s : MemAccessTop σ} {e : ℕ → MemTopIn} {N n : ℕ}

/-- In such a run a load whose cell no store to another address uses, and for which the scan could tell
    the latest store, reads the cell being written and misses: its store is no longer in the buffer and
    not yet in memory. With a block RAM that shows the old data it gets what the stores before that one
    leave, although the stores issued so far leave its data. -/
theorem clash_reads_old (hR : R.Keeps contents)
    (hold : ∀ we wa wd ra b, R.dout (R.next we wa wd ra b) = contents b ra)
    (hs : s.storeBuffer.AfterReset) (hl : (machine R).Legal (start contents s) e N) (hn : n < N)
    (hload : (e n).storeIn.loading = true)
    (hapart : Apart ((machine R).run (start contents s) e n) ((e n).src1 + (e n).imm))
    (hclash : Clash (e n) ((machine R).run (start contents s) e n))
    (hmiss : ((machine R).run (start contents s) e (n + 1)).sys.hw.hit = false)
    (hscan : StoreSys.ScanOk (wide (contents s.bram)) ((e n).src1 + (e n).imm)
      ((machine R).run (start contents s) e n).sys) :
    ((machine R).run (start contents s) e (n + 1)).top.loadData R (e (n + 1)) =
        programMemory (contents s.bram) ((machine R).run (start contents s) e n).sys.log.store
          (((machine R).run (start contents s) e n).sys.handed - 1) (e n).cell ∧
      programMemory (contents s.bram) ((machine R).run (start contents s) e n).sys.log.store
          ((machine R).run (start contents s) e n).sys.log.issued (e n).cell =
        (((machine R).run (start contents s) e n).sys.log.store
          ((machine R).run (start contents s) e n).sys.handed).2 := by
  have h := inv_run hR hs hl hn.le
  exact ⟨loadData_of_clash hold h hclash hmiss _, issued_of_clash h hload hapart hclash hmiss hscan⟩

end run

/-- A store that is committed as it is issued, and a load of the same word right behind it. -/
def storeLoad (n : ℕ) : MemTopIn :=
  if n = 0 then ⟨4, 5, 0, false, true, true⟩ else ⟨4, 0, 0, true, true, false⟩

/-- The state in cycle `n` of this run. -/
abbrev storeLoadAt (n : ℕ) : TopSys ((BitVec 16 → Word) × Word) :=
  (machine (Ram.readFirst (BitVec 16) Word)).run (start Prod.fst cleared) storeLoad n

theorem clash_reads_old_storeLoad :
    (storeLoadAt (1 + 1)).top.loadData (Ram.readFirst _ _) (storeLoad (1 + 1)) =
        programMemory cleared.bram.1 (storeLoadAt 1).sys.log.store ((storeLoadAt 1).sys.handed - 1)
          (storeLoad 1).cell ∧
      programMemory cleared.bram.1 (storeLoadAt 1).sys.log.store (storeLoadAt 1).sys.log.issued
          (storeLoad 1).cell =
        ((storeLoadAt 1).sys.log.store (storeLoadAt 1).sys.handed).2 := by
  refine clash_reads_old (N := 2) Ram.readFirst_keeps (fun _ _ _ _ _ => rfl)
    StoreBuffer.afterReset_cleared (by decide +kernel) (by omega) (by decide +kernel) ?_
    ⟨by decide +kernel, by decide +kernel⟩ (by decide +kernel) (Or.inl (Nat.zero_le _))
  intro k hk hk'
  have hle : k ≤ 1 := hk'
  interval_cases k
  decide +kernel

end TopSys

end HeliosXCore
