import HeliosXCore.Mem.System

/-! The order in which stores reach memory.

    The entries from the last store handed over to the last one issued hold these stores, at most 32
    of them, so the entry that is presented is always that of the next store in order. -/

namespace HeliosXCore
open Rtl
namespace StoreSys

/-- What holds in every state. The entry of the last store handed over is still intact: it is the
    one that is presented. -/
structure Inv (init : Word → Word) (y : StoreSys) : Prop where
  counts : y.hw.Counts y.log y.handed
  committed : y.log.completed ≤ y.log.issued
  room : y.Room
  address : Holds y.hw.address (Prod.fst ∘ y.log.store) y.handed (y.log.issued + 1)
  data : Holds y.hw.data (Prod.snd ∘ y.log.store) y.handed (y.log.issued + 1)
  valid : Marks y.hw.valid (y.handed + 1) (y.log.issued + 1)
  write : ∀ k, 0 < k → k ≤ y.handed → y.write k = y.log.store k
  mem : ∀ a, y.memNext a = latest init y.log.store a y.handed

variable {init : Word → Word} {y : StoreSys} {i : StoreIn}

theorem latest_congr {store store' : ℕ → Word × Word} {n : ℕ}
    (h : ∀ k, 0 < k → k ≤ n → store k = store' k) (a : Word) :
    latest init store a n = latest init store' a n := by
  induction n with
  | zero => rfl
  | succ n ih =>
    rw [latest, latest, h (n + 1) (by omega) (le_refl _), ih fun k hk hk' => h k hk (by omega)]

theorem inv_start (init : Word → Word) : Inv init (start StoreBuffer.cleared init) where
  counts := StoreBuffer.counts_cleared
  committed := le_refl 0
  room := by simp [Room, start, StoreLog.empty]
  address := fun _ _ _ => rfl
  data := fun _ _ _ => rfl
  valid := marks_empty 1
  write := by
    intro k hk hk'
    simp only [start] at hk'
    omega
  mem := fun _ => rfl

/-- The address and the data that are presented are those of the last store handed over. -/
theorem presented_eq {s : StoreBuffer} {l : StoreLog} {r : ℕ} (hc : s.Counts l r)
    (ha : Holds s.address (Prod.fst ∘ l.store) r (l.issued + 1))
    (hd : Holds s.data (Prod.snd ∘ l.store) r (l.issued + 1)) (hle : r ≤ l.issued) :
    (s.writeAddress, s.writeData) = l.store r := by
  have ha' := ha r (le_refl r) (Nat.lt_succ_of_le hle)
  have hd' := hd r (le_refl r) (Nat.lt_succ_of_le hle)
  rw [StoreBuffer.writeAddress, StoreBuffer.writeData, hc.retire, ha', hd']
  rfl

namespace Inv

theorem handed_le (h : Inv init y) : y.handed ≤ y.log.issued := h.counts.le.trans h.committed

theorem committed_step (h : Inv init y) (hl : y.CompleteOk i) :
    (y.log.step i).completed ≤ (y.log.step i).issued := by
  have hle := h.committed.trans (y.log.issued_le_step i)
  cases hc : i.complete with
  | true =>
    have := hl hc
    simp only [StoreLog.step, hc] at this ⊢
    simpa using this
  | false =>
    simp only [StoreLog.step, hc] at hle ⊢
    simpa using hle

theorem handed_step (h : Inv init y) (i : StoreIn) :
    (step i y).handed = if StoreBuffer.drains i y.log y.handed then y.handed + 1 else y.handed := by
  have hwe := h.counts.memWe_next i
  simp only [step, hwe]

theorem handed_le_step (h : Inv init y) (i : StoreIn) : y.handed ≤ (step i y).handed := by
  rw [h.handed_step]
  split <;> omega

theorem valid_step (h : Inv init y) (hroom : (step i y).Room) :
    Marks (step i y).hw.valid ((step i y).handed + 1) ((y.log.step i).issued + 1) := by
  have hle := h.handed_le
  have hissued : (step i y).log.issued = if i.storing then y.log.issued + 1 else y.log.issued := rfl
  have hmid : Marks (StoreBuffer.validIssued i y.log y.hw.valid) (y.handed + 1)
      ((y.log.step i).issued + 1) := by
    cases hs : i.storing with
    | true =>
      simp only [StoreBuffer.validIssued, StoreLog.step, hs, if_true]
      exact h.valid.push (by omega)
    | false =>
      simp only [StoreBuffer.validIssued, StoreLog.step, hs, Bool.false_eq_true, if_false]
      exact h.valid
  have hvalid : (step i y).hw.valid = _ := h.counts.valid_next i
  rw [hvalid, h.handed_step]
  rw [Room, h.handed_step] at hroom
  split
  · rename_i hd
    rw [if_pos hd] at hroom
    refine hmid.pop ?_
    change (step i y).log.issued + 1 ≤ _
    omega
  · exact hmid

theorem counts_step (h : Inv init y) (i : StoreIn) :
    (step i y).hw.Counts (y.log.step i) (step i y).handed := by
  rw [h.handed_step]
  exact h.counts.next i

theorem address_step (h : Inv init y) (hroom : (step i y).Room) :
    Holds (step i y).hw.address (Prod.fst ∘ (y.log.step i).store) (step i y).handed
      ((y.log.step i).issued + 1) :=
  StoreLog.holds_step (h.address.mono (h.handed_le_step i) (le_refl _)) (h.counts.address_next i)
    rfl (Nat.lt_succ_of_le hroom)

theorem data_step (h : Inv init y) (hroom : (step i y).Room) :
    Holds (step i y).hw.data (Prod.snd ∘ (y.log.step i).store) (step i y).handed
      ((y.log.step i).issued + 1) :=
  StoreLog.holds_step (h.data.mono (h.handed_le_step i) (le_refl _)) (h.counts.data_next i)
    rfl (Nat.lt_succ_of_le hroom)

/-- What the next cycle presents, if it presents anything. -/
theorem presented_step (h : Inv init y) (hl : machine.legal y i) :
    ((step i y).hw.writeAddress, (step i y).hw.writeData) = (y.log.step i).store (step i y).handed :=
  presented_eq (h.counts_step i) (h.address_step hl.2) (h.data_step hl.2)
    ((h.counts_step i).le.trans (h.committed_step hl.1))

theorem write_step (h : Inv init y) (hl : machine.legal y i) {k : ℕ} (hk : 0 < k)
    (hk' : k ≤ (step i y).handed) : (step i y).write k = (y.log.step i).store k := by
  have hpres := h.presented_step hl
  have hwrite : (step i y).write = if (step i y).hw.memWe then
      Function.update y.write (y.handed + 1) ((step i y).hw.writeAddress, (step i y).hw.writeData)
      else y.write := rfl
  have hold : k ≤ y.handed → y.write k = (y.log.step i).store k := by
    intro hle
    rw [y.log.store_step i (hle.trans h.handed_le)]
    exact h.write k hk hle
  have hwe : (step i y).hw.memWe = StoreBuffer.drains i y.log y.handed := h.counts.memWe_next i
  rw [hpres, hwe] at hwrite
  rw [hwrite]
  rw [h.handed_step] at hk' ⊢
  split
  · rename_i hd
    rw [if_pos hd] at hk'
    rcases Nat.eq_or_lt_of_le hk' with rfl | hlt
    · rw [Function.update_self]
    · rw [Function.update_of_ne (by omega)]
      exact hold (by omega)
  · rename_i hd
    rw [if_neg hd] at hk'
    exact hold hk'

theorem mem_step (h : Inv init y) (hl : machine.legal y i) (a : Word) :
    (step i y).memNext a = latest init (y.log.step i).store a (step i y).handed := by
  have hpres := h.presented_step hl
  have hmem : (step i y).memNext = if (step i y).hw.memWe then
      Function.update y.memNext (step i y).hw.writeAddress (step i y).hw.writeData
      else y.memNext := rfl
  have hold : y.memNext a = latest init (y.log.step i).store a y.handed := by
    rw [h.mem a]
    refine latest_congr ?_ a
    intro k _ hk
    exact (y.log.store_step i (hk.trans h.handed_le)).symm
  have hwe : (step i y).hw.memWe = StoreBuffer.drains i y.log y.handed := h.counts.memWe_next i
  rw [hmem, hwe]
  rw [h.handed_step] at hpres ⊢
  split
  · rename_i hd
    rw [if_pos hd] at hpres
    rw [latest, ← hpres, Function.update_apply, hold]
    simp only [eq_comm]
  · exact hold

end Inv

theorem inv_step (h : Inv init y) (hl : machine.legal y i) : Inv init (step i y) where
  counts := h.counts_step i
  committed := h.committed_step hl.1
  room := hl.2
  address := h.address_step hl.2
  data := h.data_step hl.2
  valid := h.valid_step hl.2
  write := fun _ hk hk' => h.write_step hl hk hk'
  mem := h.mem_step hl

section run
variable {s : StoreBuffer} {e : ℕ → StoreIn} {N n : ℕ}

theorem inv_run (hs : s.AfterReset) (hl : machine.Legal (start s init) e N) (hn : n ≤ N) :
    Inv init (machine.run (start s init) e n) := by
  refine Clocked.run_invariant (I := Inv init) ?_ ?_ hl n hn
  · rw [hs.eq]
    exact inv_start init
  · intro y i hy hi
    exact inv_step hy hi

/-- Stores reach memory in order, once each and after their commit. -/
structure DrainsInOrder (y : StoreSys) : Prop where
  /-- The `k`-th write carries the address and the data of the `k`-th store. -/
  write : ∀ k, 0 < k → k ≤ y.handed → k ≤ y.log.issued ∧ y.write k = y.log.store k
  /-- There were at least as many commits in the cycles before. -/
  committed : y.handed ≤ y.log.completed
  /-- Equal pointers say that no committed store is waiting. -/
  waiting : y.hw.completePtr = y.hw.retirePtr ↔ y.handed = y.log.completed

theorem Inv.drainsInOrder (h : Inv init y) : DrainsInOrder y where
  write := fun k hk hk' => ⟨hk'.trans h.handed_le, h.write k hk hk'⟩
  committed := h.counts.le
  waiting := by
    rw [h.counts.complete, h.counts.retire]
    constructor
    · intro heq
      have hroom := h.room
      have hcom := h.committed
      unfold Room at hroom
      exact ofNat_inj_window h.counts.le (by omega) heq.symm
    · intro heq
      rw [heq]

/-- In every run the stores drain in order, and no write is presented after the issue of a load. -/
theorem drains_in_order (hs : s.AfterReset) (hl : machine.Legal (start s init) e N) (hn : n ≤ N) :
    DrainsInOrder (machine.run (start s init) e n) ∧
      (n < N → (e n).loading = true →
        (machine.run (start s init) e (n + 1)).hw.memWe = false) := by
  have hinv := inv_run hs hl hn
  refine ⟨hinv.drainsInOrder, ?_⟩
  intro _ hload
  have hwe := hinv.counts.memWe_next (e n)
  rw [StoreBuffer.drains, hload] at hwe
  exact hwe

end run

/-- A store, a load in the cycle in which that store is completed, and a second store. -/
def storeLoadStore (n : ℕ) : StoreIn :=
  if n = 0 then ⟨true, true, 5, 7, false⟩
  else if n = 1 then ⟨true, false, 9, 0, true⟩
  else if n = 2 then ⟨true, true, 6, 8, true⟩
  else ⟨false, false, 0, 0, false⟩

/-- The load holds the first store up: in the cycle after it nothing is written, although a completed
    store is waiting. In the end both are in memory. -/
theorem drains_in_order_storeLoadStore :
    (machine.run (start StoreBuffer.cleared fun _ => 0) storeLoadStore 2).log.completed = 1 ∧
      (machine.run (start StoreBuffer.cleared fun _ => 0) storeLoadStore 2).handed = 0 ∧
      (machine.run (start StoreBuffer.cleared fun _ => 0) storeLoadStore 2).hw.memWe = false ∧
      (machine.run (start StoreBuffer.cleared fun _ => 0) storeLoadStore 4).handed = 2 ∧
      DrainsInOrder (machine.run (start StoreBuffer.cleared fun _ => 0) storeLoadStore 4) := by
  have hl : machine.Legal (start StoreBuffer.cleared fun _ => 0) storeLoadStore 5 := by
    decide +kernel
  refine ⟨by decide +kernel, by decide +kernel, ?_, by decide +kernel, ?_⟩
  · exact (drains_in_order StoreBuffer.afterReset_cleared (n := 1) hl (by decide)).2 (by decide) rfl
  · exact (drains_in_order StoreBuffer.afterReset_cleared (n := 4) hl (by decide)).1

end StoreSys
end HeliosXCore
