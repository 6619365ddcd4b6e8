import HeliosXCore.Lib.Run
import HeliosXCore.Lib.Window
import HeliosXCore.Rtl.ExUnit

/-! The store buffer in its environment: stores and loads are issued, commits are announced, and a
    memory takes what the buffer presents.

    Stores are numbered from 1 in the order of issue; store `k` lies in entry `k` modulo 32. The
    three pointers are the numbers of the last store issued, completed and handed to memory. -/

namespace HeliosXCore
open Rtl

namespace StoreIn

/-- A store is issued. -/
def storing (i : StoreIn) : Bool := i.issue && i.we

/-- A load is issued. -/
def loading (i : StoreIn) : Bool := i.issue && !i.we

end StoreIn

/-- What was asked of the store buffer since reset. -/
structure StoreLog where
  /-- How many stores were issued. -/
  issued : ℕ
  /-- Address and data of each store. -/
  store : ℕ → Word × Word
  /-- How many `complete_i` pulses were given. -/
  completed : ℕ

namespace StoreLog

/-- Nothing has been asked of the buffer. -/
def empty : StoreLog := ⟨0, fun _ => (0, 0), 0⟩

/-- What one cycle asks of it. -/
def step (i : StoreIn) (l : StoreLog) : StoreLog where
  issued := if i.storing then l.issued + 1 else l.issued
  store := if i.storing then Function.update l.store (l.issued + 1) (i.address, i.writeData)
    else l.store
  completed := if i.complete then l.completed + 1 else l.completed

theorem issued_le_step (i : StoreIn) (l : StoreLog) : l.issued ≤ (l.step i).issued := by
  unfold step
  split <;> simp

theorem completed_le_step (i : StoreIn) (l : StoreLog) : l.completed ≤ (l.step i).completed := by
  unfold step
  dsimp only
  split <;> omega

theorem issued_step (i : StoreIn) (l : StoreLog) :
    (l.step i).issued = if i.storing then l.issued + 1 else l.issued := rfl

/-- A table that is written with one part of each store holds it for the stores from `lo` on. -/
theorem holds_step {α : Type} {f f' : BitVec 5 → α} {part : Word × Word → α} {v : α} {lo : ℕ}
    {i : StoreIn} {l : StoreLog} (hf : Holds f (part ∘ l.store) lo (l.issued + 1))
    (hf' : f' = if i.storing then Function.update f (BitVec.ofNat 5 (l.issued + 1)) v else f)
    (hv : part (i.address, i.writeData) = v) (hroom : (l.step i).issued < lo + 32) :
    Holds f' (part ∘ (l.step i).store) lo ((l.step i).issued + 1) := by
  rw [hf']
  rw [issued_step] at hroom
  cases hs : i.storing with
  | true =>
    rw [hs] at hroom
    have hpush := hf.push (w := 5) hroom v
    simp only [step, hs, if_true, Function.comp_update, hv]
    exact hpush
  | false =>
    simp only [step, hs, Bool.false_eq_true, if_false]
    exact hf

/-- A store that was issued stays in the log. -/
theorem store_step (i : StoreIn) (l : StoreLog) {k : ℕ} (hk : k ≤ l.issued) :
    (l.step i).store k = l.store k := by
  unfold step
  dsimp only
  split
  · exact Function.update_of_ne (by omega) _ _
  · rfl

end StoreLog

namespace StoreBuffer

/-- The state that reset leaves. -/
def cleared : StoreBuffer := ⟨0, 0, 0, fun _ => 0, fun _ => 0, 0, false, 0, false⟩

/-- Reset was held for at least one edge. -/
def AfterReset (s : StoreBuffer) : Prop := ∃ i s0, s = next true i s0

theorem AfterReset.eq {s : StoreBuffer} (h : AfterReset s) : s = cleared := by
  rcases h with ⟨i, s0, rfl⟩
  rfl

theorem afterReset_cleared : AfterReset cleared := ⟨⟨false, false, 0, 0, false⟩, cleared, rfl⟩

/-- The pointers are narrower than the literal they are compared with, so they pass through 0. -/
theorem succPtr_eq (p : BitVec 5) : succPtr p = p + 1 := by
  revert p
  decide

theorem succPtr_ofNat (k : ℕ) : succPtr (BitVec.ofNat 5 k) = BitVec.ofNat 5 (k + 1) := by
  rw [succPtr_eq, ofNat_succ]

/-! ### The pointers

    They follow the counts whatever is asked of the buffer. -/

/-- The pointers are the counts modulo 32, `r` stores having been handed to memory. -/
structure Counts (s : StoreBuffer) (l : StoreLog) (r : ℕ) : Prop where
  used : s.usedPtr = BitVec.ofNat 5 l.issued
  complete : s.completePtr = BitVec.ofNat 5 l.completed
  retire : s.retirePtr = BitVec.ofNat 5 r
  le : r ≤ l.completed

variable {s : StoreBuffer} {l : StoreLog} {r : ℕ} {i : StoreIn}

theorem counts_cleared : Counts cleared StoreLog.empty 0 := ⟨rfl, rfl, rfl, le_refl 0⟩

/-- `draining` of an edge, over the counts. -/
def drains (i : StoreIn) (l : StoreLog) (r : ℕ) : Bool :=
  !i.loading && BitVec.ofNat 5 (l.step i).completed != BitVec.ofNat 5 r

theorem not_loading_eq (i : StoreIn) : (!i.issue || (i.issue && i.we)) = !i.loading := by
  rw [StoreIn.loading]
  cases i.issue <;> cases i.we <;> rfl

theorem Counts.usedPtr_next (h : Counts s l r) (i : StoreIn) :
    (s.next false i).usedPtr = BitVec.ofNat 5 (l.step i).issued := by
  change (if i.storing then succPtr s.usedPtr else s.usedPtr) = _
  rw [h.used, succPtr_ofNat, StoreLog.step]
  split <;> rfl

theorem Counts.completePtr_next (h : Counts s l r) (i : StoreIn) :
    (s.next false i).completePtr = BitVec.ofNat 5 (l.step i).completed := by
  change (if i.complete then succPtr s.completePtr else s.completePtr) = _
  rw [h.complete, succPtr_ofNat, StoreLog.step]
  split <;> rfl

theorem Counts.memWe_next (h : Counts s l r) (i : StoreIn) :
    (s.next false i).memWe = drains i l r := by
  change ((!i.issue || (i.issue && i.we)) && (s.next false i).completePtr != s.retirePtr) = _
  rw [drains, not_loading_eq, h.completePtr_next, h.retire]

theorem Counts.retirePtr_next (h : Counts s l r) (i : StoreIn) :
    (s.next false i).retirePtr = BitVec.ofNat 5 (if drains i l r then r + 1 else r) := by
  change (if (s.next false i).memWe then succPtr s.retirePtr else s.retirePtr) = _
  rw [h.memWe_next, h.retire, succPtr_ofNat]
  split <;> rfl

theorem Counts.address_next (h : Counts s l r) (i : StoreIn) : (s.next false i).address =
    if i.storing then Function.update s.address (BitVec.ofNat 5 (l.issued + 1)) i.address
    else s.address := by
  change (if i.storing then Function.update s.address (if i.storing then succPtr s.usedPtr
    else s.usedPtr) i.address else s.address) = _
  split
  · rw [h.used, succPtr_ofNat]
  · rfl

theorem Counts.data_next (h : Counts s l r) (i : StoreIn) : (s.next false i).data =
    if i.storing then Function.update s.data (BitVec.ofNat 5 (l.issued + 1)) i.writeData
    else s.data := by
  change (if i.storing then Function.update s.data (if i.storing then succPtr s.usedPtr
    else s.usedPtr) i.writeData else s.data) = _
  split
  · rw [h.used, succPtr_ofNat]
  · rfl

/-- `valid` after the issue of a store, if there is one. -/
def validIssued (i : StoreIn) (l : StoreLog) (v : Bits 5) : Bits 5 :=
  if i.storing then setBit v (BitVec.ofNat 5 (l.issued + 1)) true else v

theorem Counts.valid_next (h : Counts s l r) (i : StoreIn) : (s.next false i).valid =
    if drains i l r then setBit (validIssued i l s.valid) (BitVec.ofNat 5 (r + 1)) false
    else validIssued i l s.valid := by
  have hv : (if i.storing then setBit (k := 5) s.valid (if i.storing then succPtr s.usedPtr
      else s.usedPtr) true else s.valid) = validIssued i l s.valid := by
    rw [validIssued]
    split
    · rw [h.used, succPtr_ofNat]
    · rfl
  change (if (s.next false i).memWe then setBit (k := 5) (if i.storing then setBit (k := 5) s.valid
      (if i.storing then succPtr s.usedPtr else s.usedPtr) true else s.valid)
      (if (s.next false i).memWe then succPtr s.retirePtr else s.retirePtr) false
    else if i.storing then setBit (k := 5) s.valid
      (if i.storing then succPtr s.usedPtr else s.usedPtr) true else s.valid) = _
  rw [hv, h.memWe_next, h.retire, succPtr_ofNat]
  split <;> rfl

/-- The buffer never hands over more stores than were completed. -/
theorem Counts.lt_of_drains (h : Counts s l r) (hd : drains i l r = true) :
    r < (l.step i).completed := by
  have hle := h.le.trans (l.completed_le_step i)
  rcases Nat.eq_or_lt_of_le hle with heq | hlt
  · rw [drains, ← heq] at hd
    simp at hd
  · exact hlt

theorem Counts.next (h : Counts s l r) (i : StoreIn) :
    Counts (s.next false i) (l.step i) (if drains i l r then r + 1 else r) where
  used := h.usedPtr_next i
  complete := h.completePtr_next i
  retire := h.retirePtr_next i
  le := by
    split
    · rename_i hd
      exact h.lt_of_drains hd
    · exact h.le.trans (l.completed_le_step i)

end StoreBuffer

/-- What a memory that held `init` returns for address `a` after the first `n` stores: the data of
    the youngest one to `a`. -/
def latest (init : Word → Word) (store : ℕ → Word × Word) (a : Word) : ℕ → Word
  | 0 => init a
  | n + 1 => if (store (n + 1)).1 = a then (store (n + 1)).2 else latest init store a n

/-- The store buffer, the log of what was asked of it, what it presented and a memory that takes it. -/
structure StoreSys where
  hw : StoreBuffer
  log : StoreLog
  /-- How many cycles had `mem_we_o = 1`, the current one included. -/
  handed : ℕ
  /-- Address and data that each of them presented. -/
  write : ℕ → Word × Word
  mem : Word → Word

namespace StoreSys

/-- The buffer after reset, in front of a memory with contents `init`. -/
def start (s : StoreBuffer) (init : Word → Word) : StoreSys :=
  ⟨s, StoreLog.empty, 0, fun _ => (0, 0), init⟩

/-- The memory after the edge that ends the cycle. -/
def memNext (y : StoreSys) : Word → Word :=
  if y.hw.memWe then Function.update y.mem y.hw.writeAddress y.hw.writeData else y.mem

/-- One cycle of the buffer, of the record and of the memory. -/
def step (i : StoreIn) (y : StoreSys) : StoreSys :=
  let hw := y.hw.next false i
  { hw := hw
    log := y.log.step i
    handed := if hw.memWe then y.handed + 1 else y.handed
    write := if hw.memWe then
      Function.update y.write (y.handed + 1) (hw.writeAddress, hw.writeData) else y.write
    mem := y.memNext }

/-- Only a store that was issued, possibly in the same cycle, is completed, and only once. -/
def CompleteOk (y : StoreSys) (i : StoreIn) : Prop :=
  i.complete = true → y.log.completed < (y.log.step i).issued

/-- At most 31 stores are issued and not yet handed to memory. -/
def Room (y : StoreSys) : Prop := y.log.issued ≤ y.handed + 31

instance (y : StoreSys) (i : StoreIn) : Decidable (y.CompleteOk i) :=
  inferInstanceAs (Decidable (_ → _))

instance (y : StoreSys) : Decidable y.Room := inferInstanceAs (Decidable (_ ≤ _))

/-- The buffer where stores are completed once each and 31 of them are waiting at most. -/
def machine : Clocked StoreSys StoreIn := ⟨step, fun y i => y.CompleteOk i ∧ (step i y).Room⟩

instance (y : StoreSys) (i : StoreIn) : Decidable (machine.legal y i) :=
  inferInstanceAs (Decidable (_ ∧ _))

end StoreSys

end HeliosXCore
