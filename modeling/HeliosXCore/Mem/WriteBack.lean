import HeliosXCore.Mem.Load

/-! The write-back of a load through the latches of `ExUnit`.

    Write enable and tag are latched in the issue cycle. So is the data, but the hit flag and the
    entry that select it are registers themselves: in the issue cycle they still belong to the cycle
    before. A load is therefore written back with what the load one cycle earlier found, if there
    was one and it hit, and with the memory data of its issue cycle otherwise. -/

namespace HeliosXCore
open Rtl

/-- The input ports of `ExUnit`. -/
structure ExIn where
  alu : AluIn
  branchTag : RrfTag
  branch : BranchIn
  memAccess : MemAccessIn

namespace ExIn

/-- What the MemAccess port asks of the store buffer. -/
def storeIn (i : ExIn) : StoreIn := MemAccessUnit.storeIn i.memAccess

end ExIn

/-- The execution units and the log of what their store buffer was asked. -/
structure ExSys where
  hw : ExUnit
  log : StoreLog

namespace ExSys

def start (s : ExUnit) : ExSys := ⟨s, StoreLog.empty⟩

def step (i : ExIn) (y : ExSys) : ExSys :=
  ⟨y.hw.next false i.alu i.branchTag i.branch i.memAccess, y.log.step i.storeIn⟩

/-- At most 31 stores are issued; `complete_i` is free. -/
def machine : Clocked ExSys ExIn := ⟨step, fun y i => (y.log.step i.storeIn).issued ≤ 31⟩

instance (y : ExSys) (i : ExIn) : Decidable (machine.legal y i) :=
  inferInstanceAs (Decidable (_ ≤ _))

/-- Reset was held for at least one edge. -/
def AfterReset (s : ExUnit) : Prop := ∃ a t b m s0, s = ExUnit.next true a t b m s0

theorem AfterReset.eq {s : ExUnit} (h : AfterReset s) : s = ExUnit.zero := by
  rcases h with ⟨a, t, b, m, s0, rfl⟩
  rfl

/-- Store `k` to address `a` is in an entry that is marked valid. -/
def Pending (y : ExSys) (a : Word) (k : ℕ) : Prop :=
  0 < k ∧ k ≤ y.log.issued ∧ bit y.hw.storeBuffer.valid (BitVec.ofNat 5 k) = true ∧
    (y.log.store k).1 = a

/-- Store `k` is the youngest pending one to address `a`. -/
def YoungestPending (y : ExSys) (a : Word) (k : ℕ) : Prop :=
  y.Pending a k ∧ ∀ j, k < j → ¬ y.Pending a j

/-- A load is issued in state `y` and a pending store `k` to its address is the youngest one. -/
def Finds (y : ExSys) (i : ExIn) (k : ℕ) : Prop :=
  i.storeIn.loading = true ∧ y.YoungestPending i.storeIn.address k

/-- `d` is what a load that is issued in cycle `n` is written back with: the data that the load of
    the cycle before found in the store buffer, or else what memory delivers in cycle `n`. -/
def TakenAt (s : ExUnit) (e : ℕ → ExIn) (d : Word) : ℕ → Prop
  | 0 => (e 0).memAccess.loadDataFromDataMemory = d
  | n + 1 =>
    (∃ k, (machine.run (start s) e n).Finds (e n) k ∧
      ((machine.run (start s) e n).log.store k).2 = d) ∨
    ((∀ k, ¬ (machine.run (start s) e n).Finds (e n) k) ∧
      (e (n + 1)).memAccess.loadDataFromDataMemory = d)

/-- The entries 1 to 31 hold the stores in order; no pointer has wrapped. -/
structure Inv (y : ExSys) : Prop where
  counts : ∃ r, y.hw.storeBuffer.Counts y.log r
  room : y.log.issued ≤ 31
  address : Holds y.hw.storeBuffer.address (Prod.fst ∘ y.log.store) 1 (y.log.issued + 1)
  data : Holds y.hw.storeBuffer.data (Prod.snd ∘ y.log.store) 1 (y.log.issued + 1)
  valid : ∀ j, 0 < j → j < 32 → bit y.hw.storeBuffer.valid (BitVec.ofNat 5 j) = true →
    j ≤ y.log.issued

variable {y : ExSys} {i : ExIn}

theorem inv_start : Inv (start ExUnit.zero) where
  counts := ⟨0, StoreBuffer.counts_cleared⟩
  room := by simp [start, StoreLog.empty]
  address := fun _ _ _ => rfl
  data := fun _ _ _ => rfl
  valid := by
    intro j _ _ hj
    rw [show (start ExUnit.zero).hw.storeBuffer.valid = 0 from rfl, bit_zero] at hj
    cases hj

theorem inv_step (h : Inv y) (hl : machine.legal y i) : Inv (step i y) := by
  rcases h.counts with ⟨r, hc⟩
  have hroom : (y.log.step i.storeIn).issued ≤ 31 := hl
  refine ⟨⟨_, hc.next i.storeIn⟩, hl, ?_, ?_, ?_⟩
  · exact StoreLog.holds_step h.address (hc.address_next i.storeIn) rfl
      (show (y.log.step i.storeIn).issued < 1 + 32 by omega)
  · exact StoreLog.holds_step h.data (hc.data_next i.storeIn) rfl
      (show (y.log.step i.storeIn).issued < 1 + 32 by omega)
  · intro j hj hj' hbit
    -- an edge marks no entry but that of a new store
    have hmid : bit (StoreBuffer.validIssued i.storeIn y.log y.hw.storeBuffer.valid)
        (BitVec.ofNat 5 j) = true := by
      have hvalid : (step i y).hw.storeBuffer.valid = _ := hc.valid_next i.storeIn
      rw [hvalid] at hbit
      split at hbit
      · rw [bit_setBit] at hbit
        split at hbit
        · cases hbit
        · exact hbit
      · exact hbit
    change j ≤ (y.log.step i.storeIn).issued
    rw [StoreBuffer.validIssued] at hmid
    rw [StoreLog.issued_step] at hroom ⊢
    split at hmid
    · rename_i hs
      rw [if_pos hs] at hroom ⊢
      rw [bit_setBit] at hmid
      split at hmid
      · rename_i heq
        have hmod : j % 2 ^ 5 = (y.log.issued + 1) % 2 ^ 5 := ofNat_eq_iff_mod.mp heq
        omega
      · exact (h.valid j hj hj' hmid).trans (Nat.le_succ _)
    · rename_i hs
      rw [if_neg hs]
      exact h.valid j hj hj' hmid

theorem matchAt_iff (h : Inv y) {a : Word} {j : ℕ} (hj : 0 < j) (hj' : j < 32) :
    y.hw.storeBuffer.matchAt a j = true ↔ y.Pending a j := by
  have hbit : bitAt y.hw.storeBuffer.valid j = bit y.hw.storeBuffer.valid (BitVec.ofNat 5 j) := by
    rw [bit, BitVec.toNat_ofNat, Nat.mod_eq_of_lt hj']
  rw [StoreBuffer.matchAt, Bool.and_eq_true, beq_iff_eq, hbit, Pending]
  constructor
  · rintro ⟨hv, ha⟩
    have hle := h.valid j hj hj' hv
    rw [h.address j hj (by omega)] at ha
    exact ⟨hj, hle, hv, ha⟩
  · rintro ⟨_, hle, hv, ha⟩
    rw [h.address j hj (by omega)]
    exact ⟨hv, ha⟩

/-- The scan ends at the youngest pending store. -/
theorem lastBefore_eq_some_iff (h : Inv y) {a : Word} {k : ℕ} :
    lastBefore (fun n => 0 < n ∧ y.hw.storeBuffer.matchAt a n = true) 32 = some k ↔
      y.YoungestPending a k := by
  have hroom := h.room
  constructor
  · intro hlast
    have hk := lastBefore_lt hlast
    refine ⟨(matchAt_iff h hk.2.1 hk.1).mp hk.2.2, ?_⟩
    intro j hj hpend
    have hj' : j < 32 := by
      have := hpend.2.1
      omega
    exact not_of_lastBefore hlast hj hj' ⟨hpend.1, (matchAt_iff h hpend.1 hj').mpr hpend⟩
  · rintro ⟨hpend, hyoung⟩
    have hk : k < 32 := by
      have := hpend.2.1
      omega
    have hmatch := (matchAt_iff h hpend.1 hk).mpr hpend
    cases hlast : lastBefore (fun n => 0 < n ∧ y.hw.storeBuffer.matchAt a n = true) 32 with
    | none => exact absurd ⟨hpend.1, hmatch⟩ (lastBefore_eq_none.mp hlast k hk)
    | some j =>
      have hj := lastBefore_lt hlast
      have hjpend := (matchAt_iff h hj.2.1 hj.1).mp hj.2.2
      rcases Nat.lt_trichotomy j k with hlt | rfl | hlt
      · exact absurd ⟨hpend.1, hmatch⟩ (not_of_lastBefore hlast hlt hk)
      · rfl
      · exact absurd hjpend (hyoung j hlt)

/-- After a load that finds store `k` the buffer offers its data. -/
theorem offers_of_finds (h : Inv y) {k : ℕ} (hk : y.Finds i k) :
    (step i y).hw.storeBuffer.hit = true ∧
      (step i y).hw.storeBuffer.readData = (y.log.store k).2 := by
  have hnext := StoreBuffer.next_of_load (s := y.hw.storeBuffer) hk.1
  rw [StoreBuffer.loadScan_eq, (lastBefore_eq_some_iff h).mpr hk.2] at hnext
  refine ⟨hnext.1, hnext.2.trans ?_⟩
  exact h.data k hk.2.1.1 (by have := hk.2.1.2.1; omega)

/-- After any other cycle it offers nothing. -/
theorem not_hit_of_not_finds (h : Inv y) (hno : ∀ k, ¬ y.Finds i k) :
    (step i y).hw.storeBuffer.hit = false := by
  cases hload : i.storeIn.loading with
  | false =>
    change (i.storeIn.loading && _) = false
    rw [hload, Bool.false_and]
  | true =>
    have hnone : lastBefore (fun n => 0 < n ∧
        y.hw.storeBuffer.matchAt i.storeIn.address n = true) 32 = none := by
      cases hlast : lastBefore (fun n => 0 < n ∧
          y.hw.storeBuffer.matchAt i.storeIn.address n = true) 32 with
      | none => rfl
      | some k => exact absurd ⟨hload, (lastBefore_eq_some_iff h).mp hlast⟩ (hno k)
    have hnext := (StoreBuffer.next_of_load (s := y.hw.storeBuffer) hload).1
    rw [StoreBuffer.loadScan_eq, hnone] at hnext
    exact hnext

section run
variable {s : ExUnit} {e : ℕ → ExIn} {N n : ℕ}

theorem inv_run (hs : AfterReset s) (hl : machine.Legal (start s) e N) (hn : n ≤ N) :
    Inv (machine.run (start s) e n) := by
  refine Clocked.run_invariant (I := Inv) ?_ ?_ hl n hn
  · rw [hs.eq]
    exact inv_start
  · intro y i hy hi
    exact inv_step hy hi

/-- What the MemAccess unit puts out in cycle `n`. -/
theorem loadData_eq_iff (hs : AfterReset s) (hl : machine.Legal (start s) e N) (hn : n ≤ N)
    (d : Word) :
    MemAccessUnit.loadData (machine.run (start s) e n).hw.storeBuffer (e n).memAccess = d ↔
      TakenAt s e d n := by
  cases n with
  | zero =>
    rw [hs.eq]
    exact Iff.rfl
  | succ n =>
    have hinv := inv_run hs hl (show n ≤ N by omega)
    have hrun : machine.run (start s) e (n + 1) = step (e n) (machine.run (start s) e n) := rfl
    rw [TakenAt, MemAccessUnit.loadData, hrun]
    by_cases hfind : ∃ k, (machine.run (start s) e n).Finds (e n) k
    · constructor
      · intro heq
        rcases hfind with ⟨k, hk⟩
        have hoff := offers_of_finds hinv hk
        rw [if_pos hoff.1, hoff.2] at heq
        exact Or.inl ⟨k, hk, heq⟩
      · rintro (⟨k, hk, hd⟩ | ⟨hno, _⟩)
        · have hoff := offers_of_finds hinv hk
          rw [if_pos hoff.1, hoff.2, hd]
        · exact absurd hfind (by simpa using hno)
    · push Not at hfind
      have hmiss := not_hit_of_not_finds hinv hfind
      rw [if_neg (by rw [hmiss]; exact Bool.false_ne_true)]
      constructor
      · intro heq
        exact Or.inr ⟨hfind, heq⟩
      · rintro (⟨k, hk, _⟩ | ⟨_, heq⟩)
        · exact absurd hk (hfind k)
        · exact heq

/-- Each load is written back once, in the cycle after its issue and with its tag. When an
    uncommitted store to its address is pending, it gets the data of the youngest one exactly when
    that is also what the unit put out in the issue cycle. -/
theorem write_back_iff (hs : AfterReset s) (hl : machine.Legal (start s) e N) (hn : n < N) :
    (machine.run (start s) e 0).hw.memAccess.rrfWe = false ∧
    (machine.run (start s) e (n + 1)).hw.memAccess.rrfWe = (e n).storeIn.loading ∧
    (machine.run (start s) e (n + 1)).hw.memAccess.rrfTag = (e n).memAccess.rrfTag ∧
    ((e n).storeIn.loading = true → ∀ k,
      Youngest (machine.run (start s) e n).log.store (e n).storeIn.address
        (machine.run (start s) e n).log.issued k →
      (machine.run (start s) e n).log.completed < k →
      ((machine.run (start s) e (n + 1)).hw.memAccess.loadData =
          ((machine.run (start s) e n).log.store k).2 ↔
        TakenAt s e ((machine.run (start s) e n).log.store k).2 n)) := by
  refine ⟨?_, ?_, rfl, ?_⟩
  · rw [hs.eq]
    rfl
  · change ((e n).memAccess.issue && (e n).memAccess.ifWriteRrf) =
      ((e n).memAccess.issue && !!(e n).memAccess.ifWriteRrf)
    rw [Bool.not_not]
  · intro _ k _ _
    exact loadData_eq_iff hs hl hn.le _

end run

/-- An idle ALU or branch port. -/
def idleAlu : AluIn := ⟨false, false, 0, 0, 0, 0, 0, 0, 0, 0⟩
def idleBranch : BranchIn := ⟨false, false, 0, 0, 0, 0, 0, 0⟩

/-- A store of 5 to address 8 and a load from there, while memory delivers 0. -/
def loadAfterStore (n : ℕ) : ExIn :=
  ⟨idleAlu, 0, idleBranch,
    if n = 0 then ⟨8, 5, 0, false, true, false, 0, 0⟩ else ⟨8, 0, 0, true, true, false, 0, 3⟩⟩

theorem afterReset_zero : AfterReset ExUnit.zero :=
  ⟨idleAlu, 0, idleBranch, ⟨0, 0, 0, false, false, false, 0, 0⟩, ExUnit.zero, rfl⟩

/-- The run of the store and the load. -/
def loadRun (n : ℕ) : ExSys := machine.run (start ExUnit.zero) loadAfterStore n

theorem write_back_iff_load :
    (loadRun 0).hw.memAccess.rrfWe = false ∧
    (loadRun (1 + 1)).hw.memAccess.rrfWe = (loadAfterStore 1).storeIn.loading ∧
    (loadRun (1 + 1)).hw.memAccess.rrfTag = (loadAfterStore 1).memAccess.rrfTag ∧
    ((loadAfterStore 1).storeIn.loading = true → ∀ k,
      Youngest (loadRun 1).log.store (loadAfterStore 1).storeIn.address (loadRun 1).log.issued k →
      (loadRun 1).log.completed < k →
      ((loadRun (1 + 1)).hw.memAccess.loadData = ((loadRun 1).log.store k).2 ↔
        TakenAt ExUnit.zero loadAfterStore ((loadRun 1).log.store k).2 1)) :=
  write_back_iff afterReset_zero (N := 2) (by decide +kernel) (by omega)

/-- The load is written back with 0, while the pending store to its address has 5. -/
theorem load_written_back_stale :
    machine.Legal (start ExUnit.zero) loadAfterStore 2 ∧
      (loadAfterStore 1).storeIn.loading = true ∧
      Youngest (loadRun 1).log.store (loadAfterStore 1).storeIn.address (loadRun 1).log.issued 1 ∧
      (loadRun 1).log.completed < 1 ∧
      (loadRun 2).hw.memAccess.rrfWe = true ∧ (loadRun 2).hw.memAccess.rrfTag = 3 ∧
      (loadRun 2).hw.memAccess.loadData ≠ ((loadRun 1).log.store 1).2 := by
  refine ⟨by decide +kernel, rfl, ⟨by omega, le_refl 1, rfl, ?_⟩, by decide, rfl, rfl, by decide⟩
  intro j hj hj'
  have hissued : (loadRun 1).log.issued = 1 := rfl
  omega

end ExSys
end HeliosXCore
