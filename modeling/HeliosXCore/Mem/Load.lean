import HeliosXCore.Lib.History
import HeliosXCore.Mem.Drain

/-! What a load sees of the stores before it.

    The scan looks at the entries 1 to 31 and keeps the last one that matches. Entry 0 holds the
    stores whose number is a multiple of 32, so the scan misses them; and while stores from before
    such a store are pending they lie above the younger ones and win. -/

namespace HeliosXCore
open Rtl

/-- Store `k` is the youngest of the first `n` stores to go to address `a`. -/
structure Youngest (store : ℕ → Word × Word) (a : Word) (n k : ℕ) : Prop where
  pos : 0 < k
  le : k ≤ n
  addr : (store k).1 = a
  last : ∀ j, k < j → j ≤ n → (store j).1 ≠ a

/-- Stores that go elsewhere do not change what is latest. -/
theorem latest_of_not {init : Word → Word} {store : ℕ → Word × Word} {a : Word} {m n : ℕ}
    (hmn : m ≤ n) (h : ∀ j, m < j → j ≤ n → (store j).1 ≠ a) :
    latest init store a n = latest init store a m := by
  induction n with
  | zero => rw [Nat.le_zero.mp hmn]
  | succ n ih =>
    rcases Nat.eq_or_lt_of_le hmn with rfl | hlt
    · rfl
    · rw [latest, if_neg (h (n + 1) (by omega) (le_refl _))]
      exact ih (by omega) fun j hj hj' => h j hj (by omega)

theorem Youngest.latest_eq {store : ℕ → Word × Word} {a : Word} {n k : ℕ}
    (h : Youngest store a n k) (init : Word → Word) : latest init store a n = (store k).2 := by
  rw [latest_of_not h.le h.last]
  rcases k with _ | k
  · exact absurd h.pos (by omega)
  · rw [latest, if_pos h.addr]

/-- An address that some store goes to has a youngest one. -/
theorem exists_youngest {store : ℕ → Word × Word} {a : Word} {n k : ℕ} (hk : 0 < k) (hkn : k ≤ n)
    (ha : (store k).1 = a) : ∃ m, Youngest store a n m := by
  induction n with
  | zero => omega
  | succ n ih =>
    by_cases hn : (store (n + 1)).1 = a
    · exact ⟨n + 1, by omega, le_refl _, hn, fun j hj hj' => by omega⟩
    · rcases Nat.eq_or_lt_of_le hkn with rfl | hlt
      · exact absurd ha hn
      · rcases ih (by omega) with ⟨m, hm⟩
        refine ⟨m, hm.pos, hm.le.trans (by omega), hm.addr, ?_⟩
        intro j hj hj'
        rcases Nat.eq_or_lt_of_le hj' with rfl | hlt'
        · exact hn
        · exact hm.last j hj (by omega)

namespace StoreBuffer

/-- The scan ends with the last entry that matches. -/
theorem loadScan_eq (s : StoreBuffer) (a : Word) : s.loadScan a =
    match lastBefore (fun i => 0 < i ∧ s.matchAt a i = true) 32 with
    | some j => (true, BitVec.ofNat 5 j)
    | none => (false, s.loadIndex) :=
  foldl_range'_last (p := fun i => s.matchAt a i = true) (fun i => (true, BitVec.ofNat 5 i))
    (false, s.loadIndex) 31

variable {s : StoreBuffer} {i : StoreIn}

theorem next_of_load (hload : i.loading = true) :
    (s.next false i).hit = (s.loadScan i.address).1 ∧
      (s.next false i).readData = s.data (s.loadScan i.address).2 := by
  have hst : (i.issue && i.we) = false := by
    rw [StoreIn.loading] at hload
    cases h1 : i.issue <;> cases h2 : i.we <;> simp_all
  have hl : (i.issue && !i.we) = true := hload
  constructor
  · simp [hit, next, hl]
  · simp [readData, next, hl, hst]

end StoreBuffer

namespace StoreSys

/-- The load sees the latest store to its address. -/
structure SeesLatest (init : Word → Word) (i : StoreIn) (y : StoreSys) : Prop where
  hit : (step i y).hw.hit = true →
    ∃ k, Youngest y.log.store i.address y.log.issued k ∧
      (step i y).hw.readData = (y.log.store k).2
  miss : (step i y).hw.hit = false →
    (step i y).mem i.address = latest init y.log.store i.address y.log.issued

theorem SeesLatest.of_hit {init : Word → Word} {i : StoreIn} {y : StoreSys} {k : ℕ}
    (hk : Youngest y.log.store i.address y.log.issued k) (hhit : (step i y).hw.hit = true)
    (hdata : (step i y).hw.readData = (y.log.store k).2) : SeesLatest init i y := by
  refine ⟨fun _ => ⟨k, hk, hdata⟩, ?_⟩
  intro hmiss
  rw [hhit] at hmiss
  cases hmiss

/-- The number of the last store that went to entry 0. -/
def lap (y : StoreSys) : ℕ := 32 * (y.log.issued / 32)

/-- The scan finds the right entry, or a wrong one with the right data: the store in entry 0 is no
    longer pending; or none from before it to `a` is pending and one from after it is; or the
    stores before it leave the same data at `a` as all stores do. -/
def ScanOk (init : Word → Word) (a : Word) (y : StoreSys) : Prop :=
  y.lap ≤ y.handed ∨
  ((∀ k, y.handed < k → k < y.lap → (y.log.store k).1 ≠ a) ∧
    ∃ k, y.lap < k ∧ k ≤ y.log.issued ∧ (y.log.store k).1 = a) ∨
  latest init y.log.store a (y.lap - 1) = latest init y.log.store a y.log.issued

variable {init : Word → Word} {y : StoreSys} {i : StoreIn} {a : Word}

theorem matchAt_iff (h : Inv init y) {j : ℕ} (hj : j < 32) : y.hw.matchAt a j = true ↔
    ∃ k, y.handed < k ∧ k ≤ y.log.issued ∧ k % 32 = j ∧ (y.log.store k).1 = a := by
  have hbit : bitAt y.hw.valid j = bit y.hw.valid (BitVec.ofNat 5 j) := by
    rw [bit, BitVec.toNat_ofNat, Nat.mod_eq_of_lt hj]
  rw [StoreBuffer.matchAt, Bool.and_eq_true, beq_iff_eq, hbit, h.valid]
  constructor
  · rintro ⟨⟨k, hk, hk', hkj⟩, ha⟩
    rw [← hkj, h.address k (by omega) hk'] at ha
    have hmod : k % 2 ^ 5 = j % 2 ^ 5 := ofNat_eq_iff_mod.mp hkj
    exact ⟨k, hk, by omega, by omega, ha⟩
  · rintro ⟨k, hk, hk', rfl, ha⟩
    have hkj : BitVec.ofNat 5 (k % 32) = BitVec.ofNat 5 k := by
      rw [ofNat_eq_iff_mod]
      omega
    rw [hkj, h.address k (by omega) (by omega)]
    exact ⟨⟨k, hk, by omega, rfl⟩, ha⟩

/-- Where a pending store lies, relative to the last one in entry 0. -/
theorem entry_of_pending (hroom : y.Room) {k : ℕ} (hk : y.handed < k) (hk' : k ≤ y.log.issued) :
    (k < y.lap ∧ k % 32 = k + 32 - y.lap ∧ y.log.issued < k + 32) ∨ (k = y.lap ∧ k % 32 = 0) ∨
      (y.lap < k ∧ k % 32 = k - y.lap) := by
  unfold Room at hroom
  unfold lap
  omega

/-- When the load misses, what counts is the memory, which holds the stores handed over. -/
theorem seesLatest_of_miss (h : Inv init y) (hmiss : (step i y).hw.hit = false) :
    SeesLatest init i y ↔ latest init y.log.store i.address y.handed =
      latest init y.log.store i.address y.log.issued := by
  have hmem : (step i y).mem i.address = latest init y.log.store i.address y.handed :=
    h.mem i.address
  constructor
  · intro hs
    rw [← hmem]
    exact hs.miss hmiss
  · intro heq
    refine ⟨?_, fun _ => hmem.trans heq⟩
    intro hhit
    rw [hmiss] at hhit
    cases hhit

/-- No pending store outside entry 0 goes to the address. -/
theorem scanOk_of_not (h : Inv init y)
    (hearly : ∀ k, y.handed < k → k < y.lap → (y.log.store k).1 ≠ i.address)
    (hlate : ∀ k, y.handed < k → y.lap < k → k ≤ y.log.issued → (y.log.store k).1 ≠ i.address) :
    ScanOk init i.address y ↔ latest init y.log.store i.address y.handed =
      latest init y.log.store i.address y.log.issued := by
  rcases Nat.lt_or_ge y.handed y.lap with hlt | hge
  · have hbefore : latest init y.log.store i.address (y.lap - 1) =
        latest init y.log.store i.address y.handed :=
      latest_of_not (by omega) fun j hj hj' => hearly j hj (by omega)
    rw [ScanOk, hbefore]
    constructor
    · rintro (hge | ⟨_, k, hlap, hk', ha⟩ | heq)
      · omega
      · exact absurd ha (hlate k (by omega) hlap hk')
      · exact heq
    · exact fun heq => Or.inr (Or.inr heq)
  · have heq : latest init y.log.store i.address y.log.issued =
        latest init y.log.store i.address y.handed :=
      latest_of_not h.handed_le fun j hj hj' => hlate j hj (by omega) hj'
    exact ⟨fun _ => heq.symm, fun _ => Or.inl hge⟩

section load
variable (h : Inv init y) (hload : i.loading = true)
include h hload

/-- The scan ends at entry `j`, which holds the pending store `k`. -/
theorem hit_of_scan {j k : ℕ}
    (hj : lastBefore (fun n => 0 < n ∧ y.hw.matchAt i.address n = true) 32 = some j)
    (hk : y.handed < k) (hk' : k ≤ y.log.issued) (hkj : k % 32 = j) :
    (step i y).hw.hit = true ∧ (step i y).hw.readData = (y.log.store k).2 := by
  have hnext := StoreBuffer.next_of_load (s := y.hw) hload
  have haddr : BitVec.ofNat 5 j = BitVec.ofNat 5 k := by
    rw [ofNat_eq_iff_mod]
    omega
  rw [StoreBuffer.loadScan_eq, hj] at hnext
  refine ⟨hnext.1, hnext.2.trans ?_⟩
  change y.hw.data (BitVec.ofNat 5 j) = _
  rw [haddr]
  exact h.data k (by omega) (by omega)

/-- When a pending store to the address lies outside entry 0, the scan ends at the one among these
    that lies highest. -/
theorem scan_highest {k : ℕ} (hk : y.handed < k) (hk' : k ≤ y.log.issued) (hk0 : 0 < k % 32)
    (ha : (y.log.store k).1 = i.address) :
    ∃ m, y.handed < m ∧ m ≤ y.log.issued ∧ (y.log.store m).1 = i.address ∧ 0 < m % 32 ∧
      (∀ n, y.handed < n → n ≤ y.log.issued → (y.log.store n).1 = i.address → n % 32 ≤ m % 32) ∧
      (step i y).hw.hit = true ∧ (step i y).hw.readData = (y.log.store m).2 := by
  have hmatch : ∀ n, y.handed < n → n ≤ y.log.issued → (y.log.store n).1 = i.address →
      y.hw.matchAt i.address (n % 32) = true := by
    intro n hn hn' hna
    exact (matchAt_iff h (Nat.mod_lt _ (by omega))).mpr ⟨n, hn, hn', rfl, hna⟩
  cases hlast : lastBefore (fun n => 0 < n ∧ y.hw.matchAt i.address n = true) 32 with
  | none =>
    exact absurd ⟨hk0, hmatch k hk hk' ha⟩ (lastBefore_eq_none.mp hlast (k % 32) (by omega))
  | some j =>
    have hj := lastBefore_lt hlast
    rcases (matchAt_iff h hj.1).mp hj.2.2 with ⟨m, hm, hm', rfl, hma⟩
    refine ⟨m, hm, hm', hma, hj.2.1, ?_, hit_of_scan h hload hlast hm hm' rfl⟩
    intro n hn hn' hna
    by_contra hlt
    exact not_of_lastBefore hlast (by omega) (by omega) ⟨by omega, hmatch n hn hn' hna⟩

/-- While older stores to the address are pending from before the store in entry 0, the scan ends
    at the youngest of these. -/
theorem hit_early {k : ℕ} (hk : y.handed < k) (hk' : k < y.lap)
    (ha : (y.log.store k).1 = i.address) :
    ∃ m, Youngest y.log.store i.address (y.lap - 1) m ∧ (step i y).hw.hit = true ∧
      (step i y).hw.readData = (y.log.store m).2 := by
  have hle : y.lap ≤ y.log.issued := Nat.mul_div_le _ _
  have hslot := entry_of_pending h.room hk (by omega)
  rcases scan_highest h hload hk (by omega) (by omega) ha with ⟨m, hm, hm', hma, _, hhigh, hread⟩
  have hmslot := entry_of_pending h.room hm hm'
  have hkm := hhigh k hk (by omega) ha
  refine ⟨m, ⟨by omega, by omega, hma, ?_⟩, hread⟩
  intro n hn hn' hna
  have hnslot := entry_of_pending h.room (k := n) (by omega) (by omega)
  have hnm := hhigh n (by omega) (by omega) hna
  omega

/-- Otherwise it ends at the youngest store to the address, unless that is the one in entry 0. -/
theorem hit_late (hearly : ∀ k, y.handed < k → k < y.lap → (y.log.store k).1 ≠ i.address) {k : ℕ}
    (hk : y.handed < k) (hlap : y.lap < k) (hk' : k ≤ y.log.issued)
    (ha : (y.log.store k).1 = i.address) :
    ∃ m, Youngest y.log.store i.address y.log.issued m ∧ (step i y).hw.hit = true ∧
      (step i y).hw.readData = (y.log.store m).2 := by
  have hslot := entry_of_pending h.room hk hk'
  rcases scan_highest h hload hk hk' (by omega) ha with ⟨m, hm, hm', hma, hm0, hhigh, hread⟩
  have hmslot := entry_of_pending h.room hm hm'
  have hmlap : ¬ m < y.lap := fun hlt => hearly m hm hlt hma
  refine ⟨m, ⟨by omega, hm', hma, ?_⟩, hread⟩
  intro n hn hn' hna
  have hnslot := entry_of_pending h.room (k := n) (by omega) (by omega)
  have hnm := hhigh n (by omega) hn' hna
  omega

/-- When no pending store outside entry 0 goes to the address, the load misses. -/
theorem miss_of_not (hno : ∀ k, y.handed < k → k ≤ y.log.issued → k ≠ y.lap →
    (y.log.store k).1 ≠ i.address) : (step i y).hw.hit = false := by
  have hnone : lastBefore (fun n => 0 < n ∧ y.hw.matchAt i.address n = true) 32 = none := by
    rw [lastBefore_eq_none]
    rintro j hj ⟨hj0, hm⟩
    rcases (matchAt_iff h hj).mp hm with ⟨k, hk, hk', rfl, ha⟩
    have hslot := entry_of_pending h.room hk hk'
    exact hno k hk hk' (by omega) ha
  have hnext := (StoreBuffer.next_of_load (s := y.hw) hload).1
  rw [StoreBuffer.loadScan_eq, hnone] at hnext
  exact hnext

/-- A store from before the one in entry 0 is pending and hides the younger ones. -/
theorem seesLatest_early {k : ℕ} (hk : y.handed < k) (hlap : k < y.lap)
    (ha : (y.log.store k).1 = i.address) : SeesLatest init i y ↔ ScanOk init i.address y := by
  have hle : y.lap ≤ y.log.issued := Nat.mul_div_le _ _
  rcases hit_early h hload hk hlap ha with ⟨m, hm, hhit, hdata⟩
  rcases exists_youngest (n := y.log.issued) (show 0 < k by omega) (by omega) ha with ⟨m', hm'⟩
  have hbefore := hm.latest_eq init
  have hall := hm'.latest_eq init
  constructor
  · intro hs
    rcases hs.hit hhit with ⟨k', hyoung, hk'⟩
    rw [ScanOk, hbefore, ← hdata, hk', hyoung.latest_eq init]
    exact Or.inr (Or.inr rfl)
  · rintro (hge | ⟨hno, _⟩ | heq)
    · omega
    · exact absurd ha (hno k hk hlap)
    · rw [hbefore, hall] at heq
      exact .of_hit hm' hhit (hdata.trans heq)

theorem seesLatest_iff : SeesLatest init i y ↔ ScanOk init i.address y := by
  by_cases hearly : ∀ k, y.handed < k → k < y.lap → (y.log.store k).1 ≠ i.address
  · by_cases hlate : ∀ k, y.handed < k → y.lap < k → k ≤ y.log.issued →
        (y.log.store k).1 ≠ i.address
    · have hmiss : (step i y).hw.hit = false := by
        refine miss_of_not h hload ?_
        intro k hk hk' hne
        rcases Nat.lt_or_ge k y.lap with hlt | hge
        · exact hearly k hk hlt
        · exact hlate k hk (by omega) hk'
      rw [seesLatest_of_miss h hmiss, scanOk_of_not h hearly hlate]
    · -- the scan ends at the youngest store
      push Not at hlate
      rcases hlate with ⟨k, hk, hlap, hk', ha⟩
      rcases hit_late h hload hearly hk hlap hk' ha with ⟨m, hm, hhit, hdata⟩
      constructor
      · intro _
        exact Or.inr (Or.inl ⟨hearly, k, hlap, hk', ha⟩)
      · intro _
        exact .of_hit hm hhit hdata
  · push Not at hearly
    rcases hearly with ⟨k, hk, hlap, ha⟩
    exact seesLatest_early h hload hk hlap ha

end load

/-- In every run a load sees the latest store exactly when the scan can tell it. -/
theorem sees_latest_iff {s : StoreBuffer} {init : Word → Word} {e : ℕ → StoreIn} {N n : ℕ}
    (hs : s.AfterReset) (hl : machine.Legal (start s init) e N) (hn : n < N)
    (hload : (e n).loading = true) :
    SeesLatest init (e n) (machine.run (start s init) e n) ↔
      ScanOk init (e n).address (machine.run (start s init) e n) :=
  seesLatest_iff (inv_run hs hl hn.le) hload

/-- 31 stores that are completed as they are issued, then one more, to address 7, and a load from
    there. -/
def loadAfterLap (n : ℕ) : StoreIn :=
  if n < 31 then ⟨true, true, 0, 1, true⟩
  else if n = 31 then ⟨true, true, 7, 9, false⟩
  else ⟨true, false, 7, 0, false⟩

/-- The load of that run, and one right after the first store. -/
theorem sees_latest_iff_lap :
    (SeesLatest (fun _ => 0) (loadAfterLap 32)
        (machine.run (start StoreBuffer.cleared fun _ => 0) loadAfterLap 32) ↔
      ScanOk (fun _ => 0) 7 (machine.run (start StoreBuffer.cleared fun _ => 0) loadAfterLap 32)) ∧
    (SeesLatest (fun _ => 0) (loadAfterLap 32)
        (machine.run (start StoreBuffer.cleared fun _ => 0) (fun n => loadAfterLap (n + 31)) 1) ↔
      ScanOk (fun _ => 0) 7
        (machine.run (start StoreBuffer.cleared fun _ => 0) (fun n => loadAfterLap (n + 31)) 1)) :=
  ⟨sees_latest_iff StoreBuffer.afterReset_cleared (N := 33) (by decide +kernel) (by omega) rfl,
    sees_latest_iff (e := fun n => loadAfterLap (n + 31)) StoreBuffer.afterReset_cleared (N := 2)
      (by decide +kernel) (by omega) rfl⟩

/-- Store 32 lies in entry 0: the load misses it and memory still holds 0. -/
theorem load_misses_entry_zero :
    machine.Legal (start StoreBuffer.cleared fun _ => 0) loadAfterLap 33 ∧
      (loadAfterLap 32).loading = true ∧
      ¬ SeesLatest (fun _ => 0) (loadAfterLap 32)
        (machine.run (start StoreBuffer.cleared fun _ => 0) loadAfterLap 32) := by
  refine ⟨by decide +kernel, rfl, ?_⟩
  intro h
  have hmiss := h.miss (by decide +kernel)
  revert hmiss
  decide +kernel

end StoreSys
end HeliosXCore
