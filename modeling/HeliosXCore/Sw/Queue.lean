import HeliosXCore.Lib.History
import HeliosXCore.Sw.Allocate
import HeliosXCore.Sw.InOrder
import HeliosXCore.Sw.Pair

/-! The in-order unit at every size. Its parameters allow any number of entries that is a power of
    two; the head of the queue is found again from the busy vector in each cycle, whether the window
    of busy entries is plain, wrapped around or full. -/

namespace HeliosXCore
open Rtl

/-! ### The two searches -/

section Search
variable {k : ℕ} {v : Bits k} {j : ℕ}

theorem searchBegin_eq (hj : bitAt v j = true) (hlt : j < 2 ^ k)
    (hbelow : ∀ i, i < j → bitAt v i = false) : searchBegin k v = (BitVec.ofNat k j, true) := by
  have hfind : (List.range (2 ^ k)).find? (fun i => bitAt v i) = some j := by
    rw [List.find?_range_eq_some]
    refine ⟨hj, List.mem_range.mpr hlt, ?_⟩
    intro i hi
    rw [hbelow i hi]
    rfl
  have hscan := PriorityEncoder.foldr_eq_find (fun i => bitAt v i) k (List.range (2 ^ k))
  rw [hfind] at hscan
  exact hscan

theorem searchEnd_eq (v : Bits k) : searchEnd k v =
    match lastBefore (fun i => bitAt v i = true) (2 ^ k) with
    | some i => (BitVec.ofNat k i, true)
    | none => (0, false) := foldl_range_last _ _ _

theorem searchEnd_of_last (hj : bitAt v j = true) (hlt : j < 2 ^ k)
    (habove : ∀ i, j < i → i < 2 ^ k → bitAt v i = false) :
    searchEnd k v = (BitVec.ofNat k j, true) := by
  have hlast : lastBefore (fun i => bitAt v i = true) (2 ^ k) = some j := by
    rw [lastBefore_of_le (m := j + 1) (by omega), lastBefore_succ, if_pos hj]
    intro i hi hi'
    rw [habove i hi hi']
    exact Bool.false_ne_true
  rw [searchEnd_eq, hlast]

/-- The search from above finds something exactly if a bit is set. -/
theorem searchEnd_en (v : Bits k) :
    (searchEnd k v).2 = true ↔ ∃ i, i < 2 ^ k ∧ bitAt v i = true := by
  rw [searchEnd_eq]
  cases hlast : lastBefore (fun i => bitAt v i = true) (2 ^ k) with
  | none =>
    refine ⟨fun h => absurd h Bool.false_ne_true, ?_⟩
    rintro ⟨i, hi, hb⟩
    exact absurd hb (lastBefore_eq_none.mp hlast i hi)
  | some j => exact ⟨fun _ => ⟨j, lastBefore_lt hlast⟩, fun _ => rfl⟩

theorem bitAt_not {i : ℕ} (hi : i < 2 ^ k) : bitAt (~~~v) i = !bitAt v i := by
  simp [bitAt, hi]

end Search

/-! ### The head of the queue -/

namespace InorderAllocIssueUnit
variable {k : ℕ} {v : Bits k} {lo hi : ℕ}

theorem toNat_ofNat_of_lt {i : ℕ} (h : i < 2 ^ k) : (BitVec.ofNat k i).toNat = i := by
  rw [BitVec.toNat_ofNat, Nat.mod_eq_of_lt h]

/-- Some entry is free as long as the window is not full. -/
theorem searchEnd_free (h : Marks v lo hi) (hroom : hi < lo + 2 ^ k) :
    (searchEnd k (~~~v)).2 = true := by
  have hpos := Nat.two_pow_pos k
  have hlt := Nat.mod_lt hi hpos
  refine (searchEnd_en _).mpr ⟨hi % 2 ^ k, hlt, ?_⟩
  have hbit : bitAt v (hi % 2 ^ k) = bit v (BitVec.ofNat k hi) := by
    rw [bit, BitVec.toNat_ofNat]
  rw [bitAt_not hlt, Bool.not_eq_true', hbit, ← Bool.not_eq_true, h]
  rintro ⟨i, hi', hi'', heq⟩
  have := ofNat_inj_window (Nat.le_of_lt hi'') (by omega) heq
  omega

/-- A window that does not wrap around begins at the first busy entry. -/
theorem issuePtr_plain (h : Marks v lo hi) (hlt : lo < hi) (hroom : hi < lo + 2 ^ k)
    (hplain : lo % 2 ^ k + hi ≤ 2 ^ k + lo) (p : BitVec k) :
    issuePtr v p = BitVec.ofNat k (lo % 2 ^ k) := by
  have hlo := Nat.mod_lt lo (Nat.two_pow_pos k)
  have hiff := fun {i} (hi' : i < 2 ^ k) => h.bitAt_iff (i := i) (Nat.le_of_lt hroom) hi'
  have hbegin : searchBegin k v = (BitVec.ofNat k (lo % 2 ^ k), true) := by
    refine searchBegin_eq ((hiff hlo).mpr (by omega)) hlo ?_
    intro i hi'
    rw [← Bool.not_eq_true, hiff (by omega)]
    omega
  have hend : searchEnd k v = (BitVec.ofNat k (lo % 2 ^ k + (hi - lo) - 1), true) := by
    refine searchEnd_of_last ((hiff (by omega)).mpr (by omega)) (by omega) ?_
    intro i hi' hi''
    rw [← Bool.not_eq_true, hiff hi'']
    omega
  have hwhole : ¬ (BitVec.ofNat k (lo % 2 ^ k) = 0 ∧
      (BitVec.ofNat k (lo % 2 ^ k + (hi - lo) - 1)).toNat = 2 ^ k - 1) := by
    rintro ⟨h0, h1⟩
    have h0' := congrArg BitVec.toNat h0
    rw [toNat_ofNat_of_lt hlo] at h0'
    rw [toNat_ofNat_of_lt (by omega)] at h1
    simp only [BitVec.ofNat_eq_ofNat, BitVec.toNat_ofNat, Nat.zero_mod] at h0'
    omega
  simp only [issuePtr, searchEnd_free h hroom, hbegin, hend, Bool.not_true, Bool.false_eq_true,
    if_false, if_neg hwhole]

/-- A window that wraps around begins behind the last free entry. -/
theorem issuePtr_wrapped (h : Marks v lo hi) (hroom : hi < lo + 2 ^ k)
    (hwrap : 2 ^ k + lo < lo % 2 ^ k + hi) (p : BitVec k) :
    issuePtr v p = BitVec.ofNat k (lo % 2 ^ k) := by
  have hpos := Nat.two_pow_pos k
  have hlo := Nat.mod_lt lo hpos
  have hiff := fun {i} (hi' : i < 2 ^ k) => h.bitAt_iff (i := i) (Nat.le_of_lt hroom) hi'
  have hbegin : searchBegin k v = (BitVec.ofNat k 0, true) :=
    searchBegin_eq ((hiff hpos).mpr (by omega)) hpos fun i hi' => absurd hi' (Nat.not_lt_zero i)
  have hend : searchEnd k v = (BitVec.ofNat k (2 ^ k - 1), true) :=
    searchEnd_of_last ((hiff (by omega)).mpr (by omega)) (by omega) fun i hi' hi'' => by omega
  have hfree : searchEnd k (~~~v) = (BitVec.ofNat k (lo % 2 ^ k - 1), true) := by
    refine searchEnd_of_last ?_ (by omega) ?_
    · rw [bitAt_not (by omega), Bool.not_eq_true', ← Bool.not_eq_true, hiff (by omega)]
      omega
    · intro i hi' hi''
      rw [bitAt_not hi'', Bool.not_eq_false', hiff hi'']
      omega
  have hwhole : BitVec.ofNat k 0 = 0 ∧ (BitVec.ofNat k (2 ^ k - 1)).toNat = 2 ^ k - 1 :=
    ⟨rfl, toNat_ofNat_of_lt (by omega)⟩
  simp only [issuePtr, hfree, hbegin, hend, Bool.not_true, Bool.false_eq_true, if_false,
    if_pos hwhole]
  rw [ofNat_succ, show lo % 2 ^ k - 1 + 1 = lo % 2 ^ k by omega]

/-- The first entry of a window of any length is found. -/
theorem issuePtr_of_marks (h : Marks v lo hi) (hlt : lo < hi) (hroom : hi ≤ lo + 2 ^ k) :
    issuePtr v (BitVec.ofNat k hi) = BitVec.ofNat k lo := by
  have hmod : BitVec.ofNat k (lo % 2 ^ k) = BitVec.ofNat k lo := by
    rw [ofNat_eq_iff_mod, Nat.mod_mod]
  rcases Nat.lt_or_eq_of_le hroom with hlt' | rfl
  · rcases Nat.lt_or_ge (2 ^ k + lo) (lo % 2 ^ k + hi) with hwrap | hplain
    · rw [issuePtr_wrapped h hlt' hwrap, hmod]
    · rw [issuePtr_plain h hlt hlt' hplain, hmod]
  · -- a full window begins where it ends
    have hall : (searchEnd k (~~~v)).2 = false := by
      rw [← Bool.not_eq_true, searchEnd_en]
      rintro ⟨i, hi', hb⟩
      rw [bitAt_not hi', Bool.not_eq_true', ← Bool.not_eq_true, h.bitAt_iff (le_refl _) hi'] at hb
      omega
    simp only [issuePtr, hall, Bool.not_false, if_true]
    rw [ofNat_eq_iff_mod, Nat.add_mod_right]

end InorderAllocIssueUnit

/-! ### The unit with the busy vector of its station -/

/-- The input ports of the unit that the station does not drive, and `ready_vector_i`. -/
structure QueueIn (k : ℕ) where
  reqNum : BitVec 2
  dpStall : Bool
  dpKill : Bool
  ready : Bits k

/-- The registers: the allocation pointer, and the busy vector of a station of `2 ^ k` entries. -/
structure InorderQueue (k : ℕ) where
  allocPtr : BitVec k
  busy : Bits k

namespace InorderQueue
variable {k : ℕ} (i : QueueIn k) (q : InorderQueue k)

/-- Dispatch goes on and there is room for what it asks for. -/
def accepts : Bool := !i.dpStall && !i.dpKill &&
  InorderAllocIssueUnit.allocatable false i.reqNum q.busy q.allocPtr

/-- The tail entry is written. -/
def we1 : Bool := q.accepts i && decide (i.reqNum ≥ 1)

/-- So is the entry behind it. -/
def we2 : Bool := q.accepts i && i.reqNum == 2

/-- The head, found again from the busy vector. -/
def issuePtr : BitVec k := InorderAllocIssueUnit.issuePtr q.busy q.allocPtr

/-- The head is issued. -/
def issueValid : Bool := InorderAllocIssueUnit.issueValid q.busy i.ready q.allocPtr

/-- One edge: the station sets the bits of the entries that are written and clears the one that is
    issued. -/
def next : InorderQueue k where
  allocPtr := InorderAllocIssueUnit.next false i.dpStall i.dpKill i.reqNum q.busy q.allocPtr
  busy := RSPort.busyNext false (⟨q.we1 i, q.allocPtr, ()⟩ : RSPort k Unit)
    ⟨q.we2 i, q.allocPtr + 1, ()⟩ (q.issueValid i) q.issuePtr q.busy

/-- A pair is not asked for at the last entry while the first one is busy. A pointer of 32 bits or more
    finds that out itself. -/
def PairOk : Prop :=
  i.reqNum = 2 → 32 ≤ k ∨ q.allocPtr.toNat + 1 < 2 ^ k ∨ bit q.busy (q.allocPtr + 1) = false

instance : Decidable (q.PairOk i) := inferInstanceAs (Decidable (_ → _))

variable {i q}

/-- What is written was free. -/
theorem free1 (h : q.we1 i = true) : bit q.busy q.allocPtr = false := by
  have hge : ∀ r : BitVec 2, r ≥ 1 → r ≠ 0 := by decide
  simp only [we1, accepts, Bool.and_eq_true, decide_eq_true_iff] at h
  obtain ⟨⟨-, halloc⟩, hreq⟩ := h
  rw [InorderAllocIssueUnit.allocatable, if_neg Bool.false_ne_true, if_neg (hge _ hreq)] at halloc
  split at halloc
  · simpa [bit] using halloc
  · rw [Bool.and_eq_true, Bool.not_eq_true'] at halloc
    exact halloc.1

theorem free2 (hp : q.PairOk i) (h : q.we2 i = true) : bit q.busy (q.allocPtr + 1) = false := by
  simp only [we2, accepts, Bool.and_eq_true, beq_iff_eq] at h
  obtain ⟨⟨-, halloc⟩, hreq⟩ := h
  have hboth : bitAt q.busy (InorderAllocIssueUnit.indexSucc q.allocPtr) = false := by
    rw [hreq] at halloc
    simp only [InorderAllocIssueUnit.allocatable] at halloc
    simpa using (Bool.and_eq_true_iff.mp halloc).2
  rcases hp hreq with hk | hlast | hfree
  · rwa [InorderAllocIssueUnit.indexSucc_eq (Or.inl hk)] at hboth
  · rwa [InorderAllocIssueUnit.indexSucc_eq (Or.inr hlast)] at hboth
  · exact hfree

/-- The second entry is written only together with the first. -/
theorem we1_of_we2 (h : q.we2 i = true) : q.we1 i = true := by
  rw [we2, Bool.and_eq_true, beq_iff_eq] at h
  rw [we1, h.1, h.2]
  rfl

theorem allocPtr_next (h3 : i.reqNum ≠ 3) : (q.next i).allocPtr =
    q.allocPtr + BitVec.ofNat k ((q.we1 i).toNat + (q.we2 i).toNat) := by
  have hreq : ∀ r : BitVec 2, r ≠ 3 → r.toNat = (decide (r ≥ 1)).toNat + (r == 2).toNat := by
    decide
  have hnext : (q.next i).allocPtr =
      if q.accepts i then q.allocPtr + i.reqNum.setWidth k else q.allocPtr := rfl
  rw [hnext, we1, we2]
  cases q.accepts i with
  | false => simp
  | true =>
    rw [if_pos rfl, Bool.true_and, Bool.true_and, ← hreq _ h3, BitVec.ofNat_toNat]

end InorderQueue

/-! ### Runs -/

/-- The queue with the numbers of operations that were dispatched and issued. -/
structure QueueSys (k : ℕ) where
  hw : InorderQueue k
  dispatched : ℕ
  issued : ℕ

namespace QueueSys
variable {k : ℕ}

/-- After reset. -/
def start : QueueSys k := ⟨⟨0, 0⟩, 0, 0⟩

/-- One cycle of the unit and of the two counts. -/
def step (i : QueueIn k) (y : QueueSys k) : QueueSys k where
  hw := y.hw.next i
  dispatched := y.dispatched + ((y.hw.we1 i).toNat + (y.hw.we2 i).toNat)
  issued := y.issued + (y.hw.issueValid i).toNat

/-- At most two operations are asked for, no pair at the last entry while entry 0 is busy, and only busy
    entries are ready. -/
def machine (k : ℕ) : Clocked (QueueSys k) (QueueIn k) :=
  ⟨step, fun y i => i.reqNum ≠ 3 ∧ y.hw.PairOk i ∧
    ∀ a, bit i.ready a = true → bit y.hw.busy a = true⟩

instance (y : QueueSys k) (i : QueueIn k) : Decidable ((machine k).legal y i) :=
  inferInstanceAs (Decidable (_ ∧ _ ∧ ∀ _, _))

/-- The busy entries are those of the operations that were dispatched and not issued. -/
structure InOrder (y : QueueSys k) : Prop where
  le : y.issued ≤ y.dispatched
  room : y.dispatched ≤ y.issued + 2 ^ k
  allocPtr : y.hw.allocPtr = BitVec.ofNat k y.dispatched
  window : Marks y.hw.busy y.issued y.dispatched

theorem inOrder_start : (start : QueueSys k).InOrder :=
  ⟨le_refl 0, Nat.zero_le _, rfl, marks_empty 0⟩

namespace InOrder
variable {y : QueueSys k} {i : QueueIn k} (h : y.InOrder)
include h

/-- The oldest operation that has not been issued is pointed at. -/
theorem head (hlt : y.issued < y.dispatched) : y.hw.issuePtr = BitVec.ofNat k y.issued := by
  rw [InorderQueue.issuePtr, h.allocPtr]
  exact InorderAllocIssueUnit.issuePtr_of_marks h.window hlt h.room

/-- It is issued as soon as it is ready, and nothing else is. -/
theorem issueValid_iff (hl : (machine k).legal y i) : y.hw.issueValid i = true ↔
    y.issued < y.dispatched ∧ bit i.ready (BitVec.ofNat k y.issued) = true := by
  have hbit : y.hw.issueValid i = bit i.ready y.hw.issuePtr := rfl
  constructor
  · intro hv
    obtain ⟨j, hj, hj', -⟩ := (h.window _).mp (hl.2.2 _ (hbit ▸ hv))
    have hlt : y.issued < y.dispatched := by omega
    rw [hbit, h.head hlt] at hv
    exact ⟨hlt, hv⟩
  · rintro ⟨hlt, hr⟩
    rw [hbit, h.head hlt, hr]

theorem room_dispatch (hk : 1 ≤ k) (hl : (machine k).legal y i) :
    y.dispatched + ((y.hw.we1 i).toNat + (y.hw.we2 i).toNat) ≤ y.issued + 2 ^ k := by
  have hroom := h.room
  cases hw1 : y.hw.we1 i with
  | false =>
    have hw2 : y.hw.we2 i = false := by
      rw [← Bool.not_eq_true]
      intro hw2
      rw [InorderQueue.we1_of_we2 hw2] at hw1
      cases hw1
    rw [hw2]
    exact hroom
  | true =>
    have hfree := InorderQueue.free1 hw1
    rw [h.allocPtr] at hfree
    have hlt := h.window.lt_of_free h.le hroom hfree
    cases hw2 : y.hw.we2 i with
    | false => exact hlt
    | true =>
      have hfree2 := InorderQueue.free2 hl.2.1 hw2
      rw [h.allocPtr, ofNat_succ] at hfree2
      have hne : BitVec.ofNat k (y.dispatched + 1) ≠ BitVec.ofNat k y.dispatched := by
        intro heq
        have hpow : 2 ≤ 2 ^ k := Nat.le_self_pow (by omega) 2
        have := ofNat_inj_window (Nat.le_succ _) (by omega) heq.symm
        omega
      have hfree' : bit (setBit y.hw.busy (BitVec.ofNat k y.dispatched) true)
          (BitVec.ofNat k (y.dispatched + 1)) = false := by
        rw [bit_setBit, if_neg hne]
        exact hfree2
      exact (h.window.push h.le).lt_of_free (Nat.le_succ_of_le h.le) hlt hfree'

theorem step (hk : 1 ≤ k) (hl : (machine k).legal y i) : (y.step i).InOrder where
  le := by
    change y.issued + (y.hw.issueValid i).toNat ≤ y.dispatched + _
    have hle := h.le
    cases hv : y.hw.issueValid i with
    | false => simp; omega
    | true =>
      have := ((h.issueValid_iff hl).mp hv).1
      simp; omega
  room := by
    have := h.room_dispatch hk hl
    change y.dispatched + _ ≤ y.issued + (y.hw.issueValid i).toNat + 2 ^ k
    omega
  allocPtr := by
    change (y.hw.next i).allocPtr = _
    rw [InorderQueue.allocPtr_next hl.1, h.allocPtr, ← BitVec.ofNat_add]
    rfl
  window := by
    refine RSPort.marks_busyNext h.window h.le h.allocPtr ?_ InorderQueue.we1_of_we2 ?_
      (h.room_dispatch hk hl)
    · rw [h.allocPtr, ofNat_succ]
    · intro hv
      exact h.head ((h.issueValid_iff hl).mp hv).1

end InOrder

end QueueSys

/-! ### The memory station of `SwUnit` -/

namespace SwUnit
variable {s : SwUnit} {i : SwIn}

/-- The queue inside `SwUnit`. -/
def queue (s : SwUnit) : InorderQueue 2 := ⟨s.memAllocPtr, s.rsMem.busyVector⟩

/-- What it gets from the ports and from the entries. -/
def queueIn (s : SwUnit) (i : SwIn) : QueueIn 2 :=
  ⟨i.reqMemNum, i.stallDp, i.killDp, s.rsMem.readyVector⟩

/-- It moves as the queue by itself. -/
theorem queue_next : (s.next false i).queue = s.queue.next (s.queueIn i) := rfl

end SwUnit

/-- Where no pair is asked for in front of a busy entry 0, dispatch writes free entries only. -/
theorem TracedMem.freeDispatch_of_pairOk {t : TracedMem} {i : SwIn} (h3 : i.reqMemNum ≠ 3)
    (hp : t.hw.queue.PairOk (t.hw.queueIn i)) : t.FreeDispatch i := by
  refine ⟨h3, ?_, ?_⟩
  · intro hwe
    rw [TracedMem.Busy, Bool.not_eq_true]
    exact InorderQueue.free1 (q := t.hw.queue) (i := t.hw.queueIn i) hwe
  · intro hwe
    rw [TracedMem.Busy, Bool.not_eq_true]
    exact InorderQueue.free2 (q := t.hw.queue) hp hwe

end HeliosXCore
