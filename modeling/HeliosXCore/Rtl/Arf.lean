import HeliosXCore.Rtl.Consts

/-! `DP/Arf.v` and `DP/SyncRAM.v`: the architectural register file and the rename table.

    Where two `always` blocks assign one register in the same edge, the assignments are applied in
    the order of the source, here and in the other modules. -/

namespace HeliosXCore
open Rtl

/-- `SyncRAM2r2w`: the words behind one pair of read ports. -/
def syncRAM2r2w {k w : ℕ} (waddr1 waddr2 : BitVec k) (wdata1 wdata2 : BitVec w) (we1 we2 : Bool)
    (mem : BitVec k → BitVec w) : BitVec k → BitVec w :=
  let mem := if we1 then Function.update mem waddr1 wdata1 else mem
  if we2 then Function.update mem waddr2 wdata2 else mem

/-- The ports of a commit, from the ROB and (the data) the RRF. -/
structure Completed where
  we : Bool
  dstNum : RegSel
  dstRrftag : RrfTag
  deriving DecidableEq, Repr

/-- The ports that map a destination register to its new tag. -/
structure SetBusy where
  dstEn : Bool
  dstNum : RegSel
  dstRrftag : RrfTag
  deriving DecidableEq, Repr

/-- The registers of `RenameTable`: a busy bit and six tag bits for each register. -/
structure RenameTable where
  arfBusy : Bits 5
  arfRrftag0 : Bits 5
  arfRrftag1 : Bits 5
  arfRrftag2 : Bits 5
  arfRrftag3 : Bits 5
  arfRrftag4 : Bits 5
  arfRrftag5 : Bits 5
  deriving DecidableEq, Repr

namespace RenameTable

/-- `arf_busy` of register `r`: its value is still to be written by an instruction in flight. -/
def busy (s : RenameTable) (r : RegSel) : Bool := bit s.arfBusy r

/-- The six tag bits of register `r`, spelled as one tag. -/
def rrftag (s : RenameTable) (r : RegSel) : RrfTag :=
  BitVec.ofBool (bit s.arfRrftag5 r) ++ BitVec.ofBool (bit s.arfRrftag4 r) ++
    BitVec.ofBool (bit s.arfRrftag3 r) ++ BitVec.ofBool (bit s.arfRrftag2 r) ++
    BitVec.ofBool (bit s.arfRrftag1 r) ++ BitVec.ofBool (bit s.arfRrftag0 r)

/-- The block "clear arf busy". -/
def clearBusy (reset : Bool) (c : Completed) (d : SetBusy) (s : RenameTable) : Bits 5 :=
  if reset then 0
  else if c.we then
    if c.dstRrftag = s.rrftag c.dstNum then
      if d.dstEn && c.dstNum == d.dstNum then setBit s.arfBusy c.dstNum true
      else setBit s.arfBusy c.dstNum false
    else s.arfBusy
  else s.arfBusy

/-- One edge. The mapping comes after the block "clear arf busy" and wins over it. -/
def next (reset : Bool) (c : Completed) (d : SetBusy) (s : RenameTable) : RenameTable :=
  let arfBusy := clearBusy reset c d s
  if reset then ⟨arfBusy, 0, 0, 0, 0, 0, 0⟩
  else if d.dstEn then
    ⟨setBit arfBusy d.dstNum true,
      setBit s.arfRrftag0 d.dstNum (d.dstRrftag.getLsbD 0),
      setBit s.arfRrftag1 d.dstNum (d.dstRrftag.getLsbD 1),
      setBit s.arfRrftag2 d.dstNum (d.dstRrftag.getLsbD 2),
      setBit s.arfRrftag3 d.dstNum (d.dstRrftag.getLsbD 3),
      setBit s.arfRrftag4 d.dstNum (d.dstRrftag.getLsbD 4),
      setBit s.arfRrftag5 d.dstNum (d.dstRrftag.getLsbD 5)⟩
  else { s with arfBusy := arfBusy }

/-! ### What an edge does -/

theorem bit_clearBusy (c : Completed) (d : SetBusy) (s : RenameTable) (r : RegSel) :
    bit (s.clearBusy false c d) r =
      if c.we ∧ c.dstRrftag = s.rrftag c.dstNum ∧ r = c.dstNum then d.dstEn && c.dstNum == d.dstNum
      else s.busy r := by
  cases hc : c.we
  · simp [clearBusy, busy, hc]
  · by_cases ht : c.dstRrftag = s.rrftag c.dstNum
    · cases hd : d.dstEn && c.dstNum == d.dstNum <;> simp [clearBusy, busy, hc, ht, hd]
    · simp [clearBusy, busy, hc, ht]

/-- A mapping wins over a commit of the same register; a commit clears only its own mapping. -/
theorem busy_next (c : Completed) (d : SetBusy) (s : RenameTable) (r : RegSel) :
    (s.next false c d).busy r =
      if d.dstEn ∧ r = d.dstNum then true
      else if c.we ∧ c.dstRrftag = s.rrftag c.dstNum ∧ r = c.dstNum then false
      else s.busy r := by
  cases hd : d.dstEn
  · have h : (s.next false c d).busy r = bit (s.clearBusy false c d) r := by
      simp [next, busy, hd]
    rw [h, bit_clearBusy]
    simp [hd]
  · have h : (s.next false c d).busy r = bit (setBit (s.clearBusy false c d) d.dstNum true) r := by
      simp [next, busy, hd]
    rw [h, bit_setBit, bit_clearBusy]
    by_cases hr : r = d.dstNum
    · simp [hr]
    · split_ifs <;> simp_all

theorem concat_bits (t : RrfTag) :
    BitVec.ofBool (t.getLsbD 5) ++ BitVec.ofBool (t.getLsbD 4) ++ BitVec.ofBool (t.getLsbD 3) ++
      BitVec.ofBool (t.getLsbD 2) ++ BitVec.ofBool (t.getLsbD 1) ++ BitVec.ofBool (t.getLsbD 0) =
        t := by
  revert t
  decide

theorem rrftag_next (c : Completed) (d : SetBusy) (s : RenameTable) (r : RegSel) :
    (s.next false c d).rrftag r = if d.dstEn ∧ r = d.dstNum then d.dstRrftag else s.rrftag r := by
  cases hd : d.dstEn
  · simp [next, rrftag, hd]
  · by_cases hr : r = d.dstNum
    · simp only [next, rrftag, hd, hr, bit_setBit, if_true, and_self, Bool.false_eq_true, if_false]
      exact concat_bits d.dstRrftag
    · simp [next, rrftag, hd, hr]

theorem ofBool_append_inj (a0 a1 a2 a3 a4 a5 b0 b1 b2 b3 b4 b5 : Bool)
    (h : BitVec.ofBool a5 ++ BitVec.ofBool a4 ++ BitVec.ofBool a3 ++ BitVec.ofBool a2 ++
        BitVec.ofBool a1 ++ BitVec.ofBool a0 =
      BitVec.ofBool b5 ++ BitVec.ofBool b4 ++ BitVec.ofBool b3 ++ BitVec.ofBool b2 ++
        BitVec.ofBool b1 ++ BitVec.ofBool b0) :
    a0 = b0 ∧ a1 = b1 ∧ a2 = b2 ∧ a3 = b3 ∧ a4 = b4 ∧ a5 = b5 := by
  have hbit := fun i => congrArg (fun t => BitVec.getLsbD t i) h
  simp only [BitVec.getLsbD_append, BitVec.getLsbD_ofBool] at hbit
  exact ⟨by simpa using hbit 0, by simpa using hbit 1, by simpa using hbit 2,
    by simpa using hbit 3, by simpa using hbit 4, by simpa using hbit 5⟩

/-- A rename table is what it says of each register. -/
theorem ext_reads {s t : RenameTable} (hb : ∀ r, s.busy r = t.busy r)
    (ht : ∀ r, s.rrftag r = t.rrftag r) : s = t := by
  have hbits := fun r => ofBool_append_inj _ _ _ _ _ _ _ _ _ _ _ _ (ht r)
  obtain ⟨b, t0, t1, t2, t3, t4, t5⟩ := s
  obtain ⟨b', t0', t1', t2', t3', t4', t5'⟩ := t
  simp only [mk.injEq]
  exact ⟨bits_ext hb, bits_ext fun r => (hbits r).1, bits_ext fun r => (hbits r).2.1,
    bits_ext fun r => (hbits r).2.2.1, bits_ext fun r => (hbits r).2.2.2.1,
    bits_ext fun r => (hbits r).2.2.2.2.1, bits_ext fun r => (hbits r).2.2.2.2.2⟩

/-- Without a commit the table stays as it is exactly when the destination is mapped already. -/
theorem next_eq_self_iff (c : Completed) (d : SetBusy) (s : RenameTable) (hc : c.we = false)
    (hd : d.dstEn = true) :
    s.next false c d = s ↔ s.busy d.dstNum = true ∧ s.rrftag d.dstNum = d.dstRrftag := by
  constructor
  · intro h
    have hb := busy_next c d s d.dstNum
    have ht := rrftag_next c d s d.dstNum
    rw [h] at hb ht
    exact ⟨by simpa [hd] using hb, by simpa [hd] using ht⟩
  · rintro ⟨hb, ht⟩
    refine ext_reads ?_ ?_
    · intro r
      rw [busy_next]
      by_cases hr : r = d.dstNum
      · simp [hr, hd, hb]
      · simp [hr, hc]
    · intro r
      rw [rrftag_next]
      by_cases hr : r = d.dstNum
      · simp [hr, hd, ht]
      · simp [hr]

/-- Without a commit and a destination nothing happens. -/
theorem next_idle (c : Completed) (d : SetBusy) (s : RenameTable) (hc : c.we = false)
    (hd : d.dstEn = false) : s.next false c d = s :=
  ext_reads (fun r => by rw [busy_next]; simp [hc, hd]) (fun r => by rw [rrftag_next]; simp [hd])

end RenameTable

/-- `Arf`: `ARFData` and the rename table. `ARFData` holds its words twice; the second copy feeds
    only read ports 3 and 4, which nothing is connected to. -/
structure Arf where
  mem : RegSel → Word
  reTb : RenameTable

namespace Arf

/-- One edge: a commit copies its data from the RRF, and the table is brought up to date. -/
def next (reset : Bool) (c : Completed) (fromRrfdata : Word) (d : SetBusy) (s : Arf) : Arf where
  mem := syncRAM2r2w c.dstNum 0 fromRrfdata 0 c.we false s.mem
  reTb := s.reTb.next reset c d

theorem mem_next (c : Completed) (x : Word) (d : SetBusy) (s : Arf) (r : RegSel) :
    (s.next false c x d).mem r = if c.we ∧ r = c.dstNum then x else s.mem r := by
  cases hc : c.we <;> simp [next, syncRAM2r2w, hc, Function.update_apply]

end Arf

end HeliosXCore
