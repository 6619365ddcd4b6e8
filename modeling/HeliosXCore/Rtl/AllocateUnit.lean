import HeliosXCore.Lib.Bits

/-! `SW/AllocateUnit.v` and `SW/OldestFinder.v`: the free-entry finder and the comparator tree, at
    every width. -/

namespace HeliosXCore
open Rtl

namespace PriorityEncoder

/-- The loop runs down from `REQ_LEN - 1`, so the assignment for the smallest free index is the
    last one. -/
def scan {reqLen : ℕ} (grantLen : ℕ) (inp : BitVec reqLen) : BitVec grantLen × Bool :=
  (List.range reqLen).foldr
    (fun i acc => if !bitAt inp i then (BitVec.ofNat grantLen i, true) else acc) (0, false)

/-- `out`: the smallest free index. -/
def out {reqLen : ℕ} (grantLen : ℕ) (inp : BitVec reqLen) : BitVec grantLen := (scan grantLen inp).1

/-- `en`: some index is free. -/
def en {reqLen : ℕ} (grantLen : ℕ) (inp : BitVec reqLen) : Bool := (scan grantLen inp).2

end PriorityEncoder

/-- The module `MaskUnit`: every bit up to `mask` is set. -/
def maskUnit {grantLen : ℕ} (reqLen : ℕ) (mask : BitVec grantLen) : BitVec reqLen :=
  (List.range reqLen).foldl
    (fun out i => setBitAt out i (if mask < BitVec.ofNat grantLen i then false else true)) 0

namespace AllocateUnit
variable {reqLen : ℕ} (grantLen : ℕ) (busy : BitVec reqLen)

/-- `free_entry_1_o`: the smallest free entry. -/
def freeEntry1 : BitVec grantLen := PriorityEncoder.out grantLen busy

/-- `en_1_o`: there is a first free entry. -/
def en1 : Bool := PriorityEncoder.en grantLen busy

/-- What the second encoder is kept from: all entries up to the first free one. -/
def busyMask : BitVec reqLen := maskUnit reqLen (freeEntry1 grantLen busy)

/-- `free_entry_2_o`: the smallest free entry behind the first. -/
def freeEntry2 : BitVec grantLen :=
  PriorityEncoder.out grantLen (busy ||| busyMask grantLen busy)

/-- `en_2_o`: there is a second free entry. -/
def en2 : Bool := PriorityEncoder.en grantLen (busy ||| busyMask grantLen busy)

/-- `allocatable_o`: as many entries are free as are asked for, up to two. -/
def allocatable (reqNum : BitVec 2) : Bool :=
  if reqNum > (0#1 ++ BitVec.ofBool (en1 grantLen busy)) + (0#1 ++ BitVec.ofBool (en2 grantLen busy))
  then false else true

end AllocateUnit

/-- `v[k*len +: len]`. -/
def slice {n : ℕ} (v : BitVec n) (k len : ℕ) : BitVec len := v.extractLsb' (k * len) len

/-- `OldestFinder2`: the entry and the value of the smaller value; the second wins a tie. -/
def oldestFinder2 {entLen valLen : ℕ} (entryVector : BitVec (2 * entLen))
    (valueVector : BitVec (2 * valLen)) : BitVec entLen × BitVec valLen :=
  let entryVector1 := slice entryVector 0 entLen
  let entryVector2 := slice entryVector 1 entLen
  let valueVector1 := slice valueVector 0 valLen
  let valueVector2 := slice valueVector 1 valLen
  (if valueVector1 < valueVector2 then entryVector1 else entryVector2,
    if valueVector1 < valueVector2 then valueVector1 else valueVector2)

/-- `{b, a}`. -/
def concat2 {len : ℕ} (b a : BitVec len) : BitVec (2 * len) :=
  (b ++ a).cast (by omega)

/-- `{d, c, b, a}`. -/
def concat4 {len : ℕ} (d c b a : BitVec len) : BitVec (4 * len) :=
  (d ++ c ++ b ++ a).cast (by omega)

/-- `{h, ..., a}`. -/
def concat8 {len : ℕ} (h g f e d c b a : BitVec len) : BitVec (8 * len) :=
  (h ++ g ++ f ++ e ++ d ++ c ++ b ++ a).cast (by omega)

/-- `OldestFinder4`: two comparators and a third one over their results. -/
def oldestFinder4 {entLen valLen : ℕ} (entryVector : BitVec (4 * entLen))
    (valueVector : BitVec (4 * valLen)) : BitVec entLen × BitVec valLen :=
  let old1 := oldestFinder2 (concat2 (slice entryVector 1 entLen) (slice entryVector 0 entLen))
    (concat2 (slice valueVector 1 valLen) (slice valueVector 0 valLen))
  let old2 := oldestFinder2 (concat2 (slice entryVector 3 entLen) (slice entryVector 2 entLen))
    (concat2 (slice valueVector 3 valLen) (slice valueVector 2 valLen))
  oldestFinder2 (concat2 old2.1 old1.1) (concat2 old2.2 old1.2)

/-- The module `OldestFinder`: `(oldest_entry_o, oldest_value_o)`. -/
def oldestFinder {entLen valLen : ℕ} (entryVector : BitVec (8 * entLen))
    (valueVector : BitVec (8 * valLen)) : BitVec entLen × BitVec valLen :=
  let old1 := oldestFinder4
    (concat4 (slice entryVector 3 entLen) (slice entryVector 2 entLen) (slice entryVector 1 entLen)
      (slice entryVector 0 entLen))
    (concat4 (slice valueVector 3 valLen) (slice valueVector 2 valLen) (slice valueVector 1 valLen)
      (slice valueVector 0 valLen))
  let old2 := oldestFinder4
    (concat4 (slice entryVector 7 entLen) (slice entryVector 6 entLen) (slice entryVector 5 entLen)
      (slice entryVector 4 entLen))
    (concat4 (slice valueVector 7 valLen) (slice valueVector 6 valLen) (slice valueVector 5 valLen)
      (slice valueVector 4 valLen))
  oldestFinder2 (concat2 old2.1 old1.1) (concat2 old2.2 old1.2)

end HeliosXCore
