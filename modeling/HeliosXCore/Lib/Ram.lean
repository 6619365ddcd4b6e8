import Mathlib.Tactic

/-! Memories: what a stream of writes leaves, and a RAM with one write and one registered read port. -/

namespace Rtl
variable {κ β σ : Type} [DecidableEq κ]

/-- The contents after the first `n` of the writes `w 1, w 2, ...`. -/
def written (init : κ → β) (w : ℕ → κ × β) : ℕ → κ → β
  | 0 => init
  | n + 1 => Function.update (written init w n) (w (n + 1)).1 (w (n + 1)).2

variable {init : κ → β} {w w' : ℕ → κ × β}

theorem written_succ (n : ℕ) : written init w (n + 1) =
    Function.update (written init w n) (w (n + 1)).1 (w (n + 1)).2 := rfl

theorem written_congr {n : ℕ} (h : ∀ k, 0 < k → k ≤ n → w k = w' k) :
    written init w n = written init w' n := by
  induction n with
  | zero => rfl
  | succ n ih =>
    rw [written_succ, written_succ, h (n + 1) (by omega) (le_refl _),
      ih fun k hk hk' => h k hk (by omega)]

/-- A RAM whose inside is not known: what an edge does, and the output of the read port. The edge takes
    write enable, write address, data and read address. -/
structure Ram (σ κ β : Type) where
  next : Bool → κ → β → κ → σ → σ
  dout : σ → β

/-- `R` keeps `contents`: an edge writes what the write port asks for, and the read port then shows
    what was at its address before. Nothing is said about a read of the cell that is written. -/
structure Ram.Keeps (R : Ram σ κ β) (contents : σ → κ → β) : Prop where
  write : ∀ we wa wd ra s, contents (R.next we wa wd ra s) =
    if we then Function.update (contents s) wa wd else contents s
  read : ∀ we wa wd ra s, ¬ (we = true ∧ wa = ra) → R.dout (R.next we wa wd ra s) = contents s ra

/-- A RAM that shows the old data when it reads the cell that is written. -/
def Ram.readFirst (κ β : Type) [DecidableEq κ] : Ram ((κ → β) × β) κ β where
  next we wa wd ra s := (if we then Function.update s.1 wa wd else s.1, s.1 ra)
  dout s := s.2

theorem Ram.readFirst_keeps : (Ram.readFirst κ β).Keeps Prod.fst :=
  ⟨fun _ _ _ _ _ => rfl, fun _ _ _ _ _ _ => rfl⟩

end Rtl
