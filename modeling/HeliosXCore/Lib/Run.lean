import Mathlib.Tactic

/-! Runs of a clocked circuit in an environment.

    A `Clocked` circuit takes one input in each cycle; `legal` says which inputs its environment may
    give in a state. A run is the sequence of states under a stream of inputs. -/

namespace Rtl

/-- A circuit and what its environment may do. -/
structure Clocked (σ ι : Type) where
  step : ι → σ → σ
  legal : σ → ι → Prop

namespace Clocked
variable {σ ι : Type} (M : Clocked σ ι)

/-- The state after `n` cycles under the inputs `e`. -/
def run (s : σ) (e : ℕ → ι) : ℕ → σ
  | 0 => s
  | n + 1 => M.step (e n) (run s e n)

@[simp] theorem run_zero (s : σ) (e : ℕ → ι) : M.run s e 0 = s := rfl

theorem run_succ (s : σ) (e : ℕ → ι) (n : ℕ) : M.run s e (n + 1) = M.step (e n) (M.run s e n) := rfl

/-- The first `N` inputs of the stream are legal. -/
def Legal (s : σ) (e : ℕ → ι) (N : ℕ) : Prop := ∀ n, n < N → M.legal (M.run s e n) (e n)

instance [∀ s i, Decidable (M.legal s i)] (s : σ) (e : ℕ → ι) (N : ℕ) : Decidable (M.Legal s e N) :=
  inferInstanceAs (Decidable (∀ n, n < N → M.legal (M.run s e n) (e n)))

/-- Condition `C` holds of the state and the input in each of the first `N` cycles. -/
def Always (C : σ → ι → Prop) (s : σ) (e : ℕ → ι) (N : ℕ) : Prop :=
  ∀ n, n < N → C (M.run s e n) (e n)

variable {M}

theorem Legal.mono {s : σ} {e : ℕ → ι} {N N' : ℕ} (h : M.Legal s e N) (hN : N' ≤ N) :
    M.Legal s e N' := fun n hn => h n (by omega)

theorem Always.mono {C : σ → ι → Prop} {s : σ} {e : ℕ → ι} {N N' : ℕ} (h : M.Always C s e N)
    (hN : N' ≤ N) : M.Always C s e N' := fun n hn => h n (by omega)

/-- An invariant that each legal step under condition `C` keeps holds along the run. -/
theorem run_invariant_while {I : σ → Prop} {C : σ → ι → Prop} {s : σ} {e : ℕ → ι} {N : ℕ}
    (h0 : I s) (hstep : ∀ s i, I s → M.legal s i → C s i → I (M.step i s))
    (hl : M.Legal s e N) (hC : M.Always C s e N) : ∀ n, n ≤ N → I (M.run s e n) := by
  intro n
  induction n with
  | zero => intro _; exact h0
  | succ n ih =>
    intro hn
    exact hstep _ _ (ih (by omega)) (hl n (by omega)) (hC n (by omega))

/-- An invariant that each legal step keeps holds along the run. -/
theorem run_invariant {I : σ → Prop} {s : σ} {e : ℕ → ι} {N : ℕ} (h0 : I s)
    (hstep : ∀ s i, I s → M.legal s i → I (M.step i s)) (hl : M.Legal s e N) :
    ∀ n, n ≤ N → I (M.run s e n) :=
  run_invariant_while (C := fun _ _ => True) h0 (fun s i hI hi _ => hstep s i hI hi) hl
    (fun _ _ => trivial)

end Clocked

end Rtl
