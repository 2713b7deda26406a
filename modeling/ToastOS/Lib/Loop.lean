import Mathlib.Tactic.Common

/-!
# Counting loops

`forLoop n body` is `for (i = 0; i < n; i++)` over a state, with its rules:

* `forLoop_invariant` : a property indexed by the number of rounds;
* `forLoop_keep`, `forLoop_set` : a part of the state that no round changes, or that one round alone sets.
-/

namespace ToastOS.Lib

variable {σ β : Type}

def forLoop (n : Nat) (body : Nat → σ → σ) (s : σ) : σ :=
  match n with
  | 0 => s
  | n + 1 => body n (forLoop n body s)

theorem forLoop_invariant {n : Nat} {body : Nat → σ → σ} (P : Nat → σ → Prop) {s : σ} (h0 : P 0 s)
    (hstep : ∀ i < n, ∀ s, P i s → P (i + 1) (body i s)) : P n (forLoop n body s) := by
  induction n with
  | zero => exact h0
  | succ n ih => exact hstep n (Nat.lt_succ_self n) _ (ih fun i hi => hstep i (Nat.lt_succ_of_lt hi))

theorem forLoop_keep {n : Nat} {body : Nat → σ → σ} (f : σ → β) (hkeep : ∀ i < n, ∀ s, f (body i s) = f s) (s : σ) :
    f (forLoop n body s) = f s :=
  forLoop_invariant (fun _ t => f t = f s) rfl fun i hi t ht => (hkeep i hi t).trans ht

theorem forLoop_set {n i : Nat} {body : Nat → σ → σ} (f : σ → β) {v : β} (hi : i < n) (hset : ∀ s, f (body i s) = v)
    (hkeep : ∀ j < n, j ≠ i → ∀ s, f (body j s) = f s) (s : σ) : f (forLoop n body s) = v := by
  refine forLoop_invariant (fun k t => i < k → f t = v) (fun h => absurd h (Nat.not_lt_zero i)) (fun j hj t ht hlt => ?_) hi
  by_cases hji : j = i
  · rw [hji, hset]
  · rw [hkeep j hj hji]
    exact ht (by omega)

end ToastOS.Lib
