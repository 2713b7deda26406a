import Mathlib.Logic.Relation

/-!
# Runs of a deterministic machine driven by actions

`step : σ → α → Option σ` takes an action when it is enabled. `Reach step ok s₀ s`: some run leads from
`s₀` to `s` in which every action `a` taken in a state `t` meets the condition `ok t a`.

* `Reach.invariant` : what holds at the start and is kept by every permitted step holds in every state
  reached;
* `Reach.mono` : a stronger condition on the steps gives fewer runs;
* `Reach.of_foldlM` : a list of actions that executes gives a run; `Reach.of_checked` : and one that meets a test at
  each step gives a run that meets a condition the test decides; `Reach.exists_of_run`, `Reach.exists_of_checked` : the
  same with what can be seen of the last state.
-/

namespace ToastOS.Lib

variable {σ α : Type}

/-- The states a run from `s₀` reaches when each step meets `ok`. -/
inductive Reach (step : σ → α → Option σ) (ok : σ → α → Prop) (s₀ : σ) : σ → Prop
  | refl : Reach step ok s₀ s₀
  | tail {s s' : σ} {a : α} : Reach step ok s₀ s → ok s a → step s a = some s' → Reach step ok s₀ s'

/-- The condition that permits every step. -/
def Any : σ → α → Prop := fun _ _ => True

variable {step : σ → α → Option σ} {ok : σ → α → Prop} {s s₀ : σ}

theorem Reach.invariant {P : σ → Prop}
    (h : Reach step ok s₀ s) (h0 : P s₀)
    (hstep : ∀ s a s', P s → ok s a → step s a = some s' → P s') : P s := by
  induction h with
  | refl => exact h0
  | tail _ hok hs ih => exact hstep _ _ _ ih hok hs

theorem Reach.mono {ok' : σ → α → Prop}
    (h : Reach step ok s₀ s) (hok : ∀ s a, ok s a → ok' s a) : Reach step ok' s₀ s := by
  induction h with
  | refl => exact .refl
  | tail _ h1 hs ih => exact .tail ih (hok _ _ h1) hs

/-- A permitted run, strengthened by an invariant that the permitted steps keep. -/
theorem Reach.strengthen {ok' : σ → α → Prop} {P : σ → Prop}
    (h : Reach step ok s₀ s) (h0 : P s₀)
    (hstep : ∀ s a s', P s → ok s a → step s a = some s' → P s')
    (hok : ∀ s a, P s → ok s a → ok' s a) : Reach step ok' s₀ s ∧ P s := by
  induction h with
  | refl => exact ⟨.refl, h0⟩
  | tail _ h1 hs ih => exact ⟨.tail ih.1 (hok _ _ ih.2 h1) hs, hstep _ _ _ ih.2 h1 hs⟩

theorem Reach.of_foldlM :
    ∀ (acts : List α) (s s' : σ), Reach step ok s₀ s → (∀ t a, a ∈ acts → ok t a) →
      acts.foldlM step s = some s' → Reach step ok s₀ s'
  | [], s, s', h, _, hf => by
    simp only [List.foldlM_nil, Option.pure_def, Option.some.injEq] at hf
    exact hf ▸ h
  | a :: acts, s, s', h, hok, hf => by
    rw [List.foldlM_cons, Option.bind_eq_bind, Option.bind_eq_some_iff] at hf
    obtain ⟨t, ht, hf⟩ := hf
    refine Reach.of_foldlM acts t s' (.tail h (hok s a (by simp)) ht) (fun u b hb => ?_) hf
    exact hok u b (List.mem_cons_of_mem a hb)

theorem Reach.trans {s' : σ} (h : Reach step ok s₀ s) (h' : Reach step ok s s') : Reach step ok s₀ s' := by
  induction h' with
  | refl => exact h
  | tail _ hok hs ih => exact ih.tail hok hs

/-- Take an action when it passes a test. -/
def checked (check : σ → α → Bool) (step : σ → α → Option σ) (s : σ) (a : α) : Option σ :=
  if check s a then step s a else none

theorem Reach.of_checked {check : σ → α → Bool}
    (hok : ∀ s a, check s a = true → ok s a) : ∀ (acts : List α) (s s' : σ), Reach step ok s₀ s →
      acts.foldlM (checked check step) s = some s' → Reach step ok s₀ s'
  | [], s, s', h, hf => by
    simp only [List.foldlM_nil, Option.pure_def, Option.some.injEq] at hf
    exact hf ▸ h
  | a :: acts, s, s', h, hf => by
    rw [List.foldlM_cons, Option.bind_eq_bind, Option.bind_eq_some_iff] at hf
    obtain ⟨t, ht, hf⟩ := hf
    unfold checked at ht
    split at ht
    · rename_i hc
      exact Reach.of_checked hok acts t s' (.tail h (hok s a hc) ht) hf
    · cases ht

section Executed

variable (step : σ → α → Option σ) (s₀ : σ) (acts : List α)

/-- A run found by executing it, to a state that is seen to meet `P`. -/
theorem Reach.exists_of_run (hok : ∀ t a, a ∈ acts → ok t a) (P : σ → Prop) [DecidablePred P]
    (h : (acts.foldlM step s₀).map (fun s => decide (P s)) = some true) : ∃ s, Reach step ok s₀ s ∧ P s := by
  obtain ⟨s, hs, hP⟩ := Option.map_eq_some_iff.1 h
  exact ⟨s, .of_foldlM _ _ _ .refl hok hs, of_decide_eq_true hP⟩

theorem Reach.exists_of_checked {check : σ → α → Bool} (hok : ∀ s a, check s a = true → ok s a) (P : σ → Prop)
    [DecidablePred P] (h : (acts.foldlM (checked check step) s₀).map (fun s => decide (P s)) = some true) :
    ∃ s, Reach step ok s₀ s ∧ P s := by
  obtain ⟨s, hs, hP⟩ := Option.map_eq_some_iff.1 h
  exact ⟨s, .of_checked hok _ _ _ .refl hs, of_decide_eq_true hP⟩

end Executed

end ToastOS.Lib
