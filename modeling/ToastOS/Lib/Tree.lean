import Mathlib.Data.List.Induction

/-!
# Trees in a store, by labels

Nodes name their children: `child t i` is the node behind slot `i` of `t`. Instead of separation conditions, every node
of a forest carries a label, the root of its tree and the path to it. `Labelled` is local, one condition on each slot and
one on each label, and it makes walking and labels the same (`Labelled.walk_iff`): in particular a node is in one
place only.
-/

namespace ToastOS.Lib

variable {α ι : Type}

def walk (child : α → ι → Option α) : α → List ι → Option α
  | t, [] => some t
  | t, i :: p => (child t i).bind fun u => walk child u p

theorem walk_append (child : α → ι → Option α) (t : α) (p q : List ι) :
    walk child t (p ++ q) = (walk child t p).bind fun u => walk child u q := by
  induction p generalizing t with
  | nil => rfl
  | cons i p ih =>
    rw [List.cons_append, walk, walk, Option.bind_assoc]
    congr 1
    funext u
    exact ih u

theorem walk_snoc (child : α → ι → Option α) (t : α) (p : List ι) (i : ι) :
    walk child t (p ++ [i]) = (walk child t p).bind fun u => child u i := by
  rw [walk_append]
  congr 1
  funext u
  show (child u i).bind some = child u i
  cases child u i <;> rfl

/-- The slots along the paths that are `inside` lead to nodes with the longer label, and a label was got that way. -/
structure Labelled (child : α → ι → Option α) (label : α → Option (α × List ι)) (inside : α → List ι → Prop) : Prop where
  root : ∀ {u r}, label u = some (r, []) → u = r
  slot : ∀ {t r p i u}, label t = some (r, p) → inside r (p ++ [i]) → child t i = some u → label u = some (r, p ++ [i])
  linked : ∀ {u r p i}, label u = some (r, p ++ [i]) → inside r (p ++ [i]) → ∃ t, label t = some (r, p) ∧ child t i = some u

theorem Labelled.walk_iff {child : α → ι → Option α} {label : α → Option (α × List ι)} {inside : α → List ι → Prop}
    (h : Labelled child label inside) {r : α} (hr : label r = some (r, []))
    (hin : ∀ p i, inside r (p ++ [i]) → inside r p) :
    ∀ (p : List ι), inside r p → ∀ u, walk child r p = some u ↔ label u = some (r, p) := by
  intro p
  induction p using List.reverseRecOn with
  | nil =>
    intro _ u
    refine ⟨fun hw => ?_, fun hl => by rw [h.root hl, walk]⟩
    rw [← Option.some.inj hw]; exact hr
  | append_singleton p i ih =>
    intro hp u
    have ih := ih (hin p i hp)
    rw [walk_snoc, Option.bind_eq_some_iff]
    constructor
    · rintro ⟨t, ht, hc⟩
      exact h.slot ((ih t).1 ht) hp hc
    · intro hl
      obtain ⟨t, ht, hc⟩ := h.linked hl hp
      exact ⟨t, (ih t).2 ht, hc⟩

end ToastOS.Lib
