import Mathlib.Data.List.Nodup
import Mathlib.Data.List.Sublists

/-!
# Permits handed out in order

Clients of type `α` share `max` permits. What happens is a history of events, the newest first: a client takes a free
permit, starts to wait, gives a permit back, hands it to a waiting client, or stops waiting. The history says how many
permits are out (`count`), who waits (`queue`, in the order of starting) and who has a permit (`holders`).

`Lawful max h`: a permit is taken only while one is free, a client waits only while none is, a permit is given back only
when nobody waits, and it is handed to the client that has waited longest. Then

* `Lawful.count_le`, `Lawful.count_eq` : no more than `max` permits are out, and all of them while someone waits;
* `Lawful.in_order` : nobody is handed a permit while an earlier client still waits;
* `Lawful.once` : who was handed a permit or stopped waiting is not handed one before waiting again;
* `OnlyHolders.length` : if only clients with a permit give one back, then as many have one as are out.
-/

namespace ToastOS.Lib.Permits

inductive Event (α : Type)
  | take (t : α)
  | wait (t : α)
  | give (t : α)
  | handOff (giver t : α)
  | leave (t : α)
  deriving DecidableEq

variable {α : Type}

/-- Permits granted, at once or by hand-off. -/
def granted : List (Event α) → Nat
  | [] => 0
  | .take _ :: h | .handOff _ _ :: h => granted h + 1
  | _ :: h => granted h

def released : List (Event α) → Nat
  | [] => 0
  | .give _ :: h | .handOff _ _ :: h => released h + 1
  | _ :: h => released h

def count (h : List (Event α)) : Int := granted h - released h

theorem neg_released_le (h : List (Event α)) : -(released h : Int) ≤ count h := by
  unfold count
  omega

variable [DecidableEq α]

/-- Who waits, the longest waiting first. -/
def queue : List (Event α) → List α
  | [] => []
  | .wait t :: h => queue h ++ [t]
  | .handOff _ t :: h | .leave t :: h => (queue h).erase t
  | _ :: h => queue h

/-- Who was granted a permit and has not given it back, as often as that is so. -/
def holders : List (Event α) → List α
  | [] => []
  | .take t :: h => t :: holders h
  | .handOff giver t :: h => t :: (holders h).erase giver
  | .give t :: h => (holders h).erase t
  | _ :: h => holders h

/-- What an event needs of the history before it. -/
def Allowed (max : Int) (h : List (Event α)) : Event α → Prop
  | .take _ => count h < max
  | .wait t => max ≤ count h ∧ t ∉ queue h
  | .give _ => queue h = []
  | .handOff _ t => (queue h).head? = some t
  | .leave t => t ∈ queue h

inductive Lawful (max : Int) : List (Event α) → Prop
  | nil : Lawful max []
  | cons {e : Event α} {h : List (Event α)} : Lawful max h → Allowed max h e → Lawful max (e :: h)

section Lawful

variable {max : Int} {h pre mid mid' post : List (Event α)} {e : Event α} {f g t u : α}

theorem Lawful.of_append (hl : Lawful max (post ++ h)) : Lawful max h := by
  induction post with
  | nil => exact hl
  | cons e post ih =>
    cases hl with
    | cons hl _ => exact ih hl

theorem Lawful.allowed (hl : Lawful max (post ++ e :: pre)) : Allowed max pre e := by
  cases hl.of_append with
  | cons _ ha => exact ha

theorem Lawful.nodup (hl : Lawful max h) : (queue h).Nodup := by
  induction hl with
  | nil => exact List.nodup_nil
  | @cons e h _ ha ih =>
    cases e with
    | wait t => exact List.nodup_append.2 ⟨ih, List.nodup_singleton t, fun x hx y hy => by
      rw [List.mem_singleton] at hy
      rintro rfl
      exact ha.2 (hy ▸ hx)⟩
    | handOff f t => exact ih.erase t
    | leave t => exact ih.erase t
    | take t => exact ih
    | give t => exact ih

/-- At most `max` permits are out, and all of them while someone waits. -/
theorem Lawful.bounds (hl : Lawful max h) (hmax : 0 ≤ max) : count h ≤ max ∧ (queue h ≠ [] → count h = max) := by
  induction hl with
  | nil => exact ⟨hmax, fun h => absurd rfl h⟩
  | @cons e h _ ha ih =>
    obtain ⟨hle, hfull⟩ := ih
    have hsub : ∀ t, (queue h).erase t ≠ [] → queue h ≠ [] := by
      intro t hne he
      exact hne (by rw [he]; rfl)
    cases e with
    | take t =>
      have hlt : count h < max := ha
      have hcount : count (.take t :: h) = count h + 1 := by simp only [count, granted, released]; omega
      refine ⟨by omega, fun hq => ?_⟩
      have := hfull hq
      omega
    | wait t =>
      have hge : max ≤ count h := ha.1
      have hcount : count (.wait t :: h) = count h := rfl
      exact ⟨by omega, fun _ => by omega⟩
    | give t =>
      have hq : queue h = [] := ha
      have hcount : count (.give t :: h) = count h - 1 := by simp only [count, granted, released]; omega
      exact ⟨by omega, fun hne => absurd hq hne⟩
    | handOff f t =>
      have hcount : count (.handOff f t :: h) = count h := by simp only [count, granted, released]; omega
      exact ⟨by omega, fun hne => by rw [hcount]; exact hfull (hsub t hne)⟩
    | leave t => exact ⟨hle, fun hne => hfull (hsub t hne)⟩

theorem Lawful.count_le (hl : Lawful max h) (hmax : 0 ≤ max) : count h ≤ max := (hl.bounds hmax).1

theorem Lawful.count_eq (hl : Lawful max h) (hmax : 0 ≤ max) (hq : queue h ≠ []) : count h = max :=
  (hl.bounds hmax).2 hq

/-- The client stops waiting in `e`. -/
def Event.ends (e : Event α) (t : α) : Prop := e = .leave t ∨ ∃ f, e = .handOff f t

theorem mem_queue_of_not_ends (ht : t ∈ queue h) (he : ¬ e.ends t) : t ∈ queue (e :: h) := by
  cases e with
  | wait u => exact List.mem_append_left _ ht
  | handOff f u =>
    have hne : t ≠ u := fun heq => he (.inr ⟨f, by rw [heq]⟩)
    exact (List.mem_erase_of_ne hne).2 ht
  | leave u =>
    have hne : t ≠ u := fun heq => he (.inl (by rw [heq]))
    exact (List.mem_erase_of_ne hne).2 ht
  | take u => exact ht
  | give u => exact ht

/-- While `t` waits, everybody who starts to wait comes after it. -/
theorem Lawful.behind (hl : Lawful max (mid ++ h)) (ht : t ∈ queue h) (hu : u ∈ queue h → [t, u].Sublist (queue h))
    (hstay : ∀ e ∈ mid, ¬ e.ends t) :
    t ∈ queue (mid ++ h) ∧ (u ∈ queue (mid ++ h) → [t, u].Sublist (queue (mid ++ h))) := by
  induction mid with
  | nil => exact ⟨ht, hu⟩
  | cons e mid ih =>
    cases hl with
    | cons hl ha =>
      obtain ⟨htm, hsub⟩ := ih hl fun e he => hstay e (List.mem_cons_of_mem _ he)
      have he : ¬ e.ends t := hstay e List.mem_cons_self
      refine ⟨mem_queue_of_not_ends htm he, fun hmem => ?_⟩
      have herase : ∀ x, x ≠ t → u ∈ (queue (mid ++ h)).erase x → [t, u].Sublist ((queue (mid ++ h)).erase x) := by
        intro x hx hm
        have hux : u ≠ x := by
          rintro rfl
          exact hl.nodup.not_mem_erase hm
        have := (hsub (List.mem_of_mem_erase hm)).erase x
        rwa [List.erase_of_not_mem (by simp [hx, hux.symm])] at this
      cases e with
      | wait x =>
        by_cases hux : u = x
        · subst hux
          exact (List.singleton_sublist.2 htm).append (List.Sublist.refl [u])
        · have hm : u ∈ queue (mid ++ h) := by
            rcases List.mem_append.1 hmem with hm | hm
            · exact hm
            · exact absurd (List.mem_singleton.1 hm) hux
          exact (hsub hm).trans (List.sublist_append_left _ _)
      | handOff f x => exact herase x (fun hx => he (.inr ⟨f, by rw [hx]⟩)) hmem
      | leave x => exact herase x (fun hx => he (.inl (by rw [hx]))) hmem
      | take x => exact hsub hmem
      | give x => exact hsub hmem

theorem mem_queue_of_stay (ht : t ∈ queue h) (hstay : ∀ e ∈ mid, ¬ e.ends t) : t ∈ queue (mid ++ h) := by
  induction mid with
  | nil => exact ht
  | cons e mid ih =>
    exact mem_queue_of_not_ends (ih fun e he => hstay e (List.mem_cons_of_mem _ he)) (hstay e List.mem_cons_self)

/-- **First come, first served.** When `u` is handed a permit, whoever started to wait before `u` did has been handed one
or has stopped waiting since. -/
theorem Lawful.in_order (hl : Lawful max (post ++ .handOff f u :: (mid ++ .wait u :: (mid' ++ .wait t :: pre)))) :
    ∃ e ∈ mid ++ mid', e.ends t := by
  by_contra hno
  have hstay : ∀ e ∈ mid ++ mid', ¬ e.ends t := fun e he hends => hno ⟨e, he, hends⟩
  have hl1 : Lawful max (mid ++ .wait u :: (mid' ++ .wait t :: pre)) := by
    cases hl.of_append with
    | cons hl _ => exact hl
  have ht : t ∈ queue (mid' ++ .wait t :: pre) :=
    mem_queue_of_stay (List.mem_append_right _ List.mem_cons_self) fun e he => hstay e (List.mem_append_right _ he)
  have hu : [t, u].Sublist (queue (.wait u :: (mid' ++ .wait t :: pre))) :=
    (List.singleton_sublist.2 ht).append (List.Sublist.refl [u])
  obtain ⟨-, hsub⟩ := hl1.behind (List.mem_append_left [u] ht) (fun _ => hu) fun e he => hstay e (List.mem_append_left _ he)
  -- at the head of the queue `u` cannot be behind `t`
  have hhead : (queue (mid ++ .wait u :: (mid' ++ .wait t :: pre))).head? = some u := hl.allowed
  have hnd := hl1.nodup
  generalize queue (mid ++ .wait u :: (mid' ++ .wait t :: pre)) = l at hsub hhead hnd
  cases l with
  | nil => cases hhead
  | cons x l =>
    cases hhead
    refine (List.nodup_cons.1 hnd).1 ?_
    cases hsub List.mem_cons_self with
    | cons _ h => exact h.subset (by simp)
    | cons_cons _ h => exact h.subset (by simp)

theorem not_mem_queue_of_no_wait (hu : u ∉ queue h) (hno : .wait u ∉ mid) : u ∉ queue (mid ++ h) := by
  induction mid with
  | nil => exact hu
  | cons e mid ih =>
    have ih := ih fun he => hno (List.mem_cons_of_mem _ he)
    cases e with
    | wait x =>
      intro hm
      rcases List.mem_append.1 hm with hm | hm
      · exact ih hm
      · rw [List.mem_singleton] at hm
        exact hno (by rw [hm]; exact List.mem_cons_self)
    | handOff f x => exact fun hm => ih (List.mem_of_mem_erase hm)
    | leave x => exact fun hm => ih (List.mem_of_mem_erase hm)
    | take x => exact ih
    | give x => exact ih

/-- Who was handed a permit, or stopped waiting, is not handed one before waiting again. -/
theorem Lawful.once (hl : Lawful max (post ++ .handOff f u :: (mid ++ e :: pre))) (he : e.ends u) : .wait u ∈ mid := by
  by_contra hno
  have hl1 : Lawful max (e :: pre) := by
    cases hl.of_append with
    | cons hl _ => exact hl.of_append
  have hnd : (queue pre).Nodup := by
    cases hl1 with
    | cons hl _ => exact hl.nodup
  have hu : u ∉ queue (e :: pre) := by
    rcases he with rfl | ⟨g, rfl⟩
    · exact hnd.not_mem_erase
    · exact hnd.not_mem_erase
  have hhead : (queue (mid ++ e :: pre)).head? = some u := hl.allowed
  exact not_mem_queue_of_no_wait hu hno (List.mem_of_mem_head? hhead)

/-- Who gives a permit back has one. -/
def ByHolder (h : List (Event α)) : Event α → Prop
  | .give f | .handOff f _ => f ∈ holders h
  | _ => True

/-- Only clients with a permit give one back. -/
def OnlyHolders : List (Event α) → Prop
  | [] => True
  | e :: h => ByHolder h e ∧ OnlyHolders h

theorem OnlyHolders.length (ho : OnlyHolders h) : ((holders h).length : Int) = count h := by
  induction h with
  | nil => rfl
  | cons e h ih =>
    obtain ⟨hby, ho⟩ := ho
    have ih := ih ho
    -- the permit that is given back is one of those that are out
    have herase : ∀ {f}, f ∈ holders h → (((holders h).erase f).length : Int) = count h - 1 := by
      intro f hf
      have hpos := List.length_pos_of_mem hf
      rw [List.length_erase_of_mem hf]
      omega
    cases e with
    | take t =>
      simp only [holders, List.length_cons, count, granted, released] at ih ⊢
      omega
    | give f =>
      have := herase (f := f) hby
      simp only [holders, count, granted, released] at this ⊢
      omega
    | handOff f t =>
      have := herase (f := f) hby
      simp only [holders, List.length_cons, count, granted, released] at this ⊢
      omega
    | wait t => exact ih
    | leave t => exact ih

end Lawful

end ToastOS.Lib.Permits
