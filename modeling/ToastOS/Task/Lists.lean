import ToastOS.Task.Balance

/-!
# The task lists of a state

`Lists s L`: the ready queue, the sleeping list, the wait queue of each semaphore and the list of terminated tasks
of `s` hold the tasks that `L` says, no task twice and no task on two of them, although all of them share the
one link field `next`.

* `Lists.replace` : one queue gets new contents while only links of its own tasks and of one more task are
  written; push, pop, remove and insert are instances (`Lists.push`, `Lists.pop`, `Lists.remove`, ...);
* `Lists.congr` : nothing else of the state matters.
-/

namespace ToastOS.Task

open ToastOS.Lib Function

variable {s : Kernel} {l : List Tid} {a : Tid}

/-- Where a task can be listed. -/
inductive Place
  | queue (i : QueueId)
  | terminated
  deriving DecidableEq

structure Lists (s : Kernel) (L : Place → List Tid) : Prop where
  queue : ∀ i, (s.queue i).Holds s.next (L (.queue i))
  terminated : Seg s.next s.terminated (L .terminated) none
  nodup : ∀ p, (L p).Nodup
  apart : ∀ p q t, t ∈ L p → t ∈ L q → p = q

def Unlisted (L : Place → List Tid) (t : Tid) : Prop := ∀ p, t ∉ L p

/-- The links and the pointers to the lists. -/
def Kernel.links (s : Kernel) : (Tid → Option Tid) × Queue Tid × Queue Tid × (Sid → Queue Tid) × Option Tid :=
  (s.next, s.ready, s.sleeping, s.waiters, s.terminated)

variable {L : Place → List Tid}

theorem Lists.congr {s' : Kernel} (h : Lists s L) (hl : s'.links = s.links) : Lists s' L := by
  simp only [Kernel.links, Prod.mk.injEq] at hl
  obtain ⟨h1, h2, h3, h4, h5⟩ := hl
  refine ⟨?_, ?_, h.nodup, h.apart⟩
  · intro i
    have hq : s'.queue i = s.queue i := by
      cases i with
      | ready => exact h2
      | sleeping => exact h3
      | waiting q => exact congrFun h4 q
    rw [hq, h1]
    exact h.queue i
  · rw [h5, h1]
    exact h.terminated

theorem queue_setQueue (s : Kernel) (i j : QueueId) (q : Queue Tid) :
    (s.setQueue i q).queue j = if j = i then q else s.queue j := by
  cases i <;> cases j <;> simp [Kernel.setQueue, Kernel.queue, update_apply]

@[simp] theorem next_setQueue (s : Kernel) (i : QueueId) (q : Queue Tid) : (s.setQueue i q).next = s.next := by
  cases i <;> rfl

@[simp] theorem terminated_setQueue (s : Kernel) (i : QueueId) (q : Queue Tid) :
    (s.setQueue i q).terminated = s.terminated := by
  cases i <;> rfl

section Replace

variable {i : QueueId}

/-- A queue gets new contents; only links of its old tasks and of `a`, which is on no other list, are written. -/
theorem Lists.replace {next : Tid → Option Tid} {q : Queue Tid} (h : Lists s L)
    (hq : q.Holds next l) (hn : l.Nodup) (hsub : ∀ x ∈ l, x = a ∨ x ∈ L (.queue i))
    (ha : ∀ p, p ≠ .queue i → a ∉ L p) (hnext : ∀ x, x ≠ a → x ∉ L (.queue i) → next x = s.next x) :
    Lists ({ s with next := next }.setQueue i q) (update L (.queue i) l) := by
  -- the links of every other list are as before
  have hkeep : ∀ p, p ≠ .queue i → ∀ x ∈ L p, next x = s.next x := by
    intro p hp x hx
    apply hnext
    · rintro rfl
      exact ha p hp hx
    · intro hxi
      exact hp (h.apart p _ x hx hxi)
  -- nothing of the new contents is on another list
  have hout : ∀ p, p ≠ .queue i → ∀ x ∈ l, x ∉ L p := by
    intro p hp x hx hxp
    rcases hsub x hx with rfl | hxi
    · exact ha p hp hxp
    · exact hp (h.apart p _ x hxp hxi)
  refine ⟨?_, ?_, ?_, ?_⟩
  · intro j
    rw [queue_setQueue, next_setQueue]
    by_cases hj : j = i
    · subst hj
      rw [if_pos rfl, update_self]
      exact hq
    · have hp : Place.queue j ≠ .queue i := by simpa using hj
      rw [if_neg hj, update_of_ne hp]
      exact (h.queue j).congr (hkeep _ hp)
  · rw [terminated_setQueue, next_setQueue, update_of_ne (by simp)]
    exact h.terminated.congr (hkeep _ (by simp))
  · intro p
    by_cases hp : p = .queue i
    · rw [hp, update_self]
      exact hn
    · rw [update_of_ne hp]
      exact h.nodup p
  · intro p r t htp htr
    by_cases hp : p = .queue i <;> by_cases hr : r = .queue i
    · rw [hp, hr]
    · rw [hp, update_self] at htp
      rw [update_of_ne hr] at htr
      exact absurd htr (hout r hr t htp)
    · rw [hr, update_self] at htr
      rw [update_of_ne hp] at htp
      exact absurd htp (hout p hp t htr)
    · rw [update_of_ne hp] at htp
      rw [update_of_ne hr] at htr
      exact h.apart p r t htp htr

theorem Lists.push (h : Lists s L) (ha : Unlisted L a) :
    Lists (queuePush s i a) (update L (.queue i) (L (.queue i) ++ [a])) := by
  have hn : (L (.queue i) ++ [a]).Nodup := by
    rw [List.nodup_append]
    refine ⟨h.nodup _, by simp, ?_⟩
    intro x hx y hy hxy
    rw [List.mem_singleton.1 hy] at hxy
    exact ha _ (hxy ▸ hx)
  refine h.replace (a := a) (push_holds (h.queue i) (h.nodup _) (ha _)) hn ?_ (fun p _ => ha p) ?_
  · intro x hx
    rcases List.mem_append.1 hx with hx | hx
    · exact .inr hx
    · exact .inl (List.mem_singleton.1 hx)
  · intro x hxa hx
    exact push_next (h.queue i) a hxa hx

theorem Lists.pop (h : Lists s L) (hl : L (.queue i) = a :: l) :
    (queuePop s i).1 = some a ∧ Lists (queuePop s i).2 (update L (.queue i) l) := by
  have hq := h.queue i
  have hn := h.nodup (.queue i)
  rw [hl] at hq hn
  obtain ⟨hhead, hholds, -⟩ := pop_cons hq hn
  refine ⟨hhead, h.replace (a := a) hholds (List.nodup_cons.1 hn).2 ?_ ?_ ?_⟩
  · intro x hx
    rw [hl]
    exact .inr (List.mem_cons_of_mem a hx)
  · intro p hp hap
    exact hp (h.apart p _ a hap (by rw [hl]; exact List.mem_cons_self))
  · intro x _ hx
    rw [hl] at hx
    exact pop_next hq hx

theorem Lists.pop_empty (h : Lists s L) (hl : L (.queue i) = []) : (queuePop s i).1 = none := by
  have hq := h.queue i
  rw [hl] at hq
  rw [queuePop, pop_nil hq]

theorem Lists.first_eq_none (h : Lists s L) : (s.queue i).first = none ↔ L (.queue i) = [] := by
  rw [(h.queue i).seg.head]
  exact List.head?_eq_none_iff

/-- Removing a task that is on the queue, with enough fuel to walk it. -/
theorem Lists.remove (h : Lists s L) (ha : a ∈ L (.queue i)) (hf : (L (.queue i)).length < s.fuel) :
    Lists (queueRemove s i a) (update L (.queue i) ((L (.queue i)).erase a)) ∧
      (queueRemove s i a).stuck = s.stuck := by
  obtain ⟨next, q, hrem, hholds, -, hnext⟩ := remove_mem (h.queue i) (h.nodup _) ha hf
  rw [queueRemove, hrem]
  refine ⟨h.replace (a := a) hholds ((h.nodup _).erase a) ?_ ?_ ?_, ?_⟩
  · intro x hx
    exact .inr (List.mem_of_mem_erase hx)
  · intro p hp hap
    exact hp (h.apart p _ a hap ha)
  · intro x _ hx
    exact hnext x hx
  · cases i <;> rfl

theorem Lists.remove_absent (h : Lists s L) (ha : a ∉ L (.queue i)) (hf : (L (.queue i)).length < s.fuel) :
    queueRemove s i a = s := by
  rw [queueRemove, Lib.remove_absent (h.queue i) ha hf]
  cases i with
  | ready => rfl
  | sleeping => rfl
  | waiting q => simp [Kernel.setQueue, Kernel.queue]

theorem Lists.sleepPush (h : Lists s L) (ha : Unlisted L a) (hf : (L (.queue .sleeping)).length < s.fuel) :
    Lists (sleepPush s a) (update L (.queue .sleeping) (insertKey s.wakeTime a (L (.queue .sleeping)))) ∧
      (sleepPush s a).stuck = s.stuck := by
  obtain ⟨next, q, hins, hholds, hnext⟩ :=
    insertBy_spec s.wakeTime (h.queue .sleeping) (h.nodup _) (ha _) hf
  have hs : ToastOS.Task.sleepPush s a = { s with next := next, sleeping := q } := by
    unfold ToastOS.Task.sleepPush
    rw [show s.sleeping.insertBy s.fuel s.wakeTime s.next a = some (next, q) from hins]
  rw [hs]
  refine ⟨h.replace (i := .sleeping) (a := a) hholds (nodup_insertKey (h.nodup _) (ha _)) ?_ (fun p _ => ha p) ?_, rfl⟩
  · intro x hx
    exact mem_insertKey.1 hx
  · intro x hxa hx
    exact hnext x hxa hx

end Replace

theorem Lists.setNext (h : Lists s L) (ha : Unlisted L a)
    (x : Option Tid) : Lists { s with next := update s.next a x } L := by
  have hkeep : ∀ p, ∀ y ∈ L p, update s.next a x y = s.next y := by
    intro p y hy
    apply update_of_ne
    rintro rfl
    exact ha p hy
  exact ⟨fun i => (h.queue i).congr (hkeep _), h.terminated.congr (hkeep _), h.nodup, h.apart⟩

/-! ## The list of terminated tasks -/

theorem Lists.terminatedPush (h : Lists s L) (ha : Unlisted L a) :
    Lists (terminatedPush s a) (update L .terminated (a :: L .terminated)) := by
  have hkeep : ∀ p, ∀ x ∈ L p, update s.next a s.terminated x = s.next x := by
    intro p x hx
    apply update_of_ne
    rintro rfl
    exact ha p hx
  refine ⟨?_, ?_, ?_, ?_⟩
  · intro j
    rw [update_of_ne (by simp)]
    exact (h.queue j).congr (hkeep _)
  · rw [update_self]
    refine ⟨rfl, ?_⟩
    show Seg (update s.next a s.terminated) (update s.next a s.terminated a) _ _
    rw [update_self]
    exact h.terminated.congr (hkeep _)
  · intro p
    by_cases hp : p = .terminated
    · rw [hp, update_self]
      exact List.nodup_cons.2 ⟨ha _, h.nodup _⟩
    · rw [update_of_ne hp]
      exact h.nodup p
  · intro p r t htp htr
    by_cases hp : p = .terminated <;> by_cases hr : r = .terminated
    · rw [hp, hr]
    · rw [hp, update_self] at htp
      rw [update_of_ne hr] at htr
      rcases List.mem_cons.1 htp with rfl | htp
      · exact absurd htr (ha r)
      · exact hp.trans (h.apart _ r t htp htr)
    · rw [hr, update_self] at htr
      rw [update_of_ne hp] at htp
      rcases List.mem_cons.1 htr with rfl | htr
      · exact absurd htp (ha p)
      · exact (h.apart p _ t htp htr).trans hr.symm
    · rw [update_of_ne hp] at htp
      rw [update_of_ne hr] at htr
      exact h.apart p r t htp htr

theorem Lists.terminated_none (h : Lists s L) (hl : L .terminated = []) : s.terminated = none := by
  have hseg := h.terminated
  rwa [hl] at hseg

theorem Lists.terminatedPop (h : Lists s L)
    (hl : L .terminated = a :: l) :
    s.terminated = some a ∧ Lists { s with terminated := s.next a } (update L .terminated l) := by
  have hseg := h.terminated
  have hn := h.nodup .terminated
  rw [hl] at hseg hn
  refine ⟨hseg.1, ?_, ?_, ?_, ?_⟩
  · intro j
    rw [update_of_ne (by simp)]
    exact h.queue j
  · rw [update_self]
    exact hseg.2
  · intro p
    by_cases hp : p = .terminated
    · rw [hp, update_self]
      exact (List.nodup_cons.1 hn).2
    · rw [update_of_ne hp]
      exact h.nodup p
  · have hsub : ∀ p x, x ∈ update L .terminated l p → x ∈ L p := by
      intro p x hx
      by_cases hp : p = .terminated
      · rw [hp, update_self] at hx
        rw [hp, hl]
        exact List.mem_cons_of_mem a hx
      · rwa [update_of_ne hp] at hx
    intro p r t htp htr
    exact h.apart p r t (hsub p t htp) (hsub r t htr)

end ToastOS.Task
