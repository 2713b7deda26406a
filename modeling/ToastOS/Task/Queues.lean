import ToastOS.Task.Lists

/-!
# The queues of `task.c` as lists

`TaskHeap s L`: the records of a heap, linked by one field into the lists `L`.

* `queues_refine_lists` : what the nine functions do to the list they name, and that they do nothing to the others;
* `push_of_listed` : a task must be on no list when it is pushed.
-/

namespace ToastOS.Task

open ToastOS.Lib Function

/-- The lists are well formed and apart, and on them are tasks. -/
structure TaskHeap (s : Kernel) (L : Place → List Tid) : Prop where
  lists : Lists s L
  live : ∀ p, ∀ t ∈ L p, t ∈ s.tcbs

/-- A function has returned from its walk and left the lists `L'`; the pointers tell which queues are empty. -/
structure Becomes (s s' : Kernel) (L' : Place → List Tid) : Prop where
  heap : TaskHeap s' L'
  returned : s'.stuck = s.stuck
  first : ∀ i, (s'.queue i).first = none ↔ L' (.queue i) = []
  last : ∀ i, (s'.queue i).last = none ↔ L' (.queue i) = []

/-- The head is taken, and its link is cleared. -/
structure Pops (s : Kernel) (L : Place → List Tid) (i : QueueId) (r : Option Tid × Kernel) : Prop where
  head : r.1 = (L (.queue i)).head?
  rest : Becomes s r.2 (update L (.queue i) (L (.queue i)).tail)
  link : ∀ t, r.1 = some t → r.2.next t = none

/-- A task is taken out, and its link is cleared; without it nothing is done. -/
structure Removes (s : Kernel) (L : Place → List Tid) (i : QueueId) (task : Tid) (s' : Kernel) : Prop where
  rest : Becomes s s' (update L (.queue i) ((L (.queue i)).erase task))
  link : task ∈ L (.queue i) → s'.next task = none
  absent : task ∉ L (.queue i) → s' = s

section Operations

variable {s s' : Kernel} {L L' : Place → List Tid} {i : QueueId} {a : Tid} {q : Sid}

theorem TaskHeap.length_lt_fuel (h : TaskHeap s L) (p : Place) : (L p).length < s.fuel :=
  Nat.lt_succ_of_le ((h.lists.nodup p).length_le_of_subset (h.live p))

theorem Becomes.of_lists (h : Lists s' L') (hlive : ∀ p, ∀ t ∈ L' p, t ∈ s'.tcbs) (hstuck : s'.stuck = s.stuck) :
    Becomes s s' L' := by
  refine ⟨⟨h, hlive⟩, hstuck, fun i => h.first_eq_none, fun i => ?_⟩
  rw [(h.queue i).last, List.getLast?_eq_none_iff]

/-- Only the links, the pointers, the records and the walks matter. -/
theorem Becomes.congr {s'' : Kernel} (h : Becomes s s' L') (hlinks : s''.links = s'.links) (htcbs : s''.tcbs = s'.tcbs)
    (hstuck : s''.stuck = s'.stuck) : Becomes s s'' L' :=
  .of_lists (h.heap.lists.congr hlinks) (fun p t ht => htcbs ▸ h.heap.live p t ht) (hstuck.trans h.returned)

@[simp] theorem tcbs_setQueue (s : Kernel) (i : QueueId) (q : Queue Tid) : (s.setQueue i q).tcbs = s.tcbs := by
  cases i <;> rfl

@[simp] theorem stuck_setQueue (s : Kernel) (i : QueueId) (q : Queue Tid) : (s.setQueue i q).stuck = s.stuck := by
  cases i <;> rfl

theorem TaskHeap.live_update (h : TaskHeap s L) {l : List Tid} (hl : ∀ t ∈ l, t ∈ s.tcbs) :
    ∀ p, ∀ t ∈ update L (.queue i) l p, t ∈ s.tcbs := by
  intro p t ht
  by_cases hp : p = .queue i
  · rw [hp, update_self] at ht
    exact hl t ht
  · rw [update_of_ne hp] at ht
    exact h.live p t ht

theorem becomes_push (h : TaskHeap s L) (ha : a ∈ s.tcbs) (hu : Unlisted L a) :
    Becomes s (queuePush s i a) (update L (.queue i) (L (.queue i) ++ [a])) := by
  refine .of_lists (h.lists.push hu) ?_ (stuck_setQueue _ _ _)
  rw [queuePush, tcbs_setQueue]
  refine h.live_update fun t ht => ?_
  rcases List.mem_append.1 ht with ht | ht
  · exact h.live _ t ht
  · rwa [List.mem_singleton.1 ht]

theorem becomes_sleepPush (h : TaskHeap s L) (ha : a ∈ s.tcbs) (hu : Unlisted L a) :
    Becomes s (sleepPush s a) (update L (.queue .sleeping) (insertKey s.wakeTime a (L (.queue .sleeping)))) := by
  obtain ⟨hlists, hstuck⟩ := h.lists.sleepPush hu (h.length_lt_fuel _)
  refine .of_lists hlists ?_ hstuck
  have htcbs : (sleepPush s a).tcbs = s.tcbs := by
    unfold sleepPush
    split <;> rfl
  rw [htcbs]
  refine h.live_update fun t ht => ?_
  rcases mem_insertKey.1 ht with rfl | ht
  · exact ha
  · exact h.live _ t ht

theorem pops_queuePop (h : TaskHeap s L) (i : QueueId) : Pops s L i (queuePop s i) := by
  have htcbs : (queuePop s i).2.tcbs = s.tcbs := tcbs_setQueue _ _ _
  have hstuck : (queuePop s i).2.stuck = s.stuck := stuck_setQueue _ _ _
  cases hl : L (.queue i) with
  | nil =>
    have hq := h.lists.queue i
    rw [hl] at hq
    have hlinks : (queuePop s i).2.links = s.links := by
      rw [queuePop, pop_nil hq]
      cases i <;> simp [Kernel.links, Kernel.setQueue, Kernel.queue]
    refine ⟨?_, ?_, fun t ht => ?_⟩
    · rw [h.lists.pop_empty hl, hl]
      rfl
    · rw [hl, List.tail_nil, ← hl, update_eq_self]
      exact .of_lists (h.lists.congr hlinks) (fun p t ht => htcbs ▸ h.live p t ht) hstuck
    · rw [h.lists.pop_empty hl] at ht
      cases ht
  | cons b l =>
    obtain ⟨hhead, hlists⟩ := h.lists.pop hl
    refine ⟨by rw [hhead, hl]; rfl, ?_, fun t ht => ?_⟩
    · rw [hl]
      refine .of_lists hlists ?_ hstuck
      rw [htcbs]
      exact h.live_update fun t ht => h.live (.queue i) t (hl ▸ List.mem_cons_of_mem b ht)
    · have hq := h.lists.queue i
      have hn := h.lists.nodup (.queue i)
      rw [hl] at hq hn
      rw [hhead] at ht
      cases ht
      rw [queuePop, next_setQueue]
      exact (pop_cons hq hn).2.2

theorem removes_queueRemove (h : TaskHeap s L) (i : QueueId) (a : Tid) : Removes s L i a (queueRemove s i a) := by
  have hf := h.length_lt_fuel (.queue i)
  by_cases ha : a ∈ L (.queue i)
  · obtain ⟨next, r, hrem, -, hnext, -⟩ := remove_mem (h.lists.queue i) (h.lists.nodup _) ha hf
    have heq : queueRemove s i a = { s with next := next }.setQueue i r := by rw [queueRemove, hrem]
    obtain ⟨hlists, hstuck⟩ := h.lists.remove ha hf
    refine ⟨.of_lists hlists ?_ hstuck, fun _ => ?_, fun hno => absurd ha hno⟩
    · rw [heq, tcbs_setQueue]
      exact h.live_update fun t ht => h.live _ t (List.mem_of_mem_erase ht)
    · rw [heq, next_setQueue]
      exact hnext
  · have heq := h.lists.remove_absent ha hf
    refine ⟨?_, fun hin => absurd hin ha, fun _ => heq⟩
    rw [heq, List.erase_of_not_mem ha, update_eq_self]
    exact .of_lists h.lists h.live rfl

theorem pops_semPop (h : TaskHeap s L) (q : Sid) : Pops s L (.waiting q) (semPop s q) := by
  have hp := pops_queuePop h (.waiting q)
  unfold semPop
  split
  · rename_i task s' heq
    rw [heq] at hp
    exact ⟨hp.head, hp.rest.congr rfl rfl rfl, hp.link⟩
  · rename_i s' heq
    rw [heq] at hp
    exact hp

theorem removes_semRemove (h : TaskHeap s L) (q : Sid) (a : Tid) : Removes s L (.waiting q) a (semRemove s q a) := by
  have hr := removes_queueRemove h (.waiting q) a
  unfold semRemove
  split
  · -- the head
    rename_i hfirst
    have hp := pops_semPop h q
    have hhead : (L (.queue (.waiting q))).head? = some a := by
      rw [← hfirst]
      exact ((h.lists.queue (.waiting q)).seg.head).symm
    obtain ⟨l, hl⟩ : ∃ l, L (.queue (.waiting q)) = a :: l := by
      cases hl : L (.queue (.waiting q)) with
      | nil => rw [hl] at hhead; cases hhead
      | cons b l =>
        rw [hl, List.head?_cons, Option.some_inj] at hhead
        exact ⟨l, by rw [hhead]⟩
    refine ⟨?_, fun _ => hp.link a (hp.head.trans hhead), fun hno => ?_⟩
    · have hrest := hp.rest
      rwa [hl, List.tail_cons, ← List.erase_cons_head a l, ← hl] at hrest
    · exact absurd (hl ▸ List.mem_cons_self) hno
  · rename_i hfirst
    split
    · rename_i t hprev
      refine ⟨hr.rest.congr rfl rfl rfl, hr.link, fun hno => ?_⟩
      -- the walk finds a predecessor only of what is on the list
      cases (findPrev_absent (h.lists.queue (.waiting q)).seg hfirst hno (h.length_lt_fuel _)).symm.trans hprev
    · exact hr

end Operations

/-- The nine functions on the lists of any heap: append, insertion in the order of `wake_time`, taking the head, removal.
Every walk ends, and no other list changes. -/
theorem queues_refine_lists (s : Kernel) (L : Place → List Tid) (h : TaskHeap s L) (task : Tid) (ht : task ∈ s.tcbs)
    (sem : Sid) :
    (Unlisted L task →
      Becomes s (readyPush s task) (update L (.queue .ready) (L (.queue .ready) ++ [task])) ∧
      Becomes s (sleepPush s task)
        (update L (.queue .sleeping) (insertKey s.wakeTime task (L (.queue .sleeping)))) ∧
      Becomes s (semPush s sem task)
        (update L (.queue (.waiting sem)) (L (.queue (.waiting sem)) ++ [task]))) ∧
    (Pops s L .ready (readyPop s) ∧ Pops s L .sleeping (sleepPop s) ∧ Pops s L (.waiting sem) (semPop s sem)) ∧
    (Removes s L .ready task (readyRemove s task) ∧ Removes s L .sleeping task (sleepRemove s task) ∧
      Removes s L (.waiting sem) task (semRemove s sem task)) := by
  refine ⟨fun hu => ⟨becomes_push h ht hu, becomes_sleepPush h ht hu, ?_⟩, ⟨?_, ?_, ?_⟩, ?_, ?_, ?_⟩
  · exact (becomes_push h ht hu).congr rfl rfl rfl
  · exact pops_queuePop h .ready
  · exact pops_queuePop h .sleeping
  · exact pops_semPop h sem
  · exact removes_queueRemove h .ready task
  · exact removes_queueRemove h .sleeping task
  · exact removes_semRemove h sem task

/-- Tasks 1 and 2 sleep, task 0 is on no list. -/
def twoAsleep : Kernel :=
  { bootState Boot.sample with ready := ⟨none, none⟩, sleeping := ⟨some 1, some 2⟩ }

def twoAsleepLists (p : Place) : List Tid := if p = .queue .sleeping then [1, 2] else []

theorem taskHeap_twoAsleep : TaskHeap twoAsleep twoAsleepLists := by
  have hsub : ∀ p, ∀ t ∈ twoAsleepLists p, p = .queue .sleeping ∧ t ∈ twoAsleep.tcbs := by
    intro p t ht
    unfold twoAsleepLists at ht
    split at ht
    · rename_i hp
      have hall : ∀ x ∈ [1, 2], x ∈ twoAsleep.tcbs := by decide
      exact ⟨hp, hall t ht⟩
    · cases ht
  refine ⟨⟨fun i => ?_, rfl, fun p => ?_, fun p q t hp hq => ?_⟩, fun p t ht => (hsub p t ht).2⟩
  · cases i with
    | ready => exact ⟨rfl, rfl⟩
    | sleeping => exact ⟨⟨rfl, rfl, rfl⟩, rfl⟩
    | waiting q => exact ⟨rfl, rfl⟩
  · unfold twoAsleepLists
    split <;> decide
  · rw [(hsub p t hp).1, (hsub q t hq).1]

/-- Task 0 is put on the ready queue, task 1 taken off the sleeping list. -/
theorem queues_twoAsleep :
    (twoAsleep.ready.last = none ∧
      Becomes twoAsleep (readyPush twoAsleep 0) (update twoAsleepLists (.queue .ready) [0])) ∧
    Removes twoAsleep twoAsleepLists .sleeping 1 (sleepRemove twoAsleep 1) := by
  have hu : Unlisted twoAsleepLists 0 := by
    intro p
    unfold twoAsleepLists
    split <;> decide
  exact ⟨⟨rfl, ((queues_refine_lists twoAsleep twoAsleepLists taskHeap_twoAsleep 0 (by decide) 0).1 hu).1⟩,
    (queues_refine_lists twoAsleep twoAsleepLists taskHeap_twoAsleep 1 (by decide) 0).2.2.2.1⟩

/-- A task that is on the sleeping list is pushed to the ready queue: its link is cleared, and with it the rest of the
sleeping list is lost. -/
theorem push_of_listed :
    TaskHeap twoAsleep twoAsleepLists ∧ 1 ∈ twoAsleep.tcbs ∧
      ¬ ∃ L, Lists (readyPush twoAsleep 1) L ∧ L (.queue .sleeping) = twoAsleepLists (.queue .sleeping) := by
  refine ⟨taskHeap_twoAsleep, by decide, ?_⟩
  rintro ⟨L, hL, hsame⟩
  have hseg := (hL.queue .sleeping).seg
  rw [hsame] at hseg
  cases hseg.2.1

end ToastOS.Task
