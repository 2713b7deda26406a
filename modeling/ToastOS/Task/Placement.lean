import ToastOS.Task.Lists
import ToastOS.Task.BalanceStep

/-!
# Every task is where its state says

`Placed s L`: with `L` the lists of `s`, every listed task is allocated and its state names the list, and every
allocated task whose state names a list other than the ready queue is on it. A task that is READY but not
queued is `Fresh`; that is what a task is while it is being created.

Operations move one task at a time: `Relocated a s L s' L'` says that nothing but the place of `a` changed, and
`Placed.relocate` that it is then enough to look at `a`.
-/

namespace ToastOS.Task

open ToastOS.Lib Function

def Kernel.placeOf (s : Kernel) (t : Tid) : Option Place :=
  match s.state t with
  | .ready => some (.queue .ready)
  | .sleeping => some (.queue .sleeping)
  | .waitingForLock => (s.waitingFor t).map fun q => .queue (.waiting q)
  | .dead => some .terminated
  | .running | .paused | .blocked => none

/-- The place of one task agrees with its state. -/
structure Settled (s : Kernel) (L : Place → List Tid) (t : Tid) : Prop where
  named : ∀ p, t ∈ L p → s.placeOf t = some p
  listed : ∀ p, s.placeOf t = some p → p ≠ .queue .ready → t ∈ L p
  waits : s.state t = .waitingForLock → ∃ q ∈ s.sems, s.waitingFor t = some q

structure Placed (s : Kernel) (L : Place → List Tid) : Prop where
  lists : Lists s L
  live : ∀ p, ∀ t ∈ L p, t ∈ s.tcbs
  settled : ∀ t ∈ s.tcbs, Settled s L t
  paused : ∀ t, s.state t = .paused → t ∈ s.tcbs
  nodup : s.tcbs.Nodup
  notStuck : s.stuck = false

/-- READY, but on no list. -/
structure Fresh (s : Kernel) (L : Place → List Tid) (t : Tid) : Prop where
  live : t ∈ s.tcbs
  ready : s.state t = .ready
  unlisted : Unlisted L t

/-- What a change of place leaves alone, apart from the task's own state. -/
def Kernel.registry (s : Kernel) : List Tid × List Sid × PidReg × (Tid → Nat) × Bool :=
  (s.tcbs, s.sems, s.pids, s.pid, s.stuck)

/-- From `s` to `s'` only the task `a` changed its place and state. -/
structure Relocated (a : Tid) (s : Kernel) (L : Place → List Tid) (s' : Kernel) (L' : Place → List Tid) : Prop where
  lists : Lists s' L'
  off : ∀ p x, x ≠ a → (x ∈ L' p ↔ x ∈ L p)
  state : ∀ x, x ≠ a → s'.state x = s.state x
  waitingFor : ∀ x, x ≠ a → s'.waitingFor x = s.waitingFor x
  registry : s'.registry = s.registry

section Relocated

variable {a x : Tid} {s s' s'' : Kernel} {L L' L'' : Place → List Tid}

theorem Relocated.tcbs (r : Relocated a s L s' L') : s'.tcbs = s.tcbs := congrArg Prod.fst r.registry

theorem Relocated.sems (r : Relocated a s L s' L') : s'.sems = s.sems := congrArg (·.2.1) r.registry

theorem Relocated.pids (r : Relocated a s L s' L') : s'.pids = s.pids := congrArg (·.2.2.1) r.registry

theorem Relocated.pid (r : Relocated a s L s' L') : s'.pid = s.pid := congrArg (·.2.2.2.1) r.registry

theorem Relocated.stuck (r : Relocated a s L s' L') : s'.stuck = s.stuck := congrArg (·.2.2.2.2) r.registry

theorem Relocated.trans (r : Relocated a s L s' L') (r' : Relocated a s' L' s'' L'') : Relocated a s L s'' L'' where
  lists := r'.lists
  off p x hx := (r'.off p x hx).trans (r.off p x hx)
  state x hx := (r'.state x hx).trans (r.state x hx)
  waitingFor x hx := (r'.waitingFor x hx).trans (r.waitingFor x hx)
  registry := r'.registry.trans r.registry

theorem Relocated.placeOf (r : Relocated a s L s' L') (hx : x ≠ a) : s'.placeOf x = s.placeOf x := by
  simp only [Kernel.placeOf, r.state x hx, r.waitingFor x hx]

theorem Relocated.settled (r : Relocated a s L s' L') (hx : x ≠ a) (h : Settled s L x) : Settled s' L' x where
  named p hp := (r.placeOf hx).trans (h.named p ((r.off p x hx).1 hp))
  listed p hp hne := (r.off p x hx).2 (h.listed p ((r.placeOf hx).symm.trans hp) hne)
  waits hw := by
    rw [r.waitingFor x hx, r.sems]
    exact h.waits ((r.state x hx).symm.trans hw)

theorem Relocated.fresh_iff (r : Relocated a s L s' L') (hx : x ≠ a) : Fresh s' L' x ↔ Fresh s L x := by
  constructor
  · intro h
    exact ⟨r.tcbs ▸ h.live, (r.state x hx).symm.trans h.ready, fun p hp => h.unlisted p ((r.off p x hx).2 hp)⟩
  · intro h
    exact ⟨r.tcbs ▸ h.live, (r.state x hx).trans h.ready, fun p hp => h.unlisted p ((r.off p x hx).1 hp)⟩

theorem Placed.relocate (h : Placed s L) (ha : a ∈ s.tcbs) (r : Relocated a s L s' L') (hset : Settled s' L' a) :
    Placed s' L' := by
  refine ⟨r.lists, ?_, ?_, ?_, ?_, ?_⟩
  · intro p t ht
    rw [r.tcbs]
    by_cases hta : t = a
    · rw [hta]; exact ha
    · exact h.live p t ((r.off p t hta).1 ht)
  · intro t ht
    rw [r.tcbs] at ht
    by_cases hta : t = a
    · rw [hta]; exact hset
    · exact r.settled hta (h.settled t ht)
  · intro t ht
    rw [r.tcbs]
    by_cases hta : t = a
    · rw [hta]; exact ha
    · exact h.paused t ((r.state t hta).symm.trans ht)
  · rw [r.tcbs]; exact h.nodup
  · rw [r.stuck]; exact h.notStuck

end Relocated

section Facts

variable {s s' : Kernel} {L : Place → List Tid} {t : Tid} {p : Place}

theorem Placed.unlisted (h : Placed s L) (hp : s.placeOf t = none) : Unlisted L t := by
  intro p ht
  have := (h.settled t (h.live p t ht)).named p ht
  rw [hp] at this
  cases this

theorem Placed.state_of_ready (h : Placed s L) (ht : t ∈ L (.queue .ready)) : s.state t = .ready := by
  have := (h.settled t (h.live _ t ht)).named _ ht
  unfold Kernel.placeOf at this
  split at this <;> simp_all

theorem Placed.state_of_sleeping (h : Placed s L) (ht : t ∈ L (.queue .sleeping)) : s.state t = .sleeping := by
  have := (h.settled t (h.live _ t ht)).named _ ht
  unfold Kernel.placeOf at this
  split at this <;> simp_all

theorem Placed.state_of_waiting {q : Sid} (h : Placed s L) (ht : t ∈ L (.queue (.waiting q))) :
    s.state t = .waitingForLock ∧ s.waitingFor t = some q := by
  have := (h.settled t (h.live _ t ht)).named _ ht
  unfold Kernel.placeOf at this
  split at this <;> simp_all

theorem Placed.state_of_terminated (h : Placed s L) (ht : t ∈ L .terminated) : s.state t = .dead := by
  have := (h.settled t (h.live _ t ht)).named _ ht
  unfold Kernel.placeOf at this
  split at this <;> simp_all

theorem Placed.length_lt_fuel (h : Placed s L) (p : Place) : (L p).length < s.fuel := by
  have hle : (L p).length ≤ s.tcbs.length := by
    apply (h.lists.nodup p).length_le_of_subset
    intro t ht
    exact h.live p t ht
  rw [Kernel.fuel]
  omega

theorem Placed.congr (h : Placed s L) (hl : s'.links = s.links) (hst : s'.state = s.state)
    (hw : s'.waitingFor = s.waitingFor) (ht : s'.tcbs = s.tcbs) (hq : s'.sems = s.sems) (hx : s'.stuck = s.stuck) :
    Placed s' L := by
  have hp : ∀ t, s'.placeOf t = s.placeOf t := fun t => by simp only [Kernel.placeOf, hst, hw]
  refine ⟨h.lists.congr hl, ?_, ?_, ?_, ?_, ?_⟩
  · intro p t hm
    rw [ht]; exact h.live p t hm
  · intro t hm
    rw [ht] at hm
    obtain ⟨g1, g2, g3⟩ := h.settled t hm
    refine ⟨fun p hm => (hp t).trans (g1 p hm), fun p hm hne => g2 p ((hp t).symm.trans hm) hne, ?_⟩
    rw [hst, hw, hq]; exact g3
  · intro t hm
    rw [ht]
    rw [hst] at hm
    exact h.paused t hm
  · rw [ht]; exact h.nodup
  · rw [hx]; exact h.notStuck

end Facts

/-! ## Moving one task -/

section Update

variable {L : Place → List Tid} {a : Tid} {p : Place} {l : List Tid}

theorem off_update (h : ∀ x, x ≠ a → (x ∈ l ↔ x ∈ L p)) (q : Place) (x : Tid) (hx : x ≠ a) :
    x ∈ update L p l q ↔ x ∈ L q := by
  by_cases hq : q = p
  · rw [hq, update_self]; exact h x hx
  · rw [update_of_ne hq]

theorem unlisted_update (h : ∀ q, q ≠ p → a ∉ L q) (ha : a ∉ l) : Unlisted (update L p l) a := by
  intro q
  by_cases hq : q = p
  · rw [hq, update_self]; exact ha
  · rw [update_of_ne hq]; exact h q hq

/-- On one list only. -/
def OnlyAt (L : Place → List Tid) (a : Tid) (p : Place) : Prop := ∀ q, a ∈ L q ↔ q = p

theorem onlyAt_update (h : ∀ q, q ≠ p → a ∉ L q) (ha : a ∈ l) : OnlyAt (update L p l) a p := by
  intro q
  by_cases hq : q = p
  · rw [hq, update_self]; exact iff_of_true ha rfl
  · rw [update_of_ne hq]; exact iff_of_false (h q hq) hq

theorem Settled.of_onlyAt {s : Kernel} (h : OnlyAt L a p) (hp : s.placeOf a = some p)
    (hw : s.state a = .waitingForLock → ∃ q ∈ s.sems, s.waitingFor a = some q) : Settled s L a where
  named q hq := hp.trans (congrArg some ((h q).1 hq).symm)
  listed q hq _ := (h q).2 (Option.some.inj (hq.symm.trans hp))
  waits := hw

theorem Settled.of_unlisted {s : Kernel} (h : Unlisted L a) (hp : s.placeOf a = none ∨ s.placeOf a = some (.queue .ready))
    (hw : s.state a ≠ .waitingForLock) : Settled s L a where
  named q hq := absurd hq (h q)
  listed q hq hne := by
    rcases hp with hp | hp
    · rw [hp] at hq; cases hq
    · rw [hp] at hq; exact absurd (Option.some.inj hq).symm hne
  waits hw' := absurd hw' hw

end Update

/-- What the queue operations do not touch. -/
def Kernel.offLists (s : Kernel) :
    (Tid → TaskState) × (Tid → Option Sid) × (List Tid × List Sid × PidReg × (Tid → Nat) × Bool) :=
  (s.state, s.waitingFor, s.registry)

@[simp] theorem offLists_setQueue (s : Kernel) (i : QueueId) (q : Queue Tid) :
    (s.setQueue i q).offLists = s.offLists := by
  cases i <;> rfl

section Moves

variable {s s' : Kernel} {L L' : Place → List Tid} {a : Tid}

theorem Relocated.of_offLists (hl : Lists s' L') (ho : ∀ p x, x ≠ a → (x ∈ L' p ↔ x ∈ L p))
    (h : s'.offLists = s.offLists) : Relocated a s L s' L' := by
  simp only [Kernel.offLists, Prod.mk.injEq] at h
  exact ⟨hl, ho, fun x _ => congrFun h.1 x, fun x _ => congrFun h.2.1 x, h.2.2⟩

theorem Relocated.push (h : Lists s L) (i : QueueId) (ha : Unlisted L a) :
    Relocated a s L (queuePush s i a) (update L (.queue i) (L (.queue i) ++ [a])) := by
  refine .of_offLists (h.push ha) (off_update fun x hx => ?_) ?_
  · simp [hx]
  · rw [queuePush, offLists_setQueue]; rfl

theorem Relocated.pop {l : List Tid} {i : QueueId} (h : Lists s L) (hl : L (.queue i) = a :: l) :
    Relocated a s L (queuePop s i).2 (update L (.queue i) l) := by
  refine .of_offLists (h.pop hl).2 (off_update fun x hx => ?_) ?_
  · simp [hl, hx]
  · rw [queuePop, offLists_setQueue]; rfl

theorem Relocated.remove {i : QueueId} (h : Lists s L) (ha : a ∈ L (.queue i))
    (hf : (L (.queue i)).length < s.fuel) :
    Relocated a s L (queueRemove s i a) (update L (.queue i) ((L (.queue i)).erase a)) := by
  obtain ⟨next, q, hrem, -⟩ := remove_mem (h.queue i) (h.nodup _) ha hf
  refine .of_offLists (h.remove ha hf).1 (off_update fun x hx => List.mem_erase_of_ne hx) ?_
  rw [queueRemove, hrem, offLists_setQueue]; rfl

theorem Relocated.sleepPush (h : Lists s L) (ha : Unlisted L a) (hf : (L (.queue .sleeping)).length < s.fuel) :
    Relocated a s L (sleepPush s a)
      (update L (.queue .sleeping) (insertKey s.wakeTime a (L (.queue .sleeping)))) := by
  obtain ⟨next, q, hins, -⟩ := insertBy_spec s.wakeTime (h.queue .sleeping) (h.nodup _) (ha _) hf
  refine .of_offLists (h.sleepPush ha hf).1 (off_update fun x hx => ?_) ?_
  · rw [mem_insertKey]; simp [hx]
  · unfold ToastOS.Task.sleepPush
    rw [show s.sleeping.insertBy s.fuel s.wakeTime s.next a = some (next, q) from hins]; rfl

theorem Relocated.terminatedPush (h : Lists s L) (ha : Unlisted L a) :
    Relocated a s L (terminatedPush s a) (update L .terminated (a :: L .terminated)) := by
  refine .of_offLists (h.terminatedPush ha) (off_update fun x hx => ?_) rfl
  simp [hx]

theorem Relocated.setState (h : Lists s L) (st : TaskState) : Relocated a s L (setState s a st) L :=
  ⟨h.congr rfl, fun _ _ _ => Iff.rfl, fun _ hx => update_of_ne hx _ _, fun _ _ => rfl, rfl⟩

theorem Relocated.same {u : Kernel} (h : Lists s L) (hl : u.links = s.links) (ho : u.offLists = s.offLists) :
    Relocated a s L u L :=
  .of_offLists (h.congr hl) (fun _ _ _ => Iff.rfl) ho

end Moves

end ToastOS.Task
