import ToastOS.Task.Placement

/-!
# Where the operations put tasks

`Change gone w s L s' L'`: the places are right again after an operation, no task has become fresh, and none but `gone`
has ceased to be; `w` says what became of the wait queues and of the sleeping list. `Runs s s'`: no task has become
RUNNING, and one that no longer is has a `schedule()` to come. One lemma for each operation of `task.c`.
-/

namespace ToastOS.Task

open ToastOS.Lib Function

variable {l : List Tid} {i : QueueId}

/-- What an operation does to the tasks that wait, for a semaphore or for the clock. -/
abbrev WaitMove := QueueId → List Tid → List Tid

def WaitMove.stay : WaitMove := fun _ l => l

/-- Only the queue `i` changes. -/
def WaitMove.on (i : QueueId) (f : List Tid → List Tid) : WaitMove := update WaitMove.stay i f

/-- An operation that allocates and frees no task. -/
structure Change (gone : Option Tid) (w : WaitMove) (s : Kernel) (L : Place → List Tid) (s' : Kernel)
    (L' : Place → List Tid) : Prop where
  placed : Placed s' L'
  fresh : ∀ t, Fresh s' L' t → Fresh s L t
  kept : ∀ t, Fresh s L t → gone ≠ some t → Fresh s' L' t
  dead : ∀ t, s.state t = .dead → s'.state t = .dead
  tcbs : s'.tcbs = s.tcbs
  pids : s'.pids = s.pids
  pid : s'.pid = s.pid
  waiting : ∀ i, i ≠ .ready → L' (.queue i) = w i (L (.queue i))

/-- No task has become RUNNING, and who is no longer RUNNING calls `schedule()` next. -/
def Runs (s s' : Kernel) : Prop :=
  (∀ u, s'.state u = .running → s.state u = .running) ∧
    ((∀ u, s.state u = .running → s'.state u = .running) ∨ ∃ k, s'.control = .schedule :: k)

theorem Runs.of_state {s s' : Kernel} (h : s'.state = s.state) : Runs s s' := by
  refine ⟨fun u hu => ?_, .inl fun u hu => ?_⟩
  · rwa [h] at hu
  · rwa [h]

section Change

variable {gone : Option Tid} {w w' : WaitMove} {a : Tid} {s s' s'' : Kernel} {L L' L'' : Place → List Tid}

theorem Change.trans (h : Change none w s L s' L') (h' : Change gone w' s' L' s'' L'') :
    Change gone (fun i l => w' i (w i l)) s L s'' L'' where
  placed := h'.placed
  fresh t ht := h.fresh t (h'.fresh t ht)
  kept t ht hg := h'.kept t (h.kept t ht (by simp)) hg
  dead t ht := h'.dead t (h.dead t ht)
  tcbs := h'.tcbs.trans h.tcbs
  pids := h'.pids.trans h.pids
  pid := h'.pid.trans h.pid
  waiting i hi := (h'.waiting i hi).trans (congrArg (w' i) (h.waiting i hi))

theorem Change.same {u : Kernel} (h : Placed s L) (hl : u.links = s.links) (ho : u.offLists = s.offLists) :
    Change none .stay s L u L := by
  simp only [Kernel.offLists, Kernel.registry, Prod.mk.injEq] at ho
  obtain ⟨h1, h2, h3, h4, h5, h6, h7⟩ := ho
  refine ⟨h.congr hl h1 h2 h3 h4 h7, ?_, ?_, ?_, h3, h5, h6, fun _ _ => rfl⟩
  · intro t ht
    exact ⟨h3 ▸ ht.live, h1 ▸ ht.ready, ht.unlisted⟩
  · intro t ht _
    exact ⟨h3 ▸ ht.live, h1 ▸ ht.ready, ht.unlisted⟩
  · intro t ht
    rw [h1]; exact ht

/-- The operation ends with a change that loses no fresh task and moves no task that waits. -/
theorem Change.last (h : Change gone w s L s' L') (h' : Change none .stay s' L' s'' L'') : Change gone w s L s'' L'' where
  placed := h'.placed
  fresh t ht := h.fresh t (h'.fresh t ht)
  kept t ht hg := h'.kept t (h.kept t ht hg) (by simp)
  dead t ht := h'.dead t (h.dead t ht)
  tcbs := h'.tcbs.trans h.tcbs
  pids := h'.pids.trans h.pids
  pid := h'.pid.trans h.pid
  waiting i hi := (h'.waiting i hi).trans (h.waiting i hi)

theorem Change.then_same {u : Kernel} (h : Change gone w s L s' L') (hl : u.links = s'.links)
    (ho : u.offLists = s'.offLists) : Change gone w s L u L' :=
  h.last (.same h.placed hl ho)

theorem Change.of_relocated (h : Placed s L) (ha : a ∈ s.tcbs) (r : Relocated a s L s' L') (hset : Settled s' L' a)
    (hfresh : ¬ Fresh s' L' a) (hkept : Fresh s L a → gone = some a) (hdead : s.state a = .dead → s'.state a = .dead)
    (hw : ∀ i, i ≠ .ready → L' (.queue i) = w i (L (.queue i))) : Change gone w s L s' L' where
  placed := h.relocate ha r hset
  fresh t ht := by
    by_cases hta : t = a
    · exact absurd (hta ▸ ht) hfresh
    · exact (r.fresh_iff hta).1 ht
  kept t ht hg := by
    by_cases hta : t = a
    · exact absurd (hta ▸ hkept (hta ▸ ht)) hg
    · exact (r.fresh_iff hta).2 ht
  dead t ht := by
    by_cases hta : t = a
    · exact hta ▸ hdead (hta ▸ ht)
    · exact (r.state t hta).trans ht
  tcbs := r.tcbs
  pids := r.pids
  pid := r.pid
  waiting := hw

/-- Only the ready queue or the list of terminated tasks changes. -/
theorem waiting_update {p : Place} (hp : p = .queue .ready ∨ p = .terminated) (i : QueueId)
    (hi : i ≠ .ready) : update L p l (.queue i) = WaitMove.stay i (L (.queue i)) := by
  apply update_of_ne
  rcases hp with rfl | rfl
  · simpa using hi
  · simp

theorem Change.on_id {i₀ : QueueId} {f : List Tid → List Tid} (h : Change gone .stay s L s' L')
    (hf : f (L (.queue i₀)) = L (.queue i₀)) : Change gone (.on i₀ f) s L s' L' := by
  refine ⟨h.placed, h.fresh, h.kept, h.dead, h.tcbs, h.pids, h.pid, fun i hi => (h.waiting i hi).trans ?_⟩
  by_cases hq : i = i₀
  · subst hq
    rw [WaitMove.on, update_self, hf]
    rfl
  · rw [WaitMove.on, update_of_ne hq]

theorem waiting_update_on {i₀ : QueueId} {f : List Tid → List Tid} (hl : l = f (L (.queue i₀)))
    (i : QueueId) : update L (.queue i₀) l (.queue i) = WaitMove.on i₀ f i (L (.queue i)) := by
  by_cases hq : i = i₀
  · subst hq
    rw [update_self, WaitMove.on, update_self, hl]
  · rw [update_of_ne (by simpa using hq), WaitMove.on, update_of_ne hq]
    rfl

end Change

/-! ## Waking -/

section Waking

variable {w : WaitMove} {a : Tid} {s s₀ : Kernel} {L L₀ : Place → List Tid}

@[simp] theorem state_queuePush (s : Kernel) (i : QueueId) (t : Tid) : (queuePush s i t).state = s.state := by
  cases i <;> rfl

@[simp] theorem state_unblockTask (s : Kernel) (t : Tid) :
    (unblockTask t s).state = update s.state t .ready := by
  show (queuePush _ _ _).state = _
  rw [state_queuePush]; rfl

/-- `unblock_task` of a task that has just been taken off the list it was on. -/
theorem change_unblockTask (h : Placed s₀ L₀) (ha : a ∈ s₀.tcbs) (hr : s₀.state a ≠ .ready)
    (hd : s₀.state a ≠ .dead) (r : Relocated a s₀ L₀ s L) (hu : Unlisted L a)
    (hw : ∀ i, i ≠ .ready → L (.queue i) = w i (L₀ (.queue i))) :
    Change none w s₀ L₀ (unblockTask a s) (update L (.queue .ready) (L (.queue .ready) ++ [a])) := by
  have r1 : Relocated a s₀ L₀ (setState (lockSchedule s) a .ready) L :=
    (r.trans (.same (u := lockSchedule s) r.lists rfl rfl)).trans
      (.setState (s := lockSchedule s) (r.lists.congr rfl) .ready)
  have r2 := (r1.trans (.push r1.lists .ready hu)).trans (.same (u := unblockTask a s) (r1.lists.push hu) rfl rfl)
  have hat : OnlyAt (update L (.queue .ready) (L (.queue .ready) ++ [a])) a (.queue .ready) :=
    onlyAt_update (fun q _ => hu q) (by simp)
  have hst : (unblockTask a s).state a = .ready := by rw [state_unblockTask, update_self]
  refine .of_relocated h ha r2 (.of_onlyAt hat ?_ ?_) ?_ ?_ ?_ fun i hi => ?_
  · simp only [Kernel.placeOf, hst]
  · intro hw
    rw [hst] at hw; cases hw
  · intro hf
    exact hf.unlisted _ ((hat _).2 rfl)
  · intro hf
    exact absurd hf.ready hr
  · intro hf
    exact absurd hf hd
  · rw [update_of_ne (by simpa using hi)]
    exact hw i hi

theorem runs_unblockTask (h : ∀ u, u ≠ a → s.state u = s₀.state u) (ha : s₀.state a ≠ .running) (u : Tid) :
    (unblockTask a s).state u = .running ↔ s₀.state u = .running := by
  rw [state_unblockTask]
  by_cases hu : u = a
  · rw [hu, update_self]
    exact iff_of_false (by simp) ha
  · rw [update_of_ne hu, h u hu]

def parkedReaper (s : Kernel) : List Tid :=
  match s.terminatorTask with
  | some r => if s.state r = .paused then [r] else []
  | none => []

theorem change_wakeReaper (h : Placed s L) :
    Change none .stay s L (wakeReaper s) (update L (.queue .ready) (L (.queue .ready) ++ parkedReaper s)) ∧
      ∀ u, (wakeReaper s).state u = .running ↔ s.state u = .running := by
  have hsame : update L (.queue .ready) (L (.queue .ready) ++ []) = L := by
    rw [List.append_nil, update_eq_self]
  cases hr : s.terminatorTask with
  | none =>
    simp only [wakeReaper, parkedReaper, hr, hsame]
    exact ⟨.same h rfl rfl, fun _ => trivial⟩
  | some r =>
    by_cases hp : s.state r = .paused
    · simp only [wakeReaper, parkedReaper, hr, if_pos hp]
      have hu : Unlisted L r := h.unlisted (by simp only [Kernel.placeOf, hp])
      exact ⟨change_unblockTask h (h.paused r hp) (by rw [hp]; simp) (by rw [hp]; simp)
        (.same h.lists rfl rfl) hu (fun _ _ => rfl), runs_unblockTask (fun _ _ => rfl) (by rw [hp]; simp)⟩
    · simp only [wakeReaper, parkedReaper, hr, if_neg hp, hsame]
      exact ⟨.same h rfl rfl, fun _ => trivial⟩

/-- The task at the head of a queue, unlisted once it is popped. -/
theorem unlisted_pop (h : Lists s L) (hl : L (.queue i) = a :: l) : Unlisted (update L (.queue i) l) a := by
  have hn := h.nodup (.queue i)
  rw [hl] at hn
  refine unlisted_update ?_ (List.nodup_cons.1 hn).1
  intro q hq haq
  exact hq (h.apart q _ a haq (by rw [hl]; exact List.mem_cons_self))

/-- The time a sleeping task waits for has come. -/
def Kernel.isDue (s : Kernel) (now : Nat) (t : Tid) : Bool := decide (s.wakeTime t ≤ now)

theorem change_wakeSleepers (now : Nat) : ∀ (n : Nat) (s : Kernel) (L : Place → List Tid), Placed s L →
    (L (.queue .sleeping)).length < n →
    ∃ L', Change none (.on .sleeping (List.dropWhile (s.isDue now))) s L (wakeSleepers now n s) L' ∧
      L' (.queue .ready) = L (.queue .ready) ++ (L (.queue .sleeping)).takeWhile (s.isDue now) ∧
      ∀ u, (wakeSleepers now n s).state u = .running ↔ s.state u = .running
  | 0, s, L, _, hn => absurd hn (Nat.not_lt_zero _)
  | n + 1, s, L, h, hn => by
    unfold wakeSleepers
    cases hl : L (.queue .sleeping) with
    | nil =>
      rw [show s.sleeping.first = none from h.lists.first_eq_none.2 hl]
      exact ⟨L, .on_id (.same h rfl rfl) (by rw [hl]; rfl), (List.append_nil _).symm, fun _ => Iff.rfl⟩
    | cons a l =>
      have hfirst : s.sleeping.first = some a := by
        have hh := (h.lists.queue .sleeping).seg.head
        rw [hl] at hh
        exact hh
      rw [hfirst]
      dsimp only
      split
      · rename_i hdue
        have hdue' : s.isDue now a = true := decide_eq_true hdue
        have hpop : (sleepPop s).1 = some a := (h.lists.pop hl).1
        have hmem : a ∈ L (.queue .sleeping) := by rw [hl]; exact List.mem_cons_self
        have hst : s.state a = .sleeping := h.state_of_sleeping hmem
        split
        · rename_i task s' heq
          rw [heq] at hpop
          cases hpop
          have r : Relocated a s L s' (update L (.queue .sleeping) l) := by
            have r := Relocated.pop h.lists hl
            rwa [show queuePop s .sleeping = (some a, s') from heq] at r
          have hkey : (unblockTask a s').isDue now = s.isDue now := by
            have hw : (queuePop s .sleeping).2.wakeTime = s.wakeTime := rfl
            rw [show queuePop s .sleeping = (some a, s') from heq] at hw
            exact congrArg (fun (f : Tid → Nat) t => decide (f t ≤ now)) hw
          have hc := change_unblockTask h (h.live _ _ hmem) (by rw [hst]; simp) (by rw [hst]; simp) r
            (unlisted_pop h.lists hl) (fun i _ => waiting_update_on (f := fun _ => l) rfl i)
          have hrest : update (update L (.queue .sleeping) l) (.queue .ready)
              (update L (.queue .sleeping) l (.queue .ready) ++ [a]) (.queue .sleeping) = l := by
            rw [update_of_ne (by simp), update_self]
          obtain ⟨L'', hc', hready, hrun⟩ := change_wakeSleepers now n _ _ hc.placed (by
            rw [hrest]
            rw [hl] at hn
            simp only [List.length_cons] at hn
            omega)
          rw [hkey] at hc' hready
          refine ⟨L'', ?_, ?_, fun u => (hrun u).trans (runs_unblockTask r.state (by rw [hst]; simp) u)⟩
          · have hboth := hc.trans hc'
            refine ⟨hboth.placed, hboth.fresh, hboth.kept, hboth.dead, hboth.tcbs, hboth.pids, hboth.pid, fun i hi => ?_⟩
            rw [hboth.waiting i hi]
            by_cases hs : i = .sleeping
            · subst hs
              simp only [WaitMove.on, update_self]
              rw [hl, List.dropWhile_cons_of_pos hdue']
            · simp only [WaitMove.on, update_of_ne hs, WaitMove.stay]
          · rw [hready, hrest, update_self, update_of_ne (by simp), List.takeWhile_cons_of_pos hdue',
              List.append_assoc, List.singleton_append]
        · rename_i heq
          rw [heq] at hpop
          cases hpop
      · rename_i hdue
        have hdue' : ¬ s.isDue now a = true := fun h => hdue (of_decide_eq_true h)
        refine ⟨L, .on_id (.same h rfl rfl) ?_, ?_, fun _ => Iff.rfl⟩
        · rw [hl, List.dropWhile_cons_of_neg hdue']
        · rw [List.takeWhile_cons_of_neg hdue', List.append_nil]

end Waking

/-! ## Blocking -/

section Blocking

variable {w : WaitMove} {t : Tid} {s s' : Kernel} {L L' : Place → List Tid} {k : List Frame}

theorem blockTask_eq (reason : TaskState) (k : List Frame) (hc : s.currentTask = some t) :
    blockTask reason k s =
      { setState (lockSchedule s) t reason with control := .schedule :: .unlockSchedule :: k } := by
  simp only [blockTask, hc]

theorem Relocated.block (reason : TaskState) (k : List Frame) (h : Lists s L) (hc : s.currentTask = some t) :
    Relocated t s L (blockTask reason k s) L := by
  rw [blockTask_eq reason k hc]
  exact ⟨h.congr rfl, fun _ _ _ => Iff.rfl, fun _ hx => update_of_ne hx _ _, fun _ _ => rfl, rfl⟩

theorem state_blockTask (reason : TaskState) (k : List Frame) (hc : s.currentTask = some t) :
    (blockTask reason k s).state = update s.state t reason := by
  rw [blockTask_eq reason k hc]; rfl

/-- The running task goes to the place of its new state, and `schedule()` is next. -/
theorem change_park (h : Placed s L) (ht : t ∈ s.tcbs) (hrun : s.state t = .running) (r : Relocated t s L s' L')
    (hset : Settled s' L' t) (hready : s'.state t ≠ .ready) (hctl : ∃ k, s'.control = .schedule :: k)
    (hw : ∀ i, i ≠ .ready → L' (.queue i) = w i (L (.queue i))) : Change none w s L s' L' ∧ Runs s s' := by
  refine ⟨.of_relocated h ht r hset ?_ ?_ ?_ hw, ?_, .inr hctl⟩
  · intro hf
    exact hready hf.ready
  · intro hf
    exact absurd (hrun.symm.trans hf.ready) (by decide)
  · intro hd
    exact absurd (hrun.symm.trans hd) (by decide)
  · intro u hu
    by_cases hut : u = t
    · rw [hut]; exact hrun
    · rwa [r.state u hut] at hu

theorem Placed.unlisted_running (h : Placed s L) (hrun : s.state t = .running) : Unlisted L t :=
  h.unlisted (by simp only [Kernel.placeOf, hrun])

theorem control_blockTask (reason : TaskState) (k : List Frame) (hc : s.currentTask = some t) :
    ∃ k', (blockTask reason k s).control = .schedule :: k' := by
  rw [blockTask_eq reason k hc]
  exact ⟨_, rfl⟩

/-- What `nano_sleep_until` of the task `t` does to the sleeping list. -/
def sleepMove (s : Kernel) (t : Tid) (w : Nat) : WaitMove :=
  .on .sleeping fun l => if w ≤ getUptimeNs s then l else insertKey (update s.wakeTime t w) t l

theorem moves_nanoSleepUntil (w : Nat) (h : Placed s L) (hc : s.currentTask = some t) (ht : t ∈ s.tcbs)
    (hrun : s.state t = .running) :
    ∃ L', Change none (sleepMove s t w) s L (nanoSleepUntil w k s) L' ∧ Runs s (nanoSleepUntil w k s) := by
  unfold nanoSleepUntil
  dsimp only
  split
  · rename_i hle
    exact ⟨L, .on_id (.same h rfl rfl) (if_pos hle), .of_state rfl⟩
  · rename_i hle
    split
    · rename_i hn
      exact absurd (hc.symm.trans hn) (Option.some_ne_none t)
    · rename_i u hu
      cases Option.some.inj (hc.symm.trans hu)
      generalize hs1 : ({ lockStuff s with wakeTime := update (lockStuff s).wakeTime t w } : Kernel) = s1
      have hkey : s1.wakeTime = update s.wakeTime t w := by
        subst hs1
        rfl
      have r1 : Relocated t s L s1 L := by
        subst hs1
        exact .same h.lists rfl rfl
      have hf : (L (.queue .sleeping)).length < s1.fuel := by
        subst hs1
        exact h.length_lt_fuel _
      have hu : Unlisted L t := h.unlisted_running hrun
      have hc2 : (sleepPush s1 t).currentTask = some t := by
        refine (congrArg Core.currentTask (core_sleepPush s1 t)).trans ?_
        subst hs1
        exact hc
      have r2 := r1.trans (.sleepPush r1.lists hu hf)
      have r3 := r2.trans (.block .sleeping (.unlockStuff :: k) r2.lists hc2)
      have hst : (blockTask .sleeping (.unlockStuff :: k) (sleepPush s1 t)).state t = .sleeping := by
        rw [state_blockTask _ _ hc2, update_self]
      refine ⟨_, change_park h ht hrun r3 ?_ (by rw [hst]; simp) (control_blockTask _ _ hc2) fun i _ =>
        waiting_update_on (by rw [hkey]; exact (if_neg hle).symm) i⟩
      refine .of_onlyAt (onlyAt_update (fun q _ => hu q) (mem_insertKey.2 (.inl rfl))) ?_ ?_
      · simp only [Kernel.placeOf, hst]
      · intro hw
        rw [hst] at hw; cases hw

theorem waitingFor_blockTask (reason : TaskState) (k : List Frame) (hc : s.currentTask = some t) :
    (blockTask reason k s).waitingFor = s.waitingFor := by
  rw [blockTask_eq reason k hc]; rfl

theorem moves_acquireSemaphore {q : Sid} (h : Placed s L) (hc : s.currentTask = some t) (ht : t ∈ s.tcbs)
    (hrun : s.state t = .running) (hq : q ∈ s.sems) :
    ∃ L', Change none (.on (.waiting q) fun l => if s.currentCount q < s.maxCount q then l else l ++ [t]) s L
      (acquireSemaphore q k s) L' ∧ Runs s (acquireSemaphore q k s) := by
  by_cases hlt : s.currentCount q < s.maxCount q
  · rw [show acquireSemaphore q k s = _ from if_pos hlt]
    exact ⟨L, .on_id (.same h rfl rfl) (if_pos hlt), .of_state rfl⟩
  · have heq : acquireSemaphore q k s = blockTask .waitingForLock (.unlockStuff :: k) (semPush (lockStuff s) q t) := by
      have hlt' : ¬ (lockStuff s).currentCount q < (lockStuff s).maxCount q := hlt
      have hcl : (lockStuff s).currentTask = some t := hc
      simp only [acquireSemaphore, if_neg hlt', hcl]
    rw [heq]
    have hu : Unlisted L t := h.unlisted_running hrun
    have r1 : Relocated t s L (lockStuff s) L := .same h.lists rfl rfl
    have r2 := r1.trans (.push r1.lists (.waiting q) hu)
    have r3 : Relocated t s L (semPush (lockStuff s) q t) _ :=
      ⟨r2.lists.congr rfl, r2.off, r2.state, fun x hx => update_of_ne hx _ _, r2.registry⟩
    have hc2 : (semPush (lockStuff s) q t).currentTask = some t :=
      (congrArg Core.currentTask (core_semPush (lockStuff s) q t)).trans hc
    have r4 := r3.trans (.block .waitingForLock (.unlockStuff :: k) r3.lists hc2)
    have hst : (blockTask .waitingForLock (.unlockStuff :: k) (semPush (lockStuff s) q t)).state t =
        .waitingForLock := by
      rw [state_blockTask _ _ hc2, update_self]
    have hw : (blockTask .waitingForLock (.unlockStuff :: k) (semPush (lockStuff s) q t)).waitingFor t = some q := by
      rw [waitingFor_blockTask _ _ hc2]; exact update_self _ _ _
    refine ⟨_, change_park h ht hrun r4 ?_ (by rw [hst]; simp) (control_blockTask _ _ hc2) fun i _ =>
      waiting_update_on (f := fun l => if s.currentCount q < s.maxCount q then l else l ++ [t]) (if_neg hlt).symm i⟩
    refine .of_onlyAt (onlyAt_update (fun p _ => hu p) (by simp)) ?_ ?_
    · simp only [Kernel.placeOf, hst, hw, Option.map_some]
    · intro _
      exact ⟨q, by rw [r4.sems]; exact hq, hw⟩

theorem moves_terminateTask (h : Placed s L) (hc : s.currentTask = some t) (ht : t ∈ s.tcbs)
    (hrun : s.state t = .running) :
    ∃ L', Change none .stay s L (terminateTask k s) L' ∧ Runs s (terminateTask k s) := by
  unfold terminateTask
  dsimp only
  split
  · rename_i hn
    exact absurd (hc.symm.trans hn) (Option.some_ne_none t)
  · rename_i u hu
    cases Option.some.inj (hc.symm.trans hu)
    have hu : Unlisted L t := h.unlisted_running hrun
    have r1 : Relocated t s L (lockSchedule (lockStuff s)) L := .same h.lists rfl rfl
    have r2 := r1.trans (.terminatedPush r1.lists hu)
    have r3 := r2.trans (.same (u := unlockSchedule (terminatedPush (lockSchedule (lockStuff s)) t)) r2.lists rfl rfl)
    have hc2 : (unlockSchedule (terminatedPush (lockSchedule (lockStuff s)) t)).currentTask = some t := hc
    have r4 := r3.trans (.block .dead (.wakeReaper :: .unlockStuff :: k) r3.lists hc2)
    have hst : (blockTask .dead (.wakeReaper :: .unlockStuff :: k)
        (unlockSchedule (terminatedPush (lockSchedule (lockStuff s)) t))).state t = .dead := by
      rw [state_blockTask _ _ hc2, update_self]
    refine ⟨_, change_park h ht hrun r4 ?_ (by rw [hst]; simp) (control_blockTask _ _ hc2)
      (waiting_update (.inr rfl))⟩
    refine .of_onlyAt (onlyAt_update (fun p _ => hu p) List.mem_cons_self) ?_ ?_
    · simp only [Kernel.placeOf, hst]
    · intro hw
      rw [hst] at hw; cases hw

end Blocking

/-! ## Semaphores and the timer -/

section Semaphores

variable {s : Kernel} {L : Place → List Tid} {k : List Frame} {q : Sid}

theorem semPop_nil (h : Lists s L) (hl : L (.queue (.waiting q)) = []) : (semPop s q).1 = none := by
  have hp := h.pop_empty hl
  unfold semPop
  split
  · rename_i heq
    rw [heq] at hp; cases hp
  · rfl

theorem semPop_cons {a : Tid} (h : Lists s L) (hl : L (.queue (.waiting q)) = a :: l) :
    (semPop s q).1 = some a ∧
      Relocated a s L (semPop s q).2 (update L (.queue (.waiting q)) l) := by
  have hp := (h.pop hl).1
  have r := Relocated.pop h hl
  unfold semPop
  split
  · rename_i task s' heq
    rw [heq] at hp r
    cases hp
    exact ⟨rfl, r.lists.congr rfl, r.off, r.state, fun x hx => update_of_ne hx _ _, r.registry⟩
  · rename_i heq
    rw [heq] at hp; cases hp

theorem moves_releaseSemaphore (h : Placed s L) :
    ∃ L', Change none (.on (.waiting q) List.tail) s L (releaseSemaphore q k s) L' ∧ Runs s (releaseSemaphore q k s) := by
  have hlock : Placed (lockStuff s) L := h.congr rfl rfl rfl rfl rfl rfl
  unfold releaseSemaphore
  dsimp only
  cases hl : L (.queue (.waiting q)) with
  | nil =>
    have hp := semPop_nil hlock.lists hl
    split
    · rename_i heq
      rw [heq] at hp; cases hp
    · exact ⟨L, .on_id (.same h rfl rfl) (by rw [hl]; rfl), .of_state rfl⟩
  | cons a l =>
    obtain ⟨hp, r⟩ := semPop_cons hlock.lists hl
    have hmem : a ∈ L (.queue (.waiting q)) := by rw [hl]; exact List.mem_cons_self
    obtain ⟨hst, -⟩ := h.state_of_waiting hmem
    split
    · rename_i task s' heq
      rw [heq] at hp r
      cases hp
      have r' := (Relocated.same (a := a) (u := lockStuff s) h.lists rfl rfl).trans r
      have hc := change_unblockTask h (h.live _ a hmem) (by rw [hst]; simp) (by rw [hst]; simp) r'
        (unlisted_pop h.lists hl) (fun i _ => waiting_update_on (f := List.tail) (by rw [hl]; rfl) i)
      have hrun := runs_unblockTask r'.state (by rw [hst]; simp)
      exact ⟨_, hc.then_same rfl rfl, fun u hu => (hrun u).1 hu, .inl fun u hu => (hrun u).2 hu⟩
    · rename_i heq
      rw [heq] at hp; cases hp

/-- A new semaphore has no waiters, whatever the block held before. -/
theorem moves_createSemaphore {max : Int} {addr : Option Sid} (h : Placed s L)
    (hfree : ∀ q, addr = some q → q ∉ s.sems) :
    ∃ L', Change none .stay s L (createSemaphore max addr k s) L' ∧ Runs s (createSemaphore max addr k s) := by
  refine ⟨L, ?_, ?_⟩
  · cases addr with
    | none => exact .same h rfl rfl
    | some q =>
      have hempty : L (.queue (.waiting q)) = [] := by
        apply List.eq_nil_iff_forall_not_mem.2
        intro t ht
        obtain ⟨hst, hw⟩ := h.state_of_waiting ht
        obtain ⟨q', hq', hw'⟩ := (h.settled t (h.live _ t ht)).waits hst
        cases Option.some.inj (hw.symm.trans hw')
        exact hfree q rfl hq'
      refine ⟨⟨⟨?_, h.lists.terminated, h.lists.nodup, h.lists.apart⟩, h.live, ?_, h.paused, h.nodup, h.notStuck⟩,
        fun t ht => ⟨ht.live, ht.ready, ht.unlisted⟩, fun t ht _ => ⟨ht.live, ht.ready, ht.unlisted⟩,
        fun t ht => ht, rfl, rfl, rfl, fun _ _ => rfl⟩
      · intro i
        by_cases hi : i = .waiting q
        · rw [hi, hempty]
          show (update s.waiters q ⟨none, none⟩ q).Holds s.next []
          rw [update_self]
          exact ⟨rfl, rfl⟩
        · have hsame : (createSemaphore max (some q) k s).queue i = s.queue i := by
            cases i with
            | ready => rfl
            | sleeping => rfl
            | waiting q' => exact update_of_ne (fun he => hi (by rw [he])) _ _
          rw [hsame]; exact h.lists.queue i
      · intro t ht
        obtain ⟨h1, h2, h3⟩ := h.settled t ht
        refine ⟨h1, h2, fun hw => ?_⟩
        obtain ⟨q', hq', hw'⟩ := h3 hw
        exact ⟨q', List.mem_cons_of_mem q hq', hw'⟩
  · cases addr <;> exact .of_state rfl

/-- What `timer_check_sleeping_tasks` does to the sleeping list. -/
def wakeMove (s : Kernel) : WaitMove := .on .sleeping (List.dropWhile (s.isDue (getUptimeNs s)))

theorem moves_timerCheckSleepingTasks (h : Placed s L) :
    ∃ L', Change none (wakeMove s) s L (timerCheckSleepingTasks k s) L' ∧
      L' (.queue .ready) = L (.queue .ready) ++ (L (.queue .sleeping)).takeWhile (s.isDue (getUptimeNs s)) ∧
      ∀ u, (timerCheckSleepingTasks k s).state u = .running ↔ s.state u = .running := by
  have hlock : Placed (lockStuff s) L := h.congr rfl rfl rfl rfl rfl rfl
  obtain ⟨L', hc, hready, hrun⟩ := change_wakeSleepers (getUptimeNs (lockStuff s)) (lockStuff s).fuel (lockStuff s) L hlock
    (hlock.length_lt_fuel _)
  exact ⟨L', ((Change.same (u := lockStuff s) h rfl rfl).trans hc).then_same rfl rfl, hready, hrun⟩

end Semaphores

/-! ## Switching -/

section Switching

variable {prev a : Tid} {s s' : Kernel} {L : Place → List Tid} {k : List Frame}

theorem links_updateTaskTime (s : Kernel) : (updateTaskTime s).links = s.links := by
  cases h : s.currentTask with
  | none => simp only [updateTaskTime, h, Kernel.links]
  | some t => simp only [updateTaskTime, h, Kernel.links]

theorem offLists_updateTaskTime (s : Kernel) : (updateTaskTime s).offLists = s.offLists := by
  cases h : s.currentTask with
  | none => simp only [updateTaskTime, h, Kernel.offLists, Kernel.registry]
  | some t => simp only [updateTaskTime, h, Kernel.offLists, Kernel.registry]

theorem links_contextSwitch (next : Tid) (k : List Frame) (h : s.currentTask = some prev) :
    (contextSwitch next k s).links = s.links := by
  simp only [contextSwitch, h]
  exact links_updateTaskTime s

theorem offLists_contextSwitch (next : Tid) (k : List Frame) (h : s.currentTask = some prev) :
    (contextSwitch next k s).offLists = s.offLists := by
  simp only [contextSwitch, h]
  exact offLists_updateTaskTime s

theorem change_resume (h : Placed s L) (hl : L (.queue .ready) = a :: l) :
    Change none .stay s L (setState (queuePop s .ready).2 a .running) (update L (.queue .ready) l) := by
  have hmem : a ∈ L (.queue .ready) := by rw [hl]; exact List.mem_cons_self
  have hst : s.state a = .ready := h.state_of_ready hmem
  have r1 := Relocated.pop h.lists hl
  have r := r1.trans (.setState r1.lists .running)
  have hrun : (setState (queuePop s .ready).2 a .running).state a = .running := update_self _ _ _
  refine .of_relocated h (h.live _ a hmem) r (.of_unlisted (unlisted_pop h.lists hl) (.inl ?_) ?_) ?_ ?_ ?_
    (waiting_update (.inl rfl))
  · simp only [Kernel.placeOf, hrun]
  · rw [hrun]; simp
  · intro hf
    exact absurd (hrun.symm.trans hf.ready) (by decide)
  · intro hf
    exact absurd hmem (hf.unlisted _)
  · intro hd
    exact absurd (hst.symm.trans hd) (by decide)

theorem change_requeue (h : Placed s L) (hprev : prev ∈ s.tcbs) (hrun : s.state prev = .running) :
    Change none .stay s L (readyPush (setState s prev .ready) prev)
      (update L (.queue .ready) (L (.queue .ready) ++ [prev])) := by
  have hc := change_unblockTask h hprev (by rw [hrun]; simp) (by rw [hrun]; simp)
    (.same (u := s) h.lists rfl rfl) (h.unlisted_running hrun) (w := .stay) (fun _ _ => rfl)
  exact hc.trans (.same hc.placed rfl rfl)

theorem state_queuePop (s : Kernel) (i : QueueId) : (queuePop s i).2.state = s.state := by
  cases i <;> rfl

/-- `switch_to_task` to the task that was just popped: it is then the only one RUNNING. -/
theorem moves_switchToTask (h : Placed s L) (hl : L (.queue .ready) = a :: l) (hc : s.currentTask = some prev)
    (hprev : prev ∈ s.tcbs) (hrun : ∀ u, s.state u = .running → u = prev) (hp : s.postpone = 0) :
    ∃ L', Change none .stay s L (switchToTask a k (queuePop s .ready).2) L' ∧
      ∀ u, (switchToTask a k (queuePop s .ready).2).state u = .running ↔ u = a := by
  have hcore := core_queuePop s .ready
  generalize hs1 : (queuePop s .ready).2 = s1 at hcore ⊢
  have hst1 : s1.state = s.state := by rw [← hs1]; exact state_queuePop s .ready
  have hc1 : s1.currentTask = some prev := (congrArg Core.currentTask hcore).trans hc
  have hp1 : s1.postpone = 0 := (congrArg Core.postpone hcore).trans hp
  have hcA := change_resume h hl
  rw [hs1] at hcA
  have hmem : a ∈ L (.queue .ready) := by rw [hl]; exact List.mem_cons_self
  have hready : s.state a = .ready := h.state_of_ready hmem
  rw [switchToTask, if_neg (not_not.2 hp1)]
  simp only [hc1]
  split
  · -- `prev` is RUNNING: it is requeued
    rename_i hr1
    have hr : s.state prev = .running := by rwa [hst1] at hr1
    have hne : prev ≠ a := by
      rintro rfl
      exact absurd (hr.symm.trans hready) (by decide)
    have hrA : (setState s1 a .running).state prev = .running := by
      show update s1.state a .running prev = _
      rw [update_of_ne hne]; exact hr1
    have hcB := change_requeue hcA.placed (by rw [hcA.tcbs]; exact hprev) hrA
    have hcore2 : (readyPush (setState s1 prev .ready) prev).core = s1.core := by
      rw [readyPush, core_queuePush, core_setState]
    generalize hs3 : ({ setState (readyPush (setState s1 prev .ready) prev) a .running with
      timeSlice := timeSliceInNs } : Kernel) = s3
    have hc3 : s3.currentTask = some prev := by
      rw [← hs3]; exact (congrArg Core.currentTask hcore2).trans hc1
    have hst3 : s3.state = update (update s1.state prev .ready) a .running := by
      rw [← hs3]
      show update (queuePush _ _ _).state a .running = _
      rw [state_queuePush]; rfl
    have hstB : (readyPush (setState (setState s1 a .running) prev .ready) prev).state = s3.state := by
      rw [hst3, readyPush, state_queuePush]
      exact (update_comm hne _ _ _).symm
    have hlink : s3.links = (readyPush (setState (setState s1 a .running) prev .ready) prev).links := by
      rw [← hs3]; rfl
    have hoff : s3.offLists = (readyPush (setState (setState s1 a .running) prev .ready) prev).offLists := by
      refine Prod.ext hstB.symm (Prod.ext ?_ ?_)
      · rw [← hs3]; rfl
      · rw [← hs3]; rfl
    refine ⟨_, (hcA.trans hcB).trans (.same hcB.placed ((links_contextSwitch a k hc3).trans hlink)
      ((offLists_contextSwitch a k hc3).trans hoff)), fun u => ?_⟩
    have hfin : (contextSwitch a k s3).state = s3.state := congrArg Prod.fst (offLists_contextSwitch a k hc3)
    rw [hfin, hst3, hst1]
    by_cases hua : u = a
    · rw [hua, update_self]; simp
    · rw [update_of_ne hua]
      refine iff_of_false ?_ hua
      by_cases hup : u = prev
      · rw [hup, update_self]; simp
      · rw [update_of_ne hup]
        exact fun hu => hup (hrun u hu)
  · -- `prev` has blocked: its place is right already
    rename_i hr1
    have hr : s.state prev ≠ .running := by rwa [hst1] at hr1
    generalize hs3 : ({ setState s1 a .running with timeSlice := timeSliceInNs } : Kernel) = s3
    have hc3 : s3.currentTask = some prev := by rw [← hs3]; exact hc1
    have hst3 : s3.state = update s1.state a .running := by rw [← hs3]; rfl
    refine ⟨_, hcA.trans (.same hcA.placed ((links_contextSwitch a k hc3).trans ?_)
      ((offLists_contextSwitch a k hc3).trans ?_)), fun u => ?_⟩
    · rw [← hs3]; rfl
    · rw [← hs3]; rfl
    · have hfin : (contextSwitch a k s3).state = s3.state := congrArg Prod.fst (offLists_contextSwitch a k hc3)
      rw [hfin, hst3, hst1]
      by_cases hua : u = a
      · rw [hua, update_self]; simp
      · rw [update_of_ne hua]
        refine iff_of_false (fun hu => ?_) hua
        exact hr ((hrun u hu) ▸ hu)

/-- After `schedule()` with nothing postponed, the current task is the one that is RUNNING; in the idle loop there is
neither. -/
theorem moves_schedule (h : Placed s L) (hc : s.currentTask = some prev) (hprev : prev ∈ s.tcbs)
    (hrun : ∀ u, s.state u = .running → u = prev) (hp : s.postpone = 0) :
    ∃ L', Change none .stay s L (schedule k s) L' ∧
      (∀ u, (schedule k s).state u = .running ↔ (schedule k s).currentTask = some u) ∧
      ∀ u, (schedule k s).currentTask = some u → u ∈ s.tcbs := by
  rw [schedule, if_neg (not_not.2 hp)]
  cases hl : L (.queue .ready) with
  | nil =>
    have hpop : (readyPop s).1 = none := h.lists.pop_empty hl
    split
    · rename_i heq
      rw [heq] at hpop; cases hpop
    · split
      · rename_i hn
        exact absurd (hc.symm.trans hn) (Option.some_ne_none prev)
      · rename_i u hu
        cases Option.some.inj (hc.symm.trans hu)
        split
        · rename_i hr
          refine ⟨L, .same h rfl rfl, fun u => ?_, fun u hu' => ?_⟩
          · show s.state u = .running ↔ s.currentTask = some u
            rw [hc]
            exact ⟨fun hu => by rw [hrun u hu], fun hu => by cases hu; exact hr⟩
          · cases Option.some.inj (hc.symm.trans hu')
            exact hprev
        · rename_i hr
          refine ⟨L, .same h rfl rfl, fun u => iff_of_false ?_ (Option.some_ne_none u).symm, fun u hu' => by cases hu'⟩
          intro hu
          exact hr (hrun u hu ▸ hu)
  | cons a l =>
    have hpop : (readyPop s).1 = some a := (h.lists.pop hl).1
    obtain ⟨L', hch, hst⟩ := moves_switchToTask (k := k) h hl hc hprev hrun hp
    have hmem : a ∈ L (.queue .ready) := by rw [hl]; exact List.mem_cons_self
    split
    · rename_i task s' heq
      rw [heq] at hpop
      cases hpop
      rw [show queuePop s .ready = (some a, s') from heq] at hch hst
      have hcore : s'.core = s.core := core_readyPop heq
      have hcur : (switchToTask a k s').currentTask = some a :=
        congrArg Core.currentTask (core_switchToTask a k ((congrArg Core.currentTask hcore).trans hc)
          ((congrArg Core.postpone hcore).trans hp))
      refine ⟨L', hch, fun u => (hst u).trans ?_, fun u hu => ?_⟩
      · rw [hcur, Option.some_inj, eq_comm]
      · rw [hcur] at hu
        cases hu
        exact h.live _ a hmem
    · rename_i heq
      rw [heq] at hpop; cases hpop

/-- The same for the idle loop, in which no task is RUNNING. -/
theorem moves_idleLoop {parked : Tid} (h : Placed s L) (hc : s.currentTask = none) (hpark : parked ∈ s.tcbs)
    (hrun : ∀ u, s.state u ≠ .running) (hp : s.postpone = 0) :
    ∃ L', Change none .stay s L (idleLoop parked k s) L' ∧
      (∀ u, (idleLoop parked k s).state u = .running ↔ (idleLoop parked k s).currentTask = some u) ∧
      ∀ u, (idleLoop parked k s).currentTask = some u → u ∈ s.tcbs := by
  unfold idleLoop
  split
  · refine ⟨L, .same h rfl rfl, fun u => iff_of_false (hrun u) ?_, fun u hu => ?_⟩
    · rw [hc]; exact (Option.some_ne_none u).symm
    · rw [hc] at hu; cases hu
  · rename_i hfirst
    dsimp only
    generalize hs0 : ({ s with intFlag := false, currentTask := some parked } : Kernel) = s0
    have h0 : Placed s0 L := by
      rw [← hs0]; exact h.congr rfl rfl rfl rfl rfl rfl
    have hst0 : s0.state = s.state := by rw [← hs0]
    have ht0 : s0.tcbs = s.tcbs := by rw [← hs0]
    have hc0 : s0.currentTask = some parked := by rw [← hs0]
    have hp0 : s0.postpone = 0 := by rw [← hs0]; exact hp
    have hch0 : Change none .stay s L s0 L := by
      rw [← hs0]; exact .same h rfl rfl
    cases hl : L (.queue .ready) with
    | nil => exact absurd (h.lists.first_eq_none.2 hl) hfirst
    | cons a l =>
      have hpop : (readyPop s0).1 = some a := (h0.lists.pop hl).1
      have hmem : a ∈ L (.queue .ready) := by rw [hl]; exact List.mem_cons_self
      have hnone : ∀ u, s0.state u = .running → u = parked := by
        intro u hu
        rw [hst0] at hu
        exact absurd hu (hrun u)
      split
      · rename_i task s' heq
        rw [heq] at hpop
        cases hpop
        have hcore : s'.core = s0.core := core_readyPop heq
        split
        · obtain ⟨L', hch, hst⟩ := moves_switchToTask (k := k) h0 hl hc0 (by rw [ht0]; exact hpark) hnone hp0
          rw [show queuePop s0 .ready = (some a, s') from heq] at hch hst
          have hcur : (switchToTask a k s').currentTask = some a :=
            congrArg Core.currentTask (core_switchToTask a k ((congrArg Core.currentTask hcore).trans hc0)
              ((congrArg Core.postpone hcore).trans hp0))
          refine ⟨L', hch0.trans hch, fun u => (hst u).trans ?_, fun u hu => ?_⟩
          · rw [hcur, Option.some_inj, eq_comm]
          · rw [hcur] at hu
            cases hu
            exact h.live _ a hmem
        · rename_i hap
          cases not_not.1 hap
          have hch := change_resume h0 hl
          rw [show queuePop s0 .ready = (some parked, s') from heq] at hch
          have hcur : s'.currentTask = some parked := (congrArg Core.currentTask hcore).trans hc0
          have hst' : s'.state = s0.state := by
            have := state_queuePop s0 .ready
            rwa [show queuePop s0 .ready = (some parked, s') from heq] at this
          refine ⟨_, (hch0.trans hch).trans (.same hch.placed rfl rfl), fun u => ?_, fun u hu => ?_⟩
          · show update s'.state parked .running u = .running ↔ s'.currentTask = some u
            rw [hcur, hst', hst0, Option.some_inj]
            by_cases hua : u = parked
            · rw [hua, update_self]; simp
            · rw [update_of_ne hua]
              exact iff_of_false (hrun u) (Ne.symm hua)
          · cases Option.some.inj (hcur.symm.trans hu)
            exact hpark
      · rename_i heq
        rw [heq] at hpop; cases hpop

end Switching

/-! ## Killing and queueing -/

section Killing

variable {a t : Tid} {s : Kernel} {L : Place → List Tid} {k : List Frame}

theorem unlisted_erase (h : Lists s L) (ha : a ∈ L (.queue i)) :
    Unlisted (update L (.queue i) ((L (.queue i)).erase a)) a :=
  unlisted_update (fun q hq haq => hq (h.apart q _ a haq ha)) (h.nodup _).not_mem_erase

theorem erase_update (h : Lists s L) (ha : a ∈ L (.queue i)) (j : QueueId) :
    update L (.queue i) ((L (.queue i)).erase a) (.queue j) = (L (.queue j)).erase a := by
  by_cases hj : j = i
  · rw [hj, update_self]
  · rw [update_of_ne (by simpa using hj), List.erase_of_not_mem]
    intro ha'
    cases h.apart _ _ a ha ha'
    exact hj rfl

/-- A task has left its queue and is on no list. -/
structure Left (a : Tid) (s : Kernel) (L : Place → List Tid) (s' : Kernel) (L' : Place → List Tid) : Prop where
  moved : Relocated a s L s' L'
  unlisted : Unlisted L' a
  queues : ∀ i, L' (.queue i) = (L (.queue i)).erase a
  terminated : L' .terminated = L .terminated

theorem Left.of_erase {s' : Kernel} (h : Lists s L) (ha : a ∈ L (.queue i))
    (r : Relocated a s L s' (update L (.queue i) ((L (.queue i)).erase a))) :
    Left a s L s' (update L (.queue i) ((L (.queue i)).erase a)) :=
  ⟨r, unlisted_erase h ha, erase_update h ha, update_of_ne (by simp) _ _⟩

theorem leave_semRemove {q : Sid} (h : Placed s L) (ha : a ∈ L (.queue (.waiting q))) :
    ∃ L', Left a s L (semRemove s q a) L' := by
  unfold semRemove
  split
  · rename_i hfirst
    cases hl : L (.queue (.waiting q)) with
    | nil => rw [hl] at ha; cases ha
    | cons b l =>
      have hb : b = a := by
        have hh := (h.lists.queue (.waiting q)).seg.head
        rw [hl] at hh
        exact Option.some.inj (hh.symm.trans hfirst)
      subst hb
      refine ⟨_, .of_erase h.lists ha ?_⟩
      rw [show (L (.queue (.waiting q))).erase b = l by rw [hl, List.erase_cons_head]]
      exact (semPop_cons h.lists hl).2
  · have r := Relocated.remove h.lists ha (h.length_lt_fuel _)
    split
    · exact ⟨_, .of_erase h.lists ha
        ⟨r.lists.congr rfl, r.off, r.state, fun x hx => update_of_ne hx _ _, r.registry⟩⟩
    · exact ⟨_, .of_erase h.lists ha r⟩

/-- Whatever its state, a task that is not DEAD is on no list afterwards. -/
theorem leave_leaveQueue (h : Placed s L) (ha : a ∈ s.tcbs) (hd : s.state a ≠ .dead) :
    ∃ L', Left a s L (leaveQueue a s) L' := by
  have hset := h.settled a ha
  have hout : Unlisted L a → Left a s L s L := fun hu =>
    ⟨.same h.lists rfl rfl, hu, fun i => (List.erase_of_not_mem (hu (.queue i))).symm, rfl⟩
  unfold leaveQueue
  split
  · rename_i hst
    by_cases hm : a ∈ L (.queue .ready)
    · exact ⟨_, .of_erase h.lists hm (.remove h.lists hm (h.length_lt_fuel _))⟩
    · -- READY, but not queued
      rw [readyRemove, h.lists.remove_absent hm (h.length_lt_fuel _)]
      refine ⟨L, hout fun p hp => ?_⟩
      have := hset.named p hp
      simp only [Kernel.placeOf, hst, Option.some_inj] at this
      exact hm (this ▸ hp)
  · rename_i hst
    have hm : a ∈ L (.queue .sleeping) := hset.listed _ (by simp only [Kernel.placeOf, hst]) (by simp)
    exact ⟨_, .of_erase h.lists hm (.remove h.lists hm (h.length_lt_fuel _))⟩
  · rename_i hst
    obtain ⟨q, -, hw⟩ := hset.waits hst
    rw [hw]
    exact leave_semRemove h (hset.listed _ (by simp only [Kernel.placeOf, hst, hw, Option.map_some]) (by simp))
  · rename_i h1 h2 h3
    refine ⟨L, hout (h.unlisted ?_)⟩
    unfold Kernel.placeOf
    split <;> simp_all

/-- The locked section of `kill_task_by_pid` before `wake_reaper`: the target is DEAD and at the head of the terminated
tasks. -/
def condemn (task : Tid) (s : Kernel) : Kernel :=
  terminatedPush (setState (leaveQueue task (lockStuff s)) task .dead) task

/-- The lists after `task` was killed and the tasks `woken` were made READY. -/
def killedLists (task : Tid) (woken : List Tid) (L : Place → List Tid) : Place → List Tid
  | .queue .ready => (L (.queue .ready)).erase task ++ woken
  | .queue i => (L (.queue i)).erase task
  | .terminated => task :: L .terminated

theorem state_condemn (task : Tid) (s : Kernel) : (condemn task s).state task = .dead := update_self _ _ _

theorem change_condemn {task : Tid} (h : Placed s L) (htask : task ∈ s.tcbs) (hd : s.state task ≠ .dead) :
    Change (some task) (fun _ l => l.erase task) s L (condemn task s) (killedLists task [] L) ∧
      ∀ u, u ≠ task → (condemn task s).state u = s.state u := by
  have hlock : Placed (lockStuff s) L := h.congr rfl rfl rfl rfl rfl rfl
  obtain ⟨L₁, hleft⟩ := leave_leaveQueue hlock htask hd
  have r := hleft.moved.trans (.setState hleft.moved.lists .dead)
  have r' := (Relocated.same (a := task) (u := lockStuff s) h.lists rfl rfl).trans
    (r.trans (.terminatedPush r.lists hleft.unlisted))
  have hL : update L₁ .terminated (task :: L₁ .terminated) = killedLists task [] L := by
    funext p
    match p with
    | .queue .ready => exact (hleft.queues .ready).trans (List.append_nil _).symm
    | .queue .sleeping => exact hleft.queues .sleeping
    | .queue (.waiting q) => exact hleft.queues (.waiting q)
    | .terminated => rw [update_self, hleft.terminated]; rfl
  have hst := state_condemn task s
  refine ⟨hL ▸ .of_relocated h htask r' (.of_onlyAt (onlyAt_update (fun p _ => hleft.unlisted p) List.mem_cons_self) ?_ ?_)
    ?_ ?_ ?_ fun i _ => ?_, r'.state⟩
  · show (condemn task s).placeOf task = _
    simp only [Kernel.placeOf, hst]
  · intro hw
    exact absurd (hst.symm.trans hw) (by decide)
  · intro hf
    exact absurd (hst.symm.trans hf.ready) (by decide)
  · intro _
    rfl
  · intro _
    exact hst
  · rw [update_of_ne (by simp)]
    exact hleft.queues i

theorem change_kill {task : Tid} (h : Placed s L) (htask : task ∈ s.tcbs) (hd : s.state task ≠ .dead) :
    Change (some task) (fun _ l => l.erase task) s L (wakeReaper (condemn task s))
      (killedLists task (parkedReaper (condemn task s)) L) := by
  obtain ⟨hch, -⟩ := change_condemn h htask hd
  refine hch.last ?_
  have hL : killedLists task (parkedReaper (condemn task s)) L = update (killedLists task [] L) (.queue .ready)
      (killedLists task [] L (.queue .ready) ++ parkedReaper (condemn task s)) := by
    funext p
    match p with
    | .queue .ready =>
      rw [update_self]
      show _ = _ ++ [] ++ _
      rw [List.append_nil]
      rfl
    | .queue .sleeping => rfl
    | .queue (.waiting q) => rfl
    | .terminated => rfl
  rw [hL]
  exact (change_wakeReaper hch.placed).1

/-- A kill takes its target off the queue it waits on, unless the target is one of the protected tasks. -/
def killMove (s : Kernel) (task : Tid) : WaitMove := fun _ l =>
  if s.t0 = some task ∨ s.terminatorTask = some task ∨ s.shellTask = some task then l else l.erase task

theorem moves_killLocked (task : Tid) (h : Placed s L) (hc : s.currentTask = some t) (ht : t ∈ s.tcbs)
    (hrun : s.state t = .running) (hother : ∀ u, s.state u = .running → u = t) (htask : task ∈ s.tcbs) :
    ∃ L', Change (some task) (killMove s task) s L (killLocked task k s) L' ∧ Runs s (killLocked task k s) := by
  have weaken : ∀ {s' : Kernel} {L' : Place → List Tid}, Change none .stay s L s' L' →
      (∀ i, i ≠ .ready → killMove s task i (L (.queue i)) = L (.queue i)) →
      Change (some task) (killMove s task) s L s' L' := fun h hw =>
    ⟨h.placed, h.fresh, fun t ht _ => h.kept t ht (by simp), h.dead, h.tcbs, h.pids, h.pid,
      fun i hi => (h.waiting i hi).trans (hw i hi).symm⟩
  have hnot : s.placeOf task = none ∨ s.state task = .dead →
      ∀ i, i ≠ .ready → killMove s task i (L (.queue i)) = L (.queue i) := by
    intro hst i _
    unfold killMove
    split
    · rfl
    · refine List.erase_of_not_mem fun hm => ?_
      have hnamed := (h.settled task htask).named _ hm
      rcases hst with hst | hst
      · rw [hst] at hnamed; cases hnamed
      · simp [Kernel.placeOf, hst] at hnamed
  unfold killLocked
  split
  · rename_i hprot
    exact ⟨L, weaken (.same h rfl rfl) (fun i _ => by rw [killMove, if_pos hprot]), .of_state rfl⟩
  rename_i hprot
  split
  · rename_i hcur
    cases Option.some.inj (hc.symm.trans hcur)
    obtain ⟨L', hch, hr⟩ := moves_terminateTask (k := .ret 0 :: k) h hc ht hrun
    exact ⟨L', weaken hch (hnot (.inl (by simp only [Kernel.placeOf, hrun]))), hr⟩
  rename_i hcur
  dsimp only
  split
  · rename_i hdead
    exact ⟨L, weaken (.same h rfl rfl) (hnot (.inr hdead)), .of_state rfl⟩
  · rename_i hdead
    have hch := change_kill h htask hdead
    have hmove : killMove s task = fun _ l => l.erase task := by
      funext i l
      rw [killMove, if_neg hprot]
    obtain ⟨hcond, hst⟩ := change_condemn h htask hdead
    have hne : t ≠ task := by
      rintro rfl
      exact hcur hc
    have hs : ∀ u, (condemn task s).state u = .running ↔ s.state u = .running := by
      intro u
      by_cases hu : u = task
      · rw [hu, state_condemn]
        exact iff_of_false (by simp) fun hr => hne (hother task hr).symm
      · rw [hst u hu]
    have hrun' := (change_wakeReaper hcond.placed).2
    rw [← hmove] at hch
    exact ⟨_, hch.then_same rfl rfl, fun u hu => (hs u).1 ((hrun' u).1 hu),
      .inl fun u hu => (hrun' u).2 ((hs u).2 hu)⟩

theorem moves_createPush (h : Placed s L) (hf : Fresh s L a) :
    ∃ L', Change (some a) .stay s L (createPush a k s) L' ∧ a ∈ L' (.queue .ready) ∧ (createPush a k s).state = s.state := by
  have r1 : Relocated a s L (lockSchedule s) L := .same h.lists rfl rfl
  have r2 := r1.trans (.push r1.lists .ready hf.unlisted)
  have r3 := r2.trans (.same (u := createPush a k s) r2.lists rfl rfl)
  have hst : (createPush a k s).state = s.state := state_queuePush (lockSchedule s) .ready a
  have hat : OnlyAt (update L (.queue .ready) (L (.queue .ready) ++ [a])) a (.queue .ready) :=
    onlyAt_update (fun q _ => hf.unlisted q) (by simp)
  refine ⟨_, .of_relocated h hf.live r3 (.of_onlyAt hat ?_ ?_) ?_ (fun _ => rfl) ?_ (waiting_update (by simp)),
    (hat _).2 rfl, hst⟩
  · simp only [Kernel.placeOf, hst, hf.ready]
  · intro hw
    rw [hst, hf.ready] at hw; cases hw
  · intro hf'
    exact hf'.unlisted _ ((hat _).2 rfl)
  · intro hd
    rw [hst]; exact hd

end Killing

/-! ## Allocating and freeing -/

/-- What the pid table gives is allocated and has that pid. -/
def Known (s : Kernel) : Prop := ∀ p t, pidTableLookup s.pids p = some t → t ∈ s.tcbs ∧ s.pid t = p

section Creating

variable {a : Tid} {s : Kernel} {L : Place → List Tid} {k : List Frame}

/-- A block that `kmalloc` returned becomes a task: READY, on no list, registered nowhere. -/
theorem placed_taskCreateInternal (entry : Frame) (cr3 : Nat) (isUser : Bool) (h : Placed s L) (ha : a ∉ s.tcbs) :
    Placed (taskCreateInternal (some a) true entry cr3 isUser k s) L ∧
      Fresh (taskCreateInternal (some a) true entry cr3 isUser k s) L a := by
  have hu : Unlisted L a := fun p hp => ha (h.live p a hp)
  have hst : (taskCreateInternal (some a) true entry cr3 isUser k s).state a = .ready := update_self _ _ _
  have hoff : ∀ t, t ≠ a → (taskCreateInternal (some a) true entry cr3 isUser k s).state t = s.state t ∧
      (taskCreateInternal (some a) true entry cr3 isUser k s).waitingFor t = s.waitingFor t := fun t ht =>
    ⟨update_of_ne ht _ _, update_of_ne ht _ _⟩
  refine ⟨⟨(h.lists.setNext hu none).congr rfl, ?_, ?_, ?_, ?_, h.notStuck⟩, List.mem_cons_self, hst, hu⟩
  · intro p t ht
    exact List.mem_cons_of_mem a (h.live p t ht)
  · intro t ht
    by_cases hta : t = a
    · rw [hta]
      refine .of_unlisted hu (.inr ?_) (by rw [hst]; simp)
      simp only [Kernel.placeOf, hst]
    · obtain ⟨h1, h2, h3⟩ := h.settled t ((List.mem_cons.1 ht).resolve_left hta)
      have hp : (taskCreateInternal (some a) true entry cr3 isUser k s).placeOf t = s.placeOf t := by
        simp only [Kernel.placeOf, (hoff t hta).1, (hoff t hta).2]
      refine ⟨fun p hm => hp.trans (h1 p hm), fun p hm => h2 p (hp.symm.trans hm), ?_⟩
      rw [(hoff t hta).1, (hoff t hta).2]; exact h3
  · intro t ht
    by_cases hta : t = a
    · rw [hta, hst] at ht; cases ht
    · rw [(hoff t hta).1] at ht
      exact List.mem_cons_of_mem a (h.paused t ht)
  · exact List.nodup_cons.2 ⟨ha, h.nodup⟩

theorem mem_erase_tcbs (h : Placed s L) {t : Tid} : t ∈ s.tcbs.erase a ↔ t ≠ a ∧ t ∈ s.tcbs := h.nodup.mem_erase_iff

theorem placed_createRelease (nodeOk : Bool) (h : Placed s L) (hf : Fresh s L a) :
    Placed (createRelease a nodeOk k s) L := by
  generalize hs' : createRelease a nodeOk k s = s'
  have hlink : s'.links = s.links := by rw [← hs']; cases nodeOk <;> rfl
  have hst : s'.state = s.state := by rw [← hs']; cases nodeOk <;> rfl
  have hw : s'.waitingFor = s.waitingFor := by rw [← hs']; cases nodeOk <;> rfl
  have hq : s'.sems = s.sems := by rw [← hs']; cases nodeOk <;> rfl
  have hx : s'.stuck = s.stuck := by rw [← hs']; cases nodeOk <;> rfl
  have ht : s'.tcbs = s.tcbs.erase a := by rw [← hs']; cases nodeOk <;> rfl
  have hp : ∀ t, s'.placeOf t = s.placeOf t := fun t => by simp only [Kernel.placeOf, hst, hw]
  refine ⟨h.lists.congr hlink, ?_, ?_, ?_, ?_, hx.trans h.notStuck⟩
  · intro p t hm
    rw [ht, mem_erase_tcbs h]
    refine ⟨?_, h.live p t hm⟩
    rintro rfl
    exact hf.unlisted p hm
  · intro t hm
    rw [ht, mem_erase_tcbs h] at hm
    obtain ⟨h1, h2, h3⟩ := h.settled t hm.2
    refine ⟨fun p hm => (hp t).trans (h1 p hm), fun p hm => h2 p ((hp t).symm.trans hm), ?_⟩
    rw [hst, hw, hq]; exact h3
  · intro t hm
    rw [hst] at hm
    rw [ht, mem_erase_tcbs h]
    refine ⟨?_, h.paused t hm⟩
    rintro rfl
    exact absurd (hm.symm.trans hf.ready) (by decide)
  · rw [ht]; exact h.nodup.erase a

end Creating

/-! ## Reaping -/

/-- The pid registry after the tasks of `l` are reaped, each with the outcome of its `kmalloc`. -/
def reapPids (pid : Tid → Nat) (l : List (Tid × Bool)) (r : PidReg) : PidReg :=
  l.foldl (fun r x => pidRelease (pidTableRemove r (pid x.1)) (pid x.1) x.2) r

/-- The terminated tasks are gone, and nothing else. -/
structure Reaped (s : Kernel) (L : Place → List Tid) (s' : Kernel) (L' : Place → List Tid) : Prop where
  placed : Placed s' L'
  known : Known s'
  lookup : ∀ p t, pidTableLookup s'.pids p = some t → pidTableLookup s.pids p = some t
  state : s'.state = s.state
  pid : s'.pid = s.pid
  tcbs : ∀ t, t ∈ s'.tcbs ↔ t ∈ s.tcbs ∧ t ∉ L .terminated
  queues : ∀ i, L' (.queue i) = L (.queue i)
  terminated : L' .terminated = []
  pids : ∃ l : List (Tid × Bool), l.map Prod.fst = L .terminated ∧ s'.pids = reapPids s.pid l s.pids

section Reaping

variable {a t : Tid} {s s' : Kernel} {L L' : Place → List Tid} {k : List Frame}

theorem lookup_pidRelease (r : PidReg) (p q : Nat) (ok : Bool) :
    pidTableLookup (pidRelease r p ok) q = pidTableLookup r q := by
  cases ok <;> rfl

theorem lookup_pidTableRemove (r : PidReg) (p q : Nat) :
    pidTableLookup (pidTableRemove r p) q = if q = p then none else pidTableLookup r q :=
  get_clear

theorem Reaped.fresh_iff (h : Reaped s L s' L') : Fresh s' L' t ↔ Fresh s L t := by
  have hmem : ∀ p, t ∈ L p → p ≠ .terminated → t ∈ L' p := by
    intro p hp hne
    cases p with
    | queue i => rw [h.queues]; exact hp
    | terminated => exact absurd rfl hne
  constructor
  · intro hf
    obtain ⟨hl, hnt⟩ := (h.tcbs t).1 hf.live
    refine ⟨hl, h.state ▸ hf.ready, fun p hp => ?_⟩
    by_cases hpt : p = .terminated
    · exact hnt (hpt ▸ hp)
    · exact hf.unlisted p (hmem p hp hpt)
  · intro hf
    refine ⟨(h.tcbs t).2 ⟨hf.live, hf.unlisted _⟩, h.state ▸ hf.ready, fun p hp => ?_⟩
    cases p with
    | queue i => rw [h.queues] at hp; exact hf.unlisted _ hp
    | terminated => rw [h.terminated] at hp; cases hp

theorem placed_reapTask (nodeOk : Bool) (h : Placed s L) (hk : Known s) (hl : L .terminated = a :: l) :
    Placed (reapTask a nodeOk { s with terminated := s.next a }) (update L .terminated l) ∧
      Known (reapTask a nodeOk { s with terminated := s.next a }) := by
  generalize hs' : reapTask a nodeOk { s with terminated := s.next a } = s'
  have hlists : Lists s' (update L .terminated l) := by
    rw [← hs']; exact (h.lists.terminatedPop hl).2.congr rfl
  have ht : s'.tcbs = s.tcbs.erase a := by rw [← hs']; rfl
  have hst : s'.state = s.state := by rw [← hs']; rfl
  have hpl : ∀ t, s'.placeOf t = s.placeOf t := by rw [← hs']; exact fun t => rfl
  have hsem : ∀ t, (s'.state t = .waitingForLock → ∃ q ∈ s'.sems, s'.waitingFor t = some q) =
      (s.state t = .waitingForLock → ∃ q ∈ s.sems, s.waitingFor t = some q) := by rw [← hs']; exact fun t => rfl
  have hn := h.lists.nodup .terminated
  rw [hl] at hn
  have ha : a ∈ L .terminated := by rw [hl]; exact List.mem_cons_self
  have hoff : ∀ p t, t ≠ a → (t ∈ update L .terminated l p ↔ t ∈ L p) :=
    off_update fun t hta => by rw [hl]; simp [hta]
  have hon : Unlisted (update L .terminated l) a :=
    unlisted_update (fun q hq haq => hq (h.lists.apart q _ a haq ha)) (List.nodup_cons.1 hn).1
  have hdead : s.state a = .dead := h.state_of_terminated ha
  refine ⟨⟨hlists, ?_, ?_, ?_, ?_, ?_⟩, ?_⟩
  · intro p t hm
    have hta : t ≠ a := by
      rintro rfl
      exact hon p hm
    rw [ht, mem_erase_tcbs h]
    exact ⟨hta, h.live p t ((hoff p t hta).1 hm)⟩
  · intro t hm
    rw [ht, mem_erase_tcbs h] at hm
    obtain ⟨h1, h2, h3⟩ := h.settled t hm.2
    refine ⟨fun p hp => (hpl t).trans (h1 p ((hoff p t hm.1).1 hp)),
      fun p hp hne => (hoff p t hm.1).2 (h2 p ((hpl t).symm.trans hp) hne), ?_⟩
    rw [hsem]; exact h3
  · intro t hm
    rw [hst] at hm
    rw [ht, mem_erase_tcbs h]
    refine ⟨?_, h.paused t hm⟩
    rintro rfl
    exact absurd (hm.symm.trans hdead) (by decide)
  · rw [ht]; exact h.nodup.erase a
  · rw [← hs']; exact h.notStuck
  · intro p t hp
    have hpids : pidTableLookup s'.pids p = if p = s.pid a then none else pidTableLookup s.pids p := by
      rw [← hs']
      show pidTableLookup (pidRelease _ _ _) p = _
      rw [lookup_pidRelease, lookup_pidTableRemove]
    rw [hpids] at hp
    split at hp
    · cases hp
    · rename_i hne
      obtain ⟨hlive, hpid⟩ := hk p t hp
      refine ⟨?_, by rw [← hs']; exact hpid⟩
      rw [ht, mem_erase_tcbs h]
      refine ⟨?_, hlive⟩
      rintro rfl
      exact hne hpid.symm

theorem reaped_reapTerminated (ok : Nat → Bool) : ∀ (n : Nat) (s : Kernel) (L : Place → List Tid), Placed s L →
    Known s → (L .terminated).length ≤ n → ∃ L', Reaped s L (reapTerminated ok n s) L' := by
  intro n
  induction n with
  | zero =>
    intro s L h hk hn
    have hl : L .terminated = [] := List.length_eq_zero_iff.1 (Nat.le_zero.1 hn)
    rw [reapTerminated, if_pos (h.lists.terminated_none hl)]
    exact ⟨L, h, hk, fun _ _ hp => hp, rfl, rfl, fun t => by simp [hl], fun _ => rfl, hl, [], hl.symm, rfl⟩
  | succ n ih =>
    intro s L h hk hn
    unfold reapTerminated
    cases hl : L .terminated with
    | nil =>
      rw [h.lists.terminated_none hl]
      exact ⟨L, h, hk, fun _ _ hp => hp, rfl, rfl, fun t => by simp [hl], fun _ => rfl, hl, [], hl.symm, rfl⟩
    | cons a l =>
      rw [(h.lists.terminatedPop hl).1]
      dsimp only
      obtain ⟨hpl, hkn⟩ := placed_reapTask (ok n) h hk hl
      obtain ⟨L', hr⟩ := ih _ _ hpl hkn (by
        rw [update_self]
        rw [hl] at hn
        simpa using hn)
      obtain ⟨reaped, hreaped, hpids⟩ := hr.pids
      rw [update_self] at hreaped
      refine ⟨L', hr.placed, hr.known, fun p t hp => ?_, hr.state, hr.pid, fun t => ?_, fun i => ?_, hr.terminated,
        (a, ok n) :: reaped, ?_, hpids⟩
      · have hp' := hr.lookup p t hp
        change pidTableLookup (pidRelease (pidTableRemove s.pids (s.pid a)) (s.pid a) (ok n)) p = some t at hp'
        rw [lookup_pidRelease, lookup_pidTableRemove] at hp'
        split at hp'
        · cases hp'
        · exact hp'
      · rw [hr.tcbs, update_self, hl, List.mem_cons, not_or]
        show t ∈ s.tcbs.erase a ∧ _ ↔ _
        rw [mem_erase_tcbs h]
        tauto
      · rw [hr.queues, update_of_ne (by simp)]
      · rw [List.map_cons, hreaped, hl]

end Reaping

end ToastOS.Task
