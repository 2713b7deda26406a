import ToastOS.Task.Frames
import ToastOS.Task.PlacementOps

/-!
# What a step does to the states and to what the queues leave alone

`StateMove s act s' t` lists how the state of a task changes in a step: it is made READY or RUNNING by someone, or it is the
running task and its own call blocks, parks or ends it, or it is killed. `Setup` are the fields that no move between
queues touches; `SetupStep` says which steps change them.
-/

namespace ToastOS.Task

open ToastOS.Lib (Queue Reach Any)
open Function

/-- Address spaces, the three protected tasks, and the counters of the semaphores. -/
structure Setup where
  taskCr3 : Tid → Nat
  isUser : Tid → Bool
  cr3 : Nat
  kernelCr3 : Nat
  t0 : Option Tid
  shellTask : Option Tid
  terminatorTask : Option Tid
  maxCount : Sid → Int
  currentCount : Sid → Int
  sems : List Sid

def Kernel.setup (s : Kernel) : Setup :=
  ⟨s.taskCr3, s.isUser, s.cr3, s.kernelCr3, s.t0, s.shellTask, s.terminatorTask, s.maxCount, s.currentCount, s.sems⟩

/-- With the address space of `t` loaded. -/
def Setup.loaded (x : Setup) (t : Tid) : Setup := { x with cr3 := x.taskCr3 t }

def Kernel.calm (s : Kernel) : (Tid → TaskState) × Setup := (s.state, s.setup)

/-! ## Moves between queues -/

theorem calm_congr {s s' : Kernel} (h : s'.offQueues = s.offQueues) : s'.calm = s.calm := by
  have := congrArg Kernel.calm h
  exact this

section Queues

variable (s : Kernel) (i : QueueId) (t : Tid) (q : Sid)

@[simp] theorem calm_queuePush : (queuePush s i t).calm = s.calm := calm_congr (offQueues_queuePush s i t)

@[simp] theorem calm_queuePop : (queuePop s i).2.calm = s.calm := calm_congr (offQueues_queuePop s i)

@[simp] theorem calm_sleepPush : (sleepPush s t).calm = s.calm := calm_congr (offQueues_sleepPush s t)

@[simp] theorem calm_semPush : (semPush s q t).calm = s.calm := calm_congr (offQueues_semPush s t q)

@[simp] theorem calm_semPop : (semPop s q).2.calm = s.calm := calm_congr (offQueues_semPop s q)

@[simp] theorem calm_leaveQueue : (leaveQueue t s).calm = s.calm := calm_congr (offQueues_leaveQueue s t)

end Queues

section Moves

variable {s s' : Kernel} {t : Tid} {k : List Frame}

theorem calm_unblockTask (t : Tid) (s : Kernel) : (unblockTask t s).calm = (update s.state t .ready, s.setup) := by
  show (readyPush (setState (lockSchedule s) t .ready) t).calm = _
  rw [readyPush, calm_queuePush]
  rfl

theorem setup_wakeReaper (s : Kernel) : (wakeReaper s).setup = s.setup := by
  unfold wakeReaper
  split
  · split
    · exact congrArg Prod.snd (calm_unblockTask _ s)
    · rfl
  · rfl

theorem state_wakeReaper (s : Kernel) (t : Tid) : (wakeReaper s).state t = s.state t ∨ (wakeReaper s).state t = .ready := by
  unfold wakeReaper
  split
  · split
    · rw [state_unblockTask, update_apply]
      split
      · exact .inr rfl
      · exact .inl rfl
    · exact .inl rfl
  · exact .inl rfl

theorem not_paused_wakeReaper {r : Tid} (hr : s.terminatorTask = some r) : (wakeReaper s).state r ≠ .paused := by
  unfold wakeReaper
  rw [hr]
  simp only
  split
  · rw [state_unblockTask, update_self]
    simp
  · assumption

theorem wakeSleepers_calm (now : Nat) : ∀ (n : Nat) (s : Kernel), (wakeSleepers now n s).setup = s.setup ∧
    ∀ t, (wakeSleepers now n s).state t = s.state t ∨ (wakeSleepers now n s).state t = .ready
  | 0, s => ⟨rfl, fun _ => .inl rfl⟩
  | n + 1, s => by
    have hpop := calm_queuePop s .sleeping
    unfold wakeSleepers
    split
    · exact ⟨rfl, fun _ => .inl rfl⟩
    · split
      · split
        · rename_i task s' heq
          rw [show queuePop s .sleeping = (some task, s') from heq] at hpop
          have hcalm := calm_unblockTask task s'
          obtain ⟨h1, h2⟩ := wakeSleepers_calm now n (unblockTask task s')
          refine ⟨h1.trans ((congrArg Prod.snd hcalm).trans (congrArg Prod.snd hpop)), fun t => ?_⟩
          rcases h2 t with h | h
          · rw [h, state_unblockTask, update_apply]
            split
            · exact .inr rfl
            · exact .inl (congrFun (congrArg Prod.fst hpop) t)
          · exact .inr h
        · exact ⟨rfl, fun _ => .inl rfl⟩
      · exact ⟨rfl, fun _ => .inl rfl⟩

/-! ## Switching -/

theorem calm_updateTaskTime (s : Kernel) : (updateTaskTime s).calm = s.calm := by
  unfold updateTaskTime
  cases s.currentTask <;> rfl

/-- What switching does: perhaps to another task, whose address space is then loaded. -/
structure Switched (s s' : Kernel) : Prop where
  setup : s'.setup = s.setup ∧ s'.onStack = s.onStack ∨ s'.setup = s.setup.loaded s'.onStack
  state : ∀ t, s'.state t = s.state t ∨ s'.state t = .ready ∨ s'.state t = .running

theorem Switched.of_calm (h : s'.calm = s.calm) (hon : s'.onStack = s.onStack) : Switched s s' :=
  ⟨.inl ⟨congrArg Prod.snd h, hon⟩, fun t => .inl (congrFun (congrArg Prod.fst h) t)⟩

theorem setup_contextSwitch {prev : Tid} (next : Tid) (hc : s.currentTask = some prev) :
    (contextSwitch next k s).setup = s.setup.loaded (contextSwitch next k s).onStack ∧
      (contextSwitch next k s).state = s.state := by
  have hcalm := calm_updateTaskTime s
  simp only [contextSwitch, hc]
  refine ⟨?_, congrArg Prod.fst hcalm⟩
  have hsetup : (updateTaskTime s).setup = s.setup := congrArg Prod.snd hcalm
  show { (updateTaskTime s).setup with cr3 := s.setup.taskCr3 next } = s.setup.loaded next
  rw [hsetup]
  rfl

theorem switched_switchToTask {prev : Tid} (next : Tid) (hc : s.currentTask = some prev) :
    Switched s (switchToTask next k s) := by
  unfold switchToTask
  split
  · exact .of_calm rfl rfl
  · simp only [hc]
    have hpush : ∀ u : Kernel, u.currentTask = some prev → u.setup = s.setup →
        (∀ t, u.state t = s.state t ∨ u.state t = .ready) →
        Switched s (contextSwitch next k { setState u next .running with timeSlice := timeSliceInNs }) := by
      intro u hu hsetup hstate
      obtain ⟨h1, h2⟩ := setup_contextSwitch (k := k) next
        (s := { setState u next .running with timeSlice := timeSliceInNs }) hu
      refine ⟨.inr (h1.trans ?_), fun t => ?_⟩
      · show u.setup.loaded _ = s.setup.loaded _
        rw [hsetup]
      · rw [h2]
        show update u.state next .running t = _ ∨ update u.state next .running t = _ ∨
          update u.state next .running t = _
        rw [update_apply]
        split
        · exact .inr (.inr rfl)
        · exact (hstate t).imp_right .inl
    split
    · have hcalm := calm_queuePush (setState s prev .ready) .ready prev
      refine hpush _ ((congrArg Core.currentTask (core_queuePush (setState s prev .ready) .ready prev)).trans hc)
        (congrArg Prod.snd hcalm) fun t => ?_
      rw [show (readyPush (setState s prev .ready) prev).state = update s.state prev .ready from congrArg Prod.fst hcalm,
        update_apply]
      split
      · exact .inr rfl
      · exact .inl rfl
    · exact hpush s hc rfl fun _ => .inl rfl

theorem switched_schedule {prev : Tid} (hc : s.currentTask = some prev) : Switched s (schedule k s) := by
  have hpop := calm_queuePop s .ready
  have hcore := core_queuePop s .ready
  unfold schedule
  split
  · exact .of_calm rfl rfl
  · split
    · rename_i task s₁ heq
      rw [show queuePop s .ready = (some task, s₁) from heq] at hpop hcore
      have hc₁ : s₁.currentTask = some prev := (congrArg Core.currentTask hcore).trans hc
      have hon : s₁.onStack = s.onStack := congrArg Core.onStack hcore
      have hsetup : s₁.setup = s.setup := congrArg Prod.snd hpop
      obtain ⟨h1, h2⟩ := switched_switchToTask (k := k) task hc₁
      rw [hsetup, hon] at h1
      refine ⟨h1, fun t => ?_⟩
      rw [← show s₁.state t = s.state t from congrFun (congrArg Prod.fst hpop) t]
      exact h2 t
    · simp only [hc]
      split <;> exact .of_calm rfl rfl

theorem switched_idleLoop (parked : Tid) : Switched s (idleLoop parked k s) := by
  unfold idleLoop
  split
  · exact .of_calm rfl rfl
  · dsimp only
    have hpop := calm_queuePop { s with intFlag := false, currentTask := some parked } .ready
    have hcore := core_queuePop { s with intFlag := false, currentTask := some parked } .ready
    split
    · rename_i task s₁ heq
      rw [show queuePop _ .ready = (some task, s₁) from heq] at hpop hcore
      have hon : s₁.onStack = s.onStack := congrArg Core.onStack hcore
      have hsetup : s₁.setup = s.setup := congrArg Prod.snd hpop
      have hstate : ∀ t, s₁.state t = s.state t := fun t => congrFun (congrArg Prod.fst hpop) t
      split
      · obtain ⟨h1, h2⟩ := switched_switchToTask (k := k) task (congrArg Core.currentTask hcore)
        rw [hsetup, hon] at h1
        refine ⟨h1, fun t => ?_⟩
        rw [← hstate t]
        exact h2 t
      · refine ⟨.inl ⟨hsetup, hon⟩, fun t => ?_⟩
        show update s₁.state task .running t = _ ∨ update s₁.state task .running t = _ ∨
          update s₁.state task .running t = _
        rw [update_apply]
        split
        · exact .inr (.inr rfl)
        · exact .inl (hstate t)
    · exact .of_calm rfl rfl

end Moves

/-! ## One step -/

/-- `t0`, the reaper and the shell, which `kill_task_by_pid` spares. -/
def Protected (s : Kernel) (t : Tid) : Prop := s.t0 = some t ∨ s.terminatorTask = some t ∨ s.shellTask = some t

instance (s : Kernel) (t : Tid) : Decidable (Protected s t) := inferInstanceAs (Decidable (_ ∨ _ ∨ _))

/-- The task that an action ends, if it ends one. -/
def Act.ends (s : Kernel) : Act → Option Tid
  | .exec _ =>
    match s.control with
    | .killLocked _ task :: _ => if Protected s task then none else some task
    | _ => none
  | .call .terminateTask | .taskReturn | .fault | .syscall 1 _ => s.currentTask
  | _ => none

/-- How the state of `t` changes. -/
inductive StateMove (s : Kernel) (act : Act) (s' : Kernel) (t : Tid) : Prop
  | same (h : s'.state t = s.state t)
  | ready (h : s'.state t = .ready)
  | running (h : s'.state t = .running)
  /-- Its own call blocks it. -/
  | blocks (cur : s.currentTask = some t) (own : ∃ f k, s.control = f :: k ∧ (f = .body ∨ f = .userMode))
      (h : s'.state t = .sleeping ∨ s'.state t = .waitingForLock)
  /-- It is the reaper, at the end of a pass. -/
  | parks (cur : s.currentTask = some t) (loop : ∃ k, s.control = .reapLoop :: k) (h : s'.state t = .paused)
  /-- It ends, with `wake_reaper` to come. -/
  | dies (cur : s.currentTask = some t) (own : ∃ f k, s.control = f :: k ∧ f.outside = true ∧ f.ofReaper = false)
      (waking : ∃ k, s'.control = .schedule :: .unlockSchedule :: .wakeReaper :: k) (ends : act.ends s = some t)
      (h : s'.state t = .dead)
  /-- It is killed by another task, which wakes the reaper. -/
  | killed (kill : ∃ p k, s.control = .killLocked p t :: k) (other : s.terminatorTask ≠ some t)
      (woken : ∀ r, s'.terminatorTask = some r → s'.state r ≠ .paused) (ends : act.ends s = some t) (h : s'.state t = .dead)

def Act.onSemaphore : Act → Bool
  | .call (.createSemaphore _ _) | .call (.acquireSemaphore _) | .call (.releaseSemaphore _) => true
  | _ => false

/-- The set-up apart from the semaphores. -/
def Setup.spaces (x : Setup) : Setup := { x with maxCount := fun _ => 0, currentCount := fun _ => 0, sems := [] }

/-- How the set-up changes. -/
inductive SetupStep (s : Kernel) (act : Act) (s' : Kernel) : Prop
  | same (setup : s'.setup = s.setup) (onStack : s'.onStack = s.onStack)
  | switch (setup : s'.setup = s.setup.loaded s'.onStack)
  | semaphore (act : act.onSemaphore = true) (spaces : s'.setup.spaces = s.setup.spaces) (onStack : s'.onStack = s.onStack)
  | create (a : Tid) (root : Nat) (user : Bool) (free : a ∉ s.tcbs)
      (setup : s'.setup = { s.setup with taskCr3 := update s.taskCr3 a root, isUser := update s.isUser a user })
      (onStack : s'.onStack = s.onStack) (kind : user = true → ∃ addr ok, act = .call (.createUserTask (some root) addr ok))
  | reap (loop : ∃ k, s.control = .reapLoop :: k) (cr3 : s'.cr3 = s.cr3 ∨ s'.cr3 = s.kernelCr3)
      (setup : s'.setup = { s.setup with cr3 := s'.cr3 }) (onStack : s'.onStack = s.onStack)

structure CalmStep (s : Kernel) (act : Act) (s' : Kernel) : Prop where
  setup : SetupStep s act s'
  state : ∀ t, StateMove s act s' t

section Steps

variable {s s' : Kernel} {act : Act} {f : Frame} {k : List Frame} {t : Tid}

theorem CalmStep.of_calm (h : s'.calm = s.calm) (hon : s'.onStack = s.onStack) : CalmStep s act s' :=
  ⟨.same (congrArg Prod.snd h) hon, fun t => .same (congrFun (congrArg Prod.fst h) t)⟩

theorem CalmStep.of_switched (h : Switched s s') : CalmStep s act s' := by
  refine ⟨?_, fun t => ?_⟩
  · rcases h.setup with ⟨h1, h2⟩ | h1
    · exact .same h1 h2
    · exact .switch h1
  · rcases h.state t with h | h | h
    · exact .same h
    · exact .ready h
    · exact .running h

theorem CalmStep.of_update {st : TaskState} (hsetup : s'.setup = s.setup) (hon : s'.onStack = s.onStack)
    (hst : s'.state = update s.state t st) (hmove : s'.state t = st → StateMove s act s' t) : CalmStep s act s' := by
  refine ⟨.same hsetup hon, fun u => ?_⟩
  by_cases hu : u = t
  · subst hu
    exact hmove (by rw [hst, update_self])
  · exact .same (by rw [hst, update_of_ne hu])

theorem calm_blockTask (reason : TaskState) (k : List Frame) (hc : s.currentTask = some t) :
    (blockTask reason k s).calm = (update s.state t reason, s.setup) := by
  rw [blockTask_eq reason k hc]
  rfl

/-- The running task blocks on its own call, having put itself on a list. -/
theorem CalmStep.of_block {s₁ : Kernel} {reason : TaskState} (k' : List Frame) (hc : s.currentTask = some t)
    (hcalm : s₁.calm = s.calm) (hcur : s₁.currentTask = s.currentTask) (hon : s₁.onStack = s.onStack)
    (hmove : (blockTask reason k' s₁).state t = reason → StateMove s act (blockTask reason k' s₁) t) :
    CalmStep s act (blockTask reason k' s₁) := by
  have hc1 := hcur.trans hc
  have hb := calm_blockTask reason k' hc1
  refine .of_update ((congrArg Prod.snd hb).trans (congrArg Prod.snd hcalm)) ?_ ?_ hmove
  · rw [blockTask_eq reason k' hc1]
    exact hon
  · rw [← show s₁.state = s.state from congrArg Prod.fst hcalm]
    exact congrArg Prod.fst hb

theorem calm_nanoSleepUntil (w : Nat) (k' : List Frame) (hc : s.currentTask = some t)
    (hown : ∃ f k, s.control = f :: k ∧ (f = .body ∨ f = .userMode)) : CalmStep s act (nanoSleepUntil w k' s) := by
  unfold nanoSleepUntil
  dsimp only
  split
  · exact .of_calm rfl rfl
  · split
    · rename_i hnone
      exact absurd (hc.symm.trans hnone) (Option.some_ne_none t)
    · rename_i u hu
      cases Option.some.inj (hc.symm.trans hu)
      exact .of_block _ hc (calm_sleepPush _ t) (congrArg Core.currentTask (core_sleepPush _ t))
        (congrArg Core.onStack (core_sleepPush _ t)) fun h => .blocks hc hown (.inl h)

theorem calm_terminateTask (k' : List Frame) (hc : s.currentTask = some t) (hend : act.ends s = some t)
    (hown : ∃ f k, s.control = f :: k ∧ f.outside = true ∧ f.ofReaper = false) : CalmStep s act (terminateTask k' s) := by
  unfold terminateTask
  dsimp only
  rw [show (lockStuff s).currentTask = some t from hc]
  simp only
  refine .of_block _ hc rfl rfl rfl fun h => .dies hc hown ?_ hend h
  rw [blockTask_eq _ _ (show (unlockSchedule (terminatedPush (lockSchedule (lockStuff s)) t)).currentTask = some t from hc)]
  exact ⟨_, rfl⟩

theorem calm_killLocked {ok : Nat → Bool} {p : Nat} {task : Tid} (hc : s.control = .killLocked p task :: k)
    (ht : s.currentTask = some t) (hi : 0 ≤ s.irqDisable) : CalmStep s (.exec ok) (killLocked task k s) := by
  unfold killLocked
  split
  · exact .of_calm rfl rfl
  rename_i hprot
  have hend : (Act.exec ok).ends s = some task := by
    simp only [Act.ends, hc]
    exact if_neg hprot
  split
  · rename_i hcur
    exact calm_terminateTask _ ht (hend.trans (hcur.symm.trans ht)) ⟨_, k, hc, rfl, rfl⟩
  dsimp only
  split
  · exact .of_calm rfl rfl
  · have hleave := calm_leaveQueue (lockStuff s) task
    generalize hs1 : terminatedPush (setState (leaveQueue task (lockStuff s)) task .dead) task = s1
    have hcore : s1.core = s.core.lockStuff := by
      rw [← hs1, core_terminatedPush, core_setState, core_leaveQueue]
      rfl
    have hlk : s1.core.Locked := by
      rw [hcore]
      exact Core.locked_lockStuff hi
    have hsetup : s1.setup = s.setup := by
      rw [← hs1]
      exact congrArg Prod.snd hleave
    have hstate : s1.state = update s.state task .dead := by
      rw [← hs1, ← show (leaveQueue task (lockStuff s)).state = s.state from congrArg Prod.fst hleave]
      rfl
    have hterm : s1.terminatorTask = s.terminatorTask := congrArg Setup.terminatorTask hsetup
    refine ⟨.same ((setup_wakeReaper s1).trans hsetup)
      ((congrArg Core.onStack (core_wakeReaper hlk)).trans (congrArg Core.onStack hcore)), fun u => ?_⟩
    rcases state_wakeReaper s1 u with h | h
    · by_cases hu : u = task
      · subst hu
        refine .killed ⟨p, k, hc⟩ (fun he => hprot (.inr (.inl he))) (fun r hr => ?_) hend ?_
        · have hr : (wakeReaper s1).setup.terminatorTask = some r := hr
          rw [setup_wakeReaper] at hr
          exact not_paused_wakeReaper hr
        · show (wakeReaper s1).state u = .dead
          rw [h, hstate, update_self]
      · refine .same ?_
        show (wakeReaper s1).state u = s.state u
        rw [h, hstate, update_of_ne hu]
    · exact .ready h

theorem setup_reapTerminated (ok : Nat → Bool) : ∀ (n : Nat) (s : Kernel),
    (reapTerminated ok n s).state = s.state ∧
      ((reapTerminated ok n s).cr3 = s.cr3 ∨ (reapTerminated ok n s).cr3 = s.kernelCr3) ∧
      (reapTerminated ok n s).setup = { s.setup with cr3 := (reapTerminated ok n s).cr3 }
  | 0, s => by
    unfold reapTerminated
    split <;> exact ⟨rfl, .inl rfl, rfl⟩
  | n + 1, s => by
    unfold reapTerminated
    split
    · exact ⟨rfl, .inl rfl, rfl⟩
    · rename_i task _
      obtain ⟨h1, h2, h3⟩ := setup_reapTerminated ok n (reapTask task (ok n) { s with terminated := s.next task })
      refine ⟨h1, ?_, h3⟩
      rcases h2 with h2 | h2
      · rw [h2]
        show (if _ then s.kernelCr3 else s.cr3) = _ ∨ (if _ then s.kernelCr3 else s.cr3) = _
        split
        · exact .inr rfl
        · exact .inl rfl
      · exact .inr h2

theorem calm_reapAllTasks {ok : Nat → Bool} (hc : s.control = .reapLoop :: k) (ht : s.currentTask = some t) :
    CalmStep s act (reapAllTasks ok (.reapLoop :: k) s) := by
  obtain ⟨hst, hcr3, hsetup⟩ := setup_reapTerminated ok (lockStuff s).fuel (lockStuff s)
  obtain ⟨l, hcore, -⟩ := core_reapTerminated ok (lockStuff s).fuel (lockStuff s)
  unfold reapAllTasks
  dsimp only
  generalize reapTerminated ok (lockStuff s).fuel (lockStuff s) = s₁ at hst hcr3 hsetup hcore
  have ht1 : s₁.currentTask = some t := (congrArg Core.currentTask hcore).trans ht
  rw [blockTask_eq .paused (.unlockStuff :: .reapLoop :: k) ht1]
  refine ⟨.reap ⟨k, hc⟩ hcr3 hsetup (congrArg Core.onStack hcore), fun u => ?_⟩
  by_cases hu : u = t
  · subst hu
    exact .parks ht ⟨k, hc⟩ (update_self _ _ _)
  · refine .same ?_
    show update s₁.state t .paused u = _
    rw [update_of_ne hu, hst]
    rfl

theorem calm_taskCreateInternal {addr : Option Tid} {stackOk user : Bool} {entry : Frame} {root : Nat} {k' : List Frame}
    (hfree : ∀ a, addr = some a → a ∉ s.tcbs)
    (hkind : user = true → ∃ addr ok, act = .call (.createUserTask (some root) addr ok)) :
    CalmStep s act (taskCreateInternal addr stackOk entry root user k' s) := by
  unfold taskCreateInternal
  split
  · rename_i a
    refine ⟨.create a root user (hfree a rfl) rfl rfl hkind, fun u => ?_⟩
    by_cases hu : u = a
    · subst hu
      exact .ready (update_self _ _ _)
    · exact .same (update_of_ne hu _ _)
  · exact .of_calm rfl rfl

/-- The operations on semaphores may change any counter, but block and ready tasks only. -/
theorem calm_acquireSemaphore {q : Sid} (k' : List Frame) (hc : s.currentTask = some t)
    (hown : ∃ f k, s.control = f :: k ∧ (f = .body ∨ f = .userMode)) (hact : act.onSemaphore = true) :
    CalmStep s act (acquireSemaphore q k' s) := by
  unfold acquireSemaphore
  dsimp only
  split
  · exact ⟨.semaphore hact rfl rfl, fun u => .same rfl⟩
  · rw [show (lockStuff s).currentTask = some t from hc]
    refine .of_block _ hc (calm_semPush _ q t) ?_ ?_ fun h => .blocks hc hown (.inr h)
    · exact congrArg Core.currentTask (core_semPush (lockStuff s) q t)
    · exact congrArg Core.onStack (core_semPush (lockStuff s) q t)

theorem calm_releaseSemaphore {q : Sid} (k' : List Frame) (hact : act.onSemaphore = true) (hi : 0 ≤ s.irqDisable) :
    CalmStep s act (releaseSemaphore q k' s) := by
  unfold releaseSemaphore
  dsimp only
  have hpop := calm_semPop (lockStuff s) q
  have hcore := core_semPop (lockStuff s) q
  split
  · rename_i task s₁ heq
    rw [heq] at hpop hcore
    have hunb := calm_unblockTask task s₁
    refine ⟨.same ((congrArg Prod.snd hunb).trans (congrArg Prod.snd hpop)) ?_, fun u => ?_⟩
    · have hlk : s₁.core.Locked := by
        rw [show s₁.core = s.core.lockStuff from hcore]
        exact Core.locked_lockStuff hi
      exact (congrArg Core.onStack (core_unblockTask task hlk)).trans (congrArg Core.onStack hcore)
    · have hst : (unblockTask task s₁).state = update s₁.state task .ready := congrArg Prod.fst hunb
      by_cases hu : u = task
      · subst hu
        refine .ready ?_
        show (unblockTask u s₁).state u = _
        rw [hst, update_self]
      · refine .same ?_
        show (unblockTask task s₁).state u = _
        rw [hst, update_of_ne hu]
        exact congrFun (congrArg Prod.fst hpop) u
  · exact ⟨.semaphore hact rfl rfl, fun u => .same rfl⟩

theorem calm_callOp {op : Op} (hc : s.control = .body :: k) (ht : s.currentTask = some t) (hi : 0 ≤ s.irqDisable)
    (hfree : op.addrFree s = true) : CalmStep s (.call op) (callOp op (.body :: k) s) := by
  have hown : ∃ f k, s.control = f :: k ∧ (f = .body ∨ f = .userMode) := ⟨_, k, hc, .inl rfl⟩
  cases op with
  | yield => exact .of_calm rfl rfl
  | nanoSleepUntil w => exact calm_nanoSleepUntil w _ ht hown
  | nanoSleep n => exact calm_nanoSleepUntil _ _ ht hown
  | sleepSeconds n => exact calm_nanoSleepUntil _ _ ht hown
  | createSemaphore max addr =>
    cases addr with
    | none => exact .of_calm rfl rfl
    | some q => exact ⟨.semaphore rfl rfl rfl, fun u => .same rfl⟩
  | acquireSemaphore q => exact calm_acquireSemaphore _ ht hown rfl
  | releaseSemaphore q => exact calm_releaseSemaphore _ rfl hi
  | terminateTask => exact calm_terminateTask _ ht ht ⟨_, k, hc, rfl, rfl⟩
  | killTaskByPid pid =>
    show CalmStep s _ (killTaskByPid pid (.body :: k) s)
    unfold killTaskByPid
    dsimp only
    split
    · exact .of_calm rfl rfl
    · exact .of_calm rfl rfl
  | createKernelTask addr stackOk =>
    refine calm_taskCreateInternal (fun a ha => ?_) (fun h => by cases h)
    subst ha
    simpa [Op.addrFree] using hfree
  | createUserTask pml addr stackOk =>
    cases pml with
    | none => exact .of_calm rfl rfl
    | some pml =>
      refine calm_taskCreateInternal (fun a ha => ?_) (fun _ => ⟨addr, stackOk, rfl⟩)
      subst ha
      simpa [Op.addrFree] using hfree

theorem calm_execFrame {ok : Nat → Bool} (hb : Balanced s.core) (hc : s.control = f :: k)
    (hs : execFrame ok f k s = some s') : CalmStep s (.exec ok) s' := by
  have hout : f.outside = true → ∃ t, s.currentTask = some t ∧ 0 ≤ s.irqDisable := fun hf =>
    (hb.outside hc hf).imp fun _ h => ⟨h.1, Int.le_of_eq h.2.symm⟩
  cases f <;> simp only [execFrame, Option.some.injEq, reduceCtorEq] at hs <;> subst hs
  case schedule =>
    have ho := hb.owes_of hc
    obtain ⟨prev, hcur⟩ := Core.current_of_base ho.of_schedule.1
    exact .of_switched (switched_schedule hcur)
  case idle parked => exact .of_switched (switched_idleLoop parked)
  case unlockStuff =>
    unfold unlockStuff
    split
    · exact .of_calm rfl rfl
    · exact .of_calm rfl rfl
  case wakeReaper =>
    refine ⟨.same (setup_wakeReaper s) (congrArg Core.onStack (core_wakeReaper (hb.locked_wakeReaper hc))), fun u => ?_⟩
    rcases state_wakeReaper s u with h | h
    · exact .same h
    · exact .ready h
  case killLocked pid task =>
    obtain ⟨t, ht, hi⟩ := hout rfl
    exact calm_killLocked hc ht hi
  case createRelease task =>
    unfold createRelease
    split
    · exact .of_calm rfl rfl
    · exact .of_calm rfl rfl
  case createPush task =>
    have hcalm := calm_queuePush (lockSchedule s) .ready task
    have hcore := core_queuePush (lockSchedule s) .ready task
    exact .of_calm hcalm (congrArg Core.onStack hcore)
  case timerCheckSleepingTasks =>
    have hcore := hb.core_timer hc
    obtain ⟨h1, h2⟩ := wakeSleepers_calm (getUptimeNs (lockStuff s)) (lockStuff s).fuel (lockStuff s)
    refine ⟨.same h1 (congrArg Core.onStack hcore), fun u => ?_⟩
    rcases h2 u with h | h
    · exact .same h
    · exact .ready h
  case schedulerTimeSliceTick =>
    unfold schedulerTimeSliceTick
    dsimp only
    split
    · split
      · split
        · exact .of_calm rfl rfl
        · exact .of_calm rfl rfl
      · exact .of_calm rfl rfl
    · exact .of_calm rfl rfl
  case reapLoop =>
    obtain ⟨t, ht, -⟩ := hout rfl
    exact calm_reapAllTasks hc ht
  all_goals exact .of_calm rfl rfl

theorem CalmStep.of_masked {b : Bool} (h : CalmStep { s with intFlag := b } act s') : CalmStep s act s' := by
  refine ⟨?_, fun t => ?_⟩
  · cases h.setup with
    | same setup onStack => exact .same setup onStack
    | switch setup => exact .switch setup
    | semaphore act spaces onStack => exact .semaphore act spaces onStack
    | create a root user free setup onStack kind => exact .create a root user free setup onStack kind
    | reap loop cr3 setup onStack => exact .reap loop cr3 setup onStack
  · cases h.state t with
    | same h => exact .same h
    | ready h => exact .ready h
    | running h => exact .running h
    | blocks cur own h => exact .blocks cur own h
    | parks cur loop h => exact .parks cur loop h
    | dies cur own waking ends h => exact .dies cur own waking ends h
    | killed kill other woken ends h => exact .killed kill other woken ends h

theorem calm_step (hb : Balanced s.core) (hs : step s act = some s') : CalmStep s act s' := by
  obtain ⟨ok, f, k, rfl, hc, hs⟩ | ⟨op, k, rfl, hc, hfree, rfl⟩ | ⟨k, rfl, hc, rfl⟩ | ⟨num, arg, k, rfl, hc, rfl⟩ |
    ⟨k, rfl, hc, rfl⟩ | ⟨rfl, hif, rfl⟩ := step_cases hs
  · exact calm_execFrame hb hc hs
  · obtain ⟨t, ht, hi⟩ := hb.outside hc rfl
    exact calm_callOp hc ht (Int.le_of_eq hi.symm) hfree
  · obtain ⟨t, ht, -⟩ := hb.outside hc rfl
    exact calm_terminateTask _ ht ht ⟨_, k, hc, rfl, rfl⟩
  · obtain ⟨t, ht, -⟩ := hb.outside hc rfl
    unfold syscall
    dsimp only
    refine .of_masked (b := false) ?_
    split
    · exact calm_terminateTask _ ht ht ⟨_, k, hc, rfl, rfl⟩
    · exact .of_calm rfl rfl
    · exact calm_nanoSleepUntil _ _ ht ⟨_, k, hc, .inr rfl⟩
    · exact .of_calm rfl rfl
  · obtain ⟨t, ht, -⟩ := hb.outside hc rfl
    exact .of_masked (b := false) (calm_terminateTask _ ht ht ⟨_, k, hc, rfl, rfl⟩)
  · exact .of_calm rfl rfl

end Steps

end ToastOS.Task
