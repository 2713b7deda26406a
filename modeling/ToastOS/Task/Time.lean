import ToastOS.Task.PlacementStep
import ToastOS.Task.States

/-!
# What a step does to the clock and to what is measured with it

`Times` are the fields that hold times: when a sleeper wakes, what each task has used, the rest of the time slice,
the idle time and the tick counter; and how often `context_switch` was called. `TimesStep s act s'` lists how a step
changes them, together with who is current:

* `tick` : only the timer interrupt moves the clock;
* `sleeps` : only the running task's own call sets its `wake_time`;
* `slice`, `switches`, `resumes` : the time slice is used up, or given out anew;
* `switches` : time is charged in `context_switch`, and there only.
-/

namespace ToastOS.Task

open ToastOS.Lib (Queue)
open Function

def Event.isSwitch : Event → Bool
  | .contextSwitch .. => true
  | _ => false

/-- How often `context_switch` was called. -/
def Kernel.switches (s : Kernel) : Nat := s.log.countP Event.isSwitch

structure Times where
  wakeTime : Tid → Nat
  timeElapsed : Tid → Nat
  timeSlice : Nat
  lastTimeCheck : Nat
  cpuIdleTime : Nat
  tickCount : Nat
  channelHz : Nat
  switches : Nat

def Kernel.times (s : Kernel) : Times :=
  ⟨s.wakeTime, s.timeElapsed, s.timeSlice, s.lastTimeCheck, s.cpuIdleTime, s.tickCount, s.channelHz, s.switches⟩

theorem Times.logged (x : Times) {e : Event} (h : e.isSwitch = false) (l : List Event) :
    ({ x with switches := (l ++ [e]).countP Event.isSwitch } : Times) = { x with switches := l.countP Event.isSwitch } := by
  simp [List.countP_append, h]

/-- `get_uptime_ns`. -/
def Times.uptime (x : Times) : Nat := u64 (u64 (x.tickCount * 1000) / x.channelHz * 1000000)

theorem uptime_times (s : Kernel) : s.times.uptime = getUptimeNs s := rfl

/-- What `update_task_time` does with `t` current. -/
def Times.charge (x : Times) (t : Tid) : Times :=
  { x with lastTimeCheck := x.uptime
           timeElapsed := update x.timeElapsed t (u64 (x.timeElapsed t + u64 (x.uptime + 2 ^ 64 - x.lastTimeCheck))) }

/-! ## Moves between queues -/

theorem times_congr {s s' : Kernel} (h : s'.offQueues = s.offQueues) : s'.times = s.times := by
  have := congrArg Kernel.times h
  exact this

section Queues

variable (s : Kernel) (i : QueueId) (t : Tid)

@[simp] theorem times_queuePush : (queuePush s i t).times = s.times := times_congr (offQueues_queuePush s i t)

@[simp] theorem times_queuePop : (queuePop s i).2.times = s.times := times_congr (offQueues_queuePop s i)

@[simp] theorem times_sleepPush : (sleepPush s t).times = s.times := times_congr (offQueues_sleepPush s t)

@[simp] theorem times_leaveQueue : (leaveQueue t s).times = s.times := times_congr (offQueues_leaveQueue s t)

@[simp] theorem times_unblockTask : (unblockTask t s).times = s.times :=
  times_queuePush (setState (lockSchedule s) t .ready) .ready t

@[simp] theorem times_wakeReaper : (wakeReaper s).times = s.times := by
  unfold wakeReaper
  split
  · split
    · exact times_unblockTask s _
    · rfl
  · rfl

@[simp] theorem times_blockTask (reason : TaskState) (k : List Frame) : (blockTask reason k s).times = s.times := by
  unfold blockTask
  split <;> rfl

@[simp] theorem times_terminateTask (k : List Frame) : (terminateTask k s).times = s.times := by
  unfold terminateTask
  dsimp only
  split
  · rfl
  · exact times_blockTask (unlockSchedule (terminatedPush (lockSchedule (lockStuff s)) _)) _ _

end Queues

theorem times_wakeSleepers (now : Nat) : ∀ (n : Nat) (s : Kernel), (wakeSleepers now n s).times = s.times
  | 0, _ => rfl
  | n + 1, s => by
    have hpop := times_queuePop s .sleeping
    unfold wakeSleepers
    split
    · rfl
    · split
      · split
        · rename_i task s' heq
          rw [show queuePop s .sleeping = (some task, s') from heq] at hpop
          rw [times_wakeSleepers now n, times_unblockTask]
          exact hpop
        · rfl
      · rfl

theorem times_reapTerminated (ok : Nat → Bool) : ∀ (n : Nat) (s : Kernel), (reapTerminated ok n s).times = s.times
  | 0, s => by
    unfold reapTerminated
    split <;> rfl
  | n + 1, s => by
    unfold reapTerminated
    split
    · rfl
    · rw [times_reapTerminated ok n]
      exact s.times.logged rfl s.log

/-! ## One step -/

/-- How the times change, and who is current and on whose stack the CPU runs. -/
inductive TimesStep (s : Kernel) (act : Act) (s' : Kernel) : Prop
  | same (times : s'.times = s.times) (current : s'.currentTask = s.currentTask) (onStack : s'.onStack = s.onStack)
  /-- `schedule` finds nothing to run. -/
  | idles (times : s'.times = s.times) (current : s'.currentTask = none) (onStack : s'.onStack = s.onStack)
      (head : ∃ k, s.control = .schedule :: k)
  | tick (irq : act = .timerIrq) (flag : s.intFlag = true)
      (times : s'.times = { s.times with tickCount := u64 (s.tickCount + 1) }) (current : s'.currentTask = s.currentTask)
      (onStack : s'.onStack = s.onStack)
  | sleeps (t : Tid) (w : Nat) (asks : act.sleepsUntil s = some w) (late : getUptimeNs s < w)
      (times : s'.times = { s.times with wakeTime := update s.wakeTime t w }) (cur : s.currentTask = some t)
      (current : s'.currentTask = s.currentTask) (onStack : s'.onStack = s.onStack)
  | creates (a : Tid) (free : a ∉ s.tcbs)
      (times : s'.times = { s.times with wakeTime := update s.wakeTime a 0
                                         timeElapsed := update s.timeElapsed a 0 })
      (tcbs : s'.tcbs = a :: s.tcbs) (call : act.creates = true) (current : s'.currentTask = s.currentTask)
      (onStack : s'.onStack = s.onStack)
  /-- `scheduler_time_slice_tick` with a task current: the slice shrinks, or starts again where nobody is ready. -/
  | slice (ok : Nat → Bool) (k : List Frame) (exec : act = .exec ok) (head : s.control = .schedulerTimeSliceTick :: k)
      (n : Nat) (times : s'.times = { s.times with timeSlice := n })
      (rest : n + getNsPerTick s = s.timeSlice ∧ 0 < n ∨ n = timeSliceInNs ∧ s.ready.first = none)
      (current : s'.currentTask = s.currentTask) (onStack : s'.onStack = s.onStack)
  /-- The idle loop ends with the task that was parked in it. -/
  | resumes (times : s'.times = { s.times with timeSlice := timeSliceInNs }) (idle : s.currentTask = none)
      (current : s'.currentTask = some s.onStack) (onStack : s'.onStack = s.onStack)
  | switches (next : Tid)
      (times : s'.times = { s.times.charge s.onStack with timeSlice := timeSliceInNs, switches := s.switches + 1 })
      (current : s'.currentTask = some next) (onStack : s'.onStack = next)

section Steps

variable {s s' : Kernel} {act : Act} {f : Frame} {k : List Frame} {t : Tid}

/-- `ready_pop` returns NULL only where the queue is empty. -/
theorem readyPop_none {s₁ : Kernel} (h : readyPop s = (none, s₁)) : s.ready.first = none := by
  cases hf : s.ready.first with
  | none => rfl
  | some a =>
    have := congrArg Prod.fst h
    simp [readyPop, queuePop, Queue.pop, Kernel.queue, hf] at this

theorem times_contextSwitch {prev : Tid} (next : Tid) (h : s.currentTask = some prev) :
    (contextSwitch next k s).times = { s.times.charge prev with switches := s.switches + 1 } := by
  simp only [contextSwitch, updateTaskTime, h, Kernel.times, Times.charge, Kernel.switches, List.countP_append]
  rfl

theorem times_switchToTask {prev : Tid} (next : Tid) (h : s.currentTask = some prev) (hp : s.postpone = 0) :
    (switchToTask next k s).times =
      { s.times.charge prev with timeSlice := timeSliceInNs, switches := s.switches + 1 } := by
  rw [switchToTask, if_neg (not_not.2 hp)]
  simp only [h]
  generalize hs₁ : (if s.state prev = .running then readyPush (setState s prev .ready) prev else s) = s₁
  have htimes : s₁.times = s.times := by
    rw [← hs₁]
    split
    · exact times_queuePush (setState s prev .ready) .ready prev
    · rfl
  have hcur : s₁.currentTask = some prev := by
    rw [← hs₁]
    split
    · exact (congrArg Core.currentTask (core_queuePush (setState s prev .ready) .ready prev)).trans h
    · exact h
  rw [times_contextSwitch (s := { setState s₁ next .running with timeSlice := timeSliceInNs }) next hcur]
  show ({ ({ s₁.times with timeSlice := timeSliceInNs } : Times).charge prev with switches := s₁.times.switches + 1 } :
    Times) = _
  rw [htimes]
  rfl

/-- `switch_to_task` from the state `s₁`, which differs from `s` in its queues and perhaps in who is current. -/
theorem times_switch {s₁ : Kernel} (next : Tid) (htimes : s₁.times = s.times) (hcur : s₁.currentTask = some s.onStack)
    (hp : s₁.postpone = 0) : TimesStep s act (switchToTask next k s₁) := by
  have hcore := core_switchToTask next k hcur hp
  have hsw : s₁.switches = s.switches := congrArg Times.switches htimes
  refine .switches next ?_ (congrArg Core.currentTask hcore) (congrArg Core.onStack hcore)
  rw [times_switchToTask next hcur hp, htimes, hsw]

theorem times_schedule (hb : Balanced s.core) (hc : s.control = .schedule :: k) : TimesStep s act (schedule k s) := by
  have ho := hb.owes_of hc
  obtain ⟨prev, hcur⟩ := Core.current_of_base ho.of_schedule.1
  have hcur : s.currentTask = some prev := hcur
  have hprev : prev = s.onStack := hb.current prev hcur
  have hpop := times_queuePop s .ready
  have hcore := core_queuePop s .ready
  unfold schedule
  split
  · exact .same rfl rfl rfl
  · rename_i hp
    split
    · rename_i task s₁ heq
      rw [show queuePop s .ready = (some task, s₁) from heq] at hpop hcore
      exact times_switch task hpop ((congrArg Core.currentTask hcore).trans (hprev ▸ hcur))
        ((congrArg Core.postpone hcore).trans (not_not.1 hp))
    · split
      · rename_i hn
        exact absurd (hcur.symm.trans hn) (by simp)
      · split
        · exact .same rfl rfl rfl
        · exact .idles rfl rfl rfl ⟨k, hc⟩

theorem times_idleLoop {parked : Tid} (hb : Balanced s.core) (hc : s.control = .idle parked :: k) :
    TimesStep s act (idleLoop parked k s) := by
  have ho := hb.owes_of hc
  obtain ⟨hbase, -, hp, -⟩ := ho.of_idle
  have hparked : parked = s.onStack := hb.parked parked (by
    show Frame.idle parked ∈ s.control
    rw [hc]
    exact List.mem_cons_self)
  have hidle : s.currentTask = none := by
    cases hcur : s.currentTask with
    | none => rfl
    | some t => exact absurd (hbase.symm.trans (Core.base_of_some hcur)) (by decide)
  subst hparked
  unfold idleLoop
  split
  · exact .same rfl rfl rfl
  · dsimp only
    have hpop := times_queuePop { s with intFlag := false, currentTask := some s.onStack } .ready
    have hcore := core_queuePop { s with intFlag := false, currentTask := some s.onStack } .ready
    split
    · rename_i task s₁ heq
      rw [show queuePop _ .ready = (some task, s₁) from heq] at hpop hcore
      have hcur₁ : s₁.currentTask = some s.onStack := congrArg Core.currentTask hcore
      split
      · exact times_switch task hpop hcur₁ ((congrArg Core.postpone hcore).trans hp)
      · refine .resumes ?_ hidle hcur₁ (congrArg Core.onStack hcore)
        show ({ s₁.times with timeSlice := timeSliceInNs } : Times) = _
        rw [hpop]
        rfl
    · -- the queue was not empty
      rename_i hfirst _ _ heq
      exact absurd (readyPop_none heq) hfirst

theorem times_nanoSleepUntil_late {w : Nat} (hcur : s.currentTask = some t) (hlate : getUptimeNs s < w) :
    (nanoSleepUntil w k s).times = { s.times with wakeTime := update s.wakeTime t w } := by
  have hl : ¬ w ≤ getUptimeNs (lockStuff s) := Nat.not_le.2 hlate
  have hc : (lockStuff s).currentTask = some t := hcur
  simp only [nanoSleepUntil, if_neg hl, hc]
  rw [times_blockTask, times_sleepPush]
  rfl

/-- `nano_sleep_until` in the state `u` that the call comes in with: a system call masks interrupts first. -/
theorem times_nanoSleepUntil {u : Kernel} {w : Nat} (hu : u.times = s.times) (hcu : u.currentTask = s.currentTask)
    (hon : u.onStack = s.onStack) (hcur : s.currentTask = some t) (ha : act.sleepsUntil s = some w) :
    TimesStep s act (nanoSleepUntil w k u) := by
  have hop := opCore_nanoSleepUntil (s := u) (k := k) w (hcu.trans hcur)
  have hup : getUptimeNs u = getUptimeNs s := by rw [← uptime_times, hu, uptime_times]
  by_cases hlate : getUptimeNs s < w
  · refine .sleeps t w ha hlate ?_ hcur (hop.currentTask.trans hcu) (hop.onStack.trans hon)
    rw [times_nanoSleepUntil_late (hcu.trans hcur) (by rw [hup]; exact hlate), hu]
    exact congrArg (fun x : Times => { s.times with wakeTime := update x.wakeTime t w }) hu
  · refine .same ?_ (hop.currentTask.trans hcu) (hop.onStack.trans hon)
    rw [nanoSleepUntil, if_pos (show w ≤ getUptimeNs (lockStuff u) from hup.symm ▸ Nat.not_lt.1 hlate)]
    exact hu

theorem times_schedulerTimeSliceTick {ok : Nat → Bool} (hc : s.control = .schedulerTimeSliceTick :: k) :
    TimesStep s (.exec ok) (schedulerTimeSliceTick k s) := by
  unfold schedulerTimeSliceTick
  dsimp only
  split
  · split
    · split
      · exact .same rfl rfl rfl
      · rename_i hready
        exact .slice ok k rfl hc timeSliceInNs rfl (.inr ⟨rfl, not_not.1 hready⟩) rfl rfl
    · rename_i hlt
      have hlt : ¬ s.timeSlice ≤ getNsPerTick s := hlt
      exact .slice ok k rfl hc (s.timeSlice - getNsPerTick s) rfl (.inl (by omega)) rfl rfl
  · exact .same rfl rfl rfl

theorem times_taskCreateInternal {addr : Option Tid} {stackOk isUser : Bool} {entry : Frame} {cr3 : Nat}
    (hfree : ∀ a, addr = some a → a ∉ s.tcbs) (ha : act.creates = true) :
    TimesStep s act (taskCreateInternal addr stackOk entry cr3 isUser k s) := by
  unfold taskCreateInternal
  split
  · rename_i a
    refine .creates a (hfree a rfl) ?_ rfl ha rfl rfl
    exact Times.logged { s.times with wakeTime := update s.wakeTime a 0
                                      timeElapsed := update s.timeElapsed a 0 } rfl s.log
  · exact .same (s.times.logged rfl s.log) rfl rfl

theorem times_callOp {op : Op} (hcur : s.currentTask = some t) (hi : 0 ≤ s.irqDisable) (hfree : op.addrFree s = true) :
    TimesStep s (.call op) (callOp op k s) := by
  have hop := opCore_callOp (s := s) (k := k) op hcur hi
  have hstay : (callOp op k s).times = s.times → TimesStep s (.call op) (callOp op k s) := fun h =>
    .same h hop.currentTask hop.onStack
  cases op with
  | nanoSleepUntil w => exact times_nanoSleepUntil rfl rfl rfl hcur rfl
  | nanoSleep n => exact times_nanoSleepUntil rfl rfl rfl hcur rfl
  | sleepSeconds n => exact times_nanoSleepUntil rfl rfl rfl hcur rfl
  | createKernelTask addr stackOk =>
    refine times_taskCreateInternal (fun a ha => ?_) rfl
    subst ha
    simpa [Op.addrFree] using hfree
  | createUserTask pml addr stackOk =>
    cases pml with
    | none => exact hstay rfl
    | some pml =>
      refine times_taskCreateInternal (fun a ha => ?_) rfl
      subst ha
      simpa [Op.addrFree] using hfree
  | createSemaphore max addr => cases addr <;> exact hstay rfl
  | acquireSemaphore q =>
    refine hstay ?_
    show (acquireSemaphore q k s).times = _
    unfold acquireSemaphore
    dsimp only
    split
    · rfl
    · split
      · rfl
      · rename_i u _
        rw [times_blockTask]
        exact times_queuePush (lockStuff s) (.waiting q) u
  | releaseSemaphore q =>
    refine hstay ?_
    show (releaseSemaphore q k s).times = _
    have hpop := times_congr (offQueues_semPop (lockStuff s) q)
    unfold releaseSemaphore
    dsimp only
    split
    · rename_i task s₁ heq
      rw [heq] at hpop
      exact (times_unblockTask s₁ task).trans hpop
    · rfl
  | terminateTask => exact hstay (times_terminateTask s k)
  | killTaskByPid pid =>
    refine hstay ?_
    show (killTaskByPid pid k s).times = _
    unfold killTaskByPid
    dsimp only
    split <;> rfl
  | yield => exact hstay rfl

theorem times_killLocked (task : Tid) : (killLocked task k s).times = s.times := by
  unfold killLocked
  split
  · rfl
  · split
    · exact times_terminateTask s _
    · dsimp only
      split
      · rfl
      · show (wakeReaper _).times = _
        rw [times_wakeReaper]
        exact times_leaveQueue (lockStuff s) task

theorem times_execFrame {ok : Nat → Bool} (hb : Balanced s.core) (hc : s.control = f :: k)
    (hs : execFrame ok f k s = some s') : TimesStep s (.exec ok) s' := by
  cases f <;> simp only [execFrame, Option.some.injEq, reduceCtorEq] at hs <;> subst hs
  case schedule => exact times_schedule hb hc
  case idle parked => exact times_idleLoop hb hc
  case schedulerTimeSliceTick => exact times_schedulerTimeSliceTick hc
  case unlockStuff =>
    unfold unlockStuff
    split <;> exact .same rfl rfl rfl
  case wakeReaper =>
    have hcore := core_wakeReaper (hb.locked_wakeReaper hc)
    exact .same (times_wakeReaper s) (congrArg Core.currentTask hcore) (congrArg Core.onStack hcore)
  case killLocked pid task =>
    obtain ⟨t, ht, hi⟩ := hb.outside hc rfl
    have hop := opCore_killLocked (k := k) task ht (Int.le_of_eq hi.symm)
    exact .same (times_killLocked task) hop.currentTask hop.onStack
  case createRelease task =>
    unfold createRelease
    split <;> exact .same rfl rfl rfl
  case createPush task =>
    have hcore := core_queuePush (lockSchedule s) .ready task
    exact .same (times_queuePush (lockSchedule s) .ready task) (congrArg Core.currentTask hcore)
      (congrArg Core.onStack hcore)
  case timerCheckSleepingTasks =>
    have hcore := hb.core_timer hc
    exact .same (times_wakeSleepers _ _ (lockStuff s)) (congrArg Core.currentTask hcore) (congrArg Core.onStack hcore)
  case reapLoop =>
    obtain ⟨t, ht, -⟩ := hb.outside hc rfl
    have hop := opCore_reapAllTasks (k := .reapLoop :: k) ok ht
    refine .same ?_ hop.currentTask hop.onStack
    show (blockTask _ _ _).times = _
    rw [times_blockTask, times_reapTerminated]
    rfl
  all_goals exact .same rfl rfl rfl

theorem times_syscall {num arg : Nat} (hcur : s.currentTask = some t) (hi : 0 ≤ s.irqDisable) :
    TimesStep s (.syscall num arg) (syscall num arg k s) := by
  unfold syscall
  dsimp only
  split
  · have hop := opCore_terminateTask (s := { s with intFlag := false }) (k := .exitLoop :: .syscallReturn 1 :: k) hcur hi
    exact .same (times_terminateTask { s with intFlag := false } _) hop.currentTask hop.onStack
  · exact .same rfl rfl rfl
  · exact times_nanoSleepUntil rfl rfl rfl hcur rfl
  · exact .same rfl rfl rfl

theorem times_step (hb : Balanced s.core) (hs : step s act = some s') : TimesStep s act s' := by
  obtain ⟨ok, f, k, rfl, hc, hs⟩ | ⟨op, k, rfl, hc, hfree, rfl⟩ | ⟨k, rfl, hc, rfl⟩ | ⟨num, arg, k, rfl, hc, rfl⟩ |
    ⟨k, rfl, hc, rfl⟩ | ⟨rfl, hif, rfl⟩ := step_cases hs
  · exact times_execFrame hb hc hs
  · obtain ⟨t, ht, hi⟩ := hb.outside hc rfl
    exact times_callOp ht (Int.le_of_eq hi.symm) hfree
  · obtain ⟨t, ht, hi⟩ := hb.outside hc rfl
    have hop := opCore_terminateTask (k := .exitLoop :: k) ht (Int.le_of_eq hi.symm)
    exact .same (times_terminateTask s _) hop.currentTask hop.onStack
  · obtain ⟨t, ht, hi⟩ := hb.outside hc rfl
    exact times_syscall ht (Int.le_of_eq hi.symm)
  · obtain ⟨t, ht, hi⟩ := hb.outside hc rfl
    have hop := opCore_terminateTask (s := { s with intFlag := false }) (k := .exitLoop :: k) ht (Int.le_of_eq hi.symm)
    exact .same (times_terminateTask { s with intFlag := false } _) hop.currentTask hop.onStack
  · exact .tick rfl hif rfl rfl rfl

/-- Where a step puts the running task to sleep, its `wake_time` is set. -/
theorem wakeTime_sleeps {w : Nat} (hs : step s act = some s') (ha : act.sleepsUntil s = some w)
    (hcur : s.currentTask = some t) (hlate : getUptimeNs s < w) : s'.wakeTime = update s.wakeTime t w := by
  have hsleep : ∀ u k, s' = nanoSleepUntil w k u → u.times = s.times → u.currentTask = s.currentTask →
      s'.wakeTime = update s.wakeTime t w := by
    intro u k he hu hcu
    have hup : getUptimeNs u = getUptimeNs s := by rw [← uptime_times, hu, uptime_times]
    have htimes := times_nanoSleepUntil_late (k := k) (hcu.trans hcur) (by rw [hup]; exact hlate)
    rw [he]
    refine (congrArg Times.wakeTime htimes).trans ?_
    rw [show u.wakeTime = s.wakeTime from congrArg Times.wakeTime hu]
  obtain ⟨ok, f, k, rfl, hc, -⟩ | ⟨op, k, rfl, hc, -, he⟩ | ⟨k, rfl, hc, -⟩ | ⟨num, arg, k, rfl, hc, he⟩ |
    ⟨k, rfl, hc, -⟩ | ⟨rfl, -, -⟩ := step_cases hs
  · cases ha
  · cases op <;> cases ha <;> exact hsleep s _ he rfl rfl
  · cases ha
  · have hnum : num = 4 ∧ u64 (getUptimeNs s + u64 (arg * 1000000)) = w := by
      unfold Act.sleepsUntil at ha
      split at ha <;> simp_all
    have hup : getUptimeNs { s with intFlag := false } = getUptimeNs s := rfl
    unfold syscall at he
    dsimp only at he
    split at he
    · exact absurd hnum.1 (by decide)
    · exact absurd hnum.1 (by decide)
    · rw [nanoSleep, hup, hnum.2] at he
      exact hsleep _ _ he rfl rfl
    · rename_i h4
      exact absurd hnum.1 h4
  · cases ha
  · cases ha

theorem uptime_mono {m n hz : Nat} (hmn : m ≤ n) (h1 : n * 1000 < 2 ^ 64) (h2 : n * 1000 / hz * 1000000 < 2 ^ 64) :
    u64 (u64 (m * 1000) / hz * 1000000) ≤ u64 (u64 (n * 1000) / hz * 1000000) := by
  have hm : m * 1000 ≤ n * 1000 := Nat.mul_le_mul_right 1000 hmn
  have hdiv : m * 1000 / hz * 1000000 ≤ n * 1000 / hz * 1000000 := Nat.mul_le_mul_right _ (Nat.div_le_div_right hm)
  have e : ∀ k, k * 1000 < 2 ^ 64 → k * 1000 / hz * 1000000 < 2 ^ 64 →
      u64 (u64 (k * 1000) / hz * 1000000) = k * 1000 / hz * 1000000 := by
    intro k hk hk'
    rw [u64, u64, Nat.mod_eq_of_lt hk, Nat.mod_eq_of_lt hk']
  rw [e m (Nat.lt_of_le_of_lt hm h1) (Nat.lt_of_le_of_lt hdiv h2), e n h1 h2]
  exact hdiv

theorem uptime_le (hb : Balanced s.core) (hs : step s act = some s') (hclock : act = .timerIrq →
    (s.tickCount + 1) * 1000 < 2 ^ 64 ∧ (s.tickCount + 1) * 1000 / s.channelHz * 1000000 < 2 ^ 64) :
    getUptimeNs s ≤ getUptimeNs s' := by
  have hsame : s'.tickCount = s.tickCount → s'.channelHz = s.channelHz → getUptimeNs s ≤ getUptimeNs s' := by
    intro h1 h2
    rw [getUptimeNs, getUptimeNs, h1, h2]
  cases times_step hb hs with
  | same h | idles h | sleeps _ _ _ _ h | creates _ _ h | slice _ _ _ _ _ h | resumes h | switches _ h =>
    exact hsame (congrArg Times.tickCount h) (congrArg Times.channelHz h)
  | tick irq _ h =>
    obtain ⟨h1, h2⟩ := hclock irq
    have htick : s'.tickCount = s.tickCount + 1 :=
      (congrArg Times.tickCount h).trans (Nat.mod_eq_of_lt (by omega))
    have hhz : s'.channelHz = s.channelHz := congrArg Times.channelHz h
    rw [getUptimeNs, getUptimeNs, htick, hhz]
    exact uptime_mono (Nat.le_succ _) h1 h2

end Steps

end ToastOS.Task
