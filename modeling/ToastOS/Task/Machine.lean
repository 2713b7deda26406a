import ToastOS.Lib.Run
import ToastOS.Task.Kernel

/-!
# The operations of `task.c` and the machine that runs them

Each operation runs up to the point where it calls `schedule()` or leaves its critical section, with the calls
`k` below it on the stack; `exec` finishes the innermost call of the running stack. `step` adds what is not
in the kernel's hands: a kernel task calls an operation or returns, a user task makes a system call or
faults, and the timer interrupts whenever the interrupt flag is set.

Interrupts are off inside a critical section, so a section is one step; between two sections of
`kill_task_by_pid` or of `task_create_internal` the frames `killLocked`, `createInsert`, `createRelease`,
`createPush` are on the stack and the timer may strike.
-/

namespace ToastOS.Task

open ToastOS.Lib (Queue Reach)
open Function

variable {s s' : Kernel} {f : Frame} {k : List Frame}

/-! ## Sleeping -/

def nanoSleepUntil (wakeTimeNs : Nat) (k : List Frame) (s : Kernel) : Kernel :=
  let s := lockStuff s
  if wakeTimeNs ≤ getUptimeNs s then { s with control := .unlockStuff :: k }
  else match s.currentTask with
    | none => { s with stuck := true }
    | some t =>
      blockTask .sleeping (.unlockStuff :: k)
        (sleepPush { s with wakeTime := update s.wakeTime t wakeTimeNs } t)

def nanoSleep (nanoseconds : Nat) (k : List Frame) (s : Kernel) : Kernel :=
  nanoSleepUntil (u64 (getUptimeNs s + nanoseconds)) k s

def sleepSeconds (seconds : Nat) (k : List Frame) (s : Kernel) : Kernel :=
  nanoSleep (u64 (seconds * 1000000000)) k s

/-- The wake-up loop of `timer_check_sleeping_tasks`. -/
def wakeSleepers (now : Nat) : Nat → Kernel → Kernel
  | 0, s => { s with stuck := true }
  | n + 1, s =>
    match s.sleeping.first with
    | none => s
    | some f =>
      if s.wakeTime f ≤ now then
        match sleepPop s with
        | (some task, s') => wakeSleepers now n (unblockTask task s')
        | (none, _) => s
      else s

def timerCheckSleepingTasks (k : List Frame) (s : Kernel) : Kernel :=
  let s := lockStuff s
  { wakeSleepers (getUptimeNs s) s.fuel s with control := .unlockStuff :: k }

def schedulerTimeSliceTick (k : List Frame) (s : Kernel) : Kernel :=
  let s := lockStuff s
  if s.currentTask.isSome then
    if s.timeSlice ≤ getNsPerTick s then
      if s.ready.first ≠ none then { s with control := .schedule :: .unlockStuff :: k }
      else { s with timeSlice := timeSliceInNs, control := .unlockStuff :: k }
    else { s with timeSlice := s.timeSlice - getNsPerTick s, control := .unlockStuff :: k }
  else { s with control := .unlockStuff :: k }

/-! ## Dying and reaping -/

/-- `wake_reaper`: only a parked reaper is woken. -/
def wakeReaper (s : Kernel) : Kernel :=
  match s.terminatorTask with
  | some r => if s.state r = .paused then unblockTask r s else s
  | none => s

/-- Put a task at the head of `terminated_task_list`. -/
def terminatedPush (s : Kernel) (task : Tid) : Kernel :=
  { s with next := update s.next task s.terminated, terminated := some task }

def terminateTask (k : List Frame) (s : Kernel) : Kernel :=
  let s := lockStuff s
  match s.currentTask with
  | none => { s with stuck := true }
  | some t =>
    blockTask .dead (.wakeReaper :: .unlockStuff :: k)
      (unlockSchedule (terminatedPush (lockSchedule s) t))

/-- `kill_task_by_pid` up to its lookup: the rest is `killLocked`. -/
def killTaskByPid (pid : Nat) (k : List Frame) (s : Kernel) : Kernel :=
  let s := unlockSchedule (lockSchedule s)
  match pidTableLookup s.pids pid with
  | none => { s with control := k, rax := -1 }
  | some task => { s with control := .killLocked pid task :: k }

/-- Take a task off the queue its state names. -/
def leaveQueue (task : Tid) (s : Kernel) : Kernel :=
  match s.state task with
  | .ready => readyRemove s task
  | .sleeping => sleepRemove s task
  | .waitingForLock =>
    match s.waitingFor task with
    | some sem => semRemove s sem task
    | none => s
  | _ => s

/-- `kill_task_by_pid` after the lookup: the tests and the locked section. -/
def killLocked (task : Tid) (k : List Frame) (s : Kernel) : Kernel :=
  if s.t0 = some task ∨ s.terminatorTask = some task ∨ s.shellTask = some task then
    { s with control := k, rax := -1 }
  else if s.currentTask = some task then terminateTask (.ret 0 :: k) s
  else
    let s := lockStuff s
    if s.state task = .dead then { s with control := .unlockStuff :: .ret (-1) :: k }
    else
      { wakeReaper (terminatedPush (setState (leaveQueue task s) task .dead) task) with
          control := .unlockStuff :: .ret 0 :: k }

/-- `reap_task`: out of the pid table, the address space and the memory freed, the pid released. Destroying
the address space that is loaded first switches to the kernel's. -/
def reapTask (task : Tid) (nodeOk : Bool) (s : Kernel) : Kernel :=
  { s with
      pids := pidRelease (pidTableRemove s.pids (s.pid task)) (s.pid task) nodeOk
      cr3 := if s.isUser task = true ∧ s.cr3 = s.taskCr3 task then s.kernelCr3 else s.cr3
      tcbs := s.tcbs.erase task
      log := s.log ++ [.reapTask task] }

/-- The reaping loop of `reap_all_tasks`; `ok` are the outcomes of the `kmalloc` in each `pid_release`. -/
def reapTerminated (ok : Nat → Bool) : Nat → Kernel → Kernel
  | 0, s => if s.terminated = none then s else { s with stuck := true }
  | n + 1, s =>
    match s.terminated with
    | none => s
    | some task => reapTerminated ok n (reapTask task (ok n) { s with terminated := s.next task })

/-- The loop body of `reap_all_tasks`. -/
def reapAllTasks (ok : Nat → Bool) (k : List Frame) (s : Kernel) : Kernel :=
  let s := lockStuff s
  blockTask .paused (.unlockStuff :: k) (reapTerminated ok s.fuel s)

/-! ## Creating -/

/-- `task_create_internal` up to the pid: `addr` is what `kmalloc` returned for the TCB, `stackOk` whether
there is a kernel stack; `entry` is what the new task will run. -/
def taskCreateInternal (addr : Option Tid) (stackOk : Bool) (entry : Frame) (cr3 : Nat) (isUser : Bool)
    (k : List Frame) (s : Kernel) : Kernel :=
  match addr, stackOk with
  | some a, true =>
    let r := pidAlloc s.pids
    unlockSchedule (lockSchedule
      { s with
          state := update s.state a .ready
          next := update s.next a none
          wakeTime := update s.wakeTime a 0
          waitingFor := update s.waitingFor a none
          pid := update s.pid a r.1
          timeElapsed := update s.timeElapsed a 0
          isUser := update s.isUser a isUser
          taskCr3 := update s.taskCr3 a cr3
          stack := update s.stack a [.kernelTaskStartup, entry]
          tcbs := a :: s.tcbs
          pids := r.2
          control := .createInsert a :: k
          log := s.log ++ [.taskCreate] })
  | _, _ => { s with control := k, rax := 0, log := s.log ++ [.taskCreate] }

/-- `task_create_internal`: the registration. `growOk` is the outcome of the `kmalloc` of a larger table. -/
def createInsert (task : Tid) (growOk : Bool) (k : List Frame) (s : Kernel) : Kernel :=
  let r := pidTableInsert s.pids (s.pid task) task growOk
  { unlockSchedule (lockSchedule s) with
      pids := r.2, control := if r.1 = 0 then .createPush task :: k else .createRelease task :: k }

/-- `task_create_internal` after a failed registration: `pid_release`, a section of its own unless its
`kmalloc` fails, and the two `kfree`. -/
def createRelease (task : Tid) (nodeOk : Bool) (k : List Frame) (s : Kernel) : Kernel :=
  { (if nodeOk then unlockSchedule (lockSchedule s) else s) with
      pids := pidRelease s.pids (s.pid task) nodeOk, tcbs := s.tcbs.erase task, control := k, rax := 0 }

/-- `task_create_internal`: the new task is queued. -/
def createPush (task : Tid) (k : List Frame) (s : Kernel) : Kernel :=
  { unlockSchedule (readyPush (lockSchedule s) task) with control := k, rax := task }

/-! ## Semaphores -/

/-- `create_semaphore`; `addr` is what `kmalloc` returned. -/
def createSemaphore (max : Int) (addr : Option Sid) (k : List Frame) (s : Kernel) : Kernel :=
  match addr with
  | none => { s with control := k, rax := 0 }
  | some q =>
    { s with
        maxCount := update s.maxCount q max
        currentCount := update s.currentCount q 0
        waiters := update s.waiters q ⟨none, none⟩
        sems := q :: s.sems, control := k, rax := q }

def acquireSemaphore (q : Sid) (k : List Frame) (s : Kernel) : Kernel :=
  let s := lockStuff s
  if s.currentCount q < s.maxCount q then
    { s with currentCount := update s.currentCount q (s.currentCount q + 1)
             control := .unlockStuff :: k }
  else match s.currentTask with
    | none => { s with stuck := true }
    | some t => blockTask .waitingForLock (.unlockStuff :: k) (semPush s q t)

/-- `release_semaphore`: a waiter gets the permit, the count is only touched when there is none. -/
def releaseSemaphore (q : Sid) (k : List Frame) (s : Kernel) : Kernel :=
  let s := lockStuff s
  match semPop s q with
  | (some task, s') => { unblockTask task s' with control := .unlockStuff :: k }
  | (none, _) =>
    { s with currentCount := update s.currentCount q (s.currentCount q - 1)
             control := .unlockStuff :: k }

/-! ## The machine -/

/-- What a kernel task may call. `addr` are blocks `kmalloc` returned. -/
inductive Op
  | yield
  | nanoSleepUntil (wakeTimeNs : Nat)
  | nanoSleep (nanoseconds : Nat)
  | sleepSeconds (seconds : Nat)
  | createSemaphore (max : Int) (addr : Option Sid)
  | acquireSemaphore (q : Sid)
  | releaseSemaphore (q : Sid)
  | terminateTask
  | killTaskByPid (pid : Nat)
  | createKernelTask (addr : Option Tid) (stackOk : Bool)
  /-- `pmlPhys` is the root of the address space that was built, if one was. -/
  | createUserTask (pmlPhys : Option Nat) (addr : Option Tid) (stackOk : Bool)

/-- What can happen next. -/
inductive Act
  /-- The CPU goes on; `ok` are the outcomes of the `kmalloc` calls on the way. -/
  | exec (ok : Nat → Bool)
  | call (op : Op)
  /-- The body of a kernel task returns into `task_exit`. -/
  | taskReturn
  | syscall (num arg : Nat)
  /-- A fault in ring 3. -/
  | fault
  | timerIrq

/-- A block returned by `kmalloc` is not in use. -/
def Op.addrFree (s : Kernel) : Op → Bool
  | .createKernelTask (some a) _ => !s.tcbs.contains a
  | .createUserTask _ (some a) _ => !s.tcbs.contains a
  | .createSemaphore _ (some q) => !s.sems.contains q
  | .acquireSemaphore q => s.sems.contains q
  | .releaseSemaphore q => s.sems.contains q
  | _ => true

/-- A kernel task, with `k` on its stack, calls an operation. -/
def callOp (op : Op) (k : List Frame) (s : Kernel) : Kernel :=
  match op with
  | .yield => yield k s
  | .nanoSleepUntil w => nanoSleepUntil w k s
  | .nanoSleep n => nanoSleep n k s
  | .sleepSeconds n => sleepSeconds n k s
  | .createSemaphore max addr => createSemaphore max addr k s
  | .acquireSemaphore q => acquireSemaphore q k s
  | .releaseSemaphore q => releaseSemaphore q k s
  | .terminateTask => terminateTask k s
  | .killTaskByPid pid => killTaskByPid pid k s
  | .createKernelTask addr stackOk => taskCreateInternal addr stackOk .body s.kernelCr3 false k s
  | .createUserTask none _ _ => { s with control := k, rax := 0 }
  | .createUserTask (some pml) addr stackOk =>
    taskCreateInternal addr stackOk .userTaskLauncher pml true k s

/-- `syscall_entry` and `syscall_handler`: the CPU masks interrupts on the way in. `sys_write`, `sys_getpid` and
unknown numbers do not touch the scheduler. -/
def syscall (num arg : Nat) (k : List Frame) (s : Kernel) : Kernel :=
  let s := { s with intFlag := false }
  match num with
  | 1 => terminateTask (.exitLoop :: .syscallReturn num :: k) s
  | 3 => yield (.syscallReturn num :: k) s
  | 4 => nanoSleep (u64 (arg * 1000000)) (.syscallReturn num :: k) s
  | _ => { s with control := .syscallReturn num :: k }

/-- The timer interrupt: the gate masks interrupts, `timer_handler` counts the tick. -/
def timerIrq (s : Kernel) : Kernel :=
  { s with intFlag := false, tickCount := u64 (s.tickCount + 1)
           control := .timerCheckSleepingTasks :: .schedulerTimeSliceTick :: .irqReturn :: s.control }

/-- The innermost call `f` goes on, with `k` below it. -/
def execFrame (ok : Nat → Bool) (f : Frame) (k : List Frame) (s : Kernel) : Option Kernel :=
  match f with
  | .schedule => some (schedule k s)
  | .idle parked => some (idleLoop parked k s)
  | .unlockSchedule => some { unlockSchedule s with control := k }
  | .unlockStuff => some (unlockStuff k s)
  | .unlockStuffTail => some { unlockStuffTail s with control := k }
  | .kernelTaskStartup => some { unlockSchedule s with control := k }
  | .wakeReaper => some { wakeReaper s with control := k }
  | .killLocked _ task => some (killLocked task k s)
  | .createInsert task => some (createInsert task (ok 0) k s)
  | .createRelease task => some (createRelease task (ok 0) k s)
  | .createPush task => some (createPush task k s)
  | .ret value => some { s with control := k, rax := value }
  | .timerCheckSleepingTasks => some (timerCheckSleepingTasks k s)
  | .schedulerTimeSliceTick => some (schedulerTimeSliceTick k s)
  -- `sti; iretq`, `sysretq` and the `iretq` of `enter_usermode` all return with interrupts on
  | .irqReturn => some { s with intFlag := true, control := k }
  | .syscallReturn _ => some { s with intFlag := true, control := k }
  | .userTaskLauncher => some { s with intFlag := true, control := .userMode :: k }
  | .bootLoop => some (yield (.bootLoop :: k) s)
  | .exitLoop => some (yield (.exitLoop :: k) s)
  | .reapLoop => some (reapAllTasks ok (.reapLoop :: k) s)
  | .userMode => none
  | .body => none

/-- One step, if the action is possible. -/
def step (s : Kernel) (act : Act) : Option Kernel :=
  if s.stuck then none
  else match act, s.control with
    | .exec ok, f :: k => execFrame ok f k s
    | .call op, .body :: k => if op.addrFree s then some (callOp op (.body :: k) s) else none
    | .taskReturn, .body :: k => some (terminateTask (.exitLoop :: k) s)
    | .syscall num arg, .userMode :: k => some (syscall num arg (.userMode :: k) s)
    | .fault, .userMode :: k => some (terminateTask (.exitLoop :: k) { s with intFlag := false })
    | .timerIrq, _ => if s.intFlag then some (timerIrq s) else none
    | _, _ => none

variable {act : Act}

theorem step_cases (h : step s act = some s') :
    (∃ ok f k, act = .exec ok ∧ s.control = f :: k ∧ execFrame ok f k s = some s') ∨
    (∃ op k, act = .call op ∧ s.control = .body :: k ∧ op.addrFree s = true ∧
      s' = callOp op (.body :: k) s) ∨
    (∃ k, act = .taskReturn ∧ s.control = .body :: k ∧ s' = terminateTask (.exitLoop :: k) s) ∨
    (∃ num arg k, act = .syscall num arg ∧ s.control = .userMode :: k ∧
      s' = syscall num arg (.userMode :: k) s) ∨
    (∃ k, act = .fault ∧ s.control = .userMode :: k ∧
      s' = terminateTask (.exitLoop :: k) { s with intFlag := false }) ∨
    (act = .timerIrq ∧ s.intFlag = true ∧ s' = timerIrq s) := by
  unfold step at h
  split at h
  · cases h
  · split at h <;> simp_all

theorem notStuck_of_step (h : step s act = some s') : s.stuck = false := by
  unfold step at h
  split at h
  · cases h
  · rename_i hs
    exact Bool.eq_false_iff.2 hs

theorem step_exec (hs : s.stuck = false) (hc : s.control = f :: k)
    (ok : Nat → Bool) : step s (.exec ok) = execFrame ok f k s := by
  simp only [step, hs, hc, Bool.false_eq_true, if_false]

theorem exec_of_step {ok : Nat → Bool} (hs : step s (.exec ok) = some s')
    (hc : s.control = f :: k) : execFrame ok f k s = some s' :=
  (step_exec (notStuck_of_step hs) hc ok).symm.trans hs

/-- Inside the kernel the CPU goes on, or the timer strikes. -/
theorem exec_or_irq (hs : step s act = some s')
    (hc : s.control = f :: k) (hbody : f ≠ .body) (huser : f ≠ .userMode) :
    (∃ ok, act = .exec ok ∧ execFrame ok f k s = some s') ∨ act = .timerIrq ∧ s.intFlag = true ∧ s' = timerIrq s := by
  obtain ⟨ok, f', k', rfl, hc', hx⟩ | ⟨_, _, -, hc', -⟩ | ⟨_, -, hc', -⟩ | ⟨_, _, _, -, hc', -⟩ | ⟨_, -, hc', -⟩ | hirq :=
    step_cases hs
  · rw [hc] at hc'
    cases hc'
    exact .inl ⟨ok, rfl, hx⟩
  · exact absurd (List.cons.inj (hc.symm.trans hc')).1 hbody
  · exact absurd (List.cons.inj (hc.symm.trans hc')).1 hbody
  · exact absurd (List.cons.inj (hc.symm.trans hc')).1 huser
  · exact absurd (List.cons.inj (hc.symm.trans hc')).1 huser
  · exact .inr hirq

theorem call_of_step {op : Op} (hs : step s (.call op) = some s') :
    ∃ k, s.control = .body :: k ∧ op.addrFree s = true ∧ s' = callOp op (.body :: k) s := by
  rcases step_cases hs with ⟨_, _, _, he, _⟩ | ⟨_, k, he, hc, hfree, hs'⟩ | ⟨_, he, _⟩ | ⟨_, _, _, he, _⟩ |
    ⟨_, he, _⟩ | ⟨he, _⟩ <;> cases he
  exact ⟨k, hc, hfree, hs'⟩

/-! ## After boot -/

/-- What boot leaves open: the addresses of the three TCBs, the timer frequency, the kernel's address space,
and the clock, which runs since `loadIDT`. -/
structure Boot where
  boot : Tid
  shell : Tid
  reaper : Tid
  boot_ne_shell : boot ≠ shell
  boot_ne_reaper : boot ≠ reaper
  shell_ne_reaper : shell ≠ reaper
  hz : Nat
  cr3 : Nat
  tickCount : Nat
  lastTimeCheck : Nat
  timeElapsed : Nat
  timeSlice : Nat

/-- TCBs at 0, 1 and 2, a 100 Hz timer, no tick yet. -/
def Boot.sample : Boot where
  boot := 0
  shell := 1
  reaper := 2
  boot_ne_shell := by decide
  boot_ne_reaper := by decide
  shell_ne_reaper := by decide
  hz := 100
  cr3 := 0
  tickCount := 0
  lastTimeCheck := 0
  timeElapsed := 0
  timeSlice := 0

/-- The state after `init_multitasking` created the shell and the reaper, with the boot task about to enter its
loop. -/
def bootState (b : Boot) : Kernel where
  state := fun t => if t = b.boot then .running else .ready
  next := update (fun _ => none) b.shell (some b.reaper)
  wakeTime := fun _ => 0
  waitingFor := fun _ => none
  pid := fun t => if t = b.shell then 1 else if t = b.reaper then 2 else 0
  timeElapsed := update (fun _ => 0) b.boot b.timeElapsed
  isUser := fun _ => false
  taskCr3 := fun _ => b.cr3
  stack := fun t => if t = b.reaper then [.kernelTaskStartup, .reapLoop] else [.kernelTaskStartup, .body]
  tcbs := [b.reaper, b.shell, b.boot]
  maxCount := fun _ => 0
  currentCount := fun _ => 0
  waiters := fun _ => ⟨none, none⟩
  sems := []
  currentTask := some b.boot
  t0 := some b.boot
  shellTask := some b.shell
  terminatorTask := some b.reaper
  ready := ⟨some b.shell, some b.reaper⟩
  sleeping := ⟨none, none⟩
  terminated := none
  irqDisable := 0
  postpone := 0
  postponedFlag := false
  timeSlice := b.timeSlice
  lastTimeCheck := b.lastTimeCheck
  cpuIdleTime := 0
  pids := ⟨⟨some b.boot :: some b.shell :: some b.reaper :: List.replicate 61 none, 64⟩, [], 3⟩
  tickCount := b.tickCount
  channelHz := b.hz
  intFlag := true
  cr3 := b.cr3
  kernelCr3 := b.cr3
  control := [.bootLoop]
  onStack := b.boot
  rax := 0
  stuck := false
  log := []

/-- The same kernel with a boot task that may call what every other task may. -/
def freeBoot (b : Boot) : Kernel := { bootState b with control := [.body] }

/-- What runs start from. -/
def Starts (b : Boot) (s : Kernel) : Prop := s = bootState b ∨ s = freeBoot b

theorem Starts.eq {b : Boot} (h : Starts b s) :
    ∃ f, (f = .bootLoop ∨ f = .body) ∧ s = { bootState b with control := [f] } := by
  rcases h with rfl | rfl
  · exact ⟨_, .inl rfl, rfl⟩
  · exact ⟨_, .inr rfl, rfl⟩

/-- `n` times: the CPU goes on, and no `kmalloc` fails. -/
def goOn (n : Nat) : List Act := List.replicate n (.exec fun _ => true)

def oneTaskRun : List Act := goOn 3 ++ .call (.createKernelTask (some 3) true) :: goOn 2

/-- The shell makes a user task, and that task runs up to its first instruction. -/
def userTaskRun : List Act :=
  goOn 3 ++ .call (.createUserTask (some 4096) (some 3) true) :: goOn 2 ++ .call .yield :: goOn 12

/-- The shell sleeps, the reaper parks, and then the boot task sleeps too: the CPU idles on the stack of the boot task,
until the tick at which that task is due. -/
def parkedRun : List Act :=
  .call .yield :: goOn 2 ++ .call (.nanoSleepUntil 30000000) :: goOn 11 ++ .call (.nanoSleepUntil 10000000) :: goOn 4 ++
    [.timerIrq]

end ToastOS.Task
