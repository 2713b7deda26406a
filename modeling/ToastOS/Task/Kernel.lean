import ToastOS.Lib.Queue
import ToastOS.Task.Pid

/-!
# The scheduler's state (`task.h`, `task.c`)

One record holds the globals of `task.c` and, field by field, the TCBs and semaphores: `state t` is `t->state`,
`next t` is `t->next` and so on, so that every list of tasks is threaded through the one map `next`.

A kernel stack is the list of the calls still to be finished on it, innermost first (`Frame`); `control` is the
stack the CPU runs on and belongs to the task `onStack`, and `stack t` is what `context_switch` saved for a
suspended `t` behind `t->rsp`. `tcbs` are the TCBs that are allocated; a freed block keeps its last contents
until `kmalloc` hands it out again.

Fields that are not in the source: `stuck` (the CPU cannot go on: a NULL dereference or an endless walk) and
`log`, what happened so far, read by no function.
-/

namespace ToastOS.Task

open ToastOS.Lib (Queue findPrev)
open Function

/-- The address of a `SEMAPHORE`. -/
abbrev Sid := Nat

inductive TaskState
  | ready
  | running
  | blocked
  | waitingForLock
  | paused
  | sleeping
  | dead
  deriving DecidableEq, Repr

/-- Where a call on a kernel stack is, or what it does next. -/
inductive Frame
  /-- `schedule()` is called. -/
  | schedule
  /-- In the `sti; hlt; cli` loop of `schedule`, with its local `parked`. -/
  | idle (parked : Tid)
  | unlockSchedule
  | unlockStuff
  /-- In `unlock_stuff`, after its `schedule()`. -/
  | unlockStuffTail
  | kernelTaskStartup
  | wakeReaper
  /-- In `kill_task_by_pid`, after the lookup. -/
  | killLocked (pid : Nat) (task : Tid)
  /-- In `task_create_internal`, before `pid_table_insert`. -/
  | createInsert (task : Tid)
  /-- In `task_create_internal`, after a failed `pid_table_insert`, before `pid_release`. -/
  | createRelease (task : Tid)
  /-- In `task_create_internal`, before the final `lock_schedule`. -/
  | createPush (task : Tid)
  /-- `return value`. -/
  | ret (value : Int)
  /-- The two calls of `timer_handler` and the return of its IRQ stub (`sti; iretq`). -/
  | timerCheckSleepingTasks
  | schedulerTimeSliceTick
  | irqReturn
  /-- In `syscall_entry`, after `syscall_handler`: the pops, `popq %rsp` and `sysretq`. -/
  | syscallReturn (num : Nat)
  /-- `user_task_launcher`, then ring 3. -/
  | userTaskLauncher
  | userMode
  /-- The body of a kernel task. -/
  | body
  /-- `while (1) yield()` of `init_multitasking`, the loop of `reap_all_tasks`, `for (;;) yield()` after a
  `terminate_task`. -/
  | bootLoop
  | reapLoop
  | exitLoop
  deriving DecidableEq, Repr

/-- In the middle of `kill_task_by_pid` or `task_create_internal`, between two sections. -/
def Frame.isPart : Frame → Bool
  | .killLocked _ _ | .createInsert _ | .createRelease _ | .createPush _ => true
  | _ => false

/-- What is written to the log. -/
inductive Event
  /-- `context_switch` is called with these values of `IRQ_disable_counter` and
  `postpone_task_switches_counter`. -/
  | contextSwitch (prev next : Tid) (irqDisable postpone : Int)
  /-- `switch_to_task` took its postponed early return with this task in hand. -/
  | switchPostponed (next : Tid)
  | taskCreate
  | reapTask (task : Tid)
  deriving DecidableEq, Repr

/-- The state of the scheduler and of the CPU. -/
structure Kernel where
  -- `task_t`
  state : Tid → TaskState
  next : Tid → Option Tid
  wakeTime : Tid → Nat
  waitingFor : Tid → Option Sid
  pid : Tid → Nat
  timeElapsed : Tid → Nat
  isUser : Tid → Bool
  taskCr3 : Tid → Nat
  stack : Tid → List Frame
  tcbs : List Tid
  -- `SEMAPHORE`
  maxCount : Sid → Int
  currentCount : Sid → Int
  waiters : Sid → Queue Tid
  sems : List Sid
  -- globals of `task.c`
  currentTask : Option Tid
  t0 : Option Tid
  shellTask : Option Tid
  terminatorTask : Option Tid
  ready : Queue Tid
  sleeping : Queue Tid
  terminated : Option Tid
  irqDisable : Int
  postpone : Int
  postponedFlag : Bool
  timeSlice : Nat
  lastTimeCheck : Nat
  cpuIdleTime : Nat
  pids : PidReg
  -- `timer.c`
  tickCount : Nat
  channelHz : Nat
  -- CPU
  intFlag : Bool
  cr3 : Nat
  kernelCr3 : Nat
  control : List Frame
  onStack : Tid
  rax : Int
  stuck : Bool
  log : List Event

def timeSliceInNs : Nat := 50000000

def getUptimeNs (s : Kernel) : Nat := u64 (u64 (s.tickCount * 1000) / s.channelHz * 1000000)

def getNsPerTick (s : Kernel) : Nat := 1000000000 / s.channelHz

/-- Fuel for a walk over a list of distinct TCBs. -/
def Kernel.fuel (s : Kernel) : Nat := s.tcbs.length + 1

/-! ## Locks -/

def lockSchedule (s : Kernel) : Kernel :=
  { s with intFlag := false, irqDisable := s.irqDisable + 1 }

/-- `unlock_schedule`: interrupts come back on when the counter reaches zero. -/
def unlockSchedule (s : Kernel) : Kernel :=
  { s with irqDisable := s.irqDisable - 1, intFlag := if s.irqDisable - 1 = 0 then true else s.intFlag }

def lockStuff (s : Kernel) : Kernel :=
  { s with intFlag := false, irqDisable := s.irqDisable + 1, postpone := s.postpone + 1 }

/-- `unlock_stuff` up to its `schedule()`: the outermost one performs a postponed switch. -/
def unlockStuff (k : List Frame) (s : Kernel) : Kernel :=
  if s.postpone - 1 = 0 ∧ s.postponedFlag = true then
    { s with postpone := s.postpone - 1, postponedFlag := false
             control := .schedule :: .unlockStuffTail :: k }
  else { s with postpone := s.postpone - 1, control := .unlockStuffTail :: k }

/-- The rest of `unlock_stuff`. -/
def unlockStuffTail (s : Kernel) : Kernel :=
  { s with irqDisable := s.irqDisable - 1, intFlag := if s.irqDisable - 1 = 0 then true else s.intFlag }

/-! ## Queues -/

/-- The lists with a first and a last pointer. -/
inductive QueueId
  | ready
  | sleeping
  | waiting (sem : Sid)
  deriving DecidableEq

/-- The first and last pointer of a queue. -/
def Kernel.queue (s : Kernel) : QueueId → Queue Tid
  | .ready => s.ready
  | .sleeping => s.sleeping
  | .waiting q => s.waiters q

def Kernel.setQueue (s : Kernel) : QueueId → Queue Tid → Kernel
  | .ready, q => { s with ready := q }
  | .sleeping, q => { s with sleeping := q }
  | .waiting sem, q => { s with waiters := update s.waiters sem q }

/-- Append to a queue: the body of `ready_push` and of `sem_push`. -/
def queuePush (s : Kernel) (i : QueueId) (task : Tid) : Kernel :=
  let r := (s.queue i).push s.next task
  { s with next := r.1 }.setQueue i r.2

/-- Take the head: the body of `ready_pop`, `sleep_pop` and `sem_pop`. -/
def queuePop (s : Kernel) (i : QueueId) : Option Tid × Kernel :=
  let r := (s.queue i).pop s.next
  (r.1, { s with next := r.2.1 }.setQueue i r.2.2)

/-- Remove anywhere: the body of `ready_remove`, `sleep_remove` and `sem_remove`. -/
def queueRemove (s : Kernel) (i : QueueId) (task : Tid) : Kernel :=
  match (s.queue i).remove s.fuel s.next task with
  | some r => { s with next := r.1 }.setQueue i r.2
  | none => { s with stuck := true }

def readyPush (s : Kernel) (task : Tid) : Kernel := queuePush s .ready task

def readyPop (s : Kernel) : Option Tid × Kernel := queuePop s .ready

def readyRemove (s : Kernel) (task : Tid) : Kernel := queueRemove s .ready task

/-- `sleep_push`: the sleeping list is kept in order of `wake_time`. -/
def sleepPush (s : Kernel) (task : Tid) : Kernel :=
  match s.sleeping.insertBy s.fuel s.wakeTime s.next task with
  | some r => { s with next := r.1, sleeping := r.2 }
  | none => { s with stuck := true }

def sleepPop (s : Kernel) : Option Tid × Kernel := queuePop s .sleeping

def sleepRemove (s : Kernel) (task : Tid) : Kernel := queueRemove s .sleeping task

/-- `sem_push`: the task also notes what it waits for. -/
def semPush (s : Kernel) (sem : Sid) (task : Tid) : Kernel :=
  { queuePush s (.waiting sem) task with waitingFor := update s.waitingFor task (some sem) }

def semPop (s : Kernel) (sem : Sid) : Option Tid × Kernel :=
  match queuePop s (.waiting sem) with
  | (some task, s') => (some task, { s' with waitingFor := update s.waitingFor task none })
  | (none, s') => (none, s')

/-- `sem_remove`: `waiting_for` is cleared only where the task was found. -/
def semRemove (s : Kernel) (sem : Sid) (task : Tid) : Kernel :=
  if (s.waiters sem).first = some task then (semPop s sem).2
  else match findPrev s.next task s.fuel (s.waiters sem).first with
    | some (some _) =>
      { queueRemove s (.waiting sem) task with waitingFor := update s.waitingFor task none }
    | _ => queueRemove s (.waiting sem) task

/-! ## Switching -/

def setState (s : Kernel) (task : Tid) (st : TaskState) : Kernel :=
  { s with state := update s.state task st }

def updateTaskTime (s : Kernel) : Kernel :=
  let curTime := getUptimeNs s
  let elapsed := u64 (curTime + 2 ^ 64 - s.lastTimeCheck)
  match s.currentTask with
  | none => { s with lastTimeCheck := curTime, cpuIdleTime := u64 (s.cpuIdleTime + elapsed) }
  | some t =>
    { s with lastTimeCheck := curTime
             timeElapsed := update s.timeElapsed t (u64 (s.timeElapsed t + elapsed)) }

/-- `context_switch`: save the calls `k` still to be finished on the stack of `prev`, take up those of
`next`. With `current_task_TCB` NULL the save faults. -/
def contextSwitch (next : Tid) (k : List Frame) (s : Kernel) : Kernel :=
  match s.currentTask with
  | none => { s with stuck := true }
  | some prev =>
    let stack := update s.stack prev k
    { updateTaskTime s with
        stack := stack, currentTask := some next, onStack := next, control := stack next
        cr3 := s.taskCr3 next
        log := s.log ++ [.contextSwitch prev next s.irqDisable s.postpone] }

def switchToTask (next : Tid) (k : List Frame) (s : Kernel) : Kernel :=
  if s.postpone ≠ 0 then
    { s with postponedFlag := true, control := k, log := s.log ++ [.switchPostponed next] }
  else match s.currentTask with
    | none => { s with stuck := true }
    | some prev =>
      let s := if s.state prev = .running then readyPush (setState s prev .ready) prev else s
      contextSwitch next k { setState s next .running with timeSlice := timeSliceInNs }

/-- `schedule`, up to its idle loop. -/
def schedule (k : List Frame) (s : Kernel) : Kernel :=
  if s.postpone ≠ 0 then { s with postponedFlag := true, control := k }
  else match readyPop s with
    | (some task, s') => switchToTask task k s'
    | (none, _) =>
      match s.currentTask with
      | none => { s with stuck := true }
      | some parked =>
        if s.state parked = .running then { s with control := k }
        else { s with currentTask := none, control := .idle parked :: k, intFlag := true }

/-- One turn of the idle loop of `schedule`, and what follows it once a task is ready. -/
def idleLoop (parked : Tid) (k : List Frame) (s : Kernel) : Kernel :=
  if s.ready.first = none then { s with intFlag := true }
  else
    let s := { s with intFlag := false, currentTask := some parked }
    match readyPop s with
    | (some task, s') =>
      if task ≠ parked then switchToTask task k s'
      else { setState s' task .running with timeSlice := timeSliceInNs, control := k }
    | (none, _) => { s with stuck := true }

/-- `block_task`, up to its `schedule()`. -/
def blockTask (reason : TaskState) (k : List Frame) (s : Kernel) : Kernel :=
  match s.currentTask with
  | none => { s with stuck := true }
  | some t => { setState (lockSchedule s) t reason with control := .schedule :: .unlockSchedule :: k }

def unblockTask (task : Tid) (s : Kernel) : Kernel :=
  unlockSchedule (readyPush (setState (lockSchedule s) task .ready) task)

/-- `yield`, up to its `schedule()`. -/
def yield (k : List Frame) (s : Kernel) : Kernel :=
  { lockSchedule s with control := .schedule :: .unlockSchedule :: k }

end ToastOS.Task
