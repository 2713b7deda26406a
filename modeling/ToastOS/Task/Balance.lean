import ToastOS.Task.Machine

/-!
# Lock balance across context switches

The two counters are global, but who raises one and who lowers it may be different tasks. What makes them
balance is that a stack determines what is still to be paid: `Owes b i p k` says that the calls `k` will lower
`IRQ_disable_counter` by `i - b` and `postpone_task_switches_counter` by `p`, where `b` is what the calls below an
idle loop keep (`1`, and `0` when the CPU is not idle).

* `Core` : the part of the state this is about; queues are not in it, so their operations keep it
  (`core_queuePush`, ...);
* `Suspended k` : a saved stack owes one decrement and nothing else;
* `Balanced` : the counters are what the running stack owes, and every other stack is suspended;
* `balanced_step` : every step keeps it, with interrupts anywhere they are possible.
-/

namespace ToastOS.Task

open ToastOS.Lib (Queue Reach Any)
open Function

/-! ## What a stack owes -/

/-- A call that has one decrement of `IRQ_disable_counter` left. -/
def Frame.paysOne : Frame → Bool
  | .unlockSchedule | .unlockStuffTail | .kernelTaskStartup => true
  | _ => false

/-- Code outside every lock section, other than the interrupt handler. -/
def Frame.outside : Frame → Bool
  | .killLocked _ _ | .createInsert _ | .createRelease _ | .createPush _ | .ret _ | .syscallReturn _
  | .userTaskLauncher | .userMode | .body | .bootLoop | .reapLoop | .exitLoop => true
  | _ => false

/-- Between the lock sections of the timer interrupt. -/
def Frame.inIrq : Frame → Bool
  | .timerCheckSleepingTasks | .schedulerTimeSliceTick | .irqReturn => true
  | _ => false

/-- `Owes b i p k`: running `k` with the counters at `i` and `p` is balanced over the base `b`. -/
inductive Owes : Int → Int → Int → List Frame → Prop
  | nil : Owes 0 0 0 []
  | outside {f k} : f.outside = true → Owes 0 0 0 k → Owes 0 0 0 (f :: k)
  | inIrq {b f k} : f.inIrq = true → Owes b b 0 k → Owes b b 0 (f :: k)
  | startup {k} : Owes 0 0 0 k → Owes 0 1 0 (.kernelTaskStartup :: k)
  | tail {b k} : Owes b b 0 k → Owes b (b + 1) 0 (.unlockStuffTail :: k)
  | unlockStuff {b k} : Owes b b 0 k → Owes b (b + 1) 1 (.unlockStuff :: k)
  | unlockSchedule {k} : Owes 0 0 0 k → Owes 0 1 0 (.unlockSchedule :: k)
  -- inside `lock_stuff`: the lock of `block_task`, and what `terminate_task` does after it
  | unlockInner {k} : Owes 0 1 1 k → Owes 0 2 1 (.unlockSchedule :: k)
  | wakeReaper {k} : Owes 0 1 1 k → Owes 0 1 1 (.wakeReaper :: k)
  -- `schedule()` is called with switches postponed, or with one decrement left
  | postponed {i k} : Owes 0 i 1 k → Owes 0 i 1 (.schedule :: k)
  | schedule {f k} : f.paysOne = true → Owes 0 1 0 (f :: k) → Owes 0 1 0 (.schedule :: f :: k)
  | idle {f k parked} : f.paysOne = true → Owes 0 1 0 (f :: k) → Owes 1 1 0 (.idle parked :: f :: k)

/-- A saved stack: one decrement to pay, then code outside the locks. -/
def Suspended (k : List Frame) : Prop := ∃ f k', k = f :: k' ∧ f.paysOne = true ∧ Owes 0 1 0 k

variable {f : Frame} {k : List Frame} {b i p : Int} {s : Kernel} {prev : Tid}

theorem Owes.rest_of_paysOne (hf : f.paysOne = true) (h : Owes 0 1 0 (f :: k)) : Owes 0 0 0 k := by
  cases h with
  | startup h => exact h
  | tail h => exact h
  | unlockSchedule h => exact h
  | schedule => cases hf

theorem Owes.bounds (h : Owes b i p k) : 0 ≤ b ∧ b ≤ i ∧ i ≤ b + 2 ∧ 0 ≤ p ∧ p ≤ 1 ∧ b + p ≤ i := by
  induction h <;> omega

theorem Owes.no_idle (h : Owes b i p k) (hb : b = 0) (q : Tid) : Frame.idle q ∉ k := by
  induction h with
  | nil => simp
  | @outside f k hf _ ih => cases f <;> simp_all [Frame.outside]
  | @inIrq b f k hf _ ih => cases f <;> simp_all [Frame.inIrq]
  | idle => omega
  | _ => simp_all

theorem Owes.at_base (h : Owes b b p k) : p = 0 := by
  have := h.bounds
  omega

theorem Owes.of_outside (hf : f.outside = true)
    (h : Owes b i p (f :: k)) : b = 0 ∧ i = 0 ∧ p = 0 ∧ Owes 0 0 0 k := by
  cases h with
  | outside _ h => exact ⟨rfl, rfl, rfl, h⟩
  | inIrq hi _ => cases f <;> simp_all [Frame.outside, Frame.inIrq]
  | _ => cases hf

theorem Owes.of_inIrq (hf : f.inIrq = true) (h : Owes b i p (f :: k)) : i = b ∧ p = 0 ∧ Owes b b 0 k := by
  cases h with
  | inIrq _ h => exact ⟨rfl, rfl, h⟩
  | outside ho _ => cases f <;> simp_all [Frame.outside, Frame.inIrq]
  | _ => cases hf

theorem Owes.of_schedule (h : Owes b i p (.schedule :: k)) :
    b = 0 ∧ ((p = 1 ∧ Owes 0 i 1 k) ∨ (i = 1 ∧ p = 0 ∧ Suspended k)) := by
  cases h with
  | outside hf => cases hf
  | inIrq hf => cases hf
  | postponed ho => exact ⟨rfl, .inl ⟨rfl, ho⟩⟩
  | schedule hf ho => exact ⟨rfl, .inr ⟨rfl, rfl, _, _, rfl, hf, ho⟩⟩

theorem Owes.of_idle {q : Tid} (h : Owes b i p (.idle q :: k)) : b = 1 ∧ i = 1 ∧ p = 0 ∧ Suspended k := by
  cases h with
  | outside hf => cases hf
  | inIrq hf => cases hf
  | idle hf ho => exact ⟨rfl, rfl, rfl, _, _, rfl, hf, ho⟩

theorem Owes.of_unlockStuff (h : Owes b i p (.unlockStuff :: k)) : i = b + 1 ∧ p = 1 ∧ Owes b b 0 k := by
  cases h with
  | outside hf => cases hf
  | inIrq hf => cases hf
  | unlockStuff ho => exact ⟨rfl, rfl, ho⟩

theorem Owes.of_unlockStuffTail (h : Owes b i p (.unlockStuffTail :: k)) : i = b + 1 ∧ p = 0 ∧ Owes b b 0 k := by
  cases h with
  | outside hf => cases hf
  | inIrq hf => cases hf
  | tail ho => exact ⟨rfl, rfl, ho⟩

theorem Owes.of_wakeReaper (h : Owes b i p (.wakeReaper :: k)) : b = 0 ∧ i = 1 ∧ p = 1 ∧ Owes 0 1 1 k := by
  cases h with
  | outside hf => cases hf
  | inIrq hf => cases hf
  | wakeReaper ho => exact ⟨rfl, rfl, rfl, ho⟩

/-! ## What the queue operations leave alone -/

/-- The state without its lists, their links and what a task waits for. -/
def Kernel.offQueues (s : Kernel) : Kernel :=
  { s with next := fun _ => none, waitingFor := fun _ => none, waiters := fun _ => ⟨none, none⟩, ready := ⟨none, none⟩
           sleeping := ⟨none, none⟩, terminated := none, stuck := false }

section Queues

variable (s : Kernel) (i : QueueId) (t : Tid) (q : Sid)

theorem offQueues_setQueue (x : Queue Tid) : (s.setQueue i x).offQueues = s.offQueues := by
  cases i <;> rfl

theorem offQueues_queuePush : (queuePush s i t).offQueues = s.offQueues := by
  rw [queuePush, offQueues_setQueue]
  rfl

theorem offQueues_queuePop : (queuePop s i).2.offQueues = s.offQueues := by
  rw [queuePop, offQueues_setQueue]
  rfl

theorem offQueues_queueRemove : (queueRemove s i t).offQueues = s.offQueues := by
  unfold queueRemove
  split
  · rw [offQueues_setQueue]
    rfl
  · rfl

theorem offQueues_sleepPush : (sleepPush s t).offQueues = s.offQueues := by
  unfold sleepPush
  split <;> rfl

theorem offQueues_semPush : (semPush s q t).offQueues = s.offQueues := offQueues_queuePush s (.waiting q) t

theorem offQueues_semPop : (semPop s q).2.offQueues = s.offQueues := by
  have h := offQueues_queuePop s (.waiting q)
  unfold semPop
  split <;> rename_i heq <;> rw [heq] at h <;> exact h

theorem offQueues_semRemove : (semRemove s q t).offQueues = s.offQueues := by
  unfold semRemove
  split
  · exact offQueues_semPop s q
  · split
    · exact offQueues_queueRemove s (.waiting q) t
    · exact offQueues_queueRemove s (.waiting q) t

theorem offQueues_leaveQueue : (leaveQueue t s).offQueues = s.offQueues := by
  unfold leaveQueue
  split
  · exact offQueues_queueRemove s .ready t
  · exact offQueues_queueRemove s .sleeping t
  · split
    · exact offQueues_semRemove s t _
    · rfl
  · rfl

end Queues

/-! ## The part of the state the locks are about -/

/-- Counters, flags, stacks and log. -/
structure Core where
  irqDisable : Int
  postpone : Int
  postponedFlag : Bool
  intFlag : Bool
  currentTask : Option Tid
  onStack : Tid
  control : List Frame
  stack : Tid → List Frame
  log : List Event

def Kernel.core (s : Kernel) : Core :=
  ⟨s.irqDisable, s.postpone, s.postponedFlag, s.intFlag, s.currentTask, s.onStack, s.control, s.stack, s.log⟩

theorem core_congr {s' : Kernel} (h : s'.offQueues = s.offQueues) : s'.core = s.core := by
  have := congrArg Kernel.core h
  exact this

section CoreQueues

variable (s : Kernel) (i : QueueId) (t : Tid) (q : Sid)

@[simp] theorem core_queuePush : (queuePush s i t).core = s.core := core_congr (offQueues_queuePush s i t)

@[simp] theorem core_queuePop : (queuePop s i).2.core = s.core := core_congr (offQueues_queuePop s i)

@[simp] theorem core_sleepPush : (sleepPush s t).core = s.core := core_congr (offQueues_sleepPush s t)

@[simp] theorem core_semPush : (semPush s q t).core = s.core := core_congr (offQueues_semPush s t q)

@[simp] theorem core_semPop : (semPop s q).2.core = s.core := core_congr (offQueues_semPop s q)

@[simp] theorem core_setState (st : TaskState) : (setState s t st).core = s.core := rfl

@[simp] theorem core_terminatedPush : (terminatedPush s t).core = s.core := rfl

@[simp] theorem core_leaveQueue : (leaveQueue t s).core = s.core := core_congr (offQueues_leaveQueue s t)

end CoreQueues

def Core.Locked (c : Core) : Prop := c.intFlag = false ∧ c.irqDisable ≠ 0

def Core.lock (c : Core) : Core := { c with intFlag := false, irqDisable := c.irqDisable + 1 }

def Core.unlock (c : Core) : Core :=
  { c with irqDisable := c.irqDisable - 1, intFlag := if c.irqDisable - 1 = 0 then true else c.intFlag }

theorem core_lockSchedule (s : Kernel) : (lockSchedule s).core = s.core.lock := rfl

theorem core_unlockSchedule (s : Kernel) : (unlockSchedule s).core = s.core.unlock := rfl

variable {c : Core}

/-- An inner section leaves the counters and the interrupt flag alone. -/
theorem Core.unlock_lock (h : c.Locked) : c.lock.unlock = c := by
  obtain ⟨hf, hi⟩ := h
  obtain ⟨i, p, fl, f, cur, stk, k, st, log⟩ := c
  simp only at hf hi
  subst hf
  simp [Core.lock, Core.unlock, hi]

theorem core_unblockTask (t : Tid) (h : s.core.Locked) : (unblockTask t s).core = s.core := by
  rw [unblockTask, core_unlockSchedule, readyPush, core_queuePush, core_setState, core_lockSchedule,
    Core.unlock_lock h]

theorem core_wakeReaper (h : s.core.Locked) : (wakeReaper s).core = s.core := by
  unfold wakeReaper
  split
  · split
    · exact core_unblockTask _ h
    · rfl
  · rfl

theorem core_wakeSleepers (now : Nat) : ∀ (n : Nat) (s : Kernel), s.core.Locked →
    (wakeSleepers now n s).core = s.core
  | 0, _, _ => rfl
  | n + 1, s, h => by
    have hp : (sleepPop s).2.core = s.core := core_queuePop s .sleeping
    unfold wakeSleepers
    split
    · rfl
    · split
      · split
        · rename_i s' heq
          rw [heq] at hp
          have hl : s'.core.Locked := by rw [hp]; exact h
          have hu := core_unblockTask ‹Tid› hl
          rw [core_wakeSleepers now n _ (by rw [hu]; exact hl), hu, hp]
        · rfl
      · rfl

/-! ## The invariant -/

/-- `context_switch` is called with the counters at 1 and 0; the postponed early return of `switch_to_task` is not
taken. -/
def Event.Lawful : Event → Prop
  | .contextSwitch _ _ irqDisable postpone => irqDisable = 1 ∧ postpone = 0
  | .switchPostponed _ => False
  | _ => True

/-- What the calls below the idle loop keep of `IRQ_disable_counter`. -/
def Core.base (c : Core) : Int := if c.currentTask = none then 1 else 0

/-- Go on with the calls `k`. -/
def Core.goto (c : Core) (k : List Frame) : Core := { c with control := k }

def Core.lockStuff (c : Core) : Core :=
  { c with intFlag := false, irqDisable := c.irqDisable + 1, postpone := c.postpone + 1 }

structure Balanced (c : Core) : Prop where
  owes : Owes c.base c.irqDisable c.postpone c.control
  intFlag : c.intFlag = true → c.irqDisable = c.base
  flag : c.postponedFlag = true → c.postpone = 1 ∧ c.currentTask ≠ none
  current : ∀ t, c.currentTask = some t → t = c.onStack
  parked : ∀ p, .idle p ∈ c.control → p = c.onStack
  suspended : ∀ t, t ≠ c.onStack → Suspended (c.stack t)
  log : ∀ e ∈ c.log, e.Lawful

theorem Balanced.owes_of (h : Balanced s.core) (hc : s.control = f :: k) :
    Owes s.core.base s.irqDisable s.postpone (f :: k) :=
  hc ▸ h.owes

/-- A step that stays on its stack: only what the new calls owe and the two flags are to be checked. -/
theorem Balanced.move (h : Balanced c) {fl f : Bool}
    (ho : Owes c.base i p k) (hf : f = true → i = c.base)
    (hfl : fl = true → p = 1 ∧ c.currentTask ≠ none) (hk : ∀ q, .idle q ∈ k → .idle q ∈ c.control) :
    Balanced { c with irqDisable := i, postpone := p, postponedFlag := fl, intFlag := f, control := k } :=
  ⟨ho, hf, hfl, h.current, fun q hq => h.parked q (hk q hq), h.suspended, h.log⟩

theorem Core.base_of_some {t : Tid} (h : c.currentTask = some t) : c.base = 0 := by
  simp [Core.base, h]

theorem Core.current_of_base (h : c.base = 0) : ∃ t, c.currentTask = some t := by
  cases hc : c.currentTask with
  | none => simp [Core.base, hc] at h
  | some t => exact ⟨t, rfl⟩

theorem Balanced.flag_of_base (h : Balanced c) (hi : c.irqDisable = c.base) :
    c.postpone = 0 ∧ c.postponedFlag = false := by
  have hp : c.postpone = 0 := by
    have ho := h.owes
    rw [hi] at ho
    exact ho.at_base
  refine ⟨hp, Bool.eq_false_iff.2 fun hfl => ?_⟩
  have := (h.flag hfl).1
  omega

theorem Balanced.pop_outside (h : Balanced c) (hc : c.control = f :: k)
    (hf : f.outside = true) : c.base = 0 ∧ c.irqDisable = 0 ∧ Balanced (c.goto k) := by
  have ho := h.owes
  rw [hc] at ho
  obtain ⟨hb, hi, hp, hk⟩ := ho.of_outside hf
  refine ⟨hb, hi, ⟨?_, h.intFlag, h.flag, h.current, fun q hq => h.parked q ?_, h.suspended, h.log⟩⟩
  · change Owes c.base c.irqDisable c.postpone k
    rw [hb, hi, hp]; exact hk
  · rw [hc]; exact List.mem_cons_of_mem _ hq

/-- Outside locked sections a task is running, and the counter is zero. -/
theorem Balanced.outside (h : Balanced c) (hc : c.control = f :: k)
    (hf : f.outside = true) : ∃ t, c.currentTask = some t ∧ c.irqDisable = 0 := by
  obtain ⟨hbase, hi, -⟩ := h.pop_outside hc hf
  obtain ⟨t, ht⟩ := Core.current_of_base hbase
  exact ⟨t, ht, hi⟩

theorem Balanced.pop_inIrq (h : Balanced c) (hc : c.control = f :: k)
    (hf : f.inIrq = true) : c.irqDisable = c.base ∧ Balanced (c.goto k) := by
  have ho := h.owes
  rw [hc] at ho
  obtain ⟨hi, hp, hk⟩ := ho.of_inIrq hf
  refine ⟨hi, ⟨?_, h.intFlag, h.flag, h.current, fun q hq => h.parked q ?_, h.suspended, h.log⟩⟩
  · change Owes c.base c.irqDisable c.postpone k
    rw [hi, hp]; exact hk
  · rw [hc]; exact List.mem_cons_of_mem _ hq

theorem Balanced.push_outside (h : Balanced (c.goto k))
    (hf : f.outside = true) (hb : c.base = 0) (hi : c.irqDisable = 0) : Balanced (c.goto (f :: k)) := by
  have hp := (h.flag_of_base (hi.trans hb.symm)).1
  refine h.move (k := f :: k) ?_ h.intFlag h.flag fun q hq => ?_
  · have ho : Owes c.base c.irqDisable c.postpone k := h.owes
    rw [hb, hi, show c.postpone = 0 from hp] at ho
    change Owes c.base c.irqDisable c.postpone _
    rw [hb, hi, show c.postpone = 0 from hp]
    exact .outside hf ho
  · rcases List.mem_cons.1 hq with rfl | hq
    · cases hf
    · exact hq

/-! ## Entering and leaving the sections -/

/-- `lock_stuff` where nothing is locked, with its `unlock_stuff` to come. -/
theorem Balanced.lockStuff (h : Balanced (c.goto k)) (hi : c.irqDisable = c.base) :
    Balanced (c.lockStuff.goto (.unlockStuff :: k)) := by
  obtain ⟨hp, hfl⟩ := h.flag_of_base hi
  have hp : c.postpone = 0 := hp
  have hfl : c.postponedFlag = false := hfl
  refine h.move (i := c.irqDisable + 1) (p := c.postpone + 1) ?_ (fun hf => by cases hf)
    (fun hf => Bool.noConfusion (hfl.symm.trans hf)) fun q hq => ?_
  · have ho : Owes c.base c.irqDisable c.postpone k := h.owes
    rw [hi, hp] at ho
    rw [hi, hp]; exact .unlockStuff ho
  · simpa [Core.goto] using hq

theorem Balanced.block (h : Balanced (c.goto k)) (hb : c.base = 0) (hi : c.irqDisable = 1) (hp : c.postpone = 1) :
    Balanced (c.lock.goto (.schedule :: .unlockSchedule :: k)) := by
  refine h.move (i := c.irqDisable + 1) ?_ (fun hf => by cases hf) h.flag fun q hq => ?_
  · have ho : Owes c.base c.irqDisable c.postpone k := h.owes
    rw [hb, hi, hp] at ho
    change Owes c.base (c.irqDisable + 1) c.postpone _
    rw [hb, hi, hp]; exact .postponed (.unlockInner ho)
  · simpa [Core.goto] using hq

/-- `lock_schedule(); schedule(); unlock_schedule();` where nothing is locked. -/
theorem Balanced.yield (h : Balanced (c.goto k)) (hb : c.base = 0) (hi : c.irqDisable = 0) :
    Balanced (c.lock.goto (.schedule :: .unlockSchedule :: k)) := by
  obtain ⟨hp, hfl⟩ := h.flag_of_base (hi.trans hb.symm)
  have hp : c.postpone = 0 := hp
  refine h.move (i := c.irqDisable + 1) ?_ (fun hf => by cases hf) h.flag fun q hq => ?_
  · have ho : Owes c.base c.irqDisable c.postpone k := h.owes
    rw [hb, hi, hp] at ho
    change Owes c.base (c.irqDisable + 1) c.postpone _
    rw [hb, hi, hp]; exact .schedule rfl (.unlockSchedule ho)
  · simpa [Core.goto] using hq

/-- A whole section of `lock_schedule` where nothing is locked turns interrupts on. -/
theorem Balanced.wholeSection (h : Balanced (c.goto k)) (hb : c.base = 0) (hi : c.irqDisable = 0) :
    Balanced (c.lock.unlock.goto k) := by
  refine h.move (i := c.irqDisable + 1 - 1) ?_ (fun _ => ?_) h.flag fun q hq => hq
  · change Owes c.base (c.irqDisable + 1 - 1) c.postpone k
    rw [Int.add_sub_cancel]; exact h.owes
  · change c.irqDisable + 1 - 1 = c.base
    rw [hi, hb]; rfl

/-! ## Switching -/

@[simp] theorem core_updateTaskTime (s : Kernel) : (updateTaskTime s).core = s.core := by
  cases h : s.currentTask with
  | none => simp only [updateTaskTime, h, Kernel.core]
  | some t => simp only [updateTaskTime, h, Kernel.core]

/-- `context_switch` from `prev` to `next`, the calls `k` saved. -/
def Core.switch (c : Core) (prev next : Tid) (k : List Frame) : Core :=
  { c with
      stack := update c.stack prev k, currentTask := some next, onStack := next
      control := update c.stack prev k next
      log := c.log ++ [.contextSwitch prev next c.irqDisable c.postpone] }

theorem core_contextSwitch (prev next : Tid) (k : List Frame)
    (h : s.currentTask = some prev) : (contextSwitch next k s).core = s.core.switch prev next k := by
  have hu := core_updateTaskTime s
  simp only [Kernel.core, Core.mk.injEq] at hu
  simp only [contextSwitch, h, Kernel.core, hu, Core.switch]

theorem core_switchToTask (next : Tid) (k : List Frame) (h : s.currentTask = some prev)
    (hp : s.postpone = 0) : (switchToTask next k s).core = s.core.switch prev next k := by
  rw [switchToTask, if_neg (not_not.2 hp)]
  simp only [h]
  generalize hs1 : (if s.state prev = .running then readyPush (setState s prev .ready) prev else s) = s1
  have hc : s1.core = s.core := by
    rw [← hs1]
    split
    · rw [readyPush, core_queuePush, core_setState]
    · rfl
  refine (core_contextSwitch prev next k ?_).trans ?_
  · exact (congrArg Core.currentTask hc).trans h
  · exact congrArg (fun c => Core.switch c prev next k) hc

theorem core_readyPop {s' : Kernel} {o : Option Tid} (h : readyPop s = (o, s')) : s'.core = s.core := by
  have := core_queuePop s .ready
  rw [readyPop] at h
  rwa [h] at this

/-- `schedule()` with switches postponed only takes a note. -/
theorem core_schedule_postponed (k : List Frame) (hp : s.postpone ≠ 0) :
    (schedule k s).core = { s.core with postponedFlag := true, control := k } := by
  rw [schedule, if_pos hp]
  rfl

theorem core_schedule (k : List Frame) (h : s.currentTask = some prev)
    (hp : s.postpone = 0) :
    (schedule k s).core = s.core.goto k ∨
    (schedule k s).core = { s.core with currentTask := none, control := .idle prev :: k, intFlag := true } ∨
    ∃ next, (schedule k s).core = s.core.switch prev next k := by
  rw [schedule, if_neg (not_not.2 hp)]
  split
  · rename_i task s' heq
    have hcore := core_readyPop heq
    refine .inr (.inr ⟨task, ?_⟩)
    rw [core_switchToTask task k ((congrArg Core.currentTask hcore).trans h)
      ((congrArg Core.postpone hcore).trans hp), hcore]
  · split
    · rename_i hnone
      exact absurd (h.symm.trans hnone) (Option.some_ne_none _)
    · rename_i parked hcur
      cases Option.some.inj (h.symm.trans hcur)
      split
      · exact .inl rfl
      · exact .inr (.inl rfl)

/-- One turn of the idle loop: wait on, take up the parked task again, or switch to another. -/
theorem core_idleLoop (parked : Tid) (k : List Frame) (hp : s.postpone = 0) :
    (idleLoop parked k s).core = { s.core with intFlag := true } ∨
    (idleLoop parked k s).core = { s.core with intFlag := false, currentTask := some parked, control := k } ∨
    ∃ next, (idleLoop parked k s).core =
      Core.switch { s.core with intFlag := false, currentTask := some parked } parked next k := by
  unfold idleLoop
  split
  · exact .inl rfl
  · dsimp only
    split
    · rename_i task s' heq
      have hcore := core_readyPop heq
      split
      · refine .inr (.inr ⟨task, ?_⟩)
        rw [core_switchToTask task k (congrArg Core.currentTask hcore) ((congrArg Core.postpone hcore).trans hp),
          hcore]
        rfl
      · refine .inr (.inl ?_)
        show s'.core.goto k = _
        rw [hcore]
        rfl
    · -- `first_ready_task` was not NULL
      rename_i hne _ s' heq
      refine absurd heq ?_
      cases hr : s.ready.first with
      | none => exact absurd hr hne
      | some t => simp [readyPop, queuePop, Kernel.queue, Queue.pop, hr]

/-- The calls `k` that are saved and the stack that is taken up owe the same decrement. -/
theorem Balanced.switch (next : Tid) (h : Balanced (c.goto k))
    (hk : Suspended k) (hprev : c.currentTask = some prev) (hi : c.irqDisable = 1) (hp : c.postpone = 0) :
    Balanced (c.switch prev next k) := by
  have hb : c.base = 0 := Core.base_of_some hprev
  have hon : prev = c.onStack := h.current prev hprev
  have hstack : ∀ t, (t = prev ∨ t ≠ c.onStack) → Suspended (update c.stack prev k t) := by
    intro t ht
    by_cases htp : t = prev
    · rw [htp, update_self]; exact hk
    · rw [update_of_ne htp]
      exact h.suspended t (ht.resolve_left htp)
  obtain ⟨f, k', hfk, hf, ho⟩ := hstack next (by rw [hon]; exact Decidable.em _)
  refine ⟨?_, ?_, ?_, ?_, ?_, ?_, ?_⟩
  · show Owes 0 c.irqDisable c.postpone _
    rw [hi, hp]; exact ho
  · intro hif
    have : c.irqDisable = c.base := h.intFlag hif
    omega
  · intro hfl
    have : c.postpone = 1 := (h.flag hfl).1
    omega
  · intro t ht
    exact (Option.some.inj ht).symm
  · intro q hq
    exact absurd hq (ho.no_idle rfl q)
  · intro t _
    exact hstack t (by rw [hon]; exact Decidable.em _)
  · intro e he
    rcases List.mem_append.1 he with he | he
    · exact h.log e he
    · rw [List.mem_singleton.1 he]; exact ⟨hi, hp⟩

theorem Balanced.goto_of_owes (h : Balanced c) (hc : c.control = f :: k)
    (ho : Owes c.base c.irqDisable c.postpone k) : Balanced (c.goto k) := by
  refine h.move (i := c.irqDisable) (p := c.postpone) ho h.intFlag h.flag ?_
  intro q hq
  rw [hc]; exact List.mem_cons_of_mem _ hq

theorem balanced_schedule (h : Balanced s.core) (hc : s.control = .schedule :: k) :
    Balanced (schedule k s).core := by
  have ho := h.owes_of hc
  obtain ⟨hbase, ⟨hp, hk⟩ | ⟨hi, hp, hk⟩⟩ := ho.of_schedule
  · obtain ⟨t, ht⟩ := Core.current_of_base hbase
    have hgo : Balanced (s.core.goto k) := by
      apply h.goto_of_owes hc
      show Owes s.core.base s.irqDisable s.postpone k
      rw [hbase, hp]; exact hk
    rw [core_schedule_postponed k (by omega)]
    refine ⟨hgo.owes, hgo.intFlag, fun _ => ⟨hp, ?_⟩, hgo.current, hgo.parked, hgo.suspended, hgo.log⟩
    exact fun hn => Option.some_ne_none t (ht.symm.trans hn)
  · obtain ⟨prev, hcur⟩ := Core.current_of_base hbase
    obtain ⟨f, k', rfl, hf, hof⟩ := hk
    have hgo : Balanced (s.core.goto (f :: k')) := by
      apply h.goto_of_owes hc
      show Owes s.core.base s.irqDisable s.postpone _
      rw [hbase, hi, hp]; exact hof
    rcases core_schedule (f :: k') hcur hp with hcore | hcore | ⟨next, hcore⟩ <;> rw [hcore]
    · exact hgo
    · -- the CPU goes idle: the calls below keep their one decrement as the base
      refine ⟨?_, fun _ => hi, ?_, fun t ht => (by cases ht), ?_, h.suspended, h.log⟩
      · show Owes 1 s.irqDisable s.postpone _
        rw [hi, hp]; exact .idle hf hof
      · intro hfl
        have : s.postpone = 1 := (h.flag hfl).1
        omega
      · intro q hq
        rcases List.mem_cons.1 hq with hq | hq
        · cases hq; exact h.current _ hcur
        · exact absurd hq (hof.no_idle rfl q)
    · exact hgo.switch next ⟨f, k', rfl, hf, hof⟩ hcur hi hp

theorem Balanced.parked_onStack {parked : Tid} (h : Balanced c)
    (hc : c.control = .idle parked :: k) : parked = c.onStack := by
  apply h.parked parked
  rw [hc]; exact List.mem_cons_self

theorem balanced_idleLoop {parked : Tid} (h : Balanced s.core)
    (hc : s.control = .idle parked :: k) : Balanced (idleLoop parked k s).core := by
  have ho := h.owes_of hc
  obtain ⟨hbase, hi, hp, hk⟩ := ho.of_idle
  have hof : Owes 0 1 0 k := hk.choose_spec.choose_spec.2.2
  have hnof : s.postponedFlag = false := (h.flag_of_base (hi.trans hbase.symm)).2
  -- `current_task_TCB = parked`: the stack is a running one again
  have hgo : Balanced (Core.goto { s.core with intFlag := false, currentTask := some parked } k) := by
    refine ⟨?_, fun hf => (by cases hf), fun hfl => Bool.noConfusion (hnof.symm.trans hfl), ?_,
      fun q hq => absurd hq (hof.no_idle rfl q), h.suspended, h.log⟩
    · show Owes 0 s.irqDisable s.postpone _
      rw [hi, hp]; exact hof
    · intro t ht
      rw [← Option.some.inj ht]; exact h.parked_onStack hc
  rcases core_idleLoop parked k hp with hcore | hcore | ⟨next, hcore⟩ <;> rw [hcore]
  · exact ⟨h.owes, fun _ => hi.trans hbase.symm, h.flag, h.current, h.parked, h.suspended, h.log⟩
  · exact hgo
  · exact hgo.switch next hk rfl hi hp

end ToastOS.Task
