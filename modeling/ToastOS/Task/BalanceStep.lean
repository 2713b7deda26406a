import ToastOS.Task.Balance

/-!
# Every step keeps the locks balanced

* `OpCore new k c c'` : what an operation made with the calls `k` to come back to can leave of `c`. Each operation of
  `task.c` is unfolded once, in its `opCore_` lemma, and what is known about operations is read off `OpCore`;
* `OpCore.balanced`, `balanced_step`, `balanced_of_reach` : operations, steps and runs keep the balance;
* `locks_balanced_across_switches` : what this says about the counters.
-/

namespace ToastOS.Task

open ToastOS.Lib (Queue Reach Any)
open Function

/-! ## The unlocking calls -/

theorem Owes.pay {b i p : Int} {f : Frame} {k : List Frame} (hf : f.paysOne = true) (h : Owes b i p (f :: k)) :
    Owes b (i - 1) p k := by
  cases h with
  | startup h => exact h
  | tail h => rw [Int.add_sub_cancel]; exact h
  | unlockSchedule h => exact h
  | unlockInner h => exact h
  | outside ho => cases f <;> simp_all [Frame.outside, Frame.paysOne]
  | inIrq ho => cases f <;> simp_all [Frame.inIrq, Frame.paysOne]
  | _ => cases hf

/-- One decrement is paid; interrupts come back on only at the base. -/
theorem Balanced.pay {c : Core} {f : Frame} {k : List Frame} (h : Balanced c) (hc : c.control = f :: k)
    (hf : f.paysOne = true) : Balanced (c.unlock.goto k) := by
  have ho : Owes c.base (c.irqDisable - 1) c.postpone k := Owes.pay hf (hc ▸ h.owes)
  have hle := ho.bounds
  refine h.move ho (fun hif => ?_) h.flag fun q hq => hc ▸ List.mem_cons_of_mem _ hq
  have hif : (if c.irqDisable - 1 = 0 then true else c.intFlag) = true := hif
  change c.irqDisable - 1 = c.base
  split at hif
  · omega
  · have := h.intFlag hif
    omega

theorem balanced_unlockStuff {s : Kernel} {k : List Frame} (h : Balanced s.core)
    (hc : s.control = .unlockStuff :: k) : Balanced (unlockStuff k s).core := by
  have ho := h.owes_of hc
  obtain ⟨hi, hp, hk⟩ := ho.of_unlockStuff
  have hsub : ∀ q, Frame.idle q ∈ k → Frame.idle q ∈ s.core.control := by
    intro q hq
    show _ ∈ s.control
    rw [hc]; exact List.mem_cons_of_mem _ hq
  have hp0 : s.postpone - 1 = 0 := by omega
  unfold unlockStuff
  split
  · rename_i hcond
    -- a pending switch was requested by a running task, so this is not the handler above an idle loop
    obtain ⟨t, ht⟩ := Option.ne_none_iff_exists'.1 (h.flag hcond.2).2
    have hbase : s.core.base = 0 := Core.base_of_some ht
    refine h.move (i := s.irqDisable) (p := s.postpone - 1) ?_ h.intFlag (fun hf => by cases hf) ?_
    · rw [hbase] at hi hk
      rw [hbase, hp0, hi]
      exact .schedule rfl (.tail hk)
    · intro q hq
      exact hsub q (by simpa using hq)
  · rename_i hcond
    refine h.move (i := s.irqDisable) (p := s.postpone - 1) ?_ h.intFlag ?_ ?_
    · rw [hp0, hi]; exact .tail hk
    · intro hfl
      exact absurd ⟨hp0, hfl⟩ hcond
    · intro q hq
      exact hsub q (by simpa using hq)

theorem Balanced.locked {c : Core} (h : Balanced c) (hi : c.irqDisable ≠ c.base) (h0 : c.irqDisable ≠ 0) :
    c.Locked :=
  ⟨Bool.eq_false_iff.2 fun hif => hi (h.intFlag hif), h0⟩

theorem Balanced.locked_wakeReaper {c : Core} {k : List Frame} (h : Balanced c)
    (hc : c.control = .wakeReaper :: k) : c.Locked := by
  obtain ⟨hbase, hi, -, -⟩ := Owes.of_wakeReaper (hc ▸ h.owes)
  exact h.locked (by omega) (by omega)

theorem balanced_wakeReaper {s : Kernel} {k : List Frame} (h : Balanced s.core)
    (hc : s.control = .wakeReaper :: k) : Balanced ({ wakeReaper s with control := k } : Kernel).core := by
  have ho := h.owes_of hc
  obtain ⟨hbase, hi, hp, hk⟩ := ho.of_wakeReaper
  show Balanced ((wakeReaper s).core.goto k)
  rw [core_wakeReaper (h.locked_wakeReaper hc)]
  apply h.goto_of_owes hc
  show Owes s.core.base s.irqDisable s.postpone k
  rw [hbase, hi, hp]; exact hk

/-! ## What an operation leaves -/

/-- What an operation that is made with the calls `k` to come back to can leave of `c`: it is over, or it has been
through one section, perhaps with the frame `new` for the sections to come, or it holds a lock and the rest is on the
stack. -/
inductive OpCore : Option Frame → List Frame → Core → Core → Prop
  | ends {k c} : OpCore none k c (c.goto k)
  | through {k c} : OpCore none k c (c.lock.unlock.goto k)
  | part {k c f} : f.isPart = true → OpCore (some f) k c (c.lock.unlock.goto (f :: k))
  | yields {k c} : OpCore none k c (c.lock.goto (.schedule :: .unlockSchedule :: k))
  | locked {k c} : OpCore none k c (c.lockStuff.goto (.unlockStuff :: k))
  | blocks {k c} : OpCore none k c (c.lockStuff.lock.goto (.schedule :: .unlockSchedule :: .unlockStuff :: k))
  | dies {k c} :
      OpCore none k c (c.lockStuff.lock.goto (.schedule :: .unlockSchedule :: .wakeReaper :: .unlockStuff :: k))
  | returns {new k c c' v} : OpCore new (.ret v :: k) c c' → OpCore new k c c'
  | creates {k c c' a entry} : entry = .body ∨ entry = .userTaskLauncher →
      OpCore (some (.createInsert a)) k { c with stack := update c.stack a [.kernelTaskStartup, entry]
                                                 log := c.log ++ [.taskCreate] } c' →
      OpCore (some (.createInsert a)) k c c'
  | logs {new k c c' l} : (∀ e ∈ l, e.Lawful) → OpCore new k { c with log := c.log ++ l } c' → OpCore new k c c'

/-- The frame a call leaves when it ends between two of its sections. -/
def Op.leaves (s : Kernel) : Op → Option Frame
  | .killTaskByPid pid => (pidTableLookup s.pids pid).map (.killLocked pid)
  | .createKernelTask (some a) true => some (.createInsert a)
  | .createUserTask (some _) (some a) true => some (.createInsert a)
  | _ => none

theorem core_blockTask {s : Kernel} {t : Tid} (reason : TaskState) (k : List Frame) (h : s.currentTask = some t) :
    (blockTask reason k s).core = s.core.lock.goto (.schedule :: .unlockSchedule :: k) := by
  simp only [blockTask, h]; rfl

theorem Core.locked_lockStuff {c : Core} (hi : 0 ≤ c.irqDisable) : c.lockStuff.Locked := by
  refine ⟨rfl, ?_⟩
  show c.irqDisable + 1 ≠ 0
  omega

section Operations

variable {s : Kernel} {k : List Frame} {t : Tid}

/-- `lock_stuff` and a call of `block_task`; the queue operations in between do not matter. -/
theorem opCore_lockBlock {s1 : Kernel} (reason : TaskState) (ht : s.currentTask = some t)
    (hs1 : s1.core = s.core.lockStuff) : OpCore none k s.core (blockTask reason (.unlockStuff :: k) s1).core := by
  have ht1 : s1.currentTask = some t := (congrArg Core.currentTask hs1).trans ht
  rw [core_blockTask reason _ ht1, hs1]
  exact .blocks

theorem core_nanoSleepUntil (w : Nat) (ht : s.currentTask = some t) :
    (nanoSleepUntil w k s).core = s.core.lockStuff.goto (.unlockStuff :: k) ∨
    (nanoSleepUntil w k s).core =
      s.core.lockStuff.lock.goto (.schedule :: .unlockSchedule :: .unlockStuff :: k) := by
  unfold nanoSleepUntil
  dsimp only
  split
  · exact .inl rfl
  · split
    · rename_i hnone
      exact absurd (ht.symm.trans hnone) (Option.some_ne_none t)
    · rename_i u hu
      refine .inr ((core_blockTask .sleeping _ (t := t) ?_).trans ?_)
      · exact (congrArg Core.currentTask (core_sleepPush _ _)).trans ht
      · exact congrArg (fun c => (Core.lock c).goto (.schedule :: .unlockSchedule :: .unlockStuff :: k))
          (core_sleepPush _ _)

theorem opCore_nanoSleepUntil (w : Nat) (ht : s.currentTask = some t) :
    OpCore none k s.core (nanoSleepUntil w k s).core := by
  rcases core_nanoSleepUntil (k := k) w ht with hc | hc <;> rw [hc]
  · exact .locked
  · exact .blocks

theorem opCore_acquireSemaphore (q : Sid) (ht : s.currentTask = some t) :
    OpCore none k s.core (acquireSemaphore q k s).core := by
  unfold acquireSemaphore
  dsimp only
  split
  · exact .locked
  · split
    · rename_i hnone
      exact absurd (ht.symm.trans hnone) (Option.some_ne_none t)
    · exact opCore_lockBlock .waitingForLock ht (core_semPush _ _ _)

theorem opCore_releaseSemaphore (q : Sid) (hi : 0 ≤ s.irqDisable) :
    OpCore none k s.core (releaseSemaphore q k s).core := by
  have hpop : (semPop (lockStuff s) q).2.core = s.core.lockStuff := core_semPop (lockStuff s) q
  unfold releaseSemaphore
  dsimp only
  split
  · rename_i task s' heq
    rw [heq] at hpop
    have hlk : s'.core.Locked := by
      rw [hpop]
      exact Core.locked_lockStuff hi
    show OpCore none k s.core ((unblockTask task s').core.goto (.unlockStuff :: k))
    rw [core_unblockTask task hlk, hpop]
    exact .locked
  · exact .locked

theorem opCore_createSemaphore (max : Int) (addr : Option Sid) :
    OpCore none k s.core (createSemaphore max addr k s).core := by
  cases addr with
  | none => exact .ends
  | some q => exact .ends

theorem opCore_terminateTask (ht : s.currentTask = some t) (hi : 0 ≤ s.irqDisable) :
    OpCore none k s.core (terminateTask k s).core := by
  unfold terminateTask
  dsimp only
  split
  · rename_i hnone
    exact absurd (ht.symm.trans hnone) (Option.some_ne_none t)
  · rename_i u hu
    have hcore : (unlockSchedule (terminatedPush (lockSchedule (lockStuff s)) u)).core = s.core.lockStuff := by
      rw [core_unlockSchedule, core_terminatedPush, core_lockSchedule]
      exact Core.unlock_lock (Core.locked_lockStuff (c := s.core) hi)
    rw [core_blockTask .dead _ ((congrArg Core.currentTask hcore).trans ht), hcore]
    exact .dies

theorem opCore_killLocked (task : Tid) (ht : s.currentTask = some t) (hi : 0 ≤ s.irqDisable) :
    OpCore none k s.core (killLocked task k s).core := by
  unfold killLocked
  split
  · exact .ends
  split
  · exact .returns (opCore_terminateTask ht hi)
  dsimp only
  split
  · exact .returns .locked
  · have hc : (terminatedPush (setState (leaveQueue task (lockStuff s)) task .dead) task).core =
        s.core.lockStuff := by
      rw [core_terminatedPush, core_setState, core_leaveQueue]; rfl
    have hlk : s.core.lockStuff.Locked := Core.locked_lockStuff hi
    rw [← hc] at hlk
    show OpCore none k s.core ((wakeReaper _).core.goto (.unlockStuff :: .ret 0 :: k))
    rw [core_wakeReaper hlk, hc]
    exact .returns .locked

theorem opCore_killTaskByPid (pid : Nat) :
    OpCore ((pidTableLookup s.pids pid).map (.killLocked pid)) k s.core (killTaskByPid pid k s).core := by
  unfold killTaskByPid
  dsimp only
  split <;> rename_i hl
  · rw [show pidTableLookup s.pids pid = none from hl]
    exact .through
  · rw [show pidTableLookup s.pids pid = _ from hl]
    exact .part rfl

theorem opCore_taskCreateInternal (addr : Option Tid) (stackOk : Bool) {entry : Frame} (cr3 : Nat) (isUser : Bool)
    (he : entry = .body ∨ entry = .userTaskLauncher) :
    OpCore (if stackOk then addr.map .createInsert else none) k s.core
      (taskCreateInternal addr stackOk entry cr3 isUser k s).core := by
  have hfail : OpCore none k s.core (Core.goto { s.core with log := s.log ++ [.taskCreate] } k) := by
    refine .logs (l := [.taskCreate]) ?_ .ends
    intro e he
    rw [List.mem_singleton.1 he]
    trivial
  cases stackOk with
  | false => cases addr <;> exact hfail
  | true =>
    cases addr with
    | none => exact hfail
    | some a => exact .creates he (.part rfl)

theorem opCore_createInsert (task : Tid) (growOk : Bool) :
    OpCore (some (if (pidTableInsert s.pids (s.pid task) task growOk).1 = 0 then .createPush task
      else .createRelease task)) k s.core (createInsert task growOk k s).core := by
  have hc : (createInsert task growOk k s).core = s.core.lock.unlock.goto
      (if (pidTableInsert s.pids (s.pid task) task growOk).1 = 0 then .createPush task :: k
       else .createRelease task :: k) := rfl
  rw [hc]
  split
  · exact .part rfl
  · exact .part rfl

theorem opCore_createRelease (task : Tid) (nodeOk : Bool) :
    OpCore none k s.core (createRelease task nodeOk k s).core := by
  cases nodeOk with
  | false => exact .ends
  | true => exact .through

theorem opCore_createPush (task : Tid) : OpCore none k s.core (createPush task k s).core := by
  show OpCore none k s.core ((unlockSchedule (readyPush (lockSchedule s) task)).core.goto k)
  rw [core_unlockSchedule, readyPush, core_queuePush, core_lockSchedule]
  exact .through

theorem core_reapTerminated (ok : Nat → Bool) : ∀ (n : Nat) (s : Kernel), ∃ l : List Event,
    (reapTerminated ok n s).core = { s.core with log := s.log ++ l } ∧ ∀ e ∈ l, e.Lawful
  | 0, s => by
    refine ⟨[], ?_, by simp⟩
    unfold reapTerminated
    split <;> simp [Kernel.core]
  | n + 1, s => by
    unfold reapTerminated
    split
    · exact ⟨[], by simp [Kernel.core], by simp⟩
    · rename_i task _
      obtain ⟨l, hl, hlaw⟩ :=
        core_reapTerminated ok n (reapTask task (ok n) { s with terminated := s.next task })
      refine ⟨.reapTask task :: l, ?_, ?_⟩
      · rw [hl]; simp [Kernel.core, reapTask]
      · intro e he
        rcases List.mem_cons.1 he with rfl | he
        · trivial
        · exact hlaw e he

theorem opCore_reapAllTasks (ok : Nat → Bool) (ht : s.currentTask = some t) :
    OpCore none k s.core (reapAllTasks ok k s).core := by
  obtain ⟨l, hl, hlaw⟩ := core_reapTerminated ok (lockStuff s).fuel (lockStuff s)
  -- the log does not matter to the locks: grow it first, then lock and block
  have hb := opCore_lockBlock (s := { s with log := s.log ++ l }) (k := k) .paused ht hl
  exact .logs hlaw hb

theorem opCore_callOp (op : Op) (ht : s.currentTask = some t) (hi : 0 ≤ s.irqDisable) :
    OpCore (op.leaves s) k s.core (callOp op k s).core := by
  cases op with
  | yield => exact .yields
  | nanoSleepUntil w => exact opCore_nanoSleepUntil w ht
  | nanoSleep n => exact opCore_nanoSleepUntil _ ht
  | sleepSeconds n => exact opCore_nanoSleepUntil _ ht
  | createSemaphore max addr => exact opCore_createSemaphore max addr
  | acquireSemaphore q => exact opCore_acquireSemaphore q ht
  | releaseSemaphore q => exact opCore_releaseSemaphore q hi
  | terminateTask => exact opCore_terminateTask ht hi
  | killTaskByPid pid => exact opCore_killTaskByPid pid
  | createKernelTask addr stackOk =>
    have hc := opCore_taskCreateInternal (s := s) (k := k) addr stackOk s.kernelCr3 false (.inl rfl)
    cases addr <;> cases stackOk <;> exact hc
  | createUserTask pml addr stackOk =>
    cases pml with
    | none => exact .ends
    | some pml =>
      have hc := opCore_taskCreateInternal (s := s) (k := k) addr stackOk pml true (.inr rfl)
      cases addr <;> cases stackOk <;> exact hc

end Operations

/-! ## The timer's two calls -/

section Timer

variable {s : Kernel} {k : List Frame}

theorem core_timerCheckSleepingTasks (hi : 0 ≤ s.irqDisable) :
    (timerCheckSleepingTasks k s).core = s.core.lockStuff.goto (.unlockStuff :: k) := by
  have hw := core_wakeSleepers (getUptimeNs (lockStuff s)) (lockStuff s).fuel (lockStuff s)
    (Core.locked_lockStuff (c := s.core) hi)
  show (wakeSleepers _ _ (lockStuff s)).core.goto (.unlockStuff :: k) = _
  rw [hw]; rfl

theorem Balanced.core_timer (hb : Balanced s.core) (hc : s.control = .timerCheckSleepingTasks :: k) :
    (timerCheckSleepingTasks k s).core = s.core.lockStuff.goto (.unlockStuff :: k) := by
  have hi : s.irqDisable = s.core.base := (hb.pop_inIrq hc rfl).1
  have hbounds := hb.owes.bounds
  exact core_timerCheckSleepingTasks (by omega)

/-- The time slice tick asks for a switch only when a task is running. -/
theorem core_schedulerTimeSliceTick :
    (schedulerTimeSliceTick k s).core = s.core.lockStuff.goto (.unlockStuff :: k) ∨
    ((∃ t, s.currentTask = some t) ∧
      (schedulerTimeSliceTick k s).core = s.core.lockStuff.goto (.schedule :: .unlockStuff :: k)) := by
  unfold schedulerTimeSliceTick
  dsimp only
  split
  · rename_i hcur
    split
    · split
      · exact .inr ⟨Option.isSome_iff_exists.1 hcur, rfl⟩
      · exact .inl rfl
    · exact .inl rfl
  · exact .inl rfl

end Timer

/-! ## Balance -/

section Balance

variable {c c' : Core} {s : Kernel} {new : Option Frame} {k : List Frame}

/-- A new task owes the decrement of `kernel_task_startup`. -/
theorem suspended_new {entry : Frame} (h : entry.outside = true) : Suspended [.kernelTaskStartup, entry] :=
  ⟨_, _, rfl, rfl, .startup (.outside h .nil)⟩

/-- A new stack is a suspended one, and the log grows by harmless events. -/
theorem Balanced.extend {a : Tid} {st : List Frame} {l : List Event} (h : Balanced c) (hst : Suspended st)
    (hl : ∀ e ∈ l, e.Lawful) : Balanced { c with stack := update c.stack a st, log := c.log ++ l } := by
  refine ⟨h.owes, h.intFlag, h.flag, h.current, h.parked, ?_, ?_⟩
  · intro t ht
    show Suspended (update c.stack a st t)
    by_cases hta : t = a
    · rw [hta, update_self]; exact hst
    · rw [update_of_ne hta]; exact h.suspended t ht
  · intro e he
    rcases List.mem_append.1 he with he | he
    · exact h.log e he
    · exact hl e he

theorem Balanced.extendLog {l : List Event} (h : Balanced c) (hl : ∀ e ∈ l, e.Lawful) :
    Balanced { c with log := c.log ++ l } := by
  refine ⟨h.owes, h.intFlag, h.flag, h.current, h.parked, h.suspended, ?_⟩
  intro e he
  rcases List.mem_append.1 he with he | he
  · exact h.log e he
  · exact hl e he

/-- Operations made where nothing is locked keep the balance. -/
theorem OpCore.balanced (ho : OpCore new k c c') (h : Balanced (c.goto k)) (hb : c.base = 0) (hi : c.irqDisable = 0) :
    Balanced c' := by
  induction ho with
  | ends => exact h
  | through => exact h.wholeSection hb hi
  | @part k c f hf =>
    have hout : f.outside = true := by cases f <;> trivial
    exact (h.push_outside hout hb hi).wholeSection hb hi
  | yields => exact h.yield hb hi
  | locked => exact h.lockStuff (hi.trans hb.symm)
  | @blocks k c =>
    have hp : c.postpone = 0 := (h.flag_of_base (hi.trans hb.symm)).1
    refine (h.lockStuff (hi.trans hb.symm)).block hb ?_ ?_
    · show c.irqDisable + 1 = 1
      omega
    · show c.postpone + 1 = 1
      omega
  | @dies k c =>
    have hp : c.postpone = 0 := (h.flag_of_base (hi.trans hb.symm)).1
    have hl := h.lockStuff (hi.trans hb.symm)
    have hi1 : c.lockStuff.irqDisable = 1 := by show c.irqDisable + 1 = 1; omega
    have hp1 : c.lockStuff.postpone = 1 := by show c.postpone + 1 = 1; omega
    refine Balanced.block ?_ hb hi1 hp1
    refine hl.move (i := c.lockStuff.irqDisable) (p := c.lockStuff.postpone) ?_ hl.intFlag hl.flag ?_
    · have ho : Owes c.base c.lockStuff.irqDisable c.lockStuff.postpone (.unlockStuff :: k) := hl.owes
      show Owes c.base _ _ _
      rw [hb, hi1, hp1] at ho
      rw [hb, hi1, hp1]; exact .wakeReaper ho
    · intro q hq
      simpa [Core.goto] using hq
  | returns _ ih => exact ih (h.push_outside rfl hb hi) hb hi
  | creates he _ ih =>
    refine ih (h.extend (suspended_new ?_) ?_) hb hi
    · rcases he with rfl | rfl <;> rfl
    · intro e he
      rw [List.mem_singleton.1 he]
      trivial
  | logs hl _ ih => exact ih (h.extendLog hl) hb hi

theorem balanced_timerCheckSleepingTasks (h : Balanced (s.core.goto k)) (hi : s.irqDisable = s.core.base) :
    Balanced (timerCheckSleepingTasks k s).core := by
  have hb : 0 ≤ s.core.base ∧ s.core.base ≤ s.irqDisable := ⟨h.owes.bounds.1, h.owes.bounds.2.1⟩
  rw [core_timerCheckSleepingTasks (by omega)]
  exact h.lockStuff hi

theorem balanced_schedulerTimeSliceTick (h : Balanced (s.core.goto k)) (hi : s.irqDisable = s.core.base) :
    Balanced (schedulerTimeSliceTick k s).core := by
  have hl : Balanced (s.core.lockStuff.goto (.unlockStuff :: k)) := h.lockStuff hi
  rcases core_schedulerTimeSliceTick (s := s) (k := k) with hc | ⟨⟨t, ht⟩, hc⟩
  · rw [hc]; exact hl
  · have hb : s.core.base = 0 := Core.base_of_some ht
    have hi0 : s.irqDisable = 0 := hi.trans hb
    have hp0 : s.postpone = 0 := (h.flag_of_base hi).1
    rw [hc]
    refine hl.move (i := s.irqDisable + 1) (p := s.postpone + 1) ?_ hl.intFlag hl.flag ?_
    · have ho : Owes s.core.base (s.irqDisable + 1) (s.postpone + 1) (.unlockStuff :: k) := hl.owes
      show Owes s.core.base _ _ _
      rw [hb, hi0, hp0] at ho
      rw [hb, hi0, hp0]; exact .postponed ho
    · intro q hq
      simpa [Core.goto] using hq

end Balance

/-! ## Steps and runs -/

section Steps

variable {s s' : Kernel} {k : List Frame}

theorem Balanced.cli {c : Core} (h : Balanced c) : Balanced { c with intFlag := false } :=
  ⟨h.owes, fun hf => (by cases hf), h.flag, h.current, h.parked, h.suspended, h.log⟩

theorem Balanced.sti {c : Core} (h : Balanced c) (hi : c.irqDisable = c.base) :
    Balanced { c with intFlag := true } :=
  ⟨h.owes, fun _ => hi, h.flag, h.current, h.parked, h.suspended, h.log⟩

theorem balanced_syscall (num arg : Nat) (h : Balanced (s.core.goto k)) (hb : s.core.base = 0)
    (hi : s.irqDisable = 0) : Balanced (syscall num arg k s).core := by
  let s1 : Kernel := { s with intFlag := false }
  obtain ⟨t, ht⟩ := Core.current_of_base hb
  have hi0 : 0 ≤ s1.irqDisable := Int.le_of_eq hi.symm
  have h1 : Balanced (s1.core.goto (.syscallReturn num :: k)) := Balanced.push_outside (c := s1.core) h.cli rfl hb hi
  unfold syscall
  dsimp only
  split
  · exact (opCore_terminateTask (s := s1) ht hi0).balanced (h1.push_outside rfl hb hi) hb hi
  · exact h1.yield hb hi
  · exact (opCore_nanoSleepUntil (s := s1) _ ht).balanced h1 hb hi
  · exact h1

theorem balanced_timerIrq (h : Balanced s.core) (hif : s.intFlag = true) : Balanced (timerIrq s).core := by
  have hi : s.irqDisable = s.core.base := h.intFlag hif
  have hp : s.postpone = 0 := (h.flag_of_base hi).1
  refine h.move (i := s.irqDisable) (p := s.postpone) ?_ (fun hf => by cases hf) h.flag fun q hq => by
    simpa [timerIrq, Kernel.core] using hq
  have ho : Owes s.core.base s.irqDisable s.postpone s.control := h.owes
  rw [hi, hp] at ho
  rw [hi, hp]
  exact .inIrq rfl (.inIrq rfl (.inIrq rfl ho))

theorem balanced_execFrame (ok : Nat → Bool) {f : Frame} (h : Balanced s.core) (hc : s.control = f :: k)
    (hs : execFrame ok f k s = some s') : Balanced s'.core := by
  have houtside : f.outside = true → ∃ t, s.currentTask = some t ∧ 0 ≤ s.irqDisable ∧ s.core.base = 0 ∧
      s.irqDisable = 0 ∧ Balanced (s.core.goto k) := by
    intro hf
    obtain ⟨hb, hi, hk⟩ := h.pop_outside hc hf
    obtain ⟨t, ht⟩ := Core.current_of_base hb
    exact ⟨t, ht, Int.le_of_eq hi.symm, hb, hi, hk⟩
  have hself : Balanced (s.core.goto (f :: k)) := by
    change Balanced { s.core with control := f :: k }
    rw [← hc]; exact h
  cases f <;> simp only [execFrame, Option.some.injEq, reduceCtorEq] at hs <;> subst hs
  case schedule => exact balanced_schedule h hc
  case idle parked => exact balanced_idleLoop h hc
  case unlockSchedule => exact h.pay hc rfl
  case unlockStuff => exact balanced_unlockStuff h hc
  case unlockStuffTail => exact h.pay hc rfl
  case kernelTaskStartup => exact h.pay hc rfl
  case wakeReaper => exact balanced_wakeReaper h hc
  case killLocked pid task =>
    obtain ⟨t, ht, hi0, hb, hi, hk⟩ := houtside rfl
    exact (opCore_killLocked task ht hi0).balanced hk hb hi
  case createInsert task =>
    obtain ⟨t, ht, hi0, hb, hi, hk⟩ := houtside rfl
    exact (opCore_createInsert task _).balanced hk hb hi
  case createRelease task =>
    obtain ⟨t, ht, hi0, hb, hi, hk⟩ := houtside rfl
    exact (opCore_createRelease task _).balanced hk hb hi
  case createPush task =>
    obtain ⟨t, ht, hi0, hb, hi, hk⟩ := houtside rfl
    exact (opCore_createPush task).balanced hk hb hi
  case ret value =>
    obtain ⟨t, ht, hi0, hb, hi, hk⟩ := houtside rfl
    exact hk
  case timerCheckSleepingTasks =>
    obtain ⟨hi, hk⟩ := h.pop_inIrq hc rfl
    exact balanced_timerCheckSleepingTasks hk hi
  case schedulerTimeSliceTick =>
    obtain ⟨hi, hk⟩ := h.pop_inIrq hc rfl
    exact balanced_schedulerTimeSliceTick hk hi
  case irqReturn =>
    obtain ⟨hi, hk⟩ := h.pop_inIrq hc rfl
    exact hk.sti hi
  case syscallReturn num =>
    obtain ⟨t, ht, hi0, hb, hi, hk⟩ := houtside rfl
    exact hk.sti (hi.trans hb.symm)
  case userTaskLauncher =>
    obtain ⟨t, ht, hi0, hb, hi, hk⟩ := houtside rfl
    exact (hk.push_outside (f := .userMode) rfl hb hi).sti (hi.trans hb.symm)
  case bootLoop =>
    obtain ⟨t, ht, hi0, hb, hi, hk⟩ := houtside rfl
    exact hself.yield hb hi
  case exitLoop =>
    obtain ⟨t, ht, hi0, hb, hi, hk⟩ := houtside rfl
    exact hself.yield hb hi
  case reapLoop =>
    obtain ⟨t, ht, hi0, hb, hi, hk⟩ := houtside rfl
    exact (opCore_reapAllTasks ok ht).balanced hself hb hi

theorem balanced_step {act : Act} (h : Balanced s.core) (hs : step s act = some s') : Balanced s'.core := by
  have hself : ∀ {f k}, s.control = f :: k → Balanced (s.core.goto (f :: k)) := fun {f k} hc => by
    change Balanced { s.core with control := f :: k }
    rw [← hc]; exact h
  obtain ⟨ok, f, k, -, hc, hs⟩ | ⟨op, k, -, hc, -, rfl⟩ | ⟨k, -, hc, rfl⟩ | ⟨num, arg, k, -, hc, rfl⟩ |
    ⟨k, -, hc, rfl⟩ | ⟨-, hif, rfl⟩ := step_cases hs
  · exact balanced_execFrame ok h hc hs
  · obtain ⟨hb, hi, _⟩ := h.pop_outside hc rfl
    obtain ⟨t, ht⟩ := Core.current_of_base hb
    exact (opCore_callOp op ht (Int.le_of_eq hi.symm)).balanced (hself hc) hb hi
  · obtain ⟨hb, hi, hk⟩ := h.pop_outside hc rfl
    obtain ⟨t, ht⟩ := Core.current_of_base hb
    exact (opCore_terminateTask ht (Int.le_of_eq hi.symm)).balanced (hk.push_outside rfl hb hi) hb hi
  · obtain ⟨hb, hi, _⟩ := h.pop_outside hc rfl
    exact balanced_syscall num arg (hself hc) hb hi
  · obtain ⟨hb, hi, hk⟩ := h.pop_outside hc rfl
    obtain ⟨t, ht⟩ := Core.current_of_base hb
    exact (opCore_terminateTask (s := { s with intFlag := false }) ht (Int.le_of_eq hi.symm)).balanced
      (Balanced.push_outside (c := s.core) hk rfl hb hi).cli hb hi
  · exact balanced_timerIrq h hif

theorem balanced_start {b : Boot} (h : Starts b s) : Balanced s.core := by
  obtain ⟨f, hf, rfl⟩ := h.eq
  refine ⟨.outside (by rcases hf with rfl | rfl <;> rfl) .nil, fun _ => rfl, fun hf => (by cases hf), fun t ht => ?_,
    fun q hq => ?_, fun t _ => ?_, fun e he => ?_⟩
  · exact (Option.some.inj ht).symm
  · rcases hf with rfl | rfl <;> simp [Kernel.core] at hq
  · change Suspended (if t = b.reaper then _ else _)
    split
    · exact suspended_new rfl
    · exact suspended_new rfl
  · simp [Kernel.core, bootState] at he

/-- The locks are balanced in every state of every run, with interrupts wherever they are possible. -/
theorem balanced_of_reach {b : Boot} {s₀ : Kernel} {ok : Kernel → Act → Prop} (h₀ : Starts b s₀)
    (h : Reach step ok s₀ s) : Balanced s.core :=
  h.invariant (P := fun s => Balanced s.core) (balanced_start h₀) fun _ _ _ hi _ hs => balanced_step hi hs

/-- Calls that lower `IRQ_disable_counter`. -/
def Frame.unlocks (f : Frame) : Bool := f.paysOne || f == .unlockStuff

theorem Owes.nothing {b i p : Int} {k : List Frame} (h : Owes b i p k) (hb : b = 0) (hi : i = 0) :
    ∀ g ∈ k, g.unlocks = false := by
  induction h with
  | nil => simp
  | @outside f k hf _ ih =>
    have hg : f.unlocks = false := by cases f <;> first | rfl | cases hf
    simpa [hg] using ih hb hi
  | @inIrq b f k hf _ ih =>
    have hg : f.unlocks = false := by cases f <;> first | rfl | cases hf
    simpa [hg] using ih hb hi
  | postponed ho =>
    have := ho.bounds
    omega
  | _ => omega

/-- A saved stack has one decrement to pay, at its top, and no other. -/
theorem Suspended.one_decrement (h : Suspended k) :
    ∃ f k', k = f :: k' ∧ f.paysOne = true ∧ ∀ g ∈ k', g.unlocks = false := by
  obtain ⟨f, k', rfl, hf, ho⟩ := h
  exact ⟨f, k', rfl, hf, (ho.rest_of_paysOne hf).nothing rfl rfl⟩

theorem Owes.head_postponed {b i : Int} {f : Frame} (h : Owes b i 1 (f :: k)) :
    f = .unlockStuff ∨ f = .unlockSchedule ∨ f = .wakeReaper ∨ f = .schedule := by
  cases h <;> simp

/-- A requested switch stays requested until the outermost `unlock_stuff` calls `schedule()` for it. -/
theorem pending_switch_step {act : Act} (h : Balanced s.core) (hfl : s.postponedFlag = true)
    (hs : step s act = some s') :
    s'.postponedFlag = true ∨
      ∃ k, s.control = .unlockStuff :: k ∧ s'.control = .schedule :: .unlockStuffTail :: k ∧
        s'.irqDisable = 1 ∧ s'.postpone = 0 := by
  obtain ⟨hp, hcur⟩ := h.flag hfl
  have hp : s.postpone = 1 := hp
  have houtside : ∀ {f k}, s.control = f :: k → f.outside = true → False := fun {f k} hc hf => by
    have ho := h.owes_of hc
    have := (ho.of_outside hf).2.2.1
    omega
  obtain ⟨ok, f, k, -, hc, hs⟩ | ⟨op, k, -, hc, -, rfl⟩ | ⟨k, -, hc, rfl⟩ | ⟨num, arg, k, -, hc, rfl⟩ |
    ⟨k, -, hc, rfl⟩ | ⟨-, hif, rfl⟩ := step_cases hs
  · have ho := h.owes_of hc
    rw [hp] at ho
    rcases ho.head_postponed with rfl | rfl | rfl | rfl
    · right
      have hc0 : s.postpone - 1 = 0 ∧ s.postponedFlag = true := ⟨by omega, hfl⟩
      have hi : s.irqDisable = 1 := by
        obtain ⟨t, ht⟩ := Option.ne_none_iff_exists'.1 hcur
        rw [Core.base_of_some ht] at ho
        exact ho.of_unlockStuff.1
      simp only [execFrame, Option.some.injEq] at hs
      rw [unlockStuff, if_pos hc0] at hs
      subst hs
      exact ⟨k, hc, rfl, hi, hc0.1⟩
    · left
      simp only [execFrame, Option.some.injEq] at hs
      subst hs
      exact hfl
    · left
      have hl : s.core.Locked := h.locked_wakeReaper hc
      simp only [execFrame, Option.some.injEq] at hs
      subst hs
      exact (congrArg Core.postponedFlag (core_wakeReaper hl)).trans hfl
    · left
      simp only [execFrame, Option.some.injEq] at hs
      rw [schedule, if_pos (by omega)] at hs
      subst hs
      rfl
  · exact (houtside hc rfl).elim
  · exact (houtside hc rfl).elim
  · exact (houtside hc rfl).elim
  · exact (houtside hc rfl).elim
  · have hi : s.irqDisable = s.core.base := h.intFlag hif
    have := (h.flag_of_base hi).1
    exact absurd (this.symm.trans hp) (by decide)

/-- **Lock balance.** In every state of every run, interrupts included: every `context_switch` so far was called with
the counters at 1 and 0, and no task was popped and then not switched to; every stack but the running one owes
one decrement; outside the lock sections both counters are 0; a pending switch means that switches are postponed;
no counter is negative; and a switch requested while postponed is noted and stays so until the outermost
`unlock_stuff`, which calls `schedule()` with the counters at 1 and 0. -/
theorem locks_balanced_across_switches (b : Boot) {s₀ : Kernel} (h₀ : Starts b s₀) (h : Reach step Any s₀ s) :
    (∀ e ∈ s.log, ∀ prev next irqDisable postpone, e = .contextSwitch prev next irqDisable postpone →
      irqDisable = 1 ∧ postpone = 0) ∧
    (∀ next, .switchPostponed next ∉ s.log) ∧
    (∀ t, t ≠ s.onStack → ∃ f k, s.stack t = f :: k ∧ f.paysOne = true ∧ ∀ g ∈ k, g.unlocks = false) ∧
    (∀ f k, s.control = f :: k → f.outside = true → s.irqDisable = 0 ∧ s.postpone = 0) ∧
    (s.postponedFlag = true → 0 < s.postpone) ∧
    0 ≤ s.irqDisable ∧ 0 ≤ s.postpone ∧
    (∀ k, s.control = .schedule :: k → s.postpone ≠ 0 →
      (schedule k s).postponedFlag = true ∧ (schedule k s).control = k) ∧
    (∀ act s', s.postponedFlag = true → step s act = some s' → s'.postponedFlag = true ∨
      ∃ k, s.control = .unlockStuff :: k ∧ s'.control = .schedule :: .unlockStuffTail :: k ∧
        s'.irqDisable = 1 ∧ s'.postpone = 0) := by
  have hb : Balanced s.core := balanced_of_reach h₀ h
  have ho : Owes s.core.base s.irqDisable s.postpone s.control := hb.owes
  have hbounds := ho.bounds
  refine ⟨fun e he prev next i p heq => ?_, fun next hn => hb.log _ hn, fun t ht => (hb.suspended t ht).one_decrement,
    fun f k hc hf => ?_, fun hfl => ?_, by omega, by omega, fun k _ hp => ?_,
    fun act s' hfl hs => pending_switch_step hb hfl hs⟩
  · have := hb.log e he
    rwa [heq] at this
  · rw [hc] at ho
    exact ⟨(ho.of_outside hf).2.1, (ho.of_outside hf).2.2.1⟩
  · have : s.postpone = 1 := (hb.flag hfl).1
    omega
  · rw [schedule, if_pos hp]
    exact ⟨rfl, rfl⟩

/-- The first two steps after boot: `yield` locks and switches from the boot task to the shell. -/
theorem locks_balanced_at_first_switch : ∃ s, Reach step Any (bootState .sample) s ∧
    s.log = [.contextSwitch 0 1 1 0] ∧ s.control = [.kernelTaskStartup, .body] ∧ 0 ≤ s.irqDisable := by
  have hr : Reach step Any (bootState .sample)
      (schedule [.unlockSchedule, .bootLoop] (yield [.bootLoop] (bootState .sample))) :=
    .tail (a := .exec fun _ => true) (.tail (a := .exec fun _ => true) .refl trivial rfl) trivial rfl
  exact ⟨_, hr, rfl, rfl, (locks_balanced_across_switches .sample (.inl rfl) hr).2.2.2.2.2.1⟩

end Steps

end ToastOS.Task
