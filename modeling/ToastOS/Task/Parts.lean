import ToastOS.Task.BalanceStep

/-!
# Where `kill_task_by_pid` and `task_create_internal` can be interrupted

Between two sections of these functions a part frame (`Frame.isPart`) is on the stack, and the task may be preempted.
`Core.stackOf c u` is the stack of `u`, running or saved; a context switch does not change it. On each stack there is
at most one part frame (`Clean`). `StackStep` says what a step can do to the running stack and to the others; from it
`parts_step` says where a part frame can come from: it was there before, or the running task has just made the call
that leaves it (`Leaves`).
-/

namespace ToastOS.Task

open ToastOS.Lib (Queue Reach Any)
open Function

variable {f : Frame} {t : Tid} {k : List Frame} {c c' : Core}

def Frame.creates : Frame → Option Tid
  | .createInsert t | .createRelease t | .createPush t => some t
  | _ => none

/-- The task a frame is creating and that is not registered. -/
def Frame.createsUnregistered : Frame → Option Tid
  | .createInsert t | .createRelease t => some t
  | _ => none

theorem Frame.isPart_of_creates (h : f.creates = some t) : f.isPart = true := by
  cases f <;> first | rfl | cases h

theorem Frame.creates_of_unregistered (h : f.createsUnregistered = some t) : f.creates = some t := by
  cases f <;> first | exact h | cases h

theorem Frame.outside_of_isPart (h : f.isPart = true) : f.outside = true := by
  cases f <;> first | rfl | cases h

/-! ## Stacks with at most one part frame -/

def NoPart (k : List Frame) : Prop := ∀ g ∈ k, g.isPart = false

/-- Below code that is outside the locks there is no part frame. -/
def Clean : List Frame → Prop
  | [] => True
  | f :: k => (f.outside = true → NoPart k) ∧ Clean k

theorem noPart_cons (hf : f.isPart = false) (hk : NoPart k) : NoPart (f :: k) := by
  intro g hg
  rcases List.mem_cons.1 hg with rfl | hg
  · exact hf
  · exact hk g hg

theorem NoPart.clean : ∀ {k : List Frame}, NoPart k → Clean k
  | [], _ => trivial
  | _ :: _, h =>
    have ht : NoPart _ := fun g hg => h g (List.mem_cons_of_mem _ hg)
    ⟨fun _ => ht, ht.clean⟩

theorem NoPart.clean_cons (hk : NoPart k) : Clean (f :: k) := ⟨fun _ => hk, hk.clean⟩

theorem Clean.tail (h : Clean (f :: k)) : Clean k := h.2

theorem Clean.cons (hf : f.outside = false) (h : Clean k) : Clean (f :: k) :=
  ⟨fun ho => absurd (hf.symm.trans ho) (by decide), h⟩

/-! ## Stacks across a switch -/

/-- The calls of `u`, whether it runs or not. -/
def Core.stackOf (c : Core) (u : Tid) : List Frame := if u = c.onStack then c.control else c.stack u

theorem stackOf_onStack (c : Core) : c.stackOf c.onStack = c.control := if_pos rfl

theorem stackOf_switch {prev next : Tid} (h : prev = c.onStack) (u : Tid) :
    (c.switch prev next k).stackOf u = (c.goto k).stackOf u := by
  have hsw : (c.switch prev next k).stackOf u = update c.stack prev k u := by
    show (if u = next then update c.stack prev k next else update c.stack prev k u) = _
    split
    · rename_i hu
      rw [hu]
    · rfl
  rw [hsw]
  show _ = if u = c.onStack then k else c.stack u
  rw [← h]
  exact update_apply c.stack prev k u

/-- The other stacks are as before, or new ones. -/
def Core.StacksFrom (c c' : Core) : Prop := ∀ u, u ≠ c.onStack → c'.stackOf u = c.stackOf u ∨ NoPart (c'.stackOf u)

/-- The running task changed its stack to `k`; the others are as before. -/
theorem stackOf_same (hon : c'.onStack = c.onStack) (hst : c'.stack = c.stack) : c.StacksFrom c' := by
  intro u hu
  refine .inl ?_
  rw [Core.stackOf, Core.stackOf, if_neg (by rwa [hon]), if_neg hu, hst]

section Operations

variable {new : Option Frame}

theorem OpCore.onStack (ho : OpCore new k c c') : c'.onStack = c.onStack := by
  induction ho with
  | returns _ ih => exact ih
  | creates _ _ ih => exact ih
  | logs _ _ ih => exact ih
  | _ => rfl

theorem OpCore.stacksFrom (ho : OpCore new k c c') : c.StacksFrom c' := by
  induction ho with
  | returns _ ih => exact ih
  | @creates k c c' a entry he _ ih =>
    intro u hu
    have hnew : NoPart [.kernelTaskStartup, entry] := by
      apply noPart_cons rfl
      apply noPart_cons _ (by intro g hg; cases hg)
      rcases he with rfl | rfl <;> rfl
    rcases ih u hu with h | h
    · rw [h, Core.stackOf, if_neg hu]
      change update c.stack a _ u = _ ∨ NoPart (update c.stack a _ u)
      by_cases hua : u = a
      · rw [hua, update_self]; exact .inr hnew
      · rw [update_of_ne hua, Core.stackOf, if_neg hu]; exact .inl rfl
    · exact .inr h
  | logs _ _ ih => exact ih
  | _ => exact stackOf_same rfl rfl

/-- The only part frame after an operation is the one it leaves, on top. -/
theorem OpCore.control (ho : OpCore new k c c') (hk : NoPart k) :
    (∀ f, new = some f → f.isPart = true ∧ ∃ k', c'.control = f :: k' ∧ NoPart k') ∧
      (new = none → NoPart c'.control) := by
  have hno : ∀ {k' : List Frame}, NoPart k' →
      (∀ f, none = some f → f.isPart = true ∧ ∃ k'', k' = f :: k'' ∧ NoPart k'') ∧
      ((none : Option Frame) = none → NoPart k') :=
    fun hk' => ⟨fun f hf => (by cases hf), fun _ => hk'⟩
  induction ho with
  | ends => exact hno hk
  | through => exact hno hk
  | @part k c f hf =>
    refine ⟨fun g hg => ?_, fun h => by cases h⟩
    cases hg
    exact ⟨hf, k, rfl, hk⟩
  | yields => exact hno (noPart_cons rfl (noPart_cons rfl hk))
  | locked => exact hno (noPart_cons rfl hk)
  | blocks => exact hno (noPart_cons rfl (noPart_cons rfl (noPart_cons rfl hk)))
  | dies => exact hno (noPart_cons rfl (noPart_cons rfl (noPart_cons rfl (noPart_cons rfl hk))))
  | returns _ ih => exact ih (noPart_cons rfl hk)
  | creates _ _ ih => exact ih hk
  | logs _ _ ih => exact ih hk

end Operations

/-! ## Steps -/

/-- Every stack has at most one part frame. -/
def CleanStacks (c : Core) : Prop := ∀ u, Clean (c.stackOf u)

/-- The part frames that the running task's action leaves. -/
def Leaves (s : Kernel) (act : Act) (g : Frame) : Prop :=
  match act with
  | .call op => op.leaves s = some g
  | .exec ok => ∃ t k, s.control = .createInsert t :: k ∧
      g = if (pidTableInsert s.pids (s.pid t) t (ok 0)).1 = 0 then .createPush t else .createRelease t
  | _ => False

/-- The running task is outside the locks and takes the action itself. -/
def Acts (s : Kernel) (act : Act) : Prop :=
  (∃ f k, s.control = f :: k ∧ f.outside = true) ∧ match act with | .timerIrq => False | _ => True

/-- Calls of the scheduler and of the timer's handler. -/
def Frame.isScheduler : Frame → Bool
  | .schedule | .idle _ | .unlockSchedule | .unlockStuff | .unlockStuffTail | .timerCheckSleepingTasks
  | .schedulerTimeSliceTick | .irqReturn => true
  | _ => false

/-- Code that a stack ends in and that does not return. -/
def Frame.isGround : Frame → Bool
  | .bootLoop | .reapLoop | .exitLoop | .body | .userMode | .userTaskLauncher => true
  | _ => false

/-- The calls `top` can take the place of `f`. -/
def Replaces (f : Frame) (top : List Frame) : Prop :=
  NoPart top ∧ (.reapLoop ∈ top → f = .reapLoop) ∧ (f.isGround = true → ∃ g ∈ top, g.isGround = true)

/-- What a step does to the stacks: calls of the scheduler come over those that are there (`goes`), or the running task takes
an action of its own (`acts`). -/
inductive StackStep (s : Kernel) (act : Act) (s' : Kernel) : Prop
  | goes (c : Core) (top k : List Frame) (waits : ¬ Acts s act)
      (below : s.control = k ∨ ∃ f, s.control = f :: k ∧ f.outside = false)
      (same : ∀ u, s'.core.stackOf u = c.stackOf u) (onStack : c.onStack = s.onStack) (stack : c.stack = s.stack)
      (control : c.control = top ++ k) (calls : ∀ g ∈ top, g.isScheduler = true)
  | acts (c : Core) (f : Frame) (top k : List Frame) (new : Option Frame) (control : s.control = f :: k)
      (outside : f.outside = true) (own : match act with | .timerIrq => False | _ => True)
      (onStack : c.onStack = s.onStack) (stack : c.stack = s.stack) (op : OpCore new (top ++ k) c s'.core)
      (leaves : ∀ g, new = some g → Leaves s act g) (replaces : Replaces f top)
      -- the loops of the boot task and of the reaper only call the scheduler
      (loops : f = .bootLoop ∨ f = .reapLoop → ∀ g ∈ s'.control, g ∈ s.control ∨ g.isScheduler = true)

section Steps

variable {s s' : Kernel} {act : Act} {new : Option Frame}

theorem not_acts (hc : s.control = f :: k) (hf : f.outside = false) : ¬ Acts s act := by
  rintro ⟨⟨f', k', hc', hf'⟩, -⟩
  rw [hc] at hc'
  cases hc'
  exact absurd (hf.symm.trans hf') (by decide)

theorem mem_of_tail (hc : s.control = f :: k) {g : Frame} (hg : g ∈ k) : g ∈ s.control := by
  rw [hc]
  exact List.mem_cons_of_mem f hg

theorem StackStep.within (top : List Frame) (hc : s.control = f :: k) (hf : f.outside = false)
    (hs : ∀ u, s'.core.stackOf u = c.stackOf u) (hon : c.onStack = s.onStack) (hst : c.stack = s.stack)
    (hctl : c.control = top ++ k) (htop : ∀ g ∈ top, g.isScheduler = true) : StackStep s act s' :=
  .goes c top k (not_acts hc hf) (.inr ⟨f, hc, hf⟩) hs hon hst hctl htop

theorem StackStep.plain (top : List Frame) (hc : s.control = f :: k) (ho : OpCore none (top ++ k) c s'.core)
    (hon : c.onStack = s.onStack) (hst : c.stack = s.stack) (hact : match act with | .timerIrq => False | _ => True)
    (hf : f.outside = true ∧ f ≠ .bootLoop ∧ f ≠ .reapLoop) (hr : Replaces f top) : StackStep s act s' :=
  .acts c f top k none hc hf.1 hact hon hst ho (fun g hg => by cases hg) hr fun h => absurd h (not_or.2 hf.2)

theorem replaces_nil (hf : f.isGround = false) : Replaces f [] := by simp [Replaces, NoPart, hf]

theorem stackStep_schedule (hb : Balanced s.core) (hc : s.control = .schedule :: k) : StackStep s act (schedule k s) := by
  by_cases hp : s.postpone = 0
  · obtain ⟨prev, hcur⟩ := Core.current_of_base (hb.owes_of hc).of_schedule.1
    rcases core_schedule k hcur hp with hcore | hcore | ⟨next, hcore⟩
    · exact .within (c := s.core.goto k) [] hc rfl (fun u => by rw [hcore]) rfl rfl rfl (by simp)
    · refine .within [.idle prev] hc rfl (fun _ => rfl) ?_ ?_ ?_ (by simp [Frame.isScheduler])
      all_goals
        rw [hcore]
        rfl
    · refine .within (c := s.core.goto k) [] hc rfl (fun u => ?_) rfl rfl rfl (by simp)
      rw [hcore]
      exact stackOf_switch (hb.current prev hcur) u
  · refine .within (c := s.core.goto k) [] hc rfl (fun u => ?_) rfl rfl rfl (by simp)
    rw [core_schedule_postponed k hp]
    rfl

theorem stackStep_idleLoop {parked : Tid} (hb : Balanced s.core) (hc : s.control = .idle parked :: k) :
    StackStep s act (idleLoop parked k s) := by
  rcases core_idleLoop parked k (hb.owes_of hc).of_idle.2.2.1 with hcore | hcore | ⟨next, hcore⟩
  · exact .goes s.core [] s.control (not_acts hc rfl) (.inl rfl) (fun u => by rw [hcore]; rfl) rfl rfl rfl (by simp)
  · exact .within (c := s.core.goto k) [] hc rfl (fun u => by rw [hcore]; rfl) rfl rfl rfl (by simp)
  · refine .within (c := Core.goto { s.core with intFlag := false, currentTask := some parked } k) [] hc rfl (fun u => ?_)
      rfl rfl rfl (by simp)
    rw [hcore]
    exact stackOf_switch (hb.parked_onStack hc) u

theorem control_reapAllTasks (ok : Nat → Bool) (ht : s.currentTask = some t) :
    (reapAllTasks ok k s).control = [.schedule, .unlockSchedule, .unlockStuff] ++ k := by
  obtain ⟨l, hl, -⟩ := core_reapTerminated ok (lockStuff s).fuel (lockStuff s)
  have ht1 : (reapTerminated ok (lockStuff s).fuel (lockStuff s)).currentTask = some t :=
    (congrArg Core.currentTask hl).trans ht
  exact congrArg Core.control (core_blockTask .paused (.unlockStuff :: k) ht1)

theorem mem_or_scheduler (top : List Frame) (hc : s.control = f :: k) (htop : ∀ g ∈ top, g.isScheduler = true) :
    ∀ g ∈ top ++ f :: k, g ∈ s.control ∨ g.isScheduler = true := by
  intro g hg
  rcases List.mem_append.1 hg with hg | hg
  · exact .inr (htop g hg)
  · exact .inl (hc ▸ hg)

theorem stackStep_execFrame {ok : Nat → Bool} (hb : Balanced s.core) (hc : s.control = f :: k)
    (hs : execFrame ok f k s = some s') : StackStep s (.exec ok) s' := by
  have hout : f.outside = true → ∃ t, s.currentTask = some t ∧ 0 ≤ s.irqDisable := fun hf =>
    (hb.outside hc hf).imp fun _ h => ⟨h.1, Int.le_of_eq h.2.symm⟩
  cases f <;> simp only [execFrame, Option.some.injEq, reduceCtorEq] at hs <;> subst hs
  case schedule => exact stackStep_schedule hb hc
  case idle parked => exact stackStep_idleLoop hb hc
  case unlockSchedule | unlockStuffTail | kernelTaskStartup | irqReturn =>
    exact .within [] hc rfl (fun _ => rfl) rfl rfl rfl (by simp)
  case unlockStuff =>
    unfold unlockStuff
    split
    · exact .within [.schedule, .unlockStuffTail] hc rfl (fun _ => rfl) rfl rfl rfl (by simp [Frame.isScheduler])
    · exact .within [.unlockStuffTail] hc rfl (fun _ => rfl) rfl rfl rfl (by simp [Frame.isScheduler])
  case wakeReaper =>
    refine .within (c := s.core.goto k) [] hc rfl (fun u => ?_) rfl rfl rfl (by simp)
    show ((wakeReaper s).core.goto k).stackOf u = _
    rw [core_wakeReaper (hb.locked_wakeReaper hc)]
  case timerCheckSleepingTasks =>
    exact .within (c := s.core.lockStuff.goto (.unlockStuff :: k)) [.unlockStuff] hc rfl (fun u => by rw [hb.core_timer hc])
      rfl rfl rfl (by simp [Frame.isScheduler])
  case schedulerTimeSliceTick =>
    rcases core_schedulerTimeSliceTick (s := s) (k := k) with hcore | ⟨-, hcore⟩
    · exact .within (c := s.core.lockStuff.goto (.unlockStuff :: k)) [.unlockStuff] hc rfl (fun u => by rw [hcore])
        rfl rfl rfl (by simp [Frame.isScheduler])
    · exact .within (c := s.core.lockStuff.goto (.schedule :: .unlockStuff :: k)) [.schedule, .unlockStuff] hc rfl
        (fun u => by rw [hcore]) rfl rfl rfl (by simp [Frame.isScheduler])
  case killLocked pid task =>
    obtain ⟨t, ht, hi⟩ := hout rfl
    exact .plain [] hc (opCore_killLocked task ht hi) rfl rfl trivial (by simp [Frame.outside]) (replaces_nil rfl)
  case createInsert task =>
    exact .acts s.core _ [] k _ hc rfl trivial rfl rfl (opCore_createInsert task _)
      (fun g hg => ⟨task, k, hc, (Option.some.inj hg).symm⟩) (replaces_nil rfl) (by simp)
  case createRelease task =>
    exact .plain [] hc (opCore_createRelease task _) rfl rfl trivial (by simp [Frame.outside]) (replaces_nil rfl)
  case createPush task =>
    exact .plain [] hc (opCore_createPush task) rfl rfl trivial (by simp [Frame.outside]) (replaces_nil rfl)
  case ret value =>
    exact .plain [] hc (c := s.core) .ends rfl rfl trivial (by simp [Frame.outside]) (replaces_nil rfl)
  case syscallReturn num =>
    exact .plain [] hc (c := { s.core with intFlag := true }) .ends rfl rfl trivial (by simp [Frame.outside])
      (replaces_nil rfl)
  case userTaskLauncher =>
    exact .plain [.userMode] hc (c := { s.core with intFlag := true }) .ends rfl rfl trivial (by simp [Frame.outside])
      (by simp [Replaces, NoPart, Frame.isPart, Frame.isGround])
  case exitLoop =>
    exact .plain [.exitLoop] hc (c := s.core) .yields rfl rfl trivial (by simp [Frame.outside])
      (by simp [Replaces, NoPart, Frame.isPart, Frame.isGround])
  case bootLoop =>
    exact .acts s.core _ [.bootLoop] k none hc rfl trivial rfl rfl .yields (by simp)
      (by simp [Replaces, NoPart, Frame.isPart, Frame.isGround])
      fun _ => mem_or_scheduler [.schedule, .unlockSchedule] hc (by simp [Frame.isScheduler])
  case reapLoop =>
    obtain ⟨t, ht, -⟩ := hout rfl
    refine .acts s.core _ [.reapLoop] k none hc rfl trivial rfl rfl (opCore_reapAllTasks ok ht) (by simp)
      (by simp [Replaces, NoPart, Frame.isPart, Frame.isGround]) fun _ => ?_
    rw [control_reapAllTasks ok ht]
    exact mem_or_scheduler _ hc (by simp [Frame.isScheduler])

theorem stackStep_syscall {num arg : Nat} (hb : Balanced s.core) (hc : s.control = .userMode :: k) :
    StackStep s (.syscall num arg) (syscall num arg (.userMode :: k) s) := by
  let s1 : Kernel := { s with intFlag := false }
  obtain ⟨t, ht, hi⟩ := hb.outside hc rfl
  have hr : Replaces .userMode [.syscallReturn num, .userMode] := by simp [Replaces, NoPart, Frame.isPart, Frame.isGround]
  unfold syscall
  dsimp only
  split
  · exact .plain [.exitLoop, .syscallReturn 1, .userMode] hc (c := s1.core)
      (opCore_terminateTask (s := s1) ht (Int.le_of_eq hi.symm)) rfl rfl trivial (by simp [Frame.outside])
      (by simp [Replaces, NoPart, Frame.isPart, Frame.isGround])
  · exact .plain _ hc (c := s1.core) .yields rfl rfl trivial (by simp [Frame.outside]) hr
  · exact .plain _ hc (c := s1.core) (opCore_nanoSleepUntil (s := s1) _ ht) rfl rfl trivial (by simp [Frame.outside]) hr
  · exact .plain _ hc (c := s1.core) .ends rfl rfl trivial (by simp [Frame.outside]) hr

theorem stackStep_of_step (hb : Balanced s.core) (hs : step s act = some s') : StackStep s act s' := by
  obtain ⟨ok, f, k, rfl, hc, hs⟩ | ⟨op, k, rfl, hc, -, rfl⟩ | ⟨k, rfl, hc, rfl⟩ | ⟨num, arg, k, rfl, hc, rfl⟩ |
    ⟨k, rfl, hc, rfl⟩ | ⟨rfl, hif, rfl⟩ := step_cases hs
  · exact stackStep_execFrame hb hc hs
  · obtain ⟨t, ht, hi⟩ := hb.outside hc rfl
    exact .acts s.core _ [.body] k _ hc rfl trivial rfl rfl (opCore_callOp op ht (Int.le_of_eq hi.symm)) (fun g hg => hg)
      (by simp [Replaces, NoPart, Frame.isPart, Frame.isGround]) (by simp)
  · obtain ⟨t, ht, hi⟩ := hb.outside hc rfl
    exact .plain [.exitLoop] hc (opCore_terminateTask ht (Int.le_of_eq hi.symm)) rfl rfl trivial (by simp [Frame.outside])
      (by simp [Replaces, NoPart, Frame.isPart, Frame.isGround])
  · exact stackStep_syscall hb hc
  · obtain ⟨t, ht, hi⟩ := hb.outside hc rfl
    exact .plain [.exitLoop] hc (opCore_terminateTask (s := { s with intFlag := false }) ht (Int.le_of_eq hi.symm)) rfl rfl
      trivial (by simp [Frame.outside]) (by simp [Replaces, NoPart, Frame.isPart, Frame.isGround])
  · exact .goes (timerIrq s).core [.timerCheckSleepingTasks, .schedulerTimeSliceTick, .irqReturn] s.control (fun ha => ha.2)
      (.inl rfl) (fun _ => rfl) rfl rfl rfl (by simp [Frame.isScheduler])

/-! ## Part frames -/

structure PartsStep (s : Kernel) (act : Act) (s' : Kernel) : Prop where
  clean : CleanStacks s'.core
  others : ∀ u g, u ≠ s.onStack → g ∈ s'.core.stackOf u → g.isPart = true → g ∈ s.core.stackOf u
  acts : Acts s act → ∀ g ∈ s'.core.stackOf s.onStack, g.isPart = true → Leaves s act g
  waits : ¬ Acts s act → ∀ g ∈ s'.core.stackOf s.onStack, g.isPart = true → g ∈ s.control
  top : Acts s act → s'.onStack = s.onStack ∧ ∀ g ∈ s'.control, g.isPart = true → ∃ k, s'.control = g :: k

theorem Frame.isScheduler_inside (h : f.isScheduler = true) : f.outside = false := by
  cases f <;> first | rfl | cases h

theorem Clean.append {top : List Frame} (htop : ∀ g ∈ top, g.isScheduler = true) (h : Clean k) : Clean (top ++ k) := by
  induction top with
  | nil => exact h
  | cons g top ih =>
    exact (ih fun g' hg' => htop g' (List.mem_cons_of_mem _ hg')).cons (Frame.isScheduler_inside (htop g List.mem_cons_self))

theorem noPart_append {k' : List Frame} (h : NoPart k) (h' : NoPart k') : NoPart (k ++ k') := fun g hg =>
  (List.mem_append.1 hg).elim (h g) (h' g)

theorem Core.StacksFrom.clean (hs : c.StacksFrom c') (h : CleanStacks c) (hon : Clean (c'.stackOf c.onStack)) :
    CleanStacks c' := by
  intro u
  by_cases hu : u = c.onStack
  · rw [hu]; exact hon
  · rcases hs u hu with he | hn
    · rw [he]; exact h u
    · exact hn.clean

theorem Core.StacksFrom.others (hs : c.StacksFrom c') {u : Tid} {g : Frame} (hu : u ≠ c.onStack)
    (hg : g ∈ c'.stackOf u) (hp : g.isPart = true) : g ∈ c.stackOf u := by
  rcases hs u hu with he | hn
  · rwa [he] at hg
  · exact absurd hp (by rw [hn g hg]; decide)

theorem PartsStep.of_op (h : CleanStacks s.core) (hc : s.control = f :: k) (hf : f.outside = true)
    (hact : match act with | .timerIrq => False | _ => True) (hon : c.onStack = s.onStack)
    (hst : c.stack = s.stack) {k' : List Frame} (ho : OpCore new k' c s'.core) (hk' : NoPart k')
    (hl : ∀ g, new = some g → Leaves s act g) : PartsStep s act s' := by
  have hfrom : s.core.StacksFrom s'.core := by
    intro u hu
    have hs := ho.stacksFrom u (by rwa [hon])
    rwa [show c.stackOf u = s.core.stackOf u by
      rw [Core.stackOf, Core.stackOf, if_neg (by rwa [hon]), if_neg hu, hst]; rfl] at hs
  have hcon : s'.core.stackOf s.onStack = s'.control := by
    have h1 : s.onStack = s'.core.onStack := (ho.onStack.trans hon).symm
    rw [h1]; exact stackOf_onStack _
  obtain ⟨hsome, hnone⟩ := ho.control hk'
  refine ⟨hfrom.clean h ?_, fun u g hu hg hp => hfrom.others hu hg hp, fun _ g hg hp => ?_,
    fun hna => absurd ⟨⟨f, k, hc, hf⟩, hact⟩ hna, fun _ => ⟨ho.onStack.trans hon, fun g hg hp => ?_⟩⟩
  · show Clean (s'.core.stackOf s.onStack)
    rw [hcon]
    cases hn : new with
    | none => exact (hnone hn).clean
    | some g =>
      obtain ⟨-, k'', hk'', hnp⟩ := hsome g hn
      rw [show s'.control = g :: k'' from hk'']
      exact hnp.clean_cons
  · rw [hcon] at hg
    cases hn : new with
    | none => exact absurd hp (by rw [hnone hn g hg]; decide)
    | some g' =>
      obtain ⟨-, k'', hk'', hnp⟩ := hsome g' hn
      rw [show s'.control = g' :: k'' from hk''] at hg
      rcases List.mem_cons.1 hg with rfl | hg
      · exact hl _ hn
      · exact absurd hp (by rw [hnp g hg]; decide)
  · cases hn : new with
    | none => exact absurd hp (by rw [hnone hn g hg]; decide)
    | some g' =>
      obtain ⟨-, k'', hk'', hnp⟩ := hsome g' hn
      rw [show s'.control = g' :: k'' from hk''] at hg ⊢
      rcases List.mem_cons.1 hg with rfl | hg
      · exact ⟨k'', rfl⟩
      · exact absurd hp (by rw [hnp g hg]; decide)

/-- A step that leaves the part frames alone: inside a lock section, in the interrupt handler, or the interrupt. -/
theorem PartsStep.of_goto (h : CleanStacks s.core) (hna : ¬ Acts s act) (hon : c.onStack = s.onStack)
    (hst : c.stack = s.stack) (hs : ∀ u, s'.core.stackOf u = c.stackOf u) (hcl : Clean c.control)
    (hsub : ∀ g ∈ c.control, g.isPart = true → g ∈ s.control) : PartsStep s act s' := by
  have hfrom : s.core.StacksFrom s'.core := by
    intro u hu
    refine .inl ((hs u).trans ?_)
    rw [Core.stackOf, Core.stackOf, if_neg (by rwa [hon]), if_neg hu, hst]; rfl
  have hcon : s'.core.stackOf s.onStack = c.control := by
    rw [hs, ← hon]; exact stackOf_onStack c
  refine ⟨hfrom.clean h ?_, fun u g hu hg hp => hfrom.others hu hg hp,
    fun ha => absurd ha hna, fun _ g hg hp => ?_, fun ha => absurd ha hna⟩
  · show Clean (s'.core.stackOf s.onStack)
    rw [hcon]; exact hcl
  · rw [hcon] at hg
    exact hsub g hg hp

theorem CleanStacks.control (h : CleanStacks s.core) : Clean s.control := by
  have hon := h s.onStack
  rwa [show s.core.stackOf s.onStack = s.control from stackOf_onStack s.core] at hon

theorem CleanStacks.calls (h : CleanStacks s.core) (hc : s.control = f :: k) : Clean (f :: k) := by
  rw [← hc]; exact h.control

theorem parts_step (hb : Balanced s.core) (h : CleanStacks s.core) (hs : step s act = some s') :
    PartsStep s act s' := by
  cases stackStep_of_step hb hs with
  | goes c top k waits below same onStack stack control calls =>
    obtain ⟨hk, hsub⟩ : Clean k ∧ ∀ g ∈ k, g ∈ s.control := by
      rcases below with rfl | ⟨f, hc, -⟩
      · exact ⟨h.control, fun g hg => hg⟩
      · exact ⟨(h.calls hc).tail, fun g hg => mem_of_tail hc hg⟩
    refine .of_goto h waits onStack stack same (by rw [control]; exact Clean.append calls hk) fun g hg hp => ?_
    rw [control] at hg
    rcases List.mem_append.1 hg with hg | hg
    · exact absurd (Frame.isScheduler_inside (calls g hg)) (by rw [Frame.outside_of_isPart hp]; decide)
    · exact hsub g hg
  | acts c f top k new hc outside own onStack stack op leaves replaces =>
    exact .of_op h hc outside own onStack stack op (noPart_append replaces.1 ((h.calls hc).1 outside)) leaves

theorem noPart_start {b : Boot} (h : Starts b s) (u : Tid) : NoPart (s.core.stackOf u) := by
  obtain ⟨f, hf, rfl⟩ := h.eq
  intro g hg
  change g ∈ if u = b.boot then [f] else if u = b.reaper then [.kernelTaskStartup, .reapLoop]
    else [.kernelTaskStartup, .body] at hg
  split at hg
  · rw [List.mem_singleton.1 hg]
    rcases hf with rfl | rfl <;> rfl
  · split at hg
    · simp only [List.mem_cons, List.not_mem_nil, or_false] at hg
      rcases hg with rfl | rfl <;> rfl
    · simp only [List.mem_cons, List.not_mem_nil, or_false] at hg
      rcases hg with rfl | rfl <;> rfl

theorem clean_start {b : Boot} (h : Starts b s) : CleanStacks s.core := fun u => (noPart_start h u).clean

end Steps

end ToastOS.Task
