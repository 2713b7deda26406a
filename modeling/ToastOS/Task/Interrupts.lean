import ToastOS.Task.BalanceStep

/-!
# The interrupt flag

`unlock_schedule` and `unlock_stuff` set the flag when `IRQ_disable_counter` reaches 0; they do not restore what
they found. So code that was entered with interrupts masked and the counter at 0 loses the mask at its first
unlock.

* `runLocks_wellNested` : what a well-nested sequence of lock calls does to the flag;
* `Above`, `Flow` : which call can stand on which, as far as the flag is concerned;
* `flagFlow_step` : every step keeps this together with the value the flag has at the end of `syscall_entry` and
  between the calls of `timer_handler`.
-/

namespace ToastOS.Task

open ToastOS.Lib (Queue Reach Any checked)
open Function

variable {c c' : Core} {f g : Frame} {k : List Frame} {b i p : Int} {t : Tid}

/-! ## Sequences of lock calls -/

/-- The four lock functions. -/
inductive LockOp
  | lockSchedule
  | unlockSchedule
  | lockStuff
  | unlockStuff
  deriving DecidableEq, Repr

/-- The call, where no switch is pending (`unlock_stuff` does not call `schedule()` then). -/
def LockOp.run (s : Kernel) : LockOp → Kernel
  | .lockSchedule => Task.lockSchedule s
  | .unlockSchedule => Task.unlockSchedule s
  | .lockStuff => Task.lockStuff s
  | .unlockStuff => unlockStuffTail (Task.unlockStuff [] s)

def runLocks (s : Kernel) (ops : List LockOp) : Kernel := ops.foldl LockOp.run s

/-- Balanced and well nested. -/
inductive WellNested : List LockOp → Prop
  | nil : WellNested []
  | schedule {a c} : WellNested a → WellNested c → WellNested (.lockSchedule :: (a ++ .unlockSchedule :: c))
  | stuff {a c} : WellNested a → WellNested c → WellNested (.lockStuff :: (a ++ .unlockStuff :: c))

/-- What a lock sequence leaves: the counters as they were, and the flag set iff the outer counter is 0, unless
nothing was called at all. -/
structure LocksDone (s s' : Kernel) (ops : List LockOp) : Prop where
  irqDisable : s'.irqDisable = s.irqDisable
  postpone : s'.postpone = s.postpone
  flag : s'.postponedFlag = false
  intFlag : s'.intFlag = if ops = [] then s.intFlag else decide (s.irqDisable = 0)

/-- `lk` and `ul` are a lock and its unlock: by 1 on the first counter and by `d` on the second. -/
structure LockPair (lk ul : LockOp) (d : Int) : Prop where
  lock : ∀ s, (lk.run s).irqDisable = s.irqDisable + 1 ∧ (lk.run s).postpone = s.postpone + d ∧
    (lk.run s).postponedFlag = s.postponedFlag ∧ (lk.run s).intFlag = false
  unlock : ∀ s, s.postponedFlag = false → (ul.run s).irqDisable = s.irqDisable - 1 ∧
    (ul.run s).postpone = s.postpone - d ∧ (ul.run s).postponedFlag = false ∧
    (ul.run s).intFlag = if s.irqDisable - 1 = 0 then true else s.intFlag

theorem lockPair_schedule : LockPair .lockSchedule .unlockSchedule 0 where
  lock := fun _ => ⟨rfl, (Int.add_zero _).symm, rfl, rfl⟩
  unlock := fun _ h => ⟨rfl, (Int.sub_zero _).symm, h, rfl⟩

theorem lockPair_stuff : LockPair .lockStuff .unlockStuff 1 where
  lock := fun _ => ⟨rfl, rfl, rfl, rfl⟩
  unlock := by
    intro s h
    have hc : ¬ (s.postpone - 1 = 0 ∧ s.postponedFlag = true) := by
      intro hc
      rw [h] at hc
      cases hc.2
    simp only [LockOp.run, unlockStuff, if_neg hc, unlockStuffTail, true_and, and_true]
    exact h

theorem runLocks_cons (s : Kernel) (op : LockOp) (ops : List LockOp) :
    runLocks s (op :: ops) = runLocks (op.run s) ops := rfl

theorem runLocks_append (s : Kernel) (a c : List LockOp) : runLocks s (a ++ c) = runLocks (runLocks s a) c :=
  List.foldl_append

/-- One pair of brackets: inside, the counter is positive, so the inner sequence leaves the flag clear; the unlock
sets it iff the outer counter is 0. -/
theorem LockPair.locksDone {lk ul : LockOp} {d : Int} (h : LockPair lk ul d) {a c : List LockOp}
    (iha : ∀ s : Kernel, 0 ≤ s.irqDisable → s.postponedFlag = false → LocksDone s (runLocks s a) a)
    (ihc : ∀ s : Kernel, 0 ≤ s.irqDisable → s.postponedFlag = false → LocksDone s (runLocks s c) c)
    (s : Kernel) (hi : 0 ≤ s.irqDisable) (hfl : s.postponedFlag = false) :
    LocksDone s (runLocks s (lk :: (a ++ ul :: c))) (lk :: (a ++ ul :: c)) := by
  obtain ⟨l1, l2, l3, l4⟩ := h.lock s
  have ha := iha (lk.run s) (by omega) (l3.trans hfl)
  obtain ⟨u1, u2, u3, u4⟩ := h.unlock (runLocks (lk.run s) a) ha.flag
  have hin : (runLocks (lk.run s) a).intFlag = false := by
    rw [ha.intFlag]
    split
    · exact l4
    · exact decide_eq_false (by omega)
  have hirq : (ul.run (runLocks (lk.run s) a)).irqDisable = s.irqDisable := by
    rw [u1, ha.irqDisable, l1]
    omega
  have hpost : (ul.run (runLocks (lk.run s) a)).postpone = s.postpone := by
    rw [u2, ha.postpone, l2]
    omega
  have hout : (ul.run (runLocks (lk.run s) a)).intFlag = decide (s.irqDisable = 0) := by
    rw [u4, ← u1, hirq, hin]
    by_cases h0 : s.irqDisable = 0 <;> simp [h0]
  have hc := ihc (ul.run (runLocks (lk.run s) a)) (by omega) u3
  rw [runLocks_cons, runLocks_append, runLocks_cons]
  refine ⟨hc.irqDisable.trans hirq, hc.postpone.trans hpost, hc.flag, ?_⟩
  rw [hc.intFlag, hout, hirq, if_neg (List.cons_ne_nil _ _)]
  split <;> rfl

theorem runLocks_wellNested {ops : List LockOp} (h : WellNested ops) :
    ∀ s : Kernel, 0 ≤ s.irqDisable → s.postponedFlag = false → LocksDone s (runLocks s ops) ops := by
  induction h with
  | nil =>
    intro s _ hfl
    exact ⟨rfl, rfl, hfl, rfl⟩
  | schedule _ _ iha ihc => exact lockPair_schedule.locksDone iha ihc
  | stuff _ _ iha ihc => exact lockPair_stuff.locksDone iha ihc

/-! ## Which call stands on which -/

/-- Calls that end with the counter lowered, so with the flag set where it reaches 0. -/
def Frame.endsUnlocked : Frame → Bool
  | .unlockSchedule | .unlockStuff | .unlockStuffTail => true
  | _ => false

/-- `f` may be the call directly above `g`, with `k` below both. On the return of a system call only the unlock of
`yield` or `nano_sleep`, an interrupt, or a loop that never ends; on a call of `timer_handler` the one before
it, its unlock, or a second interrupt, which needs interrupts on and so no idle loop below. -/
def Above (f g : Frame) (k : List Frame) : Prop :=
  match g with
  | .syscallReturn num =>
    f = .exitLoop ∨ ((num = 3 ∨ num = 4) ∧ (f.endsUnlocked = true ∨ f = .irqReturn))
  | .schedulerTimeSliceTick | .irqReturn =>
    f = .timerCheckSleepingTasks ∨ f = .schedulerTimeSliceTick ∨ f.endsUnlocked = true ∨
      (f = .irqReturn ∧ ∀ p, .idle p ∉ k)
  | .timerCheckSleepingTasks => False
  | _ => True

/-- `Above` for every two calls of a stack. -/
def Flow : List Frame → Prop
  | f :: g :: k => Above f g k ∧ Flow (g :: k)
  | _ => True

/-- What the flag is when `f` is about to go on. -/
def Frame.FlagAt (irqDisable : Int) (intFlag : Bool) : Frame → Prop
  | .syscallReturn num => intFlag = true ↔ num = 3 ∨ num = 4
  | .schedulerTimeSliceTick | .irqReturn => intFlag = true ↔ irqDisable = 0
  | .timerCheckSleepingTasks => intFlag = false
  | _ => True

/-- The flag is what the running call expects, and every stack is in order. -/
structure FlagFlow (c : Core) : Prop where
  head : ∀ f k, c.control = f :: k → f.FlagAt c.irqDisable c.intFlag
  control : Flow c.control
  stack : ∀ t, t ≠ c.onStack → Flow (c.stack t)

theorem Flow.tail (h : Flow (f :: k)) : Flow k := by
  cases k with
  | nil => trivial
  | cons g k => exact h.2

def Frame.free : Frame → Bool
  | .syscallReturn _ | .schedulerTimeSliceTick | .irqReturn | .timerCheckSleepingTasks => false
  | _ => true

theorem above_free (h : g.free = true) : Above f g k := by
  cases g <;> trivial

theorem flagAt_free (h : f.free = true) (i : Int) (b : Bool) : f.FlagAt i b := by
  cases f <;> trivial

theorem Flow.cons_free (hg : g.free = true) (h : Flow (g :: k)) : Flow (f :: g :: k) :=
  ⟨above_free hg, h⟩

theorem above_unlock (hf : f.endsUnlocked = true)
    (hg : ∀ num, g = .syscallReturn num → num = 3 ∨ num = 4) (hc : g ≠ .timerCheckSleepingTasks) :
    Above f g k := by
  cases g with
  | syscallReturn num => exact .inr ⟨hg num rfl, .inl hf⟩
  | schedulerTimeSliceTick => exact .inr (.inr (.inl hf))
  | irqReturn => exact .inr (.inr (.inl hf))
  | timerCheckSleepingTasks => exact absurd rfl hc
  | _ => trivial

theorem Flow.replace_unlock {f' : Frame} (hf : f.endsUnlocked = true)
    (hf' : f'.endsUnlocked = true) (h : Flow (f :: k)) : Flow (f' :: k) := by
  cases k with
  | nil => trivial
  | cons g k =>
    refine ⟨above_unlock hf' ?_ ?_, h.2⟩
    · rintro num rfl
      rcases h.1 with he | he
      · rw [he] at hf
        cases hf
      · exact he.1
    · rintro rfl
      exact h.1

/-! ## Steps -/

/-- The call that comes back, if any, is one the flag says nothing about. -/
def FreeHead (k : List Frame) : Prop := ∀ g k', k = g :: k' → g.free = true

/-- Calls that only stand on such calls. -/
def Frame.plain (f : Frame) : Bool := !(f.endsUnlocked || f.inIrq || f == .exitLoop)

theorem Flow.freeHead (h : Flow (f :: k)) (hf : f.plain = true) : FreeHead k := by
  rintro g k' rfl
  have ha : Above f g k' := h.1
  cases g <;> first | rfl | (cases f <;> simp_all [Above, Frame.plain, Frame.endsUnlocked, Frame.inIrq])

theorem Flow.cons_freeHead (hk : FreeHead k) (h : Flow k) : Flow (f :: k) := by
  cases k with
  | nil => trivial
  | cons g k => exact h.cons_free (hk g k rfl)

def Core.StacksFlow (c : Core) : Prop := ∀ t, t ≠ c.onStack → Flow (c.stack t)

theorem FlagFlow.of_freeHead (hk : FreeHead c.control) (h : Flow c.control) (hs : c.StacksFlow) :
    FlagFlow c :=
  ⟨fun f k hc => flagAt_free (hk f k hc) _ _, h, hs⟩

theorem freeHead_cons (hf : f.free = true) : FreeHead (f :: k) := by
  rintro g k' he
  cases he
  exact hf

/-- Operations made from a call the flag says nothing about. -/
theorem OpCore.flow {new : Option Frame} (ho : OpCore new k c c') (hk : FreeHead k) (h : Flow k)
    (hs : c.StacksFlow) : FlagFlow c' := by
  induction ho with
  | ends => exact .of_freeHead hk h hs
  | through => exact .of_freeHead hk h hs
  | @part k c f hf =>
    have hfree : f.free = true := by cases f <;> trivial
    exact .of_freeHead (freeHead_cons hfree) (h.cons_freeHead hk) hs
  | yields => exact .of_freeHead (freeHead_cons rfl) (.cons_free rfl (h.cons_freeHead hk)) hs
  | locked => exact .of_freeHead (freeHead_cons rfl) (h.cons_freeHead hk) hs
  | blocks => exact .of_freeHead (freeHead_cons rfl) (.cons_free rfl (.cons_free rfl (h.cons_freeHead hk))) hs
  | dies =>
    exact .of_freeHead (freeHead_cons rfl)
      (.cons_free rfl (.cons_free rfl (.cons_free rfl (h.cons_freeHead hk)))) hs
  | returns _ ih => exact ih (freeHead_cons rfl) (h.cons_freeHead hk) hs
  | @creates k c c' a entry he _ ih =>
    apply ih hk h
    intro t ht
    show Flow (update c.stack a [.kernelTaskStartup, entry] t)
    by_cases hta : t = a
    · rw [hta, update_self]
      refine ⟨above_free ?_, trivial⟩
      rcases he with rfl | rfl <;> rfl
    · rw [update_of_ne hta]
      exact hs t ht
  | logs _ _ ih => exact ih hk h hs

/-- A stack with an idle loop below is one the CPU is idle on. -/
theorem Owes.idle_mem (h : Owes b i p k) (hb : b ≠ 0) : ∃ q, Frame.idle q ∈ k := by
  induction h with
  | @idle f k parked => exact ⟨parked, List.mem_cons_self⟩
  | inIrq _ _ ih =>
    obtain ⟨q, hq⟩ := ih hb
    exact ⟨q, List.mem_cons_of_mem _ hq⟩
  | tail _ ih =>
    obtain ⟨q, hq⟩ := ih hb
    exact ⟨q, List.mem_cons_of_mem _ hq⟩
  | unlockStuff _ ih =>
    obtain ⟨q, hq⟩ := ih hb
    exact ⟨q, List.mem_cons_of_mem _ hq⟩
  | _ => exact absurd rfl hb

section Steps

variable {s s' : Kernel}

/-- After a decrement the flag is what the next call expects. -/
theorem FlagFlow.pay (h : FlagFlow c) (hb : Balanced c) (hc : c.control = f :: k)
    (hf : f.paysOne = true) : FlagFlow (c.unlock.goto k) := by
  have hfl : Flow (f :: k) := hc ▸ h.control
  have hbal : Balanced (c.unlock.goto k) := hb.pay hc hf
  have howes : Owes c.base (c.irqDisable - 1) c.postpone k := hbal.owes
  have hle := howes.bounds
  have hoff : c.intFlag = false := by
    apply Bool.eq_false_iff.2
    intro hif
    have := hb.intFlag hif
    omega
  refine ⟨?_, hfl.tail, h.stack⟩
  rintro g k' (rfl : k = g :: k')
  show g.FlagAt (c.irqDisable - 1) (if c.irqDisable - 1 = 0 then true else c.intFlag)
  have ha : Above f g k' := hfl.1
  cases g with
  | syscallReturn num =>
    have hi : c.irqDisable - 1 = 0 := (howes.of_outside rfl).2.1
    rw [if_pos hi]
    rcases ha with rfl | ⟨hn, _⟩
    · cases hf
    · exact ⟨fun _ => hn, fun _ => rfl⟩
  | schedulerTimeSliceTick =>
    show _ = true ↔ _
    rw [hoff]
    split <;> simp_all
  | irqReturn =>
    show _ = true ↔ _
    rw [hoff]
    split <;> simp_all
  | timerCheckSleepingTasks => exact ha.elim
  | _ => trivial

/-- Back from an interrupt the flag is set, and it was set when the interrupt came. -/
theorem flagFlow_irqReturn (hb : Balanced c) (h : FlagFlow c) (hc : c.control = .irqReturn :: k) :
    FlagFlow { c with intFlag := true, control := k } := by
  have hfl : Flow (.irqReturn :: k) := hc ▸ h.control
  obtain ⟨hi, hk⟩ := hb.pop_inIrq hc rfl
  have howes : Owes c.base c.irqDisable c.postpone k := hk.owes
  refine ⟨?_, hfl.tail, h.stack⟩
  rintro g k' (rfl : k = g :: k')
  have ha : Above .irqReturn g k' := hfl.1
  -- a second interrupt does not come above an idle loop
  have hzero : (∀ p, Frame.idle p ∉ g :: k') → c.irqDisable = 0 := by
    intro hno
    by_contra hne
    obtain ⟨q, hq⟩ := howes.idle_mem (by omega)
    exact hno q hq
  cases g with
  | syscallReturn num =>
    rcases ha with he | ⟨hn, _⟩
    · cases he
    · exact ⟨fun _ => hn, fun _ => rfl⟩
  | schedulerTimeSliceTick =>
    rcases ha with he | he | he | ⟨-, hno⟩
    · cases he
    · cases he
    · cases he
    · exact ⟨fun _ => hzero (by simpa using hno), fun _ => rfl⟩
  | irqReturn =>
    rcases ha with he | he | he | ⟨-, hno⟩
    · cases he
    · cases he
    · cases he
    · exact ⟨fun _ => hzero (by simpa using hno), fun _ => rfl⟩
  | timerCheckSleepingTasks => exact ha.elim
  | _ => trivial

/-- In a lock section the running call is one the flag says nothing about. -/
theorem Owes.freeHead (h : Owes b i p k) (hi : i ≠ b) : FreeHead k := by
  rintro g k' rfl
  cases h <;> first | rfl | exact absurd rfl hi

theorem FlagFlow.switch {prev next : Tid} (hb : Balanced (c.switch prev next k)) (hk : Flow k)
    (hs : c.StacksFlow) (hon : prev = c.onStack) (hi : c.irqDisable = 1) : FlagFlow (c.switch prev next k) := by
  have hstack : ∀ t, (t = prev ∨ t ≠ c.onStack) → Flow (update c.stack prev k t) := by
    intro t ht
    by_cases htp : t = prev
    · rw [htp, update_self]; exact hk
    · rw [update_of_ne htp]
      exact hs t (ht.resolve_left htp)
  have howes : Owes 0 c.irqDisable c.postpone (update c.stack prev k next) := hb.owes
  refine .of_freeHead (howes.freeHead (by omega)) (hstack next ?_) ?_
  · rw [hon]; exact Decidable.em _
  · intro t _
    apply hstack t
    rw [hon]; exact Decidable.em _

theorem flagFlow_schedule (hb : Balanced s.core) (h : FlagFlow s.core) (hc : s.control = .schedule :: k) :
    FlagFlow (schedule k s).core := by
  have hfl : Flow (.schedule :: k) := hc ▸ h.control
  have hfree : FreeHead k := hfl.freeHead rfl
  have hbal := balanced_schedule hb hc
  by_cases hp : s.postpone = 0
  · have ho := hb.owes_of hc
    have hbase : s.core.base = 0 ∧ s.irqDisable = 1 := by
      obtain ⟨hb0, ⟨hp1, -⟩ | ⟨hi, -, -⟩⟩ := ho.of_schedule
      · omega
      · exact ⟨hb0, hi⟩
    obtain ⟨prev, hcur⟩ := Core.current_of_base hbase.1
    have hon : prev = s.onStack := hb.current prev hcur
    rcases core_schedule k hcur hp with hcore | hcore | ⟨next, hcore⟩
    · rw [hcore]; exact .of_freeHead hfree hfl.tail h.stack
    · rw [hcore]; exact .of_freeHead (freeHead_cons rfl) (hfl.tail.cons_freeHead hfree) h.stack
    · rw [hcore] at hbal ⊢
      exact .switch hbal hfl.tail h.stack hon hbase.2
  · rw [core_schedule_postponed k hp]
    exact .of_freeHead hfree hfl.tail h.stack

theorem flagFlow_idleLoop {parked : Tid} (hb : Balanced s.core) (h : FlagFlow s.core)
    (hc : s.control = .idle parked :: k) : FlagFlow (idleLoop parked k s).core := by
  have hfl : Flow (.idle parked :: k) := hc ▸ h.control
  have hfree : FreeHead k := hfl.freeHead rfl
  have hbal := balanced_idleLoop hb hc
  have hon : parked = s.onStack := hb.parked_onStack hc
  have ho := hb.owes_of hc
  obtain ⟨-, hi, hp, -⟩ := ho.of_idle
  rcases core_idleLoop parked k hp with hcore | hcore | ⟨next, hcore⟩
  · rw [hcore]
    refine .of_freeHead ?_ h.control h.stack
    show FreeHead s.control
    rw [hc]; exact freeHead_cons rfl
  · rw [hcore]; exact .of_freeHead hfree hfl.tail h.stack
  · rw [hcore] at hbal ⊢
    exact .switch hbal hfl.tail h.stack hon hi

theorem flagFlow_unlockStuff (h : FlagFlow s.core) (hc : s.control = .unlockStuff :: k) :
    FlagFlow (unlockStuff k s).core := by
  have hfl : Flow (.unlockStuff :: k) := hc ▸ h.control
  have ht : Flow (.unlockStuffTail :: k) := hfl.replace_unlock rfl rfl
  unfold unlockStuff
  split
  · exact .of_freeHead (freeHead_cons rfl) (ht.cons_free rfl) h.stack
  · exact .of_freeHead (freeHead_cons rfl) ht h.stack

theorem flagFlow_wakeReaper (hb : Balanced s.core) (h : FlagFlow s.core) (hc : s.control = .wakeReaper :: k) :
    FlagFlow ({ wakeReaper s with control := k } : Kernel).core := by
  have hfl : Flow (.wakeReaper :: k) := hc ▸ h.control
  show FlagFlow ((wakeReaper s).core.goto k)
  rw [core_wakeReaper (hb.locked_wakeReaper hc)]
  exact .of_freeHead (hfl.freeHead rfl) hfl.tail h.stack

/-- The handler's next call takes the locks: its `unlock_stuff` stands where the call stood. -/
theorem Flow.unlock_of_timer (h : Flow (f :: k))
    (hf : f = .timerCheckSleepingTasks ∨ f = .schedulerTimeSliceTick) : Flow (.unlockStuff :: k) := by
  cases k with
  | nil => trivial
  | cons g k =>
    refine ⟨above_unlock rfl ?_ ?_, h.2⟩
    · rintro num rfl
      rcases h.1 with he | ⟨hn, _⟩
      · rcases hf with rfl | rfl <;> cases he
      · exact hn
    · rintro rfl
      exact h.1

theorem flagFlow_timerCheckSleepingTasks (hb : Balanced s.core) (h : FlagFlow s.core)
    (hc : s.control = .timerCheckSleepingTasks :: k) : FlagFlow (timerCheckSleepingTasks k s).core := by
  have hfl : Flow (.timerCheckSleepingTasks :: k) := hc ▸ h.control
  have ho : Owes s.core.base s.irqDisable s.postpone s.control := hb.owes
  have hle := ho.bounds
  rw [core_timerCheckSleepingTasks (by omega)]
  exact .of_freeHead (freeHead_cons rfl) (hfl.unlock_of_timer (.inl rfl)) h.stack

theorem flagFlow_schedulerTimeSliceTick (h : FlagFlow s.core) (hc : s.control = .schedulerTimeSliceTick :: k) :
    FlagFlow (schedulerTimeSliceTick k s).core := by
  have hfl : Flow (.schedulerTimeSliceTick :: k) := hc ▸ h.control
  have hu : Flow (.unlockStuff :: k) := hfl.unlock_of_timer (.inr rfl)
  rcases core_schedulerTimeSliceTick (s := s) (k := k) with hcore | ⟨-, hcore⟩ <;> rw [hcore]
  · exact .of_freeHead (freeHead_cons rfl) hu h.stack
  · exact .of_freeHead (freeHead_cons rfl) (hu.cons_free rfl) h.stack

/-- An interrupt is taken only with the flag set, which says what it can land on. -/
theorem flagFlow_timerIrq (hb : Balanced s.core) (h : FlagFlow s.core) (hif : s.intFlag = true) :
    FlagFlow (timerIrq s).core := by
  have hland : Flow (.irqReturn :: s.control) := by
    cases hc : s.control with
    | nil => trivial
    | cons g k =>
      have hg : g.FlagAt s.irqDisable s.intFlag := h.head g k hc
      have hfl : Flow (g :: k) := hc ▸ h.control
      refine ⟨?_, hfl⟩
      rw [hif] at hg
      have hno : s.irqDisable = 0 → ∀ p, Frame.idle p ∉ k := by
        intro hi p hp
        have ho := hb.owes_of hc
        have hle := ho.bounds
        exact ho.no_idle (by omega) p (List.mem_cons_of_mem _ hp)
      cases g with
      | syscallReturn num => exact .inr ⟨hg.1 rfl, .inr rfl⟩
      | schedulerTimeSliceTick => exact .inr (.inr (.inr ⟨rfl, hno (hg.1 rfl)⟩))
      | irqReturn => exact .inr (.inr (.inr ⟨rfl, hno (hg.1 rfl)⟩))
      | timerCheckSleepingTasks => cases hg
      | _ => trivial
  refine ⟨?_, ⟨.inl rfl, .inr (.inl rfl), hland⟩, h.stack⟩
  rintro g k' he
  cases he
  rfl

theorem flagFlow_syscall (num arg : Nat) (hb : s.core.base = 0) (hi : s.irqDisable = 0) (hk : FreeHead k)
    (h : Flow k) (hs : s.core.StacksFlow) : FlagFlow (syscall num arg k s).core := by
  let s1 : Kernel := { s with intFlag := false }
  obtain ⟨t, ht⟩ := Core.current_of_base hb
  have ht : s1.currentTask = some t := ht
  have hret : Flow (.syscallReturn num :: k) := h.cons_freeHead hk
  -- `yield` and `nano_sleep` end with an unlock above the return
  have hunlock : num = 3 ∨ num = 4 → ∀ f : Frame, f.endsUnlocked = true → Flow (f :: .syscallReturn num :: k) :=
    fun hn f hf => ⟨.inr ⟨hn, .inl hf⟩, hret⟩
  unfold syscall
  dsimp only
  split
  · refine (opCore_terminateTask (s := s1) ht (Int.le_of_eq hi.symm)).flow (freeHead_cons rfl) ?_ hs
    exact ⟨.inl rfl, hret⟩
  · exact .of_freeHead (freeHead_cons rfl) (.cons_free rfl (hunlock (.inl rfl) _ rfl)) hs
  · rcases core_nanoSleepUntil (s := s1) (k := .syscallReturn 4 :: k)
      (u64 (getUptimeNs s1 + u64 (arg * 1000000))) ht with hc | hc
    · rw [nanoSleep, hc]
      exact .of_freeHead (freeHead_cons rfl) (hunlock (.inr rfl) _ rfl) hs
    · rw [nanoSleep, hc]
      exact .of_freeHead (freeHead_cons rfl) (.cons_free rfl (.cons_free rfl (hunlock (.inr rfl) _ rfl))) hs
  · rename_i h1 h3 h4
    refine ⟨?_, hret, hs⟩
    rintro g k' he
    cases he
    show false = true ↔ num = 3 ∨ num = 4
    constructor
    · intro hf
      cases hf
    · rintro (rfl | rfl)
      · exact absurd rfl h3
      · exact absurd rfl h4

theorem flagFlow_execFrame (ok : Nat → Bool) (hb : Balanced s.core) (h : FlagFlow s.core)
    (hc : s.control = f :: k) (hs : execFrame ok f k s = some s') : FlagFlow s'.core := by
  have hfl : Flow (f :: k) := hc ▸ h.control
  have houtside : f.outside = true → ∃ t, s.currentTask = some t ∧ 0 ≤ s.irqDisable := by
    intro hf
    obtain ⟨t, ht, hi⟩ := hb.outside hc hf
    exact ⟨t, ht, Int.le_of_eq hi.symm⟩
  have hplain : f.plain = true → FlagFlow (s.core.goto k) := fun hf =>
    .of_freeHead (hfl.freeHead hf) hfl.tail h.stack
  cases f <;> simp only [execFrame, Option.some.injEq, reduceCtorEq] at hs <;> subst hs
  case schedule => exact flagFlow_schedule hb h hc
  case idle parked => exact flagFlow_idleLoop hb h hc
  case unlockSchedule => exact h.pay hb hc rfl
  case unlockStuff => exact flagFlow_unlockStuff h hc
  case unlockStuffTail => exact h.pay hb hc rfl
  case kernelTaskStartup => exact h.pay hb hc rfl
  case wakeReaper => exact flagFlow_wakeReaper hb h hc
  case killLocked pid task =>
    obtain ⟨t, ht, hi⟩ := houtside rfl
    exact (opCore_killLocked task ht hi).flow (hfl.freeHead rfl) hfl.tail h.stack
  case createInsert task => exact (opCore_createInsert task _).flow (hfl.freeHead rfl) hfl.tail h.stack
  case createRelease task => exact (opCore_createRelease task _).flow (hfl.freeHead rfl) hfl.tail h.stack
  case createPush task => exact (opCore_createPush task).flow (hfl.freeHead rfl) hfl.tail h.stack
  case ret value => exact hplain rfl
  case timerCheckSleepingTasks => exact flagFlow_timerCheckSleepingTasks hb h hc
  case schedulerTimeSliceTick => exact flagFlow_schedulerTimeSliceTick h hc
  case irqReturn => exact flagFlow_irqReturn hb h hc
  case syscallReturn num => exact .of_freeHead (hfl.freeHead rfl) hfl.tail h.stack
  case userTaskLauncher =>
    exact .of_freeHead (freeHead_cons rfl) (hfl.tail.cons_freeHead (hfl.freeHead rfl)) h.stack
  case bootLoop => exact .of_freeHead (freeHead_cons rfl) (.cons_free rfl (.cons_free rfl hfl)) h.stack
  case exitLoop => exact .of_freeHead (freeHead_cons rfl) (.cons_free rfl (.cons_free rfl hfl)) h.stack
  case reapLoop =>
    obtain ⟨t, ht, hi⟩ := houtside rfl
    exact (opCore_reapAllTasks ok ht).flow (freeHead_cons rfl) hfl h.stack

theorem flagFlow_step {act : Act} (hb : Balanced s.core) (h : FlagFlow s.core) (hs : step s act = some s') :
    FlagFlow s'.core := by
  have hat : ∀ {f k}, s.control = f :: k → f.outside = true →
      ∃ t, s.currentTask = some t ∧ s.core.base = 0 ∧ s.irqDisable = 0 ∧ Flow (f :: k) := by
    intro f k hc hf
    obtain ⟨t, ht, hi⟩ := hb.outside hc hf
    exact ⟨t, ht, (hb.pop_outside hc hf).1, hi, hc ▸ h.control⟩
  obtain ⟨ok, f, k, -, hc, hs⟩ | ⟨op, k, -, hc, -, rfl⟩ | ⟨k, -, hc, rfl⟩ | ⟨num, arg, k, -, hc, rfl⟩ |
    ⟨k, -, hc, rfl⟩ | ⟨-, hif, rfl⟩ := step_cases hs
  · exact flagFlow_execFrame ok hb h hc hs
  · obtain ⟨t, ht, -, hi, hfl⟩ := hat hc rfl
    exact (opCore_callOp op ht (Int.le_of_eq hi.symm)).flow (freeHead_cons rfl) hfl h.stack
  · obtain ⟨t, ht, -, hi, hfl⟩ := hat hc rfl
    exact (opCore_terminateTask ht (Int.le_of_eq hi.symm)).flow (freeHead_cons rfl)
      (hfl.tail.cons_freeHead (hfl.freeHead rfl)) h.stack
  · obtain ⟨t, ht, hb0, hi, hfl⟩ := hat hc rfl
    exact flagFlow_syscall num arg hb0 hi (freeHead_cons rfl) hfl h.stack
  · obtain ⟨t, ht, -, hi, hfl⟩ := hat hc rfl
    exact (opCore_terminateTask (s := { s with intFlag := false }) ht (Int.le_of_eq hi.symm)).flow
      (freeHead_cons rfl) (hfl.tail.cons_freeHead (hfl.freeHead rfl)) h.stack
  · exact flagFlow_timerIrq hb h hif

theorem flagFlow_start {b : Boot} (h : Starts b s) : FlagFlow s.core := by
  obtain ⟨f, hf, rfl⟩ := h.eq
  refine .of_freeHead (freeHead_cons (by rcases hf with rfl | rfl <;> rfl)) trivial ?_
  intro t _
  show Flow (if t = b.reaper then _ else _)
  split
  · exact ⟨trivial, trivial⟩
  · exact ⟨trivial, trivial⟩

/-- In every state of every run the flag is what the running call expects. -/
theorem flagFlow_of_reach {b : Boot} {s₀ : Kernel} {ok : Kernel → Act → Prop} (h₀ : Starts b s₀)
    (h : Reach step ok s₀ s) : Balanced s.core ∧ FlagFlow s.core := by
  refine h.invariant (P := fun s => Balanced s.core ∧ FlagFlow s.core) ⟨balanced_start h₀, flagFlow_start h₀⟩ ?_
  intro s a s' hi _ hs
  exact ⟨balanced_step hi.1 hs, flagFlow_step hi.1 hi.2 hs⟩

end Steps

/-! ## Interrupts in the idle loop only -/

/-- No interrupt is being handled on a running task's stack; over an idle loop at most one, and the flag is clear
until it is over. -/
structure IdleIrq (c : Core) : Prop where
  running : ∀ t, c.currentTask = some t → .irqReturn ∉ c.control
  idle : c.currentTask = none → ∃ x p k, .irqReturn ∉ k ∧ (c.control = .idle p :: k ∨
    (c.control = x ++ .irqReturn :: .idle p :: k ∧ .irqReturn ∉ x ∧ c.intFlag = false))
  stack : ∀ t, t ≠ c.onStack → .irqReturn ∉ c.stack t

theorem Owes.head_idle (h : Owes 1 i p (f :: k)) :
    (∃ q, f = .idle q) ∨ f = .timerCheckSleepingTasks ∨ f = .schedulerTimeSliceTick ∨ f = .irqReturn ∨
      f = .unlockStuff ∨ f = .unlockStuffTail := by
  generalize hb : (1 : Int) = b at h
  cases h with
  | inIrq hf => cases f <;> simp_all [Frame.inIrq]
  | tail => simp
  | unlockStuff => simp
  | idle => simp
  | _ => cases hb

theorem Owes.rest_of_idle {q : Tid} (h : Owes b i p (.idle q :: k)) (r : Tid) : Frame.idle r ∉ k := by
  obtain ⟨-, -, -, f, k', -, -, ho⟩ := h.of_idle
  exact ho.no_idle rfl r

theorem OpCore.idleIrq {new : Option Frame} (ho : OpCore new k c c') (hk : .irqReturn ∉ k)
    (hs : ∀ t, t ≠ c.onStack → .irqReturn ∉ c.stack t) (ht : c.currentTask = some t) : IdleIrq c' := by
  have of : ∀ {c : Core}, c.currentTask = some t → (∀ t, t ≠ c.onStack → Frame.irqReturn ∉ c.stack t) →
      .irqReturn ∉ c.control → IdleIrq c := fun ht hs hk =>
    ⟨fun _ _ => hk, fun hn => absurd (ht.symm.trans hn) (Option.some_ne_none t), hs⟩
  induction ho with
  | ends => exact of ht hs hk
  | through => exact of ht hs hk
  | @part k c f hf =>
    refine of (c := c.lock.unlock.goto (f :: k)) ht hs ?_
    intro hm
    rcases List.mem_cons.1 hm with rfl | hm
    · cases hf
    · exact hk hm
  | yields => exact of ht hs (by simpa [Core.goto] using hk)
  | locked => exact of ht hs (by simpa [Core.goto] using hk)
  | blocks => exact of ht hs (by simpa [Core.goto] using hk)
  | dies => exact of ht hs (by simpa [Core.goto] using hk)
  | returns _ ih => exact ih (by simpa using hk) hs ht
  | @creates k c c' a entry he _ ih =>
    refine ih hk ?_ ht
    intro u hu
    show .irqReturn ∉ update c.stack a [.kernelTaskStartup, entry] u
    by_cases hua : u = a
    · rw [hua, update_self]
      rcases he with rfl | rfl <;> decide
    · rw [update_of_ne hua]
      exact hs u hu
  | logs _ _ ih => exact ih hk hs ht

section IdleSteps

variable {s s' : Kernel}

/-- A step of a running task that does not switch, with the calls `k` left of its stack. -/
theorem IdleIrq.run (h : IdleIrq c) (ht : c.currentTask = some t)
    (hcur : c'.currentTask = c.currentTask) (hon : c'.onStack = c.onStack) (hst : c'.stack = c.stack)
    (hk : ∀ f ∈ c'.control, f ∈ c.control ∨ f ≠ .irqReturn) : IdleIrq c' := by
  refine ⟨?_, ?_, ?_⟩
  · intro u _ hm
    rcases hk _ hm with hm | hne
    · exact h.running t ht hm
    · exact hne rfl
  · intro hn
    rw [hcur, ht] at hn
    cases hn
  · intro u hu
    rw [hst]
    exact h.stack u (hon ▸ hu)

theorem IdleIrq.switch {prev next : Tid} (hs : ∀ t, t ≠ c.onStack → .irqReturn ∉ c.stack t)
    (hk : .irqReturn ∉ k) (hon : prev = c.onStack) : IdleIrq (c.switch prev next k) := by
  have hstack : ∀ t, .irqReturn ∉ update c.stack prev k t := by
    intro t
    by_cases htp : t = prev
    · rw [htp, update_self]; exact hk
    · rw [update_of_ne htp]
      exact hs t fun he => htp (he.trans hon.symm)
  exact ⟨fun _ _ => hstack next, fun hn => (by cases hn), fun t _ => hstack t⟩

theorem idleIrq_schedule (hb : Balanced s.core) (h : IdleIrq s.core) (hc : s.control = .schedule :: k)
    (ht : s.currentTask = some t) : IdleIrq (schedule k s).core := by
  have hno : .irqReturn ∉ k := by
    intro hm
    apply h.running t ht
    show _ ∈ s.control
    rw [hc]; exact List.mem_cons_of_mem _ hm
  have hsub : ∀ f ∈ k, f ∈ s.core.control ∨ f ≠ .irqReturn := by
    rintro f hf
    right
    rintro rfl
    exact hno hf
  by_cases hp : s.postpone = 0
  · rcases core_schedule k ht hp with hcore | hcore | ⟨next, hcore⟩ <;> rw [hcore]
    · exact h.run ht rfl rfl rfl hsub
    · exact ⟨fun u hu => (by cases hu), fun _ => ⟨[], t, k, hno, .inl rfl⟩, h.stack⟩
    · exact .switch h.stack hno (hb.current t ht)
  · rw [core_schedule_postponed k hp]
    exact h.run ht rfl rfl rfl hsub

theorem idleIrq_idleLoop {parked : Tid} (hb : Balanced s.core) (h : IdleIrq s.core)
    (hc : s.control = .idle parked :: k) : IdleIrq (idleLoop parked k s).core := by
  have ho := hb.owes_of hc
  obtain ⟨hbase, -, hp, -⟩ := ho.of_idle
  have hnone : s.currentTask = none := by
    cases hcur : s.currentTask with
    | none => rfl
    | some t =>
      have := Core.base_of_some (c := s.core) hcur
      omega
  have hon : parked = s.onStack := hb.parked_onStack hc
  -- nothing is being handled below the idle loop
  have hno : .irqReturn ∉ k := by
    obtain ⟨x, p, k', hk', hx | ⟨hx, -, -⟩⟩ := h.idle hnone
    · cases hc.symm.trans hx
      exact hk'
    · have hno' := ho.rest_of_idle
      intro hm
      have hx : Frame.idle parked :: k = x ++ .irqReturn :: .idle p :: k' := hc.symm.trans hx
      have hmem : Frame.idle p ∈ k := by
        cases x with
        | nil => cases hx
        | cons g x =>
          simp only [List.cons_append, List.cons.injEq] at hx
          rw [hx.2]
          simp
      exact hno' p hmem
  rcases core_idleLoop parked k hp with hcore | hcore | ⟨next, hcore⟩ <;> rw [hcore]
  · refine ⟨fun u hu => absurd (hnone.symm.trans hu) (Option.some_ne_none u).symm, ?_, h.stack⟩
    exact fun _ => ⟨[], parked, k, hno, .inl hc⟩
  · exact ⟨fun _ _ => hno, fun hn => (by cases hn), h.stack⟩
  · exact .switch h.stack hno hon

/-- The handler over an idle loop goes on: from `f :: k` to `g :: k`, with the flag still clear. -/
theorem IdleIrq.handler {y : List Frame} (h : IdleIrq c) (hc : c.control = f :: k)
    (hc' : c'.control = y ++ k) (hcur : c.currentTask = none) (hcur' : c'.currentTask = none)
    (hf : f ≠ .irqReturn) (hi : ∀ q, f ≠ .idle q) (hy : .irqReturn ∉ y) (hif : c'.intFlag = false)
    (hon : c'.onStack = c.onStack) (hst : c'.stack = c.stack) : IdleIrq c' := by
  refine ⟨fun u hu => absurd (hcur'.symm.trans hu) (Option.some_ne_none u).symm, fun _ => ?_, ?_⟩
  · obtain ⟨x, p, k', hk', hx | ⟨hx, hxn, -⟩⟩ := h.idle hcur
    · cases hc.symm.trans hx
      exact absurd rfl (hi p)
    · have hx : f :: k = x ++ .irqReturn :: .idle p :: k' := hc.symm.trans hx
      cases x with
      | nil =>
        cases hx
        exact absurd rfl hf
      | cons g x =>
        simp only [List.cons_append, List.cons.injEq] at hx
        refine ⟨y ++ x, p, k', hk', .inr ⟨?_, ?_, hif⟩⟩
        · rw [hc', hx.2, List.append_assoc]
        · intro hm
          rcases List.mem_append.1 hm with hm | hm
          · exact hy hm
          · exact hxn (List.mem_cons_of_mem _ hm)
  · intro u hu
    rw [hst]
    exact h.stack u (hon ▸ hu)

/-- The CPU is idle: what can go on is the handler, or the loop. -/
theorem idleIrq_exec_idle (ok : Nat → Bool) (hb : Balanced s.core) (h : IdleIrq s.core)
    (hcur : s.currentTask = none) (hc : s.control = f :: k) (hs : execFrame ok f k s = some s') :
    IdleIrq s'.core := by
  have hbase : s.core.base = 1 := by
    show (if s.currentTask = none then (1 : Int) else 0) = 1
    rw [if_pos hcur]
  have ho : Owes 1 s.irqDisable s.postpone (f :: k) := by
    have ho : Owes s.core.base s.irqDisable s.postpone s.control := hb.owes
    rwa [hbase, hc] at ho
  have hle := ho.bounds
  have hnofl : s.postponedFlag = false := by
    apply Bool.eq_false_iff.2
    intro hfl
    exact (hb.flag hfl).2 hcur
  rcases ho.head_idle with ⟨q, rfl⟩ | rfl | rfl | rfl | rfl | rfl <;>
    simp only [execFrame, Option.some.injEq] at hs <;> subst hs
  · exact idleIrq_idleLoop hb h hc
  · have hcore := core_timerCheckSleepingTasks (s := s) (k := k) (by omega)
    rw [hcore]
    exact h.handler hc (y := [.unlockStuff]) rfl hcur hcur (by simp) (by simp) (by simp) rfl rfl rfl
  · rcases core_schedulerTimeSliceTick (s := s) (k := k) with hcore | ⟨⟨t, ht⟩, -⟩
    · rw [hcore]
      exact h.handler hc (y := [.unlockStuff]) rfl hcur hcur (by simp) (by simp) (by simp) rfl rfl rfl
    · rw [hcur] at ht
      cases ht
  · refine ⟨fun u hu => absurd (hcur.symm.trans hu) (Option.some_ne_none u).symm, fun _ => ?_, h.stack⟩
    obtain ⟨x, p, k', hk', hx | ⟨hx, hxn, -⟩⟩ := h.idle hcur
    · cases hc.symm.trans hx
    · have hx : Frame.irqReturn :: k = x ++ .irqReturn :: .idle p :: k' := hc.symm.trans hx
      cases x with
      | nil =>
        simp only [List.nil_append, List.cons.injEq, true_and] at hx
        exact ⟨[], p, k', hk', .inl hx⟩
      | cons g x =>
        simp only [List.cons_append, List.cons.injEq] at hx
        exact absurd (hx.1 ▸ List.mem_cons_self) hxn
  · have hcond : ¬ (s.postpone - 1 = 0 ∧ s.postponedFlag = true) := by
      intro hcond
      exact Bool.noConfusion (hnofl.symm.trans hcond.2)
    rw [unlockStuff, if_neg hcond]
    have hif : s.intFlag = false := by
      have hi := ho.of_unlockStuff.1
      exact (hb.locked (c := s.core) (by show s.irqDisable ≠ s.core.base; omega) (by
        show s.irqDisable ≠ 0
        omega)).1
    exact h.handler hc (y := [.unlockStuffTail]) rfl hcur hcur (by simp) (by simp) (by simp) hif rfl rfl
  · have hi : s.irqDisable = 2 := ho.of_unlockStuffTail.1
    have hif : (unlockStuffTail s).intFlag = false := by
      show (if s.irqDisable - 1 = 0 then true else s.intFlag) = false
      rw [if_neg (by omega)]
      exact (hb.locked (c := s.core) (by show s.irqDisable ≠ s.core.base; omega) (by
        show s.irqDisable ≠ 0
        omega)).1
    exact h.handler hc (y := []) rfl hcur hcur (by simp) (by simp) (by simp) hif rfl rfl

theorem idleIrq_exec_running (ok : Nat → Bool) (hb : Balanced s.core) (h : IdleIrq s.core)
    (ht : s.currentTask = some t) (hc : s.control = f :: k) (hs : execFrame ok f k s = some s') :
    IdleIrq s'.core := by
  have hno : .irqReturn ∉ f :: k := hc ▸ h.running t ht
  have hk : .irqReturn ∉ k := fun hm => hno (List.mem_cons_of_mem _ hm)
  have ho := hb.owes_of hc
  have hi0 : 0 ≤ s.irqDisable := by
    have := ho.bounds
    omega
  have hold : ∀ {c' : Core} (y : List Frame), c'.currentTask = s.currentTask → c'.onStack = s.onStack →
      c'.stack = s.stack → c'.control = y ++ k → .irqReturn ∉ y → IdleIrq c' := by
    intro c' y hcur hon hst hcon hy
    refine h.run ht hcur hon hst ?_
    intro g hg
    right
    rintro rfl
    rw [hcon] at hg
    rcases List.mem_append.1 hg with hg | hg
    · exact hy hg
    · exact hk hg
  cases f <;> simp only [execFrame, Option.some.injEq, reduceCtorEq] at hs <;> subst hs
  case schedule => exact idleIrq_schedule hb h hc ht
  case idle parked =>
    have := Core.base_of_some (c := s.core) ht
    have := ho.of_idle.1
    omega
  case unlockSchedule => exact hold [] rfl rfl rfl rfl (by simp)
  case unlockStuff =>
    unfold unlockStuff
    split
    · exact hold [.schedule, .unlockStuffTail] rfl rfl rfl rfl (by simp)
    · exact hold [.unlockStuffTail] rfl rfl rfl rfl (by simp)
  case unlockStuffTail => exact hold [] rfl rfl rfl rfl (by simp)
  case kernelTaskStartup => exact hold [] rfl rfl rfl rfl (by simp)
  case wakeReaper =>
    show IdleIrq ((wakeReaper s).core.goto k)
    rw [core_wakeReaper (hb.locked_wakeReaper hc)]
    exact hold [] rfl rfl rfl rfl (by simp)
  case killLocked pid task => exact (opCore_killLocked task ht hi0).idleIrq hk h.stack ht
  case createInsert task => exact (opCore_createInsert task _).idleIrq hk h.stack ht
  case createRelease task => exact (opCore_createRelease task _).idleIrq hk h.stack ht
  case createPush task => exact (opCore_createPush task).idleIrq hk h.stack ht
  case ret value => exact hold [] rfl rfl rfl rfl (by simp)
  case timerCheckSleepingTasks =>
    rw [core_timerCheckSleepingTasks hi0]
    exact hold [.unlockStuff] rfl rfl rfl rfl (by simp)
  case schedulerTimeSliceTick =>
    rcases core_schedulerTimeSliceTick (s := s) (k := k) with hcore | ⟨-, hcore⟩ <;> rw [hcore]
    · exact hold [.unlockStuff] rfl rfl rfl rfl (by simp)
    · exact hold [.schedule, .unlockStuff] rfl rfl rfl rfl (by simp)
  case irqReturn => exact absurd List.mem_cons_self hno
  case syscallReturn num => exact hold [] rfl rfl rfl rfl (by simp)
  case userTaskLauncher => exact hold [.userMode] rfl rfl rfl rfl (by simp)
  case bootLoop => exact hold [.schedule, .unlockSchedule, .bootLoop] rfl rfl rfl rfl (by simp)
  case exitLoop => exact hold [.schedule, .unlockSchedule, .exitLoop] rfl rfl rfl rfl (by simp)
  case reapLoop => exact (opCore_reapAllTasks ok ht).idleIrq hno h.stack ht

theorem idleIrq_syscall (num arg : Nat) (hi : 0 ≤ s.irqDisable) (ht : s.currentTask = some t)
    (hk : .irqReturn ∉ k) (hs : ∀ t, t ≠ s.onStack → .irqReturn ∉ s.stack t) :
    IdleIrq (syscall num arg k s).core := by
  let s1 : Kernel := { s with intFlag := false }
  have ht1 : s1.currentTask = some t := ht
  have hret : ∀ num, .irqReturn ∉ Frame.syscallReturn num :: k := fun num => by simpa using hk
  unfold syscall
  dsimp only
  split
  · exact (opCore_terminateTask (s := s1) ht1 hi).idleIrq (by simpa using hk) hs ht1
  · exact (OpCore.yields (c := s1.core)).idleIrq (hret 3) hs ht1
  · exact (opCore_nanoSleepUntil (s := s1) _ ht1).idleIrq (hret 4) hs ht1
  · exact (OpCore.ends (c := s1.core)).idleIrq (hret num) hs ht1

theorem idleIrq_step {act : Act} (hb : Balanced s.core) (h : IdleIrq s.core)
    (hact : act = .timerIrq → s.currentTask = none) (hs : step s act = some s') : IdleIrq s'.core := by
  have hat : ∀ {f k}, s.control = f :: k → f.outside = true →
      ∃ t, s.currentTask = some t ∧ 0 ≤ s.irqDisable ∧ .irqReturn ∉ f :: k := by
    intro f k hc hf
    obtain ⟨t, ht, hi⟩ := hb.outside hc hf
    exact ⟨t, ht, Int.le_of_eq hi.symm, hc ▸ h.running t ht⟩
  obtain ⟨ok, f, k, -, hc, hs⟩ | ⟨op, k, -, hc, -, rfl⟩ | ⟨k, -, hc, rfl⟩ | ⟨num, arg, k, -, hc, rfl⟩ |
    ⟨k, -, hc, rfl⟩ | ⟨rfl, hif, rfl⟩ := step_cases hs
  · cases hcur : s.currentTask with
    | none => exact idleIrq_exec_idle ok hb h hcur hc hs
    | some t => exact idleIrq_exec_running ok hb h hcur hc hs
  · obtain ⟨t, ht, hi, hk⟩ := hat hc rfl
    exact (opCore_callOp op ht hi).idleIrq hk h.stack ht
  · obtain ⟨t, ht, hi, hk⟩ := hat hc rfl
    exact (opCore_terminateTask ht hi).idleIrq (by simpa using hk) h.stack ht
  · obtain ⟨t, ht, hi, hk⟩ := hat hc rfl
    exact idleIrq_syscall num arg hi ht hk h.stack
  · obtain ⟨t, ht, hi, hk⟩ := hat hc rfl
    exact (opCore_terminateTask (s := { s with intFlag := false }) ht hi).idleIrq (by simpa using hk) h.stack ht
  · -- the flag is set, so no interrupt is being handled yet
    have hcur : s.currentTask = none := hact rfl
    obtain ⟨x, p, k, hk, hx | ⟨-, -, hoff⟩⟩ := h.idle hcur
    · refine ⟨fun u hu => absurd (hcur.symm.trans hu) (Option.some_ne_none u).symm, fun _ => ?_, h.stack⟩
      refine ⟨[.timerCheckSleepingTasks, .schedulerTimeSliceTick], p, k, hk, .inr ⟨?_, by simp, rfl⟩⟩
      show _ :: _ :: _ :: s.control = _
      rw [show s.control = _ from hx]
      rfl
    · exact Bool.noConfusion (hif.symm.trans hoff)

theorem idleIrq_start {b : Boot} (h : Starts b s) : IdleIrq s.core := by
  obtain ⟨f, hf, rfl⟩ := h.eq
  refine ⟨fun _ _ => by rcases hf with rfl | rfl <;> simp [Kernel.core], fun hn => (by cases hn), ?_⟩
  intro t _
  show Frame.irqReturn ∉ (if t = b.reaper then [Frame.kernelTaskStartup, .reapLoop] else [.kernelTaskStartup, .body])
  split <;> simp

theorem IdleIrq.count_le (h : IdleIrq c) : c.control.count .irqReturn ≤ 1 := by
  cases hcur : c.currentTask with
  | some t =>
    rw [List.count_eq_zero.2 (h.running t hcur)]
    omega
  | none =>
    obtain ⟨x, p, k, hk, hx | ⟨hx, hxn, -⟩⟩ := h.idle hcur
    · rw [hx, List.count_cons_of_ne (by simp), List.count_eq_zero.2 hk]
      omega
    · have hone : c.control.count .irqReturn = 1 := by
        rw [hx, List.count_append, List.count_cons_self, List.count_cons_of_ne (by simp), List.count_eq_zero.2 hk,
          List.count_eq_zero.2 hxn]
      omega

end IdleSteps

/-! ## When the mask is kept -/

/-- **Interrupt mask.** From the flag clear and the counter at 0, a well-nested sequence of lock calls leaves the flag
clear iff it is empty. In every state of every run, at the return of a system call the flag is clear iff the call
is neither `sys_yield` nor `sys_sleep`, and between the calls of `timer_handler` it is clear iff the interrupt
came in the idle loop; in every run in which the timer interrupts the idle loop only, no stack holds two
unfinished handlers. -/
theorem interrupt_mask_kept_iff (b : Boot) {s₀ : Kernel} (h₀ : Starts b s₀) (s : Kernel) :
    (∀ ops : List LockOp, s.irqDisable = 0 → s.postponedFlag = false → s.intFlag = false →
      WellNested ops → ((runLocks s ops).intFlag = s.intFlag ↔ ops = [])) ∧
    (Reach step Any s₀ s → ∀ num k, s.control = .syscallReturn num :: k →
      (s.intFlag = false ↔ num ≠ 3 ∧ num ≠ 4)) ∧
    (Reach step Any s₀ s → ∀ f k, s.control = f :: k →
      f = .schedulerTimeSliceTick ∨ f = .irqReturn → (s.intFlag = false ↔ s.currentTask = none)) ∧
    (Reach step (fun s act => act = .timerIrq → s.currentTask = none) s₀ s →
      s.control.count .irqReturn ≤ 1 ∧ ∀ t, t ≠ s.onStack → (s.stack t).count .irqReturn ≤ 1) := by
  refine ⟨?_, ?_, ?_, ?_⟩
  · intro ops hi hfl hif h
    rw [(runLocks_wellNested h s (Int.le_of_eq hi.symm) hfl).intFlag, hif, hi]
    split <;> simp_all
  · intro h num k hc
    have hat : s.intFlag = true ↔ num = 3 ∨ num = 4 := (flagFlow_of_reach h₀ h).2.head _ k hc
    rw [← Bool.not_eq_true, hat]
    omega
  · intro h f k hc hf
    obtain ⟨hb, hflow⟩ := flagFlow_of_reach h₀ h
    have hat : s.intFlag = true ↔ s.irqDisable = 0 := by
      rcases hf with rfl | rfl
      · exact hflow.head _ k hc
      · exact hflow.head _ k hc
    have hi : s.irqDisable = s.core.base := by
      rcases hf with rfl | rfl
      · exact (hb.pop_inIrq hc rfl).1
      · exact (hb.pop_inIrq hc rfl).1
    rw [← Bool.not_eq_true, hat, hi]
    show ¬ (if s.currentTask = none then (1 : Int) else 0) = 0 ↔ _
    split <;> simp_all
  · intro h
    have hinv : Balanced s.core ∧ IdleIrq s.core := by
      refine h.invariant (P := fun s => Balanced s.core ∧ IdleIrq s.core)
        ⟨balanced_start h₀, idleIrq_start h₀⟩ ?_
      intro s a s' hi hok hs
      exact ⟨balanced_step hi.1 hs, idleIrq_step hi.1 hi.2 hok hs⟩
    refine ⟨hinv.2.count_le, ?_⟩
    intro t ht
    have hno : Frame.irqReturn ∉ s.stack t := hinv.2.stack t ht
    rw [List.count_eq_zero.2 hno]
    omega

def syscallRun (num arg : Nat) : List Act := userTaskRun ++ [.syscall num arg]

/-- A test for runs in which the timer interrupts the idle loop only. -/
def ticksInIdle (s : Kernel) : Act → Bool
  | .timerIrq => s.currentTask.isNone
  | _ => true

/-- One pair of lock calls is not the empty sequence; an unknown system call keeps the mask; and a tick that comes in
the idle loop is still masked when it has woken the parked task. -/
theorem interrupt_mask_kept_in_idle_loop :
    (runLocks { bootState .sample with intFlag := false } [.lockSchedule, .unlockSchedule]).intFlag ≠ false ∧
    (∃ s, Reach step Any (bootState .sample) s ∧ s.control = [.syscallReturn 9, .userMode] ∧ s.intFlag = false) ∧
    ∃ s, Reach step (fun s act => act = .timerIrq → s.currentTask = none) (freeBoot .sample) s ∧
      s.control = [.schedulerTimeSliceTick, .irqReturn, .idle 0, .unlockStuffTail, .body] ∧ s.state 0 = .ready ∧
      s.intFlag = false ∧ ∀ t, t ≠ s.onStack → (s.stack t).count .irqReturn ≤ 1 := by
  have hticks (s : Kernel) (act : Act) (h : ticksInIdle s act = true) : act = .timerIrq → s.currentTask = none := by
    rintro rfl
    exact Option.isNone_iff_eq_none.1 h
  obtain ⟨s, hr, hc⟩ := Reach.exists_of_run step (bootState .sample) (syscallRun 9 0) (fun s a _ => show Any s a from trivial)
    (fun s => s.control = [.syscallReturn 9, .userMode]) (by decide +kernel)
  obtain ⟨s', hr', hc', hready, hcur⟩ := Reach.exists_of_checked step (freeBoot .sample) (parkedRun ++ goOn 3) hticks
    (fun s => s.control = [.schedulerTimeSliceTick, .irqReturn, .idle 0, .unlockStuffTail, .body] ∧ s.state 0 = .ready ∧
      s.currentTask = none) (by decide +kernel)
  refine ⟨fun h => ?_, ⟨s, hr, hc, ?_⟩, s', hr', hc', hready, ?_, ?_⟩
  · cases ((interrupt_mask_kept_iff .sample (.inl rfl) { bootState .sample with intFlag := false }).1
      [.lockSchedule, .unlockSchedule] rfl rfl rfl (.schedule .nil .nil)).1 h
  · exact ((interrupt_mask_kept_iff .sample (.inl rfl) s).2.1 hr _ _ hc).2 (by decide)
  · exact ((interrupt_mask_kept_iff .sample (.inr rfl) s').2.2.1 (hr'.mono fun _ _ _ => trivial) _ _ hc' (.inl rfl)).2 hcur
  · exact ((interrupt_mask_kept_iff .sample (.inr rfl) s').2.2.2 hr').2

/-- Two timer interrupts: the second comes between the two calls of the first one's handler. -/
def twoTicksRun : List Act := .timerIrq :: goOn 3 ++ [.timerIrq]

/-- The mask is lost by one pair of lock calls, on the way out of a system call, and in the timer's handler. -/
theorem interrupt_mask_lost :
    ({ bootState .sample with intFlag := false } : Kernel).irqDisable = 0 ∧
    WellNested [.lockSchedule, .unlockSchedule] ∧
    (runLocks { bootState .sample with intFlag := false } [.lockSchedule, .unlockSchedule]).intFlag = true ∧
    ((syscallRun 4 0 ++ goOn 2).foldlM step (bootState .sample)).map (fun s => (s.control, s.intFlag)) =
      some ([.syscallReturn 4, .userMode], true) ∧
    (twoTicksRun.foldlM step (bootState .sample)).map (fun s => s.control.count .irqReturn) = some 2 :=
  ⟨rfl, .schedule .nil .nil, rfl, by decide +kernel, by decide +kernel⟩

end ToastOS.Task
