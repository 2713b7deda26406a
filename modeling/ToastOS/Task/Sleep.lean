import Mathlib.Data.List.TakeWhile
import ToastOS.Task.Kill
import ToastOS.Task.Time

/-!
# Sleeping

Beside the machine runs a record of the calls of `nano_sleep_until` (`Naps`): when each sleeping task called and until
when it is to sleep. `SleepOk` ties it to the sleeping list.

* `sleepers_step` : what a step does to the sleeping list;
* `awake_of_step` : how a task leaves it, by the clock or by being killed;
* `timer_wakeup_exact` : the list is in order and every check takes off exactly the tasks whose time has come.

`Due` records what the callers of `sys_sleep`, `sleep_seconds` and `nano_sleep` asked for, over the natural numbers.

* `sleep_not_early` : where no sum or product exceeds 64 bits, no sleep ends before it is due.
-/

namespace ToastOS.Task

open ToastOS.Lib (Queue Reach insertKey mem_insertKey pairwise_insertKey takeWhile_eq_filter dropWhile_eq_filter checked)
open Function

/-! ## The sleeping list -/

/-- The task a step puts on the sleeping list, and until when. -/
def Act.fallsAsleep (s : Kernel) (act : Act) : Option (Tid × Nat) :=
  match act.sleepsUntil s, s.currentTask with
  | some w, some t => if w ≤ getUptimeNs s then none else some (t, w)
  | _, _ => none

section List

variable {s s' : Kernel} {L L' : Place → List Tid} {act : Act} {t : Tid} {w : Nat}

theorem fallsAsleep_eq_some (h : act.fallsAsleep s = some (t, w)) :
    act.sleepsUntil s = some w ∧ s.currentTask = some t ∧ getUptimeNs s < w := by
  unfold Act.fallsAsleep at h
  split at h
  · rename_i hw ht
    split at h
    · cases h
    · rename_i hlt
      cases h
      exact ⟨hw, ht, Nat.lt_of_not_le hlt⟩
  · cases h

theorem Inv.acting_of_sleepsUntil (hi : Inv s L) (hs : step s act = some s') (h : act.sleepsUntil s = some w) :
    ∃ t, Acting s t := by
  obtain ⟨ok, f, k, rfl, hc, -⟩ | ⟨op, k, rfl, hc, -, -⟩ | ⟨k, rfl, hc, -⟩ | ⟨num, arg, k, rfl, hc, -⟩ |
    ⟨k, rfl, hc, -⟩ | ⟨rfl, -, -⟩ := step_cases hs
  · cases h
  · exact hi.acting hc rfl
  · cases h
  · exact hi.acting hc rfl
  · cases h
  · cases h

theorem sleepers_fallsAsleep (hn : Next s L act s' L') (h : act.fallsAsleep s = some (t, w)) :
    L' (.queue .sleeping) = insertKey (update s.wakeTime t w) t (L (.queue .sleeping)) := by
  obtain ⟨hw, ht, hlt⟩ := fallsAsleep_eq_some h
  rw [hn.waiting .sleeping (by simp), waitMove_sleep hw ht, sleepMove, WaitMove.on, update_self,
    if_neg (Nat.not_le.2 hlt)]

theorem sleepers_step (hn : Next s L act s' L') (h : act.fallsAsleep s = none) :
    L' (.queue .sleeping) = L (.queue .sleeping) ∨
    (∃ ok p task k, act = .exec ok ∧ s.control = .killLocked p task :: k ∧ ¬ Protected s task ∧
      L' (.queue .sleeping) = (L (.queue .sleeping)).erase task) ∨
    (∃ ok k, act = .exec ok ∧ s.control = .timerCheckSleepingTasks :: k ∧
      L' (.queue .sleeping) = (L (.queue .sleeping)).dropWhile (s.isDue (getUptimeNs s))) := by
  have hw := hn.waiting .sleeping (by simp)
  obtain ⟨q, rfl | rfl⟩ | ⟨ok, p, task, k, rfl, hc, hm⟩ | ⟨ok, k, rfl, hc, hm⟩ | ⟨w, t, hsl, ht, hm⟩ | hm :=
    waitMove_cases s act
  · refine .inl (hw.trans ?_)
    rw [waitMove, WaitMove.on, update_of_ne (by simp)]
    rfl
  · refine .inl (hw.trans ?_)
    rw [waitMove, WaitMove.on, update_of_ne (by simp)]
    rfl
  · rw [hm, killMove] at hw
    split at hw
    · exact .inl hw
    · rename_i hp
      exact .inr (.inl ⟨ok, p, task, k, rfl, hc, hp, hw⟩)
  · rw [hm, wakeMove, WaitMove.on, update_self] at hw
    exact .inr (.inr ⟨ok, k, rfl, hc, hw⟩)
  · have hle : w ≤ getUptimeNs s := by
      by_contra hlt
      simp [Act.fallsAsleep, hsl, ht, hlt] at h
    rw [hm, sleepMove, WaitMove.on, update_self, if_pos hle] at hw
    exact .inl hw
  · rw [hm] at hw
    exact .inl hw

theorem sleepers_sublist (hn : Next s L act s' L') (h : act.fallsAsleep s = none) :
    (L' (.queue .sleeping)).Sublist (L (.queue .sleeping)) := by
  rcases sleepers_step hn h with he | ⟨-, -, task, -, -, -, -, he⟩ | ⟨-, -, -, -, he⟩
  · rw [he]
  · rw [he]
    exact List.erase_sublist
  · rw [he]
    exact List.dropWhile_sublist _

theorem wakeTime_of_sleeping (hi : Inv s L) (hs : step s act = some s') (ht : t ∈ L (.queue .sleeping)) :
    s'.wakeTime t = s.wakeTime t := by
  have hst := hi.placed.state_of_sleeping ht
  cases times_step hi.balanced hs with
  | same h | idles h | tick _ _ h | slice _ _ _ _ _ h | resumes h | switches _ h =>
    exact congrFun (congrArg Times.wakeTime h) t
  | sleeps u w ha _ h hcur =>
    obtain ⟨v, hact⟩ := hi.acting_of_sleepsUntil hs ha
    have hne : t ≠ u := by
      rintro rfl
      cases Option.some.inj (hact.current.symm.trans hcur)
      exact absurd (hst.symm.trans hact.running) (by decide)
    exact (congrFun (congrArg Times.wakeTime h) t).trans (update_of_ne hne _ _)
  | creates a hfree h =>
    have hne : t ≠ a := by
      rintro rfl
      exact hfree (hi.placed.live _ t ht)
    exact (congrFun (congrArg Times.wakeTime h) t).trans (update_of_ne hne _ _)

theorem dead_of_kill {ok : Nat → Bool} {p : Nat} {k : List Frame} (hi : Inv s L) (hc : s.control = .killLocked p t :: k)
    (hs : step s (.exec ok) = some s') (hp : ¬ Protected s t) (ht : t ∈ L (.queue .sleeping)) : s'.state t = .dead := by
  obtain ⟨u, hact⟩ := hi.acting hc rfl
  have hst := hi.placed.state_of_sleeping ht
  have hcur : s.currentTask ≠ some t := by
    rw [hact.current]
    intro he
    cases he
    exact absurd (hst.symm.trans hact.running) (by decide)
  obtain ⟨v, L', hv, -, -, -, -, hk⟩ := killLocked_alive (k := k) hi.placed (hi.placed.live _ t ht) hp hcur
    (by rw [hst]; decide) hact.unlocked
  have hs' : killLocked t k s = s' := Option.some.inj (exec_of_step hs hc)
  rw [← hs', hv]
  exact hk.dead

/-- A task leaves the sleeping list when its time has come, or it is killed. -/
theorem awake_of_step (hi : Inv s L) (hs : step s act = some s') (hn : Next s L act s' L')
    (ht : t ∈ L (.queue .sleeping)) :
    t ∈ L' (.queue .sleeping) ∨ s.wakeTime t ≤ getUptimeNs s ∨ s'.state t = .dead := by
  cases hf : act.fallsAsleep s with
  | some x =>
    rw [sleepers_fallsAsleep hn (t := x.1) (w := x.2) hf]
    exact .inl (mem_insertKey.2 (.inr ht))
  | none =>
    rcases sleepers_step hn hf with he | ⟨ok, p, task, k, rfl, hc, hp, he⟩ | ⟨ok, k, rfl, hc, he⟩
    · rw [he]
      exact .inl ht
    · by_cases htask : t = task
      · subst htask
        exact .inr (.inr (dead_of_kill hi hc hs hp ht))
      · rw [he]
        exact .inl ((List.mem_erase_of_ne htask).2 ht)
    · by_cases hd : s.isDue (getUptimeNs s) t = true
      · exact .inr (.inl (of_decide_eq_true hd))
      · rw [he]
        refine .inl ?_
        rw [← List.takeWhile_append_dropWhile (p := s.isDue (getUptimeNs s)) (l := L (.queue .sleeping))] at ht
        exact (List.mem_append.1 ht).resolve_left fun hm => hd (List.mem_takeWhile_imp hm)

end List

/-! ## The calls on record -/

/-- For each task that called `nano_sleep_until` and had to wait: the number of its step, and the time it asked for. -/
structure Naps where
  steps : Nat
  arrived : Tid → Nat
  wake : Tid → Nat

def Naps.start : Naps := ⟨0, fun _ => 0, fun _ => 0⟩

def Naps.next (n : Naps) (s : Kernel) (act : Act) : Naps :=
  match act.fallsAsleep s with
  | some (t, w) => ⟨n.steps + 1, update n.arrived t n.steps, update n.wake t w⟩
  | none => { n with steps := n.steps + 1 }

def napStep (x : Kernel × Naps) (act : Act) : Option (Kernel × Naps) := (step x.1 act).map fun s' => (s', x.2.next x.1 act)

/-- `a` is to wake before `b`, or at the same time and fell asleep before it. -/
def Naps.Before (n : Naps) (a b : Tid) : Prop :=
  n.wake a < n.wake b ∨ n.wake a = n.wake b ∧ n.arrived a < n.arrived b

structure SleepOk (s : Kernel) (L : Place → List Tid) (n : Naps) : Prop where
  sorted : (L (.queue .sleeping)).Pairwise n.Before
  wake : ∀ t ∈ L (.queue .sleeping), s.wakeTime t = n.wake t
  past : ∀ t ∈ L (.queue .sleeping), n.arrived t < n.steps

section Record

variable {s s' : Kernel} {L L' : Place → List Tid} {act : Act} {n : Naps} {t : Tid}

theorem step_of_napStep {x y : Kernel × Naps} (h : napStep x act = some y) :
    step x.1 act = some y.1 ∧ y.2 = x.2.next x.1 act := by
  obtain ⟨s', hs, rfl⟩ := Option.map_eq_some_iff.1 h
  exact ⟨hs, rfl⟩

/-- The tasks that are asleep already keep their place in the record. -/
theorem SleepOk.fallsAsleep {w : Nat} (hi : Inv s L) (hs : step s act = some s') (hn : Next s L act s' L')
    (h : SleepOk s L n) (hf : act.fallsAsleep s = some (t, w)) : SleepOk s' L' (n.next s act) := by
  obtain ⟨ha, hcur, hlt⟩ := fallsAsleep_eq_some hf
  obtain ⟨u, hact⟩ := hi.acting_of_sleepsUntil hs ha
  cases Option.some.inj (hact.current.symm.trans hcur)
  have hout : t ∉ L (.queue .sleeping) := hi.placed.unlisted_running hact.running _
  have hnext : n.next s act = ⟨n.steps + 1, update n.arrived t n.steps, update n.wake t w⟩ := by
    simp only [Naps.next, hf]
  have hne : ∀ x ∈ L (.queue .sleeping), x ≠ t := fun x hx he => hout (he ▸ hx)
  have hwake : ∀ x ∈ L (.queue .sleeping), update n.wake t w x = n.wake x := fun x hx =>
    update_of_ne (hne x hx) _ _
  have harr : ∀ x ∈ L (.queue .sleeping), update n.arrived t n.steps x = n.arrived x := fun x hx =>
    update_of_ne (hne x hx) _ _
  have hkey : ∀ x ∈ L (.queue .sleeping), update s.wakeTime t w x = n.wake x := fun x hx =>
    (update_of_ne (hne x hx) _ _).trans (h.wake x hx)
  have hL := sleepers_fallsAsleep hn hf
  rw [hnext]
  refine ⟨?_, fun x hx => ?_, fun x hx => ?_⟩
  · rw [hL]
    refine pairwise_insertKey (h.sorted.imp_of_mem fun {x y} hx hy hr => ?_) (fun x hx y hy hr => ?_) (fun x hx hle => ?_)
      fun x hx hlt' => ?_
    · simpa only [Naps.Before, hwake x hx, hwake y hy, harr x hx, harr y hy] using hr
    · simp only [Naps.Before, hwake x hx, hwake y hy] at hr
      rw [hkey x hx, hkey y hy]
      omega
    · rw [hkey x hx, update_self] at hle
      have := h.past x hx
      simp only [Naps.Before, hwake x hx, harr x hx, update_self]
      omega
    · rw [hkey x hx, update_self] at hlt'
      simp only [Naps.Before, hwake x hx, update_self]
      omega
  · rw [hL] at hx
    show s'.wakeTime x = update n.wake t w x
    rw [wakeTime_sleeps hs ha hcur hlt]
    rcases mem_insertKey.1 hx with rfl | hx
    · rw [update_self, update_self]
    · rw [hkey x hx, hwake x hx]
  · rw [hL] at hx
    rcases mem_insertKey.1 hx with rfl | hx
    · show update n.arrived x n.steps x < _
      rw [update_self]
      exact Nat.lt_succ_self _
    · show update n.arrived t n.steps x < n.steps + 1
      rw [harr x hx]
      exact Nat.lt_succ_of_lt (h.past x hx)

theorem sleepOk_step (hi : Inv s L) (hs : step s act = some s') (hn : Next s L act s' L') (h : SleepOk s L n) :
    SleepOk s' L' (n.next s act) := by
  cases hf : act.fallsAsleep s with
  | some x => exact h.fallsAsleep hi hs hn (t := x.1) (w := x.2) hf
  | none =>
    have hsub := sleepers_sublist hn hf
    have hnext : n.next s act = { n with steps := n.steps + 1 } := by simp only [Naps.next, hf]
    rw [hnext]
    refine ⟨h.sorted.sublist hsub, fun x hx => ?_, fun x hx => ?_⟩
    · exact (wakeTime_of_sleeping hi hs (hsub.mem hx)).trans (h.wake x (hsub.mem hx))
    · exact Nat.lt_succ_of_lt (h.past x (hsub.mem hx))

theorem sleepOk_of_reach {b : Boot} {s₀ : Kernel} {x : Kernel × Naps} (h₀ : Starts b s₀)
    (h : Reach napStep (fun x act => Safe x.1 act) (s₀, .start) x) : ∃ L, Inv x.1 L ∧ SleepOk x.1 L x.2 :=
  h.invariant (P := fun x => ∃ L, Inv x.1 L ∧ SleepOk x.1 L x.2) ⟨_, inv_start h₀, .nil, fun _ h => (by cases h),
    fun _ h => (by cases h)⟩ fun x act y ⟨L, hi, hok⟩ hsafe hs => by
      obtain ⟨hs, hy⟩ := step_of_napStep hs
      obtain ⟨L', hn⟩ := inv_step hi hs hsafe
      exact ⟨L', hn.inv, hy ▸ sleepOk_step hi hs hn hok⟩

theorem SleepOk.due (h : SleepOk s L n) (now : Nat) :
    (L (.queue .sleeping)).takeWhile (s.isDue now) = (L (.queue .sleeping)).filter (fun t => decide (n.wake t ≤ now)) ∧
      (L (.queue .sleeping)).dropWhile (s.isDue now) = (L (.queue .sleeping)).filter fun t => decide (now < n.wake t) := by
  have hdue : ∀ t ∈ L (.queue .sleeping), s.isDue now t = decide (n.wake t ≤ now) := by
    intro t ht
    rw [Kernel.isDue, h.wake t ht]
  have hmono : (L (.queue .sleeping)).Pairwise fun x y => s.isDue now y = true → s.isDue now x = true := by
    refine h.sorted.imp_of_mem fun {x y} hx hy hr hd => ?_
    rw [hdue y hy] at hd
    rw [hdue x hx]
    have := of_decide_eq_true hd
    unfold Naps.Before at hr
    exact decide_eq_true (by omega)
  rw [takeWhile_eq_filter hmono, dropWhile_eq_filter hmono]
  refine ⟨List.filter_congr hdue, List.filter_congr fun t ht => ?_⟩
  rw [hdue t ht, ← decide_not]
  exact decide_eq_decide.2 Nat.not_le

end Record

/-- In every state of every run the sleeping list is in order of wake-up times, equal ones in order of arrival; a check
moves exactly the tasks whose time has come, in that order, behind the ready ones; so no task becomes READY before its time
and none sleeps on after a check that comes later. -/
theorem timer_wakeup_exact (b : Boot) {s₀ s : Kernel} {n : Naps} (h₀ : Starts b s₀)
    (hr : Reach napStep (fun x act => Safe x.1 act) (s₀, .start) (s, n)) :
    ∃ L, Lists s L ∧ (∀ t ∈ s.tcbs, t ∈ L (.queue .sleeping) ↔ s.state t = .sleeping) ∧
      (L (.queue .sleeping)).Pairwise n.Before ∧ (∀ t ∈ L (.queue .sleeping), s.wakeTime t = n.wake t) ∧
      (∀ ok k s', s.control = .timerCheckSleepingTasks :: k → step s (.exec ok) = some s' → ∃ L', Lists s' L' ∧
        L' (.queue .ready) = L (.queue .ready) ++ (L (.queue .sleeping)).filter (fun t => n.wake t ≤ getUptimeNs s) ∧
        L' (.queue .sleeping) = (L (.queue .sleeping)).filter (fun t => getUptimeNs s < n.wake t) ∧
        ∀ t ∈ s'.tcbs, s'.state t = .sleeping → getUptimeNs s < n.wake t) ∧
      ∀ act s' t, step s act = some s' → Safe s act → t ∈ s.tcbs → s.state t = .sleeping → s'.state t = .ready →
        n.wake t ≤ getUptimeNs s := by
  obtain ⟨L, hi, hok⟩ := sleepOk_of_reach h₀ hr
  have hlisted : ∀ t ∈ s.tcbs, s.state t = .sleeping → t ∈ L (.queue .sleeping) := fun t ht hst =>
    (hi.placed.settled t ht).listed _ (by simp only [Kernel.placeOf, hst]) (by simp)
  refine ⟨L, hi.placed.lists, fun t ht => ⟨hi.placed.state_of_sleeping, hlisted t ht⟩, hok.sorted, hok.wake, ?_, ?_⟩
  · intro ok k s' hc hs
    obtain ⟨L', hch, hready, -⟩ := moves_timerCheckSleepingTasks (k := k) hi.placed
    have hs' : timerCheckSleepingTasks k s = s' := Option.some.inj (exec_of_step hs hc)
    rw [hs'] at hch
    have hsleep : L' (.queue .sleeping) = _ := hch.waiting .sleeping (by simp)
    rw [wakeMove, WaitMove.on, update_self, (hok.due _).2] at hsleep
    rw [(hok.due _).1] at hready
    refine ⟨L', hch.placed.lists, hready, hsleep, fun t ht hst => ?_⟩
    have hm : t ∈ L' (.queue .sleeping) :=
      (hch.placed.settled t ht).listed _ (by simp only [Kernel.placeOf, hst]) (by simp)
    rw [hsleep] at hm
    exact of_decide_eq_true (List.mem_filter.1 hm).2
  · intro act s' t hs hsafe ht hst hready
    have hm := hlisted t ht hst
    obtain ⟨L', hn⟩ := inv_step hi hs hsafe
    rcases awake_of_step hi hs hn hm with hstay | hdue | hdead
    · exact absurd (hready.symm.trans (hn.inv.placed.state_of_sleeping hstay)) (by decide)
    · rw [← hok.wake t hm]
      exact hdue
    · exact absurd (hready.symm.trans hdead) (by decide)

/-- The shell goes to sleep until 20 ms, a task it made until 10 ms; at 10 ms the timer strikes. -/
def twoSleepersRun : List Act :=
  oneTaskRun ++ .call (.nanoSleepUntil 20000000) :: goOn 14 ++ .call (.nanoSleepUntil 10000000) :: goOn 5 ++ [.timerIrq]

theorem one_of_two_wakes : ∃ s n s', Reach napStep (fun x act => Safe x.1 act) (bootState .sample, .start) (s, n) ∧
    step s (.exec fun _ => true) = some s' ∧ s.state 1 = .sleeping ∧ s.state 3 = .sleeping ∧ s'.state 1 = .sleeping ∧
    s'.state 3 = .ready ∧ n.wake 3 ≤ getUptimeNs s ∧ getUptimeNs s < n.wake 1 := by
  have hspec (x : Kernel × Naps) (act : Act) (h : wholeAndSmall x.1 act = true) : WholeOps x.1 act ∧ True :=
    ⟨(wholeAndSmall_spec x.1 act h).1, trivial⟩
  obtain ⟨⟨s, n⟩, hwhole, hc, h1, h3, hlive, hnext⟩ :=
    Reach.exists_of_checked napStep (bootState .sample, .start) twoSleepersRun
    hspec (fun x => x.1.control = [.timerCheckSleepingTasks, .schedulerTimeSliceTick, .irqReturn, .bootLoop] ∧
      x.1.state 1 = .sleeping ∧ x.1.state 3 = .sleeping ∧ 3 ∈ x.1.tcbs ∧ (step x.1 (.exec fun _ => true)).map (fun s' =>
        (s'.state 1, s'.state 3, s'.tcbs.contains 1)) = some (.sleeping, .ready, true)) (by decide +kernel)
  obtain ⟨s', hs', hx⟩ := Option.map_eq_some_iff.1 hnext
  simp only [Prod.mk.injEq, List.contains_iff_mem] at hx
  obtain ⟨hs1, hs3, hlive'⟩ := hx
  have hreach := (reach_safe (.inl rfl) (fun _ _ _ h => (step_of_napStep h).1) hwhole).mono fun _ _ h => h.1
  have hsafe : Safe s (.exec fun _ => true) := by
    refine ⟨fun _ k _ h => ?_, fun _ p t k _ h => ?_⟩
    · cases hc.symm.trans h
    · cases hc.symm.trans h
  obtain ⟨L, -, -, -, -, hcheck, hready⟩ := timer_wakeup_exact .sample (.inl rfl) hreach
  obtain ⟨L', -, -, -, hlate⟩ := hcheck _ _ s' hc hs'
  exact ⟨s, n, s', hreach, hs', h1, h3, hs1, hs3, hready _ s' 3 hs' hsafe hlive h3 hs3, hlate 1 hlive' hs1⟩

/-! ## What was asked for -/

/-- The uptime before which a call of a sleeping function is not to return, over the natural numbers. -/
def Act.asksFor (s : Kernel) : Act → Option Nat
  | .call (.nanoSleepUntil w) => some w
  | .call (.nanoSleep n) => some (getUptimeNs s + n)
  | .call (.sleepSeconds n) => some (getUptimeNs s + n * 1000000000)
  | .syscall 4 ms => some (getUptimeNs s + ms * 1000000)
  | _ => none

/-- For each task what it last asked for; the calls of a task that is gone are forgotten. -/
abbrev Due := Tid → Nat

def Due.next (due : Due) (s : Kernel) (act : Act) : Due := fun t =>
  if t ∉ s.tcbs ∨ s.state t = .dead then 0
  else match act.asksFor s with
    | some d => if s.currentTask = some t then d else due t
    | none => due t

def dueStep (x : Kernel × Due) (act : Act) : Option (Kernel × Due) := (step x.1 act).map fun s' => (s', x.2.next x.1 act)

/-- Neither the request nor the clock exceeds 64 bits. -/
structure Fits (s : Kernel) (act : Act) : Prop where
  sleep : ∀ d, act.asksFor s = some d → d < 2 ^ 64
  clock : act = .timerIrq → (s.tickCount + 1) * 1000 < 2 ^ 64 ∧ (s.tickCount + 1) * 1000 / s.channelHz * 1000000 < 2 ^ 64

/-- Every task has waited long enough, or still waits, or is dead. -/
def DueOk (s : Kernel) (L : Place → List Tid) (due : Due) : Prop :=
  ∀ t ∈ s.tcbs, due t ≤ getUptimeNs s ∨ t ∈ L (.queue .sleeping) ∧ s.wakeTime t = due t ∨ s.state t = .dead

section Requests

variable {s s' : Kernel} {L L' : Place → List Tid} {act : Act} {due : Due} {t : Tid}

/-- A request that fits is passed on to `nano_sleep_until` as it is. -/
theorem sleepsUntil_of_fits {d : Nat} (h : act.asksFor s = some d) (hd : d < 2 ^ 64) : act.sleepsUntil s = some d := by
  unfold Act.asksFor at h
  split at h
  · exact h
  · cases h
    show some (u64 _) = _
    rw [u64, Nat.mod_eq_of_lt hd]
  · rename_i n
    cases h
    have hn : n * 1000000000 < 2 ^ 64 := by omega
    show some (u64 (_ + u64 _)) = _
    rw [u64, u64, Nat.mod_eq_of_lt hn, Nat.mod_eq_of_lt hd]
  · rename_i ms
    cases h
    have hn : ms * 1000000 < 2 ^ 64 := by omega
    show some (u64 (_ + u64 _)) = _
    rw [u64, u64, Nat.mod_eq_of_lt hn, Nat.mod_eq_of_lt hd]
  · cases h

theorem dueOk_step (hi : Inv s L) (hs : step s act = some s') (hn : Next s L act s' L') (hf : Fits s act)
    (h : DueOk s L due) : DueOk s' L' (due.next s act) := by
  have hup := uptime_le hi.balanced hs hf.clock
  intro t ht
  unfold Due.next
  by_cases hgone : t ∉ s.tcbs ∨ s.state t = .dead
  · rw [if_pos hgone]
    exact .inl (Nat.zero_le _)
  rw [if_neg hgone]
  simp only [not_or, not_not] at hgone
  -- what it asked for before, it has got, or it still waits for it
  have hold : due t ≤ getUptimeNs s' ∨ t ∈ L' (.queue .sleeping) ∧ s'.wakeTime t = due t ∨ s'.state t = .dead := by
    rcases h t hgone.1 with hle | ⟨hm, hw⟩ | hd
    · exact .inl (Nat.le_trans hle hup)
    · rcases awake_of_step hi hs hn hm with hstay | hdue | hdead
      · exact .inr (.inl ⟨hstay, (wakeTime_of_sleeping hi hs hm).trans hw⟩)
      · exact .inl (Nat.le_trans (hw ▸ hdue) hup)
      · exact .inr (.inr hdead)
    · exact absurd hd hgone.2
  cases ha : act.asksFor s with
  | none => exact hold
  | some d =>
    by_cases hcur : s.currentTask = some t
    · simp only [if_pos hcur]
      have hw := sleepsUntil_of_fits ha (hf.sleep d ha)
      by_cases hle : d ≤ getUptimeNs s
      · exact .inl (Nat.le_trans hle hup)
      · have hfall : act.fallsAsleep s = some (t, d) := by simp only [Act.fallsAsleep, hw, hcur, if_neg hle]
        refine .inr (.inl ⟨?_, ?_⟩)
        · rw [sleepers_fallsAsleep hn hfall]
          exact mem_insertKey.2 (.inl rfl)
        · rw [wakeTime_sleeps hs hw hcur (Nat.lt_of_not_le hle), update_self]
    · simp only [if_neg hcur]
      exact hold

end Requests

/-- The running stack is back in the code that made the call: a kernel task's own, `syscall_entry` after the handler, or
ring 3. -/
def Frame.isCaller : Frame → Bool
  | .body | .userMode | .syscallReturn _ => true
  | _ => false

/-- In every run in which requests and clock fit into 64 bits, a sleeping call has not returned, and its task was not made
READY, before the uptime that was asked for. -/
theorem sleep_not_early (b : Boot) {s₀ s : Kernel} {due : Due} (h₀ : Starts b s₀)
    (hr : Reach dueStep (fun x act => Safe x.1 act ∧ Fits x.1 act) (s₀, fun _ => 0) (s, due)) :
    (∀ f k, s.control = f :: k → f.isCaller = true → due s.onStack ≤ getUptimeNs s) ∧
    ∀ act s' t, step s act = some s' → Safe s act → t ∈ s.tcbs → s.state t = .sleeping → s'.state t = .ready →
      due t ≤ getUptimeNs s := by
  obtain ⟨L, hi, hok⟩ : ∃ L, Inv s L ∧ DueOk s L due :=
    hr.invariant (P := fun x => ∃ L, Inv x.1 L ∧ DueOk x.1 L x.2)
      ⟨_, inv_start h₀, fun _ _ => .inl (Nat.zero_le _)⟩ fun x act y ⟨L, hi, hok⟩ hcond hs => by
        obtain ⟨s', hs', rfl⟩ := Option.map_eq_some_iff.1 hs
        obtain ⟨L', hn⟩ := inv_step hi hs' hcond.1
        exact ⟨L', hn.inv, dueOk_step hi hs' hn hcond.2 hok⟩
  refine ⟨fun f k hc hf => ?_, fun act s' t hs hsafe ht hst hready => ?_⟩
  · obtain ⟨t, hact⟩ := hi.acting hc (by cases f <;> first | rfl | cases hf)
    rw [← hact.onStack]
    rcases hok t hact.live with hle | ⟨hm, -⟩ | hd
    · exact hle
    · exact absurd (hact.running.symm.trans (hi.placed.state_of_sleeping hm)) (by decide)
    · exact absurd (hact.running.symm.trans hd) (by decide)
  · obtain ⟨L', hn⟩ := inv_step hi hs hsafe
    rcases hok t ht with hle | ⟨hm, hw⟩ | hd
    · exact hle
    · rcases awake_of_step hi hs hn hm with hstay | hdue | hdead
      · exact absurd (hready.symm.trans (hn.inv.placed.state_of_sleeping hstay)) (by decide)
      · exact hw ▸ hdue
      · exact absurd (hready.symm.trans hdead) (by decide)
    · exact absurd (hst.symm.trans hd) (by decide)

theorem step_of_dueStep {x y : Kernel × Due} {act : Act} (h : dueStep x act = some y) : step x.1 act = some y.1 := by
  obtain ⟨s', hs, rfl⟩ := Option.map_eq_some_iff.1 h
  exact hs

/-- A test for runs of whole operations in which requests and clock fit. -/
def wholeAndFits (x : Kernel × Due) (act : Act) : Bool :=
  wholeAndSmall x.1 act && (act.asksFor x.1).all (fun d => decide (d < 2 ^ 64)) &&
    match act with
    | .timerIrq =>
      decide ((x.1.tickCount + 1) * 1000 < 2 ^ 64 ∧ (x.1.tickCount + 1) * 1000 / x.1.channelHz * 1000000 < 2 ^ 64)
    | _ => true

theorem wholeAndFits_spec (x : Kernel × Due) (act : Act) (h : wholeAndFits x act = true) :
    WholeOps x.1 act ∧ Fits x.1 act := by
  obtain ⟨h, hclock⟩ := Bool.and_eq_true_iff.1 h
  obtain ⟨hwhole, hsleep⟩ := Bool.and_eq_true_iff.1 h
  refine ⟨(wholeAndSmall_spec x.1 act hwhole).1, fun d hd => ?_, ?_⟩
  · rw [hd] at hsleep
    exact of_decide_eq_true hsleep
  · rintro rfl
    exact of_decide_eq_true hclock

/-- The user task sleeps for 10 ms, until after the first tick. -/
def shortSleepRun : List Act :=
  userTaskRun ++ [.syscall 4 10] ++ goOn 5 ++ [.timerIrq] ++ goOn 7 ++ [.call .yield] ++ goOn 5

theorem short_sleep_not_early : ∃ s due,
    Reach dueStep (fun x act => Safe x.1 act ∧ Fits x.1 act) (bootState .sample, fun _ => 0) (s, due) ∧
    s.control = [.syscallReturn 4, .userMode] ∧ s.onStack = 3 ∧ due 3 = 10000000 ∧ due 3 ≤ getUptimeNs s := by
  obtain ⟨⟨s, due⟩, hr, hc, hon, hdue⟩ := Reach.exists_of_checked dueStep (bootState .sample, fun _ => 0) shortSleepRun
    wholeAndFits_spec (fun x => x.1.control = [.syscallReturn 4, .userMode] ∧ x.1.onStack = 3 ∧ x.2 3 = 10000000)
    (by decide +kernel)
  have hreach := reach_safe (.inl rfl) (fun _ _ _ h => step_of_dueStep h) hr
  have hle := (sleep_not_early .sample (.inl rfl) hreach).1 _ _ hc rfl
  exact ⟨s, due, hreach, hc, hon, hdue, hon ▸ hle⟩

/-- The user task asks for 2 ^ 58 ms, which are 0 ns modulo 2 ^ 64. -/
def longSleepRun : List Act := userTaskRun ++ [.syscall 4 (2 ^ 58)] ++ goOn 2

theorem long_sleep_returns_at_once : ∃ s due,
    Reach dueStep (fun x act => Safe x.1 act) (bootState .sample, fun _ => 0) (s, due) ∧
    longSleepRun.foldlM dueStep (bootState .sample, fun _ => 0) = some (s, due) ∧
    s.control = [.syscallReturn 4, .userMode] ∧ s.onStack = 3 ∧ due 3 = 2 ^ 58 * 10 ^ 6 ∧ getUptimeNs s = 0 := by
  have hrun : (longSleepRun.foldlM dueStep (bootState .sample, fun _ => 0)).map (fun x =>
      decide (x.1.control = [.syscallReturn 4, .userMode] ∧ x.1.onStack = 3 ∧ x.2 3 = 2 ^ 58 * 10 ^ 6 ∧
        getUptimeNs x.1 = 0)) = some true := by
    decide +kernel
  obtain ⟨⟨s, due⟩, hs, he⟩ := Option.map_eq_some_iff.1 hrun
  obtain ⟨hc, hon, hdue, hup⟩ := of_decide_eq_true he
  have hwhole : Reach dueStep (fun x act => WholeOps x.1 act ∧ True) (bootState .sample, fun _ => 0) (s, due) := by
    refine .of_foldlM _ _ _ .refl ?_ hs
    rintro x act ha
    refine ⟨?_, trivial⟩
    rintro rfl
    exact absurd ha (by simp [longSleepRun, userTaskRun, goOn])
  have hreach := (reach_safe (.inl rfl) (fun _ _ _ h => step_of_dueStep h) hwhole).mono fun _ _ h => h.1
  exact ⟨s, due, hreach, hs, hc, hon, hdue, hup⟩

end ToastOS.Task
