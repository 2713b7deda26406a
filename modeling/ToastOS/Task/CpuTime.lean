import ToastOS.Task.Reaper
import ToastOS.Task.Time

/-!
# CPU time

Beside the machine runs a record of who really had the CPU (`Usage`), tick by tick: the RUNNING current task, or nobody,
in the idle loop of `schedule`. The kernel settles its accounts in `context_switch` only, so `Kernel.account` adds to the
`time_elapsed` of the task on the CPU what has passed since.

* `account_step`, `used_step` : what a step adds to the account of a task, and to the record;
* `charged_step` : as long as the CPU has not idled they agree;
* `BootRuns`, `bootRuns_step` : while the boot task does nothing but yield, the CPU does not idle;
* `cpu_time_charged` : the accounts are right exactly as long as no time was spent in the idle loop;
* `idle_time_charged_to_sleeper` : where it was, they are not.
-/

namespace ToastOS.Task

open ToastOS.Lib (Reach checked)
open Function

/-- What each task has had of the CPU since it was created, and what nobody had. -/
structure Usage where
  used : Tid → Nat
  idle : Nat

def Usage.next (u : Usage) (s s' : Kernel) : Usage where
  used := fun t =>
    if t ∉ s.tcbs then 0
    else if s.currentTask = some t ∧ s.state t = .running then u.used t + (getUptimeNs s' - getUptimeNs s) else u.used t
  idle := if s.currentTask = none then u.idle + (getUptimeNs s' - getUptimeNs s) else u.idle

/-- Boot time is the boot task's. -/
def Usage.start (b : Boot) : Usage := ⟨update (fun _ => 0) b.boot (getUptimeNs (bootState b)), 0⟩

def usageStep (x : Kernel × Usage) (act : Act) : Option (Kernel × Usage) := (step x.1 act).map fun s' => (s', x.2.next x.1 s')

def MonotoneUptime (s : Kernel) (act : Act) : Prop := ∀ s', step s act = some s' → getUptimeNs s ≤ getUptimeNs s'

/-- What is put down for a task, with what the next `update_task_time` will add. -/
def Kernel.account (s : Kernel) (t : Tid) : Nat :=
  s.timeElapsed t + if t = s.onStack then getUptimeNs s - s.lastTimeCheck else 0

structure Charged (s : Kernel) (u : Usage) : Prop where
  idleTime : s.cpuIdleTime = 0
  since : s.lastTimeCheck ≤ getUptimeNs s
  tasks : u.idle = 0 → ∀ t ∈ s.tcbs, s.account t = u.used t
  bound : ∀ t, u.used t ≤ getUptimeNs s

section Accounts

variable {s s' : Kernel} {L L' : Place → List Tid} {act : Act} {u : Usage} {t : Tid}

theorem uptime_lt (s : Kernel) : getUptimeNs s < 2 ^ 64 := Nat.mod_lt _ (by decide)

theorem uptime_of_times (h1 : s'.tickCount = s.tickCount) (h2 : s'.channelHz = s.channelHz) :
    getUptimeNs s' = getUptimeNs s := by
  rw [getUptimeNs, getUptimeNs, h1, h2]

/-- Where the CPU stays on its stack, its task is charged for what passes. -/
theorem account_stays (hte : s'.timeElapsed t = s.timeElapsed t) (hlast : s'.lastTimeCheck = s.lastTimeCheck)
    (hon : s'.onStack = s.onStack) (hsince : s.lastTimeCheck ≤ getUptimeNs s) (hmono : getUptimeNs s ≤ getUptimeNs s') :
    s'.account t = s.account t + if t = s.onStack then getUptimeNs s' - getUptimeNs s else 0 := by
  unfold Kernel.account
  rw [hte, hlast, hon]
  split <;> omega

/-- `update_task_time` adds what has passed, without wrap-around. -/
theorem charge_eq {e now last : Nat} (hlast : last ≤ now) (hnow : now < 2 ^ 64) (hsum : e + (now - last) ≤ now) :
    u64 (e + u64 (now + 2 ^ 64 - last)) = e + (now - last) := by
  have hd : u64 (now + 2 ^ 64 - last) = now - last := by
    rw [u64, show now + 2 ^ 64 - last = now - last + 2 ^ 64 by omega, Nat.add_mod_right]
    exact Nat.mod_eq_of_lt (by omega)
  rw [hd]
  exact Nat.mod_eq_of_lt (by omega)

theorem account_step (hb : Balanced s.core) (hs : step s act = some s') (ht : t ∈ s.tcbs)
    (hsince : s.lastTimeCheck ≤ getUptimeNs s) (hmono : getUptimeNs s ≤ getUptimeNs s') (hle : s.account t ≤ getUptimeNs s) :
    s'.account t = s.account t + if t = s.onStack then getUptimeNs s' - getUptimeNs s else 0 := by
  cases times_step hb hs with
  | same h _ hon | idles h _ hon | tick _ _ h _ hon | sleeps _ _ _ _ h _ _ hon | slice _ _ _ _ _ h _ _ hon
  | resumes h _ _ hon =>
    exact account_stays (congrFun (congrArg Times.timeElapsed h) t) (congrArg Times.lastTimeCheck h) hon hsince hmono
  | creates a hfree h _ _ _ hon =>
    have hne : t ≠ a := by
      rintro rfl
      exact hfree ht
    exact account_stays ((congrFun (congrArg Times.timeElapsed h) t).trans (update_of_ne hne _ _))
      (congrArg Times.lastTimeCheck h) hon hsince hmono
  | switches next h =>
    have hup := uptime_of_times (congrArg Times.tickCount h) (congrArg Times.channelHz h)
    have hlast : s'.lastTimeCheck = getUptimeNs s := congrArg Times.lastTimeCheck h
    have hte : s'.timeElapsed t = update s.timeElapsed s.onStack _ t := congrFun (congrArg Times.timeElapsed h) t
    unfold Kernel.account at hle ⊢
    rw [hup, hlast, hte, Nat.sub_self, ite_self, ite_self, Nat.add_zero, Nat.add_zero]
    by_cases hon : t = s.onStack
    · subst hon
      rw [if_pos rfl] at hle ⊢
      rw [update_self]
      exact charge_eq hsince (uptime_lt s) hle
    · rw [update_of_ne hon, if_neg hon, Nat.add_zero]

/-- Only the clock adds to the record: to the task on the CPU, if it does not idle. -/
theorem used_step (hi : Inv s L) (hs : step s act = some s') (ht : t ∈ s.tcbs) (hidle : (u.next s s').idle = 0) :
    (u.next s s').used t = u.used t + if t = s.onStack then getUptimeNs s' - getUptimeNs s else 0 := by
  by_cases hd : getUptimeNs s' - getUptimeNs s = 0
  · simp [Usage.next, ht, hd]
  · have hflag : s.intFlag = true := by
      cases times_step hi.balanced hs with
      | tick _ hflag => exact hflag
      | same h | idles h | sleeps _ _ _ _ h | creates _ _ h | slice _ _ _ _ _ h | resumes h | switches _ h =>
        refine absurd ?_ hd
        rw [uptime_of_times (congrArg Times.tickCount h) (congrArg Times.channelHz h), Nat.sub_self]
    cases hcur : s.currentTask with
    | none =>
      simp only [Usage.next, hcur, if_true] at hidle
      omega
    | some v =>
      have hv : v = s.onStack := hi.balanced.current v hcur
      have hrun := hi.running_of_base (hi.balanced.intFlag hflag) hcur
      subst hv
      by_cases hon : t = s.onStack
      · subst hon
        simp [Usage.next, ht, hcur, hrun]
      · simp [Usage.next, ht, hcur, hon, Ne.symm hon]

theorem new_task (hi : Inv s L) (hn : Next s L act s' L') (hs : step s act = some s') (hnew : t ∉ s.tcbs) (ht : t ∈ s'.tcbs) :
    s'.timeElapsed t = 0 ∧ s'.onStack = s.onStack := by
  obtain ⟨hl, -⟩ := hn.fresh_of_new hi hnew ht
  cases act with
  | call op =>
    obtain ⟨k, -, -, he⟩ := call_of_step hs
    have hl : op.leaves s = some (.createInsert t) := hl
    unfold Op.leaves at hl
    split at hl
    · obtain ⟨_, -, hg⟩ := Option.map_eq_some_iff.1 hl
      cases hg
    · cases hl
      rw [he]
      exact ⟨update_self _ _ _, rfl⟩
    · cases hl
      rw [he]
      exact ⟨update_self _ _ _, rfl⟩
    · cases hl
  | exec ok =>
    obtain ⟨v, k, hc, hg⟩ := hl
    split at hg <;> cases hg
  | _ => cases hl

theorem charged_step (hi : Inv s L) (hn : Next s L act s' L') (hs : step s act = some s')
    (hmono : getUptimeNs s ≤ getUptimeNs s') (h : Charged s u) : Charged s' (u.next s s') := by
  refine ⟨?_, ?_, fun hidle t ht => ?_, fun t => ?_⟩
  · rw [← h.idleTime]
    cases times_step hi.balanced hs with
    | same h | idles h | tick _ _ h | sleeps _ _ _ _ h | creates _ _ h | slice _ _ _ _ _ h | resumes h | switches _ h =>
      exact congrArg Times.cpuIdleTime h
  · cases times_step hi.balanced hs with
    | same hx | idles hx | tick _ _ hx | sleeps _ _ _ _ hx | creates _ _ hx | slice _ _ _ _ _ hx | resumes hx =>
      rw [show s'.lastTimeCheck = s.lastTimeCheck from congrArg Times.lastTimeCheck hx]
      exact Nat.le_trans h.since hmono
    | switches _ hx =>
      rw [show s'.lastTimeCheck = getUptimeNs s from congrArg Times.lastTimeCheck hx]
      exact hmono
  · have hidle₀ : u.idle = 0 := by
      simp only [Usage.next] at hidle
      split at hidle <;> omega
    by_cases hlive : t ∈ s.tcbs
    · have hacc := h.tasks hidle₀ t hlive
      rw [account_step hi.balanced hs hlive h.since hmono (by rw [hacc]; exact h.bound t), used_step hi hs hlive hidle, hacc]
    · obtain ⟨hte, hon⟩ := new_task hi hn hs hlive ht
      have hne : t ≠ s'.onStack := by
        rw [hon]
        rintro rfl
        exact hlive hi.onStack
      rw [Kernel.account, hte, if_neg hne]
      simp [Usage.next, hlive]
  · have := h.bound t
    simp only [Usage.next]
    split
    · exact Nat.zero_le _
    · split <;> omega

end Accounts

/-! ## The boot task -/

/-- The boot task only yields, so it is READY or RUNNING, and somebody is current. -/
structure BootRuns (a : Tid) (s : Kernel) (L : Place → List Tid) : Prop where
  t0 : s.t0 = some a
  live : a ∈ s.tcbs
  created : ¬ Fresh s L a
  frames : ∀ g ∈ s.core.stackOf a, g ≠ .reapLoop ∧ g.ofReaper = true
  state : s.state a = .ready ∨ s.state a = .running
  busy : s.currentTask ≠ none

section Boot

variable {s s' : Kernel} {L L' : Place → List Tid} {act : Act} {a t : Tid} {f : Frame} {k : List Frame}

theorem SetupStep.t0 (h : SetupStep s act s') : s'.t0 = s.t0 := by
  cases h with
  | same h _ => exact congrArg Setup.t0 h
  | switch h => exact congrArg Setup.t0 h
  | semaphore _ h _ => exact congrArg Setup.t0 h
  | create _ _ _ _ h _ _ => exact congrArg Setup.t0 h
  | reap _ _ h _ => exact congrArg Setup.t0 h

theorem BootRuns.stack_step (h : BootRuns a s L) (hb : Balanced s.core) (hs : step s act = some s') :
    ∀ g ∈ s'.core.stackOf a, g ≠ .reapLoop ∧ g.ofReaper = true := by
  have hf := frames_step hb hs
  have hcon : s.core.stackOf s.onStack = s.control := stackOf_onStack s.core
  by_cases hon : a = s.onStack
  · subst hon
    have hall := h.frames
    rw [hcon] at hall
    intro g hg
    rcases hf.running g hg with hold | hnew
    · exact hall g hold
    · exact ⟨hnew.1, hnew.2 fun f hf => (hall f hf).2⟩
  · rw [hf.others a h.live hon]
    exact h.frames

theorem BootRuns.head (h : BootRuns a s L) (hb : Balanced s.core) (hcur : s.currentTask = some a) (hc : s.control = f :: k) :
    f ≠ .reapLoop ∧ f.ofReaper = true := by
  refine h.frames f ?_
  rw [hb.current a hcur, stackOf_onStack, show s.core.control = f :: k from hc]
  exact List.mem_cons_self

/-- It calls nothing that would block it, and is not killed. -/
theorem BootRuns.state_step (h : BootRuns a s L) (hb : Balanced s.core) (hs : step s act = some s')
    (hmove : StateMove s act s' a) : s'.state a = .ready ∨ s'.state a = .running := by
  cases hmove with
  | same he => rw [he]; exact h.state
  | ready he => exact .inl he
  | running he => exact .inr he
  | blocks hcur hown _ =>
    obtain ⟨f, k, hc, rfl | rfl⟩ := hown
    · cases (h.head hb hcur hc).2
    · cases (h.head hb hcur hc).2
  | parks hcur hloop _ =>
    obtain ⟨k, hc⟩ := hloop
    exact absurd rfl (h.head hb hcur hc).1
  | dies hcur hown _ _ _ =>
    obtain ⟨f, k, hc, -, hf⟩ := hown
    exact absurd ((h.head hb hcur hc).2.symm.trans hf) (by decide)
  | killed hkill _ _ hends _ =>
    obtain ⟨p, k, hc⟩ := hkill
    rcases exec_or_irq hs hc (by simp) (by simp) with ⟨ok, rfl, -⟩ | ⟨rfl, -⟩
    · simp only [Act.ends, hc, if_pos (show Protected s a from .inl h.t0)] at hends
      cases hends
    · cases hends

theorem BootRuns.queued (h : BootRuns a s L) (hi : Inv s L) (hst : s.state a = .ready) : a ∈ L (.queue .ready) := by
  by_contra hout
  refine h.created ⟨h.live, hst, fun p hp => ?_⟩
  have hplace := (hi.placed.settled a h.live).named p hp
  simp only [Kernel.placeOf, hst, Option.some.injEq] at hplace
  exact hout (hplace ▸ hp)

/-- `schedule` goes idle only where nobody is ready and its caller does not run. -/
theorem idle_of_schedule (hcur : s.currentTask = some t) (hn : (schedule k s).currentTask = none) :
    s.ready.first = none ∧ s.state t ≠ .running := by
  unfold schedule at hn
  split at hn
  · exact absurd (hcur.symm.trans hn) (by simp)
  · rename_i hp
    have hcore := core_queuePop s .ready
    split at hn
    · rename_i task s₁ heq
      rw [show queuePop s .ready = (some task, s₁) from heq] at hcore
      have := congrArg Core.currentTask (core_switchToTask task k ((congrArg Core.currentTask hcore).trans hcur)
        ((congrArg Core.postpone hcore).trans (not_not.1 hp)))
      exact absurd (hn.symm.trans this) (by simp [Core.switch])
    · rename_i heq
      refine ⟨readyPop_none heq, ?_⟩
      rw [hcur] at hn
      simp only at hn
      split at hn
      · cases hn
      · assumption

theorem BootRuns.busy_step (h : BootRuns a s L) (hi : Inv s L) (hs : step s act = some s') : s'.currentTask ≠ none := by
  cases times_step hi.balanced hs with
  | same _ hcur | tick _ _ _ hcur | sleeps _ _ _ _ _ _ hcur | creates _ _ _ _ _ hcur | slice _ _ _ _ _ _ _ hcur =>
    rw [hcur]
    exact h.busy
  | resumes _ _ hcur => rw [hcur]; simp
  | switches _ _ hcur => rw [hcur]; simp
  | idles _ hnone _ hhead =>
    obtain ⟨k, hc⟩ := hhead
    obtain ⟨v, hv⟩ := Option.ne_none_iff_exists'.1 h.busy
    rcases exec_or_irq hs hc (by simp) (by simp) with ⟨ok, -, hx⟩ | ⟨-, -, rfl⟩
    · have hs' : schedule k s = s' := Option.some.inj hx
      rw [← hs'] at hnone
      obtain ⟨hempty, hstop⟩ := idle_of_schedule hv hnone
      rcases h.state with hst | hst
      · exact absurd (hi.placed.lists.first_eq_none (i := .ready) |>.1 hempty) (List.ne_nil_of_mem (h.queued hi hst))
      · cases Option.some.inj (hv.symm.trans (hi.running a hst))
        exact absurd hst hstop
    · exact absurd hnone h.busy

theorem bootRuns_step (h : BootRuns a s L) (hi : Inv s L) (hn : Next s L act s' L') (hs : step s act = some s') :
    BootRuns a s' L' := by
  have hcalm := calm_step hi.balanced hs
  have hdead : s.state a ≠ .dead := by
    rcases h.state with hst | hst <;> rw [hst] <;> decide
  exact ⟨hcalm.setup.t0.trans h.t0, hi.live_step hn.registry h.live h.created hdead, hn.not_fresh hi hs h.live h.created,
    h.stack_step hi.balanced hs, h.state_step hi.balanced hs (hcalm.state a), h.busy_step hi hs⟩

theorem bootRuns_bootState (b : Boot) : BootRuns b.boot (bootState b) (bootLists b) := by
  have hrun : (bootState b).state b.boot = .running := if_pos rfl
  refine ⟨rfl, by simp [bootState], fun hf => ?_, fun g hg => ?_, .inr hrun, by simp [bootState]⟩
  · exact absurd (hrun.symm.trans hf.ready) (by decide)
  · have hg : g ∈ if b.boot = b.boot then [Frame.bootLoop] else _ := hg
    rw [if_pos rfl] at hg
    rw [List.mem_singleton.1 hg]
    exact ⟨by simp, rfl⟩

end Boot

theorem step_of_usageStep {x y : Kernel × Usage} {act : Act} (h : usageStep x act = some y) :
    step x.1 act = some y.1 ∧ y.2 = x.2.next x.1 y.1 := by
  obtain ⟨s', hs, rfl⟩ := Option.map_eq_some_iff.1 h
  exact ⟨hs, rfl⟩

/-- `init_multitasking` calls `update_task_time` with `last_time_check` 0. -/
theorem charged_start (b : Boot) (hboot : b.timeElapsed = b.lastTimeCheck)
    (hle : b.lastTimeCheck ≤ getUptimeNs (bootState b)) : Charged (bootState b) (.start b) := by
  refine ⟨rfl, hle, fun _ t _ => ?_, fun t => ?_⟩
  · show update (fun _ => 0) b.boot b.timeElapsed t +
      (if t = b.boot then getUptimeNs (bootState b) - b.lastTimeCheck else 0) = update (fun _ => 0) b.boot _ t
    by_cases ht : t = b.boot
    · subst ht
      rw [update_self, update_self, if_pos rfl]
      omega
    · rw [update_of_ne ht, update_of_ne ht, if_neg ht]
  · show update (fun _ => 0) b.boot _ t ≤ _
    rw [update_apply]
    split
    · exact Nat.le_refl _
    · exact Nat.zero_le _

/-- After a context switch in a run with a monotone uptime, with a boot task that only yields or with one that may block like
any other, every `time_elapsed` is what the task really used and `CPU_idle_time` what nobody used if, and only if, no time
was spent in the idle loop. With the boot task of `init_multitasking` none ever is. -/
theorem cpu_time_charged (b : Boot) (hboot : b.timeElapsed = b.lastTimeCheck)
    (hle : b.lastTimeCheck ≤ getUptimeNs (bootState b)) {s₀ s s' : Kernel} {u u' : Usage} {act : Act}
    (hstart : s₀ = bootState b ∨ s₀ = freeBoot b)
    (hr : Reach usageStep (fun x act => Safe x.1 act ∧ MonotoneUptime x.1 act) (s₀, .start b) (s, u))
    (hsafe : Safe s act) (hmono : MonotoneUptime s act) (hs : usageStep (s, u) act = some (s', u'))
    (hswitch : s'.switches = s.switches + 1) :
    ((∀ t ∈ s'.tcbs, s'.timeElapsed t = u'.used t) ∧ s'.cpuIdleTime = u'.idle ↔ u'.idle = 0) ∧
      (s₀ = bootState b → u'.idle = 0) := by
  have hcharged := charged_start b hboot hle
  obtain ⟨L, hi, hch, hbusy⟩ : ∃ L, Inv s L ∧ Charged s u ∧ (s₀ = bootState b → BootRuns b.boot s L ∧ u.idle = 0) := by
    refine hr.invariant (P := fun x => ∃ L, Inv x.1 L ∧ Charged x.1 x.2 ∧
      (s₀ = bootState b → BootRuns b.boot x.1 L ∧ x.2.idle = 0)) ?_ fun x act y ⟨L, hi, hch, hbusy⟩ ⟨hsafe, hmono⟩ hs => ?_
    · have hinv := inv_start hstart
      rcases hstart with rfl | rfl
      · exact ⟨_, hinv, hcharged, fun _ => ⟨bootRuns_bootState b, rfl⟩⟩
      · refine ⟨_, hinv, ⟨hcharged.idleTime, hcharged.since, hcharged.tasks, hcharged.bound⟩, fun h => ?_⟩
        cases congrArg Kernel.control h
    · obtain ⟨hs, hy⟩ := step_of_usageStep hs
      obtain ⟨L', hn⟩ := inv_step hi hs hsafe
      rw [hy]
      exact ⟨L', hn.inv, charged_step hi hn hs (hmono _ hs) hch, fun h => ⟨bootRuns_step (hbusy h).1 hi hn hs,
        (if_neg (hbusy h).1.busy).trans (hbusy h).2⟩⟩
  obtain ⟨hs, hu⟩ := step_of_usageStep hs
  have hs : step s act = some s' := hs
  have hu : u' = u.next s s' := hu
  obtain ⟨L', hn⟩ := inv_step hi hs hsafe
  have hch' := charged_step hi hn hs (hmono _ hs) hch
  rw [← hu] at hch'
  refine ⟨⟨fun h => h.2.symm.trans hch'.idleTime, fun hidle => ⟨fun t ht => ?_, hch'.idleTime.trans hidle.symm⟩⟩, fun h => ?_⟩
  · -- the switch has settled the account of the task it left
    rw [← hch'.tasks hidle t ht]
    cases times_step hi.balanced hs with
    | same h | idles h | tick _ _ h | sleeps _ _ _ _ h | creates _ _ h | slice _ _ _ _ _ h | resumes h =>
      have : s'.switches = s.switches := congrArg Times.switches h
      omega
    | switches next h =>
      have hlast : s'.lastTimeCheck = getUptimeNs s := congrArg Times.lastTimeCheck h
      rw [Kernel.account, hlast, uptime_of_times (congrArg Times.tickCount h) (congrArg Times.channelHz h), Nat.sub_self,
        ite_self, Nat.add_zero]
  · rw [hu]
    exact (if_neg (hbusy h).1.busy).trans (hbusy h).2

/-- A test for runs of whole operations in which the clock does not overflow. -/
def wholeAndClock (x : Kernel × Usage) (act : Act) : Bool :=
  wholeAndSmall x.1 act && match act with
    | .timerIrq =>
      decide ((x.1.tickCount + 1) * 1000 < 2 ^ 64 ∧ (x.1.tickCount + 1) * 1000 / x.1.channelHz * 1000000 < 2 ^ 64)
    | _ => true

theorem reach_of_clock {b : Boot} {s₀ : Kernel} {c : Usage} {acts : List Act} {x : Kernel × Usage} (h₀ : Starts b s₀)
    (h : acts.foldlM (checked wholeAndClock usageStep) (s₀, c) = some x) :
    Reach usageStep (fun x act => Safe x.1 act ∧ MonotoneUptime x.1 act) (s₀, c) x ∧ ∃ L, Inv x.1 L := by
  have hwhole : Reach usageStep (fun x act => WholeOps x.1 act ∧ (act = .timerIrq → (x.1.tickCount + 1) * 1000 < 2 ^ 64 ∧
      (x.1.tickCount + 1) * 1000 / x.1.channelHz * 1000000 < 2 ^ 64)) (s₀, c) x := by
    refine .of_checked (fun x act hx => ?_) _ _ _ .refl h
    obtain ⟨hx, hclock⟩ := Bool.and_eq_true_iff.1 hx
    refine ⟨(wholeAndSmall_spec x.1 act hx).1, ?_⟩
    rintro rfl
    exact of_decide_eq_true hclock
  have hsafe := reach_safe h₀ (fun _ _ _ h => (step_of_usageStep h).1) hwhole
  refine hsafe.strengthen (P := fun x => ∃ L, Inv x.1 L) ⟨_, inv_start h₀⟩ (fun x act y ⟨L, hi⟩ hok hs => ?_)
    fun x act ⟨L, hi⟩ hok => ⟨hok.1, fun s' hs => uptime_le hi.balanced hs hok.2⟩
  obtain ⟨L', hn⟩ := inv_step hi (step_of_usageStep hs).1 hok.1
  exact ⟨L', hn.inv⟩

/-- A tick, in which the boot task is left for the shell. -/
def firstTickRun : List Act := .timerIrq :: goOn 6

theorem boot_task_charged : ∃ s s' u u', Reach usageStep (fun x act => Safe x.1 act ∧ MonotoneUptime x.1 act)
      (bootState .sample, .start .sample) (s, u) ∧ usageStep (s, u) (.exec fun _ => true) = some (s', u') ∧
    s'.currentTask = some 1 ∧ (∀ t ∈ s'.tcbs, s'.timeElapsed t = u'.used t) ∧ u'.used 0 = 10000000 ∧ s'.cpuIdleTime = 0 := by
  have hrun : (firstTickRun.foldlM (checked wholeAndClock usageStep) (bootState .sample, .start .sample)).bind (fun x =>
      (usageStep x (.exec fun _ => true)).map fun y => decide (
        x.1.control = [.schedule, .unlockStuffTail, .irqReturn, .bootLoop] ∧ y.1.switches = x.1.switches + 1 ∧
        y.1.currentTask = some 1 ∧ y.2.used 0 = 10000000)) = some true := by
    decide +kernel
  obtain ⟨⟨s, u⟩, hs, hx⟩ := Option.bind_eq_some_iff.1 hrun
  obtain ⟨⟨s', u'⟩, hs', he⟩ := Option.map_eq_some_iff.1 hx
  obtain ⟨hc, hsw, hcur, hused⟩ := of_decide_eq_true he
  obtain ⟨hreach, L, hi⟩ := reach_of_clock (.inl rfl) hs
  have hsafe : Safe s (.exec fun _ => true) := by
    refine ⟨fun _ k _ h => ?_, fun _ p t k _ h => ?_⟩
    · cases hc.symm.trans h
    · cases hc.symm.trans h
  have hmono : MonotoneUptime s (.exec fun _ => true) := fun s' hs => uptime_le hi.balanced hs fun h => by cases h
  obtain ⟨hiff, hidle⟩ := cpu_time_charged .sample rfl (by decide +kernel) (.inl rfl) hreach hsafe hmono hs' hsw
  obtain ⟨hall, hzero⟩ := hiff.2 (hidle rfl)
  exact ⟨s, s', u, u', hreach, hs', hcur, hall, hused, hzero.trans (hidle rfl)⟩

/-- Boot task and shell go to sleep, and the reaper finds nothing to do: the CPU idles until the tick that wakes the boot
task. -/
def idleRun : List Act :=
  .call (.nanoSleepUntil 10000000) :: goOn 5 ++ [.call (.nanoSleepUntil 30000000)] ++ goOn 10 ++ [.timerIrq] ++ goOn 7

/-- The tick that nobody used is charged to the reaper, which was PAUSED; `CPU_idle_time` stays 0. -/
theorem idle_time_charged_to_sleeper : ∃ s s' u u', Reach usageStep (fun x act => Safe x.1 act ∧ MonotoneUptime x.1 act)
      (freeBoot .sample, .start .sample) (s, u) ∧ usageStep (s, u) (.exec fun _ => true) = some (s', u') ∧
    s'.switches = s.switches + 1 ∧ s.currentTask = none ∧ s.state 2 = .paused ∧ 2 ∈ s'.tcbs ∧
    s'.timeElapsed 2 = 10000000 ∧ u'.used 2 = 0 ∧ s'.cpuIdleTime = 0 ∧ u'.idle = 10000000 := by
  have hrun : (idleRun.foldlM (checked wholeAndClock usageStep) (freeBoot .sample, .start .sample)).bind (fun x =>
      (usageStep x (.exec fun _ => true)).map fun y => decide ((y.1.switches = x.1.switches + 1 ∧ x.1.currentTask = none ∧
        x.1.state 2 = .paused ∧ 2 ∈ y.1.tcbs) ∧ y.1.timeElapsed 2 = 10000000 ∧ y.2.used 2 = 0 ∧ y.1.cpuIdleTime = 0 ∧
        y.2.idle = 10000000)) = some true := by
    decide +kernel
  obtain ⟨⟨s, u⟩, hs, hx⟩ := Option.bind_eq_some_iff.1 hrun
  obtain ⟨⟨s', u'⟩, hs', he⟩ := Option.map_eq_some_iff.1 hx
  obtain ⟨⟨hsw, hcur, hpaused, hlive⟩, hte, hused, hzero, hidle⟩ := of_decide_eq_true he
  have hreach := (reach_of_clock (.inr rfl) hs).1
  exact ⟨s, s', u, u', hreach, hs', hsw, hcur, hpaused, hlive, hte, hused, hzero, hidle⟩

end ToastOS.Task
