import ToastOS.Task.CpuTime

/-!
# The kernel goes on

The stack of every task ends in code that does not return (`Grounded`), so that the CPU always has something to go on
with. The boot task only yields: there is always somebody to run, and the idle loop of `schedule` is never entered
(`kernel_always_goes_on`).
-/

namespace ToastOS.Task

open ToastOS.Lib

/-- There is something to go on with on the stack. -/
def Grounded (k : List Frame) : Prop := ∃ f ∈ k, f.isGround = true

section Ground

variable {s s' : Kernel} {L L' : Place → List Tid} {act : Act} {f : Frame} {k : List Frame} {b : Boot}

theorem Grounded.mono {k' : List Frame} (h : Grounded k) (hsub : ∀ g ∈ k, g ∈ k') : Grounded k' := by
  obtain ⟨f, hf, hg⟩ := h
  exact ⟨f, hsub f hf, hg⟩

theorem Grounded.tail (h : Grounded (f :: k)) (hf : f.isGround = false) : Grounded k := by
  obtain ⟨g, hg, hgr⟩ := h
  rcases List.mem_cons.1 hg with rfl | hg
  · exact absurd (hf.symm.trans hgr) (by decide)
  · exact ⟨g, hg, hgr⟩

theorem OpCore.mem_control {new : Option Frame} {c c' : Core} (ho : OpCore new k c c') : ∀ g ∈ k, g ∈ c'.control := by
  induction ho with
  | ends | through => exact fun g hg => hg
  | returns _ ih => exact fun g hg => ih g (List.mem_cons_of_mem _ hg)
  | creates _ _ ih => exact ih
  | logs _ _ ih => exact ih
  | _ => intro g hg; simp [Core.goto, hg]

/-- The calls below the one that ends stay on the stack of the task that runs. -/
theorem grounded_of_op {new : Option Frame} {c : Core} (ho : OpCore new k c s'.core) (hon : c.onStack = s.onStack)
    (hk : Grounded k) : Grounded (s'.core.stackOf s.onStack) := by
  have hon' : s'.core.onStack = s.onStack := ho.onStack.trans hon
  rw [← hon', stackOf_onStack]
  exact hk.mono ho.mem_control

theorem Frame.isGround_outside (h : f.outside = false) : f.isGround = false := by
  cases f <;> first | rfl | cases h

theorem grounded_running (hb : Balanced s.core) (hs : step s act = some s') (hg : Grounded s.control) :
    Grounded (s'.core.stackOf s.onStack) := by
  cases stackStep_of_step hb hs with
  | goes c top k waits below same onStack stack control calls =>
    rw [same, ← onStack, stackOf_onStack, control]
    have hk : Grounded k := by
      rcases below with rfl | ⟨f, hc, hf⟩
      · exact hg
      · rw [hc] at hg
        exact hg.tail (Frame.isGround_outside hf)
    exact hk.mono fun g hg => List.mem_append_right top hg
  | acts c f top k new hc outside own onStack stack op leaves replaces =>
    refine grounded_of_op op onStack ?_
    rw [hc] at hg
    obtain ⟨g, hg, hgr⟩ := hg
    rcases List.mem_cons.1 hg with rfl | hg
    · obtain ⟨g', hg', h⟩ := replaces.2.2 hgr
      exact ⟨g', List.mem_append_left k hg', h⟩
    · exact ⟨g, List.mem_append_right top hg, hgr⟩

/-- A new task starts in `task_first_run`, which calls its entry function. -/
theorem grounded_taskCreateInternal {a : Tid} {addr : Option Tid} {stackOk isUser : Bool} {entry : Frame} {cr3 : Nat}
    (he : entry.isGround = true) (htcbs : (taskCreateInternal addr stackOk entry cr3 isUser k s).tcbs = a :: s.tcbs)
    (hne : a ≠ s.onStack) : Grounded ((taskCreateInternal addr stackOk entry cr3 isUser k s).core.stackOf a) := by
  match addr, stackOk with
  | some a', true =>
    cases (List.cons.inj htcbs).1
    have hstack : (taskCreateInternal (some a) true entry cr3 isUser k s).core.stackOf a = [.kernelTaskStartup, entry] :=
      (if_neg hne).trans (Function.update_self _ _ _)
    rw [hstack]
    exact ⟨entry, by simp, he⟩
  | some _, false | none, _ => exact absurd htcbs.symm (List.cons_ne_self a s.tcbs)

theorem grounded_new {a : Tid} (hs : step s act = some s') (hcreate : act.creates = true) (htcbs : s'.tcbs = a :: s.tcbs)
    (hne : a ≠ s.onStack) : Grounded (s'.core.stackOf a) := by
  cases act with
  | call op =>
    obtain ⟨k, -, -, rfl⟩ := call_of_step hs
    cases op with
    | createKernelTask addr stackOk => exact grounded_taskCreateInternal rfl htcbs hne
    | createUserTask pml addr stackOk =>
      cases pml with
      | none => exact absurd htcbs.symm (List.cons_ne_self a s.tcbs)
      | some pml => exact grounded_taskCreateInternal rfl htcbs hne
    | _ => cases hcreate
  | _ => cases hcreate

theorem grounded_step (hi : Inv s L) (hs : step s act = some s') (hreg : RegStep s act s')
    (h : ∀ u ∈ s.tcbs, Grounded (s.core.stackOf u)) : ∀ u ∈ s'.tcbs, Grounded (s'.core.stackOf u) := by
  have hold : ∀ u ∈ s.tcbs, Grounded (s'.core.stackOf u) := by
    intro u hu
    by_cases hon : u = s.onStack
    · subst hon
      refine grounded_running hi.balanced hs ?_
      have := h s.onStack hu
      rwa [show s.core.stackOf s.onStack = s.control from stackOf_onStack s.core] at this
    · rw [(frames_step hi.balanced hs).others u hu hon]
      exact h u hu
  intro u hu
  cases hreg with
  | same tcbs => exact hold u (tcbs ▸ hu)
  | insert _ _ _ tcbs => exact hold u (tcbs ▸ hu)
  | release _ _ _ tcbs =>
    rw [tcbs] at hu
    exact hold u (List.mem_of_mem_erase hu)
  | reap _ _ _ _ tcbs => exact hold u ((tcbs u).1 hu).1
  | create a hcreate free tcbs =>
    rw [tcbs] at hu
    rcases List.mem_cons.1 hu with rfl | hu
    · have hne : u ≠ s.onStack := by
        rintro rfl
        exact free hi.onStack
      exact grounded_new hs hcreate tcbs hne
    · exact hold u hu

theorem grounded_bootState (b : Boot) : ∀ u ∈ (bootState b).tcbs, Grounded ((bootState b).core.stackOf u) := by
  intro u _
  by_cases hu : u = b.boot
  · rw [show (bootState b).core.stackOf u = [.bootLoop] from if_pos hu]
    exact ⟨.bootLoop, by simp, rfl⟩
  · have hstack : (bootState b).core.stackOf u = if u = b.reaper then [.kernelTaskStartup, .reapLoop]
      else [.kernelTaskStartup, .body] :=
      if_neg hu
    rw [hstack]
    split
    · exact ⟨.reapLoop, by simp, rfl⟩
    · exact ⟨.body, by simp, rfl⟩

theorem cpuIdleTime_step (hb : Balanced s.core) (hs : step s act = some s') : s'.cpuIdleTime = s.cpuIdleTime := by
  cases times_step hb hs with
  | same h | idles h | tick _ _ h | sleeps _ _ _ _ h | creates _ _ h | slice _ _ _ _ _ h | resumes h | switches _ h =>
    exact congrArg Times.cpuIdleTime h

/-- The kernel always goes on. In every state that a run reaches: no NULL pointer has been followed and no list walked
without end, there is a next step, somebody is current, the boot task is READY or RUNNING, and so the idle loop of
`schedule` is on no stack and no time has been booked as idle. -/
theorem kernel_always_goes_on (b : Boot) (h : Reach step Safe (bootState b) s) :
    s.stuck = false ∧ (∃ act s', step s act = some s') ∧ (∃ t ∈ s.tcbs, s.currentTask = some t) ∧
      (s.state b.boot = .ready ∨ s.state b.boot = .running) ∧ (∀ u ∈ s.tcbs, ∀ p, .idle p ∉ s.core.stackOf u) ∧
      s.cpuIdleTime = 0 := by
  obtain ⟨L, hi, hboot, hground, hidle⟩ :
      ∃ L, Inv s L ∧ BootRuns b.boot s L ∧ (∀ u ∈ s.tcbs, Grounded (s.core.stackOf u)) ∧ s.cpuIdleTime = 0 :=
    h.invariant (P := fun s => ∃ L, Inv s L ∧ BootRuns b.boot s L ∧ (∀ u ∈ s.tcbs, Grounded (s.core.stackOf u)) ∧
        s.cpuIdleTime = 0)
      ⟨_, inv_start (.inl rfl), bootRuns_bootState b, grounded_bootState b, rfl⟩ fun s act s'
        ⟨L, hi, hboot, hg, hidle⟩ hsafe hs => by
        obtain ⟨L', hn⟩ := inv_step hi hs hsafe
        exact ⟨L', hn.inv, bootRuns_step hboot hi hn hs, grounded_step hi hs hn.registry hg,
          (cpuIdleTime_step hi.balanced hs).trans hidle⟩
  have hstuck := hi.placed.notStuck
  have hrunning : s.core.stackOf s.onStack = s.control := stackOf_onStack s.core
  obtain ⟨t, ht⟩ := Option.ne_none_iff_exists'.1 hboot.busy
  have hon : t = s.onStack := hi.balanced.current t ht
  refine ⟨hstuck, ?_, ⟨t, hon ▸ hi.onStack, ht⟩, hboot.state, fun u _ p => ?_, hidle⟩
  · obtain ⟨f, hf, -⟩ := hground s.onStack hi.onStack
    rw [hrunning] at hf
    obtain ⟨g, k, hc⟩ := List.exists_cons_of_ne_nil (List.ne_nil_of_mem hf)
    cases g with
    | body => exact ⟨.taskReturn, _, by simp only [step, hstuck, hc]; rfl⟩
    | userMode => exact ⟨.fault, _, by simp only [step, hstuck, hc]; rfl⟩
    | _ => exact ⟨.exec fun _ => true, _, step_exec hstuck hc _⟩
  · by_cases hu : u = s.onStack
    · rw [hu, hrunning]
      exact hi.balanced.owes.no_idle (Core.base_of_some (c := s.core) ht) p
    · have hstack : s.core.stackOf u = s.core.stack u := if_neg hu
      obtain ⟨f, k, -, -, ho⟩ := hi.balanced.suspended u hu
      rw [hstack]
      exact ho.no_idle rfl p

/-- After a tick the shell runs, and the boot task waits in the queue. -/
theorem shell_runs_after_tick : ∃ s, Reach step Safe (bootState .sample) s ∧ s.currentTask = some 1 ∧ s.stuck = false ∧
    s.state 0 = .ready ∧ s.cpuIdleTime = 0 := by
  obtain ⟨s, hr, hcur, hready⟩ := Reach.exists_of_checked step (bootState .sample) (.timerIrq :: goOn 8) wholeAndSmall_spec
    (fun s => s.currentTask = some 1 ∧ s.state 0 = .ready) (by decide +kernel)
  have hr := (safe_of_wholeOps (.inl rfl) hr).mono fun _ _ h => h.1
  obtain ⟨hstuck, -, -, -, -, hidle⟩ := kernel_always_goes_on .sample hr
  exact ⟨s, hr, hcur, hstuck, hready, hidle⟩

end Ground

end ToastOS.Task
