import ToastOS.Task.Parts

/-!
# Whose stack holds which calls

A step works on the stack of the task that runs (`FramesStep`): every other stack is as it was, or is the first one of a
task that is being created, and what comes to the running one is a call the scheduler makes, unless the task runs code
of its own. So the loop of `reap_all_tasks` stays on the reaper's stack, and nothing else comes to it (`ReaperStacks`).
-/

namespace ToastOS.Task

open ToastOS.Lib (Queue Reach Any)
open Function

/-- The calls that can be on the reaper's stack; the boot task, which only yields, runs nothing else either. -/
def Frame.ofReaper : Frame → Bool
  | .schedule | .idle _ | .unlockSchedule | .unlockStuff | .unlockStuffTail | .kernelTaskStartup
  | .timerCheckSleepingTasks | .schedulerTimeSliceTick | .irqReturn | .reapLoop | .bootLoop => true
  | _ => false

/-- A call that may be added to the stack `k`: the reaper's loop to none, and to the reaper's stack only calls of its own. -/
def Addable (k : List Frame) (g : Frame) : Prop := g ≠ .reapLoop ∧ ((∀ f ∈ k, f.ofReaper = true) → g.ofReaper = true)

structure FramesStep (s s' : Kernel) : Prop where
  others : ∀ u ∈ s.tcbs, u ≠ s.onStack → s'.core.stackOf u = s.core.stackOf u
  loop : ∀ u, u ≠ s.onStack → .reapLoop ∈ s'.core.stackOf u → .reapLoop ∈ s.core.stackOf u
  running : ∀ g ∈ s'.core.stackOf s.onStack, g ∈ s.control ∨ Addable s.control g

section Steps

variable {s s' : Kernel} {act : Act} {f : Frame} {k : List Frame} {new : Option Frame}

theorem FramesStep.of_stackOf {c : Core} (hon : c.onStack = s.onStack) (hst : c.stack = s.stack)
    (hs : ∀ u, s'.core.stackOf u = c.stackOf u) (hctl : ∀ g ∈ c.control, g ∈ s.control ∨ Addable s.control g) :
    FramesStep s s' := by
  have hsame : ∀ u, u ≠ s.onStack → s'.core.stackOf u = s.core.stackOf u := by
    intro u hu
    have hu' : u ≠ s.core.onStack := hu
    rw [hs, Core.stackOf, Core.stackOf, if_neg (by rwa [hon]), if_neg hu', hst]
    rfl
  refine ⟨fun u _ hu => hsame u hu, fun u hu h => by rwa [hsame u hu] at h, ?_⟩
  rw [hs, ← hon, stackOf_onStack]
  exact hctl

/-- With code of its own on top the stack is not the reaper's. -/
theorem addable_of_head (hc : s.control = f :: k) (hf : f.ofReaper = false) {g : Frame} (hg : g ≠ .reapLoop) :
    Addable s.control g := by
  refine ⟨hg, fun h => ?_⟩
  have := h f (by rw [hc]; exact List.mem_cons_self)
  rw [hf] at this
  cases this

theorem OpCore.reapLoop_mem {c c' : Core} (ho : OpCore new k c c') (h : .reapLoop ∈ c'.control) : .reapLoop ∈ k := by
  induction ho with
  | ends => exact h
  | through => exact h
  | part hf =>
    rcases List.mem_cons.1 h with rfl | h
    · cases hf
    · exact h
  | yields => simpa [Core.goto] using h
  | locked => simpa [Core.goto] using h
  | blocks => simpa [Core.goto] using h
  | dies => simpa [Core.goto] using h
  | returns _ ih => simpa using ih h
  | creates _ _ ih => exact ih h
  | logs _ _ ih => exact ih h

/-- The saved stacks after an operation: only that of a task that is being created is new. -/
theorem OpCore.stack {c c' : Core} (ho : OpCore new k c c') (u : Tid) :
    c'.stack u = c.stack u ∨ (new = some (.createInsert u) ∧ .reapLoop ∉ c'.stack u) := by
  induction ho with
  | returns _ ih => exact ih
  | logs _ _ ih => exact ih
  | @creates k c c' a entry he _ ih =>
    by_cases hu : u = a
    · subst hu
      refine .inr ⟨rfl, ?_⟩
      rcases ih with h | ⟨-, h⟩
      · rw [h]
        show .reapLoop ∉ update c.stack u _ u
        rw [update_self]
        rcases he with rfl | rfl <;> simp
      · exact h
    · rcases ih with h | h
      · left
        rw [h]
        exact update_of_ne hu _ _
      · exact .inr h
  | _ => exact .inl rfl

/-- An operation of the running task; the reaper's loop comes to no stack. -/
theorem FramesStep.of_op {c : Core} {l : List Frame} (hon : c.onStack = s.onStack) (hst : c.stack = s.stack)
    (ho : OpCore new l c s'.core) (hl' : .reapLoop ∈ l → .reapLoop ∈ s.control)
    (hnew : ∀ a, new = some (.createInsert a) → a ∉ s.tcbs)
    (hadd : ∀ g ∈ s'.control, g ≠ .reapLoop → g ∈ s.control ∨ Addable s.control g) : FramesStep s s' := by
  have hon' : s'.core.onStack = s.onStack := ho.onStack.trans hon
  have hstack : ∀ u, u ≠ s.onStack → s'.core.stackOf u = s'.core.stack u ∧ s.core.stackOf u = s.stack u := by
    intro u hu
    exact ⟨if_neg (by rwa [hon']), if_neg hu⟩
  refine ⟨fun u hl hu => ?_, fun u hu h => ?_, fun g hg => ?_⟩
  · rw [(hstack u hu).1, (hstack u hu).2]
    rcases ho.stack u with h | ⟨h, -⟩
    · rw [h, hst]
    · exact absurd hl (hnew u h)
  · rw [(hstack u hu).1] at h
    rw [(hstack u hu).2]
    rcases ho.stack u with h' | ⟨-, h'⟩
    · rwa [h', hst] at h
    · exact absurd h h'
  · rw [← hon', stackOf_onStack] at hg
    by_cases hr : g = .reapLoop
    · subst hr
      exact .inl (hl' (ho.reapLoop_mem hg))
    · exact hadd g hg hr

theorem addable_of_scheduler {g : Frame} (hg : g.isScheduler = true) : Addable k g := by
  cases g <;> first | cases hg; done | exact ⟨by simp, fun _ => rfl⟩

theorem free_of_leaves {a : Tid} (hs : step s act = some s') (hl : Leaves s act (.createInsert a)) : a ∉ s.tcbs := by
  cases act with
  | call op =>
    obtain ⟨k, -, hfree, -⟩ := call_of_step hs
    have hl : op.leaves s = some (.createInsert a) := hl
    unfold Op.leaves at hl
    split at hl <;> simp_all [Op.addrFree]
  | exec ok =>
    obtain ⟨t, k, -, h⟩ := hl
    split at h <;> cases h
  | _ => exact hl.elim

theorem frames_step (hb : Balanced s.core) (hs : step s act = some s') : FramesStep s s' := by
  cases stackStep_of_step hb hs with
  | goes c top k waits below same onStack stack control calls =>
    refine .of_stackOf onStack stack same fun g hg => ?_
    rw [control] at hg
    rcases List.mem_append.1 hg with hg | hg
    · exact .inr (addable_of_scheduler (calls g hg))
    · rcases below with rfl | ⟨f, hc, -⟩
      · exact .inl hg
      · exact .inl (mem_of_tail hc hg)
  | acts c f top k new hc outside own onStack stack op leaves replaces loops =>
    refine .of_op onStack stack op (fun h => ?_) (fun a ha => free_of_leaves hs (leaves _ ha)) fun g hg hr => ?_
    · rcases List.mem_append.1 h with h | h
      · rw [hc, replaces.2.1 h]
        exact List.mem_cons_self
      · exact mem_of_tail hc h
    · by_cases hf : f.ofReaper = true
      · have hloop : f = .bootLoop ∨ f = .reapLoop := by
          cases f <;> simp_all [Frame.ofReaper, Frame.outside]
        exact (loops hloop g hg).imp id addable_of_scheduler
      · exact .inr (addable_of_head hc (Bool.eq_false_iff.2 hf) hr)

/-- The reaper's loop is on the stack of `r` only, and nothing else is that a task could run. -/
structure ReaperStacks (r : Tid) (s : Kernel) : Prop where
  loop : ∀ u, .reapLoop ∈ s.core.stackOf u → u = r
  frames : ∀ g ∈ s.core.stackOf r, g.ofReaper = true

theorem reaperStacks_step {r : Tid} (hr : r ∈ s.tcbs) (hb : Balanced s.core) (h : ReaperStacks r s)
    (hs : step s act = some s') : ReaperStacks r s' := by
  have hf := frames_step hb hs
  have hcon : s.core.stackOf s.onStack = s.control := stackOf_onStack s.core
  refine ⟨fun u hu => ?_, ?_⟩
  · by_cases hon : u = s.onStack
    · subst hon
      rcases hf.running _ hu with hold | hnew
      · exact h.loop _ (by rwa [hcon])
      · exact absurd rfl hnew.1
    · exact h.loop u (hf.loop u hon hu)
  · by_cases hon : r = s.onStack
    · subst hon
      have hall : ∀ g ∈ s.control, g.ofReaper = true := by
        rw [← hcon]
        exact h.frames
      intro g hg
      rcases hf.running g hg with hold | hnew
      · exact hall g hold
      · exact hnew.2 hall
    · rw [hf.others r hr hon]
      exact h.frames

end Steps

end ToastOS.Task
