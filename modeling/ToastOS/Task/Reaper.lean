import ToastOS.Task.Races
import ToastOS.Task.States

/-!
# Reaping

The reaper frees what is on `terminated_task_list` and parks itself; a task that ends puts itself on the list, blocks, and
wakes the reaper before it leaves its section, and a kill does the same for its target. `Reaping r s L` is the invariant
that joins the two sides: while a DEAD task is allocated the reaper `r` is not parked, or the call that will wake it is
next on the running stack (`Waking`), where no interrupt can strike.

`reaps s act` are the calls of `reap_task` that a step makes, each with the state it is made in. TCBs are reused, so a task
is a TCB together with the number of tasks created there before it (`Lives`).
-/

namespace ToastOS.Task

open ToastOS.Lib (Queue Reach Any checked)
open Function

/-! ## The wake-up to come -/

/-- `terminate_task` has blocked its caller and has `wake_reaper` to call. -/
def Waking (s : Kernel) : Prop :=
  ∃ k, s.control = .wakeReaper :: k ∨ s.control = .unlockSchedule :: .wakeReaper :: k ∨
    s.control = .schedule :: .unlockSchedule :: .wakeReaper :: k

section Waking

variable {s s' : Kernel} {act : Act} {r : Tid}

theorem Waking.postpone (hb : Balanced s.core) (h : Waking s) : s.core.postpone = 1 := by
  obtain ⟨k, hc | hc | hc⟩ := h
  · have ho : Owes s.core.base s.core.irqDisable s.core.postpone (.wakeReaper :: k) := hc ▸ hb.owes
    exact ho.of_wakeReaper.2.2.1
  · have ho : Owes s.core.base s.core.irqDisable s.core.postpone (.unlockSchedule :: .wakeReaper :: k) := hc ▸ hb.owes
    exact (Owes.pay rfl ho).of_wakeReaper.2.2.1
  · have ho : Owes s.core.base s.core.irqDisable s.core.postpone (.schedule :: .unlockSchedule :: .wakeReaper :: k) :=
      hc ▸ hb.owes
    rcases ho.of_schedule with ⟨-, ⟨hp, -⟩ | ⟨-, -, f, k', he, -, ho'⟩⟩
    · exact hp
    · have ho' := Owes.pay rfl ho'
      have := ho'.of_wakeReaper.2.2.1
      omega

theorem Waking.locked (hb : Balanced s.core) (h : Waking s) : s.core.irqDisable ≠ s.core.base := by
  intro he
  have := (hb.flag_of_base he).1
  have := h.postpone hb
  omega

theorem Waking.step (hb : Balanced s.core) (h : Waking s) (hr : s.terminatorTask = some r) (hs : step s act = some s') :
    Waking s' ∨ s'.state r ≠ .paused := by
  have hp : s.postpone = 1 := h.postpone hb
  have hlk := h.locked hb
  obtain ⟨k, hc⟩ := h
  obtain ⟨ok, f, k', rfl, hc', hs⟩ | ⟨op, k', rfl, hc', -, rfl⟩ | ⟨k', rfl, hc', rfl⟩ | ⟨num, arg, k', rfl, hc', rfl⟩ |
    ⟨k', rfl, hc', rfl⟩ | ⟨rfl, hif, rfl⟩ := step_cases hs
  · rcases hc with hc | hc | hc <;> rw [hc] at hc' <;> cases hc' <;>
      simp only [execFrame, Option.some.injEq] at hs <;> subst hs
    · exact .inr (not_paused_wakeReaper hr)
    · exact .inl ⟨k, .inl rfl⟩
    · refine .inl ⟨k, .inr (.inl ?_)⟩
      rw [schedule, if_pos (by omega)]
  · rcases hc with hc | hc | hc <;> rw [hc] at hc' <;> cases hc'
  · rcases hc with hc | hc | hc <;> rw [hc] at hc' <;> cases hc'
  · rcases hc with hc | hc | hc <;> rw [hc] at hc' <;> cases hc'
  · rcases hc with hc | hc | hc <;> rw [hc] at hc' <;> cases hc'
  · exact absurd (hb.intFlag hif) hlk

end Waking

/-! ## The invariant -/

/-- The page tables of a new user task are not the kernel's: `vmm_create_context` returns a frame of its own. -/
def OwnSpace (s : Kernel) (act : Act) : Prop :=
  ∀ pml addr ok, act = .call (.createUserTask (some pml) addr ok) → pml ≠ s.kernelCr3

structure Reaping (r : Tid) (s : Kernel) (L : Place → List Tid) : Prop where
  terminator : s.terminatorTask = some r
  live : r ∈ s.tcbs
  created : ¬ Fresh s L r
  calls : ReaperStacks r s
  space : s.taskCr3 r = s.kernelCr3
  loaded : s.cr3 = s.taskCr3 s.onStack
  users : ∀ t, s.isUser t = true → s.taskCr3 t ≠ s.kernelCr3
  state : s.state r = .ready ∨ s.state r = .running ∨ s.state r = .paused
  woken : ∀ t ∈ s.tcbs, s.state t = .dead → s.state r ≠ .paused ∨ Waking s

section Step

variable {s s' : Kernel} {L L' : Place → List Tid} {act : Act} {r t : Tid} {f : Frame} {k : List Frame}

theorem SetupStep.kernelCr3 (h : SetupStep s act s') : s'.kernelCr3 = s.kernelCr3 := by
  cases h with
  | same h _ => exact congrArg Setup.kernelCr3 h
  | switch h => exact congrArg Setup.kernelCr3 h
  | semaphore _ h _ => exact congrArg Setup.kernelCr3 h
  | create _ _ _ _ h _ _ => exact congrArg Setup.kernelCr3 h
  | reap _ _ h _ => exact congrArg Setup.kernelCr3 h

theorem SetupStep.terminatorTask (h : SetupStep s act s') : s'.terminatorTask = s.terminatorTask := by
  cases h with
  | same h _ => exact congrArg Setup.terminatorTask h
  | switch h => exact congrArg Setup.terminatorTask h
  | semaphore _ h _ => exact congrArg Setup.terminatorTask h
  | create _ _ _ _ h _ _ => exact congrArg Setup.terminatorTask h
  | reap _ _ h _ => exact congrArg Setup.terminatorTask h

theorem SetupStep.taskCr3 (h : SetupStep s act s') (ht : t ∈ s.tcbs) : s'.taskCr3 t = s.taskCr3 t := by
  cases h with
  | same h _ => exact congrFun (congrArg Setup.taskCr3 h) t
  | switch h => exact congrFun (congrArg Setup.taskCr3 h) t
  | semaphore _ h _ => exact congrFun (congrArg Setup.taskCr3 h) t
  | reap _ _ h _ => exact congrFun (congrArg Setup.taskCr3 h) t
  | create a root _ hfree h _ _ =>
    rw [show s'.taskCr3 = update s.taskCr3 a root from congrArg Setup.taskCr3 h]
    apply update_of_ne
    rintro rfl
    exact hfree ht

theorem SetupStep.users (h : SetupStep s act s') (hok : OwnSpace s act)
    (hu : ∀ t, s.isUser t = true → s.taskCr3 t ≠ s.kernelCr3) (hut : s'.isUser t = true) : s'.taskCr3 t ≠ s'.kernelCr3 := by
  have hsame : s'.isUser = s.isUser → s'.taskCr3 = s.taskCr3 → s'.taskCr3 t ≠ s'.kernelCr3 := by
    intro h1 h2
    rw [h1] at hut
    rw [h2, h.kernelCr3]
    exact hu t hut
  cases h with
  | same h _ => exact hsame (congrArg Setup.isUser h) (congrArg Setup.taskCr3 h)
  | switch h => exact hsame (congrArg Setup.isUser h) (congrArg Setup.taskCr3 h)
  | semaphore _ h _ => exact hsame (congrArg Setup.isUser h) (congrArg Setup.taskCr3 h)
  | reap _ _ h _ => exact hsame (congrArg Setup.isUser h) (congrArg Setup.taskCr3 h)
  | create a root user hfree h hon hkind =>
    have h1 : s'.isUser = update s.isUser a user := congrArg Setup.isUser h
    have h2 : s'.taskCr3 = update s.taskCr3 a root := congrArg Setup.taskCr3 h
    rw [SetupStep.kernelCr3 (.create a root user hfree h hon hkind), h2]
    rw [h1] at hut
    by_cases ht : t = a
    · subst ht
      rw [update_self] at hut ⊢
      obtain ⟨addr, ok, hact⟩ := hkind hut
      exact hok root addr ok hact
    · rw [update_of_ne ht] at hut ⊢
      exact hu t hut

/-- The running stack is the reaper's when its loop is on it. -/
theorem Reaping.on_reaper (h : Reaping r s L) (hc : s.control = .reapLoop :: k) : s.onStack = r := by
  refine h.calls.loop _ ?_
  rw [show s.core.stackOf s.onStack = s.control from stackOf_onStack s.core, hc]
  exact List.mem_cons_self

theorem Reaping.cr3_of_loop (h : Reaping r s L) (hc : s.control = .reapLoop :: k) : s.cr3 = s.kernelCr3 := by
  rw [h.loaded, h.on_reaper hc, h.space]

theorem Reaping.loaded_step (h : Reaping r s L) (hon : s.onStack ∈ s.tcbs) (hset : SetupStep s act s') :
    s'.cr3 = s'.taskCr3 s'.onStack := by
  cases hset with
  | same hx hst =>
    rw [show s'.cr3 = s.cr3 from congrArg Setup.cr3 hx, show s'.taskCr3 = s.taskCr3 from congrArg Setup.taskCr3 hx, hst]
    exact h.loaded
  | switch hx =>
    rw [show s'.cr3 = s.taskCr3 s'.onStack from congrArg Setup.cr3 hx,
      show s'.taskCr3 = s.taskCr3 from congrArg Setup.taskCr3 hx]
  | semaphore _ hx hst =>
    rw [show s'.cr3 = s.cr3 from congrArg Setup.cr3 hx, show s'.taskCr3 = s.taskCr3 from congrArg Setup.taskCr3 hx, hst]
    exact h.loaded
  | create a root user hfree hx hst hkind =>
    have htask := SetupStep.taskCr3 (.create a root user hfree hx hst hkind) hon
    rw [show s'.cr3 = s.cr3 from congrArg Setup.cr3 hx, hst, htask]
    exact h.loaded
  | reap hloop hcr3 hx hst =>
    obtain ⟨k, hc⟩ := hloop
    rw [show s'.taskCr3 = s.taskCr3 from congrArg Setup.taskCr3 hx, hst, h.on_reaper hc, h.space]
    rcases hcr3 with hcr3 | hcr3
    · rw [hcr3, h.cr3_of_loop hc]
    · exact hcr3

/-- The reaper runs nothing but its loop, so it does not block on a call, end or get killed. -/
theorem Reaping.not_own (h : Reaping r s L) (hb : Balanced s.core) (hcur : s.currentTask = some r) (hc : s.control = f :: k)
    (hf : f.ofReaper = false) : False := by
  have hon : r = s.onStack := hb.current r hcur
  have := h.calls.frames f (by
    rw [hon, show s.core.stackOf s.onStack = s.control from stackOf_onStack s.core, hc]
    exact List.mem_cons_self)
  rw [hf] at this
  cases this

theorem Reaping.state_step (h : Reaping r s L) (hb : Balanced s.core) (hmove : StateMove s act s' r) :
    s'.state r = .ready ∨ s'.state r = .running ∨ s'.state r = .paused := by
  cases hmove with
  | same he => rw [he]; exact h.state
  | ready he => exact .inl he
  | running he => exact .inr (.inl he)
  | blocks hcur hown _ =>
    obtain ⟨f, k, hc, rfl | rfl⟩ := hown
    · exact (h.not_own hb hcur hc rfl).elim
    · exact (h.not_own hb hcur hc rfl).elim
  | parks _ _ he => exact .inr (.inr he)
  | dies hcur hown _ _ _ =>
    obtain ⟨f, k, hc, -, hf⟩ := hown
    exact (h.not_own hb hcur hc hf).elim
  | killed _ hother _ _ _ => exact absurd h.terminator hother

theorem Op.leaves_cases {op : Op} {g : Frame} (hl : op.leaves s = some g) :
    (∃ p u, g = .killLocked p u) ∨ ∃ u, g = .createInsert u := by
  unfold Op.leaves at hl
  split at hl
  · obtain ⟨u, -, rfl⟩ := Option.map_eq_some_iff.1 hl
    exact .inl ⟨_, u, rfl⟩
  · exact .inr ⟨_, (Option.some.inj hl).symm⟩
  · exact .inr ⟨_, (Option.some.inj hl).symm⟩
  · cases hl

/-- What becomes an allocated task in a step is the task that the running one creates. -/
theorem Next.fresh_of_new (hi : Inv s L) (hn : Next s L act s' L') (hnew : t ∉ s.tcbs) (ht : t ∈ s'.tcbs) :
    Leaves s act (.createInsert t) ∧ Fresh s' L' t := by
  cases hn.registry with
  | same htcbs _ _ => exact absurd (htcbs ▸ ht) hnew
  | insert _ _ _ htcbs _ _ _ => exact absurd (htcbs ▸ ht) hnew
  | release u _ _ htcbs _ _ => exact absurd (List.mem_of_mem_erase (htcbs ▸ ht)) hnew
  | reap _ _ _ _ htcbs _ _ => exact absurd ((htcbs t).1 ht).1 hnew
  | create a _ _ htcbs _ _ hnext =>
    obtain ⟨k, hc⟩ := hnext
    have hta : t = a := (List.mem_cons.1 (htcbs ▸ ht)).resolve_right hnew
    subst hta
    have hp := hn.inv.pends_head hc rfl
    refine ⟨?_, hn.inv.pending.create _ _ t hp rfl⟩
    rcases hn.pends _ _ hp with ⟨hold, -⟩ | ⟨-, -, hl⟩
    · exact absurd (hi.pending.create _ _ t hold rfl).live hnew
    · exact hl

/-- A task that has been created stays so while it is allocated. -/
theorem Next.not_fresh (hi : Inv s L) (hn : Next s L act s' L') (hs : step s act = some s') (ht : t ∈ s.tcbs)
    (hf : ¬ Fresh s L t) : ¬ Fresh s' L' t := by
  intro hf'
  rcases hn.fresh t hf' with ⟨h, -⟩ | ⟨g, k, hc, hg⟩
  · exact hf h
  · rcases hn.pends _ _ (hn.inv.pends_head hc (Frame.isPart_of_creates hg)) with ⟨hold, -⟩ | ⟨-, -, hl⟩
    · exact hf (hi.pending.create _ g t hold hg)
    · cases act with
      | exec ok =>
        obtain ⟨u, k', hc', rfl⟩ := hl
        have hu : u = t := by
          split at hg <;> exact Option.some.inj hg
        exact hf (hi.pending.create _ _ t (hi.pends_head (hu ▸ hc') rfl) rfl)
      | call op =>
        obtain ⟨_, _, rfl⟩ | ⟨_, rfl⟩ := Op.leaves_cases hl
        · cases hg
        · cases hg
          exact free_of_leaves hs hl ht
      | _ => cases hl

/-- A task that has been created and is not DEAD stays allocated. -/
theorem Inv.live_step (hi : Inv s L) (hreg : RegStep s act s') (ht : t ∈ s.tcbs) (hf : ¬ Fresh s L t)
    (hd : s.state t ≠ .dead) : t ∈ s'.tcbs := by
  cases hreg with
  | same htcbs _ _ => rw [htcbs]; exact ht
  | insert _ _ _ htcbs _ _ _ => rw [htcbs]; exact ht
  | create a _ _ htcbs _ _ _ => rw [htcbs]; exact List.mem_cons_of_mem a ht
  | release u _ hhead htcbs _ _ =>
    obtain ⟨k, hc⟩ := hhead
    rw [htcbs, mem_erase_tcbs hi.placed]
    refine ⟨?_, ht⟩
    rintro rfl
    exact hf (hi.pending.create _ _ t (hi.pends_head hc rfl) rfl)
  | reap l _ hdead _ htcbs _ _ =>
    refine (htcbs t).2 ⟨ht, fun hm => ?_⟩
    obtain ⟨x, hx, rfl⟩ := List.mem_map.1 hm
    exact hd (hdead x hx).2

theorem Reaping.not_dead (h : Reaping r s L) : s.state r ≠ .dead := by
  rcases h.state with hst | hst | hst <;> rw [hst] <;> decide

theorem terminated_reapTerminated (ok : Nat → Bool) : ∀ (n : Nat) (s : Kernel),
    (reapTerminated ok n s).terminated = none ∨ (reapTerminated ok n s).stuck = true
  | 0, s => by
    unfold reapTerminated
    split
    · rename_i h
      exact .inl h
    · exact .inr rfl
  | n + 1, s => by
    unfold reapTerminated
    split
    · rename_i h
      exact .inl h
    · exact terminated_reapTerminated ok n _

theorem not_dead_after_pass {ok : Nat → Bool} (hi : Inv s L) (hc : s.control = .reapLoop :: k)
    (hi' : Inv (reapAllTasks ok (.reapLoop :: k) s) L') (ht : t ∈ (reapAllTasks ok (.reapLoop :: k) s).tcbs) :
    (reapAllTasks ok (.reapLoop :: k) s).state t ≠ .dead := by
  intro hd
  obtain ⟨u, hact⟩ := hi.acting hc rfl
  obtain ⟨l, hcore, -⟩ := core_reapTerminated ok (lockStuff s).fuel (lockStuff s)
  have hcur : (reapTerminated ok (lockStuff s).fuel (lockStuff s)).currentTask = some u :=
    (congrArg Core.currentTask hcore).trans hact.current
  have heq : reapAllTasks ok (.reapLoop :: k) s = blockTask .paused (.unlockStuff :: .reapLoop :: k) _ := rfl
  have hmem : t ∈ L' .terminated := by
    refine (hi'.placed.settled t ht).listed _ ?_ (by simp)
    simp only [Kernel.placeOf, hd]
  have hnone : (reapAllTasks ok (.reapLoop :: k) s).terminated = none := by
    have hstuck := hi'.placed.notStuck
    rw [heq, blockTask_eq _ _ hcur] at hstuck ⊢
    rcases terminated_reapTerminated ok (lockStuff s).fuel (lockStuff s) with h | h
    · exact h
    · exact absurd (hstuck.symm.trans h) (by decide)
  have hseg := hi'.placed.lists.terminated
  rw [hnone] at hseg
  cases hl : L' .terminated with
  | nil =>
    rw [hl] at hmem
    cases hmem
  | cons a l' =>
    rw [hl] at hseg
    cases hseg.1

theorem Reaping.woken_step (h : Reaping r s L) (hi : Inv s L) (hn : Next s L act s' L') (hs : step s act = some s')
    (hcalm : CalmStep s act s') (ht : t ∈ s'.tcbs) (hd : s'.state t = .dead) : s'.state r ≠ .paused ∨ Waking s' := by
  have hstay : s.state r ≠ .paused → s'.state r ≠ .paused := by
    intro hr hp
    cases hcalm.state r with
    | same he => exact hr (he ▸ hp)
    | ready he => rw [he] at hp; cases hp
    | running he => rw [he] at hp; cases hp
    | blocks _ _ he => rcases he with he | he <;> rw [he] at hp <;> cases hp
    | dies _ _ _ _ he => rw [he] at hp; cases hp
    | killed _ _ _ _ he => rw [he] at hp; cases hp
    | parks _ hloop _ =>
      -- the pass that parks the reaper has freed every DEAD task
      obtain ⟨k, hc⟩ := hloop
      obtain ⟨ok, f, k', rfl, hc', he⟩ | ⟨_, _, _, hc', _⟩ | ⟨_, _, hc', _⟩ | ⟨_, _, _, _, hc', _⟩ | ⟨_, _, hc', _⟩ |
        ⟨_, _, rfl⟩ := step_cases hs
      · rw [hc] at hc'
        cases hc'
        cases Option.some.inj he
        exact not_dead_after_pass hi hc hn.inv ht hd
      · rw [hc] at hc'; cases hc'
      · rw [hc] at hc'; cases hc'
      · rw [hc] at hc'; cases hc'
      · rw [hc] at hc'; cases hc'
      · exact hr hp
  have hold : s.state t = .dead → s'.state r ≠ .paused ∨ Waking s' := by
    intro hd0
    have hlive : t ∈ s.tcbs := by
      by_contra hnew
      have hready := (hn.fresh_of_new hi hnew ht).2.ready
      rw [hd] at hready
      cases hready
    rcases h.woken t hlive hd0 with hr | hw
    · exact .inl (hstay hr)
    · exact (hw.step hi.balanced h.terminator hs).symm
  cases hcalm.state t with
  | same he => exact hold (he ▸ hd)
  | ready he => rw [he] at hd; cases hd
  | running he => rw [he] at hd; cases hd
  | blocks _ _ he => rcases he with he | he <;> rw [he] at hd <;> cases hd
  | parks _ _ he => rw [he] at hd; cases hd
  | dies _ _ hwk _ _ =>
    obtain ⟨k, hk⟩ := hwk
    exact .inr ⟨k, .inr (.inr hk)⟩
  | killed _ _ hwk _ _ => exact .inl (hwk r (hcalm.setup.terminatorTask.trans h.terminator))

theorem reaping_step (h : Reaping r s L) (hi : Inv s L) (hn : Next s L act s' L') (hs : step s act = some s')
    (hok : OwnSpace s act) : Reaping r s' L' := by
  have hcalm := calm_step hi.balanced hs
  refine ⟨hcalm.setup.terminatorTask.trans h.terminator, hi.live_step hn.registry h.live h.created h.not_dead,
    hn.not_fresh hi hs h.live h.created,
    reaperStacks_step h.live hi.balanced h.calls hs, ?_, h.loaded_step hi.onStack hcalm.setup,
    fun t ht => hcalm.setup.users hok h.users ht, h.state_step hi.balanced (hcalm.state r),
    fun t ht hd => h.woken_step hi hn hs hcalm ht hd⟩
  rw [hcalm.setup.taskCr3 h.live, hcalm.setup.kernelCr3]
  exact h.space

theorem reaping_start {b : Boot} (h : Starts b s) : Reaping b.reaper s (bootLists b) := by
  obtain ⟨f, hf, rfl⟩ := h.eq
  have hstack : ∀ u, ({ bootState b with control := [f] } : Kernel).core.stackOf u = if u = b.boot then [f] else
      if u = b.reaper then [.kernelTaskStartup, .reapLoop] else [.kernelTaskStartup, .body] := fun u => rfl
  have hready : (bootState b).state b.reaper = .ready := if_neg b.boot_ne_reaper.symm
  refine ⟨rfl, List.mem_cons_self, fun hf => ?_, ⟨fun u hu => ?_, ?_⟩, rfl, rfl, fun t ht => (by cases ht), .inl hready,
    fun _ _ _ => .inl (by rw [hready]; decide)⟩
  · exact hf.unlisted (.queue .ready) (List.mem_cons_of_mem _ List.mem_cons_self)
  · rw [hstack] at hu
    split at hu
    · rcases hf with rfl | rfl <;> simp at hu
    · split at hu
      · assumption
      · simp at hu
  · rw [hstack, if_neg b.boot_ne_reaper.symm, if_pos rfl]
    simp [Frame.ofReaper]

end Step

/-! ## The calls of `reap_task` -/

/-- The calls of `reap_task` in the loop of `reap_all_tasks`, each with the state it is made in. -/
def reapCalls (ok : Nat → Bool) : Nat → Kernel → List (Tid × Kernel)
  | 0, _ => []
  | n + 1, s =>
    match s.terminated with
    | none => []
    | some task =>
      (task, { s with terminated := s.next task }) ::
        reapCalls ok n (reapTask task (ok n) { s with terminated := s.next task })

/-- The calls of `reap_task` in a step. -/
def reaps (s : Kernel) : Act → List (Tid × Kernel)
  | .exec ok =>
    match s.control with
    | .reapLoop :: _ => reapCalls ok (lockStuff s).fuel (lockStuff s)
    | _ => []
  | _ => []

/-- What a call of `reap_task` meets, in terms of the state the pass began in. -/
structure ReapCall (s : Kernel) (c : Tid × Kernel) : Prop where
  state : c.2.state = s.state
  current : c.2.currentTask = s.currentTask
  isUser : c.2.isUser = s.isUser
  taskCr3 : c.2.taskCr3 = s.taskCr3
  cr3 : c.2.cr3 = s.cr3 ∨ c.2.cr3 = s.kernelCr3
  unlisted : ∃ L, Lists c.2 L ∧ Unlisted L c.1

section Calls

variable {s s' : Kernel} {L L' : Place → List Tid} {act : Act} {r t : Tid} {k : List Frame} {c : Tid × Kernel}

theorem log_reapTerminated (ok : Nat → Bool) : ∀ (n : Nat) (s : Kernel),
    (reapTerminated ok n s).log = s.log ++ (reapCalls ok n s).map fun c => .reapTask c.1
  | 0, s => by
    unfold reapTerminated reapCalls
    split <;> simp
  | n + 1, s => by
    unfold reapTerminated reapCalls
    cases s.terminated with
    | none => simp
    | some task =>
      dsimp only
      rw [log_reapTerminated ok n, List.map_cons]
      show s.log ++ [.reapTask task] ++ _ = _
      rw [List.append_assoc]
      rfl

theorem reapCalls_spec (ok : Nat → Bool) : ∀ (n : Nat) (s : Kernel) (L : Place → List Tid), Placed s L → Known s →
    (L .terminated).length ≤ n → (reapCalls ok n s).map Prod.fst = L .terminated ∧ ∀ c ∈ reapCalls ok n s, ReapCall s c := by
  intro n
  induction n with
  | zero =>
    intro s L h _ hn
    exact ⟨(List.length_eq_zero_iff.1 (Nat.le_zero.1 hn)).symm, fun c hc => by cases hc⟩
  | succ n ih =>
    intro s L h hk hn
    unfold reapCalls
    cases hl : L .terminated with
    | nil =>
      rw [h.lists.terminated_none hl]
      exact ⟨rfl, fun c hc => by cases hc⟩
    | cons a l =>
      obtain ⟨hta, hlists⟩ := h.lists.terminatedPop hl
      rw [hta]
      dsimp only
      obtain ⟨hpl, hkn⟩ := placed_reapTask (ok n) h hk hl
      obtain ⟨hmap, hcalls⟩ := ih _ _ hpl hkn (by
        rw [update_self]
        rw [hl] at hn
        simpa using hn)
      rw [update_self] at hmap
      refine ⟨by rw [List.map_cons, hmap], fun c hc => ?_⟩
      rcases List.mem_cons.1 hc with rfl | hc
      · have hnd := h.lists.nodup .terminated
        rw [hl] at hnd
        refine ⟨rfl, rfl, rfl, rfl, .inl rfl, _, hlists, unlisted_update (fun q hq ha => hq ?_) (List.nodup_cons.1 hnd).1⟩
        exact h.lists.apart q .terminated a ha (by rw [hl]; exact List.mem_cons_self)
      · obtain ⟨h1, h2, h3, h4, h5, h6⟩ := hcalls c hc
        refine ⟨h1, h2, h3, h4, ?_, h6⟩
        rcases h5 with h5 | h5
        · rw [h5]
          show (if _ then s.kernelCr3 else s.cr3) = _ ∨ (if _ then s.kernelCr3 else s.cr3) = _
          split
          · exact .inr rfl
          · exact .inl rfl
        · exact .inr h5

theorem reaps_cases (hc : c ∈ reaps s act) : ∃ ok k, act = .exec ok ∧ s.control = .reapLoop :: k := by
  unfold reaps at hc
  split at hc
  · split at hc
    · rename_i ok _ k hk
      exact ⟨ok, k, rfl, hk⟩
    · cases hc
  · cases hc

theorem reaps_spec (ok : Nat → Bool) (hi : Inv s L) (hc : s.control = .reapLoop :: k) :
    (reaps s (.exec ok)).map Prod.fst = L .terminated ∧ ∀ c ∈ reaps s (.exec ok), ReapCall (lockStuff s) c := by
  have hlock : Placed (lockStuff s) L := hi.placed.congr rfl rfl rfl rfl rfl rfl
  have heq : reaps s (.exec ok) = reapCalls ok (lockStuff s).fuel (lockStuff s) := by
    unfold reaps
    rw [hc]
  rw [heq]
  exact reapCalls_spec ok _ _ L hlock hi.known (Nat.le_of_lt (hlock.length_lt_fuel _))

end Calls

/-! ## Each task once -/

/-- How many tasks have been created at each address, and the tasks passed to `reap_task`: each with its address and the
number of tasks created there up to it. -/
structure Lives where
  born : Tid → Nat
  reaped : List (Tid × Nat)

/-- The address at which a call creates a task. -/
def Act.births : Act → Option Tid
  | .call (.createKernelTask (some a) true) => some a
  | .call (.createUserTask (some _) (some a) true) => some a
  | _ => none

def Lives.next (h : Lives) (s : Kernel) (act : Act) : Lives where
  born t := h.born t + if act.births = some t then 1 else 0
  reaped := h.reaped ++ (reaps s act).map fun c => (c.1, h.born c.1)

def livedStep (x : Kernel × Lives) (act : Act) : Option (Kernel × Lives) :=
  (step x.1 act).map fun s => (s, x.2.next x.1 act)

def Lives.start : Lives := ⟨fun _ => 0, []⟩

structure LivesOk (s : Kernel) (h : Lives) : Prop where
  nodup : h.reaped.Nodup
  born : ∀ x ∈ h.reaped, x.2 ≤ h.born x.1
  gone : ∀ x ∈ h.reaped, x.2 = h.born x.1 → x.1 ∉ s.tcbs

section Lives

variable {s s' : Kernel} {L L' : Place → List Tid} {act : Act} {r t : Tid} {k : List Frame} {h : Lives}

theorem births_of_leaves (hl : Leaves s act (.createInsert t)) : act.births = some t := by
  cases act with
  | exec ok =>
    obtain ⟨u, k, -, he⟩ := hl
    split at he <;> cases he
  | call op =>
    have hl : op.leaves s = some (.createInsert t) := hl
    unfold Op.leaves at hl
    split at hl
    · obtain ⟨u, -, he⟩ := Option.map_eq_some_iff.1 hl
      cases he
    · cases hl
      rfl
    · cases hl
      rfl
    · cases hl
  | _ => cases hl

theorem pass_of_step {ok : Nat → Bool} (hc : s.control = .reapLoop :: k) (hs : step s (.exec ok) = some s') :
    s' = reapAllTasks ok (.reapLoop :: k) s := by
  obtain ⟨ok', f, k', he, hc', hx⟩ | ⟨_, _, he, _⟩ | ⟨_, he, _⟩ | ⟨_, _, _, he, _⟩ | ⟨_, he, _⟩ | ⟨he, _⟩ := step_cases hs
  · cases he
    rw [hc] at hc'
    cases hc'
    exact (Option.some.inj hx).symm
  all_goals cases he

/-- A reaped task was allocated before the step and is not after it. -/
theorem reaps_freed (hi : Inv s L) (hs : step s act = some s') {c : Tid × Kernel} (hc : c ∈ reaps s act) :
    c.1 ∈ s.tcbs ∧ c.1 ∉ s'.tcbs := by
  obtain ⟨ok, k, rfl, hctl⟩ := reaps_cases hc
  obtain ⟨hmap, -⟩ := reaps_spec ok hi hctl
  have hmem : c.1 ∈ L .terminated := by
    rw [← hmap]
    exact List.mem_map_of_mem hc
  refine ⟨hi.placed.live _ _ hmem, fun hin => ?_⟩
  obtain ⟨t, hact⟩ := hi.acting hctl rfl
  have hlock : Placed (lockStuff s) L := hi.placed.congr rfl rfl rfl rfl rfl rfl
  obtain ⟨L1, hr⟩ := reaped_reapTerminated ok (lockStuff s).fuel (lockStuff s) L hlock hi.known
    (Nat.le_of_lt (hlock.length_lt_fuel _))
  obtain ⟨l, hcore, -⟩ := core_reapTerminated ok (lockStuff s).fuel (lockStuff s)
  rw [pass_of_step hctl hs, reapAllTasks, blockTask_eq _ _ ((congrArg Core.currentTask hcore).trans hact.current)] at hin
  exact ((hr.tcbs c.1).1 hin).2 hmem

theorem livesOk_step (hl : LivesOk s h) (hi : Inv s L) (hn : Next s L act s' L') (hs : step s act = some s') :
    LivesOk s' (h.next s act) := by
  have hnew : ∀ t ∈ s'.tcbs, act.births ≠ some t → t ∈ s.tcbs := by
    intro t ht hb
    by_contra hm
    exact hb (births_of_leaves (hn.fresh_of_new hi hm ht).1)
  -- a step that reaps creates nothing
  have hborn : ∀ c ∈ reaps s act, (h.next s act).born c.1 = h.born c.1 := by
    intro c hc
    obtain ⟨ok, k, rfl, -⟩ := reaps_cases hc
    rfl
  have hle : ∀ t, h.born t ≤ (h.next s act).born t := fun t => Nat.le_add_right _ _
  refine ⟨?_, fun x hx => ?_, fun x hx he => ?_⟩
  · refine List.nodup_append.2 ⟨hl.nodup, ?_, fun x hx y hy he => ?_⟩
    · cases hr : reaps s act with
      | nil => exact List.nodup_nil
      | cons c cs =>
        obtain ⟨ok, k, rfl, hctl⟩ := reaps_cases (hr ▸ List.mem_cons_self : c ∈ reaps s act)
        have hnd := hi.placed.lists.nodup .terminated
        rw [← (reaps_spec ok hi hctl).1, hr] at hnd
        refine List.Nodup.of_map Prod.fst ?_
        rwa [List.map_map]
    · obtain ⟨c, hc, rfl⟩ := List.mem_map.1 hy
      subst he
      exact hl.gone _ hx rfl (reaps_freed hi hs hc).1
  · rcases List.mem_append.1 hx with hx | hx
    · exact Nat.le_trans (hl.born x hx) (hle x.1)
    · obtain ⟨c, hc, rfl⟩ := List.mem_map.1 hx
      exact hle c.1
  · rcases List.mem_append.1 hx with hx | hx
    · intro ht
      have hb : act.births ≠ some x.1 := by
        intro hb
        have hle := hl.born x hx
        have he : x.2 = h.born x.1 + if act.births = some x.1 then 1 else 0 := he
        rw [if_pos hb] at he
        omega
      have he : x.2 = h.born x.1 + if act.births = some x.1 then 1 else 0 := he
      rw [if_neg hb] at he
      exact hl.gone x hx he (hnew x.1 ht hb)
    · obtain ⟨c, hc, rfl⟩ := List.mem_map.1 hx
      exact (reaps_freed hi hs hc).2

/-- What holds in every state of a run of whole operations in which user tasks get address spaces of their own. -/
theorem reaping_of_reach {b : Boot} {s₀ : Kernel} {x : Kernel × Lives} (h₀ : Starts b s₀)
    (hr : Reach livedStep (fun x act => WholeOps x.1 act ∧ OwnSpace x.1 act) (s₀, .start) x) :
    ∃ L, Inv x.1 L ∧ OnTop x.1.core ∧ Reaping b.reaper x.1 L ∧ LivesOk x.1 x.2 := by
  refine hr.invariant (P := fun x => ∃ L, Inv x.1 L ∧ OnTop x.1.core ∧ Reaping b.reaper x.1 L ∧ LivesOk x.1 x.2) ?_ ?_
  · exact ⟨_, inv_start h₀, onTop_start h₀, reaping_start h₀,
      List.nodup_nil, fun x hx => (by cases hx), fun x hx => by cases hx⟩
  · rintro ⟨s, h⟩ act x' ⟨L, hi, ht, hre, hl⟩ hok hs
    obtain ⟨s', hs', rfl⟩ := Option.map_eq_some_iff.1 hs
    have hs : step s act = some s' := hs'
    obtain ⟨L', hn⟩ := inv_step hi hs ht.safe
    exact ⟨L', hn.inv, onTop_step hi.balanced hi.clean ht hok.1 hs, reaping_step hre hi hn hs hok.2, livesOk_step hl hi hn hs⟩

/-- **Reaping.** In every state of every run of whole operations in which user tasks get address spaces of their own:
with no lock held and a task on `terminated_task_list` the reaper is READY or RUNNING; every call of `reap_task` is made
for a task that is DEAD, is not the current one and is on no list, and the root of a user task is not loaded; no task
is passed to `reap_task` twice; and the calls are those that a pass of the reaper logs. -/
theorem reaping_is_safe (b : Boot) {s₀ : Kernel} (h₀ : Starts b s₀)
    (hr : Reach livedStep (fun x act => WholeOps x.1 act ∧ OwnSpace x.1 act) (s₀, .start) (s, h)) :
    (Unlocked s → s.terminated ≠ none →
      ∃ r, s.terminatorTask = some r ∧ (s.state r = .ready ∨ s.state r = .running)) ∧
    (∀ act, ∀ c ∈ reaps s act, c.2.state c.1 = .dead ∧ c.2.currentTask ≠ some c.1 ∧
      (∃ L, Lists c.2 L ∧ ∀ p, c.1 ∉ L p) ∧ (c.2.isUser c.1 = true → c.2.cr3 ≠ c.2.taskCr3 c.1)) ∧
    h.reaped.Nodup ∧
    (∀ ok k s', s.control = .reapLoop :: k → step s (.exec ok) = some s' →
      s'.log = s.log ++ (reaps s (.exec ok)).map fun c => .reapTask c.1) := by
  obtain ⟨L, hi, -, hre, hl⟩ := reaping_of_reach h₀ hr
  refine ⟨fun hfree hterm => ?_, fun act c hc => ?_, hl.nodup, fun ok k s' hc hs => ?_⟩
  · obtain ⟨t, ht⟩ := Option.ne_none_iff_exists'.1 hterm
    have hmem : t ∈ L .terminated := by
      have hseg := hi.placed.lists.terminated
      cases hL : L .terminated with
      | nil =>
        rw [hL, ht] at hseg
        cases hseg
      | cons a l =>
        rw [hL, ht] at hseg
        cases hseg.1
        exact List.mem_cons_self
    refine ⟨b.reaper, hre.terminator, ?_⟩
    rcases hre.woken t (hi.placed.live _ t hmem) (hi.placed.state_of_terminated hmem) with hp | hw
    · rcases hre.state with h | h | h
      · exact .inl h
      · exact .inr h
      · exact absurd h hp
    · exact absurd hfree (hw.locked hi.balanced)
  · obtain ⟨ok, k, rfl, hctl⟩ := reaps_cases hc
    obtain ⟨hmap, hcalls⟩ := reaps_spec ok hi hctl
    have hcall := hcalls c hc
    have hdead : s.state c.1 = .dead := by
      apply hi.placed.state_of_terminated
      rw [← hmap]
      exact List.mem_map_of_mem hc
    refine ⟨by rw [hcall.state]; exact hdead, fun hcur => ?_, hcall.unlisted, fun hu => ?_⟩
    · obtain ⟨t, hact⟩ := hi.acting hctl rfl
      have hcur : s.currentTask = some c.1 := hcall.current.symm.trans hcur
      have : c.1 = t := Option.some.inj (hcur.symm.trans hact.current)
      rw [this, hact.running] at hdead
      cases hdead
    · have hcr3 : c.2.cr3 = s.kernelCr3 := by
        rcases hcall.cr3 with h | h
        · exact h.trans (hre.cr3_of_loop hctl)
        · exact h
      rw [hcall.isUser] at hu
      rw [hcr3, hcall.taskCr3]
      exact (hre.users c.1 hu).symm
  · obtain ⟨t, hact⟩ := hi.acting hc rfl
    obtain ⟨l, hcore, -⟩ := core_reapTerminated ok (lockStuff s).fuel (lockStuff s)
    have heq : reaps s (.exec ok) = reapCalls ok (lockStuff s).fuel (lockStuff s) := by
      unfold reaps
      rw [hc]
    rw [pass_of_step hc hs, reapAllTasks, blockTask_eq _ _ ((congrArg Core.currentTask hcore).trans hact.current), heq]
    exact log_reapTerminated ok _ (lockStuff s)

/-- A test for runs without interrupts in which user tasks get address spaces of their own. -/
def calmAndOwn (x : Kernel × Lives) : Act → Bool
  | .timerIrq => false
  | .call (.createUserTask (some pml) _ _) => pml != x.1.kernelCr3
  | _ => true

theorem calmAndOwn_spec (x : Kernel × Lives) (act : Act) (h : calmAndOwn x act = true) :
    WholeOps x.1 act ∧ OwnSpace x.1 act := by
  refine ⟨?_, ?_⟩
  · rintro rfl
    cases h
  · rintro pml addr ok rfl
    simpa [calmAndOwn] using h

/-- The shell creates a user task, which makes the exit system call; the reaper is about to begin its pass. -/
def exitRun : List Act := userTaskRun ++ .syscall 1 0 :: goOn 6 ++ .call .yield :: goOn 5

theorem exited_task_reaped : ∃ s h, Reach livedStep (fun x act => WholeOps x.1 act ∧ OwnSpace x.1 act)
      (bootState .sample, .start) (s, h) ∧ s.terminated = some 3 ∧
    (∃ r, s.terminatorTask = some r ∧ (s.state r = .ready ∨ s.state r = .running)) ∧
    ∃ c ∈ reaps s (.exec fun _ => true), c.1 = 3 ∧ c.2.state 3 = .dead ∧ c.2.cr3 ≠ c.2.taskCr3 3 := by
  obtain ⟨⟨s, h⟩, hreach, hterm, hcur, hirq, hcalls⟩ := Reach.exists_of_checked livedStep (bootState .sample, .start) exitRun
    calmAndOwn_spec (fun x => x.1.terminated = some 3 ∧ x.1.currentTask = some 2 ∧ x.1.irqDisable = 0 ∧
      ((reaps x.1 (.exec fun _ => true)).map fun c => (c.1, c.2.isUser 3)) = [(3, true)]) (by decide +kernel)
  obtain ⟨h1, h2, -⟩ := reaping_is_safe .sample (.inl rfl) hreach
  obtain ⟨c, hc, he⟩ := List.map_eq_singleton_iff.1 hcalls
  obtain ⟨hc1, hu⟩ := Prod.mk.inj he
  have hmem : c ∈ reaps s (.exec fun _ => true) := by rw [hc]; exact List.mem_singleton_self c
  obtain ⟨hd, -, -, hcr3⟩ := h2 _ c hmem
  rw [hc1] at hd hcr3
  refine ⟨s, h, hreach, hterm, h1 ?_ (by rw [hterm]; simp), c, hmem, hc1, hd, hcr3 hu⟩
  rw [Unlocked, hcur, hirq]
  rfl

/-- The shell creates a kernel task, which exits; the reaper is about to begin its pass. -/
def kernelExitRun : List Act :=
  oneTaskRun ++ .call .yield :: goOn 11 ++ .call .terminateTask :: goOn 6 ++ .call .yield :: goOn 5

/-- A kernel task shares the kernel's root, and that is loaded when it is reaped. -/
theorem kernel_task_reaped_in_its_space : ∃ s h, Reach livedStep (fun x act => WholeOps x.1 act ∧ OwnSpace x.1 act)
      (bootState .sample, .start) (s, h) ∧
    ∃ c ∈ reaps s (.exec fun _ => true), c.1 = 3 ∧ c.2.state 3 = .dead ∧ c.2.isUser 3 = false ∧ c.2.cr3 = c.2.taskCr3 3 := by
  obtain ⟨⟨s, h⟩, hreach, hcalls⟩ := Reach.exists_of_checked livedStep (bootState .sample, .start) kernelExitRun
    calmAndOwn_spec (fun x => ∃ c ∈ reaps x.1 (.exec fun _ => true), c.1 = 3 ∧ c.2.state 3 = .dead ∧ c.2.isUser 3 = false ∧
      c.2.cr3 = c.2.taskCr3 3) (by decide +kernel)
  exact ⟨s, h, hreach, hcalls⟩

end Lives

end ToastOS.Task