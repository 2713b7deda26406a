import ToastOS.Task.Races
import ToastOS.Task.States

/-!
# `kill_task_by_pid` from the call to its return

The call is followed step by step, with nothing in between (`goOn`): lookup, locked section, `unlock_stuff`, return.

* `Killable s pid task` : who can be killed;
* `Killed` : what a kill that returns 0 has done, list by list;
* `Untouched` : what a refused one leaves as it was.
-/

namespace ToastOS.Task

open ToastOS.Lib (Queue Reach checked)
open Function

/-- `pid` names a registered task that is not protected and not DEAD. -/
structure Killable (s : Kernel) (pid : Nat) (task : Tid) : Prop where
  registered : pidTableLookup s.pids pid = some task
  unprotected : s.t0 ≠ some task ∧ s.shellTask ≠ some task ∧ s.terminatorTask ≠ some task
  alive : s.state task ≠ .dead

/-- From `s`, whose lists are `L`, to `s'` the task was killed. The lists of `s'` are `L'`, with their first and last
pointers; only a parked reaper has become READY. -/
structure Killed (s : Kernel) (L : Place → List Tid) (task : Tid) (s' : Kernel) (L' : Place → List Tid) : Prop where
  dead : s'.state task = .dead
  head : s'.terminated = some task
  lists : Lists s' L'
  terminated : L' .terminated = task :: L .terminated
  queues : ∀ i, L' (.queue i) = (L (.queue i)).erase task ++ if i = .ready then parkedReaper s else []
  off : ∀ i, task ∉ L' (.queue i)
  others : ∀ t, t ≠ task → t ∉ parkedReaper s → s'.state t = s.state t
  reaper : ∀ t ∈ parkedReaper s, s'.state t = .ready

/-- The queues, the states, the pid table and the lock counters are the same. -/
structure Untouched (s s' : Kernel) : Prop where
  links : s'.links = s.links
  state : s'.state = s.state
  pids : s'.pids = s.pids
  irqDisable : s'.irqDisable = s.irqDisable
  postpone : s'.postpone = s.postpone

section Locked

variable {s : Kernel} {L : Place → List Tid} {task : Tid} {k : List Frame}

theorem calm_condemn (task : Tid) (s : Kernel) :
    (condemn task s).calm = (update s.state task .dead, s.setup) := by
  have h := calm_leaveQueue (lockStuff s) task
  have h1 : (leaveQueue task (lockStuff s)).state = s.state := congrArg Prod.fst h
  have h2 : (leaveQueue task (lockStuff s)).setup = s.setup := congrArg Prod.snd h
  show (update (leaveQueue task (lockStuff s)).state task .dead, (leaveQueue task (lockStuff s)).setup) = _
  rw [h1, h2]

theorem core_condemn (task : Tid) (s : Kernel) : (condemn task s).core = (lockStuff s).core :=
  core_leaveQueue (lockStuff s) task

/-- Killing another task does not change whether the reaper is parked. -/
theorem parkedReaper_condemn (hr : s.terminatorTask ≠ some task) : parkedReaper (condemn task s) = parkedReaper s := by
  have hcalm := calm_condemn task s
  have hst : (condemn task s).state = update s.state task .dead := congrArg Prod.fst hcalm
  have hterm : (condemn task s).terminatorTask = s.terminatorTask := congrArg (fun x => x.2.terminatorTask) hcalm
  unfold parkedReaper
  rw [hterm, hst]
  cases h : s.terminatorTask with
  | none => rfl
  | some r =>
    have hne : r ≠ task := by
      rintro rfl
      exact hr h
    simp only [update_of_ne hne]

theorem mem_parkedReaper {t : Tid} (ht : t ∈ parkedReaper s) : s.terminatorTask = some t ∧ s.state t = .paused := by
  unfold parkedReaper at ht
  split at ht
  · rename_i r hr
    split at ht
    · rename_i hp
      cases List.mem_singleton.1 ht
      exact ⟨hr, hp⟩
    · cases ht
  · cases ht

theorem state_wakeReaper_eq (s : Kernel) (t : Tid) :
    (wakeReaper s).state t = if t ∈ parkedReaper s then .ready else s.state t := by
  cases hr : s.terminatorTask with
  | none => simp only [wakeReaper, parkedReaper, hr, List.not_mem_nil, if_false]
  | some r =>
    by_cases hp : s.state r = .paused
    · simp only [wakeReaper, parkedReaper, hr, if_pos hp, state_unblockTask, update_apply, List.mem_singleton]
    · simp only [wakeReaper, parkedReaper, hr, if_neg hp, List.not_mem_nil, if_false]

theorem killed_of_change {s' : Kernel} (h : Placed s L) (htask : task ∈ s.tcbs) (hd : s.state task ≠ .dead)
    (hr : s.terminatorTask ≠ some task) (hl : s'.links = (wakeReaper (condemn task s)).links)
    (hst : s'.state = (wakeReaper (condemn task s)).state) : Killed s L task s' (killedLists task (parkedReaper s) L) := by
  have hch := change_kill h htask hd
  rw [parkedReaper_condemn hr] at hch
  have hcond : (condemn task s).state = update s.state task .dead := congrArg Prod.fst (calm_condemn task s)
  have hstate : ∀ t, s'.state t = if t ∈ parkedReaper s then .ready else update s.state task .dead t := by
    intro t
    rw [hst, state_wakeReaper_eq, parkedReaper_condemn hr, hcond]
  have hnot : task ∉ parkedReaper s := fun hm => hr (mem_parkedReaper hm).1
  have hlists : Lists s' (killedLists task (parkedReaper s) L) := hch.placed.lists.congr hl
  have hoff : ∀ i, task ∉ (L (.queue i)).erase task := fun i => (h.lists.nodup (.queue i)).not_mem_erase
  refine ⟨?_, hlists.terminated.head, hlists, rfl, ?_, ?_, ?_, ?_⟩
  · rw [hstate, if_neg hnot, update_self]
  · intro i
    cases i with
    | ready => rfl
    | sleeping => exact (List.append_nil _).symm
    | waiting q => exact (List.append_nil _).symm
  · intro i
    cases i with
    | ready =>
      intro hm
      exact (List.mem_append.1 hm).elim (hoff .ready) hnot
    | sleeping => exact hoff .sleeping
    | waiting q => exact hoff (.waiting q)
  · intro t ht hp
    rw [hstate, if_neg hp, update_of_ne ht]
  · intro t ht
    rw [hstate, if_pos ht]

/-- Only the states, the lists and who the reaper is matter. -/
theorem Killed.congr {s₁ u s' : Kernel} {L' : Place → List Tid} (h : Killed s₁ L task u L') (hst₁ : s₁.state = s.state)
    (hr₁ : s₁.terminatorTask = s.terminatorTask) (hst : s'.state = u.state) (hl : s'.links = u.links) :
    Killed s L task s' L' := by
  have hparked : parkedReaper s₁ = parkedReaper s := by rw [parkedReaper, parkedReaper, hr₁, hst₁]
  obtain ⟨hdead, hhead, hlists, hterm, hqueues, hoff, hothers, hreaper⟩ := h
  rw [hparked] at hqueues hreaper hothers
  rw [hst₁] at hothers
  refine ⟨?_, (congrArg (·.2.2.2.2) hl).trans hhead, hlists.congr hl, hterm, hqueues, hoff, ?_, ?_⟩
  · rw [hst]; exact hdead
  · rw [hst]; exact hothers
  · rw [hst]; exact hreaper

end Locked

/-! ## The way back -/

section Return

variable {s : Kernel} {L : Place → List Tid} {task : Tid} {k : List Frame} {pid : Nat}

/-- With no switch to make up for, `unlock_stuff` returns to the caller, and the caller returns `value`. -/
theorem unlockStuff_returns {value : Int} (hs : s.stuck = false) (hf : s.postponedFlag = false)
    (hc : s.control = .unlockStuff :: .ret value :: k) :
    (goOn 3).foldlM step s =
    some { unlockStuffTail { s with postpone := s.postpone - 1 } with control := k, rax := value } := by
  have h1 : step s (.exec fun _ => true) =
      some { s with postpone := s.postpone - 1, control := .unlockStuffTail :: .ret value :: k } := by
    simp [step, hs, hc, execFrame, unlockStuff, hf]
  show (step s (.exec fun _ => true)).bind _ = _
  rw [h1]
  simp [step, hs, execFrame, unlockStuffTail]

/-- The lookup has found `task`. -/
def lookedUp (pid : Nat) (task : Tid) (k : List Frame) (s : Kernel) : Kernel :=
  { unlockSchedule (lockSchedule s) with control := .killLocked pid task :: k }

theorem untouched_lookedUp (pid : Nat) (task : Tid) (k : List Frame) (s : Kernel) : Untouched s (lookedUp pid task k s) :=
  ⟨rfl, rfl, rfl, by simp [lookedUp, unlockSchedule, lockSchedule], rfl⟩

theorem call_killTaskByPid (hs : s.stuck = false) (hc : s.control = .body :: k) :
    step s (.call (.killTaskByPid pid)) = some (killTaskByPid pid (.body :: k) s) := by
  simp [step, hs, hc, Op.addrFree, callOp]

theorem killTaskByPid_found (hl : pidTableLookup s.pids pid = some task) :
    killTaskByPid pid k s = lookedUp pid task k s := by
  have hl' : pidTableLookup (unlockSchedule (lockSchedule s)).pids pid = some task := hl
  simp only [killTaskByPid, hl', lookedUp]

theorem exec_lookedUp (hs : s.stuck = false) :
    step (lookedUp pid task k s) (.exec fun _ => true) = some (killLocked task k (lookedUp pid task k s)) := by
  have hs' : (lookedUp pid task k s).stuck = false := hs
  have hc : (lookedUp pid task k s).control = .killLocked pid task :: k := rfl
  simp [step, hs', hc, execFrame]

/-- From `u`, at the end of a locked section, to `s'` only the locks were given back. -/
structure Released (u s' : Kernel) : Prop where
  links : s'.links = u.links
  state : s'.state = u.state
  pids : s'.pids = u.pids
  currentTask : s'.currentTask = u.currentTask
  irqDisable : s'.irqDisable = u.irqDisable - 1
  postpone : s'.postpone = u.postpone - 1

/-- The locked section of a kill whose target is DEAD already, up to its `unlock_stuff`. -/
theorem killLocked_dead (hprot : ¬ (s.t0 = some task ∨ s.terminatorTask = some task ∨ s.shellTask = some task))
    (hcur : s.currentTask ≠ some task) (hd : s.state task = .dead) :
    ∃ u, killLocked task k s = u ∧ u.stuck = s.stuck ∧ u.postponedFlag = s.postponedFlag ∧
      u.control = .unlockStuff :: .ret (-1) :: k ∧ Released u s := by
  have hu : killLocked task k s = { lockStuff s with control := .unlockStuff :: .ret (-1) :: k } := by
    rw [killLocked, if_neg hprot, if_neg hcur]
    exact if_pos hd
  refine ⟨_, hu, rfl, rfl, rfl, rfl, rfl, rfl, rfl, ?_, ?_⟩
  · show _ = s.irqDisable + 1 - 1
    omega
  · show _ = s.postpone + 1 - 1
    omega

/-- The locked section of a kill that goes through, up to its `unlock_stuff`. -/
theorem killLocked_alive (h : Placed s L) (htask : task ∈ s.tcbs)
    (hprot : ¬ (s.t0 = some task ∨ s.terminatorTask = some task ∨ s.shellTask = some task))
    (hcur : s.currentTask ≠ some task) (hd : s.state task ≠ .dead) (hi : s.irqDisable = 0) :
    ∃ u L', killLocked task k s = u ∧ u.stuck = false ∧ u.postponedFlag = s.postponedFlag ∧
      u.control = .unlockStuff :: .ret 0 :: k ∧ u.currentTask = s.currentTask ∧ Killed s L task u L' := by
  have hu : killLocked task k s = { wakeReaper (condemn task s) with control := .unlockStuff :: .ret 0 :: k } := by
    rw [killLocked, if_neg hprot, if_neg hcur]
    exact if_neg hd
  have hlocked : (condemn task s).core.Locked := by
    rw [core_condemn]
    refine ⟨rfl, ?_⟩
    show s.irqDisable + 1 ≠ 0
    omega
  have hcore := (core_wakeReaper hlocked).trans (core_condemn task s)
  have hr : s.terminatorTask ≠ some task := fun hr => hprot (.inr (.inl hr))
  have hkilled : Killed s L task (wakeReaper (condemn task s)) _ := killed_of_change h htask hd hr rfl rfl
  have hstuck := (change_kill h htask hd).placed.notStuck
  have hflag : (wakeReaper (condemn task s)).postponedFlag = s.postponedFlag := congrArg Core.postponedFlag hcore
  have hct : (wakeReaper (condemn task s)).currentTask = s.currentTask := congrArg Core.currentTask hcore
  generalize wakeReaper (condemn task s) = w at hu hkilled hstuck hflag hct
  exact ⟨_, _, hu, hstuck, hflag, rfl, hct, hkilled.congr rfl rfl rfl rfl⟩

/-- A kill of another task that is not protected goes through the locked section, and then returns. -/
theorem killLocked_returns {u : Kernel} {value : Int} (hs : s.stuck = false) (hc : s.control = .body :: k)
    (hl : pidTableLookup s.pids pid = some task)
    (hu : killLocked task (.body :: k) (lookedUp pid task (.body :: k) s) = u) (hstuck : u.stuck = false)
    (hflag : u.postponedFlag = false) (huc : u.control = .unlockStuff :: .ret value :: .body :: k) :
    ∃ s', (.call (.killTaskByPid pid) :: goOn 4).foldlM step s = some s' ∧ s'.control = .body :: k ∧ s'.rax = value ∧
      Released u s' := by
  refine ⟨{ unlockStuffTail { u with postpone := u.postpone - 1 } with control := .body :: k, rax := value }, ?_, rfl, rfl,
    rfl, rfl, rfl, rfl, rfl, rfl⟩
  show (step s _).bind (fun x => (step x (.exec fun _ => true)).bind fun y => (goOn 3).foldlM step y) = _
  rw [call_killTaskByPid hs hc, killTaskByPid_found hl, Option.bind_some, exec_lookedUp hs, hu, Option.bind_some]
  exact unlockStuff_returns hstuck hflag huc

end Return

/-! ## The result -/

/-- What the state `s'` in which the call returns has to do with the state `s` of the call. -/
structure KillOutcome (s : Kernel) (L : Place → List Tid) (pid : Nat) (s' : Kernel) : Prop where
  returns : s'.rax = 0 ∨ s'.rax = -1
  zero_iff : s'.rax = 0 ↔ ∃ task, Killable s pid task
  killed : ∀ task, Killable s pid task → ∃ L', Killed s L task s' L'
  refused : s'.rax = -1 → Untouched s s'

section Outcome

variable {s s' : Kernel} {L : Place → List Tid} {task : Tid} {k : List Frame} {pid : Nat}

theorem KillOutcome.of_refused (hr : s'.rax = -1) (hs : Untouched s s') (hno : ∀ task, ¬ Killable s pid task) :
    KillOutcome s L pid s' := by
  refine ⟨.inr hr, ?_, fun task ht => absurd ht (hno task), fun _ => hs⟩
  rw [hr]
  exact iff_of_false (by decide) fun ⟨task, ht⟩ => hno task ht

theorem KillOutcome.of_killed {L' : Place → List Tid} (hr : s'.rax = 0) (hk : Killable s pid task)
    (h : Killed s L task s' L') : KillOutcome s L pid s' := by
  refine ⟨.inl hr, iff_of_true hr ⟨task, hk⟩, fun u hu => ?_, fun hm => absurd (hr.symm.trans hm) (by decide)⟩
  cases Option.some.inj (hu.registered.symm.trans hk.registered)
  exact ⟨L', h⟩

/-- No switch is waiting to be made up for while a task runs its own code. -/
theorem Inv.flag_of_body (h : Inv s L) (hc : s.control = .body :: k) : s.postponedFlag = false := by
  obtain ⟨hb, hi, -⟩ := h.balanced.pop_outside hc rfl
  exact (h.balanced.flag_of_base (hi.trans hb.symm)).2

/-- The target is already DEAD: the locked section is left at once. -/
theorem kill_dead (h : Inv s L) (hc : s.control = .body :: k) (hl : pidTableLookup s.pids pid = some task)
    (hprot : ¬ (s.t0 = some task ∨ s.terminatorTask = some task ∨ s.shellTask = some task))
    (hcur : s.currentTask ≠ some task) (hd : s.state task = .dead) :
    ∃ s', (.call (.killTaskByPid pid) :: goOn 4).foldlM step s = some s' ∧ s'.control = .body :: k ∧
      s'.currentTask = s.currentTask ∧ s'.rax = -1 ∧ Untouched s s' := by
  have hsame := untouched_lookedUp pid task (.body :: k) s
  generalize hs₁ : lookedUp pid task (.body :: k) s = s₁ at hsame
  have hprot₁ : ¬ (s₁.t0 = some task ∨ s₁.terminatorTask = some task ∨ s₁.shellTask = some task) := hs₁ ▸ hprot
  have hct₁ : s₁.currentTask = s.currentTask := by rw [← hs₁]; rfl
  have hstuck₁ : s₁.stuck = false := by rw [← hs₁]; exact h.placed.notStuck
  have hflag₁ : s₁.postponedFlag = false := by rw [← hs₁]; exact h.flag_of_body hc
  obtain ⟨u, hu, hstuck, hflag, huc, hrel⟩ := killLocked_dead (k := .body :: k) hprot₁ (by rw [hct₁]; exact hcur)
    (by rw [hsame.state]; exact hd)
  obtain ⟨s', hrun, hctl, hrax, hrel'⟩ := killLocked_returns h.placed.notStuck hc hl (hs₁.symm ▸ hu) (hstuck.trans hstuck₁)
    (hflag.trans hflag₁) huc
  exact ⟨s', hrun, hctl, hrel'.currentTask.trans (hrel.currentTask.symm.trans hct₁), hrax,
    hrel'.links.trans (hrel.links.symm.trans hsame.links), hrel'.state.trans (hrel.state.symm.trans hsame.state),
    hrel'.pids.trans (hrel.pids.symm.trans hsame.pids), hrel'.irqDisable.trans (hrel.irqDisable.symm.trans hsame.irqDisable),
    hrel'.postpone.trans (hrel.postpone.symm.trans hsame.postpone)⟩

/-- The target is alive: it is taken off its queue, marked, and the reaper is woken. -/
theorem kill_alive (h : Inv s L) (hc : s.control = .body :: k) (hk : Killable s pid task)
    (hcur : s.currentTask ≠ some task) :
    ∃ s' L', (.call (.killTaskByPid pid) :: goOn 4).foldlM step s = some s' ∧ s'.control = .body :: k ∧
      s'.currentTask = s.currentTask ∧ s'.rax = 0 ∧ Killed s L task s' L' := by
  obtain ⟨h1, h2, h3⟩ := hk.unprotected
  have hprot : ¬ (s.t0 = some task ∨ s.terminatorTask = some task ∨ s.shellTask = some task) := by simp [h1, h2, h3]
  obtain ⟨t, hact⟩ := h.acting hc rfl
  generalize hs₁ : lookedUp pid task (.body :: k) s = s₁
  have hpl : Placed s₁ L := hs₁ ▸ h.placed.congr rfl rfl rfl rfl rfl rfl
  have hlive : task ∈ s₁.tcbs := hs₁ ▸ (h.known pid task hk.registered).1
  have hprot₁ : ¬ (s₁.t0 = some task ∨ s₁.terminatorTask = some task ∨ s₁.shellTask = some task) := hs₁ ▸ hprot
  have hst₁ : s₁.state = s.state := by rw [← hs₁]; rfl
  have hr₁ : s₁.terminatorTask = s.terminatorTask := by rw [← hs₁]; rfl
  have hflag₁ : s₁.postponedFlag = false := by rw [← hs₁]; exact h.flag_of_body hc
  have hct₁ : s₁.currentTask = s.currentTask := by rw [← hs₁]; rfl
  have hi₁ : s₁.irqDisable = 0 := by rw [← hs₁, (untouched_lookedUp pid task (.body :: k) s).irqDisable, hact.unlocked]
  obtain ⟨u, L', hu, hstuck, hflag, huc, hct, hkilled⟩ := killLocked_alive (k := .body :: k) hpl hlive hprot₁
    (by rw [hct₁]; exact hcur) (by rw [hst₁]; exact hk.alive) hi₁
  obtain ⟨s', hrun, hctl, hrax, hrel⟩ := killLocked_returns h.placed.notStuck hc hk.registered (hs₁.symm ▸ hu) hstuck
    (hflag.trans hflag₁) huc
  exact ⟨s', L', hrun, hctl, hrel.currentTask.trans (hct.trans hct₁), hrax, hkilled.congr hst₁ hr₁ hrel.state hrel.links⟩

end Outcome

theorem kill_task_by_pid_correct {s : Kernel} {L : Place → List Tid} {k : List Frame} (pid : Nat) (h : Inv s L)
    (hc : s.control = .body :: k) (hother : ∀ t, s.currentTask = some t → pidTableLookup s.pids pid ≠ some t) :
    ∃ n s', (.call (.killTaskByPid pid) :: goOn n).foldlM step s = some s' ∧ s'.control = .body :: k ∧
      s'.currentTask = s.currentTask ∧ KillOutcome s L pid s' := by
  have hstuck := h.placed.notStuck
  cases hl : pidTableLookup s.pids pid with
  | none =>
    refine ⟨0, { unlockSchedule (lockSchedule s) with control := .body :: k, rax := -1 }, ?_, rfl, rfl, .of_refused rfl ?_ ?_⟩
    · show (step s _).bind some = _
      rw [call_killTaskByPid hstuck hc]
      have hl' : pidTableLookup (unlockSchedule (lockSchedule s)).pids pid = none := hl
      simp only [killTaskByPid, hl', Option.bind_some]
    · exact ⟨rfl, rfl, rfl, by simp [unlockSchedule, lockSchedule], rfl⟩
    · intro task ht
      exact absurd (hl.symm.trans ht.registered) (by simp)
  | some task =>
    have honly : ∀ u, Killable s pid u → u = task := fun u hu => Option.some.inj (hu.registered.symm.trans hl)
    have hcur : s.currentTask ≠ some task := fun hcur => hother task hcur hl
    by_cases hprot : s.t0 = some task ∨ s.terminatorTask = some task ∨ s.shellTask = some task
    · have hsame := untouched_lookedUp pid task (.body :: k) s
      refine ⟨1, { lookedUp pid task (.body :: k) s with control := .body :: k, rax := -1 }, ?_, rfl, rfl, .of_refused rfl
        ⟨hsame.links, hsame.state, hsame.pids, hsame.irqDisable, hsame.postpone⟩ fun u hu => ?_⟩
      · show (step s _).bind (fun x => (step x (.exec fun _ => true)).bind some) = _
        rw [call_killTaskByPid hstuck hc, killTaskByPid_found hl, Option.bind_some, exec_lookedUp hstuck, Option.bind_some]
        exact congrArg some (if_pos hprot)
      · cases honly u hu
        obtain ⟨h1, h2, h3⟩ := hu.unprotected
        simp [h1, h2, h3] at hprot
    · by_cases hd : s.state task = .dead
      · obtain ⟨s', hrun, hctl, hct, hrax, hsame⟩ := kill_dead h hc hl hprot hcur hd
        exact ⟨4, s', hrun, hctl, hct, .of_refused hrax hsame fun u hu => hu.alive (honly u hu ▸ hd)⟩
      · have hk : Killable s pid task := ⟨hl, by simp at hprot; tauto, hd⟩
        obtain ⟨s', L', hrun, hctl, hct, hrax, hkilled⟩ := kill_alive h hc hk hcur
        exact ⟨4, s', hrun, hctl, hct, .of_killed hrax hk hkilled⟩

theorem new_task_killed : ∃ s L n s', Inv s L ∧ (.call (.killTaskByPid 3) :: goOn n).foldlM step s = some s' ∧
    s'.rax = 0 ∧ s'.state 3 = .dead ∧ s'.terminated = some 3 ∧ s'.currentTask = some 1 := by
  obtain ⟨s, hr, hc, hcur, hl, hd, hprot⟩ := Reach.exists_of_checked step (bootState .sample) oneTaskRun wholeAndSmall_spec
    (fun s => s.control = [.body] ∧ s.currentTask = some 1 ∧ pidTableLookup s.pids 3 = some 3 ∧ s.state 3 ≠ .dead ∧
      s.t0 ≠ some 3 ∧ s.shellTask ≠ some 3 ∧ s.terminatorTask ≠ some 3) (by decide +kernel)
  have hr := (safe_of_wholeOps (.inl rfl) hr).mono fun _ _ h => h.1
  obtain ⟨L, hi⟩ := inv_of_reach (.inl rfl) hr
  obtain ⟨n, s', hrun', -, hcur', hout⟩ := kill_task_by_pid_correct 3 hi hc (by rw [hcur, hl]; simp)
  have hk : Killable s 3 3 := ⟨hl, hprot, hd⟩
  obtain ⟨L', hkilled⟩ := hout.killed 3 hk
  exact ⟨s, L, n, s', hi, hrun', hout.zero_iff.2 ⟨3, hk⟩, hkilled.dead, hkilled.head, hcur'.trans hcur⟩

end ToastOS.Task
