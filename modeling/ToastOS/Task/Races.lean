import ToastOS.Task.Scheduler

/-!
# Kills, exits, reaping and creation under preemption

Every section that runs with interrupts off is one step, and between two sections the timer may strike. What keeps
`kill_task_by_pid` and `task_create_internal` right is `Safe`; where a step is not safe, the two races
`kill_of_reaped_task` and `dead_task_queued` happen.

* `Registered` : in a safe run every task that is not just being created stays in the pid table under its pid, and so
  does the target of every kill under way;
* `kill_acts_on_registered_task`, `created_task_not_dead` : what follows for the two functions.
-/

namespace ToastOS.Task

open ToastOS.Lib (Reach Any checked)

/-- The table of pids stays within the range of its 64-bit sizes. -/
def SmallPids (s : Kernel) (act : Act) : Prop :=
  ∀ ok t k, act = .exec ok → s.control = .createInsert t :: k → s.pid t < 2 ^ 59

structure Registered (s : Kernel) (L : Place → List Tid) : Prop where
  full : s.pids.table.Full
  cap : 16 * s.pids.table.cap < 2 ^ 64
  held : ∀ u p t, Pends s u (.killLocked p t) → pidTableLookup s.pids p = some t
  queued : ∀ u t, Pends s u (.createPush t) → pidTableLookup s.pids (s.pid t) = some t
  entry : ∀ t ∈ s.tcbs, ¬ Fresh s L t → pidTableLookup s.pids (s.pid t) = some t

section Registered

variable {s s' : Kernel} {L L' : Place → List Tid} {act : Act} {k : List Frame} {t : Tid} {p : Nat}

theorem table_pidAlloc (r : PidReg) : (pidAlloc r).2.table = r.table := by
  unfold pidAlloc
  split <;> rfl

theorem table_pidRelease (r : PidReg) (p : Nat) (ok : Bool) : (pidRelease r p ok).table = r.table := by
  cases ok <;> rfl

theorem table_reapPids {pid : Tid → Nat} : ∀ (l : List (Tid × Bool)) (r : PidReg), r.table.Full →
    16 * r.table.cap < 2 ^ 64 → (reapPids pid l r).table.Full ∧ 16 * (reapPids pid l r).table.cap < 2 ^ 64 := by
  intro l
  induction l with
  | nil => exact fun r hf hc => ⟨hf, hc⟩
  | cons x l ih =>
    intro r hf hc
    have hclear : (taskTableClear r.table (pid x.1)).2.Full ∧
        (taskTableClear r.table (pid x.1)).2.cap = r.table.cap := by
      unfold taskTableClear
      split
      · exact ⟨(List.length_set ..).trans hf, rfl⟩
      · exact ⟨hf, rfl⟩
    refine ih (pidRelease (pidTableRemove r (pid x.1)) (pid x.1) x.2) ?_ ?_
    · rw [table_pidRelease]; exact hclear.1
    · rw [table_pidRelease]
      show 16 * (taskTableClear r.table (pid x.1)).2.cap < _
      rw [hclear.2]; exact hc

theorem lookup_reapPids {pid : Tid → Nat} : ∀ (l : List (Tid × Bool)) (r : PidReg), (∀ x ∈ l, pid x.1 ≠ p) →
    pidTableLookup (reapPids pid l r) p = pidTableLookup r p := by
  intro l
  induction l with
  | nil => exact fun r _ => rfl
  | cons x l ih =>
    intro r hl
    have hx : pid x.1 ≠ p := hl x List.mem_cons_self
    refine (ih _ fun y hy => hl y (List.mem_cons_of_mem x hy)).trans ?_
    rw [lookup_pidRelease, lookup_pidTableRemove, if_neg hx.symm]

theorem not_fresh_of_dead (hd : s.state t = .dead) : ¬ Fresh s L t := fun hf =>
  absurd (hd.symm.trans hf.ready) (by decide)

/-- What is registered stays registered as long as it is allocated. -/
theorem Registered.lookup_step (hr : Registered s L) (h : Inv s L) (hreg : RegStep s act s') (hsmall : SmallPids s act)
    (hl : pidTableLookup s.pids p = some t) (ht : t ∈ s'.tcbs) :
    pidTableLookup s'.pids p = some t ∧ s'.pid t = s.pid t := by
  cases hreg with
  | same htcbs hpids hpid => exact ⟨hpids ▸ hl, by rw [hpid]⟩
  | create a _ hfree htcbs hpids hpid _ =>
    refine ⟨?_, ?_⟩
    · rw [hpids, pidTableLookup, table_pidAlloc]; exact hl
    · rw [hpid]
      apply Function.update_of_ne
      rintro rfl
      exact hfree (h.known p t hl).1
  | insert t' ok hhead htcbs hpids hpid _ =>
    obtain ⟨⟨o, rfl⟩, k, hc⟩ := hhead
    refine ⟨?_, by rw [hpid]⟩
    obtain ⟨-, -, ⟨-, hnone, hget⟩ | ⟨-, -, hget⟩⟩ :=
      set_spec (x := t') ok hr.full hr.cap (hsmall o t' k rfl hc)
    · rw [hpids]
      refine (hget p).trans ?_
      rw [if_neg]
      · exact hl
      · rintro rfl
        exact absurd (hl.symm.trans hnone) (Option.some_ne_none t)
    · rw [hpids]
      exact (hget p).trans hl
  | release t' ok hhead htcbs hpids hpid =>
    refine ⟨?_, by rw [hpid]⟩
    rw [hpids, lookup_pidRelease]; exact hl
  | reap l hnodup hdead hhead htcbs hpids hpid =>
    refine ⟨?_, by rw [hpid]⟩
    rw [hpids, lookup_reapPids]
    · exact hl
    · intro x hx hxp
      -- the dead task `x` has this entry itself
      obtain ⟨hxl, hxd⟩ := hdead x hx
      have hentry := hr.entry x.1 hxl (not_fresh_of_dead hxd)
      rw [hxp, hl] at hentry
      exact ((htcbs t).1 ht).2 (Option.some.inj hentry ▸ List.mem_map_of_mem hx)

theorem Registered.table_step (hr : Registered s L) (hreg : RegStep s act s') (hsmall : SmallPids s act) :
    s'.pids.table.Full ∧ 16 * s'.pids.table.cap < 2 ^ 64 := by
  cases hreg with
  | same htcbs hpids hpid => rw [hpids]; exact ⟨hr.full, hr.cap⟩
  | create a _ hfree htcbs hpids hpid _ => rw [hpids, table_pidAlloc]; exact ⟨hr.full, hr.cap⟩
  | insert t' ok hhead htcbs hpids hpid _ =>
    obtain ⟨⟨o, rfl⟩, k, hc⟩ := hhead
    obtain ⟨hf, hcap, -⟩ := set_spec (x := t') ok hr.full hr.cap (hsmall o t' k rfl hc)
    rw [hpids]; exact ⟨hf, hcap⟩
  | release t' ok hhead htcbs hpids hpid => rw [hpids, table_pidRelease]; exact ⟨hr.full, hr.cap⟩
  | reap l hnodup hdead hhead htcbs hpids hpid => rw [hpids]; exact table_reapPids l s.pids hr.full hr.cap

theorem leaves_killLocked (h : Leaves s act (.killLocked p t)) : pidTableLookup s.pids p = some t := by
  cases act with
  | call op =>
    cases op with
    | killTaskByPid pid =>
      obtain ⟨u, hu, he⟩ := Option.map_eq_some_iff.1 (show (pidTableLookup s.pids pid).map _ = some _ from h)
      cases he
      exact hu
    | createKernelTask addr stackOk => cases addr <;> cases stackOk <;> cases h
    | createUserTask pml addr stackOk => cases pml <;> cases addr <;> cases stackOk <;> cases h
    | _ => cases h
  | exec ok =>
    obtain ⟨t', k, -, he⟩ := h
    split at he <;> cases he
  | _ => cases h

theorem registered_step (hr : Registered s L) (h : Inv s L) (hn : Next s L act s' L') (hs : step s act = some s')
    (hsmall : SmallPids s act) : Registered s' L' := by
  obtain ⟨hfull, hcap⟩ := hr.table_step hn.registry hsmall
  have hkeep : ∀ {p t}, pidTableLookup s.pids p = some t → t ∈ s'.tcbs →
      pidTableLookup s'.pids p = some t ∧ s'.pid t = s.pid t := fun hl ht => hr.lookup_step h hn.registry hsmall hl ht
  have hself : ∀ {t}, pidTableLookup s.pids (s.pid t) = some t → t ∈ s'.tcbs →
      pidTableLookup s'.pids (s'.pid t) = some t := by
    intro t hl ht
    obtain ⟨h1, h2⟩ := hkeep hl ht
    rw [h2]; exact h1
  refine ⟨hfull, hcap, ?_, ?_, ?_⟩
  · intro u p t hu
    have ht := hn.inv.pending.kill u p t hu
    rcases hn.pends u _ hu with ⟨hold, -⟩ | ⟨-, -, hl⟩
    · exact (hkeep (hr.held u p t hold) ht).1
    · exact (hkeep (leaves_killLocked hl) ht).1
  · intro u t hu
    have ht := (hn.inv.pending.create u _ t hu rfl).live
    rcases hn.pends u _ hu with ⟨hold, -⟩ | ⟨-, -, hl⟩
    · exact hself (hr.queued u t hold) ht
    · -- it was registered in this step
      cases act with
      | exec ok =>
        obtain ⟨t', k, hc, he⟩ := hl
        split at he
        · rename_i h0
          cases he
          have hs' : s' = createInsert t (ok 0) k s := by
            obtain ⟨ok', f, k', he, hc', hx⟩ | ⟨_, _, he, -⟩ | ⟨_, he, -⟩ | ⟨_, _, _, he, -⟩ | ⟨_, he, -⟩ | ⟨he, -⟩ :=
              step_cases hs
            · cases he
              rw [hc] at hc'
              cases hc'
              exact (Option.some.inj hx).symm
            all_goals cases he
          obtain ⟨-, -, ⟨-, -, hget⟩ | ⟨h1, -, -⟩⟩ :=
            set_spec (x := t) (ok 0) hr.full hr.cap (hsmall ok t k rfl hc)
          · rw [hs']
            exact (hget (s.pid t)).trans (if_pos rfl)
          · exact absurd (h0.symm.trans h1) (by decide)
        · cases he
      | call op =>
        cases op with
        | killTaskByPid pid =>
          obtain ⟨_, -, he⟩ := Option.map_eq_some_iff.1 (show (pidTableLookup s.pids pid).map _ = some _ from hl)
          cases he
        | createKernelTask addr stackOk => cases addr <;> cases stackOk <;> cases hl
        | createUserTask pml addr stackOk => cases pml <;> cases addr <;> cases stackOk <;> cases hl
        | _ => cases hl
      | _ => cases hl
  · intro t ht hnf
    by_cases hold : t ∈ s.tcbs
    · by_cases hf : Fresh s L t
      · rcases hn.ready t hf ht with hf' | ⟨g, k, hc, rfl | ⟨p, rfl⟩⟩
        · exact absurd hf' hnf
        · exact hself (hr.queued _ t (h.pends_head hc rfl)) ht
        · have hl := hr.held _ p t (h.pends_head hc rfl)
          refine hself ?_ ht
          rw [(h.known p t hl).2]; exact hl
      · exact hself (hr.entry t hold hf) ht
    · -- it was allocated in this step and is fresh
      cases hn.registry with
      | create a _ _ htcbs _ _ hnext =>
        obtain ⟨k, hc⟩ := hnext
        have hta : t = a := (List.mem_cons.1 (htcbs ▸ ht)).resolve_right hold
        rw [hta] at hnf
        exact absurd (hn.inv.pending.create _ _ a (hn.inv.pends_head hc rfl) rfl) hnf
      | same htcbs => exact absurd (htcbs ▸ ht) hold
      | insert _ _ _ htcbs => exact absurd (htcbs ▸ ht) hold
      | release _ _ _ htcbs => exact absurd (List.mem_of_mem_erase (htcbs ▸ ht)) hold
      | reap _ _ _ _ htcbs => exact absurd ((htcbs t).1 ht).1 hold

theorem registered_start {b : Boot} (h : Starts b s) : Registered s (bootLists b) := by
  have hnone := not_pends_start h
  obtain ⟨f, -, rfl⟩ := h.eq
  have h1 := b.boot_ne_shell
  have h2 := b.boot_ne_reaper
  have h3 := b.shell_ne_reaper
  refine ⟨?_, (by decide : 16 * 64 < 2 ^ 64), fun u p t hu => absurd hu (hnone u _), fun u t hu => absurd hu (hnone u _), ?_⟩
  · show (some b.boot :: some b.shell :: some b.reaper :: List.replicate 61 none).length = 64
    simp
  · intro t ht _
    refine (lookup_bootState b _).trans ?_
    have ht : t ∈ [b.reaper, b.shell, b.boot] := ht
    have hpid : (bootState b).pid t = if t = b.shell then 1 else if t = b.reaper then 2 else 0 := rfl
    simp only [List.mem_cons, List.not_mem_nil, or_false] at ht
    show (if (bootState b).pid t = 0 then _ else _) = _
    rw [hpid]
    rcases ht with rfl | rfl | rfl
    · rw [if_neg h3.symm, if_pos rfl]; rfl
    · rw [if_pos rfl]; rfl
    · rw [if_neg h1, if_neg h2]; rfl

end Registered

/-! ## Kills -/

/-- The steps of a run in which kills are safe. -/
def KillSafe (s : Kernel) (act : Act) : Prop := Safe s act ∧ SmallPids s act

theorem registered_of_reach {b : Boot} {s₀ s : Kernel} (h₀ : Starts b s₀) (h : Reach step KillSafe s₀ s) :
    ∃ L, Inv s L ∧ Registered s L :=
  h.invariant (P := fun s => ∃ L, Inv s L ∧ Registered s L) ⟨_, inv_start h₀, registered_start h₀⟩
    fun s act s' ⟨L, hi, hr⟩ hok hs => by
      obtain ⟨L', hn⟩ := inv_step hi hs hok.1
      exact ⟨L', hn.inv, registered_step hr hi hn hs hok.2⟩

/-- **Kills act on registered tasks.** In every run in which no reaper pass meets a kill of a DEAD task between its
lookup and its lock, and no kill meets a task that is registered and not queued yet: where `kill_task_by_pid` is about
to lock, its target is allocated and is what the pid table has under that pid. -/
theorem kill_acts_on_registered_task (b : Boot) {s₀ s : Kernel} {p : Nat} {t : Tid} {k : List Frame}
    (h₀ : Starts b s₀) (h : Reach step KillSafe s₀ s) (hc : s.control = .killLocked p t :: k) :
    pidTableLookup s.pids p = some t ∧ t ∈ s.tcbs := by
  obtain ⟨L, hi, hr⟩ := registered_of_reach h₀ h
  have hpend : Pends s s.onStack (.killLocked p t) := hi.pends_head hc rfl
  exact ⟨hr.held _ p t hpend, hi.pending.kill _ p t hpend⟩

/-- A test for runs of whole operations with small pids. -/
def wholeAndSmall (s : Kernel) (act : Act) : Bool :=
  isWhole s act &&
  match s.control with
    | .createInsert t :: _ => decide (s.pid t < 2 ^ 59)
    | _ => true

theorem wholeAndSmall_spec (s : Kernel) (act : Act) (h : wholeAndSmall s act = true) :
    WholeOps s act ∧ SmallPids s act := by
  obtain ⟨h1, h2⟩ := Bool.and_eq_true_iff.1 h
  refine ⟨isWhole_spec s act h1, ?_⟩
  rintro ok t k rfl hc
  rw [hc] at h2
  exact of_decide_eq_true h2

theorem safe_of_wholeOps {b : Boot} {s₀ s : Kernel} (h₀ : Starts b s₀)
    (h : Reach step (fun s act => WholeOps s act ∧ SmallPids s act) s₀ s) : Reach step KillSafe s₀ s :=
  (h.strengthen (P := fun s => ∃ L, Inv s L ∧ OnTop s.core) ⟨_, inv_start h₀, onTop_start h₀⟩
    (fun s act s' ⟨L, hi, ht⟩ hok hs => by
      obtain ⟨L', hn⟩ := inv_step hi hs ht.safe
      exact ⟨L', hn.inv, onTop_step hi.balanced hi.clean ht hok.1 hs⟩)
    (fun s act ⟨_, _, ht⟩ hok => ⟨ht.safe, hok.2⟩)).1

/-- The shell creates a task and kills it. -/
def killRun : List Act := oneTaskRun ++ [.call (.killTaskByPid 3)]

theorem kill_of_new_task_registered : ∃ s, Reach step KillSafe (bootState .sample) s ∧
    s.control = [.killLocked 3 3, .body] ∧ pidTableLookup s.pids 3 = some 3 ∧ 3 ∈ s.tcbs := by
  obtain ⟨s, hr, hc⟩ := Reach.exists_of_checked step (bootState .sample) killRun wholeAndSmall_spec
    (fun s => s.control = [.killLocked 3 3, .body]) (by decide +kernel)
  have hr := safe_of_wholeOps (.inl rfl) hr
  exact ⟨s, hr, hc, kill_acts_on_registered_task .sample (.inl rfl) hr hc⟩

/-- A timer interrupt that does not switch. -/
def tick : List Act := .timerIrq :: goOn 7

/-- The shell creates a task, which exits; the shell looks it up to kill it and is preempted when its time slice ends;
the reaper frees the task; the shell goes on. -/
def reapedRun : List Act :=
  oneTaskRun ++ .call .yield :: goOn 11 ++ .call .terminateTask :: goOn 6 ++ .call (.killTaskByPid 3) :: tick ++ tick ++
    tick ++ tick ++ .timerIrq :: goOn 18

/-- The kill reads the state of a TCB that has been freed. -/
theorem kill_of_reaped_task : ∃ s, Reach step Any (bootState .sample) s ∧ s.control = [.killLocked 3 3, .body] ∧
    pidTableLookup s.pids 3 = none ∧ 3 ∉ s.tcbs ∧
    (killLocked 3 [.body] s).control = [.unlockStuff, .ret (-1), .body] := by
  exact Reach.exists_of_run step (bootState .sample) reapedRun (fun _ _ _ => trivial) _ (by decide +kernel)

/-! ## Creation -/

/-- **Only live tasks are queued.** In every run with safe steps the task that `task_create_internal` is about to queue
is allocated, READY and on no list, the list of terminated tasks included. -/
theorem created_task_not_dead (b : Boot) {s₀ s : Kernel} {t : Tid} {k : List Frame} (h₀ : Starts b s₀)
    (h : Reach step Safe s₀ s) (hc : s.control = .createPush t :: k) :
    t ∈ s.tcbs ∧ s.state t = .ready ∧ ∃ L, Lists s L ∧ ∀ p, t ∉ L p := by
  obtain ⟨L, hi⟩ := inv_of_reach h₀ h
  have hf := hi.pending.create _ _ t (hi.pends_head hc rfl) rfl
  exact ⟨hf.live, hf.ready, L, hi.placed.lists, hf.unlisted⟩

def createRun : List Act := goOn 3 ++ [.call (.createKernelTask (some 3) true)] ++ goOn 1

theorem new_task_ready : ∃ s, Reach step Safe (bootState .sample) s ∧ s.control = [.createPush 3, .body] ∧
    3 ∈ s.tcbs ∧ s.state 3 = .ready := by
  obtain ⟨s, hr, hc⟩ := Reach.exists_of_checked step (bootState .sample) createRun wholeAndSmall_spec
    (fun s => s.control = [.createPush 3, .body]) (by decide +kernel)
  have hr := (safe_of_wholeOps (.inl rfl) hr).mono fun _ _ h => h.1
  obtain ⟨h1, h2, -⟩ := created_task_not_dead .sample (.inl rfl) hr hc
  exact ⟨s, hr, hc, h1, h2⟩

/-- The shell creates two tasks and is preempted when the second is registered and not queued yet; the first kills the
second; the shell goes on. -/
def deadRun : List Act :=
  oneTaskRun ++ .call (.createKernelTask (some 4) true) :: goOn 1 ++ tick ++ tick ++ tick ++ tick ++
    .timerIrq :: goOn 17 ++ .call (.killTaskByPid 4) :: goOn 4 ++ .call .yield :: goOn 3

/-- A DEAD task at the head of `terminated_task_list` is put on the ready queue. -/
theorem dead_task_queued : ∃ s, Reach step Any (bootState .sample) s ∧ s.control = [.createPush 4, .body] ∧
    s.state 4 = .dead ∧ s.terminated = some 4 ∧ (createPush 4 [.body] s).ready.last = some 4 := by
  exact Reach.exists_of_run step (bootState .sample) deadRun (fun _ _ _ => trivial) _ (by decide +kernel)

end ToastOS.Task
