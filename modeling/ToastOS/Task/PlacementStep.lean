import ToastOS.Task.Parts
import ToastOS.Task.PlacementOps

/-!
# The placement invariant

`Inv s L` joins what holds in every state of a run in which no kill meets a reaper pass or a half-made task
(`Safe`): balanced locks, at most one part frame on a stack, every task in its place, at most the current task
RUNNING, and, for every task that is alive and in the middle of `kill_task_by_pid` or `task_create_internal`, that
its target is still there (`Pending`).
-/

namespace ToastOS.Task

open ToastOS.Lib (Queue Seg Reach Any)
open Function

variable {s : Kernel} {ok : Nat → Bool} {w : WaitMove} {t : Tid} {new : Option Frame} {c : Core} {entry : Frame}
  {op : Op} {b : Boot}

/-! ## Interrupted calls -/

/-- The task `u` is alive and has the rest `g` of `kill_task_by_pid` or `task_create_internal` to do. -/
structure Pends (s : Kernel) (u : Tid) (g : Frame) : Prop where
  live : u ∈ s.tcbs
  notDead : s.state u ≠ .dead
  part : g.isPart = true
  mem : g ∈ s.core.stackOf u

structure Pending (s : Kernel) (L : Place → List Tid) : Prop where
  kill : ∀ u p t, Pends s u (.killLocked p t) → t ∈ s.tcbs
  create : ∀ u g t, Pends s u g → g.creates = some t → Fresh s L t
  one : ∀ u u' g g' t, Pends s u g → Pends s u' g' → g.creates = some t → g'.creates = some t → u = u'
  unknown : ∀ u g t, Pends s u g → g.createsUnregistered = some t →
    (∀ p, pidTableLookup s.pids p ≠ some t) ∧ ∀ u' p, ¬ Pends s u' (.killLocked p t)

/-- The part frame of `u`, if any, is not the one that this step works on. -/
def Still (s : Kernel) (act : Act) (u : Tid) : Prop := ¬ (u = s.onStack ∧ Acts s act)

theorem leaves_unique {act : Act} {g g' : Frame} (h : Leaves s act g) (h' : Leaves s act g') : g = g' := by
  cases act with
  | call op => exact Option.some.inj (h.symm.trans h')
  | exec ok =>
    obtain ⟨t, k, hc, rfl⟩ := h
    obtain ⟨t', k', hc', rfl⟩ := h'
    rw [hc] at hc'
    cases hc'
    rfl
  | _ => cases h

section Pending

variable {s' : Kernel} {L L' : Place → List Tid} {act : Act} {u : Tid} {g : Frame}

/-- An interrupted call of the next state was one before, or has just been left. -/
theorem PartsStep.pends (hp : PartsStep s act s') (hlive : u ∈ s.tcbs ∧ s.state u ≠ .dead) (h : Pends s' u g) :
    (Pends s u g ∧ Still s act u) ∨ (u = s.onStack ∧ Acts s act ∧ Leaves s act g) := by
  by_cases hu : u = s.onStack
  · by_cases ha : Acts s act
    · exact .inr ⟨hu, ha, hp.acts ha g (hu ▸ h.mem) h.part⟩
    · refine .inl ⟨⟨hlive.1, hlive.2, h.part, ?_⟩, fun hn => ha hn.2⟩
      have := hp.waits ha g (hu ▸ h.mem) h.part
      rw [hu]
      exact (stackOf_onStack s.core).symm ▸ this
  · exact .inl ⟨⟨hlive.1, hlive.2, h.part, hp.others u g hu h.mem h.part⟩, fun hn => hu hn.1⟩

/-- Where the interrupted calls of the next state come from. -/
def PendsStep (s : Kernel) (act : Act) (s' : Kernel) : Prop :=
  ∀ u g, Pends s' u g → (Pends s u g ∧ Still s act u) ∨ (u = s.onStack ∧ Acts s act ∧ Leaves s act g)

/-- What must hold of a call that has just been left. -/
structure NewOk (s s' : Kernel) (L' : Place → List Tid) (g : Frame) : Prop where
  kill : ∀ p t, g = .killLocked p t → t ∈ s'.tcbs ∧ pidTableLookup s.pids p = some t
  create : ∀ t, g.creates = some t → Fresh s' L' t ∧ ∀ u g', Pends s u g' → u ≠ s.onStack → g'.creates ≠ some t
  unknown : ∀ t, g.createsUnregistered = some t →
    (∀ p, pidTableLookup s'.pids p ≠ some t) ∧ ∀ u p, u ≠ s.onStack → ¬ Pends s u (.killLocked p t)

theorem Pending.step (h : Pending s L) (hpends : PendsStep s act s')
    (hkill : ∀ u p t, Pends s u (.killLocked p t) → Still s act u → t ∈ s'.tcbs)
    (hkeep : ∀ u g t, Pends s u g → Still s act u → g.creates = some t → Fresh s' L' t)
    (hlook : ∀ p t, pidTableLookup s'.pids p = some t → pidTableLookup s.pids p = some t ∨
      (Acts s act ∧ ∃ k, s.control = .createInsert t :: k))
    (hnew : ∀ g, Acts s act → Leaves s act g → NewOk s s' L' g)
    (hon : s.onStack ∈ s.tcbs ∧ (Acts s act → s.state s.onStack ≠ .dead)) : Pending s' L' := by
  have hcase : ∀ {u g}, Pends s' u g →
      (Pends s u g ∧ Still s act u) ∨ (u = s.onStack ∧ Acts s act ∧ Leaves s act g) := fun hu => hpends _ _ hu
  refine ⟨?_, ?_, ?_, ?_⟩
  · intro u p t hu
    rcases hcase hu with ⟨hold, hst⟩ | ⟨-, ha, hl⟩
    · exact hkill u p t hold hst
    · exact ((hnew _ ha hl).kill p t rfl).1
  · intro u g t hu hg
    rcases hcase hu with ⟨hold, hst⟩ | ⟨-, ha, hl⟩
    · exact hkeep u g t hold hst hg
    · exact ((hnew _ ha hl).create t hg).1
  · intro u u' g g' t hu hu' hg hg'
    rcases hcase hu with ⟨hold, hst⟩ | ⟨rfl, ha, hl⟩ <;> rcases hcase hu' with ⟨hold', hst'⟩ | ⟨rfl, ha', hl'⟩
    · exact h.one u u' g g' t hold hold' hg hg'
    · by_contra hne
      exact ((hnew _ ha' hl').create t hg').2 u g hold hne hg
    · by_contra hne
      exact ((hnew _ ha hl).create t hg).2 u' g' hold' (fun he => hne he.symm) hg'
    · rfl
  · intro u g t hu hg
    rcases hcase hu with ⟨hold, hst⟩ | ⟨rfl, ha, hl⟩
    · obtain ⟨h1, h2⟩ := h.unknown u g t hold hg
      refine ⟨fun p hlk => ?_, fun u' p hu' => ?_⟩
      · rcases hlook p t hlk with hlk | ⟨ha, k, hc⟩
        · exact h1 p hlk
        · -- `t` is being registered by the running task, so it is not another task that creates it
          have hhead : Pends s s.onStack (.createInsert t) := by
            refine ⟨hon.1, hon.2 ha, rfl, ?_⟩
            rw [show s.core.stackOf s.onStack = s.control from stackOf_onStack s.core, hc]
            exact List.mem_cons_self
          exact hst ⟨h.one u s.onStack g _ t hold hhead (Frame.creates_of_unregistered hg) rfl, ha⟩
      · rcases hcase hu' with ⟨hold', -⟩ | ⟨-, ha', hl'⟩
        · exact h2 u' p hold'
        · exact h1 p ((hnew _ ha' hl').kill p t rfl).2
    · obtain ⟨h1, h2⟩ := (hnew _ ha hl).unknown t hg
      refine ⟨h1, fun u' p hu' => ?_⟩
      rcases hcase hu' with ⟨hold', hst'⟩ | ⟨-, ha', hl'⟩
      · exact h2 u' p (fun he => hst' ⟨he, ha⟩) hold'
      · have := leaves_unique hl hl'
        rw [this] at hg; cases hg

end Pending

/-! ## The invariant -/

structure Inv (s : Kernel) (L : Place → List Tid) : Prop where
  balanced : Balanced s.core
  clean : CleanStacks s.core
  placed : Placed s L
  known : Known s
  running : ∀ u, s.state u = .running → s.currentTask = some u
  current : ∀ u, s.currentTask = some u →
    s.state u = .running ∨ s.postponedFlag = true ∨ ∃ k, s.control = .schedule :: k
  onStack : s.onStack ∈ s.tcbs
  pending : Pending s L

/-- Who is fresh after a step was so before and is not what the running task was creating, or is what it is creating
now. -/
def FreshStep (s : Kernel) (L : Place → List Tid) (act : Act) (s' : Kernel) (L' : Place → List Tid) : Prop :=
  ∀ t, Fresh s' L' t → (Fresh s L t ∧ ∀ g k, s.control = g :: k → Acts s act → g.creates ≠ some t) ∨
    ∃ g k, s'.control = g :: k ∧ g.creates = some t

/-- Who is no longer fresh was freed, queued or killed. -/
def ReadyStep (s : Kernel) (L : Place → List Tid) (s' : Kernel) (L' : Place → List Tid) : Prop :=
  ∀ t, Fresh s L t → t ∈ s'.tcbs → Fresh s' L' t ∨
    ∃ g k, s.control = g :: k ∧ (g = .createPush t ∨ ∃ p, g = .killLocked p t)

def Act.creates : Act → Bool
  | .call (.createKernelTask _ _) | .call (.createUserTask _ _ _) => true
  | _ => false

/-- What a step does to the TCBs and the pid registry. -/
inductive RegStep (s : Kernel) (act : Act) (s' : Kernel) : Prop
  | same (tcbs : s'.tcbs = s.tcbs) (pids : s'.pids = s.pids) (pid : s'.pid = s.pid)
  | create (a : Tid) (act : act.creates = true) (free : a ∉ s.tcbs) (tcbs : s'.tcbs = a :: s.tcbs)
      (pids : s'.pids = (pidAlloc s.pids).2) (pid : s'.pid = update s.pid a (pidAlloc s.pids).1)
      (next : ∃ k, s'.control = .createInsert a :: k)
  | insert (t : Tid) (ok : Bool) (head : (∃ o, act = .exec o) ∧ ∃ k, s.control = .createInsert t :: k)
      (tcbs : s'.tcbs = s.tcbs) (pids : s'.pids = (pidTableInsert s.pids (s.pid t) t ok).2) (pid : s'.pid = s.pid)
      (next : ∃ k, s'.control = (if (pidTableInsert s.pids (s.pid t) t ok).1 = 0 then Frame.createPush t
        else .createRelease t) :: k)
  | release (t : Tid) (ok : Bool) (head : ∃ k, s.control = .createRelease t :: k) (tcbs : s'.tcbs = s.tcbs.erase t)
      (pids : s'.pids = pidRelease s.pids (s.pid t) ok) (pid : s'.pid = s.pid)
  | reap (l : List (Tid × Bool)) (nodup : (l.map Prod.fst).Nodup) (dead : ∀ x ∈ l, x.1 ∈ s.tcbs ∧ s.state x.1 = .dead)
      (head : (∃ ok, act = .exec ok) ∧ ∃ k, s.control = .reapLoop :: k)
      (tcbs : ∀ t, t ∈ s'.tcbs ↔ t ∈ s.tcbs ∧ t ∉ l.map Prod.fst) (pids : s'.pids = reapPids s.pid l s.pids)
      (pid : s'.pid = s.pid)

/-- The argument with which a step calls `nano_sleep_until`. -/
def Act.sleepsUntil (s : Kernel) : Act → Option Nat
  | .call (.nanoSleepUntil w) => some w
  | .call (.nanoSleep n) => some (u64 (getUptimeNs s + n))
  | .call (.sleepSeconds n) => some (u64 (getUptimeNs s + u64 (n * 1000000000)))
  | .syscall 4 arg => some (u64 (getUptimeNs s + u64 (arg * 1000000)))
  | _ => none

/-- What a step does to the wait queues and the sleeping list. -/
def waitMove (s : Kernel) (act : Act) : WaitMove :=
  match act with
  | .call (.acquireSemaphore q) =>
    .on (.waiting q) fun l => if s.currentCount q < s.maxCount q then l else l ++ s.currentTask.toList
  | .call (.releaseSemaphore q) => .on (.waiting q) List.tail
  | .exec _ =>
    match s.control with
    | .killLocked _ task :: _ => killMove s task
    | .timerCheckSleepingTasks :: _ => wakeMove s
    | _ => .stay
  | _ =>
    match act.sleepsUntil s, s.currentTask with
    | some w, some t => sleepMove s t w
    | _, _ => .stay

theorem waitMove_exec {f : Frame} {k : List Frame} (hc : s.control = f :: k)
    (hf : ∀ p t, f ≠ .killLocked p t) (hf' : f ≠ .timerCheckSleepingTasks) : waitMove s (.exec ok) = .stay := by
  show (match s.control with
    | .killLocked _ task :: _ => killMove s task
    | .timerCheckSleepingTasks :: _ => wakeMove s
    | _ => WaitMove.stay) = _
  split
  · rename_i hk
    rw [hc] at hk
    cases hk
    exact absurd rfl (hf _ _)
  · rename_i hk
    rw [hc] at hk
    cases hk
    exact absurd rfl hf'
  · rfl

theorem waitMove_sleep {act : Act} {w : Nat} (h : act.sleepsUntil s = some w)
    (hc : s.currentTask = some t) : waitMove s act = sleepMove s t w := by
  cases act with
  | call op => cases op <;> cases h <;> simp only [waitMove, Act.sleepsUntil, hc]
  | syscall num arg => simp only [waitMove, h, hc]
  | _ => cases h

theorem waitMove_syscall {num arg : Nat} (h : num ≠ 4) : waitMove s (.syscall num arg) = .stay := by
  have hn : (Act.syscall num arg).sleepsUntil s = none := by
    unfold Act.sleepsUntil
    split
    all_goals simp_all
  simp only [waitMove, hn]

theorem waitMove_cases (s : Kernel) (act : Act) :
    (∃ q, act = .call (.acquireSemaphore q) ∨ act = .call (.releaseSemaphore q)) ∨
    (∃ ok p task k, act = .exec ok ∧ s.control = .killLocked p task :: k ∧ waitMove s act = killMove s task) ∨
    (∃ ok k, act = .exec ok ∧ s.control = .timerCheckSleepingTasks :: k ∧ waitMove s act = wakeMove s) ∨
    (∃ w t, act.sleepsUntil s = some w ∧ s.currentTask = some t ∧ waitMove s act = sleepMove s t w) ∨
    waitMove s act = .stay := by
  generalize hm : waitMove s act = m
  unfold waitMove at hm
  split at hm
  · rename_i q
    exact .inl ⟨q, .inl rfl⟩
  · rename_i q
    exact .inl ⟨q, .inr rfl⟩
  · rename_i ok
    split at hm
    · rename_i p task k hc
      exact .inr (.inl ⟨ok, p, task, k, rfl, hc, hm.symm⟩)
    · rename_i k hc
      exact .inr (.inr (.inl ⟨ok, k, rfl, hc, hm.symm⟩))
    · exact .inr (.inr (.inr (.inr hm.symm)))
  · split at hm
    · rename_i w t hw ht
      exact .inr (.inr (.inr (.inl ⟨w, t, hw, ht, hm.symm⟩)))
    · exact .inr (.inr (.inr (.inr hm.symm)))

/-- What a step leads to. -/
structure Next (s : Kernel) (L : Place → List Tid) (act : Act) (s' : Kernel) (L' : Place → List Tid) : Prop where
  inv : Inv s' L'
  fresh : FreshStep s L act s' L'
  ready : ReadyStep s L s' L'
  registry : RegStep s act s'
  pends : PendsStep s act s'
  waiting : ∀ i, i ≠ .ready → L' (.queue i) = waitMove s act i (L (.queue i))

section Inv

variable {s' : Kernel} {L L' : Place → List Tid} {act : Act} {f : Frame} {k : List Frame}

theorem Inv.running_of_base (h : Inv s L) (hi : s.irqDisable = s.core.base) (ht : s.currentTask = some t) :
    s.state t = .running := by
  rcases h.current t ht with hr | hf | ⟨k, hc⟩
  · exact hr
  · have := (h.balanced.flag_of_base hi).2
    exact absurd (this.symm.trans hf) (by decide)
  · have ho := h.balanced.owes_of hc
    rw [hi] at ho
    rcases ho.of_schedule with ⟨hb, ⟨hp, -⟩ | ⟨h1, -, -⟩⟩
    · have := ho.at_base
      omega
    · omega

/-- The task that runs outside the locks. -/
structure Acting (s : Kernel) (t : Tid) : Prop where
  current : s.currentTask = some t
  onStack : t = s.onStack
  live : t ∈ s.tcbs
  running : s.state t = .running
  only : ∀ u, s.state u = .running → u = t
  unlocked : s.irqDisable = 0

theorem Inv.acting (h : Inv s L) (hc : s.control = f :: k) (hf : f.outside = true) : ∃ t, Acting s t := by
  obtain ⟨hb, hi, -⟩ := h.balanced.pop_outside hc hf
  obtain ⟨t, ht⟩ := Core.current_of_base hb
  have hon : t = s.onStack := h.balanced.current t ht
  exact ⟨t, ht, hon, hon ▸ h.onStack, h.running_of_base (hi.trans hb.symm) ht,
    fun u hu => Option.some.inj ((h.running u hu).symm.trans ht), hi⟩

theorem Inv.onStack_alive (h : Inv s L) (ha : Acts s act) : s.onStack ∈ s.tcbs ∧ s.state s.onStack ≠ .dead := by
  obtain ⟨⟨f, k, hc, hf⟩, -⟩ := ha
  obtain ⟨t, hact⟩ := h.acting hc hf
  rw [← hact.onStack]
  refine ⟨hact.live, ?_⟩
  rw [hact.running]; decide

/-- A step that allocates and frees no task and registers none. -/
theorem Inv.of_change {gone : Option Tid} (h : Inv s L) (hs : step s act = some s')
    (hch : Change gone w s L s' L') (hw : waitMove s act = w)
    (hgone : ∀ u g t, gone = some t → Pends s u g → Still s act u → g.creates ≠ some t)
    (hnew : ∀ g, Acts s act → Leaves s act g → ∃ p t, g = .killLocked p t ∧ pidTableLookup s.pids p = some t)
    (hrun : ∀ u, s'.state u = .running → s'.currentTask = some u)
    (hcur : ∀ u, s'.currentTask = some u →
      s'.state u = .running ∨ s'.postponedFlag = true ∨ ∃ k, s'.control = .schedule :: k)
    (hon : s'.onStack ∈ s.tcbs)
    (hfr : ∀ g k t, s.control = g :: k → Acts s act → g.creates = some t → ¬ Fresh s' L' t)
    (hhead : ∀ t, gone = some t → ∃ g k, s.control = g :: k ∧ (g = .createPush t ∨ ∃ p, g = .killLocked p t)) :
    Next s L act s' L' := by
  have hp := parts_step h.balanced h.clean hs
  have hpends : PendsStep s act s' := fun u g hu =>
    hp.pends ⟨hch.tcbs ▸ hu.live, fun hd => hu.notDead (hch.dead u hd)⟩ hu
  have hready : ReadyStep s L s' L' := by
    intro t ht _
    by_cases hg : gone = some t
    · exact .inr (hhead t hg)
    · exact .inl (hch.kept t ht hg)
  refine ⟨?_, fun t ht => .inl ⟨hch.fresh t ht, fun g k hc ha hg => hfr g k t hc ha hg ht⟩, hready,
    .same hch.tcbs hch.pids hch.pid, hpends, fun i hi => by rw [hw]; exact hch.waiting i hi⟩
  refine ⟨balanced_step h.balanced hs, hp.clean, hch.placed, ?_, hrun, hcur, by rw [hch.tcbs]; exact hon, ?_⟩
  · intro p t ht
    rw [hch.pids] at ht
    rw [hch.tcbs, hch.pid]; exact h.known p t ht
  · refine h.pending.step hpends ?_ ?_ ?_ ?_ ⟨h.onStack, fun ha => (h.onStack_alive ha).2⟩
    · intro u p t hu _
      rw [hch.tcbs]; exact h.pending.kill u p t hu
    · intro u g t hu hst hg
      refine hch.kept t (h.pending.create u g t hu hg) ?_
      intro he
      exact hgone u g t he hu hst hg
    · intro p t ht
      rw [hch.pids] at ht
      exact .inl ht
    · intro g ha hl
      obtain ⟨p, t, rfl, hlk⟩ := hnew g ha hl
      refine ⟨fun p' t' he => ?_, fun t' he => (by cases he), fun t' he => (by cases he)⟩
      cases he
      exact ⟨by rw [hch.tcbs]; exact (h.known p t hlk).1, hlk⟩

theorem OpCore.currentTask {c' : Core} (ho : OpCore new k c c') : c'.currentTask = c.currentTask := by
  induction ho with
  | returns _ ih => exact ih
  | creates _ _ ih => exact ih
  | logs _ _ ih => exact ih
  | _ => rfl

theorem not_creating (hc : s.control = f :: k) (hf : f.creates = none) (g : Frame) (k' : List Frame) (t : Tid)
    (hc' : s.control = g :: k') (_ : Acts s act) (hg : g.creates = some t) : ¬ Fresh s' L' t := by
  rw [hc] at hc'
  cases hc'
  rw [hf] at hg; cases hg

/-- An operation of the running task keeps who runs, or calls `schedule()` next. -/
theorem Inv.of_op {gone : Option Tid} (h : Inv s L)
    (hs : step s act = some s') (hact : Acting s t) (hch : Change gone w s L s' L') (hw : waitMove s act = w) (hr : Runs s s')
    (hgone : ∀ u g t, gone = some t → Pends s u g → Still s act u → g.creates ≠ some t)
    (hnew : ∀ g, Acts s act → Leaves s act g → ∃ p t, g = .killLocked p t ∧ pidTableLookup s.pids p = some t)
    (hcc : c.currentTask = s.currentTask) (hco : c.onStack = s.onStack) (ho : OpCore new k c s'.core)
    (hfr : ∀ g k t, s.control = g :: k → Acts s act → g.creates = some t → ¬ Fresh s' L' t)
    (hhead : ∀ t, gone = some t → ∃ g k, s.control = g :: k ∧ (g = .createPush t ∨ ∃ p, g = .killLocked p t)) :
    Next s L act s' L' := by
  have hcur : s'.currentTask = s.currentTask := ho.currentTask.trans hcc
  refine h.of_change hs hch hw hgone hnew ?_ ?_ ?_ hfr hhead
  · intro u hu
    rw [hcur]; exact h.running u (hr.1 u hu)
  · intro u hu
    rw [hcur, hact.current] at hu
    cases hu
    rcases hr.2 with hstay | hsch
    · exact .inl (hstay _ hact.running)
    · exact .inr (.inr hsch)
  · rw [show s'.onStack = s.onStack from ho.onStack.trans hco]
    exact h.onStack

/-- A step inside a lock section or in the interrupt handler that changes no task. -/
theorem Inv.of_same (h : Inv s L) (hs : step s act = some s') (hna : ¬ Acts s act) (hw : waitMove s act = .stay)
    (hl : s'.links = s.links)
    (ho : s'.offLists = s.offLists) (hcur : s'.currentTask = s.currentTask) (hon : s'.onStack = s.onStack)
    (hflag : ∀ u, s.currentTask = some u → s.state u = .running ∨ s'.postponedFlag = true ∨
      ∃ k, s'.control = .schedule :: k) : Next s L act s' L := by
  have hst : s'.state = s.state := congrArg Prod.fst ho
  refine h.of_change hs (.same h.placed hl ho) hw (fun _ _ _ he => by cases he) (fun _ ha => absurd ha hna) ?_ ?_ ?_
    (fun _ _ _ _ ha => absurd ha hna) (fun _ he => by cases he)
  · intro u hu
    rw [hst] at hu
    rw [hcur]; exact h.running u hu
  · intro u hu
    rw [hcur] at hu
    rw [hst]; exact hflag u hu
  · rw [hon]; exact h.onStack

end Inv

/-! ## Steps that allocate, free or register -/

section Registry

variable {s' : Kernel} {L L' : Place → List Tid} {act : Act} {f : Frame} {k : List Frame} {a : Tid}

theorem Inv.pends_head (h : Inv s L) (hc : s.control = f :: k) (hf : f.isPart = true) : Pends s s.onStack f := by
  obtain ⟨t, hact⟩ := h.acting hc (Frame.outside_of_isPart hf)
  refine ⟨h.onStack, ?_, hf, ?_⟩
  · rw [← hact.onStack, hact.running]; decide
  · rw [show s.core.stackOf s.onStack = s.control from stackOf_onStack s.core, hc]
    exact List.mem_cons_self

/-- A frame that is still pending elsewhere does not create what the frame on top creates. -/
theorem Inv.creates_other {g : Frame} {u : Tid} (h : Inv s L) (hc : s.control = f :: k) (hf : f.creates = some t)
    (hu : Pends s u g) (hst : u ≠ s.onStack) : g.creates ≠ some t := fun hg =>
  hst (h.pending.one u s.onStack g f t hu (h.pends_head hc (Frame.isPart_of_creates hf)) hg hf)

theorem acts_exec (hc : s.control = f :: k) (hf : f.outside = true) : Acts s (.exec ok) :=
  ⟨⟨f, k, hc, hf⟩, trivial⟩

/-- One more task, with its two calls on a stack of its own; the rest is as it was. -/
structure MakesTask (a : Tid) (k : List Frame) (s s' : Kernel) : Prop where
  state : ∀ {u}, u ≠ a → s'.state u = s.state u
  tcbs : s'.tcbs = a :: s.tcbs
  pids : s'.pids = (pidAlloc s.pids).2
  pid : s'.pid = update s.pid a (pidAlloc s.pids).1
  currentTask : s'.currentTask = s.currentTask
  onStack : s'.onStack = s.onStack
  control : s'.control = .createInsert a :: k
  stack : ∃ entry, s'.stack a = [.kernelTaskStartup, entry] ∧ (entry = .body ∨ entry = .userTaskLauncher)

theorem makesTask_taskCreateInternal (cr3 : Nat) (isUser : Bool) (he : entry = .body ∨ entry = .userTaskLauncher) :
    MakesTask a k s (taskCreateInternal (some a) true entry cr3 isUser k s) :=
  ⟨fun hu => update_of_ne hu _ _, rfl, rfl, rfl, rfl, rfl, rfl, entry, update_self _ _ _, he⟩

section MakesTask

variable {u : Tid}

theorem MakesTask.live (m : MakesTask a k s s') (hu : u ∈ s.tcbs) : u ∈ s'.tcbs := by
  rw [m.tcbs]
  exact List.mem_cons_of_mem a hu

theorem MakesTask.live_of_ne (m : MakesTask a k s s') (hu : u ∈ s'.tcbs) (hne : u ≠ a) : u ∈ s.tcbs := by
  rw [m.tcbs] at hu
  exact (List.mem_cons.1 hu).resolve_left hne

theorem MakesTask.lookup (m : MakesTask a k s s') (p : Nat) : pidTableLookup s'.pids p = pidTableLookup s.pids p := by
  rw [m.pids]
  unfold pidAlloc
  split <;> rfl

theorem MakesTask.noPart (m : MakesTask a k s s') (hne : a ≠ s.onStack) : NoPart (s'.core.stackOf a) := by
  obtain ⟨entry, hstack, he⟩ := m.stack
  have hon : a ≠ s'.core.onStack := by
    rw [show s'.core.onStack = s.onStack from m.onStack]
    exact hne
  rw [Core.stackOf, if_neg hon, show s'.core.stack a = _ from hstack]
  refine noPart_cons rfl (noPart_cons ?_ (by intro g hg; cases hg))
  rcases he with rfl | rfl <;> rfl

theorem MakesTask.pends (m : MakesTask a k s s') (hne : a ≠ s.onStack) (hp : PartsStep s (.call op) s') :
    PendsStep s (.call op) s' := by
  intro u g hu
  refine hp.pends ?_ hu
  by_cases hua : u = a
  · have hg := hu.mem
    rw [hua] at hg
    exact absurd hu.part (by rw [m.noPart hne g hg]; decide)
  · exact ⟨m.live_of_ne hu.live hua, fun hd => hu.notDead ((m.state hua).trans hd)⟩

theorem MakesTask.fresh (m : MakesTask a k s s') (ha : a ∉ s.tcbs) (hu : Fresh s L u) : Fresh s' L u :=
  ⟨m.live hu.live, (m.state (ne_of_mem_of_not_mem hu.live ha)).trans hu.ready, hu.unlisted⟩

theorem MakesTask.freshStep (m : MakesTask a (.body :: k) s s') (hc : s.control = .body :: k) :
    FreshStep s L (.call op) s' L := by
  intro u hu
  by_cases hua : u = a
  · exact .inr ⟨.createInsert a, .body :: k, m.control, congrArg some hua.symm⟩
  · exact .inl ⟨⟨m.live_of_ne hu.live hua, (m.state hua).symm.trans hu.ready, hu.unlisted⟩,
      fun g k' hc' ha hg => not_creating hc rfl g k' u hc' ha hg hu⟩

theorem creates_of_leaves (hop : op.leaves s = some (.createInsert a)) :
    (Act.call op).creates = true ∧ waitMove s (.call op) = .stay := by
  cases op with
  | createKernelTask => exact ⟨rfl, rfl⟩
  | createUserTask => exact ⟨rfl, rfl⟩
  | killTaskByPid pid =>
    obtain ⟨u, -, hu⟩ := Option.map_eq_some_iff.1 hop
    cases hu
  | _ => cases hop

end MakesTask

theorem inv_taskCreateInternal {cr3 : Nat} {isUser : Bool} (h : Inv s L)
    (hc : s.control = .body :: k)
    (hs : step s (.call op) = some (taskCreateInternal (some a) true entry cr3 isUser (.body :: k) s))
    (hop : op.leaves s = some (.createInsert a)) (ha : a ∉ s.tcbs) (he : entry = .body ∨ entry = .userTaskLauncher) :
    Next s L (.call op) (taskCreateInternal (some a) true entry cr3 isUser (.body :: k) s) L := by
  obtain ⟨t, hact⟩ := h.acting hc rfl
  have hp := parts_step h.balanced h.clean hs
  obtain ⟨hpl, hfresh⟩ := placed_taskCreateInternal (k := .body :: k) entry cr3 isUser h.placed ha
  have hbal := balanced_step h.balanced hs
  have m : MakesTask a (.body :: k) s _ := makesTask_taskCreateInternal cr3 isUser he
  generalize taskCreateInternal (some a) true entry cr3 isUser (.body :: k) s = s' at hp hpl hfresh hbal m ⊢
  have hta : ∀ {u}, u ∈ s.tcbs → u ≠ a := fun hu => ne_of_mem_of_not_mem hu ha
  obtain ⟨hcreates, hwait⟩ := creates_of_leaves hop
  have hpends := m.pends (hta h.onStack).symm hp
  refine ⟨⟨hbal, hp.clean, hpl, ?_, ?_, ?_, ?_, ?_⟩, m.freshStep hc, fun u hu _ => .inl (m.fresh ha hu),
    .create a hcreates ha m.tcbs m.pids m.pid ⟨.body :: k, m.control⟩, hpends, fun _ _ => by rw [hwait]; rfl⟩
  · intro p u hu
    rw [m.lookup] at hu
    obtain ⟨hl, hpd⟩ := h.known p u hu
    refine ⟨m.live hl, ?_⟩
    rw [m.pid, update_of_ne (hta hl)]
    exact hpd
  · intro u hu
    rw [m.currentTask]
    by_cases hua : u = a
    · rw [hua, hfresh.ready] at hu
      cases hu
    · rw [m.state hua] at hu
      exact h.running u hu
  · intro u hu
    rw [m.currentTask, hact.current] at hu
    cases hu
    exact .inl ((m.state (hta hact.live)).trans hact.running)
  · rw [m.onStack]
    exact m.live h.onStack
  · refine h.pending.step hpends ?_ ?_ ?_ ?_ ⟨h.onStack, fun hac => (h.onStack_alive hac).2⟩
    · intro u p u' hu _
      exact m.live (h.pending.kill u p u' hu)
    · intro u g u' hu _ hg
      exact m.fresh ha (h.pending.create u g u' hu hg)
    · intro p u hu
      rw [m.lookup] at hu
      exact .inl hu
    · intro g _ hl
      cases Option.some.inj (hop.symm.trans hl)
      refine ⟨fun p u hg => (by cases hg), fun u hg => ?_, fun u hg => ?_⟩
      · cases hg
        exact ⟨hfresh, fun u g' hu _ hg' => ha (h.pending.create u g' a hu hg').live⟩
      · cases hg
        refine ⟨fun p hlk => ?_, fun u p _ hu => ha (h.pending.kill u p a hu)⟩
        rw [m.lookup] at hlk
        exact ha (h.known p a hlk).1

theorem inv_createInsert (h : Inv s L) (hc : s.control = .createInsert t :: k)
    (hs : step s (.exec ok) = some (createInsert t (ok 0) k s)) : Next s L (.exec ok) (createInsert t (ok 0) k s) L := by
  obtain ⟨u₀, hact⟩ := h.acting hc rfl
  have hp := parts_step h.balanced h.clean hs
  have hbal := balanced_step h.balanced hs
  have hhead : Pends s s.onStack (.createInsert t) := h.pends_head hc rfl
  have hfresh : Fresh s L t := h.pending.create _ _ t hhead rfl
  obtain ⟨hunk, hnk⟩ := h.pending.unknown _ _ t hhead rfl
  have hpl : Placed (createInsert t (ok 0) k s) L := h.placed.congr rfl rfl rfl rfl rfl rfl
  have hlook : ∀ p u, pidTableLookup (createInsert t (ok 0) k s).pids p = some u →
      pidTableLookup s.pids p = some u ∨
        p = s.pid t ∧ u = t ∧ (pidTableInsert s.pids (s.pid t) t (ok 0)).1 = 0 := fun p u hu => get_set hu
  have hst : (createInsert t (ok 0) k s).state = s.state := rfl
  have htcbs : (createInsert t (ok 0) k s).tcbs = s.tcbs := rfl
  have hpid : (createInsert t (ok 0) k s).pid = s.pid := rfl
  have hcur : (createInsert t (ok 0) k s).currentTask = s.currentTask := rfl
  have hon : (createInsert t (ok 0) k s).onStack = s.onStack := rfl
  have hctl : (createInsert t (ok 0) k s).control =
      (if (pidTableInsert s.pids (s.pid t) t (ok 0)).1 = 0 then Frame.createPush t else .createRelease t) :: k := by
    show (if (pidTableInsert s.pids (s.pid t) t (ok 0)).1 = 0 then Frame.createPush t :: k else .createRelease t :: k) = _
    split <;> rfl
  have hreg : RegStep s (.exec ok) (createInsert t (ok 0) k s) := .insert t (ok 0) ⟨⟨ok, rfl⟩, k, hc⟩ htcbs rfl hpid ⟨k, hctl⟩
  generalize createInsert t (ok 0) k s = s' at *
  have hkept : ∀ {u}, Fresh s L u → Fresh s' L u := fun hu => ⟨htcbs ▸ hu.live, by rw [hst]; exact hu.ready, hu.unlisted⟩
  have hsame : FreshStep s L (.exec ok) s' L := by
    intro u hu
    by_cases hut : u = t
    · refine .inr ⟨_, k, hctl, ?_⟩
      rw [hut]
      split <;> rfl
    · refine .inl ⟨⟨htcbs ▸ hu.live, hst ▸ hu.ready, hu.unlisted⟩, fun g k' hc' _ hg => ?_⟩
      rw [hc] at hc'
      cases hc'
      exact hut (Option.some.inj hg).symm
  have hpends : PendsStep s (.exec ok) s' := fun u g hu =>
    hp.pends ⟨htcbs ▸ hu.live, fun hd => hu.notDead (by rw [hst]; exact hd)⟩ hu
  refine ⟨⟨hbal, hp.clean, hpl, ?_, ?_, ?_, ?_, ?_⟩, hsame, fun u hu _ => .inl (hkept hu), hreg, hpends,
    fun _ _ => by rw [waitMove_exec hc (by simp) (by simp)]; rfl⟩
  · intro p u hu
    rw [htcbs, hpid]
    rcases hlook p u hu with hu | ⟨rfl, rfl, -⟩
    · exact h.known p u hu
    · exact ⟨hfresh.live, rfl⟩
  · intro u hu
    rw [hst] at hu
    rw [hcur]
    exact h.running u hu
  · intro u hu
    rw [hcur, hact.current] at hu
    cases hu
    rw [hst]
    exact .inl hact.running
  · rw [hon, htcbs]
    exact h.onStack
  · refine h.pending.step hpends ?_ ?_ ?_ ?_ ⟨h.onStack, fun hac => (h.onStack_alive hac).2⟩
    · intro u p u' hu _
      rw [htcbs]
      exact h.pending.kill u p u' hu
    · intro u g u' hu _ hg
      exact hkept (h.pending.create u g u' hu hg)
    · intro p u hu
      rcases hlook p u hu with hu | ⟨-, rfl, -⟩
      · exact .inl hu
      · exact .inr ⟨acts_exec hc rfl, k, hc⟩
    · rintro g - ⟨t', k', hc', rfl⟩
      rw [hc] at hc'
      cases hc'
      have hcreate : ∀ u, some t = some u → Fresh s' L u ∧
          ∀ v g', Pends s v g' → v ≠ s.onStack → g'.creates ≠ some u := by
        rintro u he
        cases he
        exact ⟨hkept hfresh, fun v g' hv hne => h.creates_other hc rfl hv hne⟩
      split
      · exact ⟨fun p u hg => (by cases hg), hcreate, fun u hg => (by cases hg)⟩
      · rename_i hfail
        refine ⟨fun p u hg => (by cases hg), hcreate, fun u hg => ?_⟩
        cases hg
        refine ⟨fun p hlk => ?_, fun v p _ hv => hnk v p hv⟩
        rcases hlook p t hlk with hlk | ⟨-, -, h0⟩
        · exact hunk p hlk
        · exact hfail h0

theorem inv_createRelease (h : Inv s L) (hc : s.control = .createRelease t :: k)
    (hs : step s (.exec ok) = some (createRelease t (ok 0) k s)) : Next s L (.exec ok) (createRelease t (ok 0) k s) L := by
  obtain ⟨u₀, hact⟩ := h.acting hc rfl
  have hp := parts_step h.balanced h.clean hs
  have hbal := balanced_step h.balanced hs
  have hhead : Pends s s.onStack (.createRelease t) := h.pends_head hc rfl
  have hfresh : Fresh s L t := h.pending.create _ _ t hhead rfl
  obtain ⟨hunk, hnk⟩ := h.pending.unknown _ _ t hhead rfl
  have hpl := placed_createRelease (k := k) (ok 0) h.placed hfresh
  have hna : ∀ g, ¬ Leaves s (.exec ok) g := by
    rintro g ⟨t', k', hc', -⟩
    rw [hc] at hc'; cases hc'
  have hst : (createRelease t (ok 0) k s).state = s.state := by cases hok : ok 0 <;> rfl
  have hcur : (createRelease t (ok 0) k s).currentTask = s.currentTask := by cases hok : ok 0 <;> rfl
  have hon : (createRelease t (ok 0) k s).onStack = s.onStack := by cases hok : ok 0 <;> rfl
  have hlook : ∀ p, pidTableLookup (createRelease t (ok 0) k s).pids p = pidTableLookup s.pids p :=
    fun p => lookup_pidRelease s.pids (s.pid t) p (ok 0)
  have hmem : ∀ u, u ∈ (createRelease t (ok 0) k s).tcbs ↔ u ≠ t ∧ u ∈ s.tcbs := fun u => mem_erase_tcbs h.placed
  have hpid : (createRelease t (ok 0) k s).pid = s.pid := by cases hok : ok 0 <;> rfl
  have hreg : RegStep s (.exec ok) (createRelease t (ok 0) k s) := .release t (ok 0) ⟨k, hc⟩ rfl rfl hpid
  generalize createRelease t (ok 0) k s = s' at *
  have hsame : FreshStep s L (.exec ok) s' L := by
    intro u hu
    obtain ⟨hut, hl⟩ := (hmem u).1 hu.live
    refine .inl ⟨⟨hl, hst ▸ hu.ready, hu.unlisted⟩, fun g k' hc' _ hg => ?_⟩
    rw [hc] at hc'
    cases hc'
    exact hut (Option.some.inj hg).symm
  have hpends : PendsStep s (.exec ok) s' := fun u g hu =>
    hp.pends ⟨((hmem u).1 hu.live).2, fun hd => hu.notDead (by rw [hst]; exact hd)⟩ hu
  have hready : ReadyStep s L s' L := fun u hu hl => .inl ⟨hl, by rw [hst]; exact hu.ready, hu.unlisted⟩
  refine ⟨⟨hbal, hp.clean, hpl, ?_, ?_, ?_, ?_, ?_⟩, hsame, hready, hreg, hpends,
    fun _ _ => by rw [waitMove_exec hc (by simp) (by simp)]; rfl⟩
  · intro p u hu
    rw [hlook] at hu
    obtain ⟨hl, hpd⟩ := h.known p u hu
    refine ⟨(hmem u).2 ⟨?_, hl⟩, by rw [hpid]; exact hpd⟩
    rintro rfl
    exact hunk p hu
  · intro u hu
    rw [hst] at hu
    rw [hcur]; exact h.running u hu
  · intro u hu
    rw [hcur, hact.current] at hu
    cases hu
    rw [hst]; exact .inl hact.running
  · rw [hon, hmem]
    refine ⟨?_, h.onStack⟩
    intro he
    rw [← hact.onStack] at he
    exact absurd (hact.running.symm.trans (he ▸ hfresh.ready)) (by decide)
  · refine h.pending.step hpends ?_ ?_ ?_ ?_ ⟨h.onStack, fun hac => (h.onStack_alive hac).2⟩
    · intro u p u' hu _
      refine (hmem u').2 ⟨?_, h.pending.kill u p u' hu⟩
      rintro rfl
      exact hnk u p hu
    · intro u g u' hu hstill hg
      have hf := h.pending.create u g u' hu hg
      refine ⟨(hmem u').2 ⟨?_, hf.live⟩, by rw [hst]; exact hf.ready, hf.unlisted⟩
      rintro rfl
      refine h.creates_other hc rfl hu ?_ hg
      intro he
      exact hstill ⟨he, acts_exec hc rfl⟩
    · intro p u hu
      rw [hlook] at hu
      exact .inl hu
    · intro g _ hl
      exact absurd hl (hna g)

/-- A reaper pass. The tasks it frees are not the target of an interrupted kill. -/
theorem inv_reapLoop (h : Inv s L) (hc : s.control = .reapLoop :: k)
    (hs : step s (.exec ok) = some (reapAllTasks ok (.reapLoop :: k) s))
    (hsafe : ∀ u p t, Pends s u (.killLocked p t) → s.state t ≠ .dead) :
    ∃ L', Next s L (.exec ok) (reapAllTasks ok (.reapLoop :: k) s) L' := by
  obtain ⟨t, hact⟩ := h.acting hc rfl
  have hp := parts_step h.balanced h.clean hs
  have hbal := balanced_step h.balanced hs
  have hna : ∀ g, ¬ Leaves s (.exec ok) g := by
    rintro g ⟨t', k', hc', -⟩
    rw [hc] at hc'; cases hc'
  have hlock : Placed (lockStuff s) L := h.placed.congr rfl rfl rfl rfl rfl rfl
  obtain ⟨L1, hr⟩ := reaped_reapTerminated ok (lockStuff s).fuel (lockStuff s) L hlock h.known
    (Nat.le_of_lt (hlock.length_lt_fuel _))
  obtain ⟨ev, hcore, -⟩ := core_reapTerminated ok (lockStuff s).fuel (lockStuff s)
  have hunfold : reapAllTasks ok (.reapLoop :: k) s = blockTask .paused (.unlockStuff :: .reapLoop :: k)
      (reapTerminated ok (lockStuff s).fuel (lockStuff s)) := rfl
  rw [hunfold] at hs hp hbal ⊢
  generalize reapTerminated ok (lockStuff s).fuel (lockStuff s) = s1 at *
  have hc1 : s1.currentTask = some t := (congrArg Core.currentTask hcore).trans hact.current
  have hon1 : s1.onStack = s.onStack := congrArg Core.onStack hcore
  have hst1 : s1.state = s.state := hr.state
  have hdead : ∀ {u}, u ∈ L .terminated → s.state u = .dead := fun hu => h.placed.state_of_terminated hu
  have ht1 : t ∈ s1.tcbs := by
    refine (hr.tcbs t).2 ⟨hact.live, fun hm => ?_⟩
    exact absurd (hact.running.symm.trans (hdead hm)) (by decide)
  have hrun1 : s1.state t = .running := by rw [hst1]; exact hact.running
  have r := Relocated.block .paused (.unlockStuff :: .reapLoop :: k) hr.placed.lists hc1
  have hctl := control_blockTask .paused (.unlockStuff :: .reapLoop :: k) hc1
  have hst2 := state_blockTask .paused (.unlockStuff :: .reapLoop :: k) hc1
  have hcur2 : (blockTask .paused (.unlockStuff :: .reapLoop :: k) s1).currentTask = some t := by
    rw [blockTask_eq _ _ hc1]; exact hc1
  have hon2 : (blockTask .paused (.unlockStuff :: .reapLoop :: k) s1).onStack = s1.onStack := by
    rw [blockTask_eq _ _ hc1]; rfl
  generalize blockTask .paused (.unlockStuff :: .reapLoop :: k) s1 = s2 at *
  have hpaused : s2.state t = .paused := by rw [hst2, update_self]
  obtain ⟨hch, -⟩ := change_park hr.placed ht1 hrun1 r
    (.of_unlisted (hr.placed.unlisted_running hrun1) (.inl (by simp only [Kernel.placeOf, hpaused]))
      (by rw [hpaused]; decide)) (by rw [hpaused]; decide) hctl (w := .stay) (fun _ _ => rfl)
  have hsame : FreshStep s L (.exec ok) s2 L1 := by
    intro u hu
    have hf := hr.fresh_iff.1 (hch.fresh u hu)
    exact .inl ⟨⟨hf.live, hf.ready, hf.unlisted⟩, fun g k' hc' ha hg => not_creating hc rfl g k' u hc' ha hg hu⟩
  have hreg : RegStep s (.exec ok) s2 := by
    obtain ⟨l, hl, hpids⟩ := hr.pids
    refine .reap l ?_ ?_ ⟨⟨ok, rfl⟩, k, hc⟩ ?_ (hch.pids.trans hpids) (hch.pid.trans hr.pid)
    · rw [hl]; exact h.placed.lists.nodup _
    · intro x hx
      have hm : x.1 ∈ L .terminated := by rw [← hl]; exact List.mem_map_of_mem hx
      exact ⟨h.placed.live _ _ hm, hdead hm⟩
    · intro u
      rw [hch.tcbs, hr.tcbs, hl]; rfl
  have hpends : PendsStep s (.exec ok) s2 := by
    intro u g hu
    have hl := hu.live
    rw [hch.tcbs] at hl
    refine hp.pends ⟨((hr.tcbs u).1 hl).1, fun hd => hu.notDead ?_⟩ hu
    rw [← hst1] at hd
    exact hch.dead u hd
  have hready : ReadyStep s L s2 L1 := fun u hu _ =>
    .inl (hch.kept u (hr.fresh_iff.2 ⟨hu.live, hu.ready, hu.unlisted⟩) (by simp))
  refine ⟨L1, ⟨hbal, hp.clean, hch.placed, ?_, ?_, ?_, ?_, ?_⟩, hsame, hready, hreg, hpends, fun q => ?_⟩
  · intro p u hu
    rw [hch.pids] at hu
    rw [hch.tcbs, hch.pid]; exact hr.known p u hu
  · intro u hu
    rw [hst2] at hu
    by_cases hut : u = t
    · rw [hut]; exact hcur2
    · rw [update_of_ne hut, hst1] at hu
      exact absurd (hact.only u hu) hut
  · intro u _
    exact .inr (.inr hctl)
  · rw [hon2, hon1, hch.tcbs, ← hact.onStack]; exact ht1
  · refine h.pending.step hpends ?_ ?_ ?_ ?_ ⟨h.onStack, fun hac => (h.onStack_alive hac).2⟩
    · intro u p u' hu _
      rw [hch.tcbs]
      exact (hr.tcbs u').2 ⟨h.pending.kill u p u' hu, fun hm => hsafe u p u' hu (hdead hm)⟩
    · intro u g u' hu _ hg
      have hf := h.pending.create u g u' hu hg
      exact hch.kept u' (hr.fresh_iff.2 ⟨hf.live, hf.ready, hf.unlisted⟩) (by simp)
    · intro p u hu
      rw [hch.pids] at hu
      exact .inl (hr.lookup p u hu)
    · intro g _ hl
      exact absurd hl (hna g)
  · intro _
    rw [waitMove_exec hc (by simp) (by simp), hr.queues]
    rfl

end Registry

/-! ## Every step -/

/-- No reaper pass while a task is between the lookup and the locked section of a kill of a DEAD task, and no kill of a
task that is registered but not queued yet. -/
structure Safe (s : Kernel) (act : Act) : Prop where
  reap : ∀ ok k, act = .exec ok → s.control = .reapLoop :: k → ∀ u p t, Pends s u (.killLocked p t) → s.state t ≠ .dead
  kill : ∀ ok p t k, act = .exec ok → s.control = .killLocked p t :: k → ∀ u, ¬ Pends s u (.createPush t)

section Steps

variable {s' : Kernel} {L : Place → List Tid} {act : Act} {f : Frame} {k : List Frame}

theorem Inv.flag_or_running (h : Inv s L) (hc : s.control = f :: k) (hf : f ≠ .schedule) {u : Tid}
    (hu : s.currentTask = some u) : s.state u = .running ∨ s.postponedFlag = true := by
  rcases h.current u hu with hr | hfl | ⟨k', hc'⟩
  · exact .inl hr
  · exact .inr hfl
  · rw [hc] at hc'
    cases hc'
    exact absurd rfl hf

theorem inv_schedule (h : Inv s L) (hc : s.control = .schedule :: k) (hs : step s (.exec ok) = some (schedule k s)) :
    ∃ L', Next s L (.exec ok) (schedule k s) L' := by
  have hna : ¬ Acts s (.exec ok) := not_acts hc rfl
  by_cases hp : s.postpone = 0
  · have ho := h.balanced.owes_of hc
    obtain ⟨prev, hcur⟩ := Core.current_of_base ho.of_schedule.1
    have hcur : s.currentTask = some prev := hcur
    have hprev : prev ∈ s.tcbs := (h.balanced.current prev hcur) ▸ h.onStack
    obtain ⟨L', hch, hrun, hlive⟩ := moves_schedule (k := k) h.placed hcur hprev
      (fun u hu => Option.some.inj ((h.running u hu).symm.trans hcur)) hp
    refine ⟨L', h.of_change hs hch (waitMove_exec hc (by simp) (by simp)) (fun _ _ _ he => by cases he)
      (fun _ ha => absurd ha hna)
      (fun u hu => (hrun u).1 hu) (fun u hu => .inl ((hrun u).2 hu)) ?_ (fun _ _ _ _ ha => absurd ha hna)
      (fun _ he => by cases he)⟩
    rcases core_schedule k hcur hp with hcore | hcore | ⟨next, hcore⟩
    · rw [show (schedule k s).onStack = s.onStack from congrArg Core.onStack hcore]
      exact h.onStack
    · rw [show (schedule k s).onStack = s.onStack from congrArg Core.onStack hcore]
      exact h.onStack
    · rw [show (schedule k s).onStack = next from congrArg Core.onStack hcore]
      exact hlive next (congrArg Core.currentTask hcore)
  · have heq : schedule k s = { s with postponedFlag := true, control := k } := if_pos hp
    rw [heq] at hs ⊢
    exact ⟨L, h.of_same hs hna (waitMove_exec hc (by simp) (by simp)) rfl rfl rfl rfl fun _ _ => .inr (.inl rfl)⟩

theorem inv_idleLoop {parked : Tid} (h : Inv s L) (hc : s.control = .idle parked :: k)
    (hs : step s (.exec ok) = some (idleLoop parked k s)) : ∃ L', Next s L (.exec ok) (idleLoop parked k s) L' := by
  have ho := h.balanced.owes_of hc
  obtain ⟨hb, -, hp, -⟩ := ho.of_idle
  have hcur : s.currentTask = none := by
    cases hn : s.currentTask with
    | none => rfl
    | some t =>
      rw [Core.base_of_some (c := s.core) hn] at hb
      cases hb
  have hpark : parked ∈ s.tcbs := by
    rw [h.balanced.parked_onStack hc]; exact h.onStack
  obtain ⟨L', hch, hrun, hlive⟩ := moves_idleLoop (k := k) h.placed hcur hpark
    (fun u hu => Option.some_ne_none u ((h.running u hu).symm.trans hcur)) hp
  refine ⟨L', h.of_change hs hch (waitMove_exec hc (by simp) (by simp)) (fun _ _ _ he => by cases he)
    (fun _ ha => absurd ha (not_acts hc rfl))
    (fun u hu => (hrun u).1 hu) (fun u hu => .inl ((hrun u).2 hu)) ?_ (not_creating hc rfl)
    (fun _ he => by cases he)⟩
  rcases core_idleLoop parked k hp with hcore | hcore | ⟨next, hcore⟩
  · rw [show (idleLoop parked k s).onStack = s.onStack from congrArg Core.onStack hcore]
    exact h.onStack
  · rw [show (idleLoop parked k s).onStack = s.onStack from congrArg Core.onStack hcore]
    exact h.onStack
  · rw [show (idleLoop parked k s).onStack = next from congrArg Core.onStack hcore]
    exact hlive next (congrArg Core.currentTask hcore)

theorem inv_unlockStuff (h : Inv s L) (hc : s.control = .unlockStuff :: k)
    (hs : step s (.exec ok) = some (unlockStuff k s)) : ∃ L', Next s L (.exec ok) (unlockStuff k s) L' := by
  have hna : ¬ Acts s (.exec ok) := not_acts hc rfl
  refine ⟨L, ?_⟩
  by_cases hcond : s.postpone - 1 = 0 ∧ s.postponedFlag = true
  · rw [unlockStuff, if_pos hcond] at hs ⊢
    exact h.of_same hs hna (waitMove_exec hc (by simp) (by simp)) rfl rfl rfl rfl fun _ _ => .inr (.inr ⟨_, rfl⟩)
  · rw [unlockStuff, if_neg hcond] at hs ⊢
    refine h.of_same hs hna (waitMove_exec hc (by simp) (by simp)) rfl rfl rfl rfl fun u hu => ?_
    rcases h.flag_or_running hc (by simp) hu with hr | hfl
    · exact .inl hr
    · exact .inr (.inl hfl)

theorem inv_wakeReaper (h : Inv s L) (hc : s.control = .wakeReaper :: k)
    (hs : step s (.exec ok) = some { wakeReaper s with control := k }) :
    ∃ L', Next s L (.exec ok) { wakeReaper s with control := k } L' := by
  have hcore := core_wakeReaper (h.balanced.locked_wakeReaper hc)
  obtain ⟨hch, hrun⟩ := change_wakeReaper h.placed
  have hcur : (wakeReaper s).currentTask = s.currentTask := congrArg Core.currentTask hcore
  have hon : (wakeReaper s).onStack = s.onStack := congrArg Core.onStack hcore
  have hfl : (wakeReaper s).postponedFlag = s.postponedFlag := congrArg Core.postponedFlag hcore
  refine ⟨_, h.of_change hs (hch.then_same rfl rfl) (waitMove_exec hc (by simp) (by simp)) (fun _ _ _ he => by cases he)
    (fun _ ha => absurd ha (not_acts hc rfl)) ?_ ?_ ?_ (not_creating hc rfl) (fun _ he => by cases he)⟩
  · intro u hu
    show (wakeReaper s).currentTask = some u
    rw [hcur]; exact h.running u ((hrun u).1 hu)
  · intro u hu
    have hu : (wakeReaper s).currentTask = some u := hu
    rw [hcur] at hu
    rcases h.flag_or_running hc (by simp) hu with hr | hf
    · exact .inl ((hrun u).2 hr)
    · exact .inr (.inl (hfl.trans hf))
  · show (wakeReaper s).onStack ∈ _
    rw [hon]; exact h.onStack

theorem inv_timerCheckSleepingTasks (h : Inv s L) (hc : s.control = .timerCheckSleepingTasks :: k)
    (hs : step s (.exec ok) = some (timerCheckSleepingTasks k s)) :
    ∃ L', Next s L (.exec ok) (timerCheckSleepingTasks k s) L' := by
  have hi : s.irqDisable = s.core.base := (h.balanced.pop_inIrq hc rfl).1
  have hb := h.balanced.owes.bounds
  have hcore := core_timerCheckSleepingTasks (s := s) (k := k) (by omega)
  obtain ⟨L', hch, -, hrun⟩ := moves_timerCheckSleepingTasks (k := k) h.placed
  have hcur : (timerCheckSleepingTasks k s).currentTask = s.currentTask := congrArg Core.currentTask hcore
  have hon : (timerCheckSleepingTasks k s).onStack = s.onStack := congrArg Core.onStack hcore
  refine ⟨L', h.of_change hs hch (by simp only [waitMove, hc]) (fun _ _ _ he => by cases he)
    (fun _ ha => absurd ha (not_acts hc rfl)) ?_ ?_ ?_
    (not_creating hc rfl) (fun _ he => by cases he)⟩
  · intro u hu
    rw [hcur]; exact h.running u ((hrun u).1 hu)
  · intro u hu
    rw [hcur] at hu
    exact .inl ((hrun u).2 (h.running_of_base hi hu))
  · rw [hon]; exact h.onStack

theorem inv_schedulerTimeSliceTick (h : Inv s L) (hc : s.control = .schedulerTimeSliceTick :: k)
    (hs : step s (.exec ok) = some (schedulerTimeSliceTick k s)) :
    ∃ L', Next s L (.exec ok) (schedulerTimeSliceTick k s) L' := by
  have hi : s.irqDisable = s.core.base := (h.balanced.pop_inIrq hc rfl).1
  have hcore : (schedulerTimeSliceTick k s).currentTask = s.currentTask ∧
      (schedulerTimeSliceTick k s).onStack = s.onStack := by
    rcases core_schedulerTimeSliceTick (s := s) (k := k) with hcore | ⟨-, hcore⟩
    · exact ⟨congrArg Core.currentTask hcore, congrArg Core.onStack hcore⟩
    · exact ⟨congrArg Core.currentTask hcore, congrArg Core.onStack hcore⟩
  have hdata : (schedulerTimeSliceTick k s).links = s.links ∧ (schedulerTimeSliceTick k s).offLists = s.offLists := by
    unfold schedulerTimeSliceTick
    dsimp only
    split
    · split
      · split
        · exact ⟨rfl, rfl⟩
        · exact ⟨rfl, rfl⟩
      · exact ⟨rfl, rfl⟩
    · exact ⟨rfl, rfl⟩
  exact ⟨L, h.of_same hs (not_acts hc rfl) (waitMove_exec hc (by simp) (by simp)) hdata.1 hdata.2 hcore.1 hcore.2 fun u hu =>
    .inl (h.running_of_base hi hu)⟩

theorem inv_killLocked {p : Nat} {task : Tid} (h : Inv s L) (hc : s.control = .killLocked p task :: k)
    (hs : step s (.exec ok) = some (killLocked task k s)) (hsafe : ∀ u, ¬ Pends s u (.createPush task)) :
    ∃ L', Next s L (.exec ok) (killLocked task k s) L' := by
  obtain ⟨t, hact⟩ := h.acting hc rfl
  have hhead : Pends s s.onStack (.killLocked p task) := h.pends_head hc rfl
  obtain ⟨L', hch, hr⟩ := moves_killLocked (k := k) task h.placed hact.current hact.live hact.running hact.only
    (h.pending.kill _ p task hhead)
  have hw : waitMove s (.exec ok) = killMove s task := by simp only [waitMove, hc]
  refine ⟨L', h.of_op hs hact hch hw hr ?_ ?_ rfl rfl
    (opCore_killLocked task hact.current (Int.le_of_eq hact.unlocked.symm)) (not_creating hc rfl) ?_⟩
  · rintro u g t' he hu - hg
    cases he
    -- what is still creating `task`: before its registration no kill of it can be under way, and after it `Safe` says no
    cases g with
    | createPush _ =>
      cases hg
      exact hsafe u hu
    | createInsert _ =>
      cases hg
      exact (h.pending.unknown u _ task hu rfl).2 _ p hhead
    | createRelease _ =>
      cases hg
      exact (h.pending.unknown u _ task hu rfl).2 _ p hhead
    | _ => cases hg
  · rintro g - ⟨t', k', hc', -⟩
    rw [hc] at hc'; cases hc'
  · rintro t' he
    cases he
    exact ⟨_, k, hc, .inr ⟨p, rfl⟩⟩

theorem inv_createPush (h : Inv s L) (hc : s.control = .createPush t :: k)
    (hs : step s (.exec ok) = some (createPush t k s)) : ∃ L', Next s L (.exec ok) (createPush t k s) L' := by
  obtain ⟨t₀, hact⟩ := h.acting hc rfl
  have hfresh : Fresh s L t := h.pending.create _ _ t (h.pends_head hc rfl) rfl
  obtain ⟨L', hch, hmem, hst⟩ := moves_createPush (k := k) h.placed hfresh
  refine ⟨L', h.of_op hs hact hch (waitMove_exec hc (by simp) (by simp)) (.of_state hst) ?_ ?_ rfl rfl
    (opCore_createPush t) ?_ ?_⟩
  · rintro u g t' he hu hstill hg
    cases he
    refine h.creates_other hc rfl hu ?_ hg
    intro hon
    exact hstill ⟨hon, acts_exec hc rfl⟩
  · rintro g - ⟨t', k', hc', -⟩
    rw [hc] at hc'; cases hc'
  · intro g k' u hc' _ hg hf
    rw [hc] at hc'
    cases hc'
    cases hg
    exact hf.unlisted _ hmem
  · rintro t' he
    cases he
    exact ⟨_, k, hc, .inl rfl⟩

/-- An operation of the running task that leaves all tasks as they are. -/
theorem Inv.of_op_same {k' : List Frame} (h : Inv s L) (hc : s.control = f :: k)
    (hf : f.outside = true) (hfc : f.creates = none) (hs : step s act = some s') (hw : waitMove s act = .stay)
    (hl : s'.links = s.links) (ho : s'.offLists = s.offLists)
    (hnew : ∀ g, Acts s act → Leaves s act g → ∃ p t, g = .killLocked p t ∧ pidTableLookup s.pids p = some t)
    (hcc : c.currentTask = s.currentTask) (hco : c.onStack = s.onStack) (hop : OpCore new k' c s'.core) :
    ∃ L', Next s L act s' L' := by
  obtain ⟨t, hact⟩ := h.acting hc hf
  exact ⟨L, h.of_op hs hact (.same h.placed hl ho) hw (.of_state (congrArg Prod.fst ho)) (fun _ _ _ he => by cases he)
    hnew hcc hco hop (not_creating hc hfc) (fun _ he => by cases he)⟩

theorem inv_execFrame (h : Inv s L) (hc : s.control = f :: k) (he : execFrame ok f k s = some s')
    (hs : step s (.exec ok) = some s') (hsafe : Safe s (.exec ok)) : ∃ L', Next s L (.exec ok) s' L' := by
  have hno : (∀ t, f ≠ .createInsert t) → ∀ g, Acts s (.exec ok) → Leaves s (.exec ok) g →
      ∃ p t, g = .killLocked p t ∧ pidTableLookup s.pids p = some t := by
    rintro hf g - ⟨t, k', hc', -⟩
    rw [hc] at hc'
    cases hc'
    exact absurd rfl (hf t)
  cases f <;> simp only [execFrame, Option.some.injEq, reduceCtorEq] at he <;> subst he
  case schedule => exact inv_schedule h hc hs
  case idle parked => exact inv_idleLoop h hc hs
  case unlockStuff => exact inv_unlockStuff h hc hs
  case wakeReaper => exact inv_wakeReaper h hc hs
  case timerCheckSleepingTasks => exact inv_timerCheckSleepingTasks h hc hs
  case schedulerTimeSliceTick => exact inv_schedulerTimeSliceTick h hc hs
  case killLocked p task => exact inv_killLocked h hc hs (hsafe.kill ok p task k rfl hc)
  case createInsert t => exact ⟨L, inv_createInsert h hc hs⟩
  case createRelease t => exact ⟨L, inv_createRelease h hc hs⟩
  case createPush t => exact inv_createPush h hc hs
  case reapLoop => exact inv_reapLoop h hc hs (hsafe.reap ok k rfl hc)
  case unlockSchedule | unlockStuffTail | kernelTaskStartup =>
    refine ⟨L, h.of_same hs (not_acts hc rfl) (waitMove_exec hc (by simp) (by simp)) rfl rfl rfl rfl fun u hu => ?_⟩
    rcases h.flag_or_running hc (by simp) hu with hr | hfl
    · exact .inl hr
    · exact .inr (.inl hfl)
  case irqReturn =>
    have hi : s.irqDisable = s.core.base := (h.balanced.pop_inIrq hc rfl).1
    exact ⟨L, h.of_same hs (not_acts hc rfl) (waitMove_exec hc (by simp) (by simp)) rfl rfl rfl rfl
      fun u hu => .inl (h.running_of_base hi hu)⟩
  case ret value =>
    exact h.of_op_same hc rfl rfl hs (waitMove_exec hc (by simp) (by simp)) rfl rfl (hno (by simp))
      (c := s.core) rfl rfl .ends
  case syscallReturn num =>
    exact h.of_op_same hc rfl rfl hs (waitMove_exec hc (by simp) (by simp)) rfl rfl (hno (by simp))
      (c := { s.core with intFlag := true }) rfl rfl .ends
  case userTaskLauncher =>
    exact h.of_op_same hc rfl rfl hs (waitMove_exec hc (by simp) (by simp)) rfl rfl (hno (by simp))
      (c := { s.core with intFlag := true }) rfl rfl (.ends (k := .userMode :: k))
  case bootLoop | exitLoop =>
    exact h.of_op_same hc rfl rfl hs (waitMove_exec hc (by simp) (by simp)) rfl rfl (hno (by simp))
      (c := s.core) rfl rfl .yields

theorem inv_call_create {addr : Option Tid} {stackOk : Bool} {cr3 : Nat} {isUser : Bool}
    (h : Inv s L) (hc : s.control = .body :: k)
    (hs : step s (.call op) = some (taskCreateInternal addr stackOk entry cr3 isUser (.body :: k) s))
    (hop : op.leaves s = if stackOk then addr.map .createInsert else none) (hw : waitMove s (.call op) = .stay)
    (hfree : ∀ a, addr = some a → a ∉ s.tcbs) (he : entry = .body ∨ entry = .userTaskLauncher) :
    ∃ L', Next s L (.call op) (taskCreateInternal addr stackOk entry cr3 isUser (.body :: k) s) L' := by
  have hfail : taskCreateInternal addr stackOk entry cr3 isUser (.body :: k) s =
      { s with control := .body :: k, rax := 0, log := s.log ++ [.taskCreate] } → op.leaves s = none →
      ∃ L', Next s L (.call op) (taskCreateInternal addr stackOk entry cr3 isUser (.body :: k) s) L' := by
    intro heq hn
    have hcore := opCore_taskCreateInternal (s := s) (k := .body :: k) addr stackOk cr3 isUser he
    refine h.of_op_same hc rfl rfl hs hw ?_ ?_ ?_ rfl rfl hcore
    · rw [heq]; rfl
    · rw [heq]; rfl
    · intro g _ hl
      exact absurd (hn.symm.trans hl) (Option.some_ne_none g).symm
  cases addr with
  | none => cases stackOk <;> exact hfail rfl hop
  | some a =>
    cases stackOk with
    | false => exact hfail rfl hop
    | true => exact ⟨L, inv_taskCreateInternal h hc hs hop (hfree a rfl) he⟩

theorem inv_callOp (h : Inv s L) (hc : s.control = .body :: k) (hfree : op.addrFree s = true)
    (hs : step s (.call op) = some (callOp op (.body :: k) s)) : ∃ L', Next s L (.call op) (callOp op (.body :: k) s) L' := by
  obtain ⟨t, hact⟩ := h.acting hc rfl
  have hop := opCore_callOp (s := s) (k := .body :: k) op hact.current (Int.le_of_eq hact.unlocked.symm)
  have hno : op.leaves s = none → ∀ g, Acts s (.call op) → Leaves s (.call op) g →
      ∃ p t, g = .killLocked p t ∧ pidTableLookup s.pids p = some t := by
    intro hn g _ hl
    exact absurd (hn.symm.trans hl) (Option.some_ne_none g).symm
  have hmove : op.leaves s = none →
      (∃ L', Change none (waitMove s (.call op)) s L (callOp op (.body :: k) s) L' ∧ Runs s (callOp op (.body :: k) s)) →
      ∃ L', Next s L (.call op) (callOp op (.body :: k) s) L' := by
    rintro hn ⟨L', hch, hr⟩
    exact ⟨L', h.of_op hs hact hch rfl hr (fun _ _ _ he => by cases he) (hno hn) rfl rfl hop
      (not_creating hc rfl) (fun _ he => by cases he)⟩
  cases op with
  | yield => exact hmove rfl ⟨L, .same h.placed rfl rfl, .of_state rfl⟩
  | nanoSleepUntil w =>
    refine hmove rfl ?_
    rw [waitMove_sleep rfl hact.current]
    exact moves_nanoSleepUntil _ h.placed hact.current hact.live hact.running
  | nanoSleep n =>
    refine hmove rfl ?_
    rw [waitMove_sleep rfl hact.current]
    exact moves_nanoSleepUntil _ h.placed hact.current hact.live hact.running
  | sleepSeconds n =>
    refine hmove rfl ?_
    rw [waitMove_sleep rfl hact.current]
    exact moves_nanoSleepUntil _ h.placed hact.current hact.live hact.running
  | createSemaphore max addr =>
    refine hmove rfl (moves_createSemaphore h.placed ?_)
    rintro q rfl
    simpa [Op.addrFree] using hfree
  | acquireSemaphore q =>
    have hq : q ∈ s.sems := by simpa [Op.addrFree] using hfree
    have hm := moves_acquireSemaphore (k := .body :: k) h.placed hact.current hact.live hact.running hq
    rw [show [t] = s.currentTask.toList by rw [hact.current]; rfl] at hm
    exact hmove rfl hm
  | releaseSemaphore q => exact hmove rfl (moves_releaseSemaphore h.placed)
  | terminateTask => exact hmove rfl (moves_terminateTask h.placed hact.current hact.live hact.running)
  | killTaskByPid pid =>
    have hdata : (killTaskByPid pid (.body :: k) s).links = s.links ∧
        (killTaskByPid pid (.body :: k) s).offLists = s.offLists := by
      unfold killTaskByPid
      dsimp only
      split
      · exact ⟨rfl, rfl⟩
      · exact ⟨rfl, rfl⟩
    refine h.of_op_same hc rfl rfl hs rfl hdata.1 hdata.2 ?_ rfl rfl hop
    intro g _ hl
    obtain ⟨task, htask, rfl⟩ := Option.map_eq_some_iff.1 (show (pidTableLookup s.pids pid).map _ = some g from hl)
    exact ⟨pid, task, rfl, htask⟩
  | createKernelTask addr stackOk =>
    refine inv_call_create h hc hs ?_ rfl ?_ (.inl rfl)
    · cases addr <;> cases stackOk <;> rfl
    · rintro a rfl
      simpa [Op.addrFree] using hfree
  | createUserTask pml addr stackOk =>
    cases pml with
    | none => exact hmove (by cases addr <;> cases stackOk <;> rfl) ⟨L, .same h.placed rfl rfl, .of_state rfl⟩
    | some pml =>
      refine inv_call_create h hc hs ?_ rfl ?_ (.inr rfl)
      · cases addr <;> cases stackOk <;> rfl
      · rintro a rfl
        simpa [Op.addrFree] using hfree

theorem Inv.of_moves {k' : List Frame} (h : Inv s L) (s₁ : Kernel)
    (hc : s.control = f :: k) (hf : f.outside = true) (hfc : f.creates = none) (hs : step s act = some s')
    (hl : ∀ g, ¬ Leaves s act g) (hw : waitMove s act = w)
    (h1 : s₁.links = s.links) (h2 : s₁.offLists = s.offLists)
    (hm : ∀ t, Acting s t → Placed s₁ L → ∃ L', Change none w s₁ L s' L' ∧ Runs s₁ s') (hcc : c.currentTask = s.currentTask)
    (hco : c.onStack = s.onStack) (hop : OpCore new k' c s'.core) : ∃ L', Next s L act s' L' := by
  obtain ⟨t, hact⟩ := h.acting hc hf
  have hch₁ : Change none .stay s L s₁ L := .same h.placed h1 h2
  have hst : s₁.state = s.state := congrArg Prod.fst h2
  obtain ⟨L', hch, hr⟩ := hm t hact hch₁.placed
  refine ⟨L', h.of_op hs hact (hch₁.trans hch) hw ?_ (fun _ _ _ he => by cases he) (fun g _ hg => absurd hg (hl g)) hcc
    hco hop (not_creating hc hfc) (fun _ he => by cases he)⟩
  rwa [Runs, hst] at hr

theorem inv_syscall {num arg : Nat} (h : Inv s L) (hc : s.control = .userMode :: k)
    (hs : step s (.syscall num arg) = some (syscall num arg (.userMode :: k) s)) :
    ∃ L', Next s L (.syscall num arg) (syscall num arg (.userMode :: k) s) L' := by
  let s1 : Kernel := { s with intFlag := false }
  obtain ⟨t, hact⟩ := h.acting hc rfl
  have hi : 0 ≤ s1.irqDisable := Int.le_of_eq hact.unlocked.symm
  have hl : ∀ g, ¬ Leaves s (.syscall num arg) g := fun g hg => hg
  unfold syscall at hs ⊢
  dsimp only at hs ⊢
  split at hs
  · exact h.of_moves s1 hc rfl rfl hs hl rfl rfl rfl
      (fun u hu hp => moves_terminateTask hp hu.current hu.live hu.running) rfl rfl
      (opCore_terminateTask (s := s1) hact.current hi)
  · exact h.of_op_same hc rfl rfl hs rfl rfl rfl (fun g _ hg => absurd hg (hl g)) (c := s1.core) rfl rfl .yields
  · refine h.of_moves s1 hc rfl rfl hs hl (waitMove_sleep rfl hact.current) rfl rfl (fun u hu hp => ?_) rfl rfl
      (opCore_nanoSleepUntil (s := s1) _ hact.current)
    cases Option.some.inj (hu.current.symm.trans hact.current)
    exact moves_nanoSleepUntil _ hp hu.current hu.live hu.running
  · rename_i hnum
    exact h.of_op_same hc rfl rfl hs (waitMove_syscall hnum) rfl rfl (fun g _ hg => absurd hg (hl g)) (c := s1.core) rfl rfl
      .ends

theorem inv_step (h : Inv s L) (hs : step s act = some s') (hsafe : Safe s act) : ∃ L', Next s L act s' L' := by
  obtain ⟨ok, f, k, rfl, hc, he⟩ | ⟨op, k, rfl, hc, hfree, rfl⟩ | ⟨k, rfl, hc, rfl⟩ | ⟨num, arg, k, rfl, hc, rfl⟩ |
    ⟨k, rfl, hc, rfl⟩ | ⟨rfl, hif, rfl⟩ := step_cases hs
  · exact inv_execFrame h hc he hs hsafe
  · exact inv_callOp h hc hfree hs
  · obtain ⟨t, hact⟩ := h.acting hc rfl
    exact h.of_moves s hc rfl rfl hs (fun g hg => hg) rfl rfl rfl
      (fun u hu hp => moves_terminateTask hp hu.current hu.live hu.running) rfl rfl
      (opCore_terminateTask hact.current (Int.le_of_eq hact.unlocked.symm))
  · exact inv_syscall h hc hs
  · obtain ⟨t, hact⟩ := h.acting hc rfl
    exact h.of_moves { s with intFlag := false } hc rfl rfl hs (fun g hg => hg) rfl rfl rfl
      (fun u hu hp => moves_terminateTask hp hu.current hu.live hu.running) rfl rfl
      (opCore_terminateTask (s := { s with intFlag := false }) hact.current (Int.le_of_eq hact.unlocked.symm))
  · have hi : s.irqDisable = s.core.base := h.balanced.intFlag hif
    exact ⟨L, h.of_same hs (fun ha => ha.2) rfl rfl rfl rfl rfl fun u hu => .inl (h.running_of_base hi hu)⟩

end Steps

/-! ## Runs -/

def bootLists (b : Boot) : Place → List Tid
  | .queue .ready => [b.shell, b.reaper]
  | _ => []

theorem mem_bootLists {p : Place} (h : t ∈ bootLists b p) :
    p = .queue .ready ∧ (t = b.shell ∨ t = b.reaper) := by
  rcases p with (_ | _ | _) | _
  · simp only [bootLists, List.mem_cons, List.not_mem_nil, or_false] at h
    exact ⟨rfl, h⟩
  · cases h
  · cases h
  · cases h

theorem lists_start (h : Starts b s) : Lists s (bootLists b) := by
  obtain ⟨f, -, rfl⟩ := h.eq
  refine ⟨?_, rfl, ?_, ?_⟩
  · intro i
    cases i with
    | ready =>
      have hsr := b.shell_ne_reaper
      refine ⟨⟨rfl, ?_⟩, rfl⟩
      show Seg (update (fun _ => none) b.shell (some b.reaper))
        (update (fun _ => none) b.shell (some b.reaper) b.shell) [b.reaper] none
      rw [update_self]
      refine ⟨rfl, ?_⟩
      exact update_of_ne hsr.symm _ _
    | sleeping => exact ⟨rfl, rfl⟩
    | waiting q => exact ⟨rfl, rfl⟩
  · intro p
    have hsr := b.shell_ne_reaper
    rcases p with (_ | _ | _) | _ <;> simp [bootLists, hsr]
  · intro p q t hp hq
    rw [(mem_bootLists hp).1, (mem_bootLists hq).1]

theorem not_pends_start (h : Starts b s) (u : Tid) (g : Frame) : ¬ Pends s u g := fun hu =>
  absurd hu.part (by rw [noPart_start h u g hu.mem]; decide)

theorem lookup_bootState (b : Boot) (p : Nat) : pidTableLookup (bootState b).pids p =
    if p = 0 then some b.boot else if p = 1 then some b.shell else if p = 2 then some b.reaper else none := by
  show (if p < 64 then _ else none) = _
  by_cases hp : p < 64
  · rw [if_pos hp]
    match p with
    | 0 => rfl
    | 1 => rfl
    | 2 => rfl
    | n + 3 =>
      show (List.replicate 61 none).getD n none = none
      rw [List.getD_eq_getElem?_getD, List.getElem?_replicate]
      split <;> rfl
  · rw [if_neg hp, if_neg (by omega), if_neg (by omega), if_neg (by omega)]

theorem state_start (h : Starts b s) (t : Tid) : s.state t = if t = b.boot then .running else .ready := by
  obtain ⟨f, -, rfl⟩ := h.eq
  rfl

theorem tcbs_start (h : Starts b s) : s.tcbs = [b.reaper, b.shell, b.boot] := by
  obtain ⟨f, -, rfl⟩ := h.eq
  rfl

theorem settled_start (h : Starts b s) (ht : t ∈ s.tcbs) : Settled s (bootLists b) t := by
  have hstate := state_start h t
  by_cases htb : t = b.boot
  · rw [if_pos htb] at hstate
    refine .of_unlisted ?_ (.inl ?_) ?_
    · intro p hm
      rcases (mem_bootLists hm).2 with rfl | rfl
      · exact b.boot_ne_shell htb.symm
      · exact b.boot_ne_reaper htb.symm
    · simp only [Kernel.placeOf, hstate]
    · rw [hstate]; decide
  · rw [if_neg htb] at hstate
    refine .of_onlyAt (p := .queue .ready) ?_ ?_ ?_
    · have hm : t ∈ [b.shell, b.reaper] := by
        rw [tcbs_start h] at ht
        simp only [List.mem_cons, List.not_mem_nil, or_false] at ht ⊢
        tauto
      intro p
      refine ⟨fun hp => (mem_bootLists hp).1, ?_⟩
      rintro rfl
      exact hm
    · simp only [Kernel.placeOf, hstate]
    · rw [hstate]
      intro hw; cases hw

theorem known_start (h : Starts b s) : Known s := by
  obtain ⟨f, -, rfl⟩ := h.eq
  intro p t hp
  rw [lookup_bootState] at hp
  have hpid : ∀ t, (bootState b).pid t = if t = b.shell then 1 else if t = b.reaper then 2 else 0 := fun _ => rfl
  have htcbs : (bootState b).tcbs = [b.reaper, b.shell, b.boot] := rfl
  rw [hpid, htcbs]
  split at hp
  · rename_i h0
    cases hp
    rw [h0, if_neg b.boot_ne_shell, if_neg b.boot_ne_reaper]
    simp
  split at hp
  · rename_i h0
    cases hp
    rw [h0, if_pos rfl]
    simp
  split at hp
  · rename_i h0
    cases hp
    rw [h0, if_neg b.shell_ne_reaper.symm, if_pos rfl]
    simp
  · cases hp

theorem inv_start (h : Starts b s) : Inv s (bootLists b) := by
  have hnone := not_pends_start h
  have hstate := state_start h
  have htcbs := tcbs_start h
  refine ⟨balanced_start h, clean_start h, ⟨lists_start h, ?_, fun t => settled_start h, ?_, ?_, ?_⟩, known_start h, ?_, ?_,
    ?_, ⟨fun u p t hu => absurd hu (hnone u _), fun u g t hu => absurd hu (hnone u g),
      fun u u' g g' t hu => absurd hu (hnone u g), fun u g t hu => absurd hu (hnone u g)⟩⟩
  · intro p t ht
    rw [htcbs]
    rcases (mem_bootLists ht).2 with rfl | rfl <;> simp
  · intro t ht
    rw [hstate] at ht
    split at ht <;> cases ht
  · rw [htcbs]
    simp [b.boot_ne_shell.symm, b.boot_ne_reaper.symm, b.shell_ne_reaper.symm]
  · obtain ⟨f, -, rfl⟩ := h.eq
    rfl
  · intro u hu
    rw [hstate] at hu
    split at hu
    · rename_i he
      obtain ⟨f, -, rfl⟩ := h.eq
      rw [he]; rfl
    · cases hu
  · intro u hu
    obtain ⟨f, -, rfl⟩ := h.eq
    cases hu
    exact .inl (if_pos rfl)
  · rw [htcbs]
    obtain ⟨f, -, rfl⟩ := h.eq
    simp [bootState]

/-- The invariant holds in every state of a run whose steps are safe. -/
theorem inv_of_reach {s₀ : Kernel} (h₀ : Starts b s₀) (h : Reach step Safe s₀ s) : ∃ L, Inv s L :=
  h.invariant (P := fun s => ∃ L, Inv s L) ⟨_, inv_start h₀⟩ fun _ _ _ ⟨_, hi⟩ hok hs =>
    (inv_step hi hs hok).imp fun _ hn => hn.inv

end ToastOS.Task
