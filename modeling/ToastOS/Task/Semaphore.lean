import ToastOS.Lib.Permits
import ToastOS.Task.Reaper

/-!
# Semaphores

What happens to a semaphore in a run is a history of permits (`ToastOS.Lib.Permits`): `semEvent s q act` is the event of a
step, read off the state before it, and `historyStep` keeps the history of every semaphore beside the kernel. `SemOk` ties
the two together: the count is that of the history, the wait queue holds the tasks that wait in it, and the history is
lawful. Everything else is about lawful histories.

* `semaphores_are_fair` : count, wait queue, order and mutual exclusion;
* `permits_survive` : where nobody dies who has a permit, the permits come back; `killed_with_permit` : a task that is killed
  between the hand-off and its next turn takes the permit with it.
-/

namespace ToastOS.Task

open ToastOS.Lib (Queue Reach Any checked)
open Function
open ToastOS.Lib.Permits (Lawful OnlyHolders holders)

/-- What a step does to the semaphore `q`. -/
def semEvent (s : Kernel) (q : Sid) : Act → Option (Lib.Permits.Event Tid)
  | .call (.acquireSemaphore q') =>
    if q' = q then s.currentTask.map (if s.currentCount q < s.maxCount q then .take else .wait) else none
  | .call (.releaseSemaphore q') =>
    if q' = q then
      s.currentTask.map fun t =>
        match (s.waiters q).first with
        | some u => .handOff t u
        | none => .give t
    else none
  | .exec _ =>
    match s.control with
    | .killLocked _ task :: _ =>
      if ¬ Protected s task ∧ s.state task = .waitingForLock ∧ s.waitingFor task = some q then some (.leave task) else none
    | _ => none
  | _ => none

/-- The histories of the semaphores, newest event first. -/
abbrev Histories := Sid → List (Lib.Permits.Event Tid)

def Histories.next (h : Histories) (s : Kernel) (act : Act) : Histories := fun q => (semEvent s q act).toList ++ h q

/-- A step, with the histories of the semaphores. -/
def historyStep (x : Kernel × Histories) (act : Act) : Option (Kernel × Histories) :=
  (step x.1 act).map fun s => (s, x.2.next x.1 act)

structure SemOk (s : Kernel) (L : Place → List Tid) (h : Histories) : Prop where
  queue : ∀ q, Lib.Permits.queue (h q) = L (.queue (.waiting q))
  count : ∀ q ∈ s.sems, s.currentCount q = Lib.Permits.count (h q)
  lawful : ∀ q ∈ s.sems, Lawful (s.maxCount q) (h q)
  unused : ∀ q, q ∉ s.sems → h q = []

section Counters

variable {s s' : Kernel} {L L' : Place → List Tid} {act : Act} {k : List Frame} {q : Sid} {t : Tid} {h : Histories}

theorem setup_acquireSemaphore (hc : s.currentTask = some t) : (acquireSemaphore q k s).setup =
    if s.currentCount q < s.maxCount q then
      { s.setup with currentCount := update s.currentCount q (s.currentCount q + 1) } else s.setup := by
  split
  · rename_i hlt
    rw [show acquireSemaphore q k s = _ from if_pos hlt]
    rfl
  · rename_i hlt
    have hlt' : ¬ (lockStuff s).currentCount q < (lockStuff s).maxCount q := hlt
    have hcl : (lockStuff s).currentTask = some t := hc
    have hcs : (semPush (lockStuff s) q t).currentTask = some t :=
      (congrArg Core.currentTask (core_semPush (lockStuff s) q t)).trans hc
    simp only [acquireSemaphore, if_neg hlt', hcl]
    exact (congrArg Prod.snd (calm_blockTask .waitingForLock (.unlockStuff :: k) hcs)).trans
      (congrArg Prod.snd (calm_semPush (lockStuff s) q t))

theorem first_semPop (s : Kernel) (q : Sid) : (semPop s q).1 = (s.waiters q).first := by
  have hpop : (queuePop s (.waiting q)).1 = (s.waiters q).first := by
    show (Queue.pop s.next (s.waiters q)).1 = _
    unfold Queue.pop
    split
    · rename_i hn
      exact hn.symm
    · rename_i a ha
      exact ha.symm
  unfold semPop
  split <;> rename_i heq <;> rw [heq] at hpop <;> exact hpop

theorem setup_releaseSemaphore : (releaseSemaphore q k s).setup =
    if (s.waiters q).first = none then
      { s.setup with currentCount := update s.currentCount q (s.currentCount q - 1) } else s.setup := by
  have hfirst := first_semPop (lockStuff s) q
  have hpop := calm_semPop (lockStuff s) q
  unfold releaseSemaphore
  dsimp only
  split
  · rename_i task s₁ heq
    rw [heq] at hfirst hpop
    rw [if_neg (by rw [show (s.waiters q).first = some task from hfirst.symm]; simp)]
    exact (congrArg Prod.snd (calm_unblockTask task s₁)).trans (congrArg Prod.snd hpop)
  · rename_i heq
    rw [heq] at hfirst
    rw [if_pos (show (s.waiters q).first = none from hfirst.symm)]
    rfl

theorem SetupStep.sems (hset : SetupStep s act s') (hact : act.onSemaphore = false) :
    s'.sems = s.sems ∧ s'.maxCount = s.maxCount ∧ s'.currentCount = s.currentCount := by
  have hof : ∀ {x : Setup}, s'.setup = x → x.sems = s.sems → x.maxCount = s.maxCount → x.currentCount = s.currentCount →
      s'.sems = s.sems ∧ s'.maxCount = s.maxCount ∧ s'.currentCount = s.currentCount := by
    rintro x rfl h1 h2 h3
    exact ⟨h1, h2, h3⟩
  cases hset with
  | same h _ => exact hof h rfl rfl rfl
  | switch h => exact hof h rfl rfl rfl
  | semaphore h _ _ => exact absurd (hact.symm.trans h) (by decide)
  | create _ _ _ _ h _ _ => exact hof h rfl rfl rfl
  | reap _ _ h _ => exact hof h rfl rfl rfl

end Counters

section Step

variable {s s' : Kernel} {L L' : Place → List Tid} {act : Act} {k : List Frame} {q : Sid} {t : Tid} {h : Histories}

theorem semEvent_eq_none (hact : act.onSemaphore = false) (hkill : ∀ ok p task k, act = .exec ok →
    s.control = .killLocked p task :: k →
    Protected s task ∨ s.state task ≠ .waitingForLock ∨ s.waitingFor task ≠ some q) : semEvent s q act = none := by
  unfold semEvent
  split
  · cases hact
  · cases hact
  · rename_i ok
    split
    · rename_i p task k hc
      rw [if_neg]
      rintro ⟨h1, h2, h3⟩
      rcases hkill ok p task k rfl hc with h | h | h
      · exact h1 h
      · exact h h2
      · exact h h3
    · rfl
  · rfl

theorem waitMove_waiting (hact : act.onSemaphore = false)
    (hkill : ∀ ok p task k, act = .exec ok → s.control ≠ .killLocked p task :: k) (l : List Tid) :
    waitMove s act (.waiting q) l = l := by
  have hother : ∀ f, WaitMove.on .sleeping f (.waiting q) l = l := fun f => by
    rw [WaitMove.on, update_of_ne (by simp)]
    rfl
  obtain ⟨_, hq | hq⟩ | ⟨ok, p, task, k, he, hc, -⟩ | ⟨_, _, -, -, hm⟩ | ⟨_, _, -, -, hm⟩ | hm := waitMove_cases s act
  · rw [hq] at hact; cases hact
  · rw [hq] at hact; cases hact
  · exact absurd hc (hkill ok p task k he)
  · rw [hm]; exact hother _
  · rw [hm]; exact hother _
  · rw [hm]; rfl

theorem killMove_unprotected (hp : ¬ Protected s t) (i : QueueId) (l : List Tid) : killMove s t i l = l.erase t :=
  if_neg hp

/-- A step that is not about semaphores changes the wait queues as the histories say. -/
theorem SemOk.kill_step (hi : Inv s L) (hok : SemOk s L h) (hn : Next s L act s' L') (hact : act.onSemaphore = false)
    (q : Sid) : Lib.Permits.queue (h.next s act q) = L' (.queue (.waiting q)) ∧
      (h.next s act q = h q ∨ ∃ task, h.next s act q = .leave task :: h q ∧ task ∈ Lib.Permits.queue (h q)) := by
  have hq := hok.queue q
  have hw := hn.waiting (.waiting q) (by simp)
  have hquiet : semEvent s q act = none → waitMove s act (.waiting q) (L (.queue (.waiting q))) = L (.queue (.waiting q)) →
      Lib.Permits.queue (h.next s act q) = L' (.queue (.waiting q)) ∧
      (h.next s act q = h q ∨ ∃ task, h.next s act q = .leave task :: h q ∧ task ∈ Lib.Permits.queue (h q)) := by
    intro he hm
    have heq : h.next s act q = h q := by rw [Histories.next, he]; rfl
    rw [heq, hw, hm]
    exact ⟨hq, .inl rfl⟩
  by_cases hkill : ∃ ok p task k, act = .exec ok ∧ s.control = .killLocked p task :: k
  · obtain ⟨ok, p, task, k, rfl, hc⟩ := hkill
    have hmove : waitMove s (.exec ok) = killMove s task := by simp only [waitMove, hc]
    have hlive : task ∈ s.tcbs := hi.pending.kill _ p task (hi.pends_head hc rfl)
    by_cases hp : Protected s task
    · refine hquiet (semEvent_eq_none rfl ?_) ?_
      · rintro ok p' task' k' - hc'
        rw [hc] at hc'
        cases hc'
        exact .inl hp
      · rw [hmove, killMove]
        exact if_pos hp
    · by_cases hwait : s.state task = .waitingForLock ∧ s.waitingFor task = some q
      · have hmem : task ∈ L (.queue (.waiting q)) :=
          (hi.placed.settled task hlive).listed _ (by simp only [Kernel.placeOf, hwait.1, hwait.2, Option.map_some]) (by simp)
        have heq : h.next s (.exec ok) q = .leave task :: h q := by
          have : semEvent s q (.exec ok) = some (.leave task) := by
            simp only [semEvent, hc]
            exact if_pos ⟨hp, hwait⟩
          rw [Histories.next, this]
          rfl
        refine ⟨?_, .inr ⟨task, heq, by rw [hq]; exact hmem⟩⟩
        rw [heq, hw, hmove, killMove_unprotected hp]
        show (Lib.Permits.queue (h q)).erase task = _
        rw [hq]
      · refine hquiet (semEvent_eq_none rfl ?_) ?_
        · rintro ok p' task' k' - hc'
          rw [hc] at hc'
          cases hc'
          by_cases h1 : s.state task = .waitingForLock
          · exact .inr (.inr fun h2 => hwait ⟨h1, h2⟩)
          · exact .inr (.inl h1)
        · rw [hmove, killMove_unprotected hp]
          exact List.erase_of_not_mem fun hm => hwait (hi.placed.state_of_waiting hm)
  · refine hquiet (semEvent_eq_none hact fun ok p task k he hc => absurd ⟨ok, p, task, k, he, hc⟩ hkill) ?_
    exact waitMove_waiting hact (fun ok p task k he hc => hkill ⟨ok, p, task, k, he, hc⟩) _

theorem Next.other_semaphore {q' : Sid} (hn : Next s L act s' L')
    (hact : act = .call (.acquireSemaphore q) ∨ act = .call (.releaseSemaphore q)) (hne : q' ≠ q) :
    semEvent s q' act = none ∧ L' (.queue (.waiting q')) = L (.queue (.waiting q')) := by
  rw [hn.waiting (.waiting q') (by simp)]
  rcases hact with rfl | rfl
  all_goals
    constructor
    · simp only [semEvent, if_neg (Ne.symm hne)]
    · rw [waitMove, WaitMove.on, update_of_ne (by simpa using hne)]
      rfl

/-- One history grows by an event; the others and their semaphores stay. -/
theorem SemOk.grow {e : Lib.Permits.Event Tid} (hok : SemOk s L h) (hq : q ∈ s.sems) (hev : semEvent s q act = some e)
    (hw : L' (.queue (.waiting q)) = Lib.Permits.queue (e :: h q))
    (hothers : ∀ q', q' ≠ q → semEvent s q' act = none ∧ L' (.queue (.waiting q')) = L (.queue (.waiting q')))
    (hsems : s'.sems = s.sems) (hmax : s'.maxCount = s.maxCount)
    (hcount : s'.currentCount = update s.currentCount q (Lib.Permits.count (e :: h q)))
    (ha : Lib.Permits.Allowed (s.maxCount q) (h q) e) : SemOk s' L' (h.next s act) := by
  have hself : h.next s act q = e :: h q := by rw [Histories.next, hev]; rfl
  have hother : ∀ q', q' ≠ q → h.next s act q' = h q' := fun q' hne => by rw [Histories.next, (hothers q' hne).1]; rfl
  refine ⟨fun q' => ?_, fun q' hq' => ?_, fun q' hq' => ?_, fun q' hq' => ?_⟩
  · by_cases hne : q' = q
    · subst hne
      rw [hself, hw]
    · rw [hother q' hne, (hothers q' hne).2]
      exact hok.queue q'
  · rw [hsems] at hq'
    by_cases hne : q' = q
    · subst hne
      rw [hself, hcount, update_self]
    · rw [hother q' hne, hcount, update_of_ne hne]
      exact hok.count q' hq'
  · rw [hsems] at hq'
    rw [hmax]
    by_cases hne : q' = q
    · subst hne
      rw [hself]
      exact .cons (hok.lawful q' hq') ha
    · rw [hother q' hne]
      exact hok.lawful q' hq'
  · rw [hsems] at hq'
    rw [hother q' (fun he => hq' (he ▸ hq))]
    exact hok.unused q' hq'

theorem SemOk.acquire_step (hi : Inv s L) (hok : SemOk s L h) (hn : Next s L (.call (.acquireSemaphore q)) s' L')
    (hs : step s (.call (.acquireSemaphore q)) = some s') : SemOk s' L' (h.next s (.call (.acquireSemaphore q))) := by
  obtain ⟨k, hc, hfree, rfl⟩ := call_of_step hs
  obtain ⟨t, hact⟩ := hi.acting hc rfl
  have hq : q ∈ s.sems := by simpa [Op.addrFree] using hfree
  have hcount := hok.count q hq
  have hset := setup_acquireSemaphore (q := q) (k := .body :: k) hact.current
  have hmove := hn.waiting (.waiting q) (by simp)
  rw [waitMove, WaitMove.on, update_self] at hmove
  have hothers := fun q' (hne : q' ≠ q) => hn.other_semaphore (.inl rfl) hne
  have hunl : t ∉ L (.queue (.waiting q)) := hi.placed.unlisted_running hact.running _
  by_cases hlt : s.currentCount q < s.maxCount q
  · rw [if_pos hlt] at hset
    refine hok.grow (e := .take t) hq ?_ ?_ hothers (congrArg Setup.sems hset)
      (congrArg Setup.maxCount hset) ((congrArg Setup.currentCount hset).trans ?_)
      (show Lib.Permits.count (h q) < s.maxCount q by rw [← hcount]; exact hlt)
    · simp only [semEvent, if_pos hlt, hact.current, if_true, Option.map_some]
    · rw [hmove, if_pos hlt]
      exact (hok.queue q).symm
    · show update s.currentCount q (s.currentCount q + 1) = _
      rw [hcount]
      congr 1
      simp only [Lib.Permits.count, Lib.Permits.granted, Lib.Permits.released]
      omega
  · rw [if_neg hlt] at hset
    refine hok.grow (e := .wait t) hq ?_ ?_ hothers (congrArg Setup.sems hset)
      (congrArg Setup.maxCount hset) ((congrArg Setup.currentCount hset).trans ?_)
      ⟨by rw [← hcount]; omega, by rw [hok.queue]; exact hunl⟩
    · simp only [semEvent, if_neg hlt, hact.current, if_true, Option.map_some]
    · rw [hmove, if_neg hlt, hact.current]
      show _ = Lib.Permits.queue (h q) ++ [t]
      rw [hok.queue q]
      rfl
    · rw [show Lib.Permits.count (.wait t :: h q) = Lib.Permits.count (h q) from rfl, ← hcount, update_eq_self]
      rfl

theorem SemOk.release_step (hi : Inv s L) (hok : SemOk s L h) (hn : Next s L (.call (.releaseSemaphore q)) s' L')
    (hs : step s (.call (.releaseSemaphore q)) = some s') : SemOk s' L' (h.next s (.call (.releaseSemaphore q))) := by
  obtain ⟨k, hc, hfree, rfl⟩ := call_of_step hs
  obtain ⟨t, hact⟩ := hi.acting hc rfl
  have hq : q ∈ s.sems := by simpa [Op.addrFree] using hfree
  have hcount := hok.count q hq
  have hset := setup_releaseSemaphore (s := s) (q := q) (k := .body :: k)
  have hhead : (s.waiters q).first = (L (.queue (.waiting q))).head? := (hi.placed.lists.queue (.waiting q)).seg.head
  -- the queue of `q` loses its head
  have hmove := hn.waiting (.waiting q) (by simp)
  rw [waitMove, WaitMove.on, update_self] at hmove
  have hothers := fun q' (hne : q' ≠ q) => hn.other_semaphore (.inr rfl) hne
  cases hl : L (.queue (.waiting q)) with
  | nil =>
    rw [hl, List.head?_nil] at hhead
    rw [if_pos hhead] at hset
    have hempty : Lib.Permits.queue (h q) = [] := (hok.queue q).trans hl
    refine hok.grow (e := .give t) hq ?_ ?_ hothers (congrArg Setup.sems hset)
      (congrArg Setup.maxCount hset) ((congrArg Setup.currentCount hset).trans ?_) hempty
    · simp only [semEvent, hhead, hact.current, if_true, Option.map_some]
    · rw [hmove, hl]
      exact hempty.symm
    · show update s.currentCount q (s.currentCount q - 1) = _
      rw [hcount]
      congr 1
      simp only [Lib.Permits.count, Lib.Permits.granted, Lib.Permits.released]
      omega
  | cons u l =>
    rw [hl, List.head?_cons] at hhead
    rw [if_neg (by rw [hhead]; simp)] at hset
    have hqueue : Lib.Permits.queue (h q) = u :: l := (hok.queue q).trans hl
    refine hok.grow (e := .handOff t u) hq ?_ ?_ hothers (congrArg Setup.sems hset)
      (congrArg Setup.maxCount hset) ((congrArg Setup.currentCount hset).trans ?_)
      (show (Lib.Permits.queue (h q)).head? = some u by rw [hqueue]; rfl)
    · simp only [semEvent, hhead, hact.current, if_true, Option.map_some]
    · rw [hmove, hl]
      show l = (Lib.Permits.queue (h q)).erase u
      rw [hqueue, List.erase_cons_head]
    · have hsame : Lib.Permits.count (.handOff t u :: h q) = Lib.Permits.count (h q) := by
        simp only [Lib.Permits.count, Lib.Permits.granted, Lib.Permits.released]
        omega
      rw [hsame, ← hcount, update_eq_self]
      rfl

theorem SemOk.create_step {max : Int} {addr : Option Sid} (hok : SemOk s L h)
    (hn : Next s L (.call (.createSemaphore max addr)) s' L') (hs : step s (.call (.createSemaphore max addr)) = some s') :
    SemOk s' L' (h.next s (.call (.createSemaphore max addr))) := by
  obtain ⟨k, hc, hfree, rfl⟩ := call_of_step hs
  have hnext : h.next s (.call (.createSemaphore max addr)) = h := rfl
  have hwait : ∀ q, L' (.queue (.waiting q)) = L (.queue (.waiting q)) := fun q => hn.waiting (.waiting q) (by simp)
  rw [hnext]
  cases addr with
  | none => exact ⟨fun q => (hok.queue q).trans (hwait q).symm, hok.count, hok.lawful, hok.unused⟩
  | some q₀ =>
    have hnew : q₀ ∉ s.sems := by simpa [Op.addrFree] using hfree
    have hcases : ∀ q, q ∈ q₀ :: s.sems → q = q₀ ∨ q ≠ q₀ ∧ q ∈ s.sems := by
      intro q hq
      by_cases hne : q = q₀
      · exact .inl hne
      · exact .inr ⟨hne, (List.mem_cons.1 hq).resolve_left hne⟩
    refine ⟨fun q => (hok.queue q).trans (hwait q).symm, fun q hq => ?_, fun q hq => ?_, fun q hq => ?_⟩
    · show update s.currentCount q₀ 0 q = _
      rcases hcases q hq with rfl | ⟨hne, hq⟩
      · rw [update_self, hok.unused q hnew]
        rfl
      · rw [update_of_ne hne]
        exact hok.count q hq
    · show Lawful (update s.maxCount q₀ max q) _
      rcases hcases q hq with rfl | ⟨hne, hq⟩
      · rw [hok.unused q hnew]
        exact .nil
      · rw [update_of_ne hne]
        exact hok.lawful q hq
    · exact hok.unused q fun hq' => hq (List.mem_cons_of_mem q₀ hq')

theorem semOk_step (hi : Inv s L) (hok : SemOk s L h) (hn : Next s L act s' L') (hs : step s act = some s') :
    SemOk s' L' (h.next s act) := by
  by_cases hact : act.onSemaphore = true
  · unfold Act.onSemaphore at hact
    split at hact
    · exact hok.create_step hn hs
    · exact hok.acquire_step hi hn hs
    · exact hok.release_step hi hn hs
    · cases hact
  · have hact : act.onSemaphore = false := by simpa using hact
    obtain ⟨hsems, hmax, hcount⟩ := (calm_step hi.balanced hs).setup.sems hact
    have hstep := hok.kill_step hi hn hact
    refine ⟨fun q => (hstep q).1, fun q hq => ?_, fun q hq => ?_, fun q hq => ?_⟩
    · rw [hsems] at hq
      rw [hcount, hok.count q hq]
      rcases (hstep q).2 with he | ⟨task, he, -⟩ <;> rw [he]
      rfl
    · rw [hsems] at hq
      rw [hmax]
      rcases (hstep q).2 with he | ⟨task, he, hm⟩ <;> rw [he]
      · exact hok.lawful q hq
      · exact .cons (hok.lawful q hq) hm
    · rw [hsems] at hq
      rcases (hstep q).2 with he | ⟨task, he, hm⟩
      · rw [he]
        exact hok.unused q hq
      · rw [hok.unused q hq] at hm
        cases hm

theorem semOk_start {b : Boot} (h : Starts b s) : SemOk s (bootLists b) fun _ => [] := by
  obtain ⟨f, -, rfl⟩ := h.eq
  exact ⟨fun _ => rfl, fun q hq => (by cases hq), fun q hq => (by cases hq), fun _ _ => rfl⟩

/-- What holds in every state of a run of whole operations. -/
def SemInv (x : Kernel × Histories) : Prop := ∃ L, Inv x.1 L ∧ OnTop x.1.core ∧ SemOk x.1 L x.2

theorem semInv_start {b : Boot} (h : Starts b s) : SemInv (s, fun _ => []) :=
  ⟨_, inv_start h, onTop_start h, semOk_start h⟩

theorem semInv_step {x y : Kernel × Histories} (h : SemInv x) (hwhole : WholeOps x.1 act) (hs : historyStep x act = some y) :
    SemInv y := by
  obtain ⟨L, hi, ht, hok⟩ := h
  obtain ⟨s', hstep, rfl⟩ := Option.map_eq_some_iff.1 hs
  obtain ⟨L', hn⟩ := inv_step hi hstep ht.safe
  exact ⟨L', hn.inv, onTop_step hi.balanced hi.clean ht hwhole hstep, semOk_step hi hok hn hstep⟩

theorem ready_of_handOff {giver u : Tid} (hs : step s act = some s')
    (he : semEvent s q act = some (.handOff giver u)) : s'.state u = .ready := by
  unfold semEvent at he
  split at he
  · split at he
    · obtain ⟨t, -, he⟩ := Option.map_eq_some_iff.1 he
      split at he <;> cases he
    · cases he
  · rename_i q'
    obtain ⟨k, hc, -, rfl⟩ := call_of_step hs
    have hfirst := first_semPop (lockStuff s) q'
    split at he
    · rename_i heq
      subst heq
      obtain ⟨t, -, he⟩ := Option.map_eq_some_iff.1 he
      split at he
      · rename_i x hx
        cases he
        rw [show ((lockStuff s).waiters q').first = some u from hx] at hfirst
        show (releaseSemaphore q' (.body :: k) s).state u = .ready
        unfold releaseSemaphore
        dsimp only
        split
        · rename_i task s₁ hpop
          rw [hpop] at hfirst
          cases hfirst
          show (unblockTask u s₁).state u = .ready
          rw [state_unblockTask, update_self]
        · rename_i hpop
          rw [hpop] at hfirst
          cases hfirst
      · cases he
    · cases he
  · split at he
    · split at he <;> cases he
    · cases he
  · cases he

/-- **Semaphores.** In every state of every run of whole operations, for every semaphore with a maximum that is not
negative: permits granted less permits released are `current_count`, which is at most `max_count` and, with fewer than
`2 ^ 31` releases, no `int` overflow away from it; a task is on the wait queue iff it waits for this semaphore, in the
order of the history, and then every permit is out; whoever is handed a permit is made READY, no earlier waiter is
still waiting, and nobody is handed one twice for one wait; and if only holders release, a mutex has at most one holder. -/
theorem semaphores_are_fair (b : Boot) {s₀ : Kernel} (h₀ : Starts b s₀)
    (hr : Reach historyStep (fun x act => WholeOps x.1 act) (s₀, fun _ => []) (s, h)) (hq : q ∈ s.sems)
    (hmax : 0 ≤ s.maxCount q) :
    ((Lib.Permits.granted (h q) : Int) - Lib.Permits.released (h q) = s.currentCount q ∧ s.currentCount q ≤ s.maxCount q ∧
      (Lib.Permits.released (h q) < 2 ^ 31 → -2 ^ 31 < s.currentCount q)) ∧
    (∃ L, Lists s L ∧ L (.queue (.waiting q)) = Lib.Permits.queue (h q) ∧
      (L (.queue (.waiting q)) ≠ [] → s.currentCount q = s.maxCount q) ∧
      ∀ t ∈ s.tcbs, t ∈ L (.queue (.waiting q)) ↔ s.state t = .waitingForLock ∧ s.waitingFor t = some q) ∧
    (∀ act s' giver u, step s act = some s' → semEvent s q act = some (.handOff giver u) → s'.state u = .ready) ∧
    (∀ post mid mid' pre giver t u, h q = post ++ .handOff giver u :: (mid ++ .wait u :: (mid' ++ .wait t :: pre)) →
      ∃ e ∈ mid ++ mid', e.ends t) ∧
    (∀ post mid pre giver u e, h q = post ++ .handOff giver u :: (mid ++ e :: pre) → e.ends u → .wait u ∈ mid) ∧
    (s.maxCount q = 1 → OnlyHolders (h q) → (holders (h q)).length ≤ 1) := by
  obtain ⟨L, hi, -, hok⟩ : SemInv (s, h) := hr.invariant (semInv_start h₀) fun _ _ _ hx hok hs => semInv_step hx hok hs
  have hcount : s.currentCount q = Lib.Permits.count (h q) := hok.count q hq
  have hlaw : Lawful (s.maxCount q) (h q) := hok.lawful q hq
  have hqueue : Lib.Permits.queue (h q) = L (.queue (.waiting q)) := hok.queue q
  refine ⟨⟨hcount.symm, ?_, fun hrel => ?_⟩, ⟨L, hi.placed.lists, hqueue.symm, fun hne => ?_, fun t ht => ?_⟩,
    fun act s' giver u hs he => ready_of_handOff hs he, ?_, ?_, fun hone honly => ?_⟩
  · rw [hcount]
    exact hlaw.count_le hmax
  · have := Lib.Permits.neg_released_le (h q)
    omega
  · rw [hcount]
    exact hlaw.count_eq hmax (by rw [hqueue]; exact hne)
  · refine ⟨fun hm => hi.placed.state_of_waiting hm, fun ⟨hst, hw⟩ => ?_⟩
    exact (hi.placed.settled t ht).listed _ (by simp only [Kernel.placeOf, hst, hw, Option.map_some]) (by simp)
  · intro post mid mid' pre giver t u he
    exact Lawful.in_order (he ▸ hlaw)
  · intro post mid pre giver u e he hends
    exact Lawful.once (he ▸ hlaw) hends
  · have hlen := honly.length
    have := hlaw.count_le hmax
    omega

/-- The shell makes a mutex and a task, and takes the mutex; the task waits for it; the shell releases it. -/
def handOffRun : List Act :=
  oneTaskRun ++ .call (.createSemaphore 1 (some 0)) :: .call (.acquireSemaphore 0) :: goOn 2 ++ .call .yield :: goOn 11 ++
    .call (.acquireSemaphore 0) :: goOn 5 ++ [.call (.releaseSemaphore 0)]

theorem handOffRun_whole (x : Kernel × Histories) (act : Act) (ha : act ∈ handOffRun) : WholeOps x.1 act := by
  rintro rfl
  exact absurd ha (by simp [handOffRun, oneTaskRun, goOn])

theorem waiter_gets_mutex : ∃ s h, Reach historyStep (fun x act => WholeOps x.1 act) (bootState .sample, fun _ => []) (s, h) ∧
    h 0 = [.handOff 1 3, .wait 3, .take 1] ∧ s.currentCount 0 ≤ s.maxCount 0 ∧ (holders (h 0)).length ≤ 1 := by
  obtain ⟨⟨s, h⟩, hreach, hsems, hmax, hhist⟩ := Reach.exists_of_run historyStep (bootState .sample, fun _ => []) handOffRun
    handOffRun_whole (fun x => x.1.sems = [0] ∧ x.1.maxCount 0 = 1 ∧ x.2 0 = [.handOff 1 3, .wait 3, .take 1])
    (by decide +kernel)
  simp only at hhist
  have honly : OnlyHolders (h 0) := by
    rw [hhist]
    exact ⟨List.mem_singleton_self 1, trivial, trivial, trivial⟩
  obtain ⟨⟨-, hle, -⟩, -, -, -, -, hone⟩ :=
    semaphores_are_fair .sample (.inl rfl) hreach (q := 0) (by rw [hsems]; exact List.mem_singleton_self 0)
      (by rw [hmax]; decide)
  exact ⟨s, h, hreach, hhist, hle, hone hmax honly⟩

end Step

/-! ## Permits and death -/

/-- Only holders release, and no task ends while it has a permit. -/
structure KeepsPermits (x : Kernel × Histories) (act : Act) : Prop where
  release : ∀ q t, act = .call (.releaseSemaphore q) → x.1.currentTask = some t → t ∈ holders (x.2 q)
  death : ∀ q t, act.ends x.1 = some t → t ∉ holders (x.2 q)

structure HoldersLive (s : Kernel) (L : Place → List Tid) (h : Histories) : Prop where
  only : ∀ q, OnlyHolders (h q)
  live : ∀ q, ∀ t ∈ holders (h q), t ∈ s.tcbs ∧ ¬ Fresh s L t ∧ s.state t ≠ .dead

section Death

variable {s s' : Kernel} {L L' : Place → List Tid} {act : Act} {q : Sid} {t : Tid} {h : Histories}

/-- A task that has been created and is alive stays so, unless the step ends it. -/
theorem Next.alive (hi : Inv s L) (hn : Next s L act s' L') (hs : step s act = some s') (ht : t ∈ s.tcbs)
    (hf : ¬ Fresh s L t) (hd : s.state t ≠ .dead) (hend : act.ends s ≠ some t) :
    t ∈ s'.tcbs ∧ ¬ Fresh s' L' t ∧ s'.state t ≠ .dead := by
  refine ⟨hi.live_step hn.registry ht hf hd, hn.not_fresh hi hs ht hf, ?_⟩
  · intro hd'
    cases (calm_step hi.balanced hs).state t with
    | same he => exact hd (he ▸ hd')
    | ready he => rw [he] at hd'; cases hd'
    | running he => rw [he] at hd'; cases hd'
    | blocks _ _ he => rcases he with he | he <;> rw [he] at hd' <;> cases hd'
    | parks _ _ he => rw [he] at hd'; cases hd'
    | dies _ _ _ he _ => exact hend he
    | killed _ _ _ he _ => exact hend he

/-- Who has a permit after a step had one before it, or is the running task, or waited for it. -/
theorem holders_next (hi : Inv s L) (hq : t ∈ holders (h.next s act q)) (hold : t ∉ holders (h q)) :
    (s.currentTask = some t ∧ ∃ q', act = .call (.acquireSemaphore q')) ∨
      (t ∈ L (.queue (.waiting q)) ∧ ∃ q', act = .call (.releaseSemaphore q')) := by
  cases he : semEvent s q act with
  | none =>
    rw [Histories.next, he] at hq
    exact absurd hq hold
  | some e =>
    rw [Histories.next, he] at hq
    have hq : t ∈ holders (e :: h q) := hq
    unfold semEvent at he
    split at he
    · rename_i q'
      split at he
      · obtain ⟨u, hu, rfl⟩ := Option.map_eq_some_iff.1 he
        split at hq
        · rcases List.mem_cons.1 hq with rfl | hq
          · exact .inl ⟨hu, q', rfl⟩
          · exact absurd hq hold
        · exact absurd hq hold
      · cases he
    · rename_i q'
      split at he
      · rename_i hqq
        obtain ⟨u, hu, rfl⟩ := Option.map_eq_some_iff.1 he
        split at hq
        · rename_i x hx
          rcases List.mem_cons.1 hq with rfl | hq
          · refine .inr ⟨?_, q', rfl⟩
            have hhead := (hi.placed.lists.queue (.waiting q)).seg.head
            exact List.mem_of_mem_head? (hhead.symm.trans hx)
          · exact absurd (List.mem_of_mem_erase hq) hold
        · exact absurd (List.mem_of_mem_erase hq) hold
      · cases he
    · split at he
      · split at he
        · cases he
          exact absurd hq hold
        · cases he
      · cases he
    · cases he

theorem byHolder_of_keepsPermits {e : Lib.Permits.Event Tid} (hk : KeepsPermits (s, h) act) (he : semEvent s q act = some e) :
    Lib.Permits.ByHolder (h q) e := by
  unfold semEvent at he
  split at he
  · split at he
    · obtain ⟨u, hu, rfl⟩ := Option.map_eq_some_iff.1 he
      split <;> trivial
    · cases he
  · rename_i q'
    split at he
    · rename_i hqq
      subst hqq
      obtain ⟨u, hu, rfl⟩ := Option.map_eq_some_iff.1 he
      split
      · exact hk.release q' u rfl hu
      · exact hk.release q' u rfl hu
    · cases he
  · split at he
    · split at he
      · cases he
        trivial
      · cases he
    · cases he
  · cases he

theorem holdersLive_step (hi : Inv s L) (hl : HoldersLive s L h) (hn : Next s L act s' L') (hs : step s act = some s')
    (hk : KeepsPermits (s, h) act) : HoldersLive s' L' (h.next s act) := by
  refine ⟨fun q => ?_, fun q t ht => ?_⟩
  · cases he : semEvent s q act with
    | none =>
      rw [Histories.next, he]
      exact hl.only q
    | some e =>
      rw [Histories.next, he]
      exact ⟨byHolder_of_keepsPermits hk he, hl.only q⟩
  · by_cases hold : t ∈ holders (h q)
    · obtain ⟨h1, h2, h3⟩ := hl.live q t hold
      exact hn.alive hi hs h1 h2 h3 fun hend => hk.death q t hend hold
    · rcases holders_next hi ht hold with ⟨hcur, q', rfl⟩ | ⟨hw, q', rfl⟩
      · obtain ⟨k, hc, -, -⟩ := call_of_step hs
        obtain ⟨u, hact⟩ := hi.acting hc rfl
        cases Option.some.inj (hcur.symm.trans hact.current)
        refine hn.alive hi hs hact.live (fun hf => ?_) (by rw [hact.running]; decide) (by simp [Act.ends])
        exact absurd (hact.running.symm.trans hf.ready) (by decide)
      · have hst := (hi.placed.state_of_waiting hw).1
        refine hn.alive hi hs (hi.placed.live _ t hw) (fun hf => hf.unlisted _ hw) (by rw [hst]; decide) (by simp [Act.ends])

/-- **Permits come back.** In every run of whole operations in which only holders release and no task ends while it has a
permit: when no live task has a permit of a semaphore or waits for one, its count is 0. -/
theorem permits_survive (b : Boot) {s₀ : Kernel} (h₀ : Starts b s₀)
    (hr : Reach historyStep (fun x act => WholeOps x.1 act ∧ KeepsPermits x act) (s₀, fun _ => []) (s, h))
    (hq : q ∈ s.sems)
    (hnone : ∀ t, t ∈ holders (h q) ∨ t ∈ Lib.Permits.queue (h q) → ¬ (t ∈ s.tcbs ∧ s.state t ≠ .dead)) :
    s.currentCount q = 0 := by
  obtain ⟨L, -, -, hok, hl⟩ : ∃ L, Inv s L ∧ OnTop s.core ∧ SemOk s L h ∧ HoldersLive s L h := by
    refine hr.invariant (P := fun x => ∃ L, Inv x.1 L ∧ OnTop x.1.core ∧ SemOk x.1 L x.2 ∧ HoldersLive x.1 L x.2) ?_ ?_
    · exact ⟨_, inv_start h₀, onTop_start h₀, semOk_start h₀, fun _ => trivial, fun _ t ht => by cases ht⟩
    · rintro ⟨s, h⟩ act x' ⟨L, hi, ht, hok, hl⟩ ⟨hwhole, hk⟩ hs
      obtain ⟨s', hs', rfl⟩ := Option.map_eq_some_iff.1 hs
      have hs : step s act = some s' := hs'
      obtain ⟨L', hn⟩ := inv_step hi hs ht.safe
      exact ⟨L', hn.inv, onTop_step hi.balanced hi.clean ht hwhole hs, semOk_step hi hok hn hs,
        holdersLive_step hi hl hn hs hk⟩
  have hempty : holders (h q) = [] := by
    refine List.eq_nil_iff_forall_not_mem.2 fun t ht => hnone t (.inl ht) ?_
    obtain ⟨h1, -, h3⟩ := hl.live q t ht
    exact ⟨h1, h3⟩
  rw [hok.count q hq, ← (hl.only q).length, hempty]
  rfl

/-- The shell has a mutex for which a task waits. It kills the task and gives the mutex back. -/
def mutexRun : List Act :=
  oneTaskRun ++ .call (.createSemaphore 1 (some 0)) :: .call (.acquireSemaphore 0) :: goOn 2 ++ .call .yield :: goOn 11 ++
    .call (.acquireSemaphore 0) :: goOn 5 ++ .call (.killTaskByPid 3) :: goOn 4 ++ [.call (.releaseSemaphore 0)]

/-- A test for runs without interrupts in which only holders release and no task ends with a permit. -/
def keepsMutex (x : Kernel × Histories) : Act → Bool
  | .timerIrq => false
  | .call (.releaseSemaphore q) => x.1.currentTask.all fun t => t ∈ holders (x.2 q)
  | act => (act.ends x.1).all fun t => x.1.sems.all fun q => t ∉ holders (x.2 q)

theorem keepsMutex_spec (x : Kernel × Histories) (act : Act) (hk : keepsMutex x act = true) :
    WholeOps x.1 act ∧ (SemInv x → KeepsPermits x act) := by
  refine ⟨?_, fun ⟨_, _, _, hok⟩ => ⟨?_, ?_⟩⟩
  · rintro rfl
    cases hk
  · rintro q t rfl ht
    simpa [keepsMutex, ht] using hk
  · intro q t hend hm
    by_cases hq : q ∈ x.1.sems
    · unfold keepsMutex at hk
      split at hk
      · cases hk
      · cases hend
      · rw [hend] at hk
        exact of_decide_eq_true (List.all_eq_true.1 hk q hq) hm
    · rw [hok.unused q hq] at hm
      cases hm

theorem mutex_comes_back : ∃ s h, Reach historyStep (fun x act => WholeOps x.1 act ∧ KeepsPermits x act)
    (bootState .sample, fun _ => []) (s, h) ∧ h 0 = [.give 1, .leave 3, .wait 3, .take 1] ∧ s.state 3 = .dead ∧
    s.currentCount 0 = 0 := by
  obtain ⟨⟨s, h⟩, hr, hsems, hdead, hhist⟩ := Reach.exists_of_checked historyStep (bootState .sample, fun _ => []) mutexRun
    keepsMutex_spec (fun x => x.1.sems = [0] ∧ x.1.state 3 = .dead ∧ x.2 0 = [.give 1, .leave 3, .wait 3, .take 1])
    (by decide +kernel)
  simp only at hhist
  have hreach : Reach historyStep (fun x act => WholeOps x.1 act ∧ KeepsPermits x act) (bootState .sample, fun _ => [])
    (s, h) :=
    (hr.strengthen (semInv_start (.inl rfl)) (fun _ _ _ hx hok hs => semInv_step hx hok.1 hs)
      fun _ _ hx hok => ⟨hok.1, hok.2 hx⟩).1
  refine ⟨s, h, hreach, hhist, hdead, permits_survive .sample (.inl rfl) hreach (q := 0) ?_ ?_⟩
  · rw [hsems]
    exact List.mem_singleton_self 0
  · rw [hhist]
    rintro t (ht | ht) <;> cases ht

/-- The task that was handed the mutex is killed by the shell before it is dispatched. -/
def killWaiterRun : List Act :=
  goOn 2 ++ [.call (.killTaskByPid 3)] ++ goOn 4

/-- **A permit is lost.** The shell releases a mutex, which hands it to a task that waited for it. The task is READY and still
inside `acquire_semaphore` when the shell kills it. Nobody alive holds the mutex or waits for it, and its count stays 1. -/
theorem killed_with_permit : ∃ s s' h h', Reach historyStep (fun x act => WholeOps x.1 act) (bootState .sample, fun _ => [])
      (s, h) ∧ h 0 = [.handOff 1 3, .wait 3, .take 1] ∧ OnlyHolders (h 0) ∧
    s.state 3 = .ready ∧ s.stack 3 = [.unlockStuffTail, .body] ∧
    killWaiterRun.foldlM historyStep (s, h) = some (s', h') ∧ s'.control = [.body] ∧ h' 0 = h 0 ∧
    (∀ t, t ∈ holders (h' 0) ∨ t ∈ Lib.Permits.queue (h' 0) → ¬ (t ∈ s'.tcbs ∧ s'.state t ≠ .dead)) ∧
    0 ∈ s'.sems ∧ s'.currentCount 0 = 1 := by
  have hrun : (handOffRun.foldlM historyStep (bootState .sample, fun _ => [])).map (fun x =>
      (x.1.state 3, x.1.stack 3, x.2 0)) = some (.ready, [.unlockStuffTail, .body], [.handOff 1 3, .wait 3, .take 1]) := by
    decide +kernel
  have hkill : ((handOffRun ++ killWaiterRun).foldlM historyStep (bootState .sample, fun _ => [])).map (fun x =>
      ((x.1.state 3, x.1.control), (x.1.sems, x.1.currentCount 0), x.2 0)) =
      some ((.dead, [.body]), ([0], 1), [.handOff 1 3, .wait 3, .take 1]) := by
    decide +kernel
  obtain ⟨⟨s, h⟩, hs, he⟩ := Option.map_eq_some_iff.1 hrun
  obtain ⟨⟨s', h'⟩, hs', he'⟩ := Option.map_eq_some_iff.1 hkill
  rw [List.foldlM_append, hs] at hs'
  simp only [Prod.mk.injEq] at he he'
  obtain ⟨hstate, hstack, hhist⟩ := he
  obtain ⟨⟨hdead, hctl⟩, ⟨hsems, hcount⟩, hhist'⟩ := he'
  refine ⟨s, s', h, h', .of_foldlM _ _ _ .refl handOffRun_whole hs, hhist, ?_, hstate, hstack, hs', hctl,
    hhist'.trans hhist.symm, ?_, ?_, hcount⟩
  · rw [hhist]
    exact ⟨List.mem_singleton_self 1, trivial, trivial, trivial⟩
  · rw [hhist']
    rintro t (ht | ht) ⟨-, hlive⟩
    · -- the mutex went from the shell to the task
      have ht : t ∈ [3] := ht
      exact hlive (List.mem_singleton.1 ht ▸ hdead)
    · cases ht
  · rw [hsems]
    exact List.mem_singleton_self 0

end Death

end ToastOS.Task
