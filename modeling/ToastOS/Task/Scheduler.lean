import Mathlib.Data.List.Nodup
import ToastOS.Task.PlacementStep

/-!
# The scheduler places every task where its state says

Here the operations of `task.c` run without interruption up to the point where they block or return (`WholeOps`). Then
a task is in the middle of `kill_task_by_pid` or `task_create_internal` only while it runs, so the steps are safe, and
a task that is READY but not queued is the one being created.
-/

namespace ToastOS.Task

open ToastOS.Lib (Queue Reach Any checked)

/-- The timer does not strike between two sections of `kill_task_by_pid` or `task_create_internal`. -/
def WholeOps (s : Kernel) (act : Act) : Prop := act = .timerIrq → ∀ f k, s.control = f :: k → f.isPart = false

/-- Only the running task can be between two sections. -/
def OnTop (c : Core) : Prop := ∀ u g, g ∈ c.stackOf u → g.isPart = true → u = c.onStack ∧ ∃ k, c.control = g :: k

section Whole

variable {s s' : Kernel} {L L' : Place → List Tid} {act : Act} {f : Frame} {k : List Frame}

theorem acts_of_wholeOps (hok : WholeOps s act) (hc : s.control = f :: k) (hf : f.isPart = true) : Acts s act := by
  refine ⟨⟨f, k, hc, Frame.outside_of_isPart hf⟩, ?_⟩
  cases act with
  | timerIrq => exact absurd hf (by rw [hok rfl f k hc]; decide)
  | _ => trivial

theorem onTop_step (hb : Balanced s.core) (hcl : CleanStacks s.core) (h : OnTop s.core) (hok : WholeOps s act)
    (hs : step s act = some s') : OnTop s'.core := by
  have hp := parts_step hb hcl hs
  -- a part frame was on top of the running stack, and then its task acts
  have hold : ∀ u g, g ∈ s.core.stackOf u → g.isPart = true → u = s.onStack ∧ Acts s act := by
    intro u g hg hpart
    obtain ⟨hu, k, hc⟩ := h u g hg hpart
    exact ⟨hu, acts_of_wholeOps hok hc hpart⟩
  intro u g hg hpart
  by_cases hu : u = s.onStack
  · by_cases ha : Acts s act
    · obtain ⟨hon, htop⟩ := hp.top ha
      have hue : u = s'.core.onStack := hu.trans hon.symm
      refine ⟨hue, htop g ?_ hpart⟩
      rwa [hue, stackOf_onStack] at hg
    · have hm := hp.waits ha g (hu ▸ hg) hpart
      exact absurd (hold s.onStack g ((stackOf_onStack s.core).symm ▸ hm) hpart).2 ha
  · exact absurd (hold u g (hp.others u g hu hg hpart) hpart).1 hu

theorem OnTop.safe (h : OnTop s.core) : Safe s act := by
  constructor
  · intro ok k _ hc u p t hu
    obtain ⟨-, k', hc'⟩ := h u _ hu.mem hu.part
    rw [show s.core.control = s.control from rfl, hc] at hc'
    cases hc'
  · intro ok p t k _ hc u hu
    obtain ⟨-, k', hc'⟩ := h u _ hu.mem hu.part
    rw [show s.core.control = s.control from rfl, hc] at hc'
    cases hc'

/-- Every READY task is queued, but for the one being created. -/
def Queued (s : Kernel) (L : Place → List Tid) : Prop := ∀ t, Fresh s L t → ∃ g k, s.control = g :: k ∧ g.creates = some t

theorem queued_step (h : Queued s L) (hok : WholeOps s act) (hn : Next s L act s' L') : Queued s' L' := by
  intro t ht
  rcases hn.fresh t ht with ⟨hf, hne⟩ | hnew
  · obtain ⟨g, k, hc, hg⟩ := h t hf
    exact absurd hg (hne g k hc (acts_of_wholeOps hok hc (Frame.isPart_of_creates hg)))
  · exact hnew

theorem onTop_start {b : Boot} (h : Starts b s) : OnTop s.core := fun u g hg hp =>
  absurd hp (by rw [noPart_start h u g hg]; decide)

theorem queued_start {b : Boot} (h : Starts b s) : Queued s (bootLists b) := by
  obtain ⟨f, -, rfl⟩ := h.eq
  intro t ht
  have hl : t ∈ [b.reaper, b.shell, b.boot] := ht.live
  simp only [List.mem_cons, List.not_mem_nil, or_false] at hl
  have hnr : t ∉ [b.shell, b.reaper] := ht.unlisted (.queue .ready)
  rcases hl with rfl | rfl | rfl
  · exact absurd (by simp) hnr
  · exact absurd (by simp) hnr
  · have hr : (if b.boot = b.boot then TaskState.running else .ready) = .ready := ht.ready
    rw [if_pos rfl] at hr; cases hr

/-- What holds in every state of a run of whole operations. -/
theorem queued_of_reach {b : Boot} {s₀ : Kernel} (h₀ : Starts b s₀) (h : Reach step WholeOps s₀ s) :
    ∃ L, Inv s L ∧ OnTop s.core ∧ Queued s L :=
  h.invariant (P := fun s => ∃ L, Inv s L ∧ OnTop s.core ∧ Queued s L)
    ⟨_, inv_start h₀, onTop_start h₀, queued_start h₀⟩ fun s act s' ⟨L, hi, ht, hq⟩ hok hs => by
      obtain ⟨L', hn⟩ := inv_step hi hs ht.safe
      exact ⟨L', hn.inv, onTop_step hi.balanced hi.clean ht hok hs, queued_step hq hok hn⟩

/-- Whole operations are safe, also where something is recorded beside the machine. -/
theorem reach_safe {γ : Type} {b : Boot} {s₀ : Kernel} {g : Kernel × γ → Act → Option (Kernel × γ)}
    {ok : Kernel × γ → Act → Prop} {c : γ} {x : Kernel × γ} (h₀ : Starts b s₀)
    (hg : ∀ x act y, g x act = some y → step x.1 act = some y.1)
    (h : Reach g (fun x act => WholeOps x.1 act ∧ ok x act) (s₀, c) x) :
    Reach g (fun x act => Safe x.1 act ∧ ok x act) (s₀, c) x :=
  (h.strengthen (P := fun x => ∃ L, Inv x.1 L ∧ OnTop x.1.core) ⟨_, inv_start h₀, onTop_start h₀⟩
    (fun x act y ⟨L, hi, ht⟩ hok hs => by
      obtain ⟨L', hn⟩ := inv_step hi (hg x act y hs) ht.safe
      exact ⟨L', hn.inv, onTop_step hi.balanced hi.clean ht hok.1 (hg x act y hs)⟩)
    (fun x act ⟨_, _, ht⟩ hok => ⟨ht.safe, hok.2⟩)).1

/-- A task is on the list `p` once and on no other. -/
def OnceOn (L : Place → List Tid) (t : Tid) (p : Place) : Prop := ∀ q, (L q).count t = if q = p then 1 else 0

/-- No scheduler lock is held: outside every section, or in the idle loop, which keeps one `lock_schedule`. -/
def Unlocked (s : Kernel) : Prop := s.irqDisable = if s.currentTask = none then 1 else 0

theorem onceOn_iff (h : Lists s L) (t : Tid) (p : Place) : OnceOn L t p ↔ t ∈ L p := by
  constructor
  · intro ho
    apply List.count_pos_iff.1
    rw [ho p, if_pos rfl]
    exact Nat.one_pos
  · intro ht q
    split
    · rename_i hq
      rw [hq]; exact List.count_eq_one_of_mem (h.nodup p) ht
    · rename_i hq
      apply List.count_eq_zero_of_not_mem
      intro htq
      exact hq (h.apart q p t htq ht)

/-- **Placement.** In every state of every run of whole operations in which no scheduler lock is held, with `L` the
tasks that the pointers and links of each list run through: every listed task is allocated, and every allocated task is
in exactly the one place its state names. In the idle loop no task is RUNNING. -/
theorem every_task_in_its_place (b : Boot) {s₀ : Kernel} (h₀ : Starts b s₀) (h : Reach step WholeOps s₀ s)
    (hfree : Unlocked s) (hwhole : ∀ f k, s.control = f :: k → f.isPart = false) :
    ∃ L : Place → List Tid, Lists s L ∧ (∀ p, ∀ t ∈ L p, t ∈ s.tcbs) ∧
      (s.currentTask = none → ∀ t, s.state t ≠ .running) ∧
      ∀ t ∈ s.tcbs,
        (s.state t = .running ↔ s.currentTask = some t ∧ ∀ p, t ∉ L p) ∧
        (s.state t = .ready ↔ OnceOn L t (.queue .ready)) ∧
        (s.state t = .sleeping ↔ OnceOn L t (.queue .sleeping)) ∧
        (s.state t = .waitingForLock ↔ ∃ q, s.waitingFor t = some q ∧ OnceOn L t (.queue (.waiting q))) ∧
        (∀ q, t ∈ L (.queue (.waiting q)) → s.state t = .waitingForLock ∧ s.waitingFor t = some q) ∧
        (s.state t = .dead ↔ OnceOn L t .terminated) ∧
        ((s.state t = .paused ∨ s.state t = .blocked) ↔ s.currentTask ≠ some t ∧ ∀ p, t ∉ L p) := by
  obtain ⟨L, hi, -, hq⟩ := queued_of_reach h₀ h
  have hpl := hi.placed
  have hfresh : ∀ t, ¬ Fresh s L t := by
    intro t ht
    obtain ⟨g, k, hc, hg⟩ := hq t ht
    exact absurd (Frame.isPart_of_creates hg) (by rw [hwhole g k hc]; decide)
  have hrun : ∀ t, s.currentTask = some t → s.state t = .running := fun t ht => hi.running_of_base hfree ht
  refine ⟨L, hpl.lists, hpl.live, fun hn t ht => ?_, fun t ht => ?_⟩
  · exact Option.some_ne_none t ((hi.running t ht).symm.trans hn)
  have hset := hpl.settled t ht
  have hready : s.state t = .ready → t ∈ L (.queue .ready) := by
    intro hr
    by_contra hm
    refine hfresh t ⟨ht, hr, fun p hp => ?_⟩
    have hpo := hset.named p hp
    simp only [Kernel.placeOf, hr, Option.some_inj] at hpo
    exact hm (hpo ▸ hp)
  simp only [onceOn_iff hpl.lists]
  refine ⟨⟨fun hr => ⟨hi.running t hr, hpl.unlisted_running hr⟩, fun hc => hrun t hc.1⟩,
    ⟨hready, hpl.state_of_ready⟩,
    ⟨fun hs => hset.listed _ (by simp only [Kernel.placeOf, hs]) (by simp), hpl.state_of_sleeping⟩,
    ⟨fun hw => ?_, ?_⟩, fun q hm => hpl.state_of_waiting hm,
    ⟨fun hd => hset.listed _ (by simp only [Kernel.placeOf, hd]) (by simp), hpl.state_of_terminated⟩, ?_⟩
  · obtain ⟨q, -, hwf⟩ := hset.waits hw
    exact ⟨q, hwf, hset.listed _ (by simp only [Kernel.placeOf, hw, hwf, Option.map_some]) (by simp)⟩
  · rintro ⟨q, -, hm⟩
    exact (hpl.state_of_waiting hm).1
  · constructor
    · intro hp
      refine ⟨fun hc => ?_, hpl.unlisted ?_⟩
      · rw [hrun t hc] at hp
        rcases hp with hp | hp <;> cases hp
      · rcases hp with hp | hp <;> simp only [Kernel.placeOf, hp]
    · rintro ⟨hc, hun⟩
      -- every other state names the current task or a list
      cases hst : s.state t with
      | paused => exact .inl rfl
      | blocked => exact .inr rfl
      | running => exact absurd (hi.running t hst) hc
      | ready => exact absurd (hready hst) (hun _)
      | sleeping => exact absurd (hset.listed _ (by simp only [Kernel.placeOf, hst]) (by simp)) (hun (.queue .sleeping))
      | dead => exact absurd (hset.listed _ (by simp only [Kernel.placeOf, hst]) (by simp)) (hun .terminated)
      | waitingForLock =>
        obtain ⟨q, -, hwf⟩ := hset.waits hst
        exact absurd (hset.listed _ (by simp only [Kernel.placeOf, hst, hwf, Option.map_some]) (by simp))
          (hun (.queue (.waiting q)))

/-- A test for runs of whole operations. -/
def isWhole (s : Kernel) (act : Act) : Bool :=
  match act, s.control with
  | .timerIrq, f :: _ => !f.isPart
  | _, _ => true

theorem isWhole_spec (s : Kernel) (act : Act) (h : isWhole s act = true) : WholeOps s act := by
  rintro rfl f k hc
  unfold isWhole at h
  rw [hc] at h
  simpa using h

/-- In the idle loop, on the stack of the boot task, the tick has made that task READY: it is queued, once, and nobody is
RUNNING. The shell sleeps on, and the reaper is on no list. -/
theorem parked_task_queued_by_tick : ∃ s, Reach step WholeOps (freeBoot .sample) s ∧
    s.control = [.idle 0, .unlockStuffTail, .body] ∧ s.currentTask = none ∧ (∀ t, s.state t ≠ .running) ∧
    ∃ L, Lists s L ∧ OnceOn L 0 (.queue .ready) ∧ OnceOn L 1 (.queue .sleeping) ∧ ∀ p, 2 ∉ L p := by
  obtain ⟨s, hr, ⟨hc, hcur, hirq, htcbs⟩, h0, h1, h2⟩ := Reach.exists_of_checked step (freeBoot .sample)
    (parkedRun ++ goOn 7) isWhole_spec (fun s => (s.control = [.idle 0, .unlockStuffTail, .body] ∧ s.currentTask = none ∧
      s.irqDisable = 1 ∧ s.tcbs = [2, 1, 0]) ∧ s.state 0 = .ready ∧ s.state 1 = .sleeping ∧ s.state 2 = .paused)
    (by decide +kernel)
  have hfree : Unlocked s := hirq.trans (if_pos hcur).symm
  obtain ⟨L, hL, -, hnone, hplace⟩ := every_task_in_its_place .sample (.inr rfl) hr hfree fun f k hk => by
    cases hc.symm.trans hk
    rfl
  have hlive : ∀ t < 3, t ∈ s.tcbs := by rw [htcbs]; decide
  exact ⟨s, hr, hc, hcur, hnone hcur, L, hL, (hplace 0 (hlive 0 (by decide))).2.1.1 h0,
    (hplace 1 (hlive 1 (by decide))).2.2.1.1 h1, ((hplace 2 (hlive 2 (by decide))).2.2.2.2.2.2.1 (.inl h2)).2⟩

end Whole

end ToastOS.Task
