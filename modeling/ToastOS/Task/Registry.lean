import ToastOS.Task.Races

/-!
# The pid registry

Three structures are updated at different moments of a creation, a failed creation and a reaping: the slot array, the list
of released pids and the high-water mark. `PidsOk s n` says how they fit together after `n` creations; with
`Registered` it gives the registry's contract (`pid_registry_correct`) for runs of whole operations.
-/

namespace ToastOS.Task

open ToastOS.Lib (Reach Any checked)
open Function

/-- A step, with the number of task creations so far. -/
def countedStep (x : Kernel × Nat) (act : Act) : Option (Kernel × Nat) :=
  (step x.1 act).map fun s => (s, x.2 + if act.creates then 1 else 0)

structure PidsOk (s : Kernel) (n : Nat) : Prop where
  distinct : ∀ t ∈ s.tcbs, ∀ t' ∈ s.tcbs, s.pid t = s.pid t' → t = t'
  below : ∀ t ∈ s.tcbs, s.pid t < s.pids.nextPid
  freeNodup : s.pids.freePids.Nodup
  freeBelow : ∀ p ∈ s.pids.freePids, p < s.pids.nextPid
  freeUnused : ∀ p ∈ s.pids.freePids, ∀ t ∈ s.tcbs, s.pid t ≠ p
  count : s.pids.nextPid ≤ 3 + n

section Pids

variable {s s' : Kernel} {L L' : Place → List Tid} {act : Act} {n : Nat}

theorem PidsOk.mono (h : PidsOk s n) {m : Nat} (hm : n ≤ m) : PidsOk s m :=
  ⟨h.distinct, h.below, h.freeNodup, h.freeBelow, h.freeUnused, by have := h.count; omega⟩

theorem PidsOk.of_subset (h : PidsOk s n) (ht : ∀ t ∈ s'.tcbs, t ∈ s.tcbs) (hpid : s'.pid = s.pid)
    (hfree : s'.pids.freePids = s.pids.freePids) (hnext : s'.pids.nextPid = s.pids.nextPid) : PidsOk s' n := by
  refine ⟨?_, ?_, ?_, ?_, ?_, ?_⟩
  · intro t h1 t' h2 he
    rw [hpid] at he
    exact h.distinct t (ht t h1) t' (ht t' h2) he
  · intro t h1
    rw [hpid, hnext]; exact h.below t (ht t h1)
  · rw [hfree]; exact h.freeNodup
  · intro p hp
    rw [hfree] at hp
    rw [hnext]; exact h.freeBelow p hp
  · intro p hp t h1
    rw [hfree] at hp
    rw [hpid]; exact h.freeUnused p hp t (ht t h1)
  · rw [hnext]; exact h.count

theorem PidsOk.free {t : Tid} (h : PidsOk s n) (hlive : t ∈ s.tcbs)
    (ht : ∀ u ∈ s'.tcbs, u ∈ s.tcbs ∧ u ≠ t) (hpid : s'.pid = s.pid)
    (hfree : s'.pids.freePids = s.pid t :: s.pids.freePids) (hnext : s'.pids.nextPid = s.pids.nextPid) :
    PidsOk s' n := by
  refine ⟨?_, ?_, ?_, ?_, ?_, ?_⟩
  · intro u h1 u' h2 he
    rw [hpid] at he
    exact h.distinct u (ht u h1).1 u' (ht u' h2).1 he
  · intro u h1
    rw [hpid, hnext]; exact h.below u (ht u h1).1
  · rw [hfree]
    exact List.nodup_cons.2 ⟨fun hm => h.freeUnused _ hm t hlive rfl, h.freeNodup⟩
  · intro p hp
    rw [hfree] at hp
    rw [hnext]
    rcases List.mem_cons.1 hp with rfl | hp
    · exact h.below t hlive
    · exact h.freeBelow p hp
  · intro p hp u h1
    obtain ⟨hu, hut⟩ := ht u h1
    rw [hfree] at hp
    rw [hpid]
    rcases List.mem_cons.1 hp with rfl | hp
    · exact fun he => hut (h.distinct u hu t hlive he)
    · exact h.freeUnused p hp u hu
  · rw [hnext]; exact h.count

theorem PidsOk.release {t : Tid} {ok : Bool} {r : PidReg} (h : PidsOk s n) (hlive : t ∈ s.tcbs)
    (ht : ∀ u ∈ s'.tcbs, u ∈ s.tcbs ∧ u ≠ t) (hpid : s'.pid = s.pid) (hpids : s'.pids = pidRelease r (s.pid t) ok)
    (hr : r.freePids = s.pids.freePids ∧ r.nextPid = s.pids.nextPid) : PidsOk s' n := by
  cases ok with
  | false =>
    refine h.of_subset (fun u hu => (ht u hu).1) hpid ?_ ?_
    · rw [hpids]; exact hr.1
    · rw [hpids]; exact hr.2
  | true =>
    refine h.free hlive ht hpid ?_ ?_
    · rw [hpids, ← hr.1]; rfl
    · rw [hpids]; exact hr.2

theorem PidsOk.reap : ∀ (l : List (Tid × Bool)) (s : Kernel), PidsOk s n → (l.map Prod.fst).Nodup →
    (∀ x ∈ l, x.1 ∈ s.tcbs) → ∀ s', (∀ t, t ∈ s'.tcbs ↔ t ∈ s.tcbs ∧ t ∉ l.map Prod.fst) →
    s'.pids = reapPids s.pid l s.pids → s'.pid = s.pid → PidsOk s' n := by
  intro l
  induction l with
  | nil =>
    intro s h _ _ s' ht hpids hpid
    refine h.of_subset (fun t hm => ((ht t).1 hm).1) hpid ?_ ?_ <;> rw [hpids] <;> rfl
  | cons x l ih =>
    intro s h hn hl s' ht hpids hpid
    obtain ⟨hx, hn⟩ := List.nodup_cons.1 hn
    -- the state after the first one
    let s₁ : Kernel := { s with
      tcbs := s.tcbs.filter (· ≠ x.1)
      pids := pidRelease (pidTableRemove s.pids (s.pid x.1)) (s.pid x.1) x.2 }
    have h₁ : PidsOk s₁ n := by
      refine h.release (hl x List.mem_cons_self) ?_ rfl rfl ⟨rfl, rfl⟩
      intro u hu
      obtain ⟨h1, h2⟩ := List.mem_filter.1 hu
      exact ⟨h1, of_decide_eq_true h2⟩
    refine ih s₁ h₁ hn ?_ s' ?_ hpids hpid
    · intro y hy
      refine List.mem_filter.2 ⟨hl y (List.mem_cons_of_mem x hy), decide_eq_true ?_⟩
      intro he
      exact hx (he ▸ List.mem_map_of_mem hy)
    · intro t
      rw [ht, List.map_cons, List.mem_cons, not_or, List.mem_filter, decide_eq_true_iff]
      tauto

/-- The new pid is nobody's, and the rest of the free list and the mark are in order. -/
structure PidTaken (s : Kernel) (pid : Nat) (pids : PidReg) : Prop where
  unused : ∀ t ∈ s.tcbs, s.pid t ≠ pid
  below : pid < pids.nextPid
  notFree : pid ∉ pids.freePids
  free : ∀ p ∈ pids.freePids, p ∈ s.pids.freePids
  freeNodup : pids.freePids.Nodup
  mark_ge : s.pids.nextPid ≤ pids.nextPid
  mark_le : pids.nextPid ≤ s.pids.nextPid + 1

theorem PidsOk.pidAlloc (h : PidsOk s n) (hn : n < 2 ^ 32) : PidTaken s (pidAlloc s.pids).1 (pidAlloc s.pids).2 := by
  have hcount := h.count
  cases hl : s.pids.freePids with
  | nil =>
    have hu : u64 (s.pids.nextPid + 1) = s.pids.nextPid + 1 := u64_of_lt (by omega)
    simp only [Task.pidAlloc, hl, hu]
    exact ⟨fun t ht => Nat.ne_of_lt (h.below t ht), Nat.lt_succ_self _, by simp, by simp, by simp, Nat.le_succ _,
      Nat.le_refl _⟩
  | cons p ps =>
    have hmem : p ∈ s.pids.freePids := by
      rw [hl]
      exact List.mem_cons_self
    have hnd := h.freeNodup
    rw [hl] at hnd
    obtain ⟨hp, hps⟩ := List.nodup_cons.1 hnd
    simp only [Task.pidAlloc, hl]
    refine ⟨fun t ht => h.freeUnused p hmem t ht, h.freeBelow p hmem, hp, fun q hq => ?_, hps, Nat.le_refl _, Nat.le_succ _⟩
    rw [hl]
    exact List.mem_cons_of_mem p hq

theorem PidsOk.create {t : Tid} {pid : Nat} {pids : PidReg} (h : PidsOk s n) (hfree : t ∉ s.tcbs) (hnew : PidTaken s pid pids)
    (htcbs : s'.tcbs = t :: s.tcbs) (hpids : s'.pids = pids) (hpid : s'.pid = update s.pid t pid) : PidsOk s' (n + 1) := by
  have hpt : s'.pid t = pid := by rw [hpid, update_self]
  have hpo : ∀ u ∈ s.tcbs, s'.pid u = s.pid u := by
    intro u hu
    rw [hpid, update_of_ne (ne_of_mem_of_not_mem hu hfree)]
  have hcases : ∀ u ∈ s'.tcbs, u = t ∨ u ∈ s.tcbs := by
    intro u hu
    rw [htcbs] at hu
    exact List.mem_cons.1 hu
  subst hpids
  refine ⟨?_, ?_, hnew.freeNodup, ?_, ?_, ?_⟩
  · intro u hu u' hu' he
    rcases hcases u hu with rfl | h1 <;> rcases hcases u' hu' with rfl | h2
    · rfl
    · rw [hpt, hpo u' h2] at he
      exact absurd he.symm (hnew.unused u' h2)
    · rw [hpt, hpo u h1] at he
      exact absurd he (hnew.unused u h1)
    · rw [hpo u h1, hpo u' h2] at he
      exact h.distinct u h1 u' h2 he
  · intro u hu
    rcases hcases u hu with rfl | h1
    · rw [hpt]
      exact hnew.below
    · rw [hpo u h1]
      exact Nat.lt_of_lt_of_le (h.below u h1) hnew.mark_ge
  · intro p hp
    exact Nat.lt_of_lt_of_le (h.freeBelow p (hnew.free p hp)) hnew.mark_ge
  · intro p hp u hu
    rcases hcases u hu with rfl | h1
    · rw [hpt]
      rintro rfl
      exact hnew.notFree hp
    · rw [hpo u h1]
      exact h.freeUnused p (hnew.free p hp) u h1
  · have hcount := h.count
    have := hnew.mark_le
    omega

theorem pidsOk_step (h : PidsOk s n) (hi : Inv s L) (hreg : RegStep s act s') (hn : n < 2 ^ 32) :
    PidsOk s' (n + if act.creates then 1 else 0) := by
  have hmono : ∀ {s' : Kernel}, PidsOk s' n → PidsOk s' (n + if act.creates then 1 else 0) :=
    fun h => h.mono (Nat.le_add_right _ _)
  cases hreg with
  | same htcbs hpids hpid =>
    refine hmono (h.of_subset ?_ hpid ?_ ?_)
    · intro t ht
      rwa [htcbs] at ht
    · rw [hpids]
    · rw [hpids]
  | insert t ok _ htcbs hpids hpid _ =>
    refine hmono (h.of_subset ?_ hpid ?_ ?_)
    · intro t ht
      rwa [htcbs] at ht
    · rw [hpids]; rfl
    · rw [hpids]; rfl
  | release t ok hhead htcbs hpids hpid =>
    obtain ⟨k, hc⟩ := hhead
    have hf := hi.pending.create _ _ t (hi.pends_head hc rfl) rfl
    refine hmono (h.release hf.live ?_ hpid hpids ⟨rfl, rfl⟩)
    intro u hu
    rw [htcbs, mem_erase_tcbs hi.placed] at hu
    exact ⟨hu.2, hu.1⟩
  | reap l hnodup hdead _ htcbs hpids hpid =>
    exact hmono (PidsOk.reap l s h hnodup (fun x hx => (hdead x hx).1) s' htcbs hpids hpid)
  | create a hact hfree htcbs hpids hpid _ =>
    rw [hact, if_pos rfl]
    exact h.create hfree (h.pidAlloc hn) htcbs hpids hpid

theorem pidsOk_start {b : Boot} (h : Starts b s) : PidsOk s 0 := by
  obtain ⟨f, -, rfl⟩ := h.eq
  have hpid : ∀ t, (bootState b).pid t = if t = b.shell then 1 else if t = b.reaper then 2 else 0 := fun _ => rfl
  have hshell : (bootState b).pid b.shell = 1 := by rw [hpid, if_pos rfl]
  have hreaper : (bootState b).pid b.reaper = 2 := by rw [hpid, if_neg (Ne.symm b.shell_ne_reaper), if_pos rfl]
  have hboot : (bootState b).pid b.boot = 0 := by rw [hpid, if_neg b.boot_ne_shell, if_neg b.boot_ne_reaper]
  have hmem : ∀ t ∈ (bootState b).tcbs, t = b.reaper ∨ t = b.shell ∨ t = b.boot := by
    intro t ht
    have ht : t ∈ [b.reaper, b.shell, b.boot] := ht
    simpa using ht
  refine ⟨?_, ?_, List.nodup_nil, fun p hp => absurd hp List.not_mem_nil, fun p hp => absurd hp List.not_mem_nil,
    Nat.le_refl 3⟩
  · intro t ht t' ht' he
    have he : (bootState b).pid t = (bootState b).pid t' := he
    rcases hmem t ht with rfl | rfl | rfl <;> rcases hmem t' ht' with rfl | rfl | rfl <;>
      first | rfl | simp only [hshell, hreaper, hboot] at he; omega
  · intro t ht
    show (bootState b).pid t < 3
    rcases hmem t ht with rfl | rfl | rfl <;> simp only [hshell, hreaper, hboot] <;> omega

/-- The pid about to be registered is far below the sizes at which the table's arithmetic wraps. -/
theorem PidsOk.smallPids (h : PidsOk s n) (hi : Inv s L) (hn : n < 2 ^ 32) : SmallPids s act := by
  intro ok t k _ hc
  have hlive := (hi.pending.create _ _ t (hi.pends_head hc rfl) rfl).live
  have := h.below t hlive
  have := h.count
  omega

/-- What holds in every state of a run of whole operations with fewer than `2 ^ 32` creations. -/
theorem pidsOk_of_reach {b : Boot} {s₀ : Kernel} (h₀ : Starts b s₀)
    (h : Reach countedStep (fun x act => WholeOps x.1 act) (s₀, 0) (s, n)) (hn : n < 2 ^ 32) :
    ∃ L, Inv s L ∧ OnTop s.core ∧ Queued s L ∧ Registered s L ∧ PidsOk s n := by
  -- the count never falls, so the bound holds all along the run
  refine h.invariant (P := fun x => x.2 < 2 ^ 32 →
    ∃ L, Inv x.1 L ∧ OnTop x.1.core ∧ Queued x.1 L ∧ Registered x.1 L ∧ PidsOk x.1 x.2) ?_ ?_ hn
  · exact fun _ => ⟨_, inv_start h₀, onTop_start h₀, queued_start h₀, registered_start h₀, pidsOk_start h₀⟩
  · rintro ⟨s, n⟩ act x' ih hok hs hlt
    obtain ⟨s', hs', rfl⟩ := Option.map_eq_some_iff.1 hs
    have hs : step s act = some s' := hs'
    have hn : n < 2 ^ 32 := Nat.lt_of_le_of_lt (Nat.le_add_right _ _) hlt
    obtain ⟨L, hi, ht, hq, hr, hp⟩ := ih hn
    obtain ⟨L', hnext⟩ := inv_step hi hs ht.safe
    exact ⟨L', hnext.inv, onTop_step hi.balanced hi.clean ht hok hs, queued_step hq hok hnext,
      registered_step hr hi hnext hs (hp.smallPids hi hn), pidsOk_step hp hi hnext.registry hn⟩

end Pids

/-- **The pid registry.** In every state of every run of whole operations with fewer than `2 ^ 32` creations:
the pids of the allocated tasks are distinct; between operations a lookup of `p` gives `t` exactly when `t` is the
allocated task with pid `p`; growing the table, to any capacity whose size in bytes does not wrap, keeps every entry;
the free list has no duplicates, no pid of an allocated task and nothing at or above the mark; and
`task_create_internal` finds the slot of its pid empty, so that `pid_table_insert` fails only for lack of memory. -/
theorem pid_registry_correct (b : Boot) {s₀ s : Kernel} {n : Nat} (h₀ : Starts b s₀)
    (h : Reach countedStep (fun x act => WholeOps x.1 act) (s₀, 0) (s, n)) (hn : n < 2 ^ 32) :
    (∀ t ∈ s.tcbs, ∀ t' ∈ s.tcbs, s.pid t = s.pid t' → t = t') ∧
    ((∀ f k, s.control = f :: k → f.isPart = false) →
      ∀ p t, pidTableLookup s.pids p = some t ↔ t ∈ s.tcbs ∧ s.pid t = p) ∧
    (∀ m ok table, 8 * m < 2 ^ 64 → taskTableRealloc s.pids.table m ok = some table →
      ∀ p, taskTableGet table p = pidTableLookup s.pids p) ∧
    (s.pids.freePids.Nodup ∧ ∀ p ∈ s.pids.freePids, p < s.pids.nextPid ∧ ∀ t ∈ s.tcbs, s.pid t ≠ p) ∧
    (∀ t k ok, s.control = .createInsert t :: k → pidTableLookup s.pids (s.pid t) = none ∧
      ((pidTableInsert s.pids (s.pid t) t ok).1 = 0 ∨ s.pids.table.cap ≤ s.pid t ∧ ok = false) ∧
      ∀ p u, pidTableLookup s.pids p = some u →
        pidTableLookup (pidTableInsert s.pids (s.pid t) t ok).2 p = some u) := by
  obtain ⟨L, hi, -, hq, hr, hp⟩ := pidsOk_of_reach h₀ h hn
  refine ⟨hp.distinct, ?_, ?_, ⟨hp.freeNodup, fun p hm => ⟨hp.freeBelow p hm, hp.freeUnused p hm⟩⟩, ?_⟩
  · intro hwhole p t
    refine ⟨hi.known p t, ?_⟩
    rintro ⟨ht, rfl⟩
    apply hr.entry t ht
    intro hf
    obtain ⟨g, k, hc, hg⟩ := hq t hf
    exact absurd (Frame.isPart_of_creates hg) (by rw [hwhole g k hc]; decide)
  · intro m ok table hm ht
    exact (realloc_full ht hm hr.cap).2.2.2.2
  · intro t k ok hc
    have hpend : Pends s s.onStack (.createInsert t) := hi.pends_head hc rfl
    have hlive := (hi.pending.create _ _ t hpend rfl).live
    -- whoever is in the slot has the pid of `t`, so it would be `t`, which is in no slot yet
    have hempty : pidTableLookup s.pids (s.pid t) = none := by
      cases hl : pidTableLookup s.pids (s.pid t) with
      | none => rfl
      | some u =>
        obtain ⟨hu, hpid⟩ := hi.known _ u hl
        have : u = t := hp.distinct u hu t hlive hpid
        exact absurd (this ▸ hl) ((hi.pending.unknown _ _ t hpend rfl).1 _)
    have hsmall : s.pid t < 2 ^ 59 := hp.smallPids hi hn (fun _ => true) t k rfl hc
    obtain ⟨-, -, hcase⟩ := set_spec (p := s.pid t) (x := t) ok hr.full hr.cap hsmall
    refine ⟨hempty, ?_, ?_⟩
    · rcases hcase with ⟨h0, -, -⟩ | ⟨-, hne | hmem, -⟩
      · exact .inl h0
      · exact absurd hempty hne
      · exact .inr hmem
    · intro p u hl
      show taskTableGet (taskTableSet s.pids.table (s.pid t) t ok).2 p = some u
      rcases hcase with ⟨-, -, hget⟩ | ⟨-, -, hget⟩
      · rw [hget, if_neg]
        · exact hl
        · rintro rfl
          rw [hempty] at hl
          cases hl
      · rw [hget]; exact hl

/-- The shell creates a task, which exits and is reaped; the next task gets its pid. -/
def recycleRun : List Act :=
  oneTaskRun ++ .call .yield :: goOn 11 ++ .call .terminateTask :: goOn 6 ++ .call .yield :: goOn 11 ++
    .call (.createKernelTask (some 4) true) :: goOn 2

theorem recycled_pid_registered : ∃ s, Reach countedStep (fun x act => WholeOps x.1 act) (bootState .sample, 0) (s, 2) ∧
    4 ∈ s.tcbs ∧ 3 ∉ s.tcbs ∧ s.pid 4 = 3 ∧ pidTableLookup s.pids 3 = some 4 := by
  have hwhole (x : Kernel × Nat) (act : Act) (ha : act ∈ recycleRun) : WholeOps x.1 act := by
    rintro rfl
    exact absurd ha (by simp [recycleRun, oneTaskRun, goOn])
  obtain ⟨⟨s, n⟩, hreach, hc, hn, ht, hpid⟩ := Reach.exists_of_run countedStep (bootState .sample, 0) recycleRun hwhole
    (fun x => x.1.control = [.body] ∧ x.2 = 2 ∧ x.1.tcbs = [4, 2, 1, 0] ∧ x.1.pid 4 = 3) (by decide +kernel)
  obtain rfl : n = 2 := hn
  have hwhole : ∀ f k, s.control = f :: k → f.isPart = false := by
    intro f k hf
    rw [hc] at hf
    cases hf; rfl
  have h4 : 4 ∈ s.tcbs := by rw [ht]; decide
  refine ⟨s, hreach, h4, by rw [ht]; decide, hpid, ?_⟩
  exact ((pid_registry_correct .sample (.inl rfl) hreach (by decide)).2.1 hwhole 3 4).2 ⟨h4, hpid⟩

end ToastOS.Task
