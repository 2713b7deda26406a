import ToastOS.Cpu.Isolation

/-!
# Context switches and syscalls give back what they took

Statements over whole runs, from the boot of the scheduler on. A run that leads from a call of `context_switch` to the next
switch back, or from a `syscall` to the `sysretq` of the same task, may have any steps of any tasks in between.

* `stub_finishes` : `syscall_entry` never gets stuck;
* `context_switch_correct` : a task goes on with the registers and the return address it had, a new one in `task_first_run`;
  the current task, its kernel stack and its address space are those of the next one;
* `syscall_returns` : every `sysretq` has a `syscall` of the same task before it, and gives back its context, with the
  result of its handler.
-/

namespace ToastOS.Cpu

open ToastOS.Lib Function
open ToastOS.Lib.X86

variable {r t₀ : Task} {s₀ : Sys}

/-! ## What a step does to the records -/

section Records

variable {y : Symbols} {s s' : Sys} {t : Task} {u : Word} {a : Act}

theorem tasks_kept (hp : Permitted y s a) (hs : step y s a = some s') (hr : s.tasks u = some r) (hu : u ≠ s.running)
    (hu' : u ≠ s'.running) (hreap : a ≠ .reap u) : s'.tasks u = some r := by
  obtain ⟨t, ht, hs⟩ := Option.bind_eq_some_iff.1 hs
  cases taken_of_stepRunning hs with
  | switch => exact (update_of_ne hu' _ _).trans ((update_of_ne hu _ _).trans hr)
  | create =>
    have hfresh := ((hp t ht).2 u r hr _ _ List.mem_cons_self).1
    refine (update_of_ne (fun h => ?_) _ _).trans hr
    rw [h, Apart, taskSize] at hfresh
    omega
  | reap => exact (update_of_ne (fun h => hreap (by rw [h])) _ _).trans hr
  -- all others change the record of the running task
  | _ => exact (update_of_ne hu _ _).trans hr

/-- What another task does, it goes on doing, or it is new. -/
theorem control_of_other (hs : step y s a = some s') (hu : u ≠ s.running) (hr : s'.tasks u = some r) :
    (∃ r₀, s.tasks u = some r₀ ∧ r.control = r₀.control) ∨ r.control = .kernel := by
  obtain ⟨t, ht, hs⟩ := Option.bind_eq_some_iff.1 hs
  cases taken_of_stepRunning hs with
  | @switch next ret e₁ e₂ t' cpu _ _ ht' =>
    have hold {r : Task} (hr : savedTasks s t ret u = some r) : s.tasks u = some r := (update_of_ne hu _ _).symm.trans hr
    rcases update_some_iff.1 hr with ⟨rfl, rfl⟩ | ⟨-, hr⟩
    · exact .inl ⟨t', hold ht', rfl⟩
    · exact .inl ⟨r, hold hr, rfl⟩
  | create =>
    rcases update_some_iff.1 hr with ⟨rfl, rfl⟩ | ⟨-, hr⟩
    · exact .inr rfl
    · exact .inl ⟨r, hr, rfl⟩
  | reap => exact .inl ⟨r, (update_none_iff.1 hr).2, rfl⟩
  | _ => exact .inl ⟨r, (update_of_ne hu _ _).symm.trans hr, rfl⟩

theorem inv_reach {ok : Sys → Act → Prop} (h : Reach (step y) ok s₀ s) (hok : ∀ s a, ok s a → Permitted y s a)
    (h0 : Inv s₀) : Inv s :=
  (h.mono hok).invariant h0 fun _ _ _ hi hp hs => inv_step hi hp hs

end Records

/-! ## Runs that exist -/

section Progress

variable {y : Symbols} {s : Sys} {t : Task} {call : Call} {rest : List Op} {here : Local}

theorem become_self (s : Sys) (t : Task) (cpu : X86.Cpu Var) (parked : Bool) (c : Control) :
    (s.become t cpu parked c).tasks s.running = some { t with control := c } :=
  update_self ..

theorem step_ret (ht : s.tasks s.running = some t) (hc : t.control = .above .handler call rest here)
    (hpark : s.parked = false) :
    step y s .ret = some (s.become t s.cpu false (.stub { call with result := s.cpu.regs .rax } rest
      ⟨update s.cpu.regs .rsp (here.regs .rsp), here.stack⟩)) := by
  simp [step, ht, stepRunning, hc, hpark, Activation.exit, Call.finish]

theorem returned_of_refines {top : Nat} {cpu : X86.Cpu Var} (h : Refines top cpu here) :
    Returned cpu here (top - 8 * here.stack.length) := by
  have hrsp := h.rsp
  exact ⟨by omega, fun r hr _ => h.regs r hr⟩

theorem Guarded.refl (s : Sys) (own : Nat) (m : Mem) : Guarded s own m m :=
  fun _ _ _ => ⟨fun _ _ _ => rfl, fun _ _ _ _ _ _ _ => rfl⟩

/-- Steps without a `sysretq`. -/
def Quiet (y : Symbols) (s : Sys) (a : Act) : Prop := Permitted y s a ∧ a ≠ .sysRet

theorem step_instr {i : Instr Var} (ht : s.tasks s.running = some t) (hc : t.control = .stub call (.instr i :: rest) here) :
    Quiet y s .instr ∧
      step y s .instr = some (s.become t (i.exec s.cpu) s.parked (.stub call rest ((i.onLocal here).getD here))) :=
  ⟨⟨fun _ _ => trivial, by simp⟩, by simp [step, ht, stepRunning, hc]⟩

theorem step_callHandler (ht : s.tasks s.running = some t) (hc : t.control = .stub call (.handler :: rest) here) :
    Quiet y s .callHandler ∧
      step y s .callHandler = some (s.become t s.cpu s.parked (.above .handler call rest here)) :=
  ⟨⟨fun _ _ => trivial, by simp⟩, by simp [step, ht, stepRunning, hc]⟩

theorem step_sysCall (ht : s.tasks s.running = some t) (hc : t.control = .user)
    (hflags : s.cpu.rflags &&& 0x3C7FD7 ||| 2 = s.cpu.rflags) : Quiet y s .sysCall ∧
      step y s .sysCall = some (s.become t (execs syscallEntryHead (syscallInstr s.cpu)) s.parked
        (.stub ⟨s.cpu.regs, s.cpu.rip, s.cpu.rflags, 0⟩ syscallEntryBody ⟨(syscallInstr s.cpu).regs,
        [some (s.cpu.regs .rsp)]⟩)) :=
  ⟨⟨fun _ _ => hflags, by simp⟩, by simp [step, ht, stepRunning, hc]⟩

theorem calls_handler (h : Inv s) (ht : s.tasks s.running = some t) (hc : t.control = .stub call rest here)
    (hmem : Op.handler ∈ rest) : ∃ x call' rest' here',
      Reach (step y) (Quiet y) s x ∧ x.running = s.running ∧ x.parked = false ∧
      x.tasks = update s.tasks s.running (some { t with control := .above .handler call' rest' here' }) := by
  induction rest generalizing s t call here with
  | nil => cases hmem
  | cons op rest ih =>
    cases op with
    | instr i =>
      obtain ⟨hp, hs⟩ := step_instr (y := y) ht hc
      obtain ⟨x, call', rest', here', hx, hrunning, hpark, htasks⟩ :=
        ih (inv_step h hp.1 hs) (become_self ..) rfl (by simpa using hmem)
      refine ⟨x, call', rest', here', (Reach.refl.tail hp hs).trans hx, hrunning, hpark, htasks.trans ?_⟩
      exact update_idem ..
    | handler =>
      obtain ⟨hp, hs⟩ := step_callHandler (y := y) ht hc
      exact ⟨_, call, rest, here, Reach.refl.tail hp hs, rfl, (h.runs ht).not_parked (by rw [hc]; rfl), rfl⟩

/-- A user task goes to user code, and from there through `syscall_entry` to a handler. -/
theorem issues_syscall (h : Inv s) (ht : s.tasks s.running = some t) (hc : t.control = .kernel) (hu : t.isUser = true)
    (hpark : s.parked = false) : ∃ u u' x r call rest here, Reach (step y) (Quiet y) s u ∧ u.running = s.running ∧
      Quiet y u .sysCall ∧ step y u .sysCall = some u' ∧ Reach (step y) (Quiet y) u' x ∧ x.running = s.running ∧
      x.parked = false ∧ x.tasks = update s.tasks s.running (some r) ∧ r.control = .above .handler call rest here := by
  let c : Code := ⟨s.cpu.regs, s.cpu.rip, 0x202, s.cpu.mem, s.cpu.cr3⟩
  have hs : step y s (.toUser c) = some (s.become t (c.run s.cpu) false .user) := by
    simp [step, ht, stepRunning, hc, hpark, hu]
  have hp : Quiet y s (.toUser c) := ⟨fun t _ => .refl s t.base s.cpu.mem, by simp⟩
  obtain ⟨hp', hs'⟩ := step_sysCall (y := y) (become_self s t (c.run s.cpu) false .user) rfl
    (show (0x202 : Word) &&& 0x3C7FD7 ||| 2 = 0x202 by decide)
  obtain ⟨x, call, rest, here, hx, hrunning, hpark', htasks⟩ :=
    calls_handler (inv_step (inv_step h hp.1 hs) hp'.1 hs') (become_self ..) rfl (by simp [syscallEntryBody])
  refine ⟨_, _, x, { t with control := .above .handler call rest here }, call, rest, here, Reach.refl.tail hp hs, rfl,
    hp', hs', hx, hrunning, hpark', htasks.trans ?_, rfl⟩
  exact (update_idem ..).trans (update_idem ..)

theorem stub_finishes (h : Inv s) (ht : s.tasks s.running = some t) (hc : t.control = .stub call rest here) :
    ∃ x, Reach (step y) (Quiet y) s x ∧ x.running = s.running ∧ ∃ x', step y x .sysRet = some x' := by
  induction rest generalizing s t call here with
  | nil =>
    refine ⟨s, .refl, rfl, s.become t (sysret (Instr.exec s.cpu (.pop .rsp))) s.parked .user, ?_⟩
    simp [step, ht, stepRunning, hc]
  | cons op rest ih =>
    cases op with
    | instr i =>
      obtain ⟨hp, hs⟩ := step_instr (y := y) ht hc
      obtain ⟨x, hx, hret⟩ := ih (inv_step h hp.1 hs) (become_self ..) rfl
      exact ⟨x, (Reach.refl.tail hp hs).trans hx, hret⟩
    | handler =>
      -- a handler that returns at once
      obtain ⟨hp, hs⟩ := step_callHandler (y := y) ht hc
      have ht' := become_self s t s.cpu s.parked (.above .handler call rest here)
      have hs' := step_ret (y := y) ht' rfl ((h.runs ht).not_parked (by rw [hc]; rfl))
      have hp' : Quiet y (s.become t s.cpu s.parked (.above .handler call rest here)) .ret := by
        refine ⟨fun t' ht'' => ?_, by simp⟩
        cases ht'.symm.trans ht''
        intro _
        exact returned_of_refines ((h.runs ht).stub _ _ _ hc)
      obtain ⟨x, hx, hret⟩ := ih (inv_step (inv_step h hp.1 hs) hp'.1 hs') (become_self ..) rfl
      exact ⟨x, ((Reach.refl.tail hp hs).tail hp' hs').trans hx, hret⟩

theorem step_compute (c : Code) (ht : s.tasks s.running = some t) (hk : t.control.inKernel = true) (hm : c.mem = s.cpu.mem) :
    Quiet y s (.compute c) ∧ step y s (.compute c) = some (s.become t (c.run s.cpu) s.parked t.control) := by
  refine ⟨⟨fun t _ => ?_, by simp⟩, ?_⟩
  · show Guarded s t.base s.cpu.mem c.mem
    rw [hm]
    exact .refl s t.base s.cpu.mem
  · rw [step, ht, Option.bind_some, stepRunning]
    split
    · rename_i hc
      rw [hc] at hk
      cases hk
    · rfl

/-- Where the frame of the handler is, C code can put the stack pointer. -/
theorem toNat_base (t : Task) : (BitVec.ofNat 64 t.base).toNat = t.base := by
  have := t.stack.bound
  rw [BitVec.toNat_ofNat, Nat.mod_eq_of_lt (by rw [Task.base]; omega)]

theorem handler_finishes (h : Inv s) (ht : s.tasks s.running = some t) (hc : t.control = .above .handler call rest here)
    (hpark : s.parked = false) : ∃ x, Reach (step y) (Quiet y) s x ∧ x.running = s.running ∧
    ∃ x', step y x .sysRet = some x' := by
  let c : Code := ⟨update here.regs .rsp (BitVec.ofNat 64 t.base), s.cpu.rip, s.cpu.rflags, s.cpu.mem, s.cpu.cr3⟩
  obtain ⟨hp, hs⟩ := step_compute (y := y) c ht (by rw [hc]; rfl) rfl
  rw [hc] at hs
  have ht' := become_self s t (c.run s.cpu) s.parked (.above .handler call rest here)
  have hs' := step_ret (y := y) ht' rfl hpark
  have hp' : Quiet y (s.become t (c.run s.cpu) s.parked (.above .handler call rest here)) .ret := by
    refine ⟨fun t' ht'' => ?_, by simp⟩
    cases ht'.symm.trans ht''
    refine fun _ => ⟨?_, fun r hr _ => update_of_ne hr _ _⟩
    show (update here.regs .rsp (BitVec.ofNat 64 t.base) .rsp).toNat = _
    rw [update_self, toNat_base, Task.base, Task.base, hc]
  obtain ⟨x, hx, hret⟩ := stub_finishes (inv_step (inv_step h hp.1 hs) hp'.1 hs') (become_self ..) rfl
  exact ⟨x, ((Reach.refl.tail hp hs).tail hp' hs').trans hx, hret⟩

theorem step_switch (next ret : Word) (e₁ e₂ : Effect) (ht : s.tasks s.running = some t) (hpark : s.parked = false)
    (hk : t.control.inKernel = true) (hne : next ≠ s.running) (hr : s.tasks next = some r) :
    ∃ s' r', step y s (.switch next ret e₁ e₂) = some s' ∧ s'.running = next ∧ s'.parked = false ∧
      s'.tasks = update (savedTasks s t ret) next (some r') ∧ r'.control = r.control ∧ r'.isUser = r.isUser := by
  have hnext : savedTasks s t ret next = some r := (update_of_ne hne _ _).trans hr
  have hs : step y s (.switch next ret e₁ e₂) = stepRunning y s t (.switch next ret e₁ e₂) := by
    rw [step, ht, Option.bind_some]
  refine ⟨⟨_, next, false, update (savedTasks s t ret) next (some _)⟩, _,
    hs.trans ((if_pos ⟨hpark, hk⟩).trans (Option.bind_eq_some_iff.2 ⟨r, hnext, rfl⟩)), rfl, rfl, rfl, rfl, rfl⟩

theorem switches_to {next : Word} (h : Inv s) (ht : s.tasks s.running = some t) (hk : t.control.inKernel = true)
    (hpark : s.parked = false) (hne : next ≠ s.running) (hr : s.tasks next = some r) :
    ∃ s' t' r', Reach (step y) (Quiet y) s s' ∧ s'.running = next ∧ s'.parked = false ∧
      s'.tasks = update (update s.tasks s.running (some t')) next (some r') ∧
      t'.control = t.control ∧ r'.control = r.control ∧ r'.isUser = r.isUser := by
  let c : Code := ⟨fun _ => BitVec.ofNat 64 t.base, s.cpu.rip, s.cpu.rflags, s.cpu.mem, s.cpu.cr3⟩
  obtain ⟨hp, hs⟩ := step_compute (y := y) c ht hk rfl
  have htasks : (s.become t (c.run s.cpu) s.parked t.control).tasks = s.tasks :=
    update_eq_iff.2 ⟨ht.symm, fun _ _ => rfl⟩
  generalize hs₁ : s.become t (c.run s.cpu) s.parked t.control = s₁ at hs htasks
  have ht₁ : s₁.tasks s₁.running = some t := by rw [htasks, ← hs₁]; exact ht
  obtain ⟨s', r', hs', hrunning, hpark', hrecords, hc, hu⟩ := step_switch (y := y) next 0 ⟨fun _ => 0, 0x202, id⟩
    ⟨fun _ => 0, 0x202, id⟩ ht₁ (by rw [← hs₁]; exact hpark) hk (by rw [← hs₁]; exact hne) (by rw [htasks]; exact hr)
  have hp' : Quiet y s₁ (.switch next 0 ⟨fun _ => 0, 0x202, id⟩ ⟨fun _ => 0, 0x202, id⟩) := by
    refine ⟨fun t' ht' => ?_, by simp⟩
    cases ht₁.symm.trans ht'
    have hsp : (s₁.cpu.regs .rsp).toNat = t.base := by rw [← hs₁]; exact toNat_base t
    have hdepth := (h.tasks _ _ ht).control.depth
    have hroom := t.stack.room
    refine ⟨?_, Nat.le_of_eq hsp, .refl _ _ _, .refl _ _ _⟩
    rw [hsp, Task.base]
    omega
  refine ⟨s', { t with saved := ⟨s₁.cpu.regs, 0⟩ }, r', (Reach.refl.tail hp hs).tail hp' hs', hrunning, hpark', ?_,
    rfl, hc, hu⟩
  rw [hrecords, savedTasks, htasks, show s₁.running = s.running by rw [← hs₁]; rfl]

/-- Two user tasks: the syscall of one begins and ends around the entry of the other's. -/
theorem syscalls_interleave {p q : Word} {a b : Task} (h : Inv s) (ht : s.tasks s.running = some t)
    (hk : t.control.inKernel = true) (hpark : s.parked = false) (hp : p ≠ s.running) (hq : q ≠ s.running) (hne : q ≠ p)
    (ha : s.tasks p = some a) (hac : a.control = .kernel) (hau : a.isUser = true)
    (hb : s.tasks q = some b) (hbc : b.control = .kernel) (hbu : b.isUser = true) :
    ∃ c c' u u' x x', Reach (step y) (Quiet y) s c ∧ Quiet y c .sysCall ∧ step y c .sysCall = some c' ∧ c.running = p ∧
      Reach (step y) (Quiet y) c' u ∧ Quiet y u .sysCall ∧ step y u .sysCall = some u' ∧ u.running = q ∧
      Reach (step y) (Quiet y) u' x ∧ x.running = p ∧ step y x .sysRet = some x' := by
  have hinv {s s' : Sys} (h : Inv s) (hr : Reach (step y) (Quiet y) s s') : Inv s' := inv_reach hr (fun _ _ h => h.1) h
  -- to `p`, and into its handler
  obtain ⟨s₁, t₁, a₁, hr₁, hrun₁, hpark₁, htasks₁, -, hac₁, hau₁⟩ := switches_to (y := y) h ht hk hpark hp ha
  have ha₁ : s₁.tasks s₁.running = some a₁ := by rw [htasks₁, hrun₁, update_self]
  obtain ⟨c, c', s₂, a₂, call, rest, here, hr₂, hc, hpc, hsc, hr₃, hrun₂, hpark₂, htasks₂, hac₂⟩ :=
    issues_syscall (y := y) (hinv h hr₁) ha₁ (hac₁.trans hac) (hau₁.trans hau) hpark₁
  have hinv₂ : Inv s₂ := hinv (inv_step (hinv (hinv h hr₁) hr₂) hpc.1 hsc) hr₃
  rw [hrun₁] at htasks₂ hrun₂ hc
  have ha₂ : s₂.tasks s₂.running = some a₂ := by rw [htasks₂, hrun₂, update_self]
  have hb₂ : s₂.tasks q = some b := by
    rw [htasks₂, update_of_ne hne, htasks₁, update_of_ne hne, update_of_ne hq, hb]
  -- to `q`, and into its handler
  obtain ⟨s₃, a₃, b₃, hr₄, hrun₃, hpark₃, htasks₃, hac₃, hbc₃, hbu₃⟩ :=
    switches_to (y := y) hinv₂ ha₂ (by rw [hac₂]; rfl) hpark₂ (by rw [hrun₂]; exact hne) hb₂
  have hinv₃ : Inv s₃ := hinv hinv₂ hr₄
  have hb₃ : s₃.tasks s₃.running = some b₃ := by rw [htasks₃, hrun₃, update_self]
  obtain ⟨u, u', s₄, b₄, _, _, _, hr₅, hu, hpu, hsu, hr₆, hrun₄, hpark₄, htasks₄, hbc₄⟩ :=
    issues_syscall (y := y) hinv₃ hb₃ (hbc₃.trans hbc) (hbu₃.trans hbu) hpark₃
  have hinv₄ : Inv s₄ := hinv (inv_step (hinv hinv₃ hr₅) hpu.1 hsu) hr₆
  rw [hrun₃] at htasks₄ hrun₄ hu
  have hb₄ : s₄.tasks s₄.running = some b₄ := by rw [htasks₄, hrun₄, update_self]
  have ha₄ : s₄.tasks p = some a₃ := by
    rw [htasks₄, update_of_ne hne.symm, htasks₃, update_of_ne hne.symm, hrun₂, update_self]
  -- back to `p`
  obtain ⟨s₅, _, a₅, hr₇, hrun₅, hpark₅, htasks₅, -, hac₅, -⟩ :=
    switches_to (y := y) hinv₄ hb₄ (by rw [hbc₄]; rfl) hpark₄ (by rw [hrun₄]; exact hne.symm) ha₄
  have ha₅ : s₅.tasks s₅.running = some a₅ := by rw [htasks₅, hrun₅, update_self]
  obtain ⟨x, hr₈, hx, x', hret⟩ := handler_finishes (y := y) (hinv hinv₄ hr₇) ha₅ (hac₅.trans (hac₃.trans hac₂)) hpark₅
  exact ⟨c, c', u, u', x, x', hr₁.trans hr₂, hpc, hsc, hc, (hr₃.trans hr₄).trans hr₅, hpu, hsu, hu, (hr₆.trans hr₇).trans hr₈,
    hx.trans hrun₅, hret⟩

theorem step_create (tcb stack fn arg0 arg1 cr3 : Word) (f : TaskFields) (ht : s.tasks s.running = some t)
    (hk : t.control.inKernel = true) (hbound : stack.toNat + newTaskKstackSize < 2 ^ 64) :
    ∃ s' r, step y s (.create tcb stack fn arg0 arg1 cr3 f) = some s' ∧ s'.running = s.running ∧ s'.parked = s.parked ∧
      s'.cpu.regs = s.cpu.regs ∧ s'.tasks = update s.tasks tcb (some r) ∧ r.stack.lo = stack.toNat ∧
      r.stack.top = stackTop stack.toNat ∧ r.control = .kernel ∧ r.isUser = f.isUser := by
  let m := taskCreateInternal s.cpu.mem tcb.toNat stack.toNat y.taskFirstRun fn arg0 arg1 cr3 f
  let r := newTask y stack.toNat hbound fn arg0 arg1 f.isUser
  have hs : step y s (.create tcb stack fn arg0 arg1 cr3 f) =
      some { s with cpu := { s.cpu with mem := m }, tasks := update s.tasks tcb (some r) } := by
    rw [step, ht, Option.bind_some, stepRunning, dif_pos ⟨hbound, hk⟩]
  exact ⟨_, r, hs, rfl, rfl, rfl, rfl, rfl, rfl, rfl, rfl⟩

end Progress

/-! ## Two tasks -/

section TwoTasks

def twoSymbols : Symbols := ⟨0x1000, 0x2000⟩

def bootTask : Task where
  stack := ⟨0x10000, 0x20000, by decide, by decide, by decide⟩
  isUser := false
  control := .kernel
  saved := ⟨fun _ => 0, 0⟩
  faithful := true

/-- The boot task, with its TCB at `0x3000`. -/
def bootSys : Sys where
  cpu := ⟨fun _ => 0x18000, 0, 0x202, fun _ => 0, 0, fun _ => 0x3000⟩
  running := 0x3000
  parked := false
  tasks := update (fun _ => none) 0x3000 (some bootTask)

theorem bootSys_booted : Booted bootSys bootTask := ⟨rfl, ⟨rfl, rfl⟩, rfl, ⟨rfl, rfl⟩, .inl (by decide)⟩

/-- A user task is created, and the boot task switches to it. -/
def createUser : Act := .create 0x5000 0x40000 0x7000 1 2 0x9000 ⟨0, 1, 0, 0, true⟩
def switchToUser : Act := .switch 0x5000 0x8000 ⟨fun _ => 0, 0x202, id⟩ ⟨fun _ => 0, 0x202, id⟩

theorem bootSys_tasks {u : Word} {t : Task} (ht : bootSys.tasks u = some t) : u = 0x3000 ∧ t = bootTask := by
  have ht : update (fun _ => none) 0x3000 (some bootTask) u = some t := ht
  rcases update_some_iff.1 ht with h | ⟨-, h⟩
  · exact h
  · cases h

theorem bootSys_running : bootSys.tasks 0x3000 = some bootTask := by simp [bootSys]

theorem createUser_permitted : Permitted twoSymbols bootSys createUser := by
  intro _ _
  refine ⟨.inl (by decide), fun u t ht a n ha => ?_⟩
  obtain ⟨rfl, rfl⟩ := bootSys_tasks ht
  simp only [List.mem_cons, List.not_mem_nil, or_false, Prod.mk.injEq] at ha
  rcases ha with ⟨rfl, rfl⟩ | ⟨rfl, rfl⟩ <;> refine ⟨.inr (by decide), ?_⟩
  · exact .inl (by decide)
  · exact .inr (by decide)

theorem two_steps : ∃ s s', step twoSymbols bootSys createUser = some s ∧ Permitted twoSymbols s switchToUser ∧
    step twoSymbols s switchToUser = some s' ∧ s.running = 0x3000 := by
  obtain ⟨s, r, hs, hrunning, hpark, hregs, htasks, -⟩ := step_create (y := twoSymbols) 0x5000 0x40000 0x7000 1 2
    0x9000 ⟨0, 1, 0, 0, true⟩ (s := bootSys) bootSys_running rfl (by decide)
  have hold : s.tasks s.running = some bootTask := by
    rw [htasks, update_of_ne (by rw [hrunning]; decide), hrunning]
    exact bootSys_running
  obtain ⟨s', -, hs', -⟩ := step_switch (y := twoSymbols) 0x5000 0x8000 ⟨fun _ => 0, 0x202, id⟩
    ⟨fun _ => 0, 0x202, id⟩ hold hpark rfl (by rw [hrunning]; decide) (by rw [htasks, update_self])
  refine ⟨s, s', hs, fun t ht => ?_, hs', hrunning⟩
  cases hold.symm.trans ht
  have hsp : (s.cpu.regs .rsp).toNat = 0x18000 := by rw [hregs]; rfl
  refine ⟨?_, ?_, Guarded.refl _ _ _, Guarded.refl _ _ _⟩
  · rw [hsp]
    decide
  · rw [hsp]
    decide

end TwoTasks

/-! ## Context switches -/

section Switches

variable (y : Symbols)

/-- Steps while the task `u` is neither resumed nor freed. -/
def Waits (u : Word) (s : Sys) (a : Act) : Prop := Permitted y s a ∧ u ≠ s.running ∧ a ≠ .reap u

/-- When the task `u` runs again, the CPU is as `P` says. -/
def WhenResumed (u : Word) (s : Sys) (P : X86.Cpu Var → Prop) : Prop :=
  ∀ s₁ s₂ ret e₁ e₂, Reach (step y) (Waits y u) s s₁ → u ≠ s₁.running → Permitted y s₁ (.switch u ret e₁ e₂) →
    step y s₁ (.switch u ret e₁ e₂) = some s₂ → P s₂.cpu

/-- The task `next` has its kernel stack and its address space. -/
structure Current (s : Sys) (next : Word) : Prop where
  current : s.running = next ∧ s.cpu.vars .currentTaskTCB = next
  rsp0 : s.cpu.vars .tssRsp0 = read64 s.cpu.mem (next.toNat + tcbRsp0)
  kernelRsp : s.cpu.vars .syscallKernelRsp = s.cpu.vars .tssRsp0
  cr3 : s.cpu.cr3 = read64 s.cpu.mem (next.toNat + tcbCr3)

/-- The first instruction of a task, and the call it leads to. -/
structure FirstRun (fn arg0 arg1 : Word) (cpu : X86.Cpu Var) : Prop where
  rip : cpu.rip = y.taskFirstRun
  aligned : (cpu.regs .rsp).toNat % 16 = 0
  regs : cpu.regs .r12 = fn ∧ cpu.regs .r13 = arg0 ∧ cpu.regs .r14 = arg1
  called : ∀ e ret, (taskFirstRun e ret cpu).rip = fn ∧ (taskFirstRun e ret cpu).regs .rdi = arg0 ∧
    (taskFirstRun e ret cpu).regs .rsi = arg1

variable {y} {s s' : Sys} {t : Task} {u : Word}

theorem record_of_waits {s₁ : Sys} (h : Reach (step y) (Waits y u) s s₁) (hr : s.tasks u = some r) (hu : u ≠ s₁.running) :
    s₁.tasks u = some r := by
  induction h with
  | refl => exact hr
  | tail _ hw hs ih => exact tasks_kept hw.1 hs (ih hw.2.1) hw.2.1 hu hw.2.2

theorem switched_spec (h : Inv s) {next ret : Word} {e₁ e₂ : Effect} (hp : Permitted y s (.switch next ret e₁ e₂))
    (hs : step y s (.switch next ret e₁ e₂) = some s') : Current s' next ∧
      (next = s.running → Resumed s'.cpu ⟨s.cpu.regs, ret⟩) ∧
      ∀ r, next ≠ s.running → s.tasks next = some r → Resumed s'.cpu r.saved := by
  obtain ⟨t, ht, hs⟩ := Option.bind_eq_some_iff.1 hs
  cases taken_of_stepRunning hs with
  | switch hpark hk ht' hcpu =>
    obtain ⟨hsw, -⟩ := switch_spec h ht (hp t ht) hpark hk ht'
    rw [← hcpu] at hsw
    refine ⟨⟨⟨rfl, hsw.current⟩, hsw.kernelRsp.2, hsw.kernelRsp.1.trans hsw.kernelRsp.2.symm, hsw.cr3⟩, fun hn => ?_,
      fun r hn hr => ?_⟩
    · rw [savedTasks, hn, update_self] at ht'
      cases ht'
      exact hsw.resumed
    · rw [savedTasks, update_of_ne hn, hr] at ht'
      cases ht'
      exact hsw.resumed

/-- A task that waits with the record `r` goes on with what is saved there. -/
theorem whenResumed (h : Inv s) (hr : s.tasks u = some r) {P : X86.Cpu Var → Prop} (hP : ∀ cpu, Resumed cpu r.saved → P cpu) :
    WhenResumed y u s P := by
  intro s₁ s₂ ret e₁ e₂ hwait hu hp hs
  have h₁ : Inv s₁ := inv_reach hwait (fun _ _ hw => hw.1) h
  exact hP _ ((switched_spec h₁ hp hs).2.2 r hu (record_of_waits hwait hr hu))

theorem firstRun_of_resumed {stack : Nat} {fn arg0 arg1 : Word} {cpu : X86.Cpu Var}
    (hbound : stack + newTaskKstackSize < 2 ^ 64)
    (h : Resumed cpu (firstSaved y.taskFirstRun fn arg0 arg1 (stackTop stack))) : FirstRun y fn arg0 arg1 cpu := by
  obtain ⟨-, hhi, halign⟩ := stackTop_bounds stack
  refine ⟨h.rip, ?_, ⟨h.regs .r12 rfl, h.regs .r13 rfl, h.regs .r14 rfl⟩, taskFirstRun_calls h⟩
  have hrsp : cpu.regs .rsp = BitVec.ofNat 64 (stackTop stack) := h.regs .rsp rfl
  have htop : stackTop stack < 2 ^ 64 := hhi.trans_lt hbound
  rw [hrsp, BitVec.toNat_ofNat, Nat.mod_eq_of_lt htop, halign]

end Switches

/-- Whatever runs in between, a task that called `context_switch` goes on with the callee-saved registers, the stack
pointer and the return address of that call, and a task that `task_create_internal` built goes on in `task_first_run`,
which calls its function; behind every switch the kernel stack and the address space are those of the current task. -/
theorem context_switch_correct (y : Symbols) (hb : Booted s₀ t₀) {s s' : Sys}
    (hrun : Reach (step y) (Permitted y) s₀ s) {a : Act} (hp : Permitted y s a) (hs : step y s a = some s') :
    (∀ next ret e₁ e₂, a = .switch next ret e₁ e₂ → Current s' next ∧
      (next = s.running → Resumed s'.cpu ⟨s.cpu.regs, ret⟩) ∧
      (next ≠ s.running → WhenResumed y s.running s' (Resumed · ⟨s.cpu.regs, ret⟩))) ∧
    ∀ tcb stack fn arg0 arg1 cr3 f, a = .create tcb stack fn arg0 arg1 cr3 f →
    WhenResumed y tcb s' (FirstRun y fn arg0 arg1) := by
  have hinv : Inv s := inv_reach hrun (fun _ _ h => h) (inv_booted hb)
  have hinv' : Inv s' := inv_step hinv hp hs
  refine ⟨?_, ?_⟩
  · rintro next ret e₁ e₂ rfl
    obtain ⟨hcur, hself, -⟩ := switched_spec hinv hp hs
    refine ⟨hcur, hself, fun hne => ?_⟩
    obtain ⟨t, ht, hs⟩ := Option.bind_eq_some_iff.1 hs
    have hrecord : savedTasks s t ret s.running = some { t with saved := ⟨s.cpu.regs, ret⟩ } := update_self ..
    cases taken_of_stepRunning hs with
    | switch => exact whenResumed hinv' ((update_of_ne hne.symm _ _).trans hrecord) fun _ h => h
  · rintro tcb stack fn arg0 arg1 cr3 f rfl
    obtain ⟨t, ht, hs⟩ := Option.bind_eq_some_iff.1 hs
    cases taken_of_stepRunning hs with
    | create hk hbound => exact whenResumed hinv' (update_self ..) fun _ h => firstRun_of_resumed hbound h

theorem user_task_starts : ∃ s s', step twoSymbols bootSys createUser = some s ∧ step twoSymbols s switchToUser = some s' ∧
    Current s' 0x5000 ∧ FirstRun twoSymbols 0x7000 1 2 s'.cpu ∧
    WhenResumed twoSymbols 0x3000 s' (Resumed · ⟨s.cpu.regs, 0x8000⟩) := by
  obtain ⟨s, s', hs, hp', hs', hrunning⟩ := two_steps
  have hne : (0x5000 : Word) ≠ s.running := by
    rw [hrunning]
    decide
  have hnew := (context_switch_correct twoSymbols bootSys_booted .refl createUser_permitted hs).2 _ _ _ _ _ _ _ rfl
  have hrun : Reach (step twoSymbols) (Permitted twoSymbols) bootSys s := Reach.refl.tail createUser_permitted hs
  obtain ⟨hcur, -, hold⟩ := (context_switch_correct twoSymbols bootSys_booted hrun hp' hs').1 _ _ _ _ rfl
  exact ⟨s, s', hs, hs', hcur, hnew s s' _ _ _ .refl hne hp' hs', hrunning ▸ hold hne⟩

/-! ## Syscalls -/

/-- The syscall that a task is in, and what is left of the stub. -/
def Control.pending : Control → Option (Call × List Op)
  | .stub call rest _ => some (call, rest)
  | .above .handler call rest _ => some (call, .handler :: rest)
  | .above (.interrupt _) call rest _ => some (call, rest)
  | _ => none

section Syscalls

variable (y : Symbols)

/-- Steps without a `sysretq` of the task `u`. -/
def NoReturn (u : Word) (s : Sys) (a : Act) : Prop := Permitted y s a ∧ ¬ (s.running = u ∧ a = .sysRet)

def InHandler (s : Sys) : Prop :=
  ∃ t call rest here, s.tasks s.running = some t ∧ t.control = .above .handler call rest here

/-- Between `s'` and `x` the handler of the task `u` has returned `v`. -/
def HandlerReturned (u : Word) (s' x : Sys) (v : Word) : Prop :=
  ∃ h h', Reach (step y) (NoReturn y u) s' h ∧ h.running = u ∧ InHandler h ∧ step y h .ret = some h' ∧
    Reach (step y) (NoReturn y u) h' x ∧ h.cpu.regs .rax = v

/-- The record `call` of the task `u` in the state `x` goes back to its last `syscall`. -/
def Issued (s₀ : Sys) (u : Word) (call : Call) (rest : List Op) (x : Sys) : Prop :=
  ∃ s s', Reach (step y) (Permitted y) s₀ s ∧ Permitted y s .sysCall ∧ step y s .sysCall = some s' ∧ s.running = u ∧
    Reach (step y) (NoReturn y u) s' x ∧ (call.regs = s.cpu.regs ∧ call.rip = s.cpu.rip ∧ call.rflags = s.cpu.rflags) ∧
    (Op.handler ∉ rest → HandlerReturned y u s' x call.result)

variable {y} {s s' : Sys} {t : Task} {u : Word} {a : Act} {call : Call} {rest : List Op}

theorem pending_own (ht : s.tasks s.running = some t) (hs : stepRunning y s t a = some s') {t' : Task}
    (ht' : s'.tasks s.running = some t') (hpend : t'.control.pending = some (call, rest)) :
    (a = .sysCall ∧ call = ⟨s.cpu.regs, s.cpu.rip, s.cpu.rflags, 0⟩ ∧ rest = syscallEntryBody) ∨
      (a ≠ .sysRet ∧ ∃ call₀ rest₀, t.control.pending = some (call₀, rest₀) ∧
        (call.regs = call₀.regs ∧ call.rip = call₀.rip ∧ call.rflags = call₀.rflags) ∧
        (Op.handler ∉ rest → Op.handler ∉ rest₀ ∧ call.result = call₀.result ∨
          a = .ret ∧ InHandler s ∧ s.cpu.regs .rax = call.result)) := by
  have hbecome {cpu : X86.Cpu Var} {parked : Bool} {c : Control} (h : (s.become t cpu parked c).tasks s.running = some t') :
      t' = { t with control := c } :=
    Option.some.inj (h.symm.trans (update_self ..))
  -- the syscall goes on as it was
  have hsame (ha : a ≠ .sysRet) (hc : t'.control.pending = t.control.pending) : a ≠ .sysRet ∧ ∃ call₀ rest₀,
      t.control.pending = some (call₀, rest₀) ∧ (call.regs = call₀.regs ∧ call.rip = call₀.rip ∧ call.rflags = call₀.rflags) ∧
      (Op.handler ∉ rest → Op.handler ∉ rest₀ ∧ call.result = call₀.result ∨ a = .ret ∧ InHandler s ∧
        s.cpu.regs .rax = call.result) :=
    ⟨ha, call, rest, hc ▸ hpend, ⟨rfl, rfl, rfl⟩, fun hr => .inl ⟨hr, rfl⟩⟩
  cases taken_of_stepRunning hs with
  | compute | park | unpark =>
    cases hbecome ht'
    exact .inr (hsame (by simp) rfl)
  | toUser | irqUser | sysRet =>
    cases hbecome ht'
    cases hpend
  | sysCall =>
    cases hbecome ht'
    cases hpend
    exact .inl ⟨rfl, rfl, rfl⟩
  | @instr call' i rest' here hc =>
    cases hbecome ht'
    cases hpend
    refine .inr ⟨by simp, call, .instr i :: rest, by rw [hc]; rfl, ⟨rfl, rfl, rfl⟩, fun hr => .inl ⟨?_, rfl⟩⟩
    simpa using hr
  | callHandler hc | interrupt hc =>
    cases hbecome ht'
    exact .inr (hsame (by simp) (by rw [hc]; rfl))
  | @ret kind call' rest' here hc =>
    cases hbecome ht'
    cases kind with
    | handler =>
      cases hpend
      exact .inr ⟨by simp, call', .handler :: rest, by rw [hc]; rfl, ⟨rfl, rfl, rfl⟩,
        fun _ => .inr ⟨rfl, ⟨t, call', rest, here, ht, hc⟩, rfl⟩⟩
    | interrupt sys => exact .inr (hsame (by simp) (by rw [hc]; rfl))
  | switch _ _ ht₁ =>
    refine .inr (hsame (by simp) ?_)
    rcases update_some_iff.1 ht' with ⟨rfl, rfl⟩ | ⟨-, hold⟩
    · cases ht₁.symm.trans (update_self ..)
      rfl
    · cases hold.symm.trans (update_self ..)
      rfl
  | create =>
    rcases update_some_iff.1 ht' with ⟨rfl, rfl⟩ | ⟨-, hold⟩
    · cases hpend
    · cases ht.symm.trans hold
      exact .inr (hsame (by simp) rfl)
  | reap =>
    cases ht.symm.trans (update_none_iff.1 ht').2
    exact .inr (hsame (by simp) rfl)

theorem Issued.tail {call₀ : Call} {rest₀ : List Op} (h : Issued y s₀ u call₀ rest₀ s) (hp : NoReturn y u s a)
    (hs : step y s a = some s') (hcall : call.regs = call₀.regs ∧ call.rip = call₀.rip ∧ call.rflags = call₀.rflags)
    (hres : Op.handler ∉ rest → Op.handler ∉ rest₀ ∧ call.result = call₀.result ∨
      s.running = u ∧ a = .ret ∧ InHandler s ∧ s.cpu.regs .rax = call.result) : Issued y s₀ u call rest s' := by
  obtain ⟨x, x', hreach, hperm, hstep, hrun, hmid, hctx, hold⟩ := h
  refine ⟨x, x', hreach, hperm, hstep, hrun, hmid.tail hp hs, ?_, fun hr => ?_⟩
  · rw [hcall.1, hcall.2.1, hcall.2.2]
    exact hctx
  · rcases hres hr with ⟨hr₀, heq⟩ | ⟨hu, rfl, hin, hrax⟩
    · obtain ⟨k, k', h1, h2, h3, h4, h5, h6⟩ := hold hr₀
      exact ⟨k, k', h1, h2, h3, h4, h5.tail hp hs, heq ▸ h6⟩
    · exact ⟨s, s', hmid, hu, hin, hs, .refl, hrax⟩

/-- In every run, each syscall under way goes back to an instruction of its task. -/
theorem issued_of_reach (hb : Booted s₀ t₀) (h : Reach (step y) (Permitted y) s₀ s) :
    ∀ u t call rest, s.tasks u = some t → t.control.pending = some (call, rest) → Issued y s₀ u call rest s := by
  induction h with
  | refl =>
    intro u t call rest ht hpend
    rw [hb.tasks] at ht
    rcases update_some_iff.1 ht with ⟨-, rfl⟩ | ⟨-, ht⟩
    · rw [hb.kernel.1] at hpend
      cases hpend
    · cases ht
  | @tail s s' a hreach hp hs ih =>
    intro u t' call rest ht' hpend
    by_cases hu : u = s.running
    · subst hu
      obtain ⟨t, ht, hs'⟩ := Option.bind_eq_some_iff.1 hs
      rcases pending_own ht hs' ht' hpend with ⟨rfl, rfl, rfl⟩ | ⟨ha, call₀, rest₀, hold, hcall, hres⟩
      · refine ⟨s, s', hreach, hp, hs, rfl, .refl, ⟨rfl, rfl, rfl⟩, fun hr => absurd ?_ hr⟩
        simp [syscallEntryBody]
      · refine (ih _ t call₀ rest₀ ht hold).tail ⟨hp, fun h => ha h.2⟩ hs hcall fun hr => ?_
        exact (hres hr).imp id fun h => ⟨rfl, h⟩
    · -- another task has made the step
      rcases control_of_other hs hu ht' with ⟨t, ht, hc⟩ | hc <;> rw [hc] at hpend
      · exact (ih u t call rest ht hpend).tail ⟨hp, fun h => hu h.1.symm⟩ hs ⟨rfl, rfl, rfl⟩ fun hr => .inl ⟨hr, rfl⟩
      · cases hpend

theorem rflags_sysret (s : X86.Cpu Var) : (sysret s).rflags = (sysret s).regs .r11 &&& 0x3C7FD7 ||| 2 := rfl

/-- At its end, the stub gives back the registers of the call. -/
theorem sysret_spec (h : Inv s) (ht : s.tasks s.running = some t) {here : Local} (hc : t.control = .stub call [] here)
    (hflags : call.rflags &&& 0x3C7FD7 ||| 2 = call.rflags) :
    let cpu := sysret (Instr.exec s.cpu (.pop .rsp))
    cpu.rip = call.rip ∧ cpu.rflags = call.rflags ∧ cpu.regs .rax = call.result ∧
      ∀ r, r ∉ [Reg.rax, .rcx, .r11] → cpu.regs r = call.regs r := by
  have hok := (h.tasks _ _ ht).control
  rw [hc] at hok
  obtain ⟨hstack, hrcx, hr11, hrax, hregs⟩ := hok.good
  have href := (h.runs ht).stub _ _ _ hc
  -- the registers other than `rsp` are those of the local machine
  have hother (r : Reg) (hr : r ≠ .rsp) : (sysret (Instr.exec s.cpu (.pop .rsp))).regs r = here.regs r := by
    refine Eq.trans ?_ (href.regs r hr)
    exact (update_of_ne hr _ _).trans (update_of_ne hr _ _)
  have hpop : (sysret (Instr.exec s.cpu (.pop .rsp))).regs .rsp = s.cpu.pop.1 := rfl
  have hrsp : (sysret (Instr.exec s.cpu (.pop .rsp))).regs .rsp = call.regs .rsp := hpop.trans (href.top_word hstack)
  refine ⟨?_, ?_, (hother .rax (by decide)).trans hrax, fun r hr => ?_⟩
  · exact (hother .rcx (by decide)).trans hrcx
  · rw [rflags_sysret, hother .r11 (by decide), hr11, hflags]
  · by_cases hsp : r = .rsp
    · rw [hsp, hrsp]
    · rw [hother r hsp]
      refine hregs r fun hm => ?_
      simp only [List.mem_cons, List.not_mem_nil, or_false] at hr hm
      tauto

end Syscalls

/-- Every `sysretq` has a `syscall` of the same task before it, with no other `sysretq` of that task between them. It
gives back the task's `rip`, its flags and all its registers but for `rax`, `rcx` and `r11`; `rax` is what the task's
handler returned. -/
theorem syscall_returns (y : Symbols) (hb : Booted s₀ t₀) {x x' : Sys}
    (hrun : Reach (step y) (Permitted y) s₀ x) (hret : step y x .sysRet = some x') :
    ∃ s s', Reach (step y) (Permitted y) s₀ s ∧ step y s .sysCall = some s' ∧ Reach (step y) (NoReturn y x.running) s' x ∧
      (s.running = x.running ∧ x'.running = x.running ∧ x'.cpu.vars .currentTaskTCB = x.running) ∧
      x'.cpu.rip = s.cpu.rip ∧ x'.cpu.rflags = s.cpu.rflags ∧
      (∀ r, r ∉ [Reg.rax, .rcx, .r11] → x'.cpu.regs r = s.cpu.regs r) ∧
      HandlerReturned y x.running s' x (x'.cpu.regs .rax) := by
  have hinv : Inv x := inv_reach hrun (fun _ _ h => h) (inv_booted hb)
  obtain ⟨t, ht, hret⟩ := Option.bind_eq_some_iff.1 hret
  cases taken_of_stepRunning hret with
  | @sysRet call here hc =>
    obtain ⟨s, s', hreach, hperm, hstep, hsame, hmid, ⟨hregs, hrip, hflags⟩, hres⟩ :=
      issued_of_reach hb hrun x.running t call [] ht (by rw [hc]; rfl)
    obtain ⟨u, hu, -⟩ := Option.bind_eq_some_iff.1 hstep
    have hf : call.rflags &&& 0x3C7FD7 ||| 2 = call.rflags := hflags ▸ hperm u hu
    obtain ⟨hrip', hflags', hrax, hregs'⟩ := sysret_spec hinv ht hc hf
    have hpark : x.parked = false := (hinv.runs ht).not_parked (by rw [hc]; rfl)
    refine ⟨s, s', hreach, hstep, hmid, ⟨hsame, rfl, hinv.current hpark⟩, hrip'.trans hrip, hflags'.trans hflags,
      fun r hr => (hregs' r hr).trans (congrFun hregs r), ?_⟩
    exact hrax.symm ▸ hres List.not_mem_nil

def createOther : Act := .create 0x6000 0x80000 0x7000 1 2 0x9000 ⟨0, 1, 0, 0, true⟩

theorem two_users : ∃ s a b, Reach (step twoSymbols) (Permitted twoSymbols) bootSys s ∧ s.running = 0x3000 ∧
    s.parked = false ∧ s.tasks = update (update bootSys.tasks 0x5000 (some a)) 0x6000 (some b) ∧
    (a.control = .kernel ∧ a.isUser = true) ∧ b.control = .kernel ∧ b.isUser = true := by
  obtain ⟨s, a, hs, hrunning, hpark, -, htasks, hlo, htop, ha, hau⟩ := step_create (y := twoSymbols) 0x5000 0x40000 0x7000 1 2
    0x9000 ⟨0, 1, 0, 0, true⟩ (s := bootSys) bootSys_running rfl (by decide)
  have hold : s.tasks s.running = some bootTask := by
    rw [htasks, update_of_ne (by rw [hrunning]; decide), hrunning]
    exact bootSys_running
  obtain ⟨s', b, hs', hrunning', hpark', -, htasks', -, -, hb, hbu⟩ := step_create (y := twoSymbols) 0x6000 0x80000 0x7000 1 2
    0x9000 ⟨0, 1, 0, 0, true⟩ hold rfl (by decide)
  have hfresh : Permitted twoSymbols s createOther := by
    intro _ _
    refine ⟨.inl (by decide), fun u t ht k n hrange => ?_⟩
    simp only [List.mem_cons, List.not_mem_nil, or_false, Prod.mk.injEq] at hrange
    rw [htasks] at ht
    have hwhere : u.toNat = 0x5000 ∧ t.stack.lo = 0x40000 ∧ t.stack.top = 0x44000 ∨
        u.toNat = 0x3000 ∧ t.stack.lo = 0x10000 ∧ t.stack.top = 0x20000 := by
      rcases update_some_iff.1 ht with ⟨rfl, rfl⟩ | ⟨-, ht⟩
      · exact .inl ⟨by decide, hlo, htop⟩
      · obtain ⟨rfl, rfl⟩ := bootSys_tasks ht
        exact .inr ⟨by decide, by decide, by decide⟩
    have hsize : (0x6000 : Word).toNat = 0x6000 ∧ (0x80000 : Word).toNat = 0x80000 ∧ taskSize ≤ 0x1000 := by decide
    unfold Apart newTaskKstackSize at *
    omega
  refine ⟨s', a, b, (Reach.refl.tail createUser_permitted hs).tail hfresh hs', hrunning'.trans hrunning,
    hpark'.trans hpark, ?_, ⟨ha, hau⟩, hb, hbu⟩
  rw [htasks', htasks]

theorem user_syscall_returned : ∃ s s' u u' x x', step twoSymbols s .sysCall = some s' ∧
    Reach (step twoSymbols) (NoReturn twoSymbols s.running) s' u ∧ u.running ≠ s.running ∧
    step twoSymbols u .sysCall = some u' ∧
    Reach (step twoSymbols) (NoReturn twoSymbols s.running) u' x ∧ x.running = s.running ∧
    step twoSymbols x .sysRet = some x' ∧
    ∃ z z', step twoSymbols z .sysCall = some z' ∧ Reach (step twoSymbols) (NoReturn twoSymbols s.running) z' x ∧
      z.running = s.running ∧ x'.running = s.running ∧ x'.cpu.rip = z.cpu.rip ∧ x'.cpu.rflags = z.cpu.rflags ∧
      x'.cpu.regs .rsp = z.cpu.regs .rsp := by
  obtain ⟨s₀, a, b, hrun, hrunning, hpark, htasks, ⟨ha, hau⟩, hb, hbu⟩ := two_users
  have hboot : s₀.tasks s₀.running = some bootTask := by
    rw [htasks, hrunning, update_of_ne (by decide), update_of_ne (by decide), bootSys_running]
  have hrecord : s₀.tasks 0x5000 = some a := by rw [htasks, update_of_ne (by decide), update_self]
  obtain ⟨s, s', u, u', x, x', h₁, hp, hs, hsr, h₂, hp', hu, hur, h₃, hxr, hret⟩ := syscalls_interleave (y := twoSymbols)
    (inv_reach hrun (fun _ _ h => h) (inv_booted bootSys_booted)) hboot rfl hpark (by rw [hrunning]; decide)
    (by rw [hrunning]; decide) (show (0x6000 : Word) ≠ 0x5000 by decide) hrecord ha hau (by rw [htasks, update_self]) hb hbu
  have hx : Reach (step twoSymbols) (Permitted twoSymbols) bootSys x :=
    hrun.trans ((((((h₁.tail hp hs).trans h₂).tail hp' hu).trans h₃)).mono fun _ _ h => h.1)
  have hquiet (s : Sys) (a : Act) (h : Quiet twoSymbols s a) : NoReturn twoSymbols 0x5000 s a := ⟨h.1, fun h' => h.2 h'.2⟩
  obtain ⟨z, z', -, hz, hzx, ⟨hzr, hxr', -⟩, hrip, hflags, hregs, -⟩ := syscall_returns twoSymbols bootSys_booted hx hret
  rw [hxr] at hzx hzr hxr'
  refine ⟨s, s', u, u', x, x', ?_⟩
  rw [hsr]
  exact ⟨hs, h₂.mono hquiet, by rw [hur]; decide, hu, h₃.mono hquiet, hxr, hret, z, z', hz, hzx, hzr, hxr',
    hrip, hflags, hregs .rsp (by decide)⟩

end ToastOS.Cpu
