import ToastOS.Cpu.System

/-!
# What each task finds when it goes on

The invariant of `Sys`: a task that does not run has its frame on its stack and the frame's address in its TCB; the
running one has the words of its stub where it left them. Steps of the running task alone come under one lemma
(`Inv.become`); a switch, a new task and a freed one have their own.
-/

namespace ToastOS.Cpu

open ToastOS.Lib Function
open ToastOS.Lib.X86

variable {c : Code} {t' : Task} {m : Mem} {cpu : X86.Cpu Var} {parked : Bool}

/-- From here on the stub leads back to the user's registers, whatever the handler does within its convention. -/
def Good : List Op → Call → Local → Prop
  | [], call, l => l.stack = [some (call.regs .rsp)] ∧ l.regs .rcx = call.rip ∧ l.regs .r11 = call.rflags ∧
      l.regs .rax = call.result ∧ ∀ r, r ∉ [Reg.rax, .rcx, .r11, .rsp] → l.regs r = call.regs r
  | .instr i :: rest, call, l => l.stack.length < 16 ∧ ∃ l', i.onLocal l = some l' ∧ Good rest call l'
  | .handler :: rest, call, l => ∀ regs : Reg → Word, (∀ r, r ≠ .rsp → r.calleeSaved = true → regs r = l.regs r) →
      Good rest { call with result := regs .rax } ⟨regs, l.stack⟩

/-- The stub of a task, with `rest` to come. -/
structure StubOk (isUser : Bool) (call : Call) (rest : List Op) (here : Local) : Prop where
  user : isUser = true
  good : Good rest call here
  depth : here.stack.length ≤ 16

/-- The frame of an interrupt has the registers of the stub, and its stack pointer. -/
structure FrameOk (top : Nat) (sys : SystemState) (here : Local) : Prop where
  regs : ∀ r, r ≠ .rsp → sys.regs r = here.regs r
  rsp : sys.rsp.toNat + 8 * here.stack.length = top

def ControlOk (isUser : Bool) (top : Nat) : Control → Prop
  | .kernel => True
  | .user => isUser = true
  | .stub call rest here => StubOk isUser call rest here
  | .above .handler call rest here => StubOk isUser call (.handler :: rest) here
  | .above (.interrupt sys) call rest here => StubOk isUser call rest here ∧ FrameOk top sys here

/-- What holds of every task, running or not. -/
structure TaskOk (m : Mem) (u : Word) (t : Task) : Prop where
  rsp0 : t.isUser = true → read64 m (u.toNat + tcbRsp0) = BitVec.ofNat 64 t.stack.top
  faithful : t.faithful = true
  control : ControlOk t.isUser t.stack.top t.control

/-- A task that can be resumed: its frame is at `sp`, and the words of its stub are above it. -/
structure Suspended (m : Mem) (u : Word) (t : Task) (sp : Word) : Prop where
  rsp : read64 m (u.toNat + tcbRsp) = sp
  frame : Frame m sp t.saved
  lo : t.stack.lo ≤ sp.toNat
  base : sp.toNat + 56 ≤ t.base
  kernel : t.control.inKernel = true
  words : Holds m t.base t.control.words

/-- The task that runs. -/
structure Runs (s : X86.Cpu Var) (parked : Bool) (t : Task) : Prop where
  words : Holds s.mem t.base t.control.words
  stub : ∀ call rest here, t.control = .stub call rest here → Refines t.stack.top s here
  parked : parked = true → t.control.inKernel = true
  kernelRsp : t.isUser = true →
    s.vars .syscallKernelRsp = BitVec.ofNat 64 t.stack.top ∧ s.vars .tssRsp0 = BitVec.ofNat 64 t.stack.top

/-- Stacks and the words of TCBs do not overlap. -/
structure Layout (tasks : Word → Option Task) : Prop where
  tcbs : ∀ u v t t', u ≠ v → tasks u = some t → tasks v = some t' → Apart (u.toNat + 16) 24 (v.toNat + 16) 24
  disjoint : ∀ u v t t', u ≠ v → tasks u = some t → tasks v = some t' →
    Apart t.stack.lo (t.stack.top - t.stack.lo) t'.stack.lo (t'.stack.top - t'.stack.lo)
  mixed : ∀ u v t t', tasks u = some t → tasks v = some t' → Apart (u.toNat + 16) 24 t'.stack.lo (t'.stack.top - t'.stack.lo)

structure Inv (s : Sys) : Prop where
  running : ∃ t, s.tasks s.running = some t ∧ Runs s.cpu s.parked t
  current : s.parked = false → s.cpu.vars .currentTaskTCB = s.running
  layout : Layout s.tasks
  tasks : ∀ u t, s.tasks u = some t → TaskOk s.cpu.mem u t
  suspended : ∀ u t, s.tasks u = some t → u ≠ s.running → ∃ sp, Suspended s.cpu.mem u t sp

section Congr

variable {y : Symbols} {m' : Mem} {u sp : Word} {t : Task}

theorem TaskOk.congr (h : TaskOk m u t) (hm : SameOn m m' (u.toNat + tcbRsp0) 8) : TaskOk m' u t :=
  ⟨fun hu => (read64_congr hm).trans (h.rsp0 hu), h.faithful, h.control⟩

/-- The words of the stub are kept with the memory above the base. -/
theorem words_congr (h : Holds m t.base t.control.words) (hdepth : 8 * t.control.words.length ≤ t.stack.top)
    (hstack : ∀ a n, t.base ≤ a → a + n ≤ t.stack.top → SameOn m m' a n) : Holds m' t.base t.control.words :=
  h.congr (hstack _ _ le_rfl (by rw [Task.base]; omega))

/-- Memory from the frame upwards is all that a suspended task needs. -/
theorem Suspended.congr (h : Suspended m u t sp) (hword : SameOn m m' (u.toNat + tcbRsp) 8)
    (hstack : ∀ a n, sp.toNat ≤ a → a + n ≤ t.stack.top → SameOn m m' a n) : Suspended m' u t sp := by
  have hbase := h.base
  have htop : t.base ≤ t.stack.top := Nat.sub_le _ _
  refine ⟨(read64_congr hword).trans h.rsp, h.frame.congr (hstack _ _ le_rfl (by omega)), h.lo, h.base, h.kernel,
    words_congr h.words ?_ fun a n ha => hstack a n (by omega)⟩
  rw [Task.base] at hbase
  omega

theorem ControlOk.depth {isUser : Bool} {top : Nat} {c : Control} (h : ControlOk isUser top c) : c.words.length ≤ 43 := by
  match c, h with
  | .kernel, _ => exact Nat.zero_le _
  | .user, _ => exact Nat.zero_le _
  | .stub .., h => exact (StubOk.depth h).trans (by decide)
  | .above .handler .., h => exact (StubOk.depth h).trans (by decide)
  | .above (.interrupt sys) _ _ here, h =>
    have hstub := h.1.depth
    have hpad := length_irqPad here.stack.length
    simp only [Control.words, SystemState.words, List.length_append, List.length_cons, List.length_nil]
    omega

end Congr

section Become

variable {y : Symbols} {s : Sys} {t : Task} {c : Control}

theorem Layout.replace {tasks : Word → Option Task} {u : Word} {t : Task} (h : Layout tasks) (ht : tasks u = some t)
    (hstack : t'.stack = t.stack) : Layout (update tasks u (some t')) := by
  -- every task of the new map is one of the old map, with the same stack
  have hold : ∀ v r, update tasks u (some t') v = some r → ∃ r₀, tasks v = some r₀ ∧ r₀.stack = r.stack := by
    intro v r hr
    rcases update_some_iff.1 hr with ⟨rfl, rfl⟩ | ⟨-, hr⟩
    · exact ⟨t, ht, hstack.symm⟩
    · exact ⟨r, hr, rfl⟩
  refine ⟨fun v w r r' hvw hr hr' => ?_, fun v w r r' hvw hr hr' => ?_, fun v w r r' hr hr' => ?_⟩ <;>
    obtain ⟨r₀, hr₀, hs⟩ := hold v r hr <;> obtain ⟨r₁, hr₁, hs'⟩ := hold w r' hr'
  · exact h.tcbs v w r₀ r₁ hvw hr₀ hr₁
  · exact hs ▸ hs' ▸ h.disjoint v w r₀ r₁ hvw hr₀ hr₁
  · exact hs' ▸ h.mixed v w r₀ r₁ hr₀ hr₁

/-- What the running task may change, seen from the others. -/
structure Leaves (s : Sys) (m m' : Mem) : Prop where
  tcb : ∀ u t, s.tasks u = some t → SameOn m m' (u.toNat + 16) 24
  others : ∀ u t, s.tasks u = some t → u ≠ s.running → ∀ a n, t.stack.lo ≤ a → a + n ≤ t.stack.top → SameOn m m' a n

theorem Guarded.leaves {own : Nat} {m' : Mem} (h : Guarded s own m m') : Leaves s m m' :=
  ⟨fun u t ht => (h u t ht).1, fun u t ht hne a n ha => (h u t ht).2 a n (by rwa [if_neg hne])⟩

/-- A step of the running task that leaves the others' memory alone. -/
theorem Inv.become (h : Inv s) (ht : s.tasks s.running = some t) (hleaves : Leaves s s.cpu.mem cpu.mem)
    (hruns : Runs cpu parked { t with control := c }) (hcur : parked = false → cpu.vars .currentTaskTCB = s.running)
    (hok : ControlOk t.isUser t.stack.top c) : Inv (s.become t cpu parked c) := by
  have hother : ∀ u r, u ≠ s.running → (s.become t cpu parked c).tasks u = some r → s.tasks u = some r :=
    fun u r hne hr => (update_of_ne hne _ _).symm.trans hr
  have hself : (s.become t cpu parked c).tasks s.running = some { t with control := c } := update_self ..
  refine ⟨⟨_, hself, hruns⟩, hcur, h.layout.replace ht rfl, fun u r hr => ?_, fun u r hr hne => ?_⟩
  · by_cases hu : u = s.running
    · subst hu
      cases hself.symm.trans hr
      have hold := h.tasks _ _ ht
      refine TaskOk.congr (m := s.cpu.mem) ⟨hold.rsp0, hold.faithful, hok⟩ ?_
      exact (hleaves.tcb _ _ ht).mono (by simp [tcbRsp0]) (by simp [tcbRsp0])
    · have hr' := hother u r hu hr
      exact (h.tasks u r hr').congr ((hleaves.tcb u r hr').mono (by simp [tcbRsp0]) (by simp [tcbRsp0]))
  · have hr' := hother u r hne hr
    obtain ⟨sp, hsp⟩ := h.suspended u r hr' hne
    refine ⟨sp, hsp.congr ((hleaves.tcb u r hr').mono (by simp [tcbRsp]) (by simp [tcbRsp])) fun a n ha => ?_⟩
    exact hleaves.others u r hr' hne a n (hsp.lo.trans ha)

theorem Leaves.refl (s : Sys) (m : Mem) : Leaves s m m := ⟨fun _ _ _ _ _ _ => rfl, fun _ _ _ _ _ _ _ _ _ _ _ => rfl⟩

theorem Inv.leaves_own (h : Inv s) (ht : s.tasks s.running = some t)
    (hm : ∀ a n, a + n ≤ t.stack.lo ∨ t.stack.top ≤ a → SameOn s.cpu.mem m a n) : Leaves s s.cpu.mem m := by
  have hroom := t.stack.room
  refine ⟨fun u r hr => hm _ _ ?_, fun u r hr hne a n ha hn => hm a n ?_⟩
  · have := h.layout.mixed u s.running r t hr ht
    rw [Apart] at this
    omega
  · have := h.layout.disjoint u s.running r t hne hr ht
    have := r.stack.room
    rw [Apart] at *
    omega

end Become

section Steps

variable {y : Symbols} {s s' : Sys} {t : Task}

theorem Runs.code (h : Runs s.cpu s.parked t) (hok : ControlOk t.isUser t.stack.top t.control)
    (ht : s.tasks s.running = some t)
    (hg : Guarded s t.base s.cpu.mem c.mem) (hstub : ∀ call rest here, t.control ≠ .stub call rest here) :
    Runs (c.run s.cpu) s.parked t := by
  have hdepth := hok.depth
  have hroom := t.stack.room
  refine ⟨words_congr h.words (by omega) fun a n ha hn => ?_, fun call rest here hc => absurd hc (hstub call rest here),
    h.parked, h.kernelRsp⟩
  exact (hg _ t ht).2 a n (by rwa [if_pos rfl]) hn

theorem Inv.runs (h : Inv s) (ht : s.tasks s.running = some t) : Runs s.cpu s.parked t := by
  obtain ⟨t', ht', hruns⟩ := h.running
  cases ht.symm.trans ht'
  exact hruns

theorem inv_compute (h : Inv s) (ht : s.tasks s.running = some t) (hp : Guarded s t.base s.cpu.mem c.mem)
    (hc : ∀ call rest here, t.control ≠ .stub call rest here) : Inv (s.become t (c.run s.cpu) s.parked t.control) := by
  have hok := (h.tasks _ _ ht).control
  exact h.become ht hp.leaves ((h.runs ht).code hok ht hp hc) h.current hok

theorem Runs.setVar {parked' : Bool} (h : Runs cpu parked t) (v : Word)
    (hk : parked' = true → t.control.inKernel = true) : Runs (setVar cpu .currentTaskTCB v) parked' t :=
  ⟨h.words, fun call rest here hc => ⟨(h.stub call rest here hc).regs, (h.stub call rest here hc).rsp,
    (h.stub call rest here hc).stack⟩, hk, h.kernelRsp⟩

theorem inv_park (h : Inv s) (ht : s.tasks s.running = some t) (hk : t.control.inKernel = true) :
    Inv (s.become t (setVar s.cpu .currentTaskTCB 0) true t.control) :=
  h.become ht (.refl s _) ((h.runs ht).setVar 0 fun _ => hk) (fun hp => nomatch hp) (h.tasks _ _ ht).control

theorem inv_unpark (h : Inv s) (ht : s.tasks s.running = some t) :
    Inv (s.become t (setVar s.cpu .currentTaskTCB s.running) false t.control) :=
  h.become ht (.refl s _) ((h.runs ht).setVar s.running fun hp => nomatch hp) (fun _ => rfl) (h.tasks _ _ ht).control

theorem Runs.plain {c : Control} (h : Runs cpu parked t) {cpu' : X86.Cpu Var}
    (hvars : cpu'.vars = cpu.vars) (hc : c = .kernel ∨ c = .user) (hk : parked = true → c.inKernel = true) :
    Runs cpu' parked { t with control := c } := by
  rcases hc with rfl | rfl <;>
    exact ⟨trivial, (fun _ _ _ hc => nomatch hc), hk, fun hu => hvars ▸ h.kernelRsp hu⟩

theorem inv_toUser (h : Inv s) (ht : s.tasks s.running = some t) (hp : Guarded s t.base s.cpu.mem c.mem)
    (hpark : s.parked = false) (hu : t.isUser = true) : Inv (s.become t (c.run s.cpu) false .user) := by
  rw [← hpark]
  exact h.become ht hp.leaves ((h.runs ht).plain rfl (.inr rfl) (by simp [hpark])) h.current hu

/-- User code and the stub run only while nobody is parked. -/
theorem Runs.not_parked (h : Runs cpu parked t) (hk : t.control.inKernel = false) : parked = false := by
  cases parked with
  | false => rfl
  | true => rw [h.parked rfl] at hk; cases hk

theorem irqEntry_within {k : Stack} (htss : cpu.vars .tssRsp0 = BitVec.ofNat 64 k.top) (ss cs : Word) :
    Within k.lo k.top cpu (irqEntry cpu ss cs) := by
  have hroom := k.room
  have htop : (BitVec.ofNat 64 k.top).toNat = k.top := by rw [BitVec.toNat_ofNat, Nat.mod_eq_of_lt k.bound]
  have hrsp : ((cpu.set .rsp (cpu.vars .tssRsp0)).regs .rsp).toNat = k.top := by
    rw [Cpu.regs_set, update_self, htss, htop]
  have hpush := within_pushes [ss, cpu.regs .rsp, cpu.rflags, cs, cpu.rip] (s := cpu.set .rsp (cpu.vars .tssRsp0))
    (by rw [hrsp]; simp only [List.length_cons, List.length_nil]; omega)
  rw [hrsp] at hpush
  exact ⟨hpush.vars, hpush.cr3, fun a n ha => hpush.mem a n (by simp only [List.length_cons, List.length_nil]; omega)⟩

theorem inv_irqUser (ss cs : Word) (h : Inv s) (ht : s.tasks s.running = some t) (hc : t.control = .user) :
    Inv (s.become t (irqEntry s.cpu ss cs) s.parked .kernel) := by
  have hok := (h.tasks _ _ ht).control
  rw [hc] at hok
  have hw := irqEntry_within ((h.runs ht).kernelRsp hok).2 ss cs
  refine h.become ht (h.leaves_own ht hw.mem) ((h.runs ht).plain hw.vars (.inl rfl) fun _ => rfl) (fun hp => ?_) trivial
  rw [hw.vars]
  exact h.current hp

/-! ## The stub -/

theorem good_block {is : List (Instr Var)} {rest : List Op} {call : Call} {l l' : Local} (hrun : runLocal is l = some l')
    (hroom : l.stack.length + is.countP Instr.grows < 16) (h : Good rest call l') : Good (is.map .instr ++ rest) call l := by
  induction is generalizing l with
  | nil =>
    cases hrun
    exact h
  | cons i is ih =>
    rw [runLocal, List.foldlM_cons, Option.bind_eq_bind, Option.bind_eq_some_iff] at hrun
    obtain ⟨l₁, hl₁, hrest⟩ := hrun
    have hlen := length_onLocal hl₁
    rw [List.countP_cons] at hroom
    exact ⟨by omega, l₁, hl₁, ih hrest (by omega)⟩

/-- The words that the stub saves, below the user's `rsp`. -/
def stubWords (regs : Reg → Word) (rsp : Word) : List (Option Word) :=
  [none, some (regs .r10), some (regs .r9), some (regs .r8), some (regs .rdx), some (regs .rsi), some (regs .rdi),
    some (regs .r11), some (regs .rcx), some rsp]

theorem runLocal_entry (regs : Reg → Word) (rsp : Word) : ∃ l,
    runLocal (syscallEntrySave ++ syscallEntryArgs) ⟨regs, [some rsp]⟩ = some l ∧ l.stack = stubWords regs rsp ∧
      ∀ r : Reg, r ≠ .rsp → r.calleeSaved = true → l.regs r = regs r := by
  refine ⟨_, rfl, rfl, fun r hne hr => ?_⟩
  cases r <;> first
    | exact absurd rfl hne
    | (cases hr; done)
    | rfl

theorem runLocal_restore (regs regs' : Reg → Word) (rsp : Word) : ∃ l,
    runLocal syscallEntryRestore ⟨regs', stubWords regs rsp⟩ = some l ∧ l.stack = [some rsp] ∧ l.regs .rax = regs' .rax ∧
      ∀ r : Reg, r ≠ .rax → (r.calleeSaved = true → regs' r = regs r) → l.regs r = regs r := by
  refine ⟨_, rfl, rfl, rfl, fun r hrax hr => ?_⟩
  cases r <;> first
    | rfl
    | exact hr rfl
    | exact absurd rfl hrax

/-- The whole stub, from behind the push of the user's `rsp`. -/
theorem good_entry (call : Call) {l : Local} (hstack : l.stack = [some (call.regs .rsp)]) (hrcx : l.regs .rcx = call.rip)
    (hr11 : l.regs .r11 = call.rflags) (hregs : ∀ r, r ∉ [Reg.rcx, .r11, .rsp] → l.regs r = call.regs r) :
    Good syscallEntryBody call l := by
  obtain ⟨regs, stack⟩ := l
  subst hstack
  obtain ⟨l₁, hl₁, hst₁, hkeep₁⟩ := runLocal_entry regs (call.regs .rsp)
  refine good_block hl₁ (show 1 + 9 < 16 by decide) fun regs' hconv => ?_
  obtain ⟨l₂, hl₂, hst₂, hrax, hback⟩ := runLocal_restore regs regs' (call.regs .rsp)
  rw [hst₁, ← List.append_nil (List.map _ _)]
  refine good_block hl₂ (show 10 + 0 < 16 by decide) ?_
  -- what was saved comes back from the stack, and the other registers from the convention
  have hall (r : Reg) (h1 : r ≠ .rax) (h2 : r ≠ .rsp) : l₂.regs r = regs r :=
    hback r h1 fun hr => (hconv r h2 hr).trans (hkeep₁ r h2 hr)
  refine ⟨hst₂, (hall .rcx (by decide) (by decide)).trans hrcx, (hall .r11 (by decide) (by decide)).trans hr11, hrax,
    fun r hr => ?_⟩
  simp only [List.mem_cons, List.not_mem_nil, or_false, not_or] at hr hregs
  exact (hall r hr.1 hr.2.2.2).trans (hregs r hr.2)

theorem head_spec {k : Stack} (hskr : cpu.vars .syscallKernelRsp = BitVec.ofNat 64 k.top) :
    let cpu' := execs syscallEntryHead (syscallInstr cpu)
    Refines k.top cpu' ⟨(syscallInstr cpu).regs, [some (cpu.regs .rsp)]⟩ ∧
      (∀ x, x ≠ .savedUserRsp → cpu'.vars x = cpu.vars x) ∧
      ∀ a n, a + n ≤ k.lo ∨ k.top ≤ a → SameOn cpu.mem cpu'.mem a n := by
  have hroom := k.room
  have hbound := k.bound
  have htop : (BitVec.ofNat 64 k.top).toNat = k.top := by rw [BitVec.toNat_ofNat, Nat.mod_eq_of_lt k.bound]
  have hsub : (BitVec.ofNat 64 k.top - 8).toNat = k.top - 8 := by rw [toNat_sub_eight (by omega), htop]
  have hmem : (execs syscallEntryHead (syscallInstr cpu)).mem = write64 cpu.mem (k.top - 8) (cpu.regs .rsp) := by
    rw [← hsub, ← hskr]
    rfl
  have hrsp : (execs syscallEntryHead (syscallInstr cpu)).regs .rsp = BitVec.ofNat 64 k.top - 8 := by
    rw [← hskr]
    rfl
  refine ⟨⟨fun r hr => ?_, ?_, ?_⟩, fun x hx => update_of_ne hx _ _, fun a n ha => ?_⟩
  · cases r <;> first
      | exact absurd rfl hr
      | rfl
  · rw [hrsp, hsub]
    exact Nat.sub_add_cancel (by omega)
  · rw [hrsp, hsub, hmem]
    exact holds_write64 trivial
  · rw [hmem]
    exact sameOn_write64 _ _ (by omega)

theorem inv_sysCall (h : Inv s) (ht : s.tasks s.running = some t) (hc : t.control = .user) :
    Inv (s.become t (execs syscallEntryHead (syscallInstr s.cpu)) s.parked
      (.stub ⟨s.cpu.regs, s.cpu.rip, s.cpu.rflags, 0⟩ syscallEntryBody ⟨(syscallInstr s.cpu).regs,
      [some (s.cpu.regs .rsp)]⟩)) := by
  have hok := (h.tasks _ _ ht).control
  have hruns := h.runs ht
  rw [hc] at hok
  have hpark : s.parked = false := hruns.not_parked (by rw [hc]; rfl)
  obtain ⟨hrefines, hvars, hmem⟩ := head_spec (hruns.kernelRsp hok).1
  refine h.become ht (h.leaves_own ht hmem) ⟨hrefines.words, fun _ _ _ hc' => ?_, fun hp => ?_, fun hu => ?_⟩ (fun hp => ?_)
    ⟨hok, good_entry _ rfl rfl rfl fun r hr => ?_, show 1 ≤ 16 by decide⟩
  · cases hc'
    exact hrefines
  · rw [hpark] at hp
    cases hp
  · rw [hvars _ (by decide), hvars _ (by decide)]
    exact hruns.kernelRsp hu
  · rw [hvars _ (by decide)]
    exact h.current hp
  · simp only [List.mem_cons, List.not_mem_nil, or_false, not_or] at hr
    simp [syscallInstr, hr.1, hr.2.1]

section InStub

variable {call : Call} {rest : List Op} {here : Local}

theorem inv_instr {i : Instr Var} (h : Inv s) (ht : s.tasks s.running = some t)
    (hc : t.control = .stub call (.instr i :: rest) here) :
    Inv (s.become t (i.exec s.cpu) s.parked (.stub call rest ((i.onLocal here).getD here))) := by
  have hok := (h.tasks _ _ ht).control
  have hruns := h.runs ht
  rw [hc] at hok
  obtain ⟨hlen, l', hl', hgood⟩ := hok.good
  have hroom := t.stack.room
  obtain ⟨hrefines, hwithin⟩ := refines_exec t.stack.lo (hruns.stub _ _ _ hc) hl' (fun _ => by omega) t.stack.bound
  have hdepth : l'.stack.length ≤ 16 := by
    have := length_onLocal hl'
    split at this <;> omega
  rw [hl', Option.getD_some]
  refine h.become ht (h.leaves_own ht hwithin.mem) ⟨hrefines.words, fun _ _ _ hc' => ?_, fun hp => ?_, fun hu => ?_⟩
    (fun hp => ?_) ⟨hok.user, hgood, hdepth⟩
  · cases hc'
    exact hrefines
  · have := hruns.parked hp
    rw [hc] at this
    cases this
  · rw [hwithin.vars]
    exact hruns.kernelRsp hu
  · rw [hwithin.vars]
    exact h.current hp

theorem inv_callHandler (h : Inv s) (ht : s.tasks s.running = some t) (hc : t.control = .stub call (.handler :: rest) here) :
    Inv (s.become t s.cpu s.parked (.above .handler call rest here)) := by
  have hok := (h.tasks _ _ ht).control
  have hruns := h.runs ht
  have hwords := hruns.words
  rw [hc] at hok
  rw [Task.base, hc] at hwords
  exact h.become ht (.refl s _) ⟨hwords, (fun _ _ _ hc' => nomatch hc'), fun _ => rfl, hruns.kernelRsp⟩ h.current
    ⟨hok.user, hok.good, StubOk.depth hok⟩

theorem inv_interrupt (sys : SystemState) (h : Inv s) (ht : s.tasks s.running = some t)
    (hc : t.control = .stub call rest here) :
    Inv (s.become t (irqCommonHandler sys s.cpu) s.parked (.above (.interrupt (sys.of s.cpu)) call rest here)) := by
  have hok := (h.tasks _ _ ht).control
  have hruns := h.runs ht
  rw [hc] at hok
  have hdepth : here.stack.length ≤ 16 := StubOk.depth hok
  have hroom := t.stack.room
  have href := hruns.stub _ _ _ hc
  have hown : Refines t.stack.top s.cpu ⟨s.cpu.regs, here.stack⟩ := ⟨fun _ _ => rfl, href.rsp, href.stack⟩
  obtain ⟨hwords, hwithin⟩ := irqCommonHandler_spec t.stack.lo sys hown t.stack.aligned (by omega) t.stack.bound
  refine h.become ht (h.leaves_own ht hwithin.mem) ⟨hwords, (fun _ _ _ hc' => nomatch hc'), fun _ => rfl, fun hu => ?_⟩
    (fun hp => ?_) ⟨hok, href.regs, href.rsp⟩
  · rw [hwithin.vars]
    exact hruns.kernelRsp hu
  · rw [hwithin.vars]
    exact h.current hp

/-- Where the code above the stub has followed its convention, the stub goes on. -/
structure Back (s : Sys) (t : Task) (cpu : X86.Cpu Var) (call : Call) (rest : List Op) (here : Local) : Prop where
  stub : StubOk t.isUser call rest ⟨update cpu.regs .rsp (here.regs .rsp), here.stack⟩
  refines : Refines t.stack.top cpu ⟨update cpu.regs .rsp (here.regs .rsp), here.stack⟩
  within : Within t.stack.lo t.stack.top s.cpu cpu

theorem Inv.back (h : Inv s) (ht : s.tasks s.running = some t)
    (hpark : s.parked = false) (hb : Back s t cpu call rest here) :
    Inv (s.become t cpu false (.stub call rest ⟨update cpu.regs .rsp (here.regs .rsp), here.stack⟩)) := by
  have hruns := h.runs ht
  refine h.become ht (h.leaves_own ht hb.within.mem) ⟨hb.refines.words, fun _ _ _ hc => ?_, fun hp => (nomatch hp),
    fun hu => ?_⟩ (fun _ => ?_) hb.stub
  · cases hc
    exact hb.refines
  · rw [hb.within.vars]
    exact hruns.kernelRsp hu
  · rw [hb.within.vars]
    exact h.current hpark

theorem Runs.below (h : Runs cpu parked t) (hok : ControlOk t.isUser t.stack.top t.control)
    (hrsp : (cpu.regs .rsp).toNat = t.base) : Refines t.stack.top cpu ⟨cpu.regs, t.control.words⟩ := by
  have hdepth := hok.depth
  have hroom := t.stack.room
  refine ⟨fun _ _ => rfl, ?_, hrsp ▸ h.words⟩
  rw [hrsp, Task.base]
  exact Nat.sub_add_cancel (by omega)

theorem back_of_handler (h : Inv s) (ht : s.tasks s.running = some t)
    (hc : t.control = .above .handler call rest here) (hret : Returned s.cpu here t.base) :
    Back s t s.cpu { call with result := s.cpu.regs .rax } rest here := by
  have hok := (h.tasks _ _ ht).control
  have href := (h.runs ht).below hok hret.1
  rw [hc] at hok href
  have hstub : StubOk t.isUser call (.handler :: rest) here := hok
  refine ⟨⟨hstub.user, ?_, hstub.depth⟩, ⟨fun r hr => (update_of_ne hr _ _).symm, href.rsp, href.stack⟩, .of_regs _ _ _ _ _⟩
  exact hstub.good _ fun r hne hr => (update_of_ne hne _ _).trans (hret.2 r hne hr)

theorem back_of_interrupt {sys : SystemState} (h : Inv s)
    (ht : s.tasks s.running = some t) (hc : t.control = .above (.interrupt sys) call rest here)
    (hret : Returned s.cpu here t.base) : Back s t (irqCommonReturn s.cpu) call rest here := by
  have hok := (h.tasks _ _ ht).control
  have hdepth := hok.depth
  have hroom := t.stack.room
  have href := (h.runs ht).below hok hret.1
  rw [hc] at hok href hdepth
  obtain ⟨hstub, hframe⟩ := hok
  obtain ⟨hrsp, hregs, hwords, hwithin⟩ :=
    irqCommonReturn_spec t.stack.lo href (by simp only [Control.words] at hdepth; omega) t.stack.bound
  have hsame : update (irqCommonReturn s.cpu).regs .rsp (here.regs .rsp) = here.regs := by
    funext r
    rw [update_apply]
    split
    · rename_i hr
      rw [hr]
    · rename_i hr
      exact (hregs r hr).trans (hframe.regs r hr)
  have hsp := hframe.rsp
  refine ⟨hsame.symm ▸ hstub, ⟨fun r hr => (update_of_ne hr _ _).symm, hrsp.symm ▸ hsp, ?_⟩, hwithin⟩
  -- the word that the alignment skipped is of no use
  have hstack := holds_append hwords
  simp only [Control.words, List.length_append] at hdepth hstack
  rw [hrsp]
  rwa [show t.stack.top - 8 * ((irqPad here.stack.length).length + here.stack.length) + 8 * (irqPad here.stack.length).length
    = sys.rsp.toNat by omega] at hstack

theorem inv_ret {kind : Activation} (h : Inv s) (ht : s.tasks s.running = some t)
    (hc : t.control = .above kind call rest here) (hpark : s.parked = false) (hret : Returned s.cpu here t.base) :
    Inv (s.become t (kind.exit s.cpu) false (.stub (call.finish kind (s.cpu.regs .rax)) rest
      ⟨update (kind.exit s.cpu).regs .rsp (here.regs .rsp), here.stack⟩)) := by
  cases kind with
  | handler => exact h.back ht hpark (back_of_handler h ht hc hret)
  | interrupt sys => exact h.back ht hpark (back_of_interrupt h ht hc hret)

theorem inv_sysRet (h : Inv s) (ht : s.tasks s.running = some t) (hc : t.control = .stub call [] here) :
    Inv (s.become t (sysret (Instr.exec s.cpu (.pop .rsp))) s.parked .user) := by
  have hok := (h.tasks _ _ ht).control
  have hruns := h.runs ht
  rw [hc] at hok
  have hpark : s.parked = false := hruns.not_parked (by rw [hc]; rfl)
  refine h.become ht (.refl s _) (hruns.plain rfl (.inr rfl) fun hp => ?_) h.current hok.user
  rw [hpark] at hp
  cases hp

end InStub

end Steps

section Switch

variable {y : Symbols} {s s' : Sys} {t : Task} {next ret u : Word} {e₁ e₂ : Effect}

/-- A task can be resumed in memory `m`. -/
def Ready (m : Mem) (own : Nat) (running : Word) (u : Word) (r : Task) : Prop :=
  TaskOk m u r ∧ ∃ sp, Suspended m u r sp ∧ (u = running → own ≤ sp.toNat)

theorem Ready.guarded {m' : Mem} {own : Nat} {r r₀ : Task} (h : Ready m own s.running u r) (hg : Guarded s own m m')
    (hr : s.tasks u = some r₀) (hstack : r₀.stack = r.stack) : Ready m' own s.running u r := by
  obtain ⟨hok, sp, hsus, hown⟩ := h
  obtain ⟨hwords, hmem⟩ := hg u r₀ hr
  refine ⟨hok.congr (hwords.mono (by simp [tcbRsp0]) (by simp [tcbRsp0])), sp,
    hsus.congr (hwords.mono (by simp [tcbRsp]) (by simp [tcbRsp])) fun a n ha hn => hmem a n ?_ (hstack ▸ hn), hown⟩
  split
  · rename_i hu
    exact (hown hu).trans ha
  · exact hstack ▸ hsus.lo.trans ha

/-- At the first call of `context_switch`, all tasks can be resumed, the one that called it among them. -/
theorem ready_saved (next ret : Word) (h : Inv s) (ht : s.tasks s.running = some t) (hpark : s.parked = false)
    (hk : t.control.inKernel = true)
    (hlo : t.stack.lo + 64 ≤ (s.cpu.regs .rsp).toNat) (hbase : (s.cpu.regs .rsp).toNat ≤ t.base) :
    let cpu := savedCpu s.cpu next ret y.contextSwitch
    cpu.regs .r12 = next ∧
      ∀ u r, savedTasks s t ret u = some r → Ready cpu.mem ((s.cpu.regs .rsp).toNat - 56) s.running u r := by
  intro cpu
  have htop : t.base ≤ t.stack.top := Nat.sub_le _ _
  have hroom := t.stack.room
  have hown := h.layout.mixed _ _ t t ht ht
  rw [Apart] at hown
  obtain ⟨hr12, -, -, hword, hframe, hmem⟩ := save_spec next ret y.contextSwitch (h.current hpark) (by omega) (by omega)
  refine ⟨hr12, fun u r hr => ?_⟩
  rcases update_some_iff.1 hr with ⟨rfl, rfl⟩ | ⟨hu, hr⟩
  · -- its own frame, and the words above it
    have hsub : (s.cpu.regs .rsp - 56).toNat = (s.cpu.regs .rsp).toNat - 56 := by bv_omega
    have hok := h.tasks _ _ ht
    have hdepth := hok.control.depth
    refine ⟨TaskOk.congr ⟨hok.rsp0, hok.faithful, hok.control⟩ (hmem _ _ ?_ ?_), _,
      ⟨hword, hframe, ?_, ?_, hk, ?_⟩, fun _ => hsub.ge⟩
    · simp only [tcbRsp0]
      omega
    · simp only [tcbRsp0]
      omega
    · rw [hsub]
      show t.stack.lo ≤ _
      omega
    · rw [hsub]
      show _ ≤ t.base
      omega
    · have hwords : Holds cpu.mem t.base t.control.words :=
        words_congr (h.runs ht).words (by omega) fun a n ha hn => hmem a n (.inr (hbase.trans ha)) (by omega)
      exact hwords
  · -- another task is elsewhere
    obtain ⟨sp, hsus⟩ := h.suspended u r hr hu
    have htcb := h.layout.tcbs _ _ _ _ hu hr ht
    have hdis := h.layout.disjoint _ _ _ _ hu hr ht
    have hmix := h.layout.mixed _ _ _ _ hr ht
    have hmix' := h.layout.mixed _ _ _ _ ht hr
    have hroom' := r.stack.room
    have hlo' := hsus.lo
    rw [Apart] at htcb hdis hmix hmix'
    have hkept (k : Nat) (h1 : 16 ≤ k) (h2 : k + 8 ≤ 40) : SameOn s.cpu.mem cpu.mem (u.toNat + k) 8 :=
      hmem _ _ (by omega) (by omega)
    refine ⟨(h.tasks u r hr).congr (hkept tcbRsp0 (by decide) (by decide)), sp,
      hsus.congr (hkept tcbRsp (by decide) (by decide)) fun a n ha hn => hmem a n ?_ ?_, fun hu' => absurd hu' hu⟩
    · omega
    · omega

theorem resumed_of {c : Saved} (h : Resumed cpu c) : resumed cpu c = true := by
  have hr := h.regs
  simp [resumed, hr .rbx rfl, hr .rbp rfl, hr .rsp rfl, hr .r12 rfl, hr .r13 rfl, hr .r14 rfl, hr .r15 rfl, h.rip]

/-- What a permitted switch to the task `t'` does. -/
structure Switched (s : Sys) (t' : Task) (next : Word) (cpu : X86.Cpu Var) : Prop where
  resumed : Resumed cpu t'.saved
  current : cpu.vars .currentTaskTCB = next
  kernelRsp : cpu.vars .syscallKernelRsp = read64 cpu.mem (next.toNat + tcbRsp0) ∧
    cpu.vars .tssRsp0 = read64 cpu.mem (next.toNat + tcbRsp0)
  cr3 : cpu.cr3 = read64 cpu.mem (next.toNat + tcbCr3)

theorem switch_spec (h : Inv s) (ht : s.tasks s.running = some t) (hp : PermittedRunning y s t (.switch next ret e₁ e₂))
    (hpark : s.parked = false) (hk : t.control.inKernel = true) (ht' : savedTasks s t ret next = some t') :
    let cpu := contextSwitch e₁ e₂ (Cpu.call (s.cpu.set .rdi next) ret y.contextSwitch)
    Switched s t' next cpu ∧
      ∀ u r, savedTasks s t ret u = some r → Ready cpu.mem ((s.cpu.regs .rsp).toNat - 56) s.running u r := by
  obtain ⟨hlo, hbase, hg₁, hg₂⟩ := hp
  obtain ⟨hr12, hready⟩ := ready_saved next ret h ht hpark hk hlo hbase
  have hold {u : Word} {r : Task} (hr : savedTasks s t ret u = some r) : ∃ r₀, s.tasks u = some r₀ ∧ r₀.stack = r.stack := by
    rcases update_some_iff.1 hr with ⟨rfl, rfl⟩ | ⟨-, hr⟩
    · exact ⟨t, ht, rfl⟩
    · exact ⟨r, hr, rfl⟩
  have hready₃ : ∀ u r, savedTasks s t ret u = some r →
      Ready (e₂.mem (e₁.mem (savedCpu s.cpu next ret y.contextSwitch).mem)) ((s.cpu.regs .rsp).toNat - 56) s.running u r := by
    intro u r hr
    obtain ⟨r₀, hr₀, hstack⟩ := hold hr
    exact ((hready u r hr).guarded hg₁ hr₀ hstack).guarded hg₂ hr₀ hstack
  obtain ⟨-, sp, hsus, -⟩ := hready₃ next t' ht'
  obtain ⟨hres, hmem, hcr3, hcur, hskr, htss⟩ := contextSwitch_spec hr12 hsus.rsp hsus.frame
  obtain ⟨r₀, hr₀, -⟩ := hold ht'
  have hrsp0 := read64_congr ((hg₂ next r₀ hr₀).1.mono (show next.toNat + 16 ≤ next.toNat + tcbRsp0 by simp [tcbRsp0])
    (show next.toNat + tcbRsp0 + 8 ≤ next.toNat + 16 + 24 by simp [tcbRsp0]))
  intro cpu
  rw [← hrsp0, ← hmem] at hskr htss
  rw [← hmem] at hcr3 hready₃
  exact ⟨⟨hres, hcur, ⟨hskr, htss⟩, hcr3⟩, hready₃⟩

theorem inv_switch (h : Inv s) (ht : s.tasks s.running = some t) (hp : PermittedRunning y s t (.switch next ret e₁ e₂))
    (hpark : s.parked = false) (hk : t.control.inKernel = true) (ht' : savedTasks s t ret next = some t')
    (hcpu : cpu = contextSwitch e₁ e₂ (Cpu.call (s.cpu.set .rdi next) ret y.contextSwitch)) :
    Inv ⟨cpu, next, false, update (savedTasks s t ret) next
      (some { t' with faithful := t'.faithful && resumed cpu t'.saved })⟩ := by
  obtain ⟨hsw, hready⟩ := switch_spec h ht hp hpark hk ht'
  rw [← hcpu] at hsw hready
  obtain ⟨hok, sp, hsus, -⟩ := hready next t' ht'
  have hlayout : Layout (savedTasks s t ret) := h.layout.replace ht rfl
  have hself : update (savedTasks s t ret) next
      (some { t' with faithful := t'.faithful && resumed cpu t'.saved }) next =
      some { t' with faithful := t'.faithful && resumed cpu t'.saved } := update_self ..
  refine ⟨⟨_, hself, hsus.words, fun call rest here hc => ?_, fun hp => (nomatch hp), fun hu => ?_⟩, fun _ => hsw.current,
    hlayout.replace ht' rfl, fun u r hr => ?_, fun u r hr hu => ?_⟩
  · have hkernel := hsus.kernel
    rw [show t'.control = .stub call rest here from hc] at hkernel
    cases hkernel
  · rw [hsw.kernelRsp.1, hsw.kernelRsp.2]
    exact ⟨hok.rsp0 hu, hok.rsp0 hu⟩
  · rcases update_some_iff.1 hr with ⟨rfl, rfl⟩ | ⟨-, hr⟩
    · refine ⟨hok.rsp0, ?_, hok.control⟩
      rw [hok.faithful, resumed_of hsw.resumed]
      rfl
    · exact (hready u r hr).1
  · obtain ⟨-, sp, hsus, -⟩ := hready u r ((update_of_ne hu _ _).symm.trans hr)
    exact ⟨sp, hsus⟩

end Switch

section Create

variable {y : Symbols} {s s' : Sys} {t : Task} {tcb stack fn arg0 arg1 cr3 : Word} {f : TaskFields}

theorem Layout.add {tasks : Word → Option Task} (h : Layout tasks)
    (hself : Apart (tcb.toNat + 16) 24 t'.stack.lo (t'.stack.top - t'.stack.lo))
    (htcb : ∀ u t, tasks u = some t → Apart (tcb.toNat + 16) 24 (u.toNat + 16) 24 ∧
      Apart (tcb.toNat + 16) 24 t.stack.lo (t.stack.top - t.stack.lo))
    (hstack : ∀ u t, tasks u = some t → Apart t'.stack.lo (t'.stack.top - t'.stack.lo) (u.toNat + 16) 24 ∧
      Apart t'.stack.lo (t'.stack.top - t'.stack.lo) t.stack.lo (t.stack.top - t.stack.lo)) :
    Layout (update tasks tcb (some t')) := by
  have hswap {a n b k : Nat} (h : Apart a n b k) : Apart b k a n := Or.symm h
  refine ⟨fun v w r r' hvw hr hr' => ?_, fun v w r r' hvw hr hr' => ?_, fun v w r r' hr hr' => ?_⟩ <;>
    rcases update_some_iff.1 hr with ⟨rfl, rfl⟩ | ⟨-, hv⟩ <;> rcases update_some_iff.1 hr' with ⟨rfl, rfl⟩ | ⟨-, hw⟩
  · exact absurd rfl hvw
  · exact (htcb w r' hw).1
  · exact hswap (htcb v r hv).1
  · exact h.tcbs v w r r' hvw hv hw
  · exact absurd rfl hvw
  · exact (hstack w r' hw).2
  · exact hswap (hstack v r hv).2
  · exact h.disjoint v w r r' hvw hv hw
  · exact hself
  · exact (htcb w r' hw).2
  · exact hswap (hstack v r hv).1
  · exact h.mixed v w r r' hv hw

theorem Inv.add (h : Inv s) (ht : s.tasks s.running = some t) (hk : t.control.inKernel = true)
    (hnew : ∀ u r, s.tasks u = some r → u ≠ tcb) (hwords : ∀ u r, s.tasks u = some r → SameOn s.cpu.mem m (u.toNat + 16) 24)
    (hkept : ∀ u r, s.tasks u = some r → ∀ a n, r.stack.lo ≤ a → a + n ≤ r.stack.top → SameOn s.cpu.mem m a n)
    (hlayout : Layout (update s.tasks tcb (some t'))) (hok : TaskOk m tcb t') (hsus : ∃ sp, Suspended m tcb t' sp) :
    Inv { s with cpu := { s.cpu with mem := m }, tasks := update s.tasks tcb (some t') } := by
  have hruns := h.runs ht
  have hdepth := (h.tasks _ _ ht).control.depth
  have hroom := t.stack.room
  refine ⟨⟨t, (update_of_ne (hnew _ _ ht) _ _).trans ht, ?_, fun call rest here hc => ?_, hruns.parked,
    hruns.kernelRsp⟩, h.current, hlayout, fun u r hr => ?_, fun u r hr hu => ?_⟩
  · refine words_congr hruns.words (by omega) fun a n ha hn => hkept _ t ht a n ?_ hn
    rw [Task.base] at ha
    omega
  · rw [hc] at hk
    cases hk
  · rcases update_some_iff.1 hr with ⟨rfl, rfl⟩ | ⟨-, hr⟩
    · exact hok
    · exact (h.tasks u r hr).congr ((hwords u r hr).mono (by simp [tcbRsp0]) (by simp [tcbRsp0]))
  · rcases update_some_iff.1 hr with ⟨rfl, rfl⟩ | ⟨-, hr⟩
    · exact hsus
    · obtain ⟨sp, hsus⟩ := h.suspended u r hr hu
      refine ⟨sp, hsus.congr ((hwords u r hr).mono (by simp [tcbRsp]) (by simp [tcbRsp])) fun a n ha => ?_⟩
      exact hkept u r hr a n (hsus.lo.trans ha)

theorem newTask_ok {stack : Nat} (hbound : stack + newTaskKstackSize < 2 ^ 64) (isUser : Bool)
    (hrsp : read64 m (tcb.toNat + tcbRsp) = BitVec.ofNat 64 (stackTop stack - 56))
    (hrsp0 : read64 m (tcb.toNat + tcbRsp0) = BitVec.ofNat 64 (stackTop stack))
    (hframe : Frame m (BitVec.ofNat 64 (stackTop stack - 56)) (firstSaved y.taskFirstRun fn arg0 arg1 (stackTop stack))) :
    TaskOk m tcb (newTask y stack hbound fn arg0 arg1 isUser) ∧
      ∃ sp, Suspended m tcb (newTask y stack hbound fn arg0 arg1 isUser) sp := by
  obtain ⟨hlo, hhi, halign⟩ := stackTop_bounds stack
  have hsp : (BitVec.ofNat 64 (stackTop stack - 56)).toNat = stackTop stack - 56 := by
    simp only [newTaskKstackSize] at hbound
    rw [BitVec.toNat_ofNat, Nat.mod_eq_of_lt (by omega)]
  refine ⟨⟨fun _ => hrsp0, rfl, trivial⟩, _, hrsp, hframe, ?_, ?_, rfl, trivial⟩
  · rw [hsp]
    show stack ≤ _
    omega
  · rw [hsp]
    show _ ≤ stackTop stack - 8 * 0
    omega

theorem inv_create (h : Inv s) (ht : s.tasks s.running = some t) (hp : Fresh s tcb.toNat stack.toNat)
    (hk : t.control.inKernel = true) (hbound : stack.toNat + newTaskKstackSize < 2 ^ 64)
    (hm : m = taskCreateInternal s.cpu.mem tcb.toNat stack.toNat y.taskFirstRun fn arg0 arg1 cr3 f) :
    Inv { s with
      cpu := { s.cpu with mem := m }
      tasks := update s.tasks tcb (some (newTask y stack.toNat hbound fn arg0 arg1 f.isUser)) } := by
  obtain ⟨hapart, hfresh⟩ := hp
  obtain ⟨hlo, hhi, -⟩ := stackTop_bounds stack.toNat
  obtain ⟨hrsp, hrsp0, -, hframe, hmem⟩ := taskCreateInternal_spec s.cpu.mem y.taskFirstRun fn arg0 arg1 cr3 f hbound hapart
  rw [← hm] at hrsp hrsp0 hframe hmem
  obtain ⟨hok, hsus⟩ := newTask_ok hbound f.isUser hrsp hrsp0 hframe
  simp only [taskSize, newTaskKstackSize, List.mem_cons, List.not_mem_nil, or_false, Prod.mk.injEq, Apart]
    at hapart hfresh hmem
  have hfar (u : Word) (r : Task) (hr : s.tasks u = some r) :=
    And.intro (hfresh u r hr _ _ (.inl ⟨rfl, rfl⟩)) (hfresh u r hr _ _ (.inr ⟨rfl, rfl⟩))
  refine h.add ht hk (fun u r hr hu => ?_) (fun u r hr => ?_) (fun u r hr a n ha hn => ?_)
    (h.layout.add ?_ (fun u r hr => ?_) fun u r hr => ?_) hok hsus
  · have := hfar u r hr
    rw [hu] at this
    omega
  · have := hfar u r hr
    exact hmem _ _ (by omega) (by omega)
  · have := hfar u r hr
    exact hmem _ _ (by omega) (by omega)
  · simp only [Apart, newTask, newStack]
    omega
  · have := hfar u r hr
    simp only [Apart]
    omega
  · have := hfar u r hr
    simp only [Apart, newTask, newStack]
    omega

theorem inv_reap (h : Inv s) (ht : s.tasks s.running = some t) (hne : tcb ≠ s.running) :
    Inv { s with tasks := update s.tasks tcb none } := by
  have hold : ∀ u r, update s.tasks tcb none u = some r → s.tasks u = some r := fun u r hr => (update_none_iff.1 hr).2
  refine ⟨⟨t, (update_of_ne hne.symm _ _).trans ht, h.runs ht⟩, h.current, ⟨?_, ?_, ?_⟩, fun u r hr => h.tasks u r
    (hold u r hr), fun u r hr => h.suspended u r (hold u r hr)⟩
  · exact fun u v r r' huv hr hr' => h.layout.tcbs u v r r' huv (hold u r hr) (hold v r' hr')
  · exact fun u v r r' huv hr hr' => h.layout.disjoint u v r r' huv (hold u r hr) (hold v r' hr')
  · exact fun u v r r' hr hr' => h.layout.mixed u v r r' (hold u r hr) (hold v r' hr')

end Create

section Run

variable {y : Symbols} {s s' : Sys} {t : Task}

theorem inv_step {a : Act} (h : Inv s) (hp : Permitted y s a) (hs : step y s a = some s') : Inv s' := by
  obtain ⟨t, ht, hs⟩ := Option.bind_eq_some_iff.1 hs
  have hp := hp t ht
  cases taken_of_stepRunning hs with
  | compute hc => exact inv_compute h ht hp hc
  | park _ hk => exact inv_park h ht hk
  | unpark _ => exact inv_unpark h ht
  | toUser _ hpark hu => exact inv_toUser h ht hp hpark hu
  | irqUser hc => exact inv_irqUser _ _ h ht hc
  | sysCall hc => exact inv_sysCall h ht hc
  | instr hc => exact inv_instr h ht hc
  | callHandler hc => exact inv_callHandler h ht hc
  | interrupt hc => exact inv_interrupt _ h ht hc
  | ret hc hpark =>
    simp only [PermittedRunning, hc] at hp
    exact inv_ret h ht hc hpark (hp (h.tasks _ _ ht).faithful)
  | sysRet hc => exact inv_sysRet h ht hc
  | switch hpark hk ht' hcpu => exact inv_switch h ht hp hpark hk ht' hcpu
  | create hk hbound hm => exact inv_create h ht hp hk hbound hm
  | reap hne => exact inv_reap h ht hne

theorem inv_booted (h : Booted s t) : Inv s := by
  have honly : ∀ u r, s.tasks u = some r → u = s.running ∧ r = t := by
    intro u r hr
    rw [h.tasks] at hr
    rcases update_some_iff.1 hr with hr | ⟨-, hr⟩
    · exact hr
    · cases hr
  have ht : s.tasks s.running = some t := by
    rw [h.tasks]
    exact update_self ..
  refine ⟨⟨t, ht, ?_, fun call rest here hc => ?_, fun hp => ?_, fun hu => ?_⟩, fun _ => h.current.2,
    ⟨fun u v r r' huv hr hr' => ?_, fun u v r r' huv hr hr' => ?_, fun u v r r' hr hr' => ?_⟩, fun u r hr => ?_,
    fun u r hr hu => ?_⟩
  · rw [Task.base, h.kernel.1]
    trivial
  · rw [h.kernel.1] at hc
    cases hc
  · rw [h.current.1] at hp
    cases hp
  · rw [h.kernel.2] at hu
    cases hu
  · exact absurd ((honly u r hr).1.trans (honly v r' hr').1.symm) huv
  · exact absurd ((honly u r hr).1.trans (honly v r' hr').1.symm) huv
  · rw [(honly u r hr).1, (honly v r' hr').2]
    exact h.apart
  · obtain ⟨rfl, rfl⟩ := honly u r hr
    refine ⟨fun hu => ?_, h.faithful, ?_⟩
    · rw [h.kernel.2] at hu
      cases hu
    · rw [h.kernel.1]
      trivial
  · exact absurd (honly u r hr).1 hu

end Run

end ToastOS.Cpu
