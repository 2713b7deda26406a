import ToastOS.Cpu.Syscall

/-!
# `context_switch` and the stack of a new task

The routine of `ctx_switch.s` in its parts, around its two calls of C functions, and what `task_create_internal` builds
for it.

* `Frame m sp c` : the words that `context_switch` pops, for the registers and the return address of `c`;
* `save_spec` : the first half leaves a frame of the caller and puts its address into the TCB;
* `resume_spec` : the second half goes on with what the frame of the next task holds;
* `contextSwitch_spec` : the whole, if the next task's frame is still there behind the two calls;
* `taskCreateInternal_spec` : a new task has a frame that leads to `task_first_run`, and `taskFirstRun_calls` what that calls.
-/

namespace ToastOS.Cpu

open ToastOS.Lib
open ToastOS.Lib.X86

/-! ## The code -/

/-- Offsets into `task_t`. -/
def tcbRsp : Nat := 16
def tcbRsp0 : Nat := 24
def tcbCr3 : Nat := 32

def contextSwitchPushes : List (Instr Var) := [.push .rbx, .push .rbp, .push .r12, .push .r13, .push .r14, .push .r15]

/-- From there up to `call update_task_time`. -/
def contextSwitchSave : List (Instr Var) :=
  [.loadVar .currentTaskTCB .rax, .store .rsp tcbRsp .rax, .mov .rdi .r12, .sub 8 .rsp]

/-- Up to `call load_tss`. -/
def contextSwitchSelect : List (Instr Var) :=
  [.storeVar .r12 .currentTaskTCB, .load tcbRsp0 .r12 .rdi, .storeVar .rdi .syscallKernelRsp]

/-- Up to the comparison. -/
def contextSwitchLoad : List (Instr Var) := [.load tcbRsp .r12 .rsp, .load tcbCr3 .r12 .rax, .loadCr3 .rcx]

def contextSwitchPops : List (Instr Var) := [.pop .r15, .pop .r14, .pop .r13, .pop .r12, .pop .rbp, .pop .rbx]

/-- `load_tss`, and what it leaves behind. -/
def loadTss (e : Effect) (s : X86.Cpu Var) : X86.Cpu Var :=
  Cpu.callC { s with vars := Function.update s.vars .tssRsp0 (s.regs .rdi) } e

/-- What follows the calls. -/
def contextSwitchResume (s : X86.Cpu Var) : X86.Cpu Var :=
  let s := execs contextSwitchLoad s
  let s := if s.regs .rcx = s.regs .rax then s else Instr.exec s (.storeCr3 .rax)
  (execs contextSwitchPops s).ret

/-- `context_switch`, with the effects of `update_task_time` and `load_tss`. -/
def contextSwitch (e₁ e₂ : Effect) (s : X86.Cpu Var) : X86.Cpu Var :=
  let s := Cpu.callC (execs contextSwitchSave (execs contextSwitchPushes s)) e₁
  contextSwitchResume (loadTss e₂ (execs contextSwitchSelect s))

/-- `task_first_run` up to `call *%r12`, with the effect of `kernel_task_startup`. -/
def taskFirstRun (e : Effect) (ret : Word) (s : X86.Cpu Var) : X86.Cpu Var :=
  let s := execs [.mov .r13 .rdi, .mov .r14 .rsi] (s.callC e)
  s.call ret (s.regs .r12)

/-- `sizeof(task_t)` and `NEW_TASK_KSTACK_SIZE`. -/
def taskSize : Nat := 104
def newTaskKstackSize : Nat := 16384

/-- `stack_top` of `task_create_internal`. -/
def stackTop (stack : Nat) : Nat := (stack + newTaskKstackSize) / 16 * 16

/-- The other fields of a TCB that `task_create_internal` fills in. -/
structure TaskFields where
  name : Word
  pid : Word
  state : Word
  vmmCtx : Word
  isUser : Bool

/-- The memory after `task_create_internal`, from the `memset` to the assignment of the pid. -/
def taskCreateInternal (m : Mem) (tcb stack : Nat) (firstRun fn arg0 arg1 cr3 : Word) (f : TaskFields) : Mem :=
  let m := fill m tcb taskSize 0
  let top := stackTop stack
  let m := write64 m (top - 8) firstRun
  let m := write64 m (top - 16) 0
  let m := write64 m (top - 24) 0
  let m := write64 m (top - 32) fn
  let m := write64 m (top - 40) arg0
  let m := write64 m (top - 48) arg1
  let m := write64 m (top - 56) 0
  let m := write64 m tcb f.name
  let m := write64 m (tcb + tcbRsp) (BitVec.ofNat 64 (top - 56))
  let m := write64 m (tcb + tcbRsp0) (BitVec.ofNat 64 top)
  let m := write64 m (tcb + 80) (BitVec.ofNat 64 stack)
  let m := write64 m (tcb + 56) 0
  let m := write64 m (tcb + 72) 0
  let m := write64 m (tcb + 88) f.vmmCtx
  let m := write64 m (tcb + tcbCr3) cr3
  let m := write64 m (tcb + 96) (if f.isUser then 1 else 0)
  let m := write64 m (tcb + 40) f.state
  let m := write64 m (tcb + 48) 0
  write64 m (tcb + 8) f.pid

/-! ## Frames -/

/-- What a suspended task goes on with: its callee-saved registers, `rsp` among them, and its return address. -/
structure Saved where
  regs : Reg → Word
  rip : Word

/-- The words on the stack of a suspended task, from its saved `rsp` upwards. -/
def Saved.words (c : Saved) : List (Option Word) :=
  [some (c.regs .r15), some (c.regs .r14), some (c.regs .r13), some (c.regs .r12), some (c.regs .rbp),
    some (c.regs .rbx), some c.rip]

structure Frame (m : Mem) (sp : Word) (c : Saved) : Prop where
  words : Holds m sp.toNat c.words
  rsp : c.regs .rsp = sp + 56
  bound : sp.toNat + 56 < 2 ^ 64

/-- The CPU goes on with `c`. -/
structure Resumed (s : X86.Cpu Var) (c : Saved) : Prop where
  regs : ∀ r : Reg, r.calleeSaved = true → s.regs r = c.regs r
  rip : s.rip = c.rip

theorem Frame.congr {m m' : Mem} {sp : Word} {c : Saved} (h : Frame m sp c) (hm : SameOn m m' sp.toNat 56) : Frame m' sp c :=
  ⟨h.words.congr hm, h.rsp, h.bound⟩

section Save

variable {s : X86.Cpu Var} {cur : Word}

/-- The first six instructions push the registers over the return address. -/
theorem pushes_spec (s : X86.Cpu Var) (next ret target : Word) (hroom : 56 ≤ (s.regs .rsp).toNat) :
    let s' := execs contextSwitchPushes (Cpu.call (s.set .rdi next) ret target)
    s'.regs .rsp = s.regs .rsp - 56 ∧ s'.regs .rdi = next ∧
      Holds s'.mem (s.regs .rsp - 56).toNat (Saved.words ⟨s.regs, ret⟩) ∧
      Within ((s.regs .rsp).toNat - 56) (s.regs .rsp).toNat s s' := by
  have hlt := (s.regs .rsp).isLt
  have hsub : (s.regs .rsp - 56).toNat = (s.regs .rsp).toNat - 56 := by bv_omega
  have hempty : Refines (s.regs .rsp).toNat (s.set .rdi next) ⟨(s.set .rdi next).regs, []⟩ := ⟨fun _ _ => rfl, rfl, trivial⟩
  have hcall : Refines (s.regs .rsp).toNat (Cpu.call (s.set .rdi next) ret target) ⟨(s.set .rdi next).regs, [some ret]⟩ := by
    obtain ⟨hregs, hrsp, hstack⟩ := hempty.push ret (show 8 ≤ (s.regs .rsp).toNat by omega)
    exact ⟨hregs, hrsp, hstack⟩
  obtain ⟨⟨hregs, hrsp, hstack⟩, hwithin⟩ := refines_execs ((s.regs .rsp).toNat - 56) hcall
    (show runLocal contextSwitchPushes _ = some ⟨(s.set .rdi next).regs, Saved.words ⟨s.regs, ret⟩⟩ from rfl)
    (show _ - 56 + 8 * (1 + 6) ≤ _ by omega) hlt
  have hpush : Within ((s.regs .rsp).toNat - 56) (s.regs .rsp).toNat s (Cpu.call (s.set .rdi next) ret target) := by
    refine ⟨rfl, rfl, fun a n ha => sameOn_write64 _ _ ?_⟩
    have hsp : ((s.set .rdi next).regs .rsp - 8).toNat = (s.regs .rsp).toNat - 8 :=
      toNat_sub_eight (show 8 ≤ (s.regs .rsp).toNat by omega)
    rw [hsp]
    omega
  have hnew : (execs contextSwitchPushes (Cpu.call (s.set .rdi next) ret target)).regs .rsp = s.regs .rsp - 56 := by
    refine BitVec.eq_of_toNat_eq ?_
    rw [hsub]
    exact Nat.eq_sub_of_add_eq hrsp
  rw [hnew] at hstack
  exact ⟨hnew, hregs .rdi (by decide), hstack, hpush.trans hwithin⟩

/-- The CPU at the first call of `context_switch`, which was called with `next`. -/
def savedCpu (s : X86.Cpu Var) (next ret target : Word) : X86.Cpu Var :=
  execs contextSwitchSave (execs contextSwitchPushes (Cpu.call (s.set .rdi next) ret target))

theorem saved_state (s : X86.Cpu Var) : (execs contextSwitchSave s).regs .r12 = s.regs .rdi ∧
    (execs contextSwitchSave s).vars = s.vars ∧ (execs contextSwitchSave s).cr3 = s.cr3 ∧
    (execs contextSwitchSave s).mem = write64 s.mem ((s.vars .currentTaskTCB).toNat + tcbRsp) (s.regs .rsp) :=
  ⟨rfl, rfl, rfl, rfl⟩

/-- Up to its first call, `context_switch` saves the caller: its frame is on its stack, and the address in its TCB. -/
theorem save_spec (next ret target : Word) (hcur : s.vars .currentTaskTCB = cur) (hroom : 56 ≤ (s.regs .rsp).toNat)
    (hapart : cur.toNat + 24 ≤ (s.regs .rsp).toNat - 56 ∨ (s.regs .rsp).toNat ≤ cur.toNat + 16) :
    let s' := savedCpu s next ret target
    s'.regs .r12 = next ∧ s'.vars = s.vars ∧ s'.cr3 = s.cr3 ∧ read64 s'.mem (cur.toNat + tcbRsp) = s.regs .rsp - 56 ∧
      Frame s'.mem (s.regs .rsp - 56) ⟨s.regs, ret⟩ ∧
      ∀ a n, a + n ≤ (s.regs .rsp).toNat - 56 ∨ (s.regs .rsp).toNat ≤ a → a + n ≤ cur.toNat + 16 ∨ cur.toNat + 24 ≤ a →
        SameOn s.mem s'.mem a n := by
  have hlt := (s.regs .rsp).isLt
  have hsub : (s.regs .rsp - 56).toNat = (s.regs .rsp).toNat - 56 := by bv_omega
  obtain ⟨hrsp, hrdi, hwords, hwithin⟩ := pushes_spec s next ret target hroom
  rw [savedCpu]
  generalize execs contextSwitchPushes (Cpu.call (s.set .rdi next) ret target) = s₁ at hrsp hrdi hwords hwithin ⊢
  have hcur₁ : s₁.vars .currentTaskTCB = cur := by rw [hwithin.vars, hcur]
  obtain ⟨hr12, hvars, hcr3, hmem⟩ := saved_state s₁
  intro s'
  rw [hcur₁, hrsp] at hmem
  have hkept (a n : Nat) (ha : a + n ≤ cur.toNat + 16 ∨ cur.toNat + 24 ≤ a) : SameOn s₁.mem s'.mem a n := by
    rw [hmem]
    exact sameOn_write64 _ _ (by rw [tcbRsp]; omega)
  refine ⟨hr12.trans hrdi, hvars.trans hwithin.vars, hcr3.trans hwithin.cr3, ?_, ⟨?_, ?_, ?_⟩,
    fun a n ha ha' => (hwithin.mem a n ha).trans (hkept a n ha')⟩
  · rw [hmem, read64_write64]
  · exact hwords.congr (hkept _ _ (by rw [hsub]; simp only [Saved.words, List.length_cons, List.length_nil]; omega))
  · show s.regs .rsp = s.regs .rsp - 56 + 56
    bv_omega
  · omega

end Save

section Resume

variable {s : X86.Cpu Var} {next sp : Word} {c : Saved}

theorem runLocal_pops (regs : Reg → Word) (c : Saved) : ∃ l, runLocal contextSwitchPops ⟨regs, c.words⟩ = some l ∧
    l.stack = [some c.rip] ∧ ∀ r : Reg, r.calleeSaved = true → r ≠ .rsp → l.regs r = c.regs r := by
  refine ⟨_, rfl, rfl, fun r hr hne => ?_⟩
  cases r <;> first
    | exact absurd rfl hne
    | (cases hr; done)
    | rfl

theorem pops_spec (h : Frame s.mem sp c) (hrsp : s.regs .rsp = sp) : Resumed (execs contextSwitchPops s).ret c := by
  have hbound := h.bound
  have hstart : Refines (sp.toNat + 56) s ⟨s.regs, c.words⟩ :=
    ⟨fun _ _ => rfl, by rw [hrsp]; rfl, by rw [hrsp]; exact h.words⟩
  obtain ⟨l, hl, hst, hl'⟩ := runLocal_pops s.regs c
  obtain ⟨⟨hregs, hend, hstack⟩, -⟩ := refines_execs sp.toNat hstart hl (show _ + 8 * (7 + 0) ≤ _ by omega) hbound
  generalize execs contextSwitchPops s = s₁ at hregs hend hstack
  rw [hst] at hend hstack
  have hlast : s₁.regs .rsp + 8 = c.regs .rsp := by
    simp only [List.length_singleton] at hend
    rw [h.rsp]
    bv_omega
  refine ⟨fun r hr => ?_, hstack.1 _ rfl⟩
  by_cases hne : r = .rsp
  · rw [hne]
    exact hlast
  · exact (Function.update_of_ne hne _ _).trans ((hregs r hne).trans (hl' r hr hne))

/-- Behind its last call, `context_switch` goes on with the frame of the task in `r12`. -/
theorem resume_spec (hnext : s.regs .r12 = next) (hsp : read64 s.mem (next.toNat + tcbRsp) = sp) (h : Frame s.mem sp c) :
    let s' := contextSwitchResume s
    Resumed s' c ∧ s'.mem = s.mem ∧ s'.vars = s.vars ∧ s'.cr3 = read64 s.mem (next.toNat + tcbCr3) := by
  have hload : (execs contextSwitchLoad s).regs .rsp = sp ∧ (execs contextSwitchLoad s).regs .rcx = s.cr3 ∧
      (execs contextSwitchLoad s).regs .rax = read64 s.mem (next.toNat + tcbCr3) := by
    rw [← hsp, ← hnext]
    exact ⟨rfl, rfl, rfl⟩
  have hmem : (execs contextSwitchLoad s).mem = s.mem := rfl
  have hvars : (execs contextSwitchLoad s).vars = s.vars := rfl
  have hcr3 : (execs contextSwitchLoad s).cr3 = s.cr3 := rfl
  simp only [contextSwitchResume]
  generalize execs contextSwitchLoad s = s₁ at hload hmem hvars hcr3
  obtain ⟨hrsp, hrcx, hrax⟩ := hload
  split
  · rename_i heq
    exact ⟨pops_spec (hmem ▸ h) hrsp, hmem, hvars, by rw [← hrax, ← heq, hrcx]; exact hcr3⟩
  · exact ⟨pops_spec (show Frame s₁.mem sp c from hmem ▸ h) hrsp, hmem, hvars, hrax⟩

/-- Between the calls, `next` becomes the current task, with its kernel stack. -/
theorem selected_state (s : X86.Cpu Var) (e₁ e₂ : Effect) (hnext : s.regs .r12 = next) :
    let s' := loadTss e₂ (execs contextSwitchSelect (s.callC e₁))
    s'.regs .r12 = next ∧ s'.mem = e₂.mem (e₁.mem s.mem) ∧ s'.vars .currentTaskTCB = next ∧
      s'.vars .syscallKernelRsp = read64 (e₁.mem s.mem) (next.toNat + tcbRsp0) ∧
      s'.vars .tssRsp0 = read64 (e₁.mem s.mem) (next.toNat + tcbRsp0) := by
  subst hnext
  exact ⟨rfl, rfl, rfl, rfl, rfl⟩

/-- The whole routine: it goes on with the next task if that one's frame is in memory behind the two calls. -/
theorem contextSwitch_spec {ret target : Word} {e₁ e₂ : Effect} (hnext : (savedCpu s next ret target).regs .r12 = next)
    (hsp : read64 (e₂.mem (e₁.mem (savedCpu s next ret target).mem)) (next.toNat + tcbRsp) = sp)
    (h : Frame (e₂.mem (e₁.mem (savedCpu s next ret target).mem)) sp c) :
    let m := e₁.mem (savedCpu s next ret target).mem
    let s' := contextSwitch e₁ e₂ (Cpu.call (s.set .rdi next) ret target)
    Resumed s' c ∧ s'.mem = e₂.mem m ∧ s'.cr3 = read64 (e₂.mem m) (next.toNat + tcbCr3) ∧ s'.vars .currentTaskTCB = next ∧
      s'.vars .syscallKernelRsp = read64 m (next.toNat + tcbRsp0) ∧ s'.vars .tssRsp0 = read64 m (next.toNat + tcbRsp0) := by
  intro m s'
  have hs' : s' = contextSwitchResume (loadTss e₂ (execs contextSwitchSelect ((savedCpu s next ret target).callC e₁))) := rfl
  clear_value s'
  obtain ⟨hr12, hmem, hcur, hskr, htss⟩ := selected_state (savedCpu s next ret target) e₁ e₂ hnext
  generalize loadTss e₂ (execs contextSwitchSelect ((savedCpu s next ret target).callC e₁)) =
    s₁ at hr12 hmem hcur hskr htss hs'
  rw [← hmem] at hsp h
  obtain ⟨hres, hmem', hvars, hcr3⟩ := resume_spec hr12 hsp h
  rw [← hs'] at hres hmem' hvars hcr3
  rw [hmem] at hmem' hcr3
  exact ⟨hres, hmem', hcr3, by rw [hvars, hcur], by rw [hvars, hskr], by rw [hvars, htss]⟩

end Resume

section Create

/-- What a new task goes on with: `task_first_run` finds the function and its arguments in registers. -/
def firstSaved (firstRun fn arg0 arg1 : Word) (top : Nat) : Saved where
  regs r :=
    if r = .r12 then fn else if r = .r13 then arg0 else if r = .r14 then arg1 else if r = .rsp then BitVec.ofNat 64 top else 0
  rip := firstRun

variable {tcb stack : Nat} {firstRun fn arg0 arg1 : Word}

theorem stackTop_bounds (stack : Nat) :
    stack + 16368 < stackTop stack ∧ stackTop stack ≤ stack + 16384 ∧ stackTop stack % 16 = 0 := by
  simp only [stackTop, newTaskKstackSize]
  omega

theorem words_firstSaved (top : Nat) : (firstSaved firstRun fn arg0 arg1 top).words =
    [some 0, some arg1, some arg0, some fn, some 0, some 0, some firstRun] := rfl

theorem ofNat_sub_add {top : Nat} (h : 56 ≤ top) : BitVec.ofNat 64 top = BitVec.ofNat 64 (top - 56) + 56 := by
  rw [show (56 : Word) = BitVec.ofNat 64 56 from rfl, ← BitVec.ofNat_add, Nat.sub_add_cancel h]

theorem taskCreateInternal_spec (m : Mem) (firstRun fn arg0 arg1 cr3 : Word) (f : TaskFields)
    (hstack : stack + newTaskKstackSize < 2 ^ 64) (hapart : tcb + taskSize ≤ stack ∨ stack + newTaskKstackSize ≤ tcb) :
    let m' := taskCreateInternal m tcb stack firstRun fn arg0 arg1 cr3 f
    read64 m' (tcb + tcbRsp) = BitVec.ofNat 64 (stackTop stack - 56) ∧
      read64 m' (tcb + tcbRsp0) = BitVec.ofNat 64 (stackTop stack) ∧ read64 m' (tcb + tcbCr3) = cr3 ∧
      Frame m' (BitVec.ofNat 64 (stackTop stack - 56)) (firstSaved firstRun fn arg0 arg1 (stackTop stack)) ∧
      ∀ a n, a + n ≤ tcb ∨ tcb + taskSize ≤ a → a + n ≤ stack ∨ stack + newTaskKstackSize ≤ a → SameOn m m' a n := by
  obtain ⟨hlo, hhi, -⟩ := stackTop_bounds stack
  simp only [taskCreateInternal, taskSize, newTaskKstackSize, tcbRsp, tcbRsp0, tcbCr3] at *
  generalize stackTop stack = top at *
  refine ⟨?_, ?_, ?_, ⟨?_, ?_, ?_⟩, ?_⟩
  · simp (disch := omega) only [read64_write64_of_eq, read64_write64_of_apart]
  · simp (disch := omega) only [read64_write64_of_eq, read64_write64_of_apart]
  · simp (disch := omega) only [read64_write64_of_eq, read64_write64_of_apart]
  · rw [BitVec.toNat_ofNat, Nat.mod_eq_of_lt (by omega)]
    rw [words_firstSaved]
    simp (disch := omega) only [holds_cons_some, read64_write64_of_eq, read64_write64_of_apart, true_and]
    trivial
  · exact ofNat_sub_add (by omega)
  · rw [BitVec.toNat_ofNat, Nat.mod_eq_of_lt (by omega)]
    omega
  · intro a n h1 h2 x hx hx'
    simp (disch := omega) only [write64_of_apart, fill_of_apart]

/-- `task_first_run` calls the function with its arguments. -/
theorem taskFirstRun_calls {s : X86.Cpu Var} {top : Nat} (h : Resumed s (firstSaved firstRun fn arg0 arg1 top))
    (e : Effect) (ret : Word) :
    (taskFirstRun e ret s).rip = fn ∧ (taskFirstRun e ret s).regs .rdi = arg0 ∧ (taskFirstRun e ret s).regs .rsi = arg1 :=
  ⟨h.regs .r12 rfl, h.regs .r13 rfl, h.regs .r14 rfl⟩

end Create

end ToastOS.Cpu
