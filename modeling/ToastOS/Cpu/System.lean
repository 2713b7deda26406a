import ToastOS.Cpu.Interrupt
import ToastOS.Cpu.Switch
import ToastOS.Lib.Run

/-!
# Tasks on one CPU

All tasks of the system in any interleaving: unknown kernel and user code, `context_switch` between any of them, new
tasks, and syscalls through `syscall_entry` instruction by instruction, with interrupts between the instructions. An
interrupt of C code is part of that code. Beside the CPU, `Sys` records for every task what it was doing: this is
compared with what the CPU really does, and no step depends on it otherwise.

Unknown code may do anything to the registers and to memory, except where `Permitted` says so: it leaves alone the stacks of
other tasks, the three words of a TCB that the switch uses, and the part of its own stack that its callers use. Functions that
are called from `syscall_entry`, `irq_common_handler` and `context_switch` follow the calling convention.
-/

namespace ToastOS.Cpu

open ToastOS.Lib Function
open ToastOS.Lib.X86

/-- The range of a kernel stack. -/
structure Stack where
  lo : Nat
  top : Nat
  room : lo + 512 ≤ top
  bound : top < 2 ^ 64
  aligned : top % 16 = 0

/-- A syscall under way: the registers, `rip` and the flags at the instruction, and what the handler has returned. -/
structure Call where
  regs : Reg → Word
  rip : Word
  rflags : Word
  result : Word

/-- A place in `syscall_entry`. -/
inductive Op
  | instr (i : Instr Var)
  | handler

/-- `syscall_entry` from behind the push of the user's `rsp` to `popq %rsp`. -/
def syscallEntryBody : List Op :=
  (syscallEntrySave ++ syscallEntryArgs).map .instr ++ .handler :: syscallEntryRestore.map .instr

/-- The C code that runs above the stub: the handler it has called, or `irq_handler`. -/
inductive Activation
  | handler
  | interrupt (sys : SystemState)

/-- From the return of the C code to the stub. -/
def Activation.exit (kind : Activation) (s : X86.Cpu Var) : X86.Cpu Var :=
  match kind with
  | .handler => s
  | .interrupt _ => irqCommonReturn s

/-- What a task does: kernel code that belongs to no syscall, user code, the stub (with what is left of it), or code
above it. -/
inductive Control
  | kernel
  | user
  | stub (call : Call) (rest : List Op) (here : Local)
  | above (kind : Activation) (call : Call) (rest : List Op) (here : Local)

/-- The words on the stack that are of use to the stub. -/
def Control.words : Control → List (Option Word)
  | .stub _ _ here | .above .handler _ _ here => here.stack
  | .above (.interrupt sys) _ _ here => sys.words ++ (irqPad here.stack.length ++ here.stack)
  | _ => []

def Control.inKernel : Control → Bool
  | .kernel | .above .. => true
  | _ => false

/-- The record of a task. -/
structure Task where
  stack : Stack
  isUser : Bool
  control : Control
  /-- What it had in its registers when it last called `context_switch`. -/
  saved : Saved
  /-- Every `context_switch` that it called has come back with what it had saved. -/
  faithful : Bool

/-- Below this address its kernel code may use the stack. -/
def Task.base (t : Task) : Nat := t.stack.top - 8 * t.control.words.length

structure Sys where
  cpu : X86.Cpu Var
  /-- The task that runs, by the address of its TCB. -/
  running : Word
  /-- `schedule` has set `current_task_TCB` to NULL and waits for a task. -/
  parked : Bool
  tasks : Word → Option Task

/-- What unknown code leaves behind. -/
structure Code where
  regs : Reg → Word
  rip : Word
  rflags : Word
  mem : Mem
  cr3 : Word

def Code.run (c : Code) (s : X86.Cpu Var) : X86.Cpu Var :=
  { regs := c.regs, rip := c.rip, rflags := c.rflags, mem := c.mem, cr3 := c.cr3, vars := s.vars }

structure Symbols where
  contextSwitch : Word
  taskFirstRun : Word

inductive Act
  /-- Unknown code of the running task. -/
  | compute (c : Code)
  /-- `current_task_TCB` is set to NULL and back around the idle loop. -/
  | park
  | unpark
  /-- An `iretq` to user code. -/
  | toUser (c : Code)
  /-- An interrupt of user code. -/
  | irqUser (ss cs : Word)
  /-- The instruction `syscall` and the stub up to the push of the user's `rsp`; interrupts are masked. -/
  | sysCall
  | instr
  | callHandler
  /-- An interrupt of the stub, up to `call irq_handler`. -/
  | interrupt (sys : SystemState)
  /-- The end of the handler or of the interrupt. -/
  | ret
  /-- `popq %rsp` and `sysretq`; interrupts are masked. -/
  | sysRet
  | switch (next ret : Word) (e₁ e₂ : Effect)
  | create (tcb stack fn arg0 arg1 cr3 : Word) (f : TaskFields)
  /-- A task that does not run is freed. -/
  | reap (tcb : Word)

/-- The running task goes on as `c`. -/
def Sys.become (s : Sys) (t : Task) (cpu : X86.Cpu Var) (parked : Bool) (c : Control) : Sys :=
  { s with cpu := cpu, parked := parked, tasks := update s.tasks s.running (some { t with control := c }) }

def setVar (s : X86.Cpu Var) (x : Var) (v : Word) : X86.Cpu Var := { s with vars := update s.vars x v }

/-- The CPU takes an interrupt of user code: it goes to the stack in the TSS. -/
def irqEntry (s : X86.Cpu Var) (ss cs : Word) : X86.Cpu Var := interruptEntry s (s.vars .tssRsp0) ss cs

/-- The end of the handler leaves its result in `rax`. -/
def Call.finish (call : Call) (kind : Activation) (rax : Word) : Call :=
  match kind with
  | .handler => { call with result := rax }
  | .interrupt _ => call

/-- Whether the CPU goes on with `c`. -/
def resumed (s : X86.Cpu Var) (c : Saved) : Bool :=
  [.rbx, .rbp, .rsp, .r12, .r13, .r14, .r15].all (fun r => s.regs r == c.regs r) && s.rip == c.rip

theorem room_stackTop (stack : Nat) : stack + 512 ≤ stackTop stack := by
  have := stackTop_bounds stack
  omega

theorem stackTop_lt {stack : Nat} (h : stack + newTaskKstackSize < 2 ^ 64) : stackTop stack < 2 ^ 64 := by
  have := stackTop_bounds stack
  simp only [newTaskKstackSize] at h
  omega

theorem stackTop_aligned (stack : Nat) : stackTop stack % 16 = 0 := (stackTop_bounds stack).2.2

/-- The stack that `task_create_internal` gives to a task. -/
def newStack (stack : Nat) (h : stack + newTaskKstackSize < 2 ^ 64) : Stack where
  lo := stack
  top := stackTop stack
  room := room_stackTop stack
  bound := stackTop_lt h
  aligned := stackTop_aligned stack

section Step

variable (y : Symbols)

/-- The record of a task that `task_create_internal` has built. -/
def newTask (stack : Nat) (h : stack + newTaskKstackSize < 2 ^ 64) (fn arg0 arg1 : Word) (isUser : Bool) : Task where
  stack := newStack stack h
  isUser := isUser
  control := .kernel
  saved := firstSaved y.taskFirstRun fn arg0 arg1 (stackTop stack)
  faithful := true

/-- A step of the running task; `none` if it cannot be made here. -/
def stepRunning (s : Sys) (t : Task) : Act → Option Sys
  | .compute c =>
    match t.control with
    | .stub .. => none
    | k => some (s.become t (c.run s.cpu) s.parked k)
  | .park =>
    if s.parked = false ∧ t.control.inKernel = true then
      some (s.become t (setVar s.cpu .currentTaskTCB 0) true t.control)
    else none
  | .unpark =>
    if s.parked = true then some (s.become t (setVar s.cpu .currentTaskTCB s.running) false t.control) else none
  | .toUser c =>
    match t.control with
    | .kernel => if s.parked = false ∧ t.isUser = true then some (s.become t (c.run s.cpu) false .user) else none
    | _ => none
  | .irqUser ss cs =>
    match t.control with
    | .user => some (s.become t (irqEntry s.cpu ss cs) s.parked .kernel)
    | _ => none
  | .sysCall =>
    match t.control with
    | .user => some (s.become t (execs syscallEntryHead (syscallInstr s.cpu)) s.parked
        (.stub ⟨s.cpu.regs, s.cpu.rip, s.cpu.rflags, 0⟩ syscallEntryBody
          ⟨(syscallInstr s.cpu).regs, [some (s.cpu.regs .rsp)]⟩))
    | _ => none
  | .instr =>
    match t.control with
    | .stub call (.instr i :: rest) here =>
      some (s.become t (i.exec s.cpu) s.parked (.stub call rest ((i.onLocal here).getD here)))
    | _ => none
  | .callHandler =>
    match t.control with
    | .stub call (.handler :: rest) here => some (s.become t s.cpu s.parked (.above .handler call rest here))
    | _ => none
  | .interrupt sys =>
    match t.control with
    | .stub call rest here =>
      some (s.become t (irqCommonHandler sys s.cpu) s.parked (.above (.interrupt (sys.of s.cpu)) call rest here))
    | _ => none
  | .ret =>
    match t.control with
    | .above kind call rest here =>
      if s.parked = false then
        let cpu := kind.exit s.cpu
        some (s.become t cpu false (.stub (call.finish kind (s.cpu.regs .rax)) rest
          ⟨update cpu.regs .rsp (here.regs .rsp), here.stack⟩))
      else none
    | _ => none
  | .sysRet =>
    match t.control with
    | .stub _ [] _ => some (s.become t (sysret (Instr.exec s.cpu (.pop .rsp))) s.parked .user)
    | _ => none
  | .switch next ret e₁ e₂ =>
    if s.parked = false ∧ t.control.inKernel = true then do
      let tasks := update s.tasks s.running (some { t with saved := ⟨s.cpu.regs, ret⟩ })
      let t' ← tasks next
      let cpu := contextSwitch e₁ e₂ (Cpu.call (s.cpu.set .rdi next) ret y.contextSwitch)
      some ⟨cpu, next, false,
        update tasks next (some { t' with faithful := t'.faithful && resumed cpu t'.saved })⟩
    else none
  | .create tcb stack fn arg0 arg1 cr3 f =>
    if h : stack.toNat + newTaskKstackSize < 2 ^ 64 ∧ t.control.inKernel = true then
      some { s with
        cpu := { s.cpu with mem := taskCreateInternal s.cpu.mem tcb.toNat stack.toNat y.taskFirstRun fn arg0 arg1 cr3 f }
        tasks := update s.tasks tcb (some (newTask y stack.toNat h.1 fn arg0 arg1 f.isUser)) }
    else none
  | .reap tcb =>
    if tcb ≠ s.running ∧ t.control.inKernel = true then some { s with tasks := update s.tasks tcb none } else none

/-- The records while `context_switch` is between two tasks. -/
def savedTasks (s : Sys) (t : Task) (ret : Word) : Word → Option Task :=
  update s.tasks s.running (some { t with saved := ⟨s.cpu.regs, ret⟩ })

/-- `stepRunning`, by cases: what a step requires, and what comes of it. -/
inductive Taken (s : Sys) (t : Task) : Act → Sys → Prop
  | compute {c : Code} (hc : ∀ call rest here, t.control ≠ .stub call rest here) :
    Taken s t (.compute c) (s.become t (c.run s.cpu) s.parked t.control)
  | park (hpark : s.parked = false) (hk : t.control.inKernel = true) :
    Taken s t .park (s.become t (setVar s.cpu .currentTaskTCB 0) true t.control)
  | unpark (hpark : s.parked = true) :
    Taken s t .unpark (s.become t (setVar s.cpu .currentTaskTCB s.running) false t.control)
  | toUser {c : Code} (hc : t.control = .kernel) (hpark : s.parked = false) (hu : t.isUser = true) :
    Taken s t (.toUser c) (s.become t (c.run s.cpu) false .user)
  | irqUser {ss cs : Word} (hc : t.control = .user) :
    Taken s t (.irqUser ss cs) (s.become t (irqEntry s.cpu ss cs) s.parked .kernel)
  | sysCall (hc : t.control = .user) :
    Taken s t .sysCall (s.become t (execs syscallEntryHead (syscallInstr s.cpu)) s.parked
      (.stub ⟨s.cpu.regs, s.cpu.rip, s.cpu.rflags, 0⟩ syscallEntryBody ⟨(syscallInstr s.cpu).regs, [some (s.cpu.regs .rsp)]⟩))
  | instr {call : Call} {i : Instr Var} {rest : List Op} {here : Local}
      (hc : t.control = .stub call (.instr i :: rest) here) :
    Taken s t .instr (s.become t (i.exec s.cpu) s.parked (.stub call rest ((i.onLocal here).getD here)))
  | callHandler {call : Call} {rest : List Op} {here : Local} (hc : t.control = .stub call (.handler :: rest) here) :
    Taken s t .callHandler (s.become t s.cpu s.parked (.above .handler call rest here))
  | interrupt {sys : SystemState} {call : Call} {rest : List Op} {here : Local} (hc : t.control = .stub call rest here) :
    Taken s t (.interrupt sys)
      (s.become t (irqCommonHandler sys s.cpu) s.parked (.above (.interrupt (sys.of s.cpu)) call rest here))
  | ret {kind : Activation} {call : Call} {rest : List Op} {here : Local} (hc : t.control = .above kind call rest here)
      (hpark : s.parked = false) :
    Taken s t .ret (s.become t (kind.exit s.cpu) false (.stub (call.finish kind (s.cpu.regs .rax)) rest
      ⟨update (kind.exit s.cpu).regs .rsp (here.regs .rsp), here.stack⟩))
  | sysRet {call : Call} {here : Local} (hc : t.control = .stub call [] here) :
    Taken s t .sysRet (s.become t (sysret (Instr.exec s.cpu (.pop .rsp))) s.parked .user)
  | switch {next ret : Word} {e₁ e₂ : Effect} {t' : Task} {cpu : X86.Cpu Var} (hpark : s.parked = false)
      (hk : t.control.inKernel = true) (ht' : savedTasks s t ret next = some t')
      (hcpu : cpu = contextSwitch e₁ e₂ (Cpu.call (s.cpu.set .rdi next) ret y.contextSwitch)) :
    Taken s t (.switch next ret e₁ e₂) ⟨cpu, next, false, update (savedTasks s t ret) next
      (some { t' with faithful := t'.faithful && resumed cpu t'.saved })⟩
  | create {tcb stack fn arg0 arg1 cr3 : Word} {f : TaskFields} {m : Mem} (hk : t.control.inKernel = true)
      (hbound : stack.toNat + newTaskKstackSize < 2 ^ 64)
      (hm : m = taskCreateInternal s.cpu.mem tcb.toNat stack.toNat y.taskFirstRun fn arg0 arg1 cr3 f) :
    Taken s t (.create tcb stack fn arg0 arg1 cr3 f) { s with
      cpu := { s.cpu with mem := m }
      tasks := update s.tasks tcb (some (newTask y stack.toNat hbound fn arg0 arg1 f.isUser)) }
  | reap {tcb : Word} (hne : tcb ≠ s.running) : Taken s t (.reap tcb) { s with tasks := update s.tasks tcb none }

def step (s : Sys) (a : Act) : Option Sys := (s.tasks s.running).bind fun t => stepRunning y s t a

/-- Memory that the running task must not touch: the TCBs' words, other stacks, and its own from `own` upwards. -/
def Guarded (s : Sys) (own : Nat) (m m' : Mem) : Prop :=
  ∀ u t, s.tasks u = some t → SameOn m m' (u.toNat + 16) 24 ∧
    ∀ a n, (if u = s.running then own else t.stack.lo) ≤ a → a + n ≤ t.stack.top → SameOn m m' a n

/-- The calling convention at the end of C code above the stub. -/
def Returned (s : X86.Cpu Var) (here : Local) (base : Nat) : Prop :=
  (s.regs .rsp).toNat = base ∧ ∀ r : Reg, r ≠ .rsp → r.calleeSaved = true → s.regs r = here.regs r

def Apart (a n b k : Nat) : Prop := a + n ≤ b ∨ b + k ≤ a

/-- `kmalloc` gives memory that nobody uses. -/
def Fresh (s : Sys) (tcb stack : Nat) : Prop :=
  Apart tcb taskSize stack newTaskKstackSize ∧
    ∀ u t, s.tasks u = some t → ∀ a n, (a, n) ∈ [(tcb, taskSize), (stack, newTaskKstackSize)] →
      Apart a n (u.toNat + 16) 24 ∧ Apart a n t.stack.lo (t.stack.top - t.stack.lo)

/-- What is assumed of a step of the running task. -/
def PermittedRunning (s : Sys) (t : Task) : Act → Prop
  | .compute c | .toUser c => Guarded s t.base s.cpu.mem c.mem
  -- the reserved flags have their fixed values, and neither RF nor VM is set
  | .sysCall => s.cpu.rflags &&& 0x3C7FD7 ||| 2 = s.cpu.rflags
  | .ret =>
    match t.control with
    | .above _ _ _ here => t.faithful = true → Returned s.cpu here t.base
    | _ => True
  | .switch next ret e₁ e₂ =>
    let sp := (s.cpu.regs .rsp).toNat
    let m := (savedCpu s.cpu next ret y.contextSwitch).mem
    t.stack.lo + 64 ≤ sp ∧ sp ≤ t.base ∧ Guarded s (sp - 56) m (e₁.mem m) ∧ Guarded s (sp - 56) (e₁.mem m) (e₂.mem (e₁.mem m))
  | .create tcb stack _ _ _ _ _ => Fresh s tcb.toNat stack.toNat
  | _ => True

def Permitted (s : Sys) (a : Act) : Prop := ∀ t, s.tasks s.running = some t → PermittedRunning y s t a

end Step

theorem taken_of_stepRunning {y : Symbols} {s s' : Sys} {t : Task} {a : Act} (h : stepRunning y s t a = some s') :
    Taken y s t a s' := by
  cases a <;> simp only [stepRunning] at h
  case compute c =>
    split at h
    · cases h
    · rename_i hc
      cases h
      exact .compute hc
  case park =>
    rw [Option.ite_none_right_eq_some] at h
    obtain ⟨⟨hpark, hk⟩, h⟩ := h
    cases h
    exact .park hpark hk
  case unpark =>
    rw [Option.ite_none_right_eq_some] at h
    obtain ⟨hpark, h⟩ := h
    cases h
    exact .unpark hpark
  case toUser c =>
    split at h
    · rename_i hc
      rw [Option.ite_none_right_eq_some] at h
      obtain ⟨⟨hpark, hu⟩, h⟩ := h
      cases h
      exact .toUser hc hpark hu
    · cases h
  case ret =>
    split at h
    · rename_i hc
      rw [Option.ite_none_right_eq_some] at h
      obtain ⟨hpark, h⟩ := h
      cases h
      exact .ret hc hpark
    · cases h
  case switch next ret e₁ e₂ =>
    rw [Option.ite_none_right_eq_some] at h
    obtain ⟨⟨hpark, hk⟩, h⟩ := h
    obtain ⟨t', ht', h⟩ := Option.bind_eq_some_iff.1 h
    cases h
    exact .switch hpark hk ht' rfl
  case create tcb stack fn arg0 arg1 cr3 f =>
    rw [Option.dite_none_right_eq_some] at h
    obtain ⟨⟨hbound, hk⟩, h⟩ := h
    cases h
    exact .create hk hbound rfl
  case reap tcb =>
    rw [Option.ite_none_right_eq_some] at h
    obtain ⟨⟨hne, -⟩, h⟩ := h
    cases h
    exact .reap hne
  case irqUser ss cs =>
    split at h
    · rename_i hc
      cases h
      exact .irqUser hc
    · cases h
  case sysCall =>
    split at h
    · rename_i hc
      cases h
      exact .sysCall hc
    · cases h
  case instr =>
    split at h
    · rename_i hc
      cases h
      exact .instr hc
    · cases h
  case callHandler =>
    split at h
    · rename_i hc
      cases h
      exact .callHandler hc
    · cases h
  case interrupt sys =>
    split at h
    · rename_i hc
      cases h
      exact .interrupt hc
    · cases h
  case sysRet =>
    split at h
    · rename_i hc
      cases h
      exact .sysRet hc
    · cases h

/-- The boot task runs, alone. -/
structure Booted (s : Sys) (t : Task) : Prop where
  tasks : s.tasks = update (fun _ => none) s.running (some t)
  kernel : t.control = .kernel ∧ t.isUser = false
  faithful : t.faithful = true
  current : s.parked = false ∧ s.cpu.vars .currentTaskTCB = s.running
  apart : Apart (s.running.toNat + 16) 24 t.stack.lo (t.stack.top - t.stack.lo)

end ToastOS.Cpu
