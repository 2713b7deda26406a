import ToastOS.Lib.X86

/-!
# `syscall` and `syscall_entry`

The wrapper of `syscall.h`, with the operands wherever its constraints let the compiler put them, and the stub of
`jmp_usrmode.s` in its parts: what runs before the user's `rsp` is safe, what is saved, how the arguments are shifted, and
the way back.

* `syscall_arguments` : the handler gets the arguments exactly if `r8` happens to hold the fifth one and none of the
  first four goes through `rax`;
* `fifth_argument_lost` : the wrapper passes the fifth one in `r9`, where the stub does not look for it.
-/

namespace ToastOS.Cpu

open ToastOS.Lib Function
open ToastOS.Lib.X86

/-- The variables the two routines use; `tssRsp0` is `tss.rsp[0]`. -/
inductive Var
  | currentTaskTCB
  | syscallKernelRsp
  | savedUserRsp
  | tssRsp0
  deriving DecidableEq

/-! ## The stub -/

/-- `syscall`: `rip` and `RFLAGS` go to `rcx` and `r11`, and the flags in SFMASK are cleared. -/
def syscallInstr (s : X86.Cpu Var) : X86.Cpu Var :=
  { (s.set .rcx s.rip).set .r11 s.rflags with rflags := s.rflags &&& ~~~0x700 }

/-- Up to the push of the user's `rsp`. -/
def syscallEntryHead : List (Instr Var) :=
  [.storeVar .rsp .savedUserRsp, .loadVar .syscallKernelRsp .rsp, .pushVar .savedUserRsp]

def syscallEntrySave : List (Instr Var) :=
  [.push .rcx, .push .r11, .push .rdi, .push .rsi, .push .rdx, .push .r8, .push .r9, .push .r10, .sub 8 .rsp, .cld]

/-- The registers of the syscall ABI are shifted to those of C. -/
def syscallEntryArgs : List (Instr Var) :=
  [.mov .r8 .r9, .mov .r10 .r8, .mov .rdx .rcx, .mov .rsi .rdx, .mov .rdi .rsi, .mov .rax .rdi]

/-- After `call syscall_handler`, up to `popq %rsp`. -/
def syscallEntryRestore : List (Instr Var) :=
  [.add 8 .rsp, .pop .r10, .pop .r9, .pop .r8, .pop .rdx, .pop .rsi, .pop .rdi, .pop .r11, .pop .rcx]

/-- `sysretq`: back to `rcx` with the flags of `r11`, but for those it does not load. -/
def sysret (s : X86.Cpu Var) : X86.Cpu Var :=
  { s with rip := s.regs .rcx, rflags := s.regs .r11 &&& 0x3C7FD7 ||| 2 }

/-- The registers with which C code is called. -/
def cArgs (s : X86.Cpu Var) : List Word := [.rdi, .rsi, .rdx, .rcx, .r8, .r9].map s.regs

/-! ## The wrapper -/

/-- An operand under the constraint "g". -/
inductive Operand
  | reg (r : Reg)
  | imm (v : Word)
  | mem (base : Reg) (off : Word)

def Operand.value (s : X86.Cpu Var) : Operand → Word
  | .reg r => s.regs r
  | .imm v => v
  | .mem base off => read64 s.mem (s.regs base + off).toNat

/-- No operand is put into a register of the clobber list. -/
def Operand.allowed : Operand → Bool
  | .reg r | .mem r _ => r ∉ [.rdi, .rsi, .rdx, .r10, .r9, .rcx, .r11]
  | .imm _ => true

structure Operands where
  num : Operand
  a1 : Operand
  a2 : Operand
  a3 : Operand
  a4 : Operand
  a5 : Operand

def Operands.toList (o : Operands) : List Operand := [o.num, o.a1, o.a2, o.a3, o.a4, o.a5]

def Operand.mov (o : Operand) (dst : Reg) (s : X86.Cpu Var) : X86.Cpu Var := s.set dst (o.value s)

/-- The wrapper `syscall`, up to the instruction of that name. -/
def syscall (o : Operands) (s : X86.Cpu Var) : X86.Cpu Var :=
  syscallInstr (o.a5.mov .r9 (o.a4.mov .r10 (o.a3.mov .rdx (o.a2.mov .rsi (o.a1.mov .rdi (o.num.mov .rax s))))))

section Arguments

variable {s : X86.Cpu Var} {o : Operand} {r : Reg} {v : Word}

/-- An operand is not changed by the moves to the registers it cannot be in. -/
theorem Operand.value_set (ho : o.allowed = true) (hr : r ∈ [Reg.rdi, .rsi, .rdx, .r10, .r9, .rcx, .r11]) :
    o.value (s.set r v) = o.value s := by
  cases o with
  | imm w => rfl
  | reg q =>
    have hq : q ≠ r := by
      rintro rfl
      simp [Operand.allowed, hr] at ho
    exact update_of_ne hq _ _
  | mem q off =>
    have hq : q ≠ r := by
      rintro rfl
      simp [Operand.allowed, hr] at ho
    show read64 s.mem (update s.regs r v q + off).toNat = _
    rw [update_of_ne hq]
    rfl

/-- What the handler is called with, in terms of the registers at the `syscall` instruction. -/
theorem cArgs_entry (s : X86.Cpu Var) :
    cArgs (execs (syscallEntryHead ++ syscallEntrySave ++ syscallEntryArgs) (syscallInstr s)) =
      [.rax, .rdi, .rsi, .rdx, .r10, .r8].map s.regs := by
  simp [cArgs, execs, syscallEntryHead, syscallEntrySave, syscallEntryArgs, syscallInstr, Instr.exec, Cpu.push, Cpu.set]

end Arguments

/-- The handler gets what the wrapper was called with if, and only if, `r8` happened to hold the fifth argument and
none of the others was in `rax`, or addressed through it, when that was overwritten with the number. -/
theorem syscall_arguments (o : Operands) (s : X86.Cpu Var) (ho : ∀ a ∈ o.toList, a.allowed = true) :
    cArgs (execs (syscallEntryHead ++ syscallEntrySave ++ syscallEntryArgs) (syscall o s)) = o.toList.map (·.value s) ↔
      s.regs .r8 = o.a5.value s ∧ ∀ a ∈ [o.a1, o.a2, o.a3, o.a4], a.value (s.set .rax (o.num.value s)) = a.value s := by
  simp only [Operands.toList, List.forall_mem_cons] at ho
  obtain ⟨-, -, h2, h3, h4, -, -⟩ := ho
  rw [syscall, cArgs_entry]
  generalize hs₁ : s.set .rax (o.num.value s) = s₁
  have hrax : s₁.regs .rax = o.num.value s := by simp [← hs₁]
  have hr8 : s₁.regs .r8 = s.regs .r8 := by simp [← hs₁]
  have hmov : o.num.mov .rax s = s₁ := hs₁
  rw [hmov]
  simp only [Operand.mov, Operand.value_set h2, Operand.value_set h3, Operand.value_set h4, List.mem_cons, true_or, or_true]
  simp [Operands.toList, hrax, hr8]
  tauto

/-- A user program about to call `syscall(0, 1, 2, 3, 4, 5)`, all constants, with `r8` in some state. -/
def caller (r8 : Word) : X86.Cpu Var where
  regs := update (fun _ => 0) .r8 r8
  rip := 0x400000
  rflags := 0x202
  mem := fun _ => 0
  cr3 := 0
  vars := fun _ => 0x10000

def constants : Operands := ⟨.imm 0, .imm 1, .imm 2, .imm 3, .imm 4, .imm 5⟩

theorem arguments_arrive :
    cArgs (execs (syscallEntryHead ++ syscallEntrySave ++ syscallEntryArgs) (syscall constants (caller 5))) =
    [0, 1, 2, 3, 4, 5] := by
  have ho : ∀ a ∈ constants.toList, a.allowed = true := by
    intro a ha
    simp only [Operands.toList, constants, List.mem_cons, List.not_mem_nil, or_false] at ha
    rcases ha with rfl | rfl | rfl | rfl | rfl | rfl <;> rfl
  refine (syscall_arguments constants (caller 5) ho).2 ⟨rfl, fun a ha => ?_⟩
  simp only [constants, List.mem_cons, List.not_mem_nil, or_false] at ha
  rcases ha with rfl | rfl | rfl | rfl <;> rfl

theorem fifth_argument_lost :
    constants.toList.map (·.value (caller 0)) = [0, 1, 2, 3, 4, 5] ∧
    cArgs (execs (syscallEntryHead ++ syscallEntrySave ++ syscallEntryArgs) (syscall constants (caller 0))) =
    [0, 1, 2, 3, 4, 0] := by
  refine ⟨rfl, ?_⟩
  rw [syscall, cArgs_entry]
  rfl

end ToastOS.Cpu
