import ToastOS.Cpu.Syscall

/-!
# `irq_common_handler`

The stub of an interrupt that finds the CPU in the kernel: what it leaves on the stack is the `system_state` that
`irq_handler` gets, and the way back loads every register from there.

* `irqCommonHandler_spec` : the words of the frame, and that nothing else of memory changes;
* `irqCommonReturn_spec` : with the frame unchanged and the stack pointer back at it, the interrupted code finds its
  registers.
-/

namespace ToastOS.Cpu

open ToastOS.Lib Function
open ToastOS.Lib.X86

/-- `system_state`; its fields for the general registers are `regs`. -/
structure SystemState where
  gs : Word
  fs : Word
  es : Word
  ds : Word
  regs : Reg → Word
  interrNum : Word
  errorCode : Word
  rip : Word
  cs : Word
  rflags : Word
  rsp : Word
  ss : Word

/-- In the order of the fields. -/
def SystemState.words (sys : SystemState) : List (Option Word) :=
  [some sys.gs, some sys.fs, some sys.es, some sys.ds, some (sys.regs .r15), some (sys.regs .r14), some (sys.regs .r13),
    some (sys.regs .r12), some (sys.regs .r11), some (sys.regs .r10), some (sys.regs .r9), some (sys.regs .r8),
    some (sys.regs .rdi), some (sys.regs .rsi), some (sys.regs .rbp), some (sys.regs .rbx), some (sys.regs .rdx),
    some (sys.regs .rcx), some (sys.regs .rax), some sys.interrNum, some sys.errorCode, some sys.rip, some sys.cs,
    some sys.rflags, some sys.rsp, some sys.ss]

/-- The state that an interrupt saves; the number of the interrupt and the segment registers are those of `sys`. -/
def SystemState.of (sys : SystemState) (s : X86.Cpu Var) : SystemState :=
  { sys with regs := s.regs, errorCode := 0, rip := s.rip, rflags := s.rflags, rsp := s.regs .rsp }

def irqCommonSave : List (Instr Var) :=
  [.push .rax, .push .rcx, .push .rdx, .push .rbx, .push .rbp, .push .rsi, .push .rdi, .push .r8, .push .r9, .push .r10,
    .push .r11, .push .r12, .push .r13, .push .r14, .push .r15]

/-- The segment registers come back through `rax`. -/
def irqCommonRestore : List (Instr Var) :=
  [.pop .rax, .pop .rax, .pop .rax, .pop .rax, .pop .r15, .pop .r14, .pop .r13, .pop .r12, .pop .r11, .pop .r10, .pop .r9,
    .pop .r8, .pop .rdi, .pop .rsi, .pop .rbp, .pop .rbx, .pop .rdx, .pop .rcx, .pop .rax]

/-- The CPU takes an interrupt on the stack `sp` and pushes five words. -/
def interruptEntry (s : X86.Cpu Var) (sp ss cs : Word) : X86.Cpu Var :=
  [ss, s.regs .rsp, s.rflags, cs, s.rip].foldl Cpu.push (s.set .rsp sp)

/-- An interrupt of kernel code, up to `call irq_handler`. The CPU aligns the stack before it pushes anything. -/
def irqCommonHandler (sys : SystemState) (s : X86.Cpu Var) : X86.Cpu Var :=
  let s := interruptEntry s (BitVec.ofNat 64 ((s.regs .rsp).toNat / 16 * 16)) sys.ss sys.cs
  let s := execs irqCommonSave ([0, sys.interrNum].foldl Cpu.push s)
  let s := ([sys.ds, sys.es, sys.fs, sys.gs].foldl Cpu.push s).set .rax 0x10
  s.set .rdi (s.regs .rsp)

/-- What `iretq` loads if it finds nothing wrong with the selectors and the flags; see `iretq_rings`. -/
def iretq (s : X86.Cpu Var) : X86.Cpu Var :=
  let sp := (s.regs .rsp).toNat
  { s.set .rsp (read64 s.mem (sp + 24)) with rip := read64 s.mem sp, rflags := read64 s.mem (sp + 16) }

/-- From behind `call irq_handler` up to `iretq`. -/
def irqCommonLeave (s : X86.Cpu Var) : X86.Cpu Var := Instr.exec (execs irqCommonRestore s) (.add 16 .rsp)

def irqCommonReturn (s : X86.Cpu Var) : X86.Cpu Var := iretq (irqCommonLeave s)

/-- The word that the alignment skips, on a stack of `n` words. -/
def irqPad (n : Nat) : List (Option Word) := if n % 2 = 0 then [] else [none]

section Specs

variable {top : Nat} {s : X86.Cpu Var} {st : List (Option Word)} {sys : SystemState}

theorem length_irqPad (n : Nat) : (irqPad n).length ≤ 1 := by
  rw [irqPad]
  split <;> simp

theorem refines_align (h : Refines top s ⟨s.regs, st⟩) (halign : top % 16 = 0) (hroom : 8 * (st.length + 1) ≤ top) :
    Refines top (s.set .rsp (BitVec.ofNat 64 ((s.regs .rsp).toNat / 16 * 16))) ⟨s.regs, irqPad st.length ++ st⟩ := by
  have hrsp : (s.regs .rsp).toNat + 8 * st.length = top := h.rsp
  rw [irqPad]
  split
  · have hsame : BitVec.ofNat 64 ((s.regs .rsp).toNat / 16 * 16) = s.regs .rsp := by
      rw [show (s.regs .rsp).toNat / 16 * 16 = (s.regs .rsp).toNat by omega, BitVec.ofNat_toNat, BitVec.setWidth_eq]
    rw [hsame, Cpu.set, update_eq_self]
    exact h
  · have hdown : BitVec.ofNat 64 ((s.regs .rsp).toNat / 16 * 16) = s.regs .rsp - 8 := by
      have hlt := (s.regs .rsp).isLt
      apply BitVec.eq_of_toNat_eq
      rw [toNat_sub_eight (by omega), BitVec.toNat_ofNat]
      omega
    rw [hdown]
    exact h.sub (by omega)

theorem refines_set {l : Local} (h : Refines top s l) {r : Reg} (hr : r ≠ .rsp) (v : Word) :
    Refines top (s.set r v) ⟨(s.set r v).regs, l.stack⟩ :=
  ⟨fun _ _ => rfl, (h.set hr).rsp, (h.set hr).stack⟩

/-- What the instructions of the stub push over the words of the CPU. -/
theorem runLocal_irqCommonSave (sys : SystemState) (s : X86.Cpu Var) (st : List (Option Word)) : ∃ l,
    runLocal irqCommonSave ⟨s.regs, ([0, sys.interrNum].map some).reverse ++
      (([sys.ss, s.regs .rsp, s.rflags, sys.cs, s.rip].map some).reverse ++ st)⟩ = some l ∧
      ([sys.ds, sys.es, sys.fs, sys.gs].map some).reverse ++ l.stack = (sys.of s).words ++ st :=
  ⟨_, rfl, rfl⟩

theorem irqCommonHandler_spec (lo : Nat) (sys : SystemState) (h : Refines top s ⟨s.regs, st⟩) (halign : top % 16 = 0)
    (hroom : lo + 8 * (st.length + 27) ≤ top) (htop : top < 2 ^ 64) :
    Holds (irqCommonHandler sys s).mem (top - 8 * ((sys.of s).words ++ (irqPad st.length ++ st)).length)
        ((sys.of s).words ++ (irqPad st.length ++ st)) ∧ Within lo top s (irqCommonHandler sys s) := by
  have hpad := length_irqPad st.length
  have h₀ := refines_align h halign (by omega)
  have hw₀ : Within lo top s (s.set .rsp (BitVec.ofNat 64 ((s.regs .rsp).toNat / 16 * 16))) := .of_regs _ _ s _ _
  obtain ⟨l, hl, hst⟩ := runLocal_irqCommonSave sys s (irqPad st.length ++ st)
  have hgrows : irqCommonSave.countP Instr.grows = 15 := rfl
  have hlen : l.stack.length = 22 + (irqPad st.length ++ st).length := by
    have := congrArg List.length hst
    simp [SystemState.words] at this ⊢
    omega
  simp only [irqCommonHandler, interruptEntry]
  generalize s.set .rsp (BitVec.ofNat 64 ((s.regs .rsp).toNat / 16 * 16)) = s₀ at h₀ hw₀ ⊢
  obtain ⟨h₁, hw₁⟩ := refines_pushes lo [sys.ss, s.regs .rsp, s.rflags, sys.cs, s.rip] h₀ (by simp; omega)
  generalize List.foldl Cpu.push s₀ _ = s₁ at h₁ hw₁ ⊢
  obtain ⟨h₂, hw₂⟩ := refines_pushes lo [0, sys.interrNum] h₁ (by simp; omega)
  generalize List.foldl Cpu.push s₁ _ = s₂ at h₂ hw₂ ⊢
  obtain ⟨h₃, hw₃⟩ := refines_execs lo h₂ hl (by simp [hgrows]; omega) htop
  generalize execs irqCommonSave s₂ = s₃ at h₃ hw₃ ⊢
  obtain ⟨h₄, hw₄⟩ := refines_pushes lo [sys.ds, sys.es, sys.fs, sys.gs] h₃ (by simp [hlen]; omega)
  generalize List.foldl Cpu.push s₃ _ = s₄ at h₄ hw₄ ⊢
  rw [hst] at h₄
  generalize (sys.of s).words ++ (irqPad st.length ++ st) = ws at h₄ ⊢
  have h₅ := refines_set h₄ (show Reg.rax ≠ .rsp by decide) 0x10
  have h₆ := refines_set h₅ (show Reg.rdi ≠ .rsp by decide) ((s₄.set .rax 0x10).regs .rsp)
  have hw₅ : Within lo top s₄ ((s₄.set .rax 0x10).set .rdi ((s₄.set .rax 0x10).regs .rsp)) := .of_regs _ _ s₄ _ _
  exact ⟨h₆.words, ((hw₀.trans hw₁).trans hw₂).trans (hw₃.trans (hw₄.trans hw₅))⟩

theorem runLocal_irqCommonRestore (sys : SystemState) (regs : Reg → Word) (st : List (Option Word)) : ∃ l,
    runLocal irqCommonRestore ⟨regs, sys.words ++ st⟩ = some l ∧ (∀ r, r ≠ .rsp → l.regs r = sys.regs r) ∧
      l.stack = [some sys.interrNum, some sys.errorCode, some sys.rip, some sys.cs, some sys.rflags, some sys.rsp,
      some sys.ss] ++ st := by
  refine ⟨_, rfl, fun r hr => ?_, rfl⟩
  cases r <;> first
    | exact absurd rfl hr
    | rfl

theorem irqCommonLeave_spec (lo : Nat) (h : Refines top s ⟨s.regs, sys.words ++ st⟩)
    (hlo : lo + 8 * (sys.words ++ st).length ≤ top) (htop : top < 2 ^ 64) : Refines top (irqCommonLeave s)
      ⟨sys.regs, [some sys.rip, some sys.cs, some sys.rflags, some sys.rsp, some sys.ss] ++ st⟩ ∧
      Within lo top s (irqCommonLeave s) := by
  obtain ⟨l, hl, hregs, hst⟩ := runLocal_irqCommonRestore sys s.regs st
  obtain ⟨h', hw⟩ := refines_execs lo h hl (by simpa [irqCommonRestore, Instr.grows] using hlo) htop
  have hrsp := h'.rsp
  have hwords := h'.stack
  rw [irqCommonLeave]
  generalize execs irqCommonRestore s = s' at *
  rw [hst] at hrsp hwords
  simp only [List.length_append, List.length_cons, List.length_nil] at hrsp
  have hadd : ((Instr.exec s' (.add 16 .rsp)).regs .rsp).toNat = (s'.regs .rsp).toNat + 16 := by
    show (s'.regs .rsp + 16).toNat = _
    bv_omega
  refine ⟨⟨fun r hr => ?_, ?_, ?_⟩, hw.trans ⟨rfl, rfl, fun _ _ _ _ _ _ => rfl⟩⟩
  · exact (update_of_ne hr _ _).trans ((h'.regs r hr).trans (hregs r hr))
  · rw [hadd]
    simp only [List.length_append, List.length_cons, List.length_nil]
    omega
  · rw [hadd]
    exact hwords.2.2

theorem irqCommonReturn_spec (lo : Nat) (h : Refines top s ⟨s.regs, sys.words ++ st⟩)
    (hlo : lo + 8 * (sys.words ++ st).length ≤ top)
    (htop : top < 2 ^ 64) : (irqCommonReturn s).regs .rsp = sys.rsp ∧
    (∀ r, r ≠ .rsp → (irqCommonReturn s).regs r = sys.regs r) ∧
      Holds (irqCommonReturn s).mem (top - 8 * st.length) st ∧ Within lo top s (irqCommonReturn s) := by
  obtain ⟨h', hw⟩ := irqCommonLeave_spec lo h hlo htop
  have hrsp := h'.rsp
  have hwords := h'.stack
  rw [irqCommonReturn]
  generalize irqCommonLeave s = s' at *
  refine ⟨hwords.2.2.2.1 _ rfl, fun r hr => (update_of_ne hr _ _).trans (h'.regs r hr), ?_, hw.trans ?_⟩
  · simp only [List.length_append, List.length_cons, List.length_nil] at hrsp
    rw [show top - 8 * st.length = (s'.regs .rsp).toNat + 8 * 5 by omega]
    exact holds_append hwords
  · exact ⟨rfl, rfl, fun _ _ _ _ _ _ => rfl⟩

end Specs

end ToastOS.Cpu
