import Mathlib.Logic.Function.Basic
import ToastOS.Lib.Memory

/-!
# A fragment of x86-64

The registers, the memory and the moves, pushes and pops of hand-written routines; `ν` names the variables of the program.
C code is not executed: `Cpu.callC` leaves unknown values where the calling convention allows it.

* `Holds m a ws` : from address `a` upwards stand the words `ws`;
* `Local` : registers and a stack of words, a machine that one task has for itself; `Instr.onLocal` runs the instructions
  that touch nothing else on it;
* `Refines top s l` : the CPU agrees with such a machine, whose stack begins at `top`;
* `refines_exec`, `refines_execs` : instructions keep the two in step, and write to the stack only.
-/

namespace ToastOS.Lib.X86

open Function

abbrev Word := BitVec 64

inductive Reg
  | rax | rbx | rcx | rdx | rsi | rdi | rbp | rsp | r8 | r9 | r10 | r11 | r12 | r13 | r14 | r15
  deriving DecidableEq

/-- What a C function gives back as it was. -/
def Reg.calleeSaved : Reg → Bool
  | .rbx | .rbp | .rsp | .r12 | .r13 | .r14 | .r15 => true
  | _ => false

structure Cpu (ν : Type) where
  regs : Reg → Word
  rip : Word
  rflags : Word
  mem : Mem
  cr3 : Word
  vars : ν → Word

/-- In the order of the operands of the assembler: sources first. -/
inductive Instr (ν : Type)
  | mov (src dst : Reg)
  | load (off : Nat) (base dst : Reg)
  | store (src : Reg) (off : Nat) (base : Reg)
  | loadVar (x : ν) (dst : Reg)
  | storeVar (src : Reg) (x : ν)
  | push (src : Reg)
  | pushVar (x : ν)
  | pop (dst : Reg)
  | add (n : Word) (dst : Reg)
  | sub (n : Word) (dst : Reg)
  | cld
  | loadCr3 (dst : Reg)
  | storeCr3 (src : Reg)
  deriving DecidableEq

section Exec

variable {ν : Type}

def Cpu.set (s : Cpu ν) (r : Reg) (v : Word) : Cpu ν := { s with regs := update s.regs r v }

def Cpu.push (s : Cpu ν) (v : Word) : Cpu ν :=
  { s.set .rsp (s.regs .rsp - 8) with mem := write64 s.mem (s.regs .rsp - 8).toNat v }

/-- The word on top, and the CPU without it. -/
def Cpu.pop (s : Cpu ν) : Word × Cpu ν := (read64 s.mem (s.regs .rsp).toNat, s.set .rsp (s.regs .rsp + 8))

/-- The arithmetic flags, which no routine here reads, are not kept. -/
def Instr.exec [DecidableEq ν] (s : Cpu ν) : Instr ν → Cpu ν
  | .mov src dst => s.set dst (s.regs src)
  | .load off base dst => s.set dst (read64 s.mem ((s.regs base).toNat + off))
  | .store src off base => { s with mem := write64 s.mem ((s.regs base).toNat + off) (s.regs src) }
  | .loadVar x dst => s.set dst (s.vars x)
  | .storeVar src x => { s with vars := update s.vars x (s.regs src) }
  | .push src => s.push (s.regs src)
  | .pushVar x => s.push (s.vars x)
  | .pop dst => s.pop.2.set dst s.pop.1
  | .add n dst => s.set dst (s.regs dst + n)
  | .sub n dst => s.set dst (s.regs dst - n)
  | .cld => { s with rflags := s.rflags &&& ~~~0x400 }
  | .loadCr3 dst => s.set dst s.cr3
  | .storeCr3 src => { s with cr3 := s.regs src }

def execs [DecidableEq ν] (is : List (Instr ν)) (s : Cpu ν) : Cpu ν := is.foldl Instr.exec s

/-- `call`: the return address is pushed. -/
def Cpu.call (s : Cpu ν) (ret target : Word) : Cpu ν := { s.push ret with rip := target }

def Cpu.ret (s : Cpu ν) : Cpu ν := { s.pop.2 with rip := s.pop.1 }

/-- What a C function leaves behind. -/
structure Effect where
  regs : Reg → Word
  rflags : Word
  mem : Mem → Mem

/-- A call of a C function, from the `call` to behind it. -/
def Cpu.callC (s : Cpu ν) (e : Effect) : Cpu ν :=
  { s with regs := fun r => if r.calleeSaved then s.regs r else e.regs r, rflags := e.rflags, mem := e.mem s.mem }

end Exec

/-! ## Words on a stack -/

/-- From `a` upwards stand the words `ws`; nothing is said of those that are `none`. -/
def Holds (m : Mem) (a : Nat) : List (Option Word) → Prop
  | [] => True
  | w :: ws => (∀ v, w = some v → read64 m a = v) ∧ Holds m (a + 8) ws

section Words

variable {m m' : Mem} {a : Nat} {ws : List (Option Word)} {v : Word}

theorem holds_cons_some : Holds m a (some v :: ws) ↔ read64 m a = v ∧ Holds m (a + 8) ws :=
  ⟨fun h => ⟨h.1 v rfl, h.2⟩, fun h => ⟨fun w hw => by cases hw; exact h.1, h.2⟩⟩

theorem holds_append {vs : List (Option Word)} (h : Holds m a (ws ++ vs)) : Holds m (a + 8 * ws.length) vs := by
  induction ws generalizing a with
  | nil => exact h
  | cons w ws ih =>
    rw [List.length_cons, show a + 8 * (ws.length + 1) = a + 8 + 8 * ws.length by omega]
    exact ih h.2

theorem Holds.congr (h : Holds m a ws) (hm : SameOn m m' a (8 * ws.length)) : Holds m' a ws := by
  induction ws generalizing a with
  | nil => trivial
  | cons w ws ih =>
    rw [List.length_cons] at hm
    refine ⟨fun v hv => ?_, ih h.2 (hm.mono (by omega) (by omega))⟩
    rw [read64_congr (hm.mono (Nat.le_refl a) (by omega))]
    exact h.1 v hv

theorem holds_write64 (h : Holds m (a + 8) ws) : Holds (write64 m a v) a (some v :: ws) := by
  refine ⟨fun w hw => ?_, h.congr (sameOn_write64 m v (Or.inl (Nat.le_refl _)))⟩
  cases hw
  exact read64_write64 m a v

end Words

/-! ## A machine of one's own -/

structure Local where
  regs : Reg → Word
  stack : List (Option Word)

/-- The instructions that touch the registers and the own stack only; the stack pointer is no register here. -/
def Instr.onLocal {ν : Type} (l : Local) : Instr ν → Option Local
  | .mov src dst =>
    if src = .rsp ∨ dst = .rsp then none else some { l with regs := update l.regs dst (l.regs src) }
  | .push src => if src = .rsp then none else some { l with stack := some (l.regs src) :: l.stack }
  | .pop dst =>
    match l.stack with
    | some v :: st => if dst = .rsp then none else some ⟨update l.regs dst v, st⟩
    | _ => none
  | .sub n dst => if n = 8 ∧ dst = .rsp then some { l with stack := none :: l.stack } else none
  | .add n dst =>
    match l.stack with
    | _ :: st => if n = 8 ∧ dst = .rsp then some { l with stack := st } else none
    | [] => none
  | .cld => some l
  | _ => none

def runLocal {ν : Type} (is : List (Instr ν)) (l : Local) : Option Local := is.foldlM Instr.onLocal l

/-- The CPU has the registers of `l`, and its stack from `top` downwards. -/
structure Refines {ν : Type} (top : Nat) (s : Cpu ν) (l : Local) : Prop where
  regs : ∀ r, r ≠ .rsp → s.regs r = l.regs r
  rsp : (s.regs .rsp).toNat + 8 * l.stack.length = top
  stack : Holds s.mem (s.regs .rsp).toNat l.stack

section Refinement

variable {ν : Type} {top : Nat} {s s' : Cpu ν} {l l' : Local}

theorem toNat_sub_eight {w : Word} (h : 8 ≤ w.toNat) : (w - 8).toNat = w.toNat - 8 := by
  bv_omega

theorem toNat_add_eight {w : Word} (h : w.toNat + 8 < 2 ^ 64) : (w + 8).toNat = w.toNat + 8 := by
  bv_omega

@[simp] theorem Cpu.regs_set (s : Cpu ν) (r : Reg) (v : Word) : (s.set r v).regs = update s.regs r v := rfl
@[simp] theorem Cpu.mem_set (s : Cpu ν) (r : Reg) (v : Word) : (s.set r v).mem = s.mem := rfl
@[simp] theorem Cpu.vars_set (s : Cpu ν) (r : Reg) (v : Word) : (s.set r v).vars = s.vars := rfl
@[simp] theorem Cpu.cr3_set (s : Cpu ν) (r : Reg) (v : Word) : (s.set r v).cr3 = s.cr3 := rfl
@[simp] theorem Cpu.rip_set (s : Cpu ν) (r : Reg) (v : Word) : (s.set r v).rip = s.rip := rfl

/-- A register other than the stack pointer is set on both sides. -/
theorem Refines.set (h : Refines top s l) {r : Reg} {v : Word} (hr : r ≠ .rsp) :
    Refines top (s.set r v) { l with regs := update l.regs r v } := by
  have hsp : (s.set r v).regs .rsp = s.regs .rsp := update_of_ne (Ne.symm hr) _ _
  refine ⟨fun q hq => ?_, by rw [hsp]; exact h.rsp, by rw [hsp]; exact h.stack⟩
  show update s.regs r v q = update l.regs r v q
  rw [update_apply, update_apply, h.regs q hq]

theorem Refines.push (h : Refines top s l) (v : Word) (hroom : 8 ≤ (s.regs .rsp).toNat) :
    Refines top (s.push v) { l with stack := some v :: l.stack } := by
  have hsp : ((s.push v).regs .rsp).toNat = (s.regs .rsp).toNat - 8 := by
    rw [Cpu.push, Cpu.regs_set, update_self, toNat_sub_eight hroom]
  have hrsp := h.rsp
  refine ⟨fun r hr => ?_, ?_, ?_⟩
  · exact (update_of_ne hr _ _).trans (h.regs r hr)
  · rw [hsp, List.length_cons]
    omega
  · rw [hsp]
    show Holds (write64 s.mem (s.regs .rsp - 8).toNat v) _ _
    rw [toNat_sub_eight hroom]
    refine holds_write64 ?_
    rw [show (s.regs .rsp).toNat - 8 + 8 = (s.regs .rsp).toNat by omega]
    exact h.stack

theorem Refines.sub (h : Refines top s l) (hroom : 8 ≤ (s.regs .rsp).toNat) :
    Refines top (s.set .rsp (s.regs .rsp - 8)) { l with stack := none :: l.stack } := by
  have hsp : ((s.set .rsp (s.regs .rsp - 8)).regs .rsp).toNat = (s.regs .rsp).toNat - 8 := by
    rw [Cpu.regs_set, update_self, toNat_sub_eight hroom]
  have hrsp := h.rsp
  refine ⟨fun r hr => (update_of_ne hr _ _).trans (h.regs r hr), ?_, ?_⟩
  · rw [hsp, List.length_cons]
    omega
  · rw [hsp]
    refine ⟨fun v hv => (by cases hv), ?_⟩
    rw [show (s.regs .rsp).toNat - 8 + 8 = (s.regs .rsp).toNat by omega]
    exact h.stack

theorem Refines.drop {w : Option Word} {st : List (Option Word)} (h : Refines top s l) (hl : l.stack = w :: st)
    (htop : top < 2 ^ 64) : Refines top (s.set .rsp (s.regs .rsp + 8)) { l with stack := st } := by
  have hrsp := h.rsp
  have hst := h.stack
  rw [hl, List.length_cons] at hrsp
  rw [hl] at hst
  have hsp : ((s.set .rsp (s.regs .rsp + 8)).regs .rsp).toNat = (s.regs .rsp).toNat + 8 := by
    rw [Cpu.regs_set, update_self, toNat_add_eight (by omega)]
  refine ⟨fun r hr => (update_of_ne hr _ _).trans (h.regs r hr), ?_, ?_⟩
  · rw [hsp]
    show _ + 8 * st.length = top
    omega
  · rw [hsp]
    exact hst.2

theorem Refines.top_word {v : Word} {st : List (Option Word)} (h : Refines top s l) (hl : l.stack = some v :: st) :
    s.pop.1 = v := by
  have hst := h.stack
  rw [hl] at hst
  exact hst.1 v rfl

/-- From `s` to `s'` registers changed, and memory from `lo` up to `hi`. -/
structure Within (lo hi : Nat) (s s' : Cpu ν) : Prop where
  vars : s'.vars = s.vars
  cr3 : s'.cr3 = s.cr3
  mem : ∀ a n, a + n ≤ lo ∨ hi ≤ a → SameOn s.mem s'.mem a n

theorem Within.of_regs (lo hi : Nat) (s : Cpu ν) (regs : Reg → Word) (rflags : Word) :
    Within lo hi s { s with regs := regs, rflags := rflags } :=
  ⟨rfl, rfl, fun _ _ _ _ _ _ => rfl⟩

theorem Within.trans {lo hi : Nat} {s'' : Cpu ν} (h : Within lo hi s s') (h' : Within lo hi s' s'') : Within lo hi s s'' :=
  ⟨h'.vars.trans h.vars, h'.cr3.trans h.cr3, fun a n ha => (h.mem a n ha).trans (h'.mem a n ha)⟩

theorem refines_push (lo : Nat) (v : Word) (h : Refines top s l) (hroom : lo + 8 * (l.stack.length + 1) ≤ top) :
    Refines top (s.push v) { l with stack := some v :: l.stack } ∧ Within lo top s (s.push v) := by
  have hrsp := h.rsp
  have hword : 8 ≤ (s.regs .rsp).toNat := by omega
  refine ⟨h.push v hword, rfl, rfl, fun a n ha => sameOn_write64 _ _ ?_⟩
  rw [toNat_sub_eight hword]
  omega

/-- The instructions that take a word of the stack. -/
def Instr.grows : Instr ν → Bool
  | .push _ | .sub _ _ => true
  | _ => false

theorem refines_exec [DecidableEq ν] (lo : Nat) {i : Instr ν} (h : Refines top s l) (hi : i.onLocal l = some l')
    (hroom : i.grows = true → lo + 8 * (l.stack.length + 1) ≤ top) (htop : top < 2 ^ 64) :
    Refines top (i.exec s) l' ∧ Within lo top s (i.exec s) := by
  have hrsp := h.rsp
  cases i with
  | mov src dst =>
    simp only [Instr.onLocal] at hi
    split at hi
    · cases hi
    · rename_i hne
      simp only [not_or] at hne
      cases hi
      rw [← h.regs src hne.1]
      exact ⟨h.set hne.2, .of_regs _ _ s _ _⟩
  | push src =>
    simp only [Instr.onLocal] at hi
    split at hi
    · cases hi
    · rename_i hne
      cases hi
      rw [← h.regs src hne]
      exact refines_push lo _ h (hroom rfl)
  | pop dst =>
    simp only [Instr.onLocal] at hi
    split at hi
    · rename_i v st hst
      split at hi
      · cases hi
      · rename_i hne
        cases hi
        have hv := h.top_word hst
        refine ⟨?_, .of_regs _ _ s _ _⟩
        rw [← hv]
        exact (h.drop hst htop).set hne
    · cases hi
  | add n dst =>
    simp only [Instr.onLocal] at hi
    split at hi
    · rename_i w st hst
      split at hi
      · rename_i he
        obtain ⟨rfl, rfl⟩ := he
        cases hi
        exact ⟨h.drop hst htop, .of_regs _ _ s _ _⟩
      · cases hi
    · cases hi
  | sub n dst =>
    have hroom := hroom rfl
    simp only [Instr.onLocal] at hi
    split at hi
    · rename_i he
      obtain ⟨rfl, rfl⟩ := he
      cases hi
      exact ⟨h.sub (by omega), .of_regs _ _ s _ _⟩
    · cases hi
  | cld =>
    cases hi
    exact ⟨⟨h.regs, h.rsp, h.stack⟩, .of_regs _ _ s _ _⟩
  | _ => cases hi

theorem length_onLocal {i : Instr ν} (hi : i.onLocal l = some l') :
    l'.stack.length ≤ l.stack.length + if i.grows then 1 else 0 := by
  cases i <;> simp only [Instr.onLocal] at hi
  case mov | push | sub =>
    split at hi <;> cases hi
    simp [Instr.grows]
  case pop | add =>
    split at hi
    · rename_i hst
      split at hi <;> cases hi
      rw [hst, List.length_cons]
      dsimp only
      omega
    · cases hi
  case cld =>
    cases hi
    omega
  all_goals cases hi

/-- A list of instructions, with room for every word that it takes. -/
theorem refines_execs [DecidableEq ν] (lo : Nat) {is : List (Instr ν)} (h : Refines top s l) (hi : runLocal is l = some l')
    (hroom : lo + 8 * (l.stack.length + is.countP Instr.grows) ≤ top) (htop : top < 2 ^ 64) :
    Refines top (execs is s) l' ∧ Within lo top s (execs is s) := by
  induction is generalizing s l with
  | nil =>
    cases hi
    exact ⟨h, .of_regs _ _ s _ _⟩
  | cons i is ih =>
    rw [runLocal, List.foldlM_cons, Option.bind_eq_bind, Option.bind_eq_some_iff] at hi
    obtain ⟨l₁, hl₁, hrest⟩ := hi
    have hlen := length_onLocal hl₁
    rw [List.countP_cons] at hroom
    obtain ⟨h₁, hw₁⟩ := refines_exec lo h hl₁ (fun hg => by rw [if_pos hg] at hroom; omega) htop
    obtain ⟨h', hw'⟩ := ih h₁ hrest (by omega)
    exact ⟨h', hw₁.trans hw'⟩

theorem refines_pushes (lo : Nat) (ws : List Word) (h : Refines top s l)
    (hroom : lo + 8 * (l.stack.length + ws.length) ≤ top) :
    Refines top (ws.foldl Cpu.push s) { l with stack := (ws.map some).reverse ++ l.stack } ∧
    Within lo top s (ws.foldl Cpu.push s) := by
  induction ws generalizing s l with
  | nil => exact ⟨h, .of_regs _ _ s _ _⟩
  | cons w ws ih =>
    rw [List.length_cons] at hroom
    obtain ⟨h₁, hw₁⟩ := refines_push lo w h (by omega)
    obtain ⟨h', hw'⟩ := ih h₁ (by rw [List.length_cons]; omega)
    refine ⟨?_, hw₁.trans hw'⟩
    rw [List.map_cons, List.reverse_cons, List.append_assoc]
    exact h'

theorem within_pushes (ws : List Word) (hroom : 8 * ws.length ≤ (s.regs .rsp).toNat) :
    Within ((s.regs .rsp).toNat - 8 * ws.length) (s.regs .rsp).toNat s (ws.foldl Cpu.push s) := by
  have hempty : Refines (s.regs .rsp).toNat s ⟨s.regs, []⟩ := ⟨fun _ _ => rfl, rfl, trivial⟩
  refine (refines_pushes _ ws hempty ?_).2
  rw [List.length_nil]
  omega

/-- The words of the stack, by their distance from its top. -/
theorem Refines.words (h : Refines top s l) : Holds s.mem (top - 8 * l.stack.length) l.stack := by
  have hrsp := h.rsp
  rw [show top - 8 * l.stack.length = (s.regs .rsp).toNat by omega]
  exact h.stack

end Refinement

end ToastOS.Lib.X86
