import ToastOS.Lib.Descriptors
import ToastOS.Lib.Run

/-!
# User code under a kernel

Code at two levels of privilege on one CPU, with what each task's kernel stack returns to. User code does what it likes;
kernel code computes, switches between the tasks and returns. Which way a step goes is decided by the descriptor tables
and the model-specific registers (`Tables`).

* `Rings.step` : one step;
* `Confining` : what the tables have to be like;
* `Confined`, `confined_step` : then user code keeps its segments, cannot mask interrupts or use ports, and gets into
  the kernel through a gate or `syscall` only;
* `iretq_spec` : and a return fails only with NT set.
-/

namespace ToastOS.Lib.X86

open Function

variable {fl rip : Word} {cs ss : Selector}

/-! ## Flags -/

def tf : Nat := 8
def intf : Nat := 9
def df : Nat := 10
def nt : Nat := 14

def iopl (fl : Word) : Level := fl.extractLsb' 12 2

/-- Loading the flags with `popf` or `iretq` at a level: IF needs the right of I/O, IOPL level 0; VM, VIF and VIP stay. -/
def popFlags (cpl : Level) (old new : Word) : Word :=
  let keep : Word := 0x1A0000 ||| (if cpl = 0 then 0 else 0x3000) ||| (if cpl ≤ iopl old then 0 else 0x200)
  old &&& keep ||| new &&& ~~~keep

/-- A gate clears TF, NT, RF and VM, and IF if it masks. -/
def gateFlags (masks : Bool) (fl : Word) : Word := fl &&& ~~~(if masks then 0x34300 else 0x34100)

/-- What compiled code does to the flags: the arithmetic ones and, by `cli` and `sti`, IF. -/
def codeFlags (old new : Word) : Word := old &&& ~~~0xAD5 ||| new &&& 0xAD5

/-! ## The machine -/

structure Msrs where
  efer : Word
  star : Word
  lstar : Word
  sfmask : Word

/-- What a kernel stack returns to. -/
inductive Ret
  | iret (rip : Word) (cs : Selector) (rflags : Word) (ss : Selector)
  | sysret (rip rflags : Word)
  deriving DecidableEq

structure Tables where
  gdt : Gdt
  idt : Idt
  tssLimit : Nat
  iopb : Nat
  ioBits : Nat → Bool
  msr : Msrs
  /-- The frame that kernel code builds for the first return of a task to user code. -/
  first : Word → Ret

structure Rings where
  cpl : Level
  cs : Selector
  ss : Selector
  rip : Word
  rflags : Word
  running : Nat
  frames : Nat → List Ret
  /-- The CPU has shut down. -/
  down : Bool

/-- The running task finds `rs` on its kernel stack. -/
def Rings.setFrames (s : Rings) (rs : List Ret) : Rings := { s with frames := update s.frames s.running rs }

def Rings.enterAt (s : Rings) (e : Entry) : Rings :=
  { s.setFrames (.iret s.rip s.cs s.rflags s.ss :: s.frames s.running) with
    cpl := e.cpl
    cs := e.cs
    -- a change of level loads the null selector
    ss := if e.cpl < s.cpl then 0 else s.ss
    rip := e.rip
    rflags := gateFlags e.masks s.rflags }

inductive RingAct
  /-- User code up to an instruction that loads the flags. -/
  | user (rip flags : Word)
  /-- A far jump, call or return. -/
  | far (sel : Selector) (rip : Word)
  | loadSs (sel : Selector)
  /-- `sti` and `cli`. -/
  | mask (b : Bool)
  | io (port width : Nat)
  /-- An instruction for level 0 only. -/
  | privileged
  /-- `int n`. -/
  | soft (v : Nat)
  | exception (v : Nat)
  | irq (v : Nat)
  | syscall
  | kernel (rip flags : Word)
  | switch (u : Nat)
  /-- A task that does not run gets a new stack. -/
  | fresh (u : Nat)
  | enterUser (rip : Word)
  | iretq
  | sysretq

section Step

variable (m : Tables)

/-- The event `v`, or the fault it leads to; a fault on the way to that is a double fault. -/
def Rings.raise (s : Rings) (soft : Bool) (v : Nat) : Rings :=
  match m.idt.enter m.gdt s.cpl soft v with
  | .ok e => s.enterAt e
  | .error w =>
    match m.idt.enter m.gdt s.cpl false w with
    | .ok e => s.enterAt e
    | .error _ =>
      match m.idt.enter m.gdt s.cpl false 8 with
      | .ok e => s.enterAt e
      | .error _ => { s with down := true }

def Rings.syscall (s : Rings) : Rings :=
  { s.setFrames (.sysret s.rip s.rflags :: s.frames s.running) with
    cpl := 0
    cs := m.msr.star.extractLsb' 32 16 &&& 0xFFFC
    ss := m.msr.star.extractLsb' 32 16 + 8
    rip := m.msr.lstar
    rflags := s.rflags &&& ~~~m.msr.sfmask }

def Rings.sysretq (s : Rings) (rip rflags : Word) (rest : List Ret) : Rings :=
  { s.setFrames rest with
    cpl := 3
    cs := m.msr.star.extractLsb' 48 16 + 16 ||| 3
    ss := m.msr.star.extractLsb' 48 16 + 8 ||| 3
    rip := rip
    rflags := rflags &&& 0x3C7FD7 ||| 2 }

def Rings.iretq (s : Rings) (rip : Word) (cs : Selector) (rflags : Word) (ss : Selector) (rest : List Ret) : Rings :=
  if s.rflags.getLsbD nt then s.raise m false 13
  else if returnSegmentOk m.gdt s.cpl cs && stackSegmentOk m.gdt cs.rpl ss then
    { s.setFrames rest with cpl := cs.rpl, cs := cs, ss := ss, rip := rip, rflags := rflags }
  else s.raise m false 13

/-- One step of the code that runs; `none` if it cannot be made here. -/
def Rings.step (s : Rings) (act : RingAct) : Option Rings :=
  if s.down then none
  else match act with
    | .user rip fl => if s.cpl = 0 then none else some { s with rip := rip, rflags := popFlags s.cpl s.rflags fl }
    | .far sel rip =>
      if s.cpl = 0 then none
      else match farTransfer m.gdt s.cpl sel with
        | .code cs => some { s with cs := cs, rip := rip }
        -- a call gate leads to the level of its segment
        | .gate d => some { s with cpl := Descriptor.dpl d, rip := rip }
        | .fault => some (s.raise m false 13)
    | .loadSs sel =>
      if s.cpl = 0 then none
      else if stackSegmentOk m.gdt s.cpl sel then some { s with ss := sel } else some (s.raise m false 13)
    | .mask b =>
      if s.cpl = 0 then none
      else if s.cpl ≤ iopl s.rflags then some { s with rflags := if b then s.rflags ||| 0x200 else s.rflags &&& ~~~0x200 }
      else some (s.raise m false 13)
    | .io port width =>
      if s.cpl = 0 then none
      else if s.cpl ≤ iopl s.rflags ∨ ioAllowed m.tssLimit m.iopb m.ioBits port width then some s
      else some (s.raise m false 13)
    | .privileged => if s.cpl = 0 then none else some (s.raise m false 13)
    | .soft v => if s.cpl = 0 then none else some (s.raise m true v)
    | .exception v => if s.cpl = 0 then none else some (s.raise m false v)
    | .irq v => if s.rflags.getLsbD intf then some (s.raise m false v) else none
    | .syscall =>
      if s.cpl = 0 then none else if m.msr.efer.getLsbD 0 then some (s.syscall m) else some (s.raise m false 6)
    | .kernel rip fl => if s.cpl = 0 then some { s with rip := rip, rflags := codeFlags s.rflags fl } else none
    | .switch u => if s.cpl = 0 then some { s with running := u } else none
    | .fresh u => if s.cpl = 0 ∧ u ≠ s.running then some { s with frames := update s.frames u [] } else none
    | .enterUser rip => if s.cpl = 0 then some (s.setFrames (m.first rip :: s.frames s.running)) else none
    | .iretq =>
      match s.frames s.running with
      | .iret rip cs fl ss :: rest => if s.cpl = 0 then some (s.iretq m rip cs fl ss rest) else none
      | _ => none
    | .sysretq =>
      match s.frames s.running with
      | .sysret rip fl :: rest => if s.cpl = 0 then some (s.sysretq m rip fl rest) else none
      | _ => none

end Step

/-! ## What the flags keep -/

section Flags

variable {new : Word}

theorem iopl_and (h : iopl fl = 0) (x : Word) : iopl (fl &&& x) = 0 := by
  rw [iopl] at h ⊢
  rw [BitVec.extractLsb'_and, h]
  exact BitVec.zero_and

theorem iopl_or {x : Word} (h : iopl fl = 0) (hx : iopl x = 0) : iopl (fl ||| x) = 0 := by
  rw [iopl] at h hx ⊢
  rw [BitVec.extractLsb'_or, h, hx, BitVec.or_self]

theorem iopl_and_mask {x : Word} (hx : iopl x = 0) (fl : Word) : iopl (fl &&& x) = 0 := by
  rw [BitVec.and_comm]
  exact iopl_and hx fl

theorem iopl_popFlags (h : iopl fl = 0) (new : Word) : iopl (popFlags 3 fl new) = 0 := by
  simp only [popFlags, h]
  exact iopl_or (iopl_and h _) (iopl_and_mask (by decide) new)

theorem intf_popFlags (h : iopl fl = 0) (new : Word) : (popFlags 3 fl new).getLsbD intf = fl.getLsbD intf := by
  simp [popFlags, h, intf]

theorem iopl_codeFlags (h : iopl fl = 0) (new : Word) : iopl (codeFlags fl new) = 0 :=
  iopl_or (iopl_and h _) (iopl_and_mask (by decide) new)

theorem nt_codeFlags (fl new : Word) : (codeFlags fl new).getLsbD nt = fl.getLsbD nt := by
  simp [codeFlags, nt]

theorem iopl_gateFlags (h : iopl fl = 0) (masks : Bool) : iopl (gateFlags masks fl) = 0 := iopl_and h _

theorem gateFlags_clears (fl : Word) : (gateFlags true fl).getLsbD intf = false ∧ (gateFlags true fl).getLsbD tf = false ∧
    (gateFlags true fl).getLsbD nt = false ∧ (gateFlags true fl).getLsbD df = fl.getLsbD df := by
  simp [gateFlags, intf, tf, nt, df]

theorem sysretFlags_spec (h : iopl fl = 0) (hi : fl.getLsbD intf = true) :
    iopl (fl &&& 0x3C7FD7 ||| 2) = 0 ∧ (fl &&& 0x3C7FD7 ||| 2).getLsbD intf = true := by
  refine ⟨iopl_or (iopl_and h _) (by decide), ?_⟩
  simp only [intf] at hi
  simp [intf, hi]

end Flags

/-! ## Tables that confine user code -/

/-- The segments in use. -/
structure Segments where
  userCs : Selector
  userSs : Selector
  kernelCs : Selector
  kernelSs : Selector

structure Confining (m : Tables) (g : Segments) : Prop where
  /-- Every gate is an interrupt gate to the kernel, not open to `int n`. -/
  gates : ∀ cpl soft v e, m.idt.enter m.gdt cpl soft v = .ok e →
    e.cpl = 0 ∧ e.cs = g.kernelCs ∧ e.masks = true ∧ (soft = true → cpl = 0)
  faults : ∀ cpl soft v w, m.idt.enter m.gdt cpl soft v = .error w → w = 13
  protection : ∀ cpl, ∃ e, m.idt.enter m.gdt cpl false 13 = .ok e
  far : ∀ s, farTransfer m.gdt 3 s = .fault ∨ farTransfer m.gdt 3 s = .code g.userCs
  userStack : ∀ s, stackSegmentOk m.gdt 3 s = true ↔ s = g.userSs
  kernelStack : stackSegmentOk m.gdt 0 0 = true ∧ stackSegmentOk m.gdt 0 g.kernelSs = true
  levels : g.userCs.rpl = 3 ∧ g.kernelCs.rpl = 0
  returns : returnSegmentOk m.gdt 0 g.userCs = true ∧ returnSegmentOk m.gdt 0 g.kernelCs = true
  ports : m.tssLimit ≤ m.iopb
  enabled : m.msr.efer.getLsbD 0 = true
  syscall : m.msr.star.extractLsb' 32 16 &&& 0xFFFC = g.kernelCs ∧ m.msr.star.extractLsb' 32 16 + 8 = g.kernelSs
  sysret : m.msr.star.extractLsb' 48 16 + 16 ||| 3 = g.userCs ∧ m.msr.star.extractLsb' 48 16 + 8 ||| 3 = g.userSs
  first : ∀ rip, ∃ fl, m.first rip = .iret rip g.userCs fl g.userSs ∧ iopl fl = 0 ∧ fl.getLsbD intf = true

/-- A return to the user, or from an interrupt of the kernel. -/
def Ret.Ok (g : Segments) : Ret → Prop
  | .iret _ cs fl ss => iopl fl = 0 ∧
      (cs = g.userCs ∧ ss = g.userSs ∧ fl.getLsbD intf = true ∨ cs = g.kernelCs ∧ (ss = 0 ∨ ss = g.kernelSs))
  | .sysret _ fl => iopl fl = 0 ∧ fl.getLsbD intf = true

structure InUser (g : Segments) (s : Rings) : Prop where
  cpl : s.cpl = 3
  cs : s.cs = g.userCs
  ss : s.ss = g.userSs
  intf : s.rflags.getLsbD intf = true

structure InKernel (g : Segments) (s : Rings) : Prop where
  cpl : s.cpl = 0
  cs : s.cs = g.kernelCs
  ss : s.ss = 0 ∨ s.ss = g.kernelSs

structure Confined (g : Segments) (s : Rings) : Prop where
  up : s.down = false
  iopl : iopl s.rflags = 0
  level : InUser g s ∨ InKernel g s
  frames : ∀ u, ∀ r ∈ s.frames u, r.Ok g

theorem Confined.inUser {g : Segments} {s : Rings} (h : Confined g s) (hu : s.cpl = 3) : InUser g s := by
  rcases h.level with hin | hk
  · exact hin
  · exact absurd (hk.cpl.symm.trans hu) (by decide)

theorem Confined.inKernel {g : Segments} {s : Rings} (h : Confined g s) (hk : s.cpl = 0) : InKernel g s := by
  rcases h.level with hu | hin
  · exact absurd (hu.cpl.symm.trans hk) (by decide)
  · exact hin

/-- What becomes of user code. -/
inductive UserStep (m : Tables) (s : Rings) : RingAct → Rings → Prop
  | goesOn (rip fl : Word) : UserStep m s (.user rip fl) { s with rip := rip, rflags := popFlags s.cpl s.rflags fl }
  | far (sel : Selector) (rip : Word) : UserStep m s (.far sel rip) { s with rip := rip }
  | loadSs (sel : Selector) : UserStep m s (.loadSs sel) s
  | syscall : UserStep m s .syscall (s.syscall m)
  | event (v : Nat) (e : Entry) (act : RingAct) (enter : m.idt.enter m.gdt s.cpl false v = .ok e)
      (cause : act = .exception v ∨ act = .irq v) : UserStep m s act (s.enterAt e)
  /-- It is not allowed, or there is no gate. -/
  | protection (e : Entry) (act : RingAct) (enter : m.idt.enter m.gdt s.cpl false 13 = .ok e)
      (cause : ∀ v, act = .exception v ∨ act = .irq v → ∃ w, m.idt.enter m.gdt s.cpl false v = .error w)
      (faults : act ≠ .syscall ∧ ∀ rip fl, act ≠ .user rip fl) : UserStep m s act (s.enterAt e)

variable {P : Ret → Prop} {rest : List Ret}

section Safety

variable {m : Tables} {g : Segments} {s s' : Rings} {act : RingAct}

/-- An event that is not delivered itself ends in a general protection fault. -/
theorem Confining.raise (hc : Confining m g) (s : Rings) (soft : Bool) (v : Nat) :
    (∃ e, m.idt.enter m.gdt s.cpl soft v = .ok e ∧ s.raise m soft v = s.enterAt e) ∨
      (∃ w, m.idt.enter m.gdt s.cpl soft v = .error w) ∧
        ∃ e, m.idt.enter m.gdt s.cpl false 13 = .ok e ∧ s.raise m soft v = s.enterAt e := by
  rw [Rings.raise]
  cases h : m.idt.enter m.gdt s.cpl soft v with
  | ok e => exact .inl ⟨e, rfl, rfl⟩
  | error w =>
    obtain ⟨e, he⟩ := hc.protection s.cpl
    cases hc.faults _ _ _ _ h
    exact .inr ⟨⟨13, rfl⟩, e, he, by simp [he]⟩

theorem Confining.raise_protection (hc : Confining m g) (s : Rings) :
    ∃ e, m.idt.enter m.gdt s.cpl false 13 = .ok e ∧ s.raise m false 13 = s.enterAt e := by
  rcases hc.raise s false 13 with h | h
  · exact h
  · exact h.2

theorem InUser.not_kernel (h : InUser g s) : s.cpl ≠ 0 := by rw [h.cpl]; decide

theorem userStep_of_step (hc : Confining m g) (h : Confined g s) (hu : InUser g s) (hs : s.step m act = some s') :
    UserStep m s act s' := by
  have hcpl := hu.not_kernel
  have hiopl : ¬ s.cpl ≤ X86.iopl s.rflags := by rw [hu.cpl, h.iopl]; decide
  obtain ⟨e, he, hraise⟩ := hc.raise_protection s
  have hprot : ∀ act, (∀ v, act ≠ .exception v ∧ act ≠ .irq v) → (act ≠ .syscall ∧ ∀ rip fl, act ≠ .user rip fl) →
      UserStep m s act (s.raise m false 13) := by
    intro act hno hf
    rw [hraise]
    refine .protection e act he (fun v hv => ?_) hf
    rcases hv with hv | hv
    · exact absurd hv (hno v).1
    · exact absurd hv (hno v).2
  have hevent : ∀ act v, (∀ w, act = .exception w ∨ act = .irq w → w = v) → (act = .exception v ∨ act = .irq v) →
      UserStep m s act (s.raise m false v) := by
    intro act v honly hact
    rcases hc.raise s false v with ⟨e, he, hr⟩ | ⟨herr, e, he, hr⟩
    · rw [hr]
      exact .event v e act he hact
    · rw [hr]
      refine .protection e act he (fun w hw => honly w hw ▸ herr) ?_
      rcases hact with rfl | rfl <;> simp
  rw [Rings.step.eq_def, if_neg (by rw [h.up]; decide)] at hs
  cases act with
  | user rip fl =>
    simp only [if_neg hcpl, Option.some.injEq] at hs
    subst hs
    exact .goesOn rip fl
  | far sel rip =>
    simp only [if_neg hcpl] at hs
    rcases hc.far sel with hfar | hfar <;> rw [← hu.cpl] at hfar <;> rw [hfar] at hs <;> cases hs
    · exact hprot _ (by simp) (by simp)
    · rw [← hu.cs]
      exact .far sel rip
  | loadSs sel =>
    simp only [if_neg hcpl] at hs
    split at hs <;> cases hs
    · rename_i hss
      rw [hu.cpl, hc.userStack] at hss
      rw [hss, ← hu.ss]
      exact .loadSs _
    · exact hprot _ (by simp) (by simp)
  | mask b =>
    simp only [if_neg hcpl, if_neg hiopl, Option.some.injEq] at hs
    subst hs
    exact hprot _ (by simp) (by simp)
  | io port width =>
    have hno : ¬ (s.cpl ≤ X86.iopl s.rflags ∨ ioAllowed m.tssLimit m.iopb m.ioBits port width = true) := by
      rw [ioAllowed_of_limit hc.ports]
      simpa using hiopl
    simp only [if_neg hcpl, if_neg hno, Option.some.injEq] at hs
    subst hs
    exact hprot _ (by simp) (by simp)
  | privileged =>
    simp only [if_neg hcpl, Option.some.injEq] at hs
    subst hs
    exact hprot _ (by simp) (by simp)
  | soft v =>
    simp only [if_neg hcpl, Option.some.injEq] at hs
    subst hs
    rcases hc.raise s true v with ⟨e, he, -⟩ | ⟨-, e', he', hr⟩
    · exact absurd ((hc.gates _ _ _ _ he).2.2.2 rfl) hcpl
    · rw [hr]
      exact .protection e' _ he' (by simp) (by simp)
  | exception v =>
    simp only [if_neg hcpl, Option.some.injEq] at hs
    subst hs
    exact hevent _ v (by simp) (.inl rfl)
  | irq v =>
    simp only [hu.intf, if_true, Option.some.injEq] at hs
    subst hs
    exact hevent _ v (by simp) (.inr rfl)
  | syscall =>
    simp only [if_neg hcpl, hc.enabled, if_true, Option.some.injEq] at hs
    subst hs
    exact .syscall
  | iretq | sysretq =>
    simp only [if_neg hcpl] at hs
    split at hs <;> cases hs
  | fresh u =>
    simp only [hcpl, false_and, if_false] at hs
    cases hs
  | _ =>
    simp only [if_neg hcpl] at hs
    cases hs

/-- What holds of all returns still does if it does of those that the running task gets. -/
theorem Rings.frames_set {rs : List Ret} (h : ∀ u, ∀ r ∈ s.frames u, P r) (hrs : ∀ r ∈ rs, P r) :
    ∀ u, ∀ r ∈ (s.setFrames rs).frames u, P r := by
  intro u r hr
  by_cases hrun : u = s.running
  · have hframes : (s.setFrames rs).frames u = rs := by
      rw [hrun]
      exact update_self _ _ _
    exact hrs r (hframes ▸ hr)
  · have hframes : (s.setFrames rs).frames u = s.frames u := update_of_ne hrun _ _
    exact h u r (hframes ▸ hr)

theorem Rings.frames_push (top : Ret) (h : ∀ u, ∀ r ∈ s.frames u, P r) (hr : P top) :
    ∀ u, ∀ r ∈ (s.setFrames (top :: s.frames s.running)).frames u, P r :=
  Rings.frames_set h (List.forall_mem_cons.2 ⟨hr, h s.running⟩)

theorem Rings.frames_pop {top : Ret} (h : ∀ u, ∀ r ∈ s.frames u, P r)
    (hf : s.frames s.running = top :: rest) : P top ∧ ∀ u, ∀ r ∈ (s.setFrames rest).frames u, P r := by
  obtain ⟨hr, hrest⟩ := List.forall_mem_cons.1 (hf ▸ h s.running)
  exact ⟨hr, Rings.frames_set h hrest⟩

theorem Confined.interrupted (h : Confined g s) : (Ret.iret s.rip s.cs s.rflags s.ss).Ok g := by
  refine ⟨h.iopl, ?_⟩
  rcases h.level with hu | hk
  · exact .inl ⟨hu.cs, hu.ss, hu.intf⟩
  · exact .inr ⟨hk.cs, hk.ss⟩

theorem Confined.rpl (hc : Confining m g) (h : Confined g s) : s.cs.rpl = s.cpl := by
  rcases h.level with hu | hk
  · rw [hu.cs, hu.cpl, hc.levels.1]
  · rw [hk.cs, hk.cpl, hc.levels.2]

theorem Confined.enterAt (hc : Confining m g) (h : Confined g s) {soft : Bool} {v : Nat} {e : Entry}
    (he : m.idt.enter m.gdt s.cpl soft v = .ok e) : Confined g (s.enterAt e) := by
  obtain ⟨hcpl, hcs, -, -⟩ := hc.gates _ _ _ _ he
  refine ⟨h.up, iopl_gateFlags h.iopl _, .inr ⟨hcpl, hcs, ?_⟩, Rings.frames_push (.iret ..) h.frames h.interrupted⟩
  rcases h.level with hu | hk
  · exact .inl (if_pos (by rw [hcpl, hu.cpl]; decide))
  · have hss : (s.enterAt e).ss = s.ss := if_neg (by rw [hcpl, hk.cpl]; decide)
    rw [hss]
    exact hk.ss

theorem Confined.raise (hc : Confining m g) (h : Confined g s) (soft : Bool) (v : Nat) : Confined g (s.raise m soft v) := by
  rcases hc.raise s soft v with ⟨e, he, hr⟩ | ⟨-, e, he, hr⟩
  · rw [hr]
    exact h.enterAt hc he
  · rw [hr]
    exact h.enterAt hc he

theorem Confined.syscall (hc : Confining m g) (h : Confined g s) (hu : InUser g s) : Confined g (s.syscall m) :=
  ⟨h.up, iopl_and h.iopl _, .inr ⟨rfl, hc.syscall.1, .inr hc.syscall.2⟩, Rings.frames_push (.sysret ..) h.frames
    ⟨h.iopl, hu.intf⟩⟩

theorem Ret.Ok.segments (hc : Confining m g) (hr : (Ret.iret rip cs fl ss).Ok g) :
    (returnSegmentOk m.gdt 0 cs && stackSegmentOk m.gdt cs.rpl ss) = true := by
  rcases hr.2 with ⟨rfl, rfl, -⟩ | ⟨rfl, rfl | rfl⟩
  · rw [hc.returns.1, hc.levels.1, (hc.userStack _).2 rfl]; rfl
  · rw [hc.returns.2, hc.levels.2, hc.kernelStack.1]; rfl
  · rw [hc.returns.2, hc.levels.2, hc.kernelStack.2]; rfl

theorem iretq_spec (hc : Confining m g) (hk : InKernel g s)
    (hr : (Ret.iret rip cs fl ss).Ok g) (hnt : s.rflags.getLsbD nt = false) :
    s.iretq m rip cs fl ss rest = { s.setFrames rest with cpl := cs.rpl, cs := cs, ss := ss, rip := rip, rflags := fl } := by
  rw [Rings.iretq, if_neg (by rw [hnt]; decide), hk.cpl, if_pos (hr.segments hc)]

theorem iretq_nt (hc : Confining m g) (s : Rings) (rip fl : Word) (cs ss : Selector) (rest : List Ret)
    (hnt : s.rflags.getLsbD nt = true) :
    ∃ e, m.idt.enter m.gdt s.cpl false 13 = .ok e ∧ s.iretq m rip cs fl ss rest = s.enterAt e := by
  rw [Rings.iretq, if_pos hnt]
  exact hc.raise_protection s

theorem step_iretq (h : Confined g s) (hk : s.cpl = 0)
    (hf : s.frames s.running = .iret rip cs fl ss :: rest) : s.step m .iretq = some (s.iretq m rip cs fl ss rest) := by
  rw [Rings.step.eq_def, if_neg (by rw [h.up]; decide)]
  simp only [hf, if_pos hk]

theorem Confined.iretq (hc : Confining m g) (h : Confined g s) (hk : InKernel g s)
    
    (hf : s.frames s.running = .iret rip cs fl ss :: rest) : Confined g (s.iretq m rip cs fl ss rest) := by
  obtain ⟨hr, hrest⟩ := Rings.frames_pop h.frames hf
  cases hnt : s.rflags.getLsbD nt with
  | true =>
    obtain ⟨e, he, hs⟩ := iretq_nt hc s rip fl cs ss rest hnt
    rw [hs]
    exact h.enterAt hc he
  | false =>
    rw [iretq_spec hc hk hr hnt]
    refine ⟨h.up, hr.1, ?_, hrest⟩
    rcases hr.2 with ⟨rfl, rfl, hi⟩ | ⟨rfl, hss⟩
    · exact .inl ⟨hc.levels.1, rfl, rfl, hi⟩
    · exact .inr ⟨hc.levels.2, rfl, hss⟩

theorem Confined.sysretq (hc : Confining m g) (h : Confined g s)
    (hf : s.frames s.running = .sysret rip fl :: rest) : Confined g (s.sysretq m rip fl rest) := by
  obtain ⟨hr, hrest⟩ := Rings.frames_pop h.frames hf
  obtain ⟨hiopl, hi⟩ := sysretFlags_spec hr.1 hr.2
  exact ⟨h.up, hiopl, .inl ⟨rfl, hc.sysret.1, hc.sysret.2, hi⟩, hrest⟩

theorem confined_userStep (hc : Confining m g) (h : Confined g s) (hu : InUser g s) (hs : UserStep m s act s') :
    Confined g s' := by
  cases hs with
  | goesOn rip fl =>
    have hcpl := hu.cpl
    refine ⟨h.up, ?_, .inl ⟨hu.cpl, hu.cs, hu.ss, ?_⟩, h.frames⟩
    · rw [hcpl]
      exact iopl_popFlags h.iopl fl
    · rw [hcpl]
      exact (intf_popFlags h.iopl fl).trans hu.intf
  | far sel rip => exact ⟨h.up, h.iopl, .inl ⟨hu.cpl, hu.cs, hu.ss, hu.intf⟩, h.frames⟩
  | loadSs sel => exact h
  | syscall => exact h.syscall hc hu
  | event v e _ he => exact h.enterAt hc he
  | protection e _ he => exact h.enterAt hc he

/-- What kernel code does. -/
inductive KernelStep (m : Tables) (s : Rings) : Rings → Prop
  | irq (v : Nat) : KernelStep m s (s.raise m false v)
  | kernel (rip fl : Word) : KernelStep m s { s with rip := rip, rflags := codeFlags s.rflags fl }
  | switch (u : Nat) : KernelStep m s { s with running := u }
  | fresh (u : Nat) : KernelStep m s { s with frames := update s.frames u [] }
  | enterUser (rip : Word) : KernelStep m s (s.setFrames (m.first rip :: s.frames s.running))
  | iretq (rip : Word) (cs : Selector) (fl : Word) (ss : Selector) (rest : List Ret)
      (top : s.frames s.running = .iret rip cs fl ss :: rest) : KernelStep m s (s.iretq m rip cs fl ss rest)
  | sysretq (rip fl : Word) (rest : List Ret) (top : s.frames s.running = .sysret rip fl :: rest) :
      KernelStep m s (s.sysretq m rip fl rest)

theorem kernelStep_of_step (h : Confined g s) (hk : InKernel g s) (hs : s.step m act = some s') : KernelStep m s s' := by
  have hcpl := hk.cpl
  rw [Rings.step.eq_def, if_neg (by rw [h.up]; decide)] at hs
  cases act with
  | irq v =>
    simp only at hs
    split at hs <;> cases hs
    exact .irq v
  | fresh u =>
    simp only at hs
    split at hs <;> cases hs
    exact .fresh u
  | kernel rip fl =>
    simp only [if_pos hcpl] at hs
    cases hs
    exact .kernel rip fl
  | switch u =>
    simp only [if_pos hcpl] at hs
    cases hs
    exact .switch u
  | enterUser rip =>
    simp only [if_pos hcpl] at hs
    cases hs
    exact .enterUser rip
  | iretq =>
    simp only [if_pos hcpl] at hs
    split at hs <;> cases hs
    exact .iretq _ _ _ _ _ ‹_›
  | sysretq =>
    simp only [if_pos hcpl] at hs
    split at hs <;> cases hs
    exact .sysretq _ _ _ ‹_›
  | _ =>
    simp only [if_pos hcpl] at hs
    cases hs

theorem Rings.frames_fresh (h : ∀ u, ∀ r ∈ s.frames u, P r) (v : Nat) :
    ∀ u, ∀ r ∈ update s.frames v [] u, P r := by
  intro u r hr
  by_cases hu : u = v
  · subst hu
    simp at hr
  · rw [update_of_ne hu] at hr
    exact h u r hr

theorem confined_kernelStep (hc : Confining m g) (h : Confined g s) (hk : InKernel g s) (hs : KernelStep m s s') :
    Confined g s' := by
  cases hs with
  | irq v => exact h.raise hc false v
  | kernel rip fl => exact ⟨h.up, iopl_codeFlags h.iopl fl, .inr ⟨hk.cpl, hk.cs, hk.ss⟩, h.frames⟩
  | switch u => exact ⟨h.up, h.iopl, .inr ⟨hk.cpl, hk.cs, hk.ss⟩, h.frames⟩
  | fresh u => exact ⟨h.up, h.iopl, .inr ⟨hk.cpl, hk.cs, hk.ss⟩, Rings.frames_fresh h.frames u⟩
  | enterUser rip =>
    obtain ⟨fl, hfirst, hiopl, hi⟩ := hc.first rip
    rw [hfirst]
    exact ⟨h.up, h.iopl, .inr ⟨hk.cpl, hk.cs, hk.ss⟩, Rings.frames_push (.iret ..) h.frames ⟨hiopl, .inl ⟨rfl, rfl, hi⟩⟩⟩
  | iretq rip cs fl ss rest hf => exact h.iretq hc hk hf
  | sysretq rip fl rest hf => exact h.sysretq hc hf

theorem confined_step (hc : Confining m g) (h : Confined g s) (hs : s.step m act = some s') : Confined g s' := by
  rcases h.level with hu | hk
  · exact confined_userStep hc h hu (userStep_of_step hc h hu hs)
  · exact confined_kernelStep hc h hk (kernelStep_of_step h hk hs)

end Safety

/-! ## The flag NT -/

/-- No return to kernel code with NT set. -/
def Ret.NtOk (g : Segments) : Ret → Prop
  | .iret _ cs fl _ => cs = g.kernelCs → fl.getLsbD nt = false
  | .sysret _ _ => True

/-- Kernel code does not run with NT set, and does not return to such code. -/
structure NtClear (g : Segments) (s : Rings) : Prop where
  kernel : s.cpl = 0 → s.rflags.getLsbD nt = false
  frames : ∀ u, ∀ r ∈ s.frames u, r.NtOk g

section Nt

variable {m : Tables} {g : Segments} {s s' : Rings} {act : RingAct}

theorem Confining.kernel_ne_user (hc : Confining m g) : g.userCs ≠ g.kernelCs := by
  intro h
  have hlevel := hc.levels.2
  rw [← h, hc.levels.1] at hlevel
  exact absurd hlevel (by decide)

theorem NtClear.enterAt (hc : Confining m g) (h : Confined g s) (hn : NtClear g s) {soft : Bool} {v : Nat} {e : Entry}
    (he : m.idt.enter m.gdt s.cpl soft v = .ok e) : NtClear g (s.enterAt e) := by
  obtain ⟨-, -, hmask, -⟩ := hc.gates _ _ _ _ he
  refine ⟨fun _ => ?_, Rings.frames_push (.iret ..) hn.frames fun hcs => ?_⟩
  · show (gateFlags e.masks s.rflags).getLsbD nt = false
    rw [hmask]
    exact (gateFlags_clears s.rflags).2.2.1
  · rcases h.level with hu | hk
    · exact absurd (hu.cs.symm.trans hcs) hc.kernel_ne_user
    · exact hn.kernel hk.cpl

/-- No system call with NT set: then the kernel never has it. -/
theorem ntClear_step (hc : Confining m g) (h : Confined g s) (hn : NtClear g s)
    (hok : act = .syscall → s.rflags.getLsbD nt = false) (hs : s.step m act = some s') : NtClear g s' := by
  rcases h.level with hu | hk
  · cases userStep_of_step hc h hu hs with
    | goesOn rip fl => exact ⟨fun h0 => absurd h0 hu.not_kernel, hn.frames⟩
    | far sel rip => exact ⟨hn.kernel, hn.frames⟩
    | loadSs sel => exact hn
    | syscall =>
      refine ⟨fun _ => ?_, Rings.frames_push (.sysret ..) hn.frames trivial⟩
      show (s.rflags &&& ~~~m.msr.sfmask).getLsbD nt = false
      rw [BitVec.getLsbD_and, hok rfl, Bool.false_and]
    | event v e _ he => exact hn.enterAt hc h he
    | protection e _ he => exact hn.enterAt hc h he
  · have hnt := hn.kernel hk.cpl
    cases kernelStep_of_step h hk hs with
    | irq v =>
      rcases hc.raise s false v with ⟨e, he, hr⟩ | ⟨-, e, he, hr⟩
      · rw [hr]
        exact hn.enterAt hc h he
      · rw [hr]
        exact hn.enterAt hc h he
    | kernel rip fl => exact ⟨fun _ => (nt_codeFlags _ fl).trans hnt, hn.frames⟩
    | switch u => exact ⟨hn.kernel, hn.frames⟩
    | fresh u => exact ⟨hn.kernel, Rings.frames_fresh hn.frames u⟩
    | enterUser rip =>
      obtain ⟨fl, hfirst, -, -⟩ := hc.first rip
      rw [hfirst]
      exact ⟨hn.kernel, Rings.frames_push (.iret ..) hn.frames fun hcs => absurd hcs hc.kernel_ne_user⟩
    | iretq rip cs fl ss rest hf =>
      obtain ⟨hr, -⟩ := Rings.frames_pop h.frames hf
      obtain ⟨hclear, hrest⟩ := Rings.frames_pop hn.frames hf
      rw [iretq_spec hc hk hr hnt]
      refine ⟨fun h0 => ?_, hrest⟩
      rcases hr.2 with ⟨rfl, -, -⟩ | ⟨rfl, -⟩
      · exact absurd (hc.levels.1.symm.trans h0) (by decide)
      · exact hclear rfl
    | sysretq rip fl rest hf =>
      exact ⟨fun h0 => absurd (show (3 : Level) = 0 from h0) (by decide), (Rings.frames_pop hn.frames hf).2⟩

theorem nt_popFlags (fl : Word) : (popFlags 3 fl 0x4000).getLsbD nt = true := by
  by_cases h : 3#2 ≤ iopl fl <;> simp [popFlags, nt, h]

end Nt

end ToastOS.Lib.X86
