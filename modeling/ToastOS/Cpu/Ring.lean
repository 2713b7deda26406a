import ToastOS.Cpu.Idt

/-!
# User code and the kernel

Runs of the CPU with the tables of `initGDT`, `initIDT` and `init_syscall`.

* `user_code_is_confined` : what user code can and cannot do, and where and how it gets into the kernel;
* `returns_fail_by_nt_only` : SFMASK leaves out NT, which the next `iretq` of the kernel does not survive.
-/

namespace ToastOS.Cpu

open ToastOS.Lib Function
open ToastOS.Lib.X86

/-- The kernel after `init_syscall`, before any task runs. -/
structure AtBoot (s : Rings) : Prop where
  cpl : s.cpl = 0
  cs : s.cs = 0x08
  ss : s.ss = 0x10
  iopl : iopl s.rflags = 0
  nt : s.rflags.getLsbD nt = false
  frames : s.frames = fun _ => []
  up : s.down = false

/-- Instructions that user code has no right to. -/
def forbidden : RingAct → Bool
  | .mask _ | .io _ _ | .privileged | .soft _ => true
  | _ => false

/-- How the kernel is entered: through the stub of `v`, with the direction flag as user code left it, or at
`syscall_entry`. -/
inductive Entered (y : Image) (s s' : Rings) (act : RingAct) : Prop
  | stub (v : Nat) (vector : installed v = true) (rip : s'.rip = y.stubs.at v)
      (df : s'.rflags.getLsbD df = s.rflags.getLsbD df)
      (cause : act = .exception v ∨ act = .irq v ∨ v = 13 ∧ act ≠ .syscall)
  | syscall (act : act = .syscall) (rip : s'.rip = y.syscallEntry) (df : s'.rflags.getLsbD df = false)

section Rings

variable {y : Image} {s s' : Rings} {act : RingAct}

theorem AtBoot.confined (h : AtBoot s) : Confined segments s :=
  ⟨h.up, h.iopl, .inr ⟨h.cpl, h.cs, .inr h.ss⟩, fun u r hr => by simp [h.frames] at hr⟩

theorem AtBoot.ntClear (h : AtBoot s) : NtClear segments s :=
  ⟨fun _ => h.nt, fun u r hr => by simp [h.frames] at hr⟩

theorem confined_of_reach {s₀ : Rings} {ok : Rings → RingAct → Prop} (hb : AtBoot s₀)
    (h : Reach (Rings.step (tables y)) ok s₀ s) : Confined segments s :=
  h.invariant hb.confined fun _ _ _ hc _ hs => confined_step (confining_tables y) hc hs

theorem entry_of_enter {v : Nat} {e : Entry} (he : (tables y).idt.enter (tables y).gdt s.cpl false v = .ok e) :
    installed v = true ∧ (s.enterAt e).rip = y.stubs.at v ∧ (s.enterAt e).rflags.getLsbD df = s.rflags.getLsbD df ∧
      (s.enterAt e).cpl = 0 ∧ (s.enterAt e).cs = 0x08 ∧ (s.enterAt e).rflags.getLsbD intf = false ∧
      (s.enterAt e).rflags.getLsbD tf = false := by
  rw [enter_tables] at he
  split at he
  · rename_i hin
    cases he
    obtain ⟨hif, htf, -, hdf⟩ := gateFlags_clears s.rflags
    exact ⟨hin.1, rfl, hdf, rfl, rfl, hif, htf⟩
  · cases he

theorem enter_installed (cpl : Level) {v : Nat} (hv : installed v = true) :
    (tables y).idt.enter (tables y).gdt cpl false v = .ok ⟨y.stubs.at v, 0x08, 0, true⟩ := by
  rw [enter_tables, if_pos ⟨hv, by simp⟩]

/-- User code is confined. Whatever a run does: user code has the user's segments, interrupts are on, and it has no right of
I/O. It goes on as user code, with a new stack or code segment at most, or it enters the kernel with interrupts and single
steps off, through the stub of an exception or interrupt or at `syscall_entry`. What it has no right to, `int n`
included, ends in a general protection fault. -/
theorem user_code_is_confined (y : Image) {s₀ : Rings} (hb : AtBoot s₀) (h : Reach (Rings.step (tables y)) Any s₀ s)
    (hu : s.cpl = 3) :
    (s.cs = 0x23 ∧ s.ss = 0x1B ∧ s.rflags.getLsbD intf = true ∧ iopl s.rflags = 0) ∧
      ∀ act s', s.step (tables y) act = some s' →
        (s'.cpl = 3 ∧ forbidden act = false ∧ s'.frames = s.frames ∨
          (s'.cpl = 0 ∧ s'.cs = 0x08 ∧ s'.rflags.getLsbD intf = false ∧ s'.rflags.getLsbD tf = false) ∧ Entered y s s' act) ∧
        (forbidden act = true → s'.rip = y.stubs.at 13) := by
  have hc := confined_of_reach hb h
  have hin := hc.inUser hu
  refine ⟨⟨hin.cs, hin.ss, hin.intf, hc.iopl⟩, fun act s' hs => ?_⟩
  cases userStep_of_step (confining_tables y) hc hin hs with
  | goesOn rip fl => exact ⟨.inl ⟨hu, rfl, rfl⟩, fun hf => by cases hf⟩
  | far sel rip => exact ⟨.inl ⟨hu, rfl, rfl⟩, fun hf => by cases hf⟩
  | loadSs sel => exact ⟨.inl ⟨hu, rfl, rfl⟩, fun hf => by cases hf⟩
  | syscall =>
    obtain ⟨-, -, hlstar, hmask⟩ := initSyscall_spec y.syscallEntry y.msr
    have hfl : (s.syscall (tables y)).rflags = s.rflags &&& ~~~0x700 := by
      show s.rflags &&& ~~~(initSyscall y.syscallEntry y.msr).sfmask = _
      rw [hmask]
    refine ⟨.inr ⟨⟨rfl, (confining_tables y).syscall.1, ?_, ?_⟩, .syscall rfl hlstar ?_⟩, fun hf => by cases hf⟩
    · rw [hfl]; simp [intf]
    · rw [hfl]; simp [tf]
    · rw [hfl]; simp [df]
  | event v e _ he cause =>
    obtain ⟨hv, hrip, hdf, hin⟩ := entry_of_enter he
    refine ⟨.inr ⟨hin, .stub v hv hrip hdf (cause.imp_right .inl)⟩, fun hf => ?_⟩
    rcases cause with rfl | rfl <;> cases hf
  | protection e _ he cause faults =>
    obtain ⟨hv, hrip, hdf, hin⟩ := entry_of_enter he
    exact ⟨.inr ⟨hin, .stub 13 hv hrip hdf (.inr (.inr ⟨rfl, faults.1⟩))⟩, fun _ => hrip⟩

/-- An image with all stubs in one page. -/
def Image.sample : Image where
  stubs := ⟨fun n => BitVec.ofNat 64 (0x1000 + 16 * n), fun n => BitVec.ofNat 64 (0x2000 + 16 * n)⟩
  syscallEntry := 0x3000
  tss := 0x4000
  gdt := ⟨fun _ => ⟨0, 0, 0, 0, 0, 0⟩, ⟨0, 0, 0, 0, 0, 0, 0, 0⟩, 0, 0⟩
  idt := ⟨fun _ => ⟨0, 0, 0, 0, 0, 0, 0⟩, 0, []⟩
  msr := ⟨0x100, 0, 0, 0⟩
  ioBits := fun _ => false

def bootRings : Rings where
  cpl := 0
  cs := 0x08
  ss := 0x10
  rip := 0x5000
  rflags := 2
  running := 0
  frames := fun _ => []
  down := false

theorem bootRings_atBoot : AtBoot bootRings := ⟨rfl, rfl, rfl, by decide, by decide, rfl, rfl⟩

/-- A task tries `int 0x80`. -/
theorem int80_is_refused : ∃ s s', Reach (Rings.step (tables .sample)) Any bootRings s ∧ s.cpl = 3 ∧
    s.step (tables .sample) (.soft 0x80) = some s' ∧ s'.cpl = 0 ∧ s'.rip = 0x10D0 := by
  have hrun : ([.enterUser 0x400000, .iretq].foldlM (Rings.step (tables .sample)) bootRings).bind (fun s =>
      (s.step (tables .sample) (.soft 0x80)).map fun s' => (s.cpl, s'.cpl)) = some (3, 0) := by decide +kernel
  obtain ⟨s, hs, hmap⟩ := Option.bind_eq_some_iff.1 hrun
  obtain ⟨s', hs', he⟩ := Option.map_eq_some_iff.1 hmap
  simp only [Prod.mk.injEq] at he
  have hr : Reach (Rings.step (tables .sample)) Any bootRings s := Reach.of_foldlM _ _ _ .refl (fun _ _ _ => trivial) hs
  exact ⟨s, s', hr, he.1, hs', he.2, ((user_code_is_confined .sample bootRings_atBoot hr he.1).2 _ s' hs').2 rfl⟩

/-! ## NT -/

/-- No system call is made with NT set. -/
def NoNt (s : Rings) (act : RingAct) : Prop := act = .syscall → s.rflags.getLsbD nt = false

/-- The kernel's `iretq` returns, as long as no system call has been made with NT set. But where user code runs and another
task is to return from an interrupt, it can set NT, make a system call, and have the kernel fault in that task's `iretq`. -/
theorem returns_fail_by_nt_only (y : Image) {s₀ : Rings} (hb : AtBoot s₀) :
    (∀ s, Reach (Rings.step (tables y)) NoNt s₀ s → s.cpl = 0 →
    ∀ rip cs fl ss rest, s.frames s.running = .iret rip cs fl ss :: rest →
      ∃ s', s.step (tables y) .iretq = some s' ∧ s'.rip = rip ∧ s'.cs = cs ∧ s'.rflags = fl ∧ s'.ss = ss ∧
        s'.frames = update s.frames s.running rest) ∧
    ∀ s, Reach (Rings.step (tables y)) Any s₀ s → s.cpl = 3 → ∀ u, u ≠ s.running → ∀ rip cs fl ss rest,
      s.frames u = .iret rip cs fl ss :: rest →
      ∃ s', [.user s.rip 0x4000, .syscall, .switch u, .iretq].foldlM (Rings.step (tables y)) s = some s' ∧
      s'.rip = y.stubs.at 13 ∧ ∃ at' fl' ss', s'.frames u = .iret at' 0x08 fl' ss' :: s.frames u := by
  refine ⟨fun s h hk rip cs fl ss rest hf => ?_, fun s h hu u hne rip cs fl ss rest hf => ?_⟩
  · obtain ⟨hc, hn⟩ := h.invariant (P := fun s => Confined segments s ∧ NtClear segments s) ⟨hb.confined, hb.ntClear⟩
      fun s act s' hcn hok hs => ⟨confined_step (confining_tables y) hcn.1 hs, ntClear_step
      (confining_tables y) hcn.1 hcn.2 hok hs⟩
    obtain ⟨hr, -⟩ := Rings.frames_pop hc.frames hf
    refine ⟨_, step_iretq hc hk hf, ?_⟩
    rw [iretq_spec (confining_tables y) (hc.inKernel hk) hr (hn.kernel hk)]
    exact ⟨rfl, rfl, rfl, rfl, rfl⟩
  · have hc := confined_of_reach hb h
    have hin := hc.inUser hu
    have hne0 := hin.not_kernel
    let s₁ : Rings := { s with rflags := popFlags s.cpl s.rflags 0x4000 }
    let s₃ : Rings := { s₁.syscall (tables y) with running := u }
    have h₁ : s.step (tables y) (.user s.rip 0x4000) = some s₁ := by
      rw [Rings.step.eq_def, if_neg (by rw [hc.up]; decide)]
      exact if_neg hne0
    have h₂ : s₁.step (tables y) .syscall = some (s₁.syscall (tables y)) := by
      rw [Rings.step.eq_def, if_neg (by rw [show s₁.down = false from hc.up]; decide)]
      simp only [if_neg (show ¬ s₁.cpl = 0 from hne0), (confining_tables y).enabled, if_true]
    have h₃ : (s₁.syscall (tables y)).step (tables y) (.switch u) = some s₃ := by
      rw [Rings.step.eq_def, if_neg (by rw [show (s₁.syscall (tables y)).down = false from hc.up]; decide)]
      rfl
    have hc₃ : Confined segments s₃ := by
      have hc₁ := confined_step (confining_tables y) hc h₁
      exact confined_step (confining_tables y) (confined_step (confining_tables y) hc₁ h₂) h₃
    have hframes : s₃.frames u = s.frames u := update_of_ne hne _ _
    have hnt : s₃.rflags.getLsbD nt = true := by
      show (popFlags s.cpl s.rflags 0x4000 &&& ~~~(initSyscall y.syscallEntry y.msr).sfmask).getLsbD nt = true
      rw [(initSyscall_spec y.syscallEntry y.msr).2.2.2, hu, BitVec.getLsbD_and, nt_popFlags]
      decide
    obtain ⟨e, he, hfault⟩ := iretq_nt (confining_tables y) s₃ rip fl cs ss rest hnt
    obtain ⟨-, hrip, -⟩ := entry_of_enter he
    have h₄ : s₃.step (tables y) .iretq = some (s₃.enterAt e) := by
      rw [← hfault]
      exact step_iretq hc₃ rfl (hframes.trans hf)
    refine ⟨s₃.enterAt e, ?_, hrip, s₃.rip, s₃.rflags, s₃.ss, ?_⟩
    · simp only [List.foldlM_cons, List.foldlM_nil, h₁, h₂, h₃, h₄, Option.bind_eq_bind, Option.bind_some]
      rfl
    · rw [← hframes]
      have hcs : s₃.cs = 0x08 := (confining_tables y).syscall.1
      rw [← hcs]
      exact update_self _ _ _

/-- A task is interrupted, and the next one makes its return fail. -/
theorem nt_faults_other_task : ∃ s s', Reach (Rings.step (tables .sample)) Any bootRings s ∧ s.cpl = 3 ∧ s.running = 1 ∧
    [.user s.rip 0x4000, .syscall, .switch 0, .iretq].foldlM (Rings.step (tables .sample)) s = some s' ∧ s'.rip = 0x10D0 := by
  obtain ⟨s, hr, hcpl, hrunning, hframes⟩ := Reach.exists_of_run (Rings.step (tables .sample)) bootRings
    [.enterUser 0x400000, .iretq, .irq 32, .switch 1, .enterUser 0x400000, .iretq] (fun s a _ => show Any s a from trivial)
    (fun s => s.cpl = 3 ∧ s.running = 1 ∧ s.frames 0 = [.iret 0x400000 0x23 0x202 0x1B]) (by decide +kernel)
  have hne : 0 ≠ s.running := by rw [hrunning]; decide
  obtain ⟨s', hs', hrip, -⟩ := (returns_fail_by_nt_only .sample bootRings_atBoot).2 s hr hcpl 0 hne _ _ _ _ _ hframes
  exact ⟨s, s', hr, hcpl, hrunning, hs', hrip⟩

end Rings

end ToastOS.Cpu
