import ToastOS.Cpu.Gdt

/-!
# The IDT

The gates that `initIDT` writes, as the CPU reads them.

* `gate_initIDT` : the gate of every vector, for every address of its stub;
* `tables` : the tables after `initGDT`, `initIDT` and `init_syscall`;
* `enter_tables` : where an interrupt, an exception or `int n` leads.
-/

namespace ToastOS.Cpu

open ToastOS.Lib.X86 Function

structure IdtEntry where
  baseLo : BitVec 16
  selector : BitVec 16
  ist : BitVec 8
  flags : BitVec 8
  baseMid : BitVec 16
  baseHi : BitVec 32
  reserved : BitVec 32

/-- In memory, the first field lowest. -/
def IdtEntry.bits (e : IdtEntry) : BitVec 128 :=
  e.reserved ++ (e.baseHi ++ (e.baseMid ++ (e.flags ++ (e.ist ++ (e.selector ++ e.baseLo)))))

/-- `idt_ent`, `idtr.lim` and what was written to ports. -/
structure IdtState where
  entries : Nat → IdtEntry
  lim : BitVec 16
  out : List (BitVec 16 × BitVec 8)

/-- The addresses of the stubs in `idt_asm.s`. -/
structure Stubs where
  isr : Nat → Word
  irq : Nat → Word

def gdtCs : BitVec 16 := 0x08
def intGateFlags : BitVec 8 := 0x8E

def encodeInterruptGate (index : Nat) (base : Word) (sel : BitVec 16) (flags : BitVec 8) (i : IdtState) : IdtState :=
  { i with
    entries := update i.entries index
      { baseLo := (base &&& 0xFFFF).setWidth 16
        selector := sel
        ist := 0
        flags := flags
        baseMid := (base >>> 16 &&& 0xFFFF).setWidth 16
        baseHi := (base >>> 32 &&& 0xFFFFFFFF).setWidth 32
        reserved := 0 } }

/-- `pic_config`, as port writes. -/
def picConfig : List (BitVec 16 × BitVec 8) :=
  [(0x20, 0x11), (0xA0, 0x11), (0x21, 0x20), (0xA1, 0x28), (0x21, 0x04), (0xA1, 0x02), (0x21, 0x01), (0xA1, 0x01),
    (0x21, 0x0), (0xA1, 0x0)]

/-- The exceptions, and two more. -/
def isrVectors : List Nat := List.range 32 ++ [128, 177]

def isrConfig (y : Stubs) (i : IdtState) : IdtState :=
  isrVectors.foldl (fun i n => encodeInterruptGate n (y.isr n) gdtCs intGateFlags i) i

def irqConfig (y : Stubs) (i : IdtState) : IdtState :=
  (List.range 16).foldl (fun i n => encodeInterruptGate (32 + n) (y.irq n) gdtCs intGateFlags i) i

/-- `initIDT` up to `loadIDT`. -/
def initIDT (y : Stubs) (i : IdtState) : IdtState :=
  let i := { i with lim := BitVec.ofNat 16 (256 * 16 - 1) }
  let i := { i with entries := fun n => if n < 256 then ⟨0, 0, 0, 0, 0, 0, 0⟩ else i.entries n }
  let i := { i with out := i.out ++ picConfig }
  irqConfig y (isrConfig y i)

/-- What `lidt` loads. -/
def IdtState.idt (i : IdtState) : Idt := ⟨i.lim.toNat, fun v => (i.entries v).bits⟩

def installed (v : Nat) : Bool := v < 48 || v == 128 || v == 177

def Stubs.at (y : Stubs) (v : Nat) : Word := if 32 ≤ v ∧ v < 48 then y.irq (v - 32) else y.isr v

section Idt

variable (y : Stubs) (i : IdtState)

/-- The entry for a stub at `base`. -/
def stubEntry (base : Word) : IdtEntry :=
  ⟨base.extractLsb' 0 16, 0x08, 0, 0x8E, base.extractLsb' 16 16, base.extractLsb' 32 32, 0⟩

theorem entries_encodeInterruptGate (index : Nat) (base : Word) :
    (encodeInterruptGate index base gdtCs intGateFlags i).entries = update i.entries index (stubEntry base) := by
  have hlo := setWidth_shift_mask base 0 16 0xFFFF rfl
  have hmid := setWidth_shift_mask base 16 16 0xFFFF rfl
  have hhi := setWidth_shift_mask base 32 32 0xFFFFFFFF rfl
  rw [BitVec.ushiftRight_zero] at hlo
  simp only [encodeInterruptGate, hlo, hmid, hhi]
  rfl

theorem entries_foldl (index : Nat → Nat) (base : Nat → Word) (hinj : Function.Injective index) (ns : List Nat)
    (i : IdtState) (v : Nat) :
    ((∀ n ∈ ns, index n ≠ v) →
      (ns.foldl (fun i n => encodeInterruptGate (index n) (base n) gdtCs intGateFlags i) i).entries v = i.entries v) ∧
    ∀ n ∈ ns, index n = v →
      (ns.foldl (fun i n => encodeInterruptGate (index n) (base n) gdtCs intGateFlags i) i).entries v =
      stubEntry (base n) := by
  induction ns generalizing i with
  | nil => exact ⟨fun _ => rfl, fun n hn => by cases hn⟩
  | cons n ns ih =>
    obtain ⟨hkeep, hset⟩ := ih (encodeInterruptGate (index n) (base n) gdtCs intGateFlags i)
    rw [entries_encodeInterruptGate] at hkeep
    refine ⟨fun hne => ?_, fun k hk hv => ?_⟩
    · rw [List.foldl_cons, hkeep fun k hk => hne k (List.mem_cons_of_mem _ hk),
        update_of_ne (hne n List.mem_cons_self).symm]
    · by_cases hmem : k ∈ ns
      · exact hset k hmem hv
      · obtain rfl : k = n := (List.mem_cons.1 hk).resolve_right hmem
        subst hv
        have hother : ∀ j ∈ ns, index j ≠ index k := fun j hj he => hmem (hinj he ▸ hj)
        rw [List.foldl_cons, hkeep hother, update_self]

theorem entries_initIDT (v : Nat) (hv : v < 256) :
    (initIDT y i).entries v = if installed v then stubEntry (y.at v) else ⟨0, 0, 0, 0, 0, 0, 0⟩ := by
  have hirq := entries_foldl (32 + ·) y.irq (fun a b h => Nat.add_left_cancel h) (List.range 16)
  have hisr := entries_foldl id y.isr (fun a b h => h) isrVectors
  simp only [initIDT]
  generalize hi₀ : ({ entries := _, lim := _, out := _ } : IdtState) = i₀
  have hzero : i₀.entries v = ⟨0, 0, 0, 0, 0, 0, 0⟩ := by
    rw [← hi₀]
    exact if_pos hv
  by_cases hline : 32 ≤ v ∧ v < 48
  · have hset := (hirq (isrConfig y i₀) v).2 (v - 32) (by simp; omega) (by omega)
    have hinst : installed v = true := by simp [installed, hline.2]
    rw [if_pos hinst, Stubs.at, if_pos hline]
    exact hset
  · have hkeep := (hirq (isrConfig y i₀) v).1 fun n hn => by
      have : n < 16 := List.mem_range.1 hn
      omega
    refine hkeep.trans ?_
    have hmem : v ∈ isrVectors ↔ installed v = true := by
      simp [isrVectors, installed]
      omega
    by_cases hinst : installed v = true
    · rw [if_pos hinst, Stubs.at, if_neg hline]
      exact (hisr i₀ v).2 v (hmem.2 hinst) rfl
    · rw [if_neg hinst]
      refine ((hisr i₀ v).1 fun n hn he => hinst (hmem.1 ?_)).trans hzero
      exact he ▸ hn

/-- Through the gate of an installed vector the CPU comes to its stub, at whatever address that is. -/
theorem gate_initIDT {v : Nat} (hinst : installed v = true) : Gate.offset ((initIDT y i).idt.gate v) = y.at v ∧
    Gate.selector ((initIDT y i).idt.gate v) = 0x08 ∧ Gate.isInterrupt ((initIDT y i).idt.gate v) = true ∧
      Gate.dpl ((initIDT y i).idt.gate v) = 0 ∧ Gate.present ((initIDT y i).idt.gate v) = true := by
  have hv : v < 256 := by
    simp [installed] at hinst
    omega
  have hbits : (initIDT y i).idt.gate v = (stubEntry (y.at v)).bits := by
    show ((initIDT y i).entries v).bits = _
    rw [entries_initIDT y i v hv, if_pos hinst]
  obtain ⟨hoff, hsel, hflags⟩ := Gate.fields (hbits.trans rfl)
  obtain ⟨hint, -, hdpl, hpres⟩ := Gate.flags hflags
  refine ⟨?_, hsel, hint.trans (show ((0x8E#8).extractLsb' 0 5 == 0xE) = true by decide),
    hdpl.trans (show (0x8E#8).extractLsb' 5 2 = 0 by decide), hpres.trans (show (0x8E#8).getLsbD 7 = true by decide)⟩
  rw [hoff]
  show (y.at v).extractLsb' 32 32 ++ ((y.at v).extractLsb' 16 16 ++ (y.at v).extractLsb' 0 16) = y.at v
  rw [BitVec.extractLsb'_append_extractLsb'_eq_extractLsb' (Nat.zero_add 16).symm,
    BitVec.extractLsb'_append_extractLsb'_eq_extractLsb' (Nat.zero_add (16 + 16)).symm]
  exact BitVec.extractLsb'_eq_self

theorem gate_none {v : Nat} (hinst : installed v = false) (hv : v < 256) :
    Gate.isInterrupt ((initIDT y i).idt.gate v) = false ∧ Gate.isTrap ((initIDT y i).idt.gate v) = false := by
  have hbits : (initIDT y i).idt.gate v = 0 := by
    show ((initIDT y i).entries v).bits = _
    rw [entries_initIDT y i v hv, hinst, if_neg (by decide)]
    decide
  rw [hbits]
  decide

end Idt

/-! ## All tables -/

/-- Where things are, and what was in the tables before. -/
structure Image where
  stubs : Stubs
  syscallEntry : Word
  tss : Word
  gdt : GdtState
  idt : IdtState
  msr : Msrs
  /-- Memory behind the TSS, as bits. -/
  ioBits : Nat → Bool

/-- The frame of `enter_usermode`. -/
def enterUsermode (rip : Word) : Ret := .iret rip 0x23 0x202 0x1B

def tables (y : Image) : Tables where
  gdt := (initGDT y.tss y.gdt).gdt
  idt := (initIDT y.stubs y.idt).idt
  tssLimit := Descriptor.limit ((initGDT y.tss y.gdt).word 5)
  iopb := (initGDT y.tss y.gdt).iopb.toNat
  ioBits := y.ioBits
  msr := initSyscall y.syscallEntry y.msr
  first := enterUsermode

def segments : Segments := ⟨0x23, 0x1B, 0x08, 0x10⟩

section Tables

variable (y : Image)

/-- Every event goes to the stub of its vector, in the kernel and with interrupts masked; `int n` of user code fails, as does
what has no gate. -/
theorem enter_tables (cpl : Level) (soft : Bool) (v : Nat) : (tables y).idt.enter (tables y).gdt cpl soft v =
    if installed v = true ∧ ¬ (soft = true ∧ cpl ≠ 0) then .ok ⟨y.stubs.at v, 0x08, 0, true⟩ else .error 13 := by
  have hlimit : (tables y).idt.limit = 4095 := rfl
  by_cases hinst : installed v = true
  · obtain ⟨hoff, hsel, hint, hdpl, hpres⟩ := gate_initIDT y.stubs y.idt hinst
    have hv : v < 256 := by
      simp [installed] at hinst
      omega
    have hd : (tables y).gdt.entry? (Gate.selector ((tables y).idt.gate v)) = some ((initGDT y.tss y.gdt).word 1) := by
      rw [show Gate.selector ((tables y).idt.gate v) = 0x08 from hsel]
      rfl
    rw [enter_code (i := (tables y).idt) soft (by omega) hint hdpl hpres hd (kinds_initGDT y.tss y.gdt).1,
      show Gate.offset ((tables y).idt.gate v) = _ from hoff, show Gate.selector ((tables y).idt.gate v) = _ from hsel]
    by_cases hs : soft = true ∧ cpl ≠ 0
    · rw [if_pos hs, if_neg fun h => h.2 hs]
    · rw [if_neg hs, if_pos ⟨hinst, hs⟩]
      rfl
  · rw [if_neg fun h => hinst h.1]
    refine enter_none soft ?_
    by_cases hv : v < 256
    · exact .inr (gate_none y.stubs y.idt (Bool.eq_false_iff.2 hinst) hv)
    · exact .inl (by omega)

theorem confining_tables : Confining (tables y) segments := by
  obtain ⟨hefer, hstar, -, -⟩ := initSyscall_spec y.syscallEntry y.msr
  have hefer : (tables y).msr.efer.getLsbD 0 = true := hefer
  have hstar : (tables y).msr.star = 0x0010000800000000 := hstar
  obtain ⟨hnull, hdata, huser, hkernel⟩ := returnSegment_initGDT y.tss y.gdt
  obtain ⟨hlim, hiopb⟩ := tssLimit_initGDT y.tss y.gdt
  refine
    { gates := fun cpl soft v e he => ?_
      faults := fun cpl soft v w hw => ?_
      protection := fun cpl => ⟨_, (enter_tables y cpl false 13).trans (if_pos (by simp [installed]))⟩
      far := farTransfer_initGDT y.tss y.gdt
      userStack := stackSegment_initGDT y.tss y.gdt
      kernelStack := ⟨hnull, hdata⟩
      levels := by decide
      returns := ⟨huser, hkernel⟩
      ports := ?_
      enabled := hefer
      syscall := by rw [hstar]; decide
      sysret := by rw [hstar]; decide
      first := fun rip => ⟨0x202, rfl, by decide, by decide⟩ }
  · rw [enter_tables] at he
    split at he
    · rename_i hin
      cases he
      refine ⟨rfl, rfl, rfl, fun hsoft => ?_⟩
      by_contra hne
      exact hin.2 ⟨hsoft, hne⟩
    · cases he
  · rw [enter_tables] at hw
    split at hw <;> cases hw
    rfl
  · show Descriptor.limit ((initGDT y.tss y.gdt).word 5) ≤ (initGDT y.tss y.gdt).iopb.toNat
    rw [hlim, hiopb]
    decide

end Tables

end ToastOS.Cpu
