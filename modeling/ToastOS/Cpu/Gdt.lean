import ToastOS.Lib.Privilege
import ToastOS.Cpu.Syscall

/-!
# `gdt.c` and `init_syscall`

The descriptors that `initGDT` writes, as the CPU reads them, and the registers behind `syscall` and `sysretq`.

* `entry?_initGDT` : the selectors that have a descriptor, and what is in it;
* `farTransfer_initGDT`, `stackSegment_initGDT` : what user code can do with them.
-/

namespace ToastOS.Cpu

open ToastOS.Lib.X86

/-! ## The table -/

structure GdtEntry where
  lim : BitVec 16
  baseLow : BitVec 16
  baseMid : BitVec 8
  access : BitVec 8
  granularity : BitVec 8
  baseHigh : BitVec 8

/-- In memory, the first field lowest. -/
def GdtEntry.bits (e : GdtEntry) : Word :=
  e.baseHigh ++ (e.granularity ++ (e.access ++ (e.baseMid ++ (e.baseLow ++ e.lim))))

structure TssEntry where
  limitLow : BitVec 16
  baseLow : BitVec 16
  baseMid : BitVec 8
  access : BitVec 8
  granularity : BitVec 8
  baseHigh : BitVec 8
  baseUpper : BitVec 32
  reserved : BitVec 32

def TssEntry.lower (e : TssEntry) : Word :=
  e.baseHigh ++ (e.granularity ++ (e.access ++ (e.baseMid ++ (e.baseLow ++ e.limitLow))))

def TssEntry.upper (e : TssEntry) : Word := e.reserved ++ e.baseUpper

/-- `gdt_table`, `gdtr.lim` and `tss.iopb`. -/
structure GdtState where
  entries : Nat → GdtEntry
  tss : TssEntry
  lim : BitVec 16
  iopb : BitVec 16

/-- `sizeof(gdt_table)`: five entries and that of the TSS. -/
def sizeofGdtTable : Nat := 5 * 8 + 16

/-- `sizeof(TSS_descriptor)`. -/
def sizeofTssDescriptor : Nat := 4 + 3 * 8 + 8 + 7 * 8 + 8 + 2 + 2

def gdtPresent : BitVec 8 := 1 <<< 7
def gdtDplRing0 : BitVec 8 := 0 <<< 5
def gdtDplRing3 : BitVec 8 := 3 <<< 5
def gdtDescriptor : BitVec 8 := 1 <<< 4
def gdtExecutable : BitVec 8 := 1 <<< 3
def gdtReadable : BitVec 8 := 1 <<< 1
def gdtWriteable : BitVec 8 := 1 <<< 1
def gdtLongMode : BitVec 8 := 1 <<< 5

def encodeGdtSeg (index : Nat) (access gran : BitVec 8) (g : GdtState) : GdtState :=
  { g with entries := Function.update g.entries index ⟨0, 0, 0, access, gran, 0⟩ }

def encodeTssSeg (base : Word) (g : GdtState) : GdtState :=
  let lim : BitVec 32 := BitVec.ofNat 32 (sizeofTssDescriptor - 1)
  { g with
    tss :=
      { limitLow := (lim &&& 0xFFFF).setWidth 16
        baseLow := (base &&& 0xFFFF).setWidth 16
        baseMid := (base >>> 16 &&& 0xFF).setWidth 8
        access := 0x89
        granularity := (lim >>> 16 &&& 0x0F).setWidth 8
        baseHigh := (base >>> 24 &&& 0xFF).setWidth 8
        baseUpper := (base >>> 32 &&& 0xFFFFFFFF).setWidth 32
        reserved := 0 } }

/-- `initGDT`, where the TSS is at the address `tss`. -/
def initGDT (tss : Word) (g : GdtState) : GdtState :=
  let g := encodeGdtSeg 0 0 0 g
  let g := encodeGdtSeg 1 (gdtPresent ||| gdtDplRing0 ||| gdtDescriptor ||| gdtExecutable ||| gdtReadable) gdtLongMode g
  let g := encodeGdtSeg 2 (gdtPresent ||| gdtDplRing0 ||| gdtDescriptor ||| gdtWriteable) 0 g
  let g := encodeGdtSeg 3 (gdtPresent ||| gdtDplRing3 ||| gdtDescriptor ||| gdtWriteable) 0 g
  let g := encodeGdtSeg 4 (gdtPresent ||| gdtDplRing3 ||| gdtDescriptor ||| gdtExecutable ||| gdtReadable) gdtLongMode g
  let g := { g with iopb := BitVec.ofNat 16 sizeofTssDescriptor }
  { encodeTssSeg tss g with lim := BitVec.ofNat 16 (sizeofGdtTable - 1) }

/-- The words of the table in memory, up to its end. -/
def GdtState.word (g : GdtState) (i : Nat) : Word :=
  if i < 5 then (g.entries i).bits else if i = 5 then g.tss.lower else if i = 6 then g.tss.upper else 0

/-- What `lgdt` loads. -/
def GdtState.gdt (g : GdtState) : Gdt := ⟨g.lim.toNat, g.word⟩

section Gdt

variable (tss : Word) (g : GdtState)

theorem lower_initGDT : (initGDT tss g).tss.lower =
    tss.extractLsb' 24 8 ++ (0#8 ++ (0x89#8 ++ (tss.extractLsb' 16 8 ++ (tss.extractLsb' 0 16 ++ 103#16)))) := by
  have hlow := setWidth_shift_mask tss 0 16 0xFFFF rfl
  have hmid := setWidth_shift_mask tss 16 8 0xFF rfl
  have hhigh := setWidth_shift_mask tss 24 8 0xFF rfl
  rw [BitVec.ushiftRight_zero] at hlow
  simp only [initGDT, encodeTssSeg, TssEntry.lower, hlow, hmid, hhigh]
  rfl

theorem upper_initGDT : (initGDT tss g).tss.upper = 0#32 ++ tss.extractLsb' 32 32 := by
  have hupper := setWidth_shift_mask tss 32 32 0xFFFFFFFF rfl
  simp only [initGDT, encodeTssSeg, TssEntry.upper, hupper]
  rfl

/-- The descriptors of the segments: kernel code and data, user data and code. -/
theorem word_initGDT : (initGDT tss g).word 1 = 0x00209A0000000000 ∧ (initGDT tss g).word 2 = 0x0000920000000000 ∧
    (initGDT tss g).word 3 = 0x0000F20000000000 ∧ (initGDT tss g).word 4 = 0x0020FA0000000000 := by
  refine ⟨?_, ?_, ?_, ?_⟩
  all_goals
    show GdtEntry.bits ⟨0, 0, 0, _, _, 0⟩ = _
    decide

theorem tssLimit_initGDT : Descriptor.limit ((initGDT tss g).word 5) = 103 ∧ (initGDT tss g).iopb = 104 := by
  obtain ⟨-, hgran, -, -, -, hlim⟩ := Descriptor.fields (show (initGDT tss g).word 5 = _ from lower_initGDT tss g)
  have hgran4 : ((initGDT tss g).word 5).extractLsb' 48 4 = 0 := by
    rw [← extractLsb'_extractLsb' ((initGDT tss g).word 5) (n := 48) (k := 8) (i := 0) (j := 4) (by decide), hgran]
    rfl
  refine ⟨?_, rfl⟩
  rw [Descriptor.limit, hgran4, hlim]
  rfl

/-- The segments by index: kernel code and data, user data and code, and the two halves of the TSS. -/
theorem kinds_initGDT : CodeSegment ((initGDT tss g).word 1) 0 ∧ DataSegment ((initGDT tss g).word 2) 0 ∧
    DataSegment ((initGDT tss g).word 3) 3 ∧ CodeSegment ((initGDT tss g).word 4) 3 ∧
      SystemSegment ((initGDT tss g).word 5) ∧ SystemSegment ((initGDT tss g).word 6) := by
  obtain ⟨h1, h2, h3, h4⟩ := word_initGDT tss g
  have h5 : (initGDT tss g).word 5 = _ := lower_initGDT tss g
  have h6 : (initGDT tss g).word 6 = _ := upper_initGDT tss g
  rw [h1, h2, h3, h4]
  refine ⟨?_, ?_, ?_, ?_, systemSegment_of_access (Descriptor.fields h5).2.2.1 (by decide) (by decide),
    systemSegment_of_access (a := 0) ?_ (by decide) (by decide)⟩
  · exact ⟨by decide, by decide, by decide, by decide, by decide, by decide, by decide⟩
  · exact ⟨by decide, by decide, by decide, by decide, by decide⟩
  · exact ⟨by decide, by decide, by decide, by decide, by decide⟩
  · exact ⟨by decide, by decide, by decide, by decide, by decide, by decide, by decide⟩
  · rw [h6, BitVec.extractLsb'_append_eq_of_le (by decide)]
    rfl

/-- The selectors that have a descriptor: what it is like, and which of them are for user code. -/
theorem entry?_initGDT {s : Selector} {d : Word} (h : (initGDT tss g).gdt.entry? s = some d) : s.isLocal = false ∧
    ((s.index = 1 ∧ CodeSegment d 0 ∨ DataSegment d 0 ∨ SystemSegment d) ∨
      (s.index = 3 ∧ DataSegment d 3 ∨ s.index = 4 ∧ CodeSegment d 3)) := by
  obtain ⟨h1, h2, h3, h4, h5, h6⟩ := kinds_initGDT tss g
  rw [Gdt.entry?] at h
  split at h <;> cases h
  rename_i hs
  obtain ⟨hl, hnull, hlim⟩ := hs
  have hlim : 8 * s.index + 7 ≤ 55 := hlim
  refine ⟨hl, ?_⟩
  show (s.index = 1 ∧ CodeSegment ((initGDT tss g).word s.index) 0 ∨ _) ∨ _
  have hi : s.index = 1 ∨ s.index = 2 ∨ s.index = 3 ∨ s.index = 4 ∨ s.index = 5 ∨ s.index = 6 := by omega
  rcases hi with hi | hi | hi | hi | hi | hi <;> rw [hi]
  · exact .inl (.inl ⟨rfl, h1⟩)
  · exact .inl (.inr (.inl h2))
  · exact .inr (.inl ⟨rfl, h3⟩)
  · exact .inr (.inr ⟨rfl, h4⟩)
  · exact .inl (.inr (.inr h5))
  · exact .inl (.inr (.inr h6))

/-- A far transfer of user code stays in the user's code segment or fails, whatever the selector. -/
theorem farTransfer_initGDT (s : Selector) : farTransfer (initGDT tss g).gdt 3 s = .fault ∨
    farTransfer (initGDT tss g).gdt 3 s = .code 0x23 := by
  cases hd : (initGDT tss g).gdt.entry? s with
  | none => exact .inl (by rw [farTransfer, hd])
  | some d =>
    rcases entry?_initGDT tss g hd with ⟨hl, (⟨-, h⟩ | h | h) | ⟨hi, h⟩ | ⟨hi, h⟩⟩
    · rw [farTransfer_code hd h]
      exact .inl (if_neg fun h => absurd h.2 (by decide))
    · exact .inl (farTransfer_fault hd h.gate h.code)
    · exact .inl (farTransfer_fault hd h.gate h.code)
    · exact .inl (farTransfer_fault hd h.gate h.code)
    · rw [farTransfer_code hd h]
      have hcs : s.withRpl 3 = 0x23 := by
        rw [Selector.withRpl, Selector.table_index hl, hi]
        rfl
      split
      · exact .inr (by rw [hcs])
      · exact .inl rfl

/-- User code can load no other stack segment than its own. -/
theorem stackSegment_initGDT (s : Selector) : stackSegmentOk (initGDT tss g).gdt 3 s = true ↔ s = 0x1B := by
  constructor
  · intro h
    cases hd : (initGDT tss g).gdt.entry? s with
    | none => simp [stackSegmentOk, hd] at h
    | some d =>
      rcases entry?_initGDT tss g hd with ⟨hl, (⟨-, hk⟩ | hk | hk) | ⟨hi, hk⟩ | ⟨hi, hk⟩⟩
      · simp [stackSegmentOk_other hd hk.data] at h
      · simp [stackSegmentOk_data hd hk] at h
      · simp [stackSegmentOk_other hd hk.data] at h
      · rw [stackSegmentOk_data hd hk] at h
        have hrpl : s.rpl = 3 := by simpa using h
        rw [Selector.eq_of_index hl hi, hrpl]
        rfl
      · simp [stackSegmentOk_other hd hk.data] at h
  · rintro rfl
    rw [stackSegmentOk_data (s := 0x1B) (d := (initGDT tss g).word 3) rfl (kinds_initGDT tss g).2.2.1]
    rfl

/-- The kernel's stack segments, and the code segments that `iretq` returns to. -/
theorem returnSegment_initGDT : stackSegmentOk (initGDT tss g).gdt 0 0 = true ∧
    stackSegmentOk (initGDT tss g).gdt 0 0x10 = true ∧
    returnSegmentOk (initGDT tss g).gdt 0 0x23 = true ∧ returnSegmentOk (initGDT tss g).gdt 0 0x08 = true := by
  obtain ⟨h1, h2, -, h4, -, -⟩ := kinds_initGDT tss g
  refine ⟨rfl, ?_, ?_, ?_⟩
  · rw [stackSegmentOk_data (s := 0x10) (d := (initGDT tss g).word 2) rfl h2]
    rfl
  · rw [returnSegmentOk_code (s := 0x23) (d := (initGDT tss g).word 4) rfl h4]
    rfl
  · rw [returnSegmentOk_code (s := 0x08) (d := (initGDT tss g).word 1) rfl h1]
    rfl

end Gdt

/-! ## The registers of `syscall` -/

/-- `wrmsr`: `edx:eax` to the register with the number `ecx`. -/
def wrmsr (m : Msrs) (ecx edx eax : BitVec 32) : Msrs :=
  if ecx = 0xc0000080 then { m with efer := edx ++ eax }
  else if ecx = 0xc0000081 then { m with star := edx ++ eax }
  else if ecx = 0xc0000082 then { m with lstar := edx ++ eax }
  else if ecx = 0xc0000084 then { m with sfmask := edx ++ eax }
  else m

/-- `init_syscall`, where `syscall_entry` is at the address `entry`. -/
def initSyscall (entry : Word) (m : Msrs) : Msrs :=
  let m := wrmsr m 0xc0000080 (m.efer.extractLsb' 32 32) (m.efer.extractLsb' 0 32 ||| 1)
  let m := wrmsr m 0xc0000081 0x00100008 0
  let m := wrmsr m 0xc0000082 ((entry >>> 32).extractLsb' 0 32) (entry.extractLsb' 0 32)
  wrmsr m 0xc0000084 0 0x700

theorem initSyscall_spec (entry : Word) (m : Msrs) : (initSyscall entry m).efer.getLsbD 0 = true ∧
    (initSyscall entry m).star = 0x0010000800000000 ∧ (initSyscall entry m).lstar = entry ∧
    (initSyscall entry m).sfmask = 0x700 := by
  refine ⟨?_, by rfl, ?_, by rfl⟩
  · show (m.efer.extractLsb' 32 32 ++ (m.efer.extractLsb' 0 32 ||| 1)).getLsbD 0 = true
    rw [BitVec.getLsbD_append]
    simp
  · show (entry >>> 32).extractLsb' 0 32 ++ entry.extractLsb' 0 32 = entry
    have hhigh : (entry >>> 32).extractLsb' 0 32 = entry.extractLsb' 32 32 := by
      ext i hi
      simp
    rw [hhigh, BitVec.extractLsb'_append_extractLsb'_eq_extractLsb' (Nat.zero_add 32).symm]
    exact BitVec.extractLsb'_eq_self

end ToastOS.Cpu
