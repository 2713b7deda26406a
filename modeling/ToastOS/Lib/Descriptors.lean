import Mathlib.Data.BitVec
import ToastOS.Lib.X86

/-!
# Segments, gates and privilege levels

What an x86-64 CPU in long mode reads in its descriptor tables, and the checks it makes there.

* `Gdt.entry?` : the descriptor of a selector; there is no local table;
* `farTransfer` : a jump, call or return with a new code segment;
* `Idt.enter` : an interrupt, an exception or `int n`, up to the code segment of the handler;
* `ioAllowed` : the bitmap of the TSS.
-/

namespace ToastOS.Lib.X86

abbrev Selector := BitVec 16

abbrev Level := BitVec 2

namespace Selector

def rpl (s : Selector) : Level := s.extractLsb' 0 2

/-- Whether it selects from the local table. -/
def isLocal (s : Selector) : Bool := s.getLsbD 2

def index (s : Selector) : Nat := (s.extractLsb' 3 13).toNat

def withRpl (s : Selector) (l : Level) : Selector := s.extractLsb' 2 14 ++ l

end Selector

/-! ## Segment descriptors -/

namespace Descriptor

variable (d : Word)

def isCode : Bool := d.getLsbD 44 && d.getLsbD 43
def conforming : Bool := d.getLsbD 42
def isWritableData : Bool := d.getLsbD 44 && !d.getLsbD 43 && d.getLsbD 41
def isCallGate : Bool := !d.getLsbD 44 && d.extractLsb' 40 4 == 0xC
def dpl : Level := d.extractLsb' 45 2
def present : Bool := d.getLsbD 47
def isLong : Bool := d.getLsbD 53 && !d.getLsbD 54
/-- In bytes, without the granularity bit. -/
def limit : Nat := (d.extractLsb' 48 4 ++ d.extractLsb' 0 16).toNat

end Descriptor

/-- The table in memory, as entries of eight bytes. -/
structure Gdt where
  limit : Nat
  entry : Nat → Word

/-- The null selector has no descriptor. -/
def Gdt.entry? (g : Gdt) (s : Selector) : Option Word :=
  if s.isLocal = false ∧ s.index ≠ 0 ∧ 8 * s.index + 7 ≤ g.limit then some (g.entry s.index) else none

/-- Where a far transfer goes on. -/
inductive Far
  | code (cs : Selector)
  | gate (d : Word)
  | fault
  deriving DecidableEq

/-- The checks of a far jump or call; a far return and `iretq` at the lowest level make more of them. -/
def farTransfer (g : Gdt) (cpl : Level) (s : Selector) : Far :=
  match g.entry? s with
  | none => .fault
  | some d =>
    if Descriptor.isCallGate d then .gate d
    else if Descriptor.isCode d && Descriptor.present d &&
        (if Descriptor.conforming d then Descriptor.dpl d ≤ cpl else s.rpl ≤ cpl && Descriptor.dpl d == cpl) then
      .code (s.withRpl cpl)
    else .fault

/-- A selector that may be loaded into the stack segment at the level `cpl`. -/
def stackSegmentOk (g : Gdt) (cpl : Level) (s : Selector) : Bool :=
  match g.entry? s with
  | none => s.isLocal == false && s.index == 0 && s.rpl == cpl && cpl != 3
  | some d => s.rpl == cpl && Descriptor.isWritableData d && Descriptor.dpl d == cpl && Descriptor.present d

/-- A code segment that `iretq` may return to. -/
def returnSegmentOk (g : Gdt) (cpl : Level) (s : Selector) : Bool :=
  match g.entry? s with
  | none => false
  | some d => cpl ≤ s.rpl && Descriptor.isCode d && Descriptor.present d && Descriptor.isLong d &&
      (if Descriptor.conforming d then Descriptor.dpl d ≤ s.rpl else Descriptor.dpl d == s.rpl)

/-! ## Gates -/

namespace Gate

variable (b : BitVec 128)

def offset : Word := b.extractLsb' 64 32 ++ (b.extractLsb' 48 16 ++ b.extractLsb' 0 16)
def selector : Selector := b.extractLsb' 16 16
/-- An interrupt gate, which masks interrupts. -/
def isInterrupt : Bool := b.extractLsb' 40 5 == 0xE
def isTrap : Bool := b.extractLsb' 40 5 == 0xF
def dpl : Level := b.extractLsb' 45 2
def present : Bool := b.getLsbD 47

end Gate

structure Idt where
  limit : Nat
  gate : Nat → BitVec 128

structure Entry where
  rip : Word
  cs : Selector
  cpl : Level
  masks : Bool
  deriving DecidableEq

/-- An event with the vector `v`; `soft` for `int n`. On a fault, the vector of that. -/
def Idt.enter (i : Idt) (g : Gdt) (cpl : Level) (soft : Bool) (v : Nat) : Except Nat Entry :=
  let b := i.gate v
  if i.limit < 16 * v + 15 then .error 13
  else if !(Gate.isInterrupt b || Gate.isTrap b) then .error 13
  else if soft && decide (Gate.dpl b < cpl) then .error 13
  else if !Gate.present b then .error 11
  else match g.entry? (Gate.selector b) with
    | none => .error 13
    | some d =>
      if !(Descriptor.isCode d && Descriptor.isLong d && decide (Descriptor.dpl d ≤ cpl)) then .error 13
      else if !Descriptor.present d then .error 11
      else
        let level := if Descriptor.conforming d then cpl else Descriptor.dpl d
        .ok ⟨Gate.offset b, (Gate.selector b).withRpl level, level, Gate.isInterrupt b⟩

/-! ## Ports -/

/-- Access to `width` ports from `port` on, at a level where it needs the bitmap; `bits` are those of the TSS. -/
def ioAllowed (tssLimit iopb : Nat) (bits : Nat → Bool) (port width : Nat) : Bool :=
  decide (iopb + port / 8 + 1 ≤ tssLimit) && (List.range width).all fun n => !bits (8 * iopb + port + n)

theorem ioAllowed_of_limit {tssLimit iopb : Nat} (h : tssLimit ≤ iopb) (bits : Nat → Bool) (port width : Nat) :
    ioAllowed tssLimit iopb bits port width = false := by
  rw [ioAllowed, decide_eq_false (by omega), Bool.false_and]

/-! ## Fields -/

namespace Selector

theorem eq_append (s : Selector) : s = s.extractLsb' 2 14 ++ s.rpl := by
  rw [rpl, BitVec.extractLsb'_append_extractLsb'_eq_extractLsb' (show 2 = 0 + 2 from rfl)]
  exact (BitVec.extractLsb'_eq_self).symm

theorem table_index {s : Selector} (h : s.isLocal = false) : s.extractLsb' 2 14 = BitVec.ofNat 14 (2 * s.index) := by
  have hbit : s.toNat / 4 % 2 = 0 := by
    rw [isLocal, BitVec.getLsbD, Nat.testBit_eq_decide_div_mod_eq] at h
    simpa using h
  apply BitVec.eq_of_toNat_eq
  simp only [index, BitVec.extractLsb'_toNat, BitVec.toNat_ofNat, Nat.shiftRight_eq_div_pow]
  have := s.isLt
  omega

theorem eq_of_index {s : Selector} {n : Nat} (h : s.isLocal = false) (hn : s.index = n) :
    s = BitVec.ofNat 14 (2 * n) ++ s.rpl := by
  rw [← hn, ← table_index h]
  exact eq_append s

end Selector

theorem setWidth_shift_mask {w : Nat} (x : BitVec w) (n k : Nat) (mask : BitVec w) (h : mask = BitVec.ofNat w (2 ^ k - 1)) :
    (x >>> n &&& mask).setWidth k = x.extractLsb' n k := by
  subst h
  apply BitVec.eq_of_getLsbD_eq
  intro i hi
  rcases Nat.lt_or_ge (n + i) w with hw | hw
  · have hiw : i < w := Nat.lt_of_le_of_lt (Nat.le_add_left i n) hw
    have hmask : (BitVec.ofNat w (2 ^ k - 1)).getLsbD i = true := by
      rw [BitVec.getLsbD_ofNat, Nat.testBit_two_pow_sub_one]
      simp [hi, hiw]
    rw [BitVec.getLsbD_setWidth, BitVec.getLsbD_and, hmask, BitVec.getLsbD_extractLsb', BitVec.getLsbD_ushiftRight]
    simp [hi]
  · simp [hi, BitVec.getLsbD_of_ge x _ hw]

theorem extractLsb'_extractLsb' {w : Nat} (x : BitVec w) {n k i j : Nat} (h : i + j ≤ k) :
    (x.extractLsb' n k).extractLsb' i j = x.extractLsb' (n + i) j := by
  apply BitVec.eq_of_getLsbD_eq
  intro c hc
  rw [BitVec.getLsbD_extractLsb', BitVec.getLsbD_extractLsb', BitVec.getLsbD_extractLsb', Nat.add_assoc]
  simp [show i + c < k by omega]

theorem Descriptor.fields {d : Word} {h g a m : BitVec 8} {l n : BitVec 16} (hd : d = h ++ (g ++ (a ++ (m ++ (l ++ n))))) :
    d.extractLsb' 56 8 = h ∧ d.extractLsb' 48 8 = g ∧ d.extractLsb' 40 8 = a ∧ d.extractLsb' 32 8 = m ∧
      d.extractLsb' 16 16 = l ∧ d.extractLsb' 0 16 = n := by
  subst hd
  refine ⟨?_, ?_, ?_, ?_, ?_, ?_⟩
  all_goals
    repeat rw [BitVec.extractLsb'_append_eq_of_add_le (by decide)]
    try rw [BitVec.extractLsb'_append_eq_of_le (by decide)]
    exact BitVec.extractLsb'_eq_self

theorem Descriptor.access_bit {d : Word} {a : BitVec 8} (ha : d.extractLsb' 40 8 = a) {i : Nat} (hi : i < 8) :
    d.getLsbD (40 + i) = a.getLsbD i := by
  rw [← ha, BitVec.getLsbD_extractLsb', decide_eq_true hi, Bool.true_and]

theorem Gate.fields {b : BitVec 128} {r h : BitVec 32} {m : BitVec 16} {f i : BitVec 8} {s l : BitVec 16}
    (hb : b = r ++ (h ++ (m ++ (f ++ (i ++ (s ++ l)))))) :
    Gate.offset b = h ++ (m ++ l) ∧ Gate.selector b = s ∧ b.extractLsb' 40 8 = f := by
  have hparts : b.extractLsb' 64 32 = h ∧ b.extractLsb' 48 16 = m ∧ b.extractLsb' 0 16 = l ∧ b.extractLsb' 16 16 = s ∧
      b.extractLsb' 40 8 = f := by
    subst hb
    refine ⟨?_, ?_, ?_, ?_, ?_⟩
    all_goals
      repeat rw [BitVec.extractLsb'_append_eq_of_add_le (by decide)]
      try rw [BitVec.extractLsb'_append_eq_of_le (by decide)]
      exact BitVec.extractLsb'_eq_self
  obtain ⟨hh, hm, hl, hs, hf⟩ := hparts
  exact ⟨congrArg₂ (· ++ ·) hh (congrArg₂ (· ++ ·) hm hl), hs, hf⟩

/-- The kind, the level and the presence of a gate are in its flags. -/
theorem Gate.flags {b : BitVec 128} {f : BitVec 8} (hf : b.extractLsb' 40 8 = f) :
    Gate.isInterrupt b = (f.extractLsb' 0 5 == 0xE) ∧ Gate.isTrap b = (f.extractLsb' 0 5 == 0xF) ∧
      Gate.dpl b = f.extractLsb' 5 2 ∧ Gate.present b = f.getLsbD 7 := by
  subst hf
  rw [extractLsb'_extractLsb' b (by decide), extractLsb'_extractLsb' b (by decide)]
  refine ⟨rfl, rfl, rfl, ?_⟩
  rw [Gate.present, BitVec.getLsbD_extractLsb']
  rfl

/-! ## Kinds of segments -/

/-- 64-bit code of the level `l`. -/
structure CodeSegment (d : Word) (l : Level) : Prop where
  gate : Descriptor.isCallGate d = false
  code : Descriptor.isCode d = true
  present : Descriptor.present d = true
  conforming : Descriptor.conforming d = false
  long : Descriptor.isLong d = true
  dpl : Descriptor.dpl d = l
  data : Descriptor.isWritableData d = false

/-- Data of the level `l`. -/
structure DataSegment (d : Word) (l : Level) : Prop where
  gate : Descriptor.isCallGate d = false
  code : Descriptor.isCode d = false
  present : Descriptor.present d = true
  dpl : Descriptor.dpl d = l
  data : Descriptor.isWritableData d = true

/-- A system segment that is no call gate. -/
structure SystemSegment (d : Word) : Prop where
  gate : Descriptor.isCallGate d = false
  code : Descriptor.isCode d = false
  data : Descriptor.isWritableData d = false

theorem systemSegment_of_access {d : Word} {a : BitVec 8} (ha : d.extractLsb' 40 8 = a) (hs : a.getLsbD 4 = false)
    (ht : a.extractLsb' 0 4 ≠ 0xC) : SystemSegment d := by
  have hseg : d.getLsbD 44 = false := (Descriptor.access_bit ha (i := 4) (by decide)).trans hs
  have htype : d.extractLsb' 40 4 ≠ 0xC := by
    rw [← ha, extractLsb'_extractLsb' d (by decide)] at ht
    exact ht
  refine ⟨?_, ?_, ?_⟩
  · rw [Descriptor.isCallGate, beq_false_of_ne htype, Bool.and_false]
  · rw [Descriptor.isCode, hseg, Bool.false_and]
  · rw [Descriptor.isWritableData, hseg, Bool.false_and, Bool.false_and]

section Segments

variable {g : Gdt} {s : Selector} {d : Word} {l cpl : Level}

theorem farTransfer_code (hd : g.entry? s = some d) (h : CodeSegment d l) :
    farTransfer g cpl s = if s.rpl ≤ cpl ∧ l = cpl then .code (s.withRpl cpl) else .fault := by
  simp [farTransfer, hd, h.gate, h.code, h.present, h.conforming, h.dpl]

theorem farTransfer_fault (hd : g.entry? s = some d) (hgate : Descriptor.isCallGate d = false)
    (hcode : Descriptor.isCode d = false) :
    farTransfer g cpl s = .fault := by
  simp [farTransfer, hd, hgate, hcode]

theorem stackSegmentOk_data (hd : g.entry? s = some d) (h : DataSegment d l) :
    stackSegmentOk g cpl s = (s.rpl == cpl && l == cpl) := by
  simp [stackSegmentOk, hd, h.data, h.dpl, h.present]

theorem stackSegmentOk_other (hd : g.entry? s = some d) (h : Descriptor.isWritableData d = false) :
    stackSegmentOk g cpl s = false := by
  simp [stackSegmentOk, hd, h]

theorem returnSegmentOk_code (hd : g.entry? s = some d) (h : CodeSegment d l) :
    returnSegmentOk g cpl s = (decide (cpl ≤ s.rpl) && l == s.rpl) := by
  simp [returnSegmentOk, hd, h.code, h.present, h.long, h.conforming, h.dpl]

theorem enter_code {i : Idt} {v : Nat} (soft : Bool) (hlim : 16 * v + 15 ≤ i.limit)
    (hint : Gate.isInterrupt (i.gate v) = true)
    (hdpl : Gate.dpl (i.gate v) = 0) (hpres : Gate.present (i.gate v) = true)
    (hd : g.entry? (Gate.selector (i.gate v)) = some d) (h : CodeSegment d 0) :
    i.enter g cpl soft v = if soft = true ∧ cpl ≠ 0 then .error 13
      else .ok ⟨Gate.offset (i.gate v), (Gate.selector (i.gate v)).withRpl 0, 0, true⟩ := by
  simp only [Idt.enter, Nat.not_lt.2 hlim, hint, hdpl, hpres, hd, h.code, h.long, h.dpl, h.present, h.conforming]
  by_cases hs : soft = true ∧ cpl ≠ 0
  · rw [if_pos hs]
    simpa [hs.1] using hs.2
  · rw [if_neg hs]
    by_cases hsoft : soft = true
    · have h0 : cpl = 0 := by
        by_contra hne
        exact hs ⟨hsoft, hne⟩
      simp [h0]
    · simp [hsoft]

theorem enter_none {i : Idt} {v : Nat} (soft : Bool)
    (h : i.limit < 16 * v + 15 ∨ Gate.isInterrupt (i.gate v) = false ∧ Gate.isTrap (i.gate v) = false) :
    i.enter g cpl soft v = .error 13 := by
  rw [Idt.enter]
  rcases h with h | ⟨h1, h2⟩
  · exact if_pos h
  · simp [h1, h2]

end Segments

end ToastOS.Lib.X86
