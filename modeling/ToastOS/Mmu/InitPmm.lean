import ToastOS.Mmu.Pmm

/-!
# `init_pmm`

The memory map is read once for the end of the kernel and the top of memory, the bitmap is put at the start of the first
usable entry that can hold it, and the whole frames of the usable entries are freed. `bitmap_bytes` is `max_frames / 8`
rounded down, so the frames behind the last whole byte have no bit. `init_pmm_exact_iff` says for which maps the bitmap is
exact all the same.
-/

namespace ToastOS.Mmu

/-- The types of `limine_memmap_entry`. -/
inductive MemmapType
  | usable | reserved | acpiReclaimable | acpiNvs | badMemory | bootloaderReclaimable | kernelAndModules | framebuffer
  deriving DecidableEq

/-- `limine_memmap_entry`. -/
structure MemmapEntry where
  base : Nat
  length : Nat
  type : MemmapType
  deriving DecidableEq

/-- The responses to the requests of `pmm.c`: the HHDM offset, the kernel's physical and virtual base, the memory map. -/
structure LimineResponses where
  hhdm : Option Nat
  kaddr : Option (Nat × Nat)
  memmap : Option (List MemmapEntry)

/-- How `init_pmm` ends early: the four panics, and the store through a `b_map` that is still NULL. -/
inductive InitPmmHalt
  | hhdmBadResponse | kaddrBadResponse | memmapBadResponse | badKernelEnd | nullBitmap
  deriving DecidableEq

/-- The text of the `KPANIC`. -/
def InitPmmHalt.text : InitPmmHalt → Option String
  | .hhdmBadResponse => some "HHDM BAD RESPONSE"
  | .kaddrBadResponse => some "KADDR BAD RESPONSE"
  | .memmapBadResponse => some "MEMMAP BAD RESPONSE"
  | .badKernelEnd => some "BAD KERNEL END"
  | .nullBitmap => none

/-- `ent->base + ent->length`. -/
def MemmapEntry.top (ent : MemmapEntry) : Nat := u64 (ent.base + ent.length)

/-- The first loop: `kernel_phys_end` and `max_mem_addr` after one more entry. -/
def scanEntry (acc : Nat × Nat) (ent : MemmapEntry) : Nat × Nat :=
  (if ent.type = .kernelAndModules ∧ ent.top > acc.1 then ent.top else acc.1,
    if (ent.type = .usable ∨ ent.type = .bootloaderReclaimable) ∧ ent.top > acc.2 then ent.top else acc.2)

/-- `kernel_phys_end` and `max_mem_addr`, which starts from the base of the first entry. -/
def scanMap (entries : List MemmapEntry) : Nat × Nat :=
  entries.foldl scanEntry (0, (entries.head?.map MemmapEntry.base).getD 0)

/-- The second loop: the bitmap's physical address and the map with its bytes taken from the entry. -/
def placeBitmap (bytes : Nat) : List MemmapEntry → Option (Nat × List MemmapEntry)
  | [] => none
  | ent :: rest =>
    if ent.type = .usable ∧ ent.length ≥ bytes then
      some (ent.base, { ent with base := u64 (ent.base + bytes), length := ent.length - bytes } :: rest)
    else (placeBitmap bytes rest).map fun r => (r.1, ent :: r.2)

/-- `a & PAGE_MASK`. -/
def pageFloor (a : Nat) : Nat := a / 4096 * 4096

/-- `start_addr` and `end_addr` of an entry. -/
def MemmapEntry.startAddr (ent : MemmapEntry) : Nat := pageFloor (u64 (ent.base + 4096 - 1))

def MemmapEntry.endAddr (ent : MemmapEntry) : Nat := pageFloor ent.top

/-- The third loop: free the whole frames of a usable entry; the first such entry gives `alloc_start_frame`. -/
def freeEntry (acc : Pmm × Bool) (ent : MemmapEntry) : Pmm × Bool :=
  if ent.type = .usable then
    if ent.startAddr ≥ ent.endAddr then acc
    else
      let p := if acc.2 then acc.1 else { acc.1 with allocStartFrame := ent.base }
      (((List.range ((ent.endAddr - ent.startAddr) / 4096)).map fun i => ent.startAddr + 4096 * i).foldl freeFrame p, true)
  else acc

/-- The header before the third loop, with every frame marked; `memory` is what is behind `b_map` before. -/
def markedHeader (offset physBase virtBase kernelEnd maxFrames bitmapPhys : Nat) (memory : Nat → BitVec 8) : Pmm where
  hhdmBase := offset
  kernelPhysBase := physBase
  kernelVirtBase := virtBase
  kernelPhysEnd := kernelEnd
  bitmapPhys := bitmapPhys
  bitmapBytes := maxFrames / 8
  allocStartFrame := 0
  maxFrames := maxFrames
  freeFrames := 0
  bMap := fun i => if i < maxFrames / 8 then 0xFF else memory i
  frees := []

def initPmm (lim : LimineResponses) (memory : Nat → BitVec 8) : Except InitPmmHalt Pmm :=
  match lim.hhdm, lim.kaddr, lim.memmap with
  | none, _, _ => .error .hhdmBadResponse
  | some _, none, _ => .error .kaddrBadResponse
  | some _, some _, none => .error .memmapBadResponse
  | some offset, some (physBase, virtBase), some entries =>
    let (kernelEnd, maxMemAddr) := scanMap entries
    if kernelEnd = 0 then .error .badKernelEnd
    else
      let maxFrames := maxMemAddr / 4096
      match placeBitmap (maxFrames / 8) entries with
      | some (base, entries) =>
        -- `b_map` is `base + offset`, and `bitmap_phys` takes the offset off again
        let bitmapPhys := u64 (u64 (base + offset) + (2 ^ 64 - offset))
        .ok (entries.foldl freeEntry
          (markedHeader offset physBase virtBase kernelEnd maxFrames bitmapPhys memory, false)).1
      | none =>
        -- `b_map` is still NULL: marking faults, unless there is nothing to mark
        if maxFrames / 8 > 0 then .error .nullBitmap
        else .ok (entries.foldl freeEntry
          (markedHeader offset physBase virtBase kernelEnd maxFrames 0 memory, false)).1

/-! ## The loops -/

theorem mem_foldl_max {q : MemmapEntry → Prop} [DecidablePred q] {x : Nat} : ∀ (l : List MemmapEntry) (a : Nat),
    x ≤ l.foldl (fun acc ent => if q ent ∧ ent.top > acc then ent.top else acc) a ↔
      x ≤ a ∨ ∃ ent ∈ l, q ent ∧ x ≤ ent.top := by
  intro l
  induction l with
  | nil => simp
  | cons e l ih =>
    intro a
    rw [List.foldl_cons, ih]
    simp only [List.mem_cons, exists_eq_or_imp]
    split
    · rename_i h
      constructor
      · rintro (h1 | h1)
        · exact .inr (.inl ⟨h.1, h1⟩)
        · exact .inr (.inr h1)
      · rintro (h1 | h1 | h1)
        · exact .inl (by omega)
        · exact .inl h1.2
        · exact .inr h1
    · rename_i h
      constructor
      · rintro (h1 | h1)
        · exact .inl h1
        · exact .inr (.inr h1)
      · rintro (h1 | ⟨h1, h2⟩ | h1)
        · exact .inl h1
        · exact .inl (Nat.le_trans h2 (Nat.le_of_not_gt fun hgt => h ⟨h1, hgt⟩))
        · exact .inr h1

/-- Both results of the first loop, each as a loop of its own. -/
theorem foldl_scanEntry (l : List MemmapEntry) (a : Nat × Nat) :
    l.foldl scanEntry a =
      (l.foldl (fun acc ent => if ent.type = .kernelAndModules ∧ ent.top > acc then ent.top else acc) a.1,
        l.foldl (fun acc ent => if (ent.type = .usable ∨ ent.type = .bootloaderReclaimable) ∧ ent.top > acc
          then ent.top else acc) a.2) := by
  induction l generalizing a with
  | nil => rfl
  | cons e l ih =>
    rw [List.foldl_cons, ih]
    rfl

theorem le_maxMemAddr (m : List MemmapEntry) (x : Nat) :
    x ≤ (scanMap m).2 ↔ x ≤ (m.head?.map MemmapEntry.base).getD 0 ∨
      ∃ ent ∈ m, (ent.type = .usable ∨ ent.type = .bootloaderReclaimable) ∧ x ≤ ent.top := by
  rw [scanMap, foldl_scanEntry]
  exact mem_foldl_max m _

theorem kernelEnd_ne_zero (m : List MemmapEntry) :
    (scanMap m).1 ≠ 0 ↔ ∃ ent ∈ m, ent.type = .kernelAndModules ∧ ent.top ≠ 0 := by
  rw [scanMap, foldl_scanEntry]
  have h := mem_foldl_max (q := fun ent => ent.type = .kernelAndModules) (x := 1) m 0
  simp only [Nat.one_le_iff_ne_zero, ne_eq, not_true_eq_false, false_or] at h
  exact h

/-- Where the bitmap goes: the first usable entry that is long enough. -/
theorem placeBitmap_spec {n : Nat} : ∀ {m : List MemmapEntry}, (∃ e ∈ m, e.type = .usable ∧ n ≤ e.length) →
    ∃ before e after, m = before ++ e :: after ∧ e.type = .usable ∧ n ≤ e.length ∧
      m.find? (fun ent => ent.type = .usable ∧ n ≤ ent.length) = some e ∧
      placeBitmap n m = some (e.base,
        before ++ { e with base := u64 (e.base + n), length := e.length - n } :: after)
  | [], h => by
    obtain ⟨e, he, -⟩ := h
    cases he
  | e :: m, h => by
    by_cases hq : e.type = .usable ∧ n ≤ e.length
    · refine ⟨[], e, m, rfl, hq.1, hq.2, List.find?_cons_of_pos (decide_eq_true hq), ?_⟩
      rw [placeBitmap, if_pos hq]; rfl
    · have h' : ∃ e ∈ m, e.type = .usable ∧ n ≤ e.length := by
        obtain ⟨x, hx, hu⟩ := h
        rcases List.mem_cons.1 hx with rfl | hx
        · exact absurd hu hq
        · exact ⟨x, hx, hu⟩
      obtain ⟨before, x, after, hm, h1, h2, h3, h4⟩ := placeBitmap_spec h'
      refine ⟨e :: before, x, after, by rw [hm]; rfl, h1, h2, ?_, ?_⟩
      · rw [List.find?_cons_of_neg (by simpa using hq), h3]
      · rw [placeBitmap, if_neg hq, h4]
        rfl

/-- The frames that the third loop frees of an entry. -/
def MemmapEntry.frames (ent : MemmapEntry) : List Nat :=
  if ent.type = .usable then
    (List.range ((ent.endAddr - ent.startAddr) / 4096)).map fun i => ent.startAddr / 4096 + i
  else []

theorem freed_freeEntry (acc : Pmm × Bool) (ent : MemmapEntry) : Freed acc.1 ent.frames (freeEntry acc ent).1 := by
  unfold freeEntry MemmapEntry.frames
  split
  · split
    · rename_i hge
      rw [Nat.sub_eq_zero_of_le hge]
      exact .nil _
    · have hmap : (List.range ((ent.endAddr - ent.startAddr) / 4096)).map (fun i => ent.startAddr / 4096 + i) =
          ((List.range ((ent.endAddr - ent.startAddr) / 4096)).map fun i => ent.startAddr + 4096 * i).map (· / 4096) := by
        rw [List.map_map]
        apply List.map_congr_left
        intro i _
        show ent.startAddr / 4096 + i = (ent.startAddr + 4096 * i) / 4096
        omega
      rw [hmap]
      -- `alloc_start_frame` is not among the fields that freeing works on
      have hstart : Freed acc.1 [] (if acc.2 then acc.1 else { acc.1 with allocStartFrame := ent.base }) := by
        split
        · exact .nil _
        · exact { Freed.nil acc.1 with balanced := fun _ _ => ⟨rfl, id⟩ }
      exact hstart.trans (freed_foldl _ _)
  · exact .nil _

theorem freed_entries : ∀ (m : List MemmapEntry) (acc : Pmm × Bool),
    Freed acc.1 (m.flatMap MemmapEntry.frames) (m.foldl freeEntry acc).1
  | [], acc => .nil acc.1
  | e :: m, acc => (freed_freeEntry acc e).trans (freed_entries m (freeEntry acc e))

/-! ## Maps and bitmaps -/

/-- The byte `x` belongs to the entry. -/
def MemmapEntry.Holds (ent : MemmapEntry) (x : Nat) : Prop := ent.base ≤ x ∧ x < ent.base + ent.length

/-- The frame lies entirely inside the entry. -/
def MemmapEntry.HoldsFrame (ent : MemmapEntry) (f : Nat) : Prop :=
  ent.base ≤ 4096 * f ∧ 4096 * f + 4096 ≤ ent.base + ent.length

/-- One of the two is usable only if they have no byte in common. -/
def Apart (e e' : MemmapEntry) : Prop := e.type = .usable ∨ e'.type = .usable → ∀ x, ¬ (e.Holds x ∧ e'.Holds x)

/-- What Limine guarantees of a memory map. -/
structure LimineMap (m : List MemmapEntry) : Prop where
  noWrap : ∀ e ∈ m, e.base + e.length < 2 ^ 64
  apart : m.Pairwise Apart
  frameZero : ∀ e ∈ m, e.type = .usable → ¬ e.HoldsFrame 0
  kernel : ∃ e ∈ m, e.type = .kernelAndModules

/-- A frame that should be free: inside a usable entry, and no byte of it in the bitmap. -/
def UsableFrame (m : List MemmapEntry) (p : Pmm) (f : Nat) : Prop :=
  (∃ e ∈ m, e.type = .usable ∧ e.HoldsFrame f) ∧
    ∀ x, 4096 * f ≤ x → x < 4096 * f + 4096 → ¬ (p.bitmapPhys ≤ x ∧ x < p.bitmapPhys + p.bitmapBytes)

/-- The bitmap of the map `m`. -/
structure ExactBitmap (m : List MemmapEntry) (p : Pmm) : Prop where
  inBounds : ∀ g ∈ p.frees, g.1 / 8 < p.bitmapBytes
  exact : ∀ f < 8 * p.bitmapBytes, p.marked f = false ↔ UsableFrame m p f
  count : p.freeFrames = p.clearCount

/-- A byte of the bitmap for every 32 KiB below the top of memory. -/
def bitmapSize (m : List MemmapEntry) : Nat := (scanMap m).2 / 4096 / 8

/-- Where the memory of a usable entry starts that the bitmap leaves. -/
def freeBase (m : List MemmapEntry) (e : MemmapEntry) : Nat :=
  if m.find? (fun ent => ent.type = .usable ∧ bitmapSize m ≤ ent.length) = some e then e.base + bitmapSize m else e.base

/-- There is memory up to `x`: a usable or reclaimable entry reaches it, or the first entry starts behind it. -/
def Reaches (m : List MemmapEntry) (x : Nat) : Prop :=
  x ≤ (m.head?.map MemmapEntry.base).getD 0 ∨
    ∃ e ∈ m, (e.type = .usable ∨ e.type = .bootloaderReclaimable) ∧ x ≤ e.base + e.length

/-- The kernel's entry does not end at 0; rounding the start of a usable entry up to a page does not wrap; and for each
whole frame that the bitmap leaves of a usable entry, memory reaches the end of its group of eight frames. -/
structure BitmapFits (m : List MemmapEntry) : Prop where
  kernelEnd : ∃ e ∈ m, e.type = .kernelAndModules ∧ e.base + e.length ≠ 0
  roundUp : ∀ e ∈ m, e.type = .usable → freeBase m e + 4095 < 2 ^ 64
  groups : ∀ e ∈ m, e.type = .usable → ∀ f, freeBase m e ≤ 4096 * f → 4096 * f + 4096 ≤ e.base + e.length →
    Reaches m (32768 * (f / 8 + 1))

section Frames

variable {e : MemmapEntry} {f : Nat}

theorem MemmapEntry.top_eq (h : e.base + e.length < 2 ^ 64) : e.top = e.base + e.length := u64_of_lt h

theorem nodup_frames (e : MemmapEntry) : e.frames.Nodup := by
  unfold MemmapEntry.frames
  split
  · exact List.Nodup.map (fun i j h => Nat.add_left_cancel h) List.nodup_range
  · exact List.nodup_nil

theorem usable_of_mem_frames (h : f ∈ e.frames) : e.type = .usable := by
  unfold MemmapEntry.frames at h
  split at h
  · assumption
  · cases h

theorem mem_frames (hu : e.type = .usable) (hw : e.base + 4095 < 2 ^ 64) (he : e.base + e.length < 2 ^ 64) :
    f ∈ e.frames ↔ e.HoldsFrame f := by
  have hs : e.startAddr = (e.base + 4095) / 4096 * 4096 := by
    rw [MemmapEntry.startAddr, show e.base + 4096 - 1 = e.base + 4095 by omega, u64_of_lt hw, pageFloor]
  have ht : e.endAddr = (e.base + e.length) / 4096 * 4096 := by
    rw [MemmapEntry.endAddr, MemmapEntry.top_eq he, pageFloor]
  rw [MemmapEntry.frames, if_pos hu, hs, ht, List.mem_map]
  unfold MemmapEntry.HoldsFrame
  constructor
  · rintro ⟨i, hi, rfl⟩
    have hi := List.mem_range.1 hi
    omega
  · rintro ⟨h1, h2⟩
    refine ⟨f - (e.base + 4095) / 4096, List.mem_range.2 ?_, ?_⟩ <;> omega

theorem zero_mem_frames (hu : e.type = .usable) (hw : 2 ^ 64 ≤ e.base + 4095) (he : e.base + e.length < 2 ^ 64) :
    0 ∈ e.frames := by
  have hs : e.startAddr = 0 := by
    have : u64 (e.base + 4096 - 1) = e.base + 4095 - 2 ^ 64 := by
      unfold u64
      omega
    rw [MemmapEntry.startAddr, this, pageFloor]
    omega
  have ht : e.endAddr = (e.base + e.length) / 4096 * 4096 := by
    rw [MemmapEntry.endAddr, MemmapEntry.top_eq he, pageFloor]
  rw [MemmapEntry.frames, if_pos hu, hs, ht, List.mem_map]
  refine ⟨0, List.mem_range.2 ?_, by decide⟩
  omega

end Frames

/-- The map that the third loop runs over, with the bitmap's `n` bytes at `b` taken out. -/
structure Carved (m : List MemmapEntry) (n b : Nat) (m' : List MemmapEntry) : Prop where
  base : b < 2 ^ 64
  noWrap : ∀ x ∈ m', x.base + x.length < 2 ^ 64
  apart : m'.Pairwise Apart
  left : ∀ e ∈ m, e.type = .usable →
    ∃ x ∈ m', x.type = .usable ∧ x.base = freeBase m e ∧ x.base + x.length = e.base + e.length
  kept : ∀ x ∈ m', x.type = .usable →
    ∃ e ∈ m, e.type = .usable ∧ x.base = freeBase m e ∧ x.base + x.length = e.base + e.length
  holds : ∀ f, (∃ x ∈ m', x.type = .usable ∧ x.HoldsFrame f) ↔
    (∃ e ∈ m, e.type = .usable ∧ e.HoldsFrame f) ∧
      ∀ x, 4096 * f ≤ x → x < 4096 * f + 4096 → ¬ (b ≤ x ∧ x < b + n)

theorem carved {m : List MemmapEntry} (hl : LimineMap m)
    (hbig : ∃ e ∈ m, e.type = .usable ∧ bitmapSize m ≤ e.length) :
    ∃ b m', placeBitmap (bitmapSize m) m = some (b, m') ∧ Carved m (bitmapSize m) b m' := by
  obtain ⟨before, e, after, hm, hu, hlen, hfind, hplace⟩ := placeBitmap_spec hbig
  have hmem : ∀ x, x ∈ m ↔ x = e ∨ x ∈ before ∨ x ∈ after := by
    intro x
    rw [hm, List.mem_append, List.mem_cons]
    tauto
  have hwe := hl.noWrap e ((hmem e).2 (.inl rfl))
  rw [u64_of_lt (by omega : e.base + bitmapSize m < 2 ^ 64)] at hplace
  refine ⟨_, _, hplace, ?_⟩
  generalize hc : ({ e with base := e.base + bitmapSize m, length := e.length - bitmapSize m } : MemmapEntry) = c
  have hcu : c.type = .usable := by rw [← hc]; exact hu
  have hcb : c.base = e.base + bitmapSize m := by rw [← hc]
  have hcl : c.length = e.length - bitmapSize m := by rw [← hc]
  have hmem' : ∀ x, x ∈ before ++ c :: after ↔ x = c ∨ x ∈ before ∨ x ∈ after := by
    intro x
    rw [List.mem_append, List.mem_cons]
    tauto
  have hsub : ∀ x, c.Holds x → e.Holds x := by
    intro x ⟨h1, h2⟩
    exact ⟨by omega, by omega⟩
  -- the other entries are apart from the bitmap's, on either side of it
  have hpair := hl.apart
  rw [hm, List.pairwise_append, List.pairwise_cons] at hpair
  obtain ⟨hp1, ⟨hp2, hp3⟩, hp4⟩ := hpair
  have hother : ∀ x, x ∈ before ∨ x ∈ after → ∀ z, ¬ (x.Holds z ∧ e.Holds z) := by
    rintro x (hx | hx) z ⟨h1, h2⟩
    · exact hp4 x hx e List.mem_cons_self (.inr hu) z ⟨h1, h2⟩
    · exact hp2 x hx (.inl hu) z ⟨h2, h1⟩
  -- an equal entry elsewhere is empty, and then so is the bitmap
  have hbase : ∀ x, x ∈ before ∨ x ∈ after → freeBase m x = x.base := by
    intro x hx
    unfold freeBase
    split
    · rename_i heq
      have hxe : e = x := Option.some.inj (hfind.symm.trans heq)
      have hzero : ¬ e.Holds e.base := fun h => hother x hx e.base ⟨hxe ▸ h, h⟩
      unfold MemmapEntry.Holds at hzero
      omega
    · rfl
  have hbase' : freeBase m e = c.base := by
    rw [freeBase, if_pos hfind, hcb]
  refine ⟨by omega, ?_, ?_, ?_, ?_, ?_⟩
  · intro x hx
    rcases (hmem' x).1 hx with rfl | hx
    · omega
    · exact hl.noWrap x ((hmem x).2 (.inr hx))
  · rw [List.pairwise_append, List.pairwise_cons]
    refine ⟨hp1, ⟨fun x hx _ z h => ?_, hp3⟩, fun x hx y hy => ?_⟩
    · exact hother x (.inr hx) z ⟨h.2, hsub z h.1⟩
    · rcases List.mem_cons.1 hy with rfl | hy
      · exact fun _ z h => hother x (.inl hx) z ⟨h.1, hsub z h.2⟩
      · exact hp4 x hx y (List.mem_cons_of_mem _ hy)
  · intro x hx hxu
    rcases (hmem x).1 hx with rfl | hx
    · exact ⟨c, (hmem' c).2 (.inl rfl), hcu, hbase'.symm, by omega⟩
    · exact ⟨x, (hmem' x).2 (.inr hx), hxu, (hbase x hx).symm, rfl⟩
  · intro x hx hxu
    rcases (hmem' x).1 hx with rfl | hx
    · exact ⟨e, (hmem e).2 (.inl rfl), hu, hbase'.symm, by omega⟩
    · exact ⟨x, (hmem x).2 (.inr hx), hxu, (hbase x hx).symm, rfl⟩
  · intro f
    constructor
    · rintro ⟨x, hx, hxu, h1, h2⟩
      rcases (hmem' x).1 hx with rfl | hx
      · exact ⟨⟨e, (hmem e).2 (.inl rfl), hu, by omega, by omega⟩, fun z _ _ => by omega⟩
      · refine ⟨⟨x, (hmem x).2 (.inr hx), hxu, h1, h2⟩, fun z hz1 hz2 hz => ?_⟩
        exact hother x hx z ⟨⟨by omega, by omega⟩, ⟨by omega, by omega⟩⟩
    · rintro ⟨⟨x, hx, hxu, h1, h2⟩, hclear⟩
      rcases (hmem x).1 hx with rfl | hx
      · have := hclear (4096 * f) (Nat.le_refl _) (by omega)
        exact ⟨c, (hmem' c).2 (.inl rfl), hcu, by omega, by omega⟩
      · exact ⟨x, (hmem' x).2 (.inr hx), hxu, h1, h2⟩

/-! ## The result -/

section Result

variable {lim : LimineResponses} {memory : Nat → BitVec 8} {off b : Nat} {ka : Nat × Nat} {m m' : List MemmapEntry} {p : Pmm}

theorem initPmm_eq (hh : lim.hhdm = some off) (hk : lim.kaddr = some ka) (hm : lim.memmap = some m)
    (hend : (scanMap m).1 ≠ 0) (hp : placeBitmap (bitmapSize m) m = some (b, m')) :
    initPmm lim memory = .ok (m'.foldl freeEntry (markedHeader off ka.1 ka.2 (scanMap m).1 ((scanMap m).2 / 4096)
      (u64 (u64 (b + off) + (2 ^ 64 - off))) memory, false)).1 := by
  unfold bitmapSize at hp
  simp only [initPmm, hh, hk, hm, if_neg hend, hp]

theorem initPmm_badKernelEnd (hh : lim.hhdm = some off) (hk : lim.kaddr = some ka) (hm : lim.memmap = some m)
    (hend : (scanMap m).1 = 0) : initPmm lim memory = .error .badKernelEnd := by
  simp only [initPmm, hh, hk, hm, if_pos hend]

/-- What `init_pmm` leaves, in terms of the frames it freed. -/
structure FreedMap (m : List MemmapEntry) (b : Nat) (l : List Nat) (p : Pmm) : Prop where
  bytes : p.bitmapBytes = bitmapSize m
  phys : p.bitmapPhys = b
  marked : ∀ f < 8 * bitmapSize m, p.marked f = decide (f ∉ l)
  count : l.length < 2 ^ 64 → p.freeFrames = l.length
  frees : ∀ f, (∃ g ∈ p.frees, g.1 = f) ↔ f ∈ l

theorem initPmm_freed (memory : Nat → BitVec 8) (hoff : off < 2 ^ 64) (hh : lim.hhdm = some off) (hk : lim.kaddr = some ka)
    (hm : lim.memmap = some m) (hend : (scanMap m).1 ≠ 0) (hp : placeBitmap (bitmapSize m) m = some (b, m'))
    (hb : b < 2 ^ 64) :
    ∃ p, initPmm lim memory = .ok p ∧ FreedMap m b (m'.flatMap MemmapEntry.frames) p := by
  refine ⟨_, initPmm_eq hh hk hm hend hp, ?_⟩
  generalize hp0 : markedHeader off ka.1 ka.2 (scanMap m).1 ((scanMap m).2 / 4096)
    (u64 (u64 (b + off) + (2 ^ 64 - off))) memory = p0
  have hf := freed_entries m' (p0, false)
  have hphys : p0.bitmapPhys = b := by
    rw [← hp0]
    show u64 (u64 (b + off) + (2 ^ 64 - off)) = b
    unfold u64
    omega
  refine ⟨hf.bytes.trans (by rw [← hp0]; rfl), hf.phys.trans hphys, ?_, ?_, ?_⟩
  · intro f hlt
    have hall : p0.marked f = true := by
      have hi : f / 8 < (scanMap m).2 / 4096 / 8 := by
        unfold bitmapSize at hlt
        omega
      have hbyte : p0.bMap (f / 8) = 0xFF := by
        rw [← hp0]
        exact if_pos hi
      have hones : ∀ k : Fin 8, (0xFF : BitVec 8).getLsbD k.val = true := by decide
      rw [Pmm.marked, hbyte]
      exact hones ⟨f % 8, Nat.mod_lt _ (by decide)⟩
    rw [hf.marked, hall, Bool.true_and]
  · intro hlt
    have h0 : p0.freeFrames = 0 := by rw [← hp0]; rfl
    rw [hf.count (by rw [h0]; omega), h0, Nat.zero_add]
  · intro f
    have h0 : p0.frees = [] := by rw [← hp0]; rfl
    constructor
    · rintro ⟨g, hg, rfl⟩
      rcases hf.frees g hg with hg | hg
      · rw [h0] at hg; cases hg
      · exact hg
    · intro hl
      obtain ⟨v, hv⟩ := hf.logged f hl
      exact ⟨_, hv, rfl⟩

/-- The frames freed of the carved map, when no round-up wraps. -/
theorem Carved.mem_frames {n f : Nat} (h : Carved m n b m') (hw : ∀ x ∈ m', x.type = .usable → x.base + 4095 < 2 ^ 64) :
    f ∈ m'.flatMap MemmapEntry.frames ↔ ∃ x ∈ m', x.type = .usable ∧ x.HoldsFrame f := by
  rw [List.mem_flatMap]
  constructor
  · rintro ⟨x, hx, hf⟩
    have hu := usable_of_mem_frames hf
    exact ⟨x, hx, hu, (ToastOS.Mmu.mem_frames hu (hw x hx hu) (h.noWrap x hx)).1 hf⟩
  · rintro ⟨x, hx, hu, hf⟩
    exact ⟨x, hx, (ToastOS.Mmu.mem_frames hu (hw x hx hu) (h.noWrap x hx)).2 hf⟩

theorem Carved.nodup {n : Nat} (h : Carved m n b m') (hw : ∀ x ∈ m', x.type = .usable → x.base + 4095 < 2 ^ 64) :
    (m'.flatMap MemmapEntry.frames).Nodup := by
  apply List.nodup_flatMap.2
  refine ⟨fun x _ => nodup_frames x, h.apart.imp_of_mem ?_⟩
  intro x y hx hy hap f hfx hfy
  have hux := usable_of_mem_frames hfx
  have huy := usable_of_mem_frames hfy
  obtain ⟨h1, h2⟩ := (ToastOS.Mmu.mem_frames hux (hw x hx hux) (h.noWrap x hx)).1 hfx
  obtain ⟨h3, h4⟩ := (ToastOS.Mmu.mem_frames huy (hw y hy huy) (h.noWrap y hy)).1 hfy
  exact hap (.inl hux) (4096 * f) ⟨⟨by omega, by omega⟩, ⟨by omega, by omega⟩⟩

theorem reaches_iff (hl : LimineMap m) (x : Nat) : Reaches m x ↔ x ≤ (scanMap m).2 := by
  rw [le_maxMemAddr]
  apply or_congr Iff.rfl
  apply exists_congr
  intro e
  constructor
  · rintro ⟨he, ht, hx⟩
    exact ⟨he, ht, by rw [MemmapEntry.top_eq (hl.noWrap e he)]; exact hx⟩
  · rintro ⟨he, ht, hx⟩
    exact ⟨he, ht, by rw [← MemmapEntry.top_eq (hl.noWrap e he)]; exact hx⟩

/-- A frame has a bit when memory reaches the end of its group. -/
theorem reaches_group (hl : LimineMap m) (f : Nat) : Reaches m (32768 * (f / 8 + 1)) ↔ f / 8 < bitmapSize m := by
  rw [reaches_iff hl, bitmapSize]
  omega

theorem clearCount_eq_length {l : List Nat} (hn : l.Nodup) (hlt : ∀ f ∈ l, f < 8 * p.bitmapBytes)
    (hm : ∀ f < 8 * p.bitmapBytes, p.marked f = decide (f ∉ l)) : p.clearCount = l.length := by
  have hcount : p.clearCount = (List.range (8 * p.bitmapBytes)).countP fun f => decide (f ∈ l) := by
    apply List.countP_congr
    intro f hf
    rw [hm f (List.mem_range.1 hf)]
    simp
  rw [hcount, List.countP_eq_length_filter]
  apply List.Perm.length_eq
  apply (List.perm_ext_iff_of_nodup (List.nodup_range.filter _) hn).2
  intro f
  rw [List.mem_filter, List.mem_range, decide_eq_true_iff]
  exact ⟨fun h => h.2, fun h => ⟨hlt f h, h⟩⟩

theorem scanMap_top_lt (hbase : ∀ e ∈ m, e.base < 2 ^ 64) : (scanMap m).2 < 2 ^ 64 := by
  rcases (le_maxMemAddr m _).1 (Nat.le_refl _) with hle | ⟨e, -, -, hle⟩
  · cases hh : m.head? with
    | none =>
      rw [hh] at hle
      exact Nat.lt_of_le_of_lt hle (by decide)
    | some e =>
      rw [hh] at hle
      exact Nat.lt_of_le_of_lt hle (hbase e (List.mem_of_head? hh))
  · exact Nat.lt_of_le_of_lt hle (u64_lt _)

/-- There are at most as many free frames as bits, and fewer than 64-bit numbers. -/
theorem FreedMap.clearCount_lt {l : List Nat} (hf : FreedMap m b l p) (hl : LimineMap m) : p.clearCount < 2 ^ 64 := by
  have hle : p.clearCount ≤ 8 * p.bitmapBytes := by
    have := List.countP_le_length (p := fun f => !p.marked f) (l := List.range (8 * p.bitmapBytes))
    rwa [List.length_range] at this
  have htop := scanMap_top_lt fun e he => Nat.lt_of_le_of_lt (Nat.le_add_right e.base e.length) (hl.noWrap e he)
  have hsize : 8 * bitmapSize m ≤ (scanMap m).2 := by
    unfold bitmapSize
    omega
  rw [hf.bytes] at hle
  omega

/-- If all the memory that is left fits, the bitmap is exact. -/
theorem FreedMap.exact (hf : FreedMap m b (m'.flatMap MemmapEntry.frames) p) (hc : Carved m (bitmapSize m) b m')
    (hl : LimineMap m) (hfit : BitmapFits m) : ExactBitmap m p := by
  have hround : ∀ x ∈ m', x.type = .usable → x.base + 4095 < 2 ^ 64 := by
    intro x hx hu
    obtain ⟨e, he, heu, hb, -⟩ := hc.kept x hx hu
    rw [hb]
    exact hfit.roundUp e he heu
  have hbound : ∀ f ∈ m'.flatMap MemmapEntry.frames, f / 8 < bitmapSize m := by
    intro f hmem
    obtain ⟨x, hx, hu, h1, h2⟩ := (hc.mem_frames hround).1 hmem
    obtain ⟨e, he, heu, hb, hlen⟩ := hc.kept x hx hu
    exact (reaches_group hl f).1 (hfit.groups e he heu f (by omega) (by omega))
  have hlt : ∀ f ∈ m'.flatMap MemmapEntry.frames, f < 8 * p.bitmapBytes := by
    intro f hmem
    have := hbound f hmem
    rw [hf.bytes]
    omega
  have hmark : ∀ f < 8 * p.bitmapBytes, p.marked f = decide (f ∉ m'.flatMap MemmapEntry.frames) := by
    rw [hf.bytes]
    exact hf.marked
  have hcount := clearCount_eq_length (hc.nodup hround) hlt hmark
  refine ⟨?_, ?_, ?_⟩
  · intro g hg
    rw [hf.bytes]
    exact hbound _ ((hf.frees g.1).1 ⟨g, hg, rfl⟩)
  · intro f hflt
    rw [hmark f hflt, decide_eq_false_iff_not, not_not, hc.mem_frames hround, hc.holds]
    unfold UsableFrame
    rw [hf.phys, hf.bytes]
  · rw [hcount]
    exact hf.count (hcount ▸ hf.clearCount_lt hl)

/-- If the bitmap is exact, no round-up wrapped and every frame has its bit. -/
theorem FreedMap.fits (hf : FreedMap m b (m'.flatMap MemmapEntry.frames) p) (hc : Carved m (bitmapSize m) b m')
    (hl : LimineMap m) (hex : ExactBitmap m p)
    (hkernel : ∃ e ∈ m, e.type = .kernelAndModules ∧ e.base + e.length ≠ 0) : BitmapFits m := by
  have hbound : ∀ f ∈ m'.flatMap MemmapEntry.frames, f / 8 < bitmapSize m := by
    intro f hmem
    obtain ⟨g, hg, rfl⟩ := (hf.frees f).2 hmem
    rw [← hf.bytes]
    exact hex.inBounds g hg
  -- a round-up that wraps frees frame 0, which is not usable
  have hround : ∀ x ∈ m', x.type = .usable → x.base + 4095 < 2 ^ 64 := by
    intro x hx hu
    by_contra hge
    have h0 : 0 ∈ m'.flatMap MemmapEntry.frames :=
      List.mem_flatMap.2 ⟨x, hx, zero_mem_frames hu (Nat.le_of_not_lt hge) (hc.noWrap x hx)⟩
    have hlt := hbound 0 h0
    have hclear : p.marked 0 = false := by
      rw [hf.marked 0 (by omega)]
      simpa using h0
    obtain ⟨⟨e, he, heu, heh⟩, -⟩ := (hex.exact 0 (by rw [hf.bytes]; omega)).1 hclear
    exact hl.frameZero e he heu heh
  refine ⟨hkernel, ?_, ?_⟩
  · intro e he hu
    obtain ⟨x, hx, hxu, hxb, -⟩ := hc.left e he hu
    rw [← hxb]
    exact hround x hx hxu
  · intro e he hu f h1 h2
    obtain ⟨x, hx, hxu, hxb, hxl⟩ := hc.left e he hu
    rw [reaches_group hl]
    apply hbound
    exact (hc.mem_frames hround).2 ⟨x, hx, hxu, by omega, by omega⟩

/-- **When the bitmap is exact.** For a memory map that keeps Limine's guarantees and has room for the bitmap, `init_pmm`
touches only bytes of the bitmap, leaves exactly the usable frames clear and counts them, if and only if the map fits the
rounded-down bitmap. -/
theorem init_pmm_exact_iff (hoff : off < 2 ^ 64) (hh : lim.hhdm = some off) (hk : lim.kaddr = some ka)
    (hm : lim.memmap = some m) (hl : LimineMap m) (hbig : ∃ e ∈ m, e.type = .usable ∧ bitmapSize m ≤ e.length) :
    (∃ p, initPmm lim memory = .ok p ∧ ExactBitmap m p) ↔ BitmapFits m := by
  obtain ⟨b, m', hplace, hc⟩ := carved hl hbig
  have hkernel : (scanMap m).1 ≠ 0 ↔ ∃ e ∈ m, e.type = .kernelAndModules ∧ e.base + e.length ≠ 0 := by
    rw [kernelEnd_ne_zero]
    apply exists_congr
    intro e
    refine and_congr_right fun he => ?_
    rw [MemmapEntry.top_eq (hl.noWrap e he)]
  constructor
  · rintro ⟨p, hp, hex⟩
    have hend : (scanMap m).1 ≠ 0 := by
      intro h0
      rw [initPmm_badKernelEnd hh hk hm h0] at hp
      cases hp
    obtain ⟨p', hp', hf⟩ := initPmm_freed memory hoff hh hk hm hend hplace hc.base
    obtain rfl : p = p' := Except.ok.inj (hp.symm.trans hp')
    exact hf.fits hc hl hex (hkernel.1 hend)
  · intro hfit
    obtain ⟨p, hp, hf⟩ := initPmm_freed memory hoff hh hk hm (hkernel.2 hfit.kernelEnd) hplace hc.base
    exact ⟨p, hp, hf.exact hc hl hfit⟩

/-- A usable entry of `len` bytes from 4 KiB on, and the kernel. -/
def sampleMap (len : Nat) : List MemmapEntry := [⟨0x1000, len, .usable⟩, ⟨0x100000, 0x1000, .kernelAndModules⟩]

def sampleResponses (len : Nat) : LimineResponses :=
  ⟨some 0xFFFF800000000000, some (0x100000, 0xFFFFFFFF80000000), some (sampleMap len)⟩

theorem limineMap_sample {len : Nat} (h : len ≤ 0xF000) : LimineMap (sampleMap len) := by
  refine ⟨?_, ?_, ?_, ⟨_, List.mem_cons_of_mem _ List.mem_cons_self, rfl⟩⟩
  · intro e he
    simp only [sampleMap, List.mem_cons, List.not_mem_nil, or_false] at he
    rcases he with rfl | rfl
    · show 0x1000 + len < 2 ^ 64
      omega
    · decide
  · refine List.pairwise_pair.2 ?_
    rintro - x ⟨⟨h1, h2⟩, ⟨h3, h4⟩⟩
    simp only at h1 h2 h3 h4
    omega
  · intro e he hu
    simp only [sampleMap, List.mem_cons, List.not_mem_nil, or_false] at he
    rcases he with rfl | rfl
    · rintro ⟨h1, -⟩
      simp at h1
    · cases hu

/-- Sixteen frames: the bitmap has two bytes and every usable frame a bit. -/
theorem bitmap_exact_of_sixteen_frames : ∃ p, initPmm (sampleResponses 0xF000) (fun _ => 0) = .ok p ∧
    ExactBitmap (sampleMap 0xF000) p := by
  refine (init_pmm_exact_iff (by decide : 0xFFFF800000000000 < 2 ^ 64) rfl rfl rfl (limineMap_sample (Nat.le_refl _))
    ⟨_, List.mem_cons_self, rfl, by decide⟩).2 ⟨⟨_, List.mem_cons_of_mem _ List.mem_cons_self, rfl, by decide⟩, ?_, ?_⟩
  · intro e he hu
    simp only [sampleMap, List.mem_cons, List.not_mem_nil, or_false] at he
    rcases he with rfl | rfl
    · decide
    · cases hu
  · intro e he hu f _ hf
    refine .inr ⟨_, List.mem_cons_self, .inl rfl, ?_⟩
    simp only [sampleMap, List.mem_cons, List.not_mem_nil, or_false] at he
    rcases he with rfl | rfl
    · simp only at hf ⊢
      omega
    · cases hu

/-- Nine frames: the bitmap has one byte, and freeing frame 8 clears a bit of the byte behind it. -/
theorem bitmap_overrun_at_nine_frames : LimineMap (sampleMap 0x8000) ∧
    (∃ e ∈ sampleMap 0x8000, e.type = .usable ∧ bitmapSize (sampleMap 0x8000) ≤ e.length) ∧
    ∃ p, initPmm (sampleResponses 0x8000) (fun _ => 0xFF) = .ok p ∧ p.bitmapBytes = 1 ∧
      (8, true) ∈ p.frees ∧ p.bMap 1 = 0xFE := by
  refine ⟨limineMap_sample (by decide), ⟨_, List.mem_cons_self, rfl, by decide⟩, ?_⟩
  refine ⟨_, rfl, ?_⟩
  decide

end Result

end ToastOS.Mmu
