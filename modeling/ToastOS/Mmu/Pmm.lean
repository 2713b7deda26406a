import ToastOS.Lib.Memory
import Mathlib.Data.List.Nodup

/-!
# The physical memory manager: `pmm.c`

One bit per 4 KiB frame, set while the frame is in use. `b_map` is a function from byte indices, so that an index at or
past `bitmap_bytes` is an access behind the bitmap and not an error. `frees` is a ghost: it records the calls of
`free_frame`, and no modelled function reads it.
-/

namespace ToastOS.Mmu

open Function

def pageSize : Nat := 4096

/-- `pmm_header_t`. -/
structure Pmm where
  hhdmBase : Nat
  kernelPhysBase : Nat
  kernelVirtBase : Nat
  kernelPhysEnd : Nat
  bitmapPhys : Nat
  bitmapBytes : Nat
  allocStartFrame : Nat
  maxFrames : Nat
  freeFrames : Nat
  bMap : Nat → BitVec 8
  /-- Ghost: the frames that `free_frame` was called for, latest first, and whether their bit was set. -/
  frees : List (Nat × Bool)

/-- The bit of a frame. -/
def Pmm.marked (p : Pmm) (frame : Nat) : Bool := (p.bMap (frame / 8)).getLsbD (frame % 8)

def freeFrame (p : Pmm) (frameAddr : Nat) : Pmm :=
  let frame := frameAddr / 4096
  { p with
    bMap := update p.bMap (frame / 8) (p.bMap (frame / 8) &&& ~~~(1#8 <<< (frame % 8)))
    freeFrames := u64 (p.freeFrames + 1)
    frees := (frame, p.marked frame) :: p.frees }

/-- `alloc_frame`; `free_frames` is unsigned, so the branch for a negative count is dead. -/
def allocFrame (p : Pmm) (frameAddr : Nat) : Pmm :=
  let frame := frameAddr / 4096
  { p with
    bMap := update p.bMap (frame / 8) (p.bMap (frame / 8) ||| (1#8 <<< (frame % 8)))
    freeFrames := if p.freeFrames = 0 then 2 ^ 64 - 1 else p.freeFrames - 1 }

/-- The inner loop of `pmm_alloc`: the lowest clear bit of byte `i`. -/
def clearBit (p : Pmm) (i : Nat) : Option Nat :=
  (List.range 8).find? fun bit => p.bMap i &&& (1#8 <<< bit) == 0

/-- The frame that the loops of `pmm_alloc` find. -/
def clearFrame (p : Pmm) : Option Nat :=
  (List.range p.bitmapBytes).findSome? fun i =>
    if p.bMap i = 0xFF then none else (clearBit p i).map fun bit => i * 8 + bit

/-- `pmm_alloc`; 0 when there is no free frame. -/
def pmmAlloc (p : Pmm) : Nat × Pmm :=
  match clearFrame p with
  | some frame => (u64 (frame * 4096), allocFrame p (u64 (frame * 4096)))
  | none => (0, p)

def pmmFree (p : Pmm) (paddr : Nat) : Pmm := freeFrame p paddr

/-! ## Bits -/

theorem getLsbD_one_shiftLeft {k j : Nat} (hk : k < 8) (hj : j < 8) : (1#8 <<< k).getLsbD j = decide (j = k) := by
  have hall : ∀ k : Fin 8, ∀ j : Fin 8, (1#8 <<< k.val).getLsbD j.val = decide (j.val = k.val) := by decide
  exact hall ⟨k, hk⟩ ⟨j, hj⟩

theorem and_one_shiftLeft_eq_zero {b : BitVec 8} {k : Nat} (hk : k < 8) :
    (b &&& (1#8 <<< k) == 0) = !b.getLsbD k := by
  rw [Bool.eq_iff_iff, beq_iff_eq, Bool.not_eq_true']
  constructor
  · intro h
    have := congrArg (fun x => x.getLsbD k) h
    simpa [getLsbD_one_shiftLeft hk hk] using this
  · intro h
    apply BitVec.eq_of_getLsbD_eq
    intro i hi
    rw [BitVec.getLsbD_and, getLsbD_one_shiftLeft hk hi]
    by_cases hik : i = k
    · simp [hik, h]
    · simp [hik]

section Bits

variable {p : Pmm} {a f : Nat}

@[simp] theorem bitmapBytes_freeFrame : (freeFrame p a).bitmapBytes = p.bitmapBytes := rfl

@[simp] theorem bitmapBytes_allocFrame : (allocFrame p a).bitmapBytes = p.bitmapBytes := rfl

theorem marked_freeFrame : (freeFrame p a).marked f = (p.marked f && decide (f ≠ a / 4096)) := by
  unfold Pmm.marked freeFrame
  by_cases hb : f / 8 = a / 4096 / 8
  · have hlt : f % 8 < 8 := Nat.mod_lt _ (by decide)
    have hlt' : a / 4096 % 8 < 8 := Nat.mod_lt _ (by decide)
    simp only [hb, update_self, BitVec.getLsbD_and, BitVec.getLsbD_not, hlt, decide_true, Bool.true_and,
      getLsbD_one_shiftLeft hlt' hlt]
    congr 1
    rw [← decide_not]
    apply decide_eq_decide.2
    omega
  · have hne : f ≠ a / 4096 := fun h => hb (by rw [h])
    simp [update_of_ne hb, hne]

theorem marked_allocFrame : (allocFrame p a).marked f = (p.marked f || decide (f = a / 4096)) := by
  unfold Pmm.marked allocFrame
  by_cases hb : f / 8 = a / 4096 / 8
  · have hlt : f % 8 < 8 := Nat.mod_lt _ (by decide)
    have hlt' : a / 4096 % 8 < 8 := Nat.mod_lt _ (by decide)
    simp only [hb, update_self, BitVec.getLsbD_or, getLsbD_one_shiftLeft hlt' hlt]
    congr 1
    apply decide_eq_decide.2
    omega
  · have hne : f ≠ a / 4096 := fun h => hb (by rw [h])
    simp [update_of_ne hb, hne]

end Bits

/-! ## `pmm_alloc` -/

/-- A manager whose frames have addresses below `2 ^ 52` and that never hands out frame 0. -/
structure Pmm.Ok (p : Pmm) : Prop where
  size : 8 * p.bitmapBytes ≤ 2 ^ 40
  zero : p.marked 0 = true

section Alloc

variable {p : Pmm} {f g i k : Nat}

theorem clearBit_some (h : clearBit p i = some k) : k < 8 ∧ (p.bMap i).getLsbD k = false := by
  have hk : k < 8 := List.mem_range.1 (List.mem_of_find?_eq_some h)
  have hb := List.find?_some h
  rw [and_one_shiftLeft_eq_zero hk] at hb
  exact ⟨hk, by simpa using hb⟩

theorem clearBit_none (h : clearBit p i = none) : p.bMap i = 0xFF := by
  apply BitVec.eq_of_getLsbD_eq
  intro k hk
  have hb := List.find?_eq_none.1 h k (List.mem_range.2 hk)
  rw [and_one_shiftLeft_eq_zero hk] at hb
  have hones : ∀ k : Fin 8, (0xFF : BitVec 8).getLsbD k.val = true := by decide
  rw [hones ⟨k, hk⟩]
  simpa using hb

theorem marked_index (p : Pmm) (hk : k < 8) : p.marked (i * 8 + k) = (p.bMap i).getLsbD k := by
  rw [Pmm.marked, show (i * 8 + k) / 8 = i by omega, show (i * 8 + k) % 8 = k by omega]

theorem clearFrame_some (h : clearFrame p = some f) : f < 8 * p.bitmapBytes ∧ p.marked f = false := by
  obtain ⟨i, hi, hf⟩ := List.exists_of_findSome?_eq_some h
  have hi : i < p.bitmapBytes := List.mem_range.1 hi
  split at hf
  · cases hf
  · obtain ⟨k, hk, rfl⟩ := Option.map_eq_some_iff.1 hf
    obtain ⟨hk8, hbit⟩ := clearBit_some hk
    exact ⟨by omega, by rw [marked_index p hk8, hbit]⟩

theorem marked_of_passed
    (h : (if p.bMap (f / 8) = 0xFF then none else (clearBit p (f / 8)).map fun bit => f / 8 * 8 + bit) = none) :
    p.marked f = true := by
  have hfull : p.bMap (f / 8) = 0xFF := by
    split at h
    · assumption
    · exact clearBit_none (Option.map_eq_none_iff.1 h)
  have hones : ∀ k : Fin 8, (0xFF : BitVec 8).getLsbD k.val = true := by decide
  rw [Pmm.marked, hfull]
  exact hones ⟨f % 8, Nat.mod_lt _ (by decide)⟩

theorem clearFrame_none (h : clearFrame p = none) (hf : f < 8 * p.bitmapBytes) : p.marked f = true :=
  marked_of_passed (List.findSome?_eq_none_iff.1 h (f / 8) (List.mem_range.2 (by omega)))

theorem clearBit_lowest (h : clearBit p i = some k) (hg : g < k) : (p.bMap i).getLsbD g = true := by
  obtain ⟨hk, -⟩ := clearBit_some h
  obtain ⟨-, hlow⟩ := List.find?_range_eq_some.1 h
  have hbit := hlow.2 g hg
  rw [and_one_shiftLeft_eq_zero (by omega)] at hbit
  simpa using hbit

theorem clearFrame_lowest (h : clearFrame p = some f) (hg : g < f) : p.marked g = true := by
  obtain ⟨l₁, i, l₂, hl, hf, hpassed⟩ := List.findSome?_eq_some_iff.1 h
  have hsorted : (l₁ ++ i :: l₂).Pairwise (· < ·) := hl ▸ List.pairwise_lt_range
  have hi : i < p.bitmapBytes := List.mem_range.1 (hl ▸ List.mem_append_right l₁ List.mem_cons_self)
  split at hf
  · cases hf
  obtain ⟨k, hk, rfl⟩ := Option.map_eq_some_iff.1 hf
  obtain ⟨hk8, -⟩ := clearBit_some hk
  rcases Nat.lt_or_ge (g / 8) i with hlt | hge
  · -- an earlier byte, which the outer loop passed over
    have hmem : g / 8 ∈ l₁ ++ i :: l₂ := hl ▸ List.mem_range.2 (by omega)
    rcases List.mem_append.1 hmem with hmem | hmem
    · exact marked_of_passed (hpassed _ hmem)
    · rcases List.mem_cons.1 hmem with heq | hmem
      · omega
      · have := List.rel_of_pairwise_cons (List.pairwise_append.1 hsorted).2.1 hmem
        omega
  · -- the same byte, an earlier bit
    have hbit := clearBit_lowest hk (g := g % 8) (by omega)
    rw [Pmm.marked, show g / 8 = i by omega]
    exact hbit

/-- Either every frame is in use and nothing changes, or the lowest free frame becomes used. -/
theorem pmmAlloc_lowest (haddr : 8 * p.bitmapBytes * 4096 ≤ 2 ^ 64) (hzero : p.marked 0 = true) :
    (pmmAlloc p = (0, p) ∧ ∀ f < 8 * p.bitmapBytes, p.marked f = true) ∨
      ∃ f, 0 < f ∧ f < 8 * p.bitmapBytes ∧ p.marked f = false ∧ (∀ g < f, p.marked g = true) ∧
        pmmAlloc p = (4096 * f, allocFrame p (4096 * f)) := by
  unfold pmmAlloc
  cases hc : clearFrame p with
  | none => exact .inl ⟨rfl, fun f hf => clearFrame_none hc hf⟩
  | some f =>
    obtain ⟨hlt, hm⟩ := clearFrame_some hc
    have hpos : 0 < f := by
      rcases Nat.eq_zero_or_pos f with h0 | h0
      · rw [h0, hzero] at hm; cases hm
      · exact h0
    have hu : u64 (f * 4096) = 4096 * f := by
      rw [Nat.mul_comm]
      exact u64_of_lt (by omega)
    exact .inr ⟨f, hpos, hlt, hm, fun g hg => clearFrame_lowest hc hg, by simp only [hu]⟩

theorem pmmAlloc_cases (h : p.Ok) :
    (pmmAlloc p = (0, p) ∧ ∀ f < 8 * p.bitmapBytes, p.marked f = true) ∨
      ∃ f, 0 < f ∧ f < 8 * p.bitmapBytes ∧ p.marked f = false ∧
        pmmAlloc p = (4096 * f, allocFrame p (4096 * f)) := by
  have hsize := h.size
  rcases pmmAlloc_lowest (by omega) h.zero with hfull | ⟨f, hpos, hlt, hm, -, he⟩
  · exact .inl hfull
  · exact .inr ⟨f, hpos, hlt, hm, he⟩

end Alloc

/-! ## Counting free frames -/

def Pmm.clearCount (p : Pmm) : Nat := (List.range (8 * p.bitmapBytes)).countP fun f => !p.marked f

theorem countP_erase_one {q r : Nat → Bool} {g : Nat} : ∀ {l : List Nat}, l.Nodup → g ∈ l → q g = true → r g = false →
    (∀ f, f ≠ g → r f = q f) → l.countP r + 1 = l.countP q
  | x :: l, hn, hg, h1, h2, h3 => by
    obtain ⟨hx, hn⟩ := List.nodup_cons.1 hn
    rcases List.mem_cons.1 hg with rfl | hg
    · have hsame : l.countP r = l.countP q := by
        apply List.countP_congr
        intro f hf
        rw [h3 f (fun he => hx (he ▸ hf))]
      rw [List.countP_cons_of_pos h1, List.countP_cons_of_neg (by simp [h2]), hsame]
    · have hne : x ≠ g := fun he => hx (he ▸ hg)
      have ih := countP_erase_one hn hg h1 h2 h3
      rw [List.countP_cons, List.countP_cons, h3 x hne]
      omega

section Count

variable {p : Pmm} {f : Nat}

theorem clearCount_allocFrame (hf : f < 8 * p.bitmapBytes) (hm : p.marked f = false) :
    (allocFrame p (4096 * f)).clearCount + 1 = p.clearCount := by
  have hdiv : 4096 * f / 4096 = f := Nat.mul_div_cancel_left f (by decide)
  rw [Pmm.clearCount, Pmm.clearCount, bitmapBytes_allocFrame]
  refine countP_erase_one (r := fun g => !(allocFrame p (4096 * f)).marked g) List.nodup_range (List.mem_range.2 hf) ?_ ?_ ?_
  · simp [hm]
  · simp [marked_allocFrame, hdiv]
  · intro g hg
    simp [marked_allocFrame, hdiv, hg]

theorem clearCount_freeFrame (hf : f < 8 * p.bitmapBytes) (hm : p.marked f = true) :
    p.clearCount + 1 = (freeFrame p (4096 * f)).clearCount := by
  have hdiv : 4096 * f / 4096 = f := Nat.mul_div_cancel_left f (by decide)
  rw [Pmm.clearCount, Pmm.clearCount, bitmapBytes_freeFrame]
  refine countP_erase_one (q := fun g => !(freeFrame p (4096 * f)).marked g) List.nodup_range (List.mem_range.2 hf) ?_ ?_ ?_
  · simp [marked_freeFrame, hdiv]
  · simp [hm]
  · intro g hg
    simp [marked_freeFrame, hdiv, hg]

theorem clearCount_eq_zero (h : ∀ f < 8 * p.bitmapBytes, p.marked f = true) : p.clearCount = 0 := by
  apply List.countP_eq_zero.2
  intro f hf
  simp [h f (List.mem_range.1 hf)]

theorem marked_of_clearCount (h : p.clearCount = 0) (hf : f < 8 * p.bitmapBytes) : p.marked f = true := by
  have hmarked := List.countP_eq_zero.1 h f (List.mem_range.2 hf)
  simpa using hmarked

theorem freeFrame_frame (p : Pmm) (a : Nat) : freeFrame p a = freeFrame p (4096 * (a / 4096)) := by
  unfold freeFrame
  rw [Nat.mul_div_cancel_left (a / 4096) (by decide)]

/-- The counter has changed by as much as the bitmap. -/
structure Balanced (p q : Pmm) : Prop where
  count : (q.freeFrames + p.clearCount) % 2 ^ 64 = (p.freeFrames + q.clearCount) % 2 ^ 64
  bound : p.freeFrames < 2 ^ 64 → q.freeFrames < 2 ^ 64

theorem Balanced.refl (p : Pmm) : Balanced p p := ⟨rfl, id⟩

theorem Balanced.trans {q r : Pmm} (h : Balanced p q) (h' : Balanced q r) : Balanced p r := by
  refine ⟨?_, fun hb => h'.bound (h.bound hb)⟩
  have h1 := h.count
  have h2 := h'.count
  omega

theorem balanced_allocFrame (hf : f < 8 * p.bitmapBytes) (hm : p.marked f = false) :
    Balanced p (allocFrame p (4096 * f)) := by
  have hcount := clearCount_allocFrame hf hm
  have hfree : (allocFrame p (4096 * f)).freeFrames = if p.freeFrames = 0 then 2 ^ 64 - 1 else p.freeFrames - 1 := rfl
  refine ⟨?_, fun hb => ?_⟩
  · rw [hfree]
    split <;> omega
  · rw [hfree]
    split <;> omega

theorem balanced_freeFrame (hf : f < 8 * p.bitmapBytes) (hm : p.marked f = true) : Balanced p (freeFrame p (4096 * f)) := by
  have hcount := clearCount_freeFrame hf hm
  have hfree : (freeFrame p (4096 * f)).freeFrames = (p.freeFrames + 1) % 2 ^ 64 := rfl
  refine ⟨?_, fun _ => ?_⟩ <;> rw [hfree] <;> omega

end Count

/-! ## Freeing a list of frames -/

/-- `q` is `p` after `free_frame` was called for the frames `l`. -/
structure Freed (p : Pmm) (l : List Nat) (q : Pmm) : Prop where
  marked : ∀ f, q.marked f = (p.marked f && decide (f ∉ l))
  count : p.freeFrames + l.length < 2 ^ 64 → q.freeFrames = p.freeFrames + l.length
  frees : ∀ g ∈ q.frees, g ∈ p.frees ∨ g.1 ∈ l
  logged : ∀ f ∈ l, ∃ b, (f, b) ∈ q.frees
  log : ∀ g ∈ p.frees, g ∈ q.frees
  once : l.Nodup → (∀ f ∈ l, p.marked f = true) → ∀ g ∈ q.frees, g ∈ p.frees ∨ g.2 = true
  bytes : q.bitmapBytes = p.bitmapBytes
  phys : q.bitmapPhys = p.bitmapPhys
  balanced : l.Nodup → (∀ f ∈ l, p.marked f = true ∧ f < 8 * p.bitmapBytes) → Balanced p q

section Freed

variable {p q r : Pmm} {l l' : List Nat}

theorem Freed.nil (p : Pmm) : Freed p [] p where
  marked f := by simp
  count _ := rfl
  frees g hg := .inl hg
  logged f hf := absurd hf List.not_mem_nil
  log g hg := hg
  once _ _ g hg := .inl hg
  bytes := rfl
  phys := rfl
  balanced _ _ := .refl p

theorem Freed.one (p : Pmm) (a : Nat) : Freed p [a / 4096] (freeFrame p a) where
  marked f := by rw [marked_freeFrame]; simp
  count h := u64_of_lt h
  frees g hg := by
    rcases List.mem_cons.1 hg with rfl | hg
    · exact .inr List.mem_cons_self
    · exact .inl hg
  logged f hf := by
    rw [List.mem_singleton.1 hf]
    exact ⟨_, List.mem_cons_self⟩
  log g hg := List.mem_cons_of_mem _ hg
  once _ hm g hg := by
    rcases List.mem_cons.1 hg with rfl | hg
    · exact .inr (hm _ List.mem_cons_self)
    · exact .inl hg
  bytes := rfl
  phys := rfl
  balanced _ hm := by
    obtain ⟨hm, hlt⟩ := hm _ List.mem_cons_self
    rw [freeFrame_frame]
    exact balanced_freeFrame hlt hm

theorem Freed.still_marked (h : Freed p l q) (hn : (l ++ l').Nodup) {f : Nat} (hf : f ∈ l') (hm : p.marked f = true) :
    q.marked f = true := by
  obtain ⟨-, -, hd⟩ := List.nodup_append.1 hn
  rw [h.marked, hm, Bool.true_and, decide_eq_true_iff]
  exact fun hl => hd f hl f hf rfl

theorem Freed.trans (h : Freed p l q) (h' : Freed q l' r) : Freed p (l ++ l') r where
  marked f := by
    rw [h'.marked, h.marked, Bool.and_assoc, ← Bool.decide_and]
    simp only [List.mem_append, not_or]
  count hlt := by
    rw [List.length_append] at hlt
    have h1 := h.count (by omega)
    rw [h'.count (by omega), h1, List.length_append]
    omega
  frees g hg := by
    rcases h'.frees g hg with hg | hg
    · rcases h.frees g hg with hg | hg
      · exact .inl hg
      · exact .inr (List.mem_append_left _ hg)
    · exact .inr (List.mem_append_right _ hg)
  logged f hf := by
    rcases List.mem_append.1 hf with hf | hf
    · obtain ⟨b, hb⟩ := h.logged f hf
      exact ⟨b, h'.log _ hb⟩
    · exact h'.logged f hf
  log g hg := h'.log g (h.log g hg)
  once hn hm g hg := by
    obtain ⟨hn1, hn2, -⟩ := List.nodup_append.1 hn
    have hm' : ∀ f ∈ l', q.marked f = true := fun f hf => h.still_marked hn hf (hm f (List.mem_append_right _ hf))
    rcases h'.once hn2 hm' g hg with hg | hg
    · exact h.once hn1 (fun f hf => hm f (List.mem_append_left _ hf)) g hg
    · exact .inr hg
  bytes := h'.bytes.trans h.bytes
  phys := h'.phys.trans h.phys
  balanced hn hm := by
    obtain ⟨hn1, hn2, -⟩ := List.nodup_append.1 hn
    refine (h.balanced hn1 fun f hf => hm f (List.mem_append_left _ hf)).trans (h'.balanced hn2 fun f hf => ?_)
    obtain ⟨hm, hlt⟩ := hm f (List.mem_append_right _ hf)
    rw [h.bytes]
    exact ⟨h.still_marked hn hf hm, hlt⟩

theorem freed_foldl : ∀ (l : List Nat) (p : Pmm), Freed p (l.map (· / 4096)) (l.foldl freeFrame p)
  | [], p => .nil p
  | a :: l, p => (Freed.one p a).trans (freed_foldl l (freeFrame p a))

end Freed

end ToastOS.Mmu
