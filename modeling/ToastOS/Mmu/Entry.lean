import ToastOS.Mmu.Vmm

/-!
# Page-table entries and the memory that holds them

`has` distributes over the bit operations that build an entry, so a flag of a built entry is decided by constants; a frame
address survives in an entry whose flags stay outside `PTE_FRAME_MASK` (`frameOf_or`, `frameOf_ofNat`). Entries of
different slots, and of different frames, do not overlap.
-/

namespace ToastOS.Mmu

open ToastOS.Lib

/-! ## Bits -/

section Bits

variable {x y flag : Entry} {f : Nat}

theorem has_or : has (x ||| y) flag = (has x flag || has y flag) := by
  have h : (x ||| y) &&& flag = (x &&& flag) ||| (y &&& flag) := BitVec.and_or_distrib_right
  unfold has
  rw [h, Bool.eq_iff_iff, Bool.or_eq_true, bne_iff_ne, bne_iff_ne, bne_iff_ne]
  have hz : ∀ a b : Entry, a ||| b = 0 ↔ a = 0 ∧ b = 0 := fun a b => BitVec.or_eq_zero_iff
  rw [ne_eq, hz, not_and_or]

theorem has_and (x y flag : Entry) : has (x &&& y) flag = has x (y &&& flag) := by
  unfold has
  rw [BitVec.and_assoc]

theorem has_zero (x : Entry) : has x 0 = false := by
  simp [has]

@[simp] theorem zero_has (flag : Entry) : has 0 flag = false := by
  simp [has]

theorem frameOf_or (h : y &&& pteFrameMask = 0) : frameOf (x ||| y) = frameOf x := by
  have hd : (x ||| y) &&& pteFrameMask = (x &&& pteFrameMask) ||| (y &&& pteFrameMask) := BitVec.and_or_distrib_right
  rw [frameOf, hd, h, show (0 : Entry) = 0#64 from rfl, BitVec.or_zero, frameOf]

/-- Frames: page aligned and below `2 ^ 52`. -/
def IsFrame (f : Nat) : Prop := f % 4096 = 0 ∧ f < 2 ^ 52

theorem toNat_and_frameMask (x : Entry) : frameOf x = x.toNat / 4096 % 2 ^ 40 * 4096 := by
  have hmask : pteFrameMask.toNat = (2 ^ 40 - 1) <<< 12 := by decide
  have hx : x.toNat &&& (2 ^ 40 - 1) <<< 12 = (x.toNat >>> 12 &&& (2 ^ 40 - 1)) <<< 12 := by
    apply Nat.eq_of_testBit_eq
    intro i
    rw [Nat.testBit_and, Nat.testBit_shiftLeft, Nat.testBit_shiftLeft, Nat.testBit_and, Nat.testBit_shiftRight]
    by_cases hi : 12 ≤ i
    · simp [hi, Nat.add_sub_cancel' hi]
    · simp [hi]
  rw [frameOf, BitVec.toNat_and, hmask, hx, Nat.shiftLeft_eq, Nat.and_two_pow_sub_one_eq_mod, Nat.shiftRight_eq_div_pow]

theorem isFrame_frameOf (x : Entry) : IsFrame (frameOf x) := by
  rw [IsFrame, toNat_and_frameMask]
  omega

theorem frameOf_ofNat (h : IsFrame f) : frameOf (BitVec.ofNat 64 f) = f := by
  obtain ⟨h1, h2⟩ := h
  rw [toNat_and_frameMask, BitVec.toNat_ofNat]
  omega

theorem ofNat_and_frameMask (h : IsFrame f) : BitVec.ofNat 64 f &&& pteFrameMask = BitVec.ofNat 64 f := by
  apply BitVec.eq_of_toNat_eq
  have := frameOf_ofNat h
  rw [frameOf] at this
  rw [this, BitVec.toNat_ofNat, Nat.mod_eq_of_lt]
  exact Nat.lt_of_lt_of_le h.2 (by decide)

theorem has_ofNat (h : IsFrame f) (hf : pteFrameMask &&& flag = 0) : has (BitVec.ofNat 64 f) flag = false := by
  rw [← ofNat_and_frameMask h, has_and, hf, has_zero]

theorem has_frame_and (hf : pteFrameMask &&& flag = 0) : has (x &&& pteFrameMask) flag = false := by
  rw [has_and, hf, has_zero]

end Bits

/-- `pmm_alloc` by addresses: every frame is in use and nothing changes, or a free frame becomes used. -/
theorem pmmAlloc_frame {p : Pmm} (h : p.Ok) :
    (pmmAlloc p = (0, p) ∧ ∀ f < 8 * p.bitmapBytes, p.marked f = true) ∨
      ∃ a, IsFrame a ∧ a ≠ 0 ∧ p.marked (a / 4096) = false ∧ pmmAlloc p = (a, allocFrame p a) ∧
        p.clearCount = (allocFrame p a).clearCount + 1 := by
  rcases pmmAlloc_cases h with hfull | ⟨f, hpos, hlt, hm, ha⟩
  · exact .inl hfull
  · have hdiv : 4096 * f / 4096 = f := Nat.mul_div_cancel_left f (by decide)
    refine .inr ⟨4096 * f, ⟨Nat.mul_mod_right _ _, ?_⟩, by omega, by rw [hdiv]; exact hm, ha,
      (clearCount_allocFrame hlt hm).symm⟩
    have := h.size
    omega

theorem pmmAlloc_inRange {p p' : Pmm} {a : Nat} (h : p.Ok) (ha : pmmAlloc p = (a, p')) (hne : a ≠ 0) :
    a / 4096 < 8 * p.bitmapBytes := by
  rcases pmmAlloc_cases h with ⟨he, -⟩ | ⟨f, -, hlt, -, he⟩
  · rw [he] at ha
    cases ha
    exact absurd rfl hne
  · rw [he] at ha
    cases ha
    rwa [Nat.mul_div_cancel_left f (by decide)]

theorem pmmAlloc_balanced {p p' : Pmm} {a : Nat} (h : p.Ok) (ha : pmmAlloc p = (a, p')) : Balanced p p' := by
  rcases pmmAlloc_cases h with ⟨he, -⟩ | ⟨f, -, hlt, hm, he⟩
  · rw [he] at ha
    cases ha
    exact .refl p
  · rw [he] at ha
    cases ha
    exact balanced_allocFrame hlt hm

theorem Pmm.Ok.allocFrame {p : Pmm} (h : p.Ok) (a : Nat) : (allocFrame p a).Ok :=
  ⟨h.size, by rw [marked_allocFrame, h.zero, Bool.true_or]⟩

/-! ## Entries in memory -/

section Slots

variable {m : Mem} {t u i j : Nat} {e : Entry}

theorem entry_setEntry_same : entry (setEntry m t i e) t i = e := read64_write64 m _ e

theorem entry_setEntry_slot (h : i ≠ j) : entry (setEntry m t i e) t j = entry m t j := by
  apply read64_congr
  apply sameOn_write64
  omega

theorem entry_setEntry_table (ht : t % 4096 = 0) (hu : u % 4096 = 0) (h : t ≠ u) (hi : i < 512) (hj : j < 512) :
    entry (setEntry m t i e) u j = entry m u j := by
  apply read64_congr
  apply sameOn_write64
  omega

theorem entry_zeroFrame_same (hi : i < 512) : entry (zeroFrame m t) t i = 0 :=
  read64_fill_zero m (by omega) (by omega)

theorem entry_zeroFrame (ht : t % 4096 = 0) (hu : u % 4096 = 0) (h : t ≠ u) (hj : j < 512) :
    entry (zeroFrame m t) u j = entry m u j := by
  apply read64_congr
  apply sameOn_fill
  omega

theorem entry_copyIn (ht : t % 4096 = 0) (hu : u % 4096 = 0) (h : t ≠ u) (hj : j < 512) {l : List (BitVec 8)}
    (hl : l.length ≤ 4096) : entry (copyIn m t l) u j = entry m u j := by
  apply read64_congr
  apply sameOn_copyIn
  omega

theorem length_initBytes (init : Option (List (BitVec 8))) (n i : Nat) : (initBytes init n i).length ≤ 4096 := by
  unfold initBytes
  split
  · split
    · rw [List.length_take]
      omega
    · exact Nat.zero_le _
  · exact Nat.zero_le _

/-- The copied kernel half: the rest of the memory is as before. -/
theorem entry_copyKernelHalf (ht : t % 4096 = 0) (hu : u % 4096 = 0) (h : t ≠ u) :
    (∀ j < 512, entry (copyKernelHalf m u t) t j = if 256 ≤ j then entry m u j else entry m t j) ∧
      ∀ v, v % 4096 = 0 → v ≠ t → ∀ j < 512, entry (copyKernelHalf m u t) v j = entry m v j := by
  -- after `n` rounds the slots below `256 + n` have been copied
  have hloop : ∀ n ≤ 256, (∀ j < 512, entry ((List.range n).foldl
        (fun m i => setEntry m t (256 + i) (entry m u (256 + i))) m) t j =
          if 256 ≤ j ∧ j < 256 + n then entry m u j else entry m t j) ∧
      ∀ v, v % 4096 = 0 → v ≠ t → ∀ j < 512, entry ((List.range n).foldl
        (fun m i => setEntry m t (256 + i) (entry m u (256 + i))) m) v j = entry m v j := by
    intro n
    induction n with
    | zero =>
      refine fun _ => ⟨fun j _ => ?_, fun v _ _ j _ => rfl⟩
      rw [if_neg (by omega)]; rfl
    | succ n ih =>
      intro hn
      obtain ⟨ih1, ih2⟩ := ih (by omega)
      rw [List.range_succ, List.foldl_append, List.foldl_cons, List.foldl_nil]
      constructor
      · intro j hj
        by_cases he : 256 + n = j
        · rw [← he, entry_setEntry_same, ih2 u hu (Ne.symm h) _ (by omega), if_pos (by omega)]
        · rw [entry_setEntry_slot he, ih1 j hj]
          congr 1
          apply propext
          omega
      · intro v hv hvt j hj
        rw [entry_setEntry_table ht hv (Ne.symm hvt) (by omega) hj, ih2 v hv hvt j hj]
  obtain ⟨h1, h2⟩ := hloop 256 (Nat.le_refl _)
  refine ⟨fun j hj => (h1 j hj).trans ?_, h2⟩
  congr 1
  apply propext
  omega

end Slots

end ToastOS.Mmu
