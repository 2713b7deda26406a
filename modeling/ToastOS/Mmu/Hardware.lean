import ToastOS.Mmu.Entry

/-!
# The walk of the processor

`hardwareWalk` is the four-level walk of x86-64: the leaf entry of a page of `2 ^ k` bytes has the address of the page in its
bits 51 to `k`. Bit 12 of a 2 MiB or 1 GiB leaf is its PAT bit; the bits between are reserved. `vmm_get_phys` takes bits 51 to
12 of every leaf, so `vmmGetPhys_leaf` is the walk with another address at the end, and `get_phys_exact_iff` says for which
entries the two agree.
-/

namespace ToastOS.Mmu

open ToastOS.Lib

/-- The address in bits 51 to `k` of an entry. -/
def addressBits (e : Entry) (k : Nat) : Nat := e.toNat / 2 ^ k % 2 ^ (52 - k) * 2 ^ k

/-- The walk of `v` from table `t`, by the shifts of the levels that are left: the leaf entry and the shift of its level. A
PML4 entry is never a leaf. -/
def hardwareLeaf (m : Mem) (v : Nat) : List Nat → Nat → Option (Entry × Nat)
  | [], _ => none
  | k :: rest, t =>
    let e := entry m t (v / 2 ^ k % 512)
    if !has e ptePresent then none
    else if rest = [] ∨ k ≠ 39 ∧ has e ptePs = true then some (e, k)
    else hardwareLeaf m v rest (addressBits e 12)

/-- The physical address behind `v`, `none` for a page fault. -/
def hardwareWalk (m : Mem) (ctx v : Nat) : Option Nat :=
  (hardwareLeaf m v [39, 30, 21, 12] ctx).map fun (e, k) => addressBits e k + v % 2 ^ k

section Walk

variable {m : Mem} {ctx v k i t : Nat} {e : Entry} {rest : List Nat}

theorem addressBits_twelve (e : Entry) : addressBits e 12 = frameOf e := by
  rw [toNat_and_frameMask]
  rfl

theorem testBit_addressBits : (addressBits e k).testBit i = (decide (k ≤ i) && decide (i < 52) && e.getLsbD i) := by
  rw [addressBits, ← Nat.shiftLeft_eq, Nat.testBit_shiftLeft, Nat.testBit_mod_two_pow, ← Nat.shiftRight_eq_div_pow,
    Nat.testBit_shiftRight, BitVec.getLsbD]
  by_cases hi : k ≤ i
  · rw [Nat.add_sub_cancel' hi]
    have : i - k < 52 - k ↔ i < 52 := by omega
    simp [hi, this]
  · simp [hi]

theorem testBit_address : (addressBits e k + v % 2 ^ k).testBit i =
    (decide (k ≤ i) && decide (i < 52) && e.getLsbD i || decide (i < k) && v.testBit i) := by
  have hor := Nat.two_pow_add_eq_or_of_lt (i := k) (Nat.mod_lt v (Nat.two_pow_pos k)) (e.toNat / 2 ^ k % 2 ^ (52 - k))
  rw [Nat.mul_comm, ← addressBits] at hor
  rw [hor, Nat.testBit_or, testBit_addressBits, Nat.testBit_mod_two_pow]

/-- What `vmm_get_phys` makes of a leaf entry. -/
def leafPhys (e : Entry) (k v : Nat) : Nat :=
  ((e &&& pteFrameMask) ||| (BitVec.ofNat 64 v &&& BitVec.ofNat 64 (2 ^ k - 1))).toNat

theorem testBit_leafPhys (hk : k ≤ 64) : (leafPhys e k v).testBit i =
    (decide (12 ≤ i) && decide (i < 52) && e.getLsbD i || decide (i < k) && v.testBit i) := by
  have hmask : (e &&& pteFrameMask).toNat.testBit i = (decide (12 ≤ i) && decide (i < 52) && e.getLsbD i) := by
    rw [← testBit_addressBits, addressBits_twelve]
    rfl
  have hoff : (BitVec.ofNat 64 v &&& BitVec.ofNat 64 (2 ^ k - 1)).toNat.testBit i = (decide (i < k) && v.testBit i) := by
    have hle : 2 ^ k ≤ 2 ^ 64 := Nat.pow_le_pow_right (by decide) hk
    have hpos := Nat.two_pow_pos k
    rw [BitVec.toNat_and, BitVec.toNat_ofNat, BitVec.toNat_ofNat, Nat.mod_eq_of_lt (a := 2 ^ k - 1) (by omega),
      Nat.and_two_pow_sub_one_eq_mod, Nat.mod_mod_of_dvd _ (Nat.pow_dvd_pow 2 hk), Nat.testBit_mod_two_pow]
  rw [leafPhys, BitVec.toNat_or, Nat.testBit_or, hmask, hoff]

/-- The two addresses differ in the bits from 12 to the size of the page that the entry has and the address has not. -/
theorem leafPhys_eq_iff (hlo : 12 ≤ k) (hk : k ≤ 52) :
    leafPhys e k v = addressBits e k + v % 2 ^ k ↔ ∀ i, 12 ≤ i → i < k → e.getLsbD i = true → v.testBit i = true := by
  constructor
  · intro h i h12 hik hei
    have hbit := congrArg (fun n => Nat.testBit n i) h
    simp only [testBit_leafPhys (show k ≤ 64 by omega), testBit_address] at hbit
    have h52 : i < 52 := by omega
    have hki : ¬ k ≤ i := by omega
    simpa [h12, h52, hki, hik, hei] using hbit
  · intro h
    apply Nat.eq_of_testBit_eq
    intro i
    rw [testBit_leafPhys (by omega), testBit_address]
    by_cases hik : i < k
    · have h52 : i < 52 := by omega
      have hki : ¬ k ≤ i := by omega
      by_cases h12 : 12 ≤ i
      · have := h i h12 hik
        cases hei : e.getLsbD i <;> simp_all
      · simp [h12, h52, hki, hik]
    · have h12 : 12 ≤ i := by omega
      have hki : k ≤ i := by omega
      simp [h12, hki]

theorem hardwareLeaf_absent (hp : has (entry m t (v / 2 ^ k % 512)) ptePresent = false) :
    hardwareLeaf m v (k :: rest) t = none := by
  simp [hardwareLeaf, hp]

theorem hardwareLeaf_leaf (hp : has (entry m t (v / 2 ^ k % 512)) ptePresent = true)
    (hs : rest = [] ∨ k ≠ 39 ∧ has (entry m t (v / 2 ^ k % 512)) ptePs = true) :
    hardwareLeaf m v (k :: rest) t = some (entry m t (v / 2 ^ k % 512), k) := by
  simp [hardwareLeaf, hp, hs]

theorem hardwareLeaf_next (hp : has (entry m t (v / 2 ^ k % 512)) ptePresent = true)
    (hs : k = 39 ∨ has (entry m t (v / 2 ^ k % 512)) ptePs = false) (hr : rest ≠ []) :
    hardwareLeaf m v (k :: rest) t = hardwareLeaf m v rest (frameOf (entry m t (v / 2 ^ k % 512))) := by
  have hno : ¬ (rest = [] ∨ k ≠ 39 ∧ has (entry m t (v / 2 ^ k % 512)) ptePs = true) := by
    rcases hs with hs | hs <;> simp [hr, hs]
  simp only [hardwareLeaf, hp, Bool.not_true, Bool.false_eq_true, if_false, if_neg hno, addressBits_twelve]

/-- `vmm_get_phys` walks as the processor does, and reads another address from the leaf. -/
theorem vmmGetPhys_leaf (m : Mem) (ctx v : Nat) :
    vmmGetPhys m ctx v = ((hardwareLeaf m v [39, 30, 21, 12] ctx).map fun (e, k) => leafPhys e k v).getD 0 := by
  unfold vmmGetPhys
  simp only
  cases h₁ : has (entry m ctx (pml4Idx v)) ptePresent with
  | false =>
    rw [hardwareLeaf_absent h₁]
    rfl
  | true =>
  rw [hardwareLeaf_next h₁ (.inl rfl) (by simp), ← pml4Idx]
  generalize frameOf (entry m ctx (pml4Idx v)) = pdpt
  cases h₂ : has (entry m pdpt (pdptIdx v)) ptePresent with
  | false =>
    rw [hardwareLeaf_absent h₂]
    rfl
  | true =>
  cases s₂ : has (entry m pdpt (pdptIdx v)) ptePs with
  | true =>
    rw [hardwareLeaf_leaf h₂ (.inr ⟨by decide, s₂⟩)]
    rfl
  | false =>
  rw [hardwareLeaf_next h₂ (.inr s₂) (by simp), ← pdptIdx]
  generalize frameOf (entry m pdpt (pdptIdx v)) = pd
  cases h₃ : has (entry m pd (pdIdx v)) ptePresent with
  | false =>
    rw [hardwareLeaf_absent h₃]
    rfl
  | true =>
  cases s₃ : has (entry m pd (pdIdx v)) ptePs with
  | true =>
    rw [hardwareLeaf_leaf h₃ (.inr ⟨by decide, s₃⟩)]
    rfl
  | false =>
  rw [hardwareLeaf_next h₃ (.inr s₃) (by simp), ← pdIdx]
  generalize frameOf (entry m pd (pdIdx v)) = pt
  cases h₄ : has (entry m pt (ptIdx v)) ptePresent with
  | false =>
    rw [hardwareLeaf_absent h₄]
    rfl
  | true =>
    rw [hardwareLeaf_leaf h₄ (.inl rfl)]
    rfl

theorem hardwareLeaf_mem : ∀ (ks : List Nat) {t : Nat}, hardwareLeaf m v ks t = some (e, k) →
    k ∈ ks ∧ (k = 39 → ks.getLast? = some 39) := by
  intro ks
  induction ks with
  | nil =>
    intro t h
    cases h
  | cons j rest ih =>
    intro t h
    unfold hardwareLeaf at h
    simp only at h
    split at h
    · cases h
    split at h
    · rename_i hleaf
      obtain ⟨-, rfl⟩ := Prod.mk.inj (Option.some.inj h)
      refine ⟨List.mem_cons_self, fun hk => ?_⟩
      rcases hleaf with rfl | ⟨hne, -⟩
      · rw [hk]
        rfl
      · exact absurd hk hne
    · rename_i hnot
      obtain ⟨hmem, hlast⟩ := ih h
      refine ⟨List.mem_cons_of_mem j hmem, fun hk => ?_⟩
      rw [List.getLast?_cons, hlast hk]
      rfl

theorem hardwareLeaf_size (h : hardwareLeaf m v [39, 30, 21, 12] ctx = some (e, k)) : 12 ≤ k ∧ k ≤ 30 := by
  obtain ⟨hmem, hlast⟩ := hardwareLeaf_mem _ h
  have hne : k ≠ 39 := fun hk => absurd (hlast hk) (by decide)
  simp only [List.mem_cons, List.not_mem_nil, or_false] at hmem
  omega

end Walk

/-- Of the leaf entry of `v`: no bit from 12 up to the size of its page is set that `v` has not. For a 4 KiB page there is no
such bit. -/
def LeafBitsIn (m : Mem) (ctx v : Nat) : Prop :=
  ∀ e k, hardwareLeaf m v [39, 30, 21, 12] ctx = some (e, k) → ∀ i, 12 ≤ i → i < k → e.getLsbD i = true → v.testBit i = true

/-- **Translation.** `vmm_get_phys` gives the address of the processor's walk, with 0 for a walk that meets an entry that is
not present and for no other unless its address is 0, exactly when the leaf has no bit below its page's address that is not
in the offset. -/
theorem get_phys_exact_iff (m : Mem) (ctx v : Nat) :
    (vmmGetPhys m ctx v = (hardwareWalk m ctx v).getD 0 ∧
      (vmmGetPhys m ctx v = 0 ↔ hardwareWalk m ctx v = none ∨ hardwareWalk m ctx v = some 0)) ↔ LeafBitsIn m ctx v := by
  have hzero : vmmGetPhys m ctx v = (hardwareWalk m ctx v).getD 0 →
      (vmmGetPhys m ctx v = 0 ↔ hardwareWalk m ctx v = none ∨ hardwareWalk m ctx v = some 0) := by
    intro h
    rw [h]
    generalize hardwareWalk m ctx v = w
    cases w <;> simp
  rw [and_iff_left_of_imp hzero, vmmGetPhys_leaf, hardwareWalk, LeafBitsIn]
  cases hleaf : hardwareLeaf m v [39, 30, 21, 12] ctx with
  | none => simp
  | some x =>
    obtain ⟨e, k⟩ := x
    obtain ⟨hlo, hhi⟩ := hardwareLeaf_size hleaf
    constructor
    · intro h e' k' he
      obtain ⟨rfl, rfl⟩ := Prod.mk.inj (Option.some.inj he)
      exact (leafPhys_eq_iff hlo (by omega)).1 h
    · intro h
      exact (leafPhys_eq_iff hlo (by omega)).2 (h e k rfl)

/-- A 2 MiB page at `0x200000` for the lowest addresses, with the PAT bit. -/
def patMemory : Mem := setEntry (setEntry (setEntry (fun _ => 0) 0x1000 0 0x2003) 0x2000 0 0x3003) 0x3000 0 0x201083

theorem pat_bit_in_address : hardwareWalk patMemory 0x1000 0 = some 0x200000 ∧ vmmGetPhys patMemory 0x1000 0 = 0x201000 := by
  decide +kernel

end ToastOS.Mmu
