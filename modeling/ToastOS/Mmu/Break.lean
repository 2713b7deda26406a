import ToastOS.Lib.Run
import ToastOS.Mmu.Vmm

/-!
# The arithmetic of the break

`sys_sbrk` computes the new break in 64 bits, and the heap is near the top of the address space. `sbrk_stays_in_window`:
the break stays between the base and the limit and a call does what `heap.h` says, as long as no request takes
`old_brk + increment` past `2 ^ 64`. A request that does is granted: the sum wraps to an address below the old break,
which passes the test against the limit (`SbrkDone.fits`, `heap_break_wraps`).
-/

namespace ToastOS.Mmu

open ToastOS.Lib

/-- The break is in the window, and the window in the address space. -/
structure HeapWindow (heap : Heap) : Prop where
  low : heap.baseAddr ≤ heap.brk
  high : heap.brk ≤ heap.limit
  limit : heap.limit < 2 ^ 64

/-- The contract of `sys_sbrk` for the break, over the integers: `heap` is the heap before the call. -/
structure SbrkDone (heap : Heap) (increment : Int) (res : Option Nat) (heap' : Heap) : Prop where
  base : heap'.baseAddr = heap.baseAddr
  limit : heap'.limit = heap.limit
  result : ∀ p, res = some p → p = heap.brk
  grown : 0 < increment → res ≠ none → (heap'.brk : Int) = heap.brk + increment ∧ heap'.brk ≤ heap.limit
  refused : 0 < increment → res = none → heap'.brk = heap.brk
  same : increment = 0 → heap'.brk = heap.brk
  shrunk : increment < 0 → (heap'.brk : Int) = max (heap.baseAddr : Int) (heap.brk + increment)

section Call

variable {s s' : MemState} {heap heap' : Heap} {increment : Int} {res : Option Nat}

theorem SbrkDone.window (hd : SbrkDone heap increment res heap') (hw : HeapWindow heap) : HeapWindow heap' := by
  obtain ⟨hlow, hhigh, hlim⟩ := hw
  have hbrk : heap.baseAddr ≤ heap'.brk ∧ heap'.brk ≤ heap.limit := by
    rcases Int.lt_trichotomy increment 0 with hneg | hzero | hpos
    · have := hd.shrunk hneg
      omega
    · rw [hd.same hzero]
      exact ⟨hlow, hhigh⟩
    · cases hres : res with
      | none =>
        rw [hd.refused hpos hres]
        exact ⟨hlow, hhigh⟩
      | some p =>
        have := hd.grown hpos (by rw [hres]; simp)
        omega
  exact ⟨by rw [hd.base]; exact hbrk.1, by rw [hd.limit]; exact hbrk.2, by rw [hd.limit]; exact hlim⟩

/-- A call that returns has set the break to `new_brk`, or left it when there was no room or no memory. -/
theorem sbrk_break (hheap : s.heap = some heap) (hok : sysSbrk s increment = .ok (res, s')) :
    ∃ heap', s'.heap = some heap' ∧ heap'.baseAddr = heap.baseAddr ∧ heap'.limit = heap.limit ∧
      ((increment = 0 ∧ res = some heap.brk ∧ heap'.brk = heap.brk) ∨
        (0 < increment ∧ res = none ∧ heap'.brk = heap.brk) ∨
        (0 < increment ∧ res = some heap.brk ∧ heap'.brk = u64 (heap.brk + increment.toNat) ∧ heap'.brk ≤ heap.limit) ∨
        (increment < 0 ∧ res = some heap.brk ∧ heap'.brk =
          if u64 (-increment).toNat > heap.brk - heap.baseAddr then heap.baseAddr
          else heap.brk - u64 (-increment).toNat)) := by
  unfold sysSbrk at hok
  simp only [hheap] at hok
  split at hok
  · rename_i hzero
    cases hok
    exact ⟨heap, hheap, rfl, rfl, .inl ⟨hzero, rfl, rfl⟩⟩
  split at hok
  · rename_i hpos
    split at hok
    · cases hok
      exact ⟨heap, hheap, rfl, rfl, .inr (.inl ⟨hpos, rfl, rfl⟩)⟩
    rename_i hle
    split at hok
    · cases hok
    · cases hok
      exact ⟨_, rfl, rfl, rfl, .inr (.inl ⟨hpos, rfl, rfl⟩)⟩
    · cases hok
      exact ⟨_, rfl, rfl, rfl, .inr (.inr (.inl ⟨hpos, rfl, rfl, Nat.le_of_not_lt hle⟩))⟩
  · rename_i hzero hpos
    split at hok
    · cases hok
    · cases hok
      exact ⟨_, rfl, rfl, rfl, .inr (.inr (.inr ⟨by omega, rfl, rfl⟩))⟩

theorem sbrkDone_of_fits (hheap : s.heap = some heap) (hw : HeapWindow heap) (hmin : -2 ^ 63 ≤ increment)
    (hfits : heap.brk + increment < 2 ^ 64) (hok : sysSbrk s increment = .ok (res, s')) :
    ∃ heap', s'.heap = some heap' ∧ SbrkDone heap increment res heap' := by
  obtain ⟨hlow, hhigh, hlim⟩ := hw
  obtain ⟨heap', hheap', hbase, hlimit, hcases⟩ := sbrk_break hheap hok
  refine ⟨heap', hheap', hbase, hlimit, ?_, ?_, ?_, ?_, ?_⟩
  · rintro p rfl
    rcases hcases with ⟨-, hres, -⟩ | ⟨-, hres, -⟩ | ⟨-, hres, -⟩ | ⟨-, hres, -⟩ <;> cases hres
    all_goals rfl
  · intro hpos hres
    rcases hcases with ⟨hz, -⟩ | ⟨-, hnone, -⟩ | ⟨-, -, hbrk, hle⟩ | ⟨hneg, -⟩
    · omega
    · exact absurd hnone hres
    · rw [hbrk, u64_of_lt (by omega)] at hle ⊢
      exact ⟨by omega, hle⟩
    · omega
  · intro hpos hnone
    rcases hcases with ⟨hz, -⟩ | ⟨-, -, hbrk⟩ | ⟨-, hres, -⟩ | ⟨hneg, -⟩
    · omega
    · exact hbrk
    · rw [hnone] at hres
      cases hres
    · omega
  · intro hzero
    rcases hcases with ⟨-, -, hbrk⟩ | ⟨hpos, -⟩ | ⟨hpos, -⟩ | ⟨hneg, -⟩
    · exact hbrk
    all_goals omega
  · intro hneg
    rcases hcases with ⟨hz, -⟩ | ⟨hpos, -⟩ | ⟨hpos, -⟩ | ⟨-, -, hbrk⟩
    · omega
    · omega
    · omega
    · rw [hbrk, u64_of_lt (by omega)]
      split <;> omega

/-- The sum that wraps is below the old break, so it is below the limit, and nothing has to be mapped for it. -/
theorem sbrk_wraps (hheap : s.heap = some heap) (hw : HeapWindow heap) (hal : heap.mappedEnd % 4096 = 0)
    (hback : heap.brk ≤ heap.mappedEnd) (hmax : increment < 2 ^ 63) (hwrap : 2 ^ 64 ≤ heap.brk + increment) :
    sysSbrk s increment = .ok (some heap.brk,
      { s with heap := some { heap with brk := (heap.brk + increment - 2 ^ 64).toNat } }) := by
  obtain ⟨-, hhigh, hlim⟩ := hw
  have hpos : increment > 0 := by omega
  have hbrk : u64 (heap.brk + increment.toNat) = (heap.brk + increment - 2 ^ 64).toNat := by
    unfold u64
    omega
  have hup : pageAlignUp (heap.brk + increment - 2 ^ 64).toNat ≤ heap.mappedEnd := by
    unfold pageAlignUp u64
    omega
  have hpages : (pageAlignUp (heap.brk + increment - 2 ^ 64).toNat - heap.mappedEnd + (4096 - 1)) / 4096 = 0 := by omega
  unfold sysSbrk
  simp only [hheap]
  rw [if_neg (by omega), if_pos hpos, hbrk, if_neg (by omega), hpages]
  rfl

theorem SbrkDone.fits (hheap : s.heap = some heap) (hw : HeapWindow heap) (hal : heap.mappedEnd % 4096 = 0)
    (hback : heap.brk ≤ heap.mappedEnd) (hmax : increment < 2 ^ 63) (hok : sysSbrk s increment = .ok (res, s'))
    (hheap' : s'.heap = some heap') (hd : SbrkDone heap increment res heap') : heap.brk + increment < 2 ^ 64 := by
  by_contra hwrap
  have hwrap : 2 ^ 64 ≤ heap.brk + increment := by omega
  rw [sbrk_wraps hheap hw hal hback hmax hwrap] at hok
  cases hok
  cases hheap'
  obtain ⟨-, hhigh, hlim⟩ := hw
  have := (hd.grown (by omega) (by simp)).1
  simp only at this
  omega

end Call

/-! ## Sequences of calls -/

/-- One call of `sys_sbrk`; a panic ends the run. -/
def sbrkStep (s : MemState) (increment : Int) : Option MemState :=
  match sysSbrk s increment with
  | .ok (_, s') => some s'
  | .error _ => none

/-- The increment is an `intptr_t`, and `old_brk + increment` is an address. -/
def NoWrap (s : MemState) (increment : Int) : Prop :=
  -2 ^ 63 ≤ increment ∧ increment < 2 ^ 63 ∧ ∀ heap ∈ s.heap, heap.brk + increment < 2 ^ 64

section Calls

variable {s₀ s : MemState} {heap₀ : Heap}

/-- **The break.** From any heap whose break is in the window, through any calls of `sys_sbrk` that do not take the sum of
break and increment past the address space, the break is in the same window; and in every such state the next call meets the
contract if its sum does not wrap, and only then when the heap is mapped up to its break. -/
theorem sbrk_stays_in_window (hheap : s₀.heap = some heap₀) (hw : HeapWindow heap₀) (hr : Reach sbrkStep NoWrap s₀ s) :
    ∃ heap, s.heap = some heap ∧ heap.baseAddr = heap₀.baseAddr ∧ heap.limit = heap₀.limit ∧
      heap.baseAddr ≤ heap.brk ∧ heap.brk ≤ heap.limit ∧
      ∀ increment res s', -2 ^ 63 ≤ increment → increment < 2 ^ 63 → sysSbrk s increment = .ok (res, s') →
        ∃ heap', s'.heap = some heap' ∧ (heap.brk + increment < 2 ^ 64 → SbrkDone heap increment res heap') ∧
          (heap.mappedEnd % 4096 = 0 → heap.brk ≤ heap.mappedEnd → SbrkDone heap increment res heap' →
            heap.brk + increment < 2 ^ 64) := by
  obtain ⟨heap, hheap, hbase, hlimit, hw⟩ : ∃ heap, s.heap = some heap ∧ heap.baseAddr = heap₀.baseAddr ∧
      heap.limit = heap₀.limit ∧ HeapWindow heap := by
    refine hr.invariant (P := fun s => ∃ heap, s.heap = some heap ∧ heap.baseAddr = heap₀.baseAddr ∧
      heap.limit = heap₀.limit ∧ HeapWindow heap) ⟨heap₀, hheap, rfl, rfl, hw⟩ ?_
    rintro s increment s' ⟨heap, hheap, hbase, hlimit, hw⟩ ⟨hmin, -, hfits⟩ hs
    unfold sbrkStep at hs
    split at hs
    · rename_i res s₁ hok
      cases hs
      obtain ⟨heap', hheap', hd⟩ := sbrkDone_of_fits hheap hw hmin (hfits heap hheap) hok
      exact ⟨heap', hheap', hd.base.trans hbase, hd.limit.trans hlimit, hd.window hw⟩
    · cases hs
  refine ⟨heap, hheap, hbase, hlimit, hw.low, hw.high, fun increment res s' hmin hmax hok => ?_⟩
  obtain ⟨heap', hheap', -⟩ := sbrk_break hheap hok
  refine ⟨heap', hheap', fun hfits => ?_, fun hal hback hd => hd.fits hheap hw hal hback hmax hok hheap'⟩
  obtain ⟨heap'', hheap'', hd⟩ := sbrkDone_of_fits hheap hw hmin hfits hok
  cases hheap'.symm.trans hheap''
  exact hd

theorem heapWindow_initKheap (s : MemState) : ∃ heap, (initKheap s).heap = some heap ∧ HeapWindow heap ∧
    heap.mappedEnd % 4096 = 0 ∧ heap.brk ≤ heap.mappedEnd :=
  ⟨_, rfl, ⟨Nat.le_refl _, Nat.le_add_right _ _, show kheapVirtBase + 1024 * 1024 * 64 < 2 ^ 64 by decide⟩,
    show kheapVirtBase % 4096 = 0 by decide, Nat.le_refl _⟩

/-- Eight frames of zeros: frame 0 is never handed out and frame 2 is the PML4. -/
def eightFrames : MemState :=
  ⟨fun _ => 0, ⟨0, 0, 0, 0, 0, 1, 0, 8, 6, fun _ => 0x05, []⟩, 0x2000, false, 0x2000, none, []⟩

theorem heap_break_grows : ∃ s heap, Reach sbrkStep NoWrap (initKheap eightFrames) s ∧ s.heap = some heap ∧
    heap.brk = kheapVirtBase + 100 ∧ heap.baseAddr ≤ heap.brk ∧ heap.brk ≤ heap.limit := by
  have hrun : (sbrkStep (initKheap eightFrames) 100).bind (fun s => s.heap.map Heap.brk) = some (kheapVirtBase + 100) := by
    decide +kernel
  obtain ⟨s, hs, hbrk⟩ := Option.bind_eq_some_iff.1 hrun
  obtain ⟨heap₁, hheap₁, hbrk⟩ := Option.map_eq_some_iff.1 hbrk
  have hreach : Reach sbrkStep NoWrap (initKheap eightFrames) s := by
    refine .tail .refl ⟨by decide, by decide, ?_⟩ hs
    rintro heap ⟨⟩
    decide
  obtain ⟨heap₀, hheap₀, hw, -⟩ := heapWindow_initKheap eightFrames
  obtain ⟨heap, hheap, -, -, hlow, hhigh, -⟩ := sbrk_stays_in_window hheap₀ hw hreach
  cases hheap₁.symm.trans hheap
  exact ⟨s, heap₁, hreach, hheap, hbrk, hlow, hhigh⟩

/-- A request for all of the address space behind the heap is granted: the break is 0. -/
theorem heap_break_wraps : ∃ heap s', (initKheap eightFrames).heap = some heap ∧ HeapWindow heap ∧
    sysSbrk (initKheap eightFrames) 0x700000000000 = .ok (some heap.brk, s') ∧ s'.heap = some { heap with brk := 0 } ∧
    heap.limit < heap.brk + 0x700000000000 := by
  obtain ⟨heap, hheap, hw, hal, hback⟩ := heapWindow_initKheap eightFrames
  have hbrk : heap.brk = kheapVirtBase := by
    cases hheap
    rfl
  have hlimit : heap.limit = kheapVirtBase + 1024 * 1024 * 64 := by
    cases hheap
    rfl
  have hwrap : (2 : Int) ^ 64 ≤ heap.brk + 0x700000000000 := by
    rw [hbrk]
    decide
  have hcall := sbrk_wraps hheap hw hal hback (by decide) hwrap
  refine ⟨heap, _, hheap, hw, hcall, ?_, by rw [hbrk, hlimit]; decide⟩
  rw [hbrk]
  rfl

end Calls

end ToastOS.Mmu
