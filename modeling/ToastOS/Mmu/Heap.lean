import ToastOS.Mmu.Effects

/-!
# The pages of the kernel heap

`sys_sbrk` works in the window that `init_kheap` reserves. Growing is one `Round` for each page and shrinking one
`Cleared` (`growLoop_rounds`, `shrinkLoop_rounds`); `sbrk_spec` says which pages they are and what becomes of the break
(`HeapOk`).
-/

namespace ToastOS.Mmu

open ToastOS.Lib

def kheapLimit : Nat := kheapVirtBase + 1024 * 1024 * 64

/-- `k_heap` after `init_kheap` and any calls of `sys_sbrk`. -/
structure HeapOk (s : MemState) (heap : Heap) : Prop where
  loaded : s.heap = some heap
  base : heap.baseAddr = kheapVirtBase
  limit : heap.limit = kheapLimit
  ctx : heap.vmmCtx = s.kernelCtx
  flags : heap.flags = vmmFlagsKernelRw
  aligned : heap.mappedEnd % 4096 = 0
  low : kheapVirtBase ≤ heap.brk
  backed : heap.brk ≤ heap.mappedEnd
  high : heap.mappedEnd ≤ kheapLimit

theorem HeapOk.congr {s s' : MemState} {heap : Heap} (h : HeapOk s heap) (hheap : s'.heap = s.heap)
    (hk : s'.kernelCtx = s.kernelCtx) : HeapOk s' heap :=
  { h with loaded := hheap.trans h.loaded, ctx := h.ctx.trans hk.symm }

theorem heapOk_initKheap (s : MemState) : ∃ heap, HeapOk (initKheap s) heap ∧ heap.mappedEnd = kheapVirtBase :=
  ⟨_, ⟨rfl, rfl, rfl, rfl, rfl, show kheapVirtBase % 4096 = 0 by decide, Nat.le_refl _, Nat.le_refl _,
    show kheapVirtBase ≤ kheapLimit by decide⟩, rfl⟩

/-- The increments of the contract: an `intptr_t` that does not take the break past the end of the address space. -/
def FitsBreak (heap : Heap) (increment : Int) : Prop :=
  -2 ^ 63 ≤ increment ∧ increment < 2 ^ 63 ∧ 0 ≤ heap.brk + increment ∧ heap.brk + increment < 2 ^ 64

/-- Increments that do not take the break out of the address space, wherever in its window it is. -/
def SmallIncrement (increment : Int) : Prop := -2 ^ 46 ≤ increment ∧ increment ≤ 2 ^ 46

theorem HeapOk.fits {s : MemState} {heap : Heap} (hh : HeapOk s heap) {increment : Int} (h : SmallIncrement increment) :
    FitsBreak heap increment := by
  obtain ⟨h1, h2⟩ := h
  have hlow := hh.low
  have hback := hh.backed
  have hhigh := hh.high
  unfold kheapLimit at hhigh
  unfold kheapVirtBase at hlow hhigh
  refine ⟨?_, ?_, ?_, ?_⟩ <;> omega

/-! ## Reading a mapped page -/

section Walk

variable {m : Mem} {s s' : MemState} {own own' : Label} {c v pt i : Nat} {p : Pmm}

/-- Where there is a page table, `vmm_get_phys` reads the leaf entry. -/
theorem phys_of_walk (h : walk (child m) c (tablePath v) = some pt) :
    vmmGetPhys m c v = if has (entry m pt (ptIdx v)) ptePresent then physOf (entry m pt (ptIdx v)) 0 v else 0 := by
  simp only [tablePath, walk, Option.bind_eq_some_iff] at h
  obtain ⟨t₁, h₁, t₂, h₂, t₃, h₃, h⟩ := h
  cases h
  obtain ⟨hp₁, -, rfl⟩ := present_of_child h₁
  obtain ⟨hp₂, hs₂, rfl⟩ := present_of_child h₂
  obtain ⟨hp₃, hs₃, rfl⟩ := present_of_child h₃
  unfold vmmGetPhys
  simp only [hp₁, hp₂, hs₂, hp₃, hs₃, Bool.not_true, Bool.false_eq_true, if_false]
  by_cases hp : has (entry m (frameOf (entry m (frameOf (entry m (frameOf (entry m c (pml4Idx v))) (pdptIdx v))) (pdIdx v)))
      (ptIdx v)) ptePresent = true
  · simp only [hp, Bool.not_true, Bool.false_eq_true, if_false, if_true]
    rfl
  · simp only [hp, Bool.not_false, if_true, Bool.false_eq_true, if_false]

theorem treeRoot_kernel (s : MemState) (v : Nat) : treeRoot s s.kernelCtx v = s.kernelCtx := by
  unfold treeRoot
  split <;> rfl

theorem unmap_pmm (h : vmmUnmapPage { s with pmm := p } c v = .ok s') :
    ∃ s₁, vmmUnmapPage s c v = .ok s₁ ∧ s' = { s₁ with pmm := p } := by
  unfold vmmUnmapPage at h ⊢
  simp only at h ⊢
  split at h
  · rename_i hp
    rw [if_pos hp]
    cases h
    exact ⟨s, rfl, rfl⟩
  rename_i hp
  rw [if_neg hp]
  split at h
  · rename_i hp₂
    rw [if_pos hp₂]
    cases h
    exact ⟨s, rfl, rfl⟩
  rename_i hp₂
  rw [if_neg hp₂]
  split at h
  · cases h
  rename_i hs₂
  rw [if_neg hs₂]
  split at h
  · rename_i hp₃
    rw [if_pos hp₃]
    cases h
    exact ⟨s, rfl, rfl⟩
  rename_i hp₃
  rw [if_neg hp₃]
  split at h
  · cases h
  rename_i hs₃
  rw [if_neg hs₃]
  split at h
  · rename_i hp₄
    rw [if_pos hp₄]
    cases h
    exact ⟨s, rfl, rfl⟩
  rename_i hp₄
  rw [if_neg hp₄]
  cases h
  exact ⟨_, rfl, rfl⟩

theorem cleared_of_unmap (ho : Owned s own) (hw : InWindow v) (hv : v % 4096 = 0)
    (hok : vmmUnmapPage (if vmmGetPhys s.mem s.kernelCtx v ≠ 0 then
      { s with pmm := pmmFree s.pmm (vmmGetPhys s.mem s.kernelCtx v) } else s) s.kernelCtx v = .ok s') :
    ∃ own', Cleared s.kernelCtx v s own s' own' := by
  have hsplit : ∃ s₁, vmmUnmapPage s s.kernelCtx v = .ok s₁ ∧
      s' = { s₁ with pmm := if vmmGetPhys s.mem s.kernelCtx v ≠ 0 then pmmFree s.pmm (vmmGetPhys s.mem s.kernelCtx v)
                            else s.pmm } := by
    split at hok
    · rename_i hne
      rw [if_pos hne]
      exact unmap_pmm hok
    · rename_i heq
      rw [if_neg heq]
      exact unmap_pmm (p := s.pmm) hok
  obtain ⟨s₁, hun, rfl⟩ := hsplit
  have hroot := treeRoot_kernel s v
  have hin : Inside s.kernelCtx s.kernelCtx (tablePath v) := by
    have hin := inside_tablePath s s.kernelCtx v
    rwa [hroot] at hin
  cases unmap_spec ho.trees ho.shared ho.trees.kernel hun with
  | absent habsent =>
    rw [hroot] at habsent
    rw [phys_of_unmap_nothing hun rfl]
    refine ⟨own, .absent fun f hf => ?_⟩
    obtain ⟨-, pt, hpt, hpres, -⟩ := ho.pages.page hf rfl
    rw [habsent pt hpt] at hpres
    cases hpres
  | @unmapped pt table present =>
    rw [hroot] at table
    have hwalk := (ho.trees.walk_iff ho.trees.kernel hin).2 table
    have hpage := ho.pages.entry table rfl (ptIdx_lt v) hw.tracked present
    rw [phys_of_walk hwalk, if_pos present, physOf_page, hv, Nat.add_zero]
    have hpos := (ho.pages.taken hpage (Or.inr (show 3 < 4 by decide))).1
    rw [if_pos hpos]
    exact ⟨_, .freed hpage table _⟩

end Walk

/-! ## The loops -/

/-- The pages below `top`, from the highest down. -/
def pagesBelow (top n : Nat) : List Nat := (List.range n).map fun j => top - (j + 1) * 4096

theorem pagesBelow_succ (top n : Nat) : pagesBelow top (n + 1) = (top - 4096) :: pagesBelow (top - 4096) n := by
  rw [pagesBelow, List.range_succ_eq_map, List.map_cons, List.map_map, pagesBelow]
  refine congrArg₂ List.cons (by omega) (List.map_congr_left fun j _ => ?_)
  show top - (j + 1 + 1) * 4096 = top - 4096 - (j + 1) * 4096
  omega

theorem pagesFrom_shift (v i m : Nat) : pagesFrom v (i + 1) m = pagesFrom (v + 4096) i m := by
  induction m generalizing i with
  | zero => rfl
  | succ m ih =>
    rw [pagesFrom_succ, pagesFrom_succ, ih]
    exact congrArg₂ List.cons (by omega) rfl

theorem pagesFrom_one_more (v m : Nat) : pagesFrom v 0 (m + 1) = v :: pagesFrom (v + 4096) 0 m := by
  rw [pagesFrom_succ, pagesFrom_shift, Nat.zero_mul, Nat.add_zero]

section Loops

variable {s s' : MemState} {own : Label} {heap : Heap}

theorem heapFlags_user : has vmmFlagsKernelRw pteUser = false := by decide

theorem Round.heap_effect {b : Bool} {r v : Nat} {own' : Label} (ho : Owned s own) (hw : InWindow v)
    (h : Round b r vmmFlagsKernelRw v s own s' own') : Effect r s own s' own' :=
  h.effect ho (fun hu => by rw [heapFlags_user] at hu; cases hu) (by decide) hw.tracked

theorem growLoop_rounds {done : Bool} {top : Nat} (hf : heap.flags = vmmFlagsKernelRw) :
    ∀ (n mapped : Nat) {s : MemState} {own : Label}, Owned s own → heap.vmmCtx = s.kernelCtx →
      (∀ x ∈ pagesFrom mapped 0 n, InWindow x) → growLoop heap n mapped s = .ok (done, top, s') →
      ∃ m own', m ≤ n ∧ top = mapped + m * 4096 ∧
        Rounds (Round false s.kernelCtx vmmFlagsKernelRw) (pagesFrom mapped 0 m) s own s' own' ∧
        (done = true → m = n) ∧ (done = false → m < n ∧ Exhausted s') := by
  intro n
  induction n with
  | zero =>
    intro mapped s own ho hctx hw hok
    cases hok
    exact ⟨0, own, Nat.le_refl 0, by omega, .nil, fun _ => rfl, fun h => by cases h⟩
  | succ n ih =>
    intro mapped s own ho hctx hw hok
    unfold growLoop at hok
    simp only at hok
    split at hok
    · -- out of frames
      rename_i hzero
      cases hok
      rcases pmmAlloc_frame ho.trees.pmm with ⟨ha, hfull⟩ | ⟨a, -, hpos, -, ha, -⟩
      · rw [ha]
        refine ⟨0, own, Nat.zero_le _, by omega, .nil, ?_, fun _ => ⟨Nat.succ_pos n, hfull⟩⟩
        intro h
        cases h
      · rw [ha] at hzero
        exact absurd hzero hpos
    · rename_i hne
      have took := (took_of_alloc ho rfl hne (l := []) (by simp)).1
      rw [pagesFrom_one_more] at hw
      split at hok
      · cases hok
      · rename_i res s₂ heq
        rw [hctx, hf] at heq
        have hround : ∃ own₂, Round false s.kernelCtx vmmFlagsKernelRw mapped s own s₂ own₂ := by
          rcases round_of_map (b := false) ho took ho.trees.kernel (fun hu => by rw [heapFlags_user] at hu; cases hu) heq with
            ⟨-, own₂, hround⟩ | ⟨-, own₂, hround⟩
          · exact ⟨own₂, treeRoot_kernel s mapped ▸ hround⟩
          · exact ⟨own₂, treeRoot_kernel s mapped ▸ hround⟩
        obtain ⟨own₂, hround⟩ := hround
        have heff := hround.heap_effect ho (hw mapped List.mem_cons_self)
        obtain ⟨m, own₃, hm, htop, hrest, hdone, hfail⟩ := ih (mapped + 4096) heff.owned (hctx.trans heff.kernelCtx.symm)
          (fun x hx => hw x (List.mem_cons_of_mem _ hx)) hok
        rw [heff.kernelCtx] at hrest
        refine ⟨m + 1, own₃, by omega, by omega, ?_, fun h => by rw [hdone h], fun h => ⟨by have := (hfail h).1; omega,
          (hfail h).2⟩⟩
        rw [pagesFrom_one_more]
        exact .cons hround hrest

theorem shrinkLoop_rounds {top : Nat} :
    ∀ (n mapped : Nat) {s : MemState} {own : Label}, Owned s own → heap.vmmCtx = s.kernelCtx → mapped % 4096 = 0 →
      (∀ x ∈ pagesBelow mapped n, InWindow x) → shrinkLoop heap n mapped s = .ok (top, s') →
      top = mapped - n * 4096 ∧ ∃ own', Rounds (Cleared s.kernelCtx) (pagesBelow mapped n) s own s' own' := by
  intro n
  induction n with
  | zero =>
    intro mapped s own ho hctx hal hw hok
    cases hok
    exact ⟨by omega, own, .nil⟩
  | succ n ih =>
    intro mapped s own ho hctx hal hw hok
    rw [pagesBelow_succ] at hw ⊢
    unfold shrinkLoop at hok
    simp only [hctx] at hok
    split at hok
    · cases hok
    · rename_i s₂ heq
      obtain ⟨own₂, hclear⟩ := cleared_of_unmap ho (hw _ List.mem_cons_self) (by omega) heq
      have heff := hclear.effect ho (hw _ List.mem_cons_self).tracked
      obtain ⟨htop, own₃, hrest⟩ := ih (mapped - 4096) heff.owned (hctx.trans heff.kernelCtx.symm) (by omega)
        (fun x hx => hw x (List.mem_cons_of_mem _ hx)) hok
      rw [heff.kernelCtx] at hrest
      exact ⟨by omega, own₃, .cons hclear hrest⟩

end Loops

/-! ## `sys_sbrk` -/

/-- What a call does: nothing, or pages are added up to the new break or until there are no frames, or pages above it
are given up. -/
inductive SbrkResult (s : MemState) (own : Label) (heap : Heap) (increment : Int) : Option Nat → MemState → Label → Prop
  | zero (h : increment = 0) : SbrkResult s own heap increment (some heap.brk) s own
  | refused (h : 0 < increment) (high : (kheapLimit : Int) < heap.brk + increment) :
      SbrkResult s own heap increment none s own
  | grown {m n s₁ own'} (h : 0 < increment) (need : pageAlignUp (heap.brk + increment.toNat) ≤ heap.mappedEnd + n * 4096)
      (fits : n = 0 ∨ heap.mappedEnd + n * 4096 = pageAlignUp (heap.brk + increment.toNat))
      (window : heap.brk + increment.toNat ≤ kheapLimit) (le : m ≤ n) (out : m < n → Exhausted s₁)
      (rounds : Rounds (Round false s.kernelCtx vmmFlagsKernelRw) (pagesFrom heap.mappedEnd 0 m) s own s₁ own') :
      SbrkResult s own heap increment (if m = n then some heap.brk else none)
        { s₁ with heap := some { heap with
            mappedEnd := heap.mappedEnd + m * 4096, brk := if m = n then heap.brk + increment.toNat else heap.brk } } own'
  | shrunk {newBrk n s₁ own'} (h : increment < 0) (brk : newBrk = max kheapVirtBase (heap.brk - (-increment).toNat))
      (keep : heap.mappedEnd - n * 4096 = pageAlignUp newBrk)
      (rounds : Rounds (Cleared s.kernelCtx) (pagesBelow heap.mappedEnd n) s own s₁ own') :
      SbrkResult s own heap increment (some heap.brk)
        { s₁ with heap := some { heap with mappedEnd := heap.mappedEnd - n * 4096, brk := newBrk } } own'

section Sbrk

variable {s s' : MemState} {own : Label} {heap : Heap} {increment : Int} {res : Option Nat}

theorem pageAlignUp_eq {x : Nat} (h : x ≤ kheapLimit) : pageAlignUp x = (x + 4095) / 4096 * 4096 := by
  have hx : x + (4096 - 1) < 2 ^ 64 := by
    unfold kheapLimit kheapVirtBase at h
    omega
  rw [pageAlignUp, u64_of_lt hx]

theorem sbrk_spec (ho : Owned s own) (hh : HeapOk s heap) (hfits : FitsBreak heap increment)
    (hok : sysSbrk s increment = .ok (res, s')) : ∃ own', SbrkResult s own heap increment res s' own' := by
  obtain ⟨hlo, hhi, hnn, hwrap⟩ := hfits
  have haligned := hh.aligned
  have hlow := hh.low
  have hback := hh.backed
  have hhigh := hh.high
  have hbase : kheapVirtBase % 4096 = 0 := by decide
  have hlim : kheapLimit % 4096 = 0 := by decide
  have hbl : kheapVirtBase ≤ kheapLimit := by decide
  unfold sysSbrk at hok
  rw [hh.loaded] at hok
  simp only at hok
  split at hok
  · rename_i hz
    cases hok
    exact ⟨own, .zero hz⟩
  rename_i hz
  split at hok
  · rename_i hpos
    have hbrk : u64 (heap.brk + increment.toNat) = heap.brk + increment.toNat := u64_of_lt (by omega)
    rw [hbrk] at hok
    split at hok
    · rename_i hgt
      rw [hh.limit] at hgt
      cases hok
      exact ⟨own, .refused hpos (by omega)⟩
    rename_i hle
    rw [hh.limit] at hle
    have hup := pageAlignUp_eq (Nat.le_of_not_lt hle)
    obtain ⟨up, hup'⟩ : ∃ up, pageAlignUp (heap.brk + increment.toNat) = up := ⟨_, rfl⟩
    rw [hup'] at hok hup
    have hwin : ∀ n, (n = 0 ∨ heap.mappedEnd + n * 4096 ≤ kheapLimit) → ∀ x ∈ pagesFrom heap.mappedEnd 0 n, InWindow x := by
      intro n hn x hx
      obtain ⟨j, -, hj, rfl⟩ := mem_pagesFrom.1 hx
      refine ⟨by omega, ?_⟩
      show heap.mappedEnd + j * 4096 < kheapLimit
      omega
    split at hok
    · cases hok
    · rename_i top s₁ heq
      cases hok
      obtain ⟨m, own', hm, htop, hrounds, -, hfail⟩ := growLoop_rounds hh.flags _ _ ho hh.ctx (hwin _ (by omega)) heq
      obtain ⟨hlt, hex⟩ := hfail rfl
      have hres := SbrkResult.grown hpos (by rw [hup']; omega) (by rw [hup']; omega) (Nat.le_of_not_lt hle) hm
        (fun _ => hex) hrounds
      rw [if_neg (Nat.ne_of_lt hlt), if_neg (Nat.ne_of_lt hlt), ← htop] at hres
      exact ⟨own', hres⟩
    · rename_i top s₁ heq
      cases hok
      obtain ⟨m, own', hm, htop, hrounds, hdone, -⟩ := growLoop_rounds hh.flags _ _ ho hh.ctx (hwin _ (by omega)) heq
      have hmn := hdone rfl
      have hres := SbrkResult.grown hpos (by rw [hup']; omega) (by rw [hup']; omega) (Nat.le_of_not_lt hle) hm
        (fun hlt => absurd hmn (Nat.ne_of_lt hlt)) hrounds
      rw [if_pos hmn, if_pos hmn, ← htop] at hres
      exact ⟨own', hres⟩
  · rename_i hneg
    have hshrink : u64 (-increment).toNat = (-increment).toNat := u64_of_lt (by omega)
    rw [hshrink] at hok
    obtain ⟨newBrk, hnew⟩ : ∃ n, (if (-increment).toNat > heap.brk - heap.baseAddr then heap.baseAddr
        else heap.brk - (-increment).toNat) = n := ⟨_, rfl⟩
    rw [hnew] at hok
    have hbrk : newBrk = max kheapVirtBase (heap.brk - (-increment).toNat) := by
      rw [← hnew, hh.base]
      split <;> omega
    have hup := pageAlignUp_eq (x := newBrk) (by omega)
    split at hok
    · cases hok
    · rename_i top s₁ heq
      cases hok
      obtain ⟨htop, own', hrounds⟩ := shrinkLoop_rounds _ _ ho hh.ctx haligned (by
        intro x hx
        obtain ⟨j, hj, rfl⟩ := List.mem_map.1 hx
        have := List.mem_range.1 hj
        refine ⟨by omega, ?_⟩
        show heap.mappedEnd - (j + 1) * 4096 < kheapLimit
        omega) heq
      have hres := SbrkResult.shrunk (by omega) hbrk (by rw [hup]; omega) hrounds
      rw [← htop] at hres
      exact ⟨own', hres⟩

/-- The pages that growing adds and shrinking removes are in the window. -/
theorem HeapOk.grow_window (hh : HeapOk s heap) {m n : Nat} (hm : m ≤ n)
    (hfits : n = 0 ∨ heap.mappedEnd + n * 4096 = pageAlignUp (heap.brk + increment.toNat))
    (hw : heap.brk + increment.toNat ≤ kheapLimit) {x : Nat} (hx : x ∈ pagesFrom heap.mappedEnd 0 m) : InWindow x := by
  obtain ⟨j, -, hj, rfl⟩ := mem_pagesFrom.1 hx
  have hup := pageAlignUp_eq hw
  have hlow := hh.low
  have hback := hh.backed
  have hlim : kheapLimit % 4096 = 0 := by decide
  refine ⟨by omega, ?_⟩
  show heap.mappedEnd + j * 4096 < kheapLimit
  omega

theorem HeapOk.shrink_window (hh : HeapOk s heap) {newBrk n : Nat}
    (hb : newBrk = max kheapVirtBase (heap.brk - (-increment).toNat)) (hkeep : heap.mappedEnd - n * 4096 = pageAlignUp newBrk)
    {x : Nat} (hx : x ∈ pagesBelow heap.mappedEnd n) : InWindow x := by
  obtain ⟨j, hj, rfl⟩ := List.mem_map.1 hx
  have hj := List.mem_range.1 hj
  have hback := hh.backed
  have hhigh := hh.high
  have hpos : 0 < kheapVirtBase := by decide
  have hup := pageAlignUp_eq (x := newBrk) (by have hbl : kheapVirtBase ≤ kheapLimit := (by decide); omega)
  refine ⟨by omega, ?_⟩
  show heap.mappedEnd - (j + 1) * 4096 < kheapLimit
  omega

/-- A call is a change in the kernel's tree and of the heap's own fields, which stay in order. -/
theorem SbrkResult.effect {own' : Label} (ho : Owned s own) (hh : HeapOk s heap)
    (h : SbrkResult s own heap increment res s' own') :
    ∃ heap' s₁, Effect s.kernelCtx s own s₁ own' ∧ s' = { s₁ with heap := some heap' } ∧ HeapOk s' heap' := by
  have haligned := hh.aligned
  have hlow := hh.low
  have hback := hh.backed
  have hhigh := hh.high
  have hlim : kheapLimit % 4096 = 0 := by decide
  have hsame : ∃ heap' s₁, Effect s.kernelCtx s own s₁ own ∧ s = { s₁ with heap := some heap' } ∧ HeapOk s heap' :=
    ⟨heap, s, .refl ho _, by rw [← hh.loaded], hh⟩
  cases h with
  | zero => exact hsame
  | refused => exact hsame
  | @grown m n s₁ _ hpos need fits window le out rounds =>
    have heff : Effect s.kernelCtx s own s₁ own' :=
      rounds.effect ho fun hv ho hr => hr.heap_effect ho (hh.grow_window le fits window hv)
    have hup := pageAlignUp_eq window
    refine ⟨_, s₁, heff, rfl, rfl, hh.base, hh.limit, hh.ctx.trans heff.kernelCtx.symm, hh.flags, ?_, ?_, ?_, ?_⟩
    · show (heap.mappedEnd + m * 4096) % 4096 = 0
      omega
    · show kheapVirtBase ≤ if m = n then heap.brk + increment.toNat else heap.brk
      split <;> omega
    · show (if m = n then heap.brk + increment.toNat else heap.brk) ≤ heap.mappedEnd + m * 4096
      split <;> omega
    · show heap.mappedEnd + m * 4096 ≤ kheapLimit
      omega
  | @shrunk newBrk n s₁ _ hneg hbrk keep rounds =>
    have heff : Effect s.kernelCtx s own s₁ own' :=
      rounds.effect ho fun hv ho hr => hr.effect ho (hh.shrink_window hbrk keep hv).tracked
    have hup := pageAlignUp_eq (x := newBrk) (by have hbl : kheapVirtBase ≤ kheapLimit := (by decide); omega)
    refine ⟨_, s₁, heff, rfl, rfl, hh.base, hh.limit, hh.ctx.trans heff.kernelCtx.symm, hh.flags, ?_, ?_, ?_, ?_⟩
    · show (heap.mappedEnd - n * 4096) % 4096 = 0
      omega
    · show kheapVirtBase ≤ newBrk
      omega
    · show newBrk ≤ heap.mappedEnd - n * 4096
      omega
    · show heap.mappedEnd - n * 4096 ≤ kheapLimit
      omega

theorem Owned.setHeap (ho : Owned s own) (h : Option Heap) : Owned { s with heap := h } own :=
  ho.keep (fun _ _ _ _ _ => rfl) rfl rfl ho.trees.pmm fun _ _ hf => (ho.trees.frame hf).2

end Sbrk

end ToastOS.Mmu
