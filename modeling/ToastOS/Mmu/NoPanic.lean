import ToastOS.Mmu.Heap

/-!
# The heap does not meet a huge page

`vmm_map_page` and `vmm_unmap_page` panic when the walk comes to a huge page. Where no slot on the way holds one
(`NotHuge`) they return, and the walk does not create one. The window of the heap stays free of them (`NoHugeWindow`), so
`sys_sbrk` returns from every state of a run (`sbrk_returns`).
-/

namespace ToastOS.Mmu

open ToastOS.Lib

/-- The walks to the pages of the heap meet no huge page. -/
def NoHugeWindow (s : MemState) (own : Label) : Prop := ∀ v, InWindow v → NotHuge s own s.kernelCtx v

section Huge

variable {s s' : MemState} {own own' : Label} {r c v pt : Nat} {flags : Entry} {b : Bool}

theorem NotHuge.write {i : Nat} {e : Entry} {l : Nat × List Nat} {o : Option Nat} {w : Nat} (h : NotHuge s own r v)
    (ht : Trees s own) (hpt : own pt = some (c, tablePath w)) (hi : i < 512) (hl : 3 < l.2.length)
    (ho : ∀ n, o = some n → own n = none) (hmem : s'.mem = setEntry s.mem pt i e) : NotHuge s' (relabel own l o) r v := by
  intro t q j hlt hpre hp
  have hlen := hpre.length_le
  rw [List.length_append, List.length_singleton, tablePath_length] at hlen
  exact h.leaf ht hpt hi hmem t q j ((relabel_table hl ho (by omega)).1 hlt) hpre hp

theorem Round.notHuge {w : Nat} (ho : Owned s own) (h : Round b r flags w s own s' own') (hn : NotHuge s own c v) :
    NotHuge s' own' c v := by
  cases h with
  | mapped took grow table log =>
    exact ((hn.keep took.same).grow grow).write grow.trees table (ptIdx_lt w) (by rw [pagePath_length]; decide)
      (took.unlabelled ho grow) rfl
  | failed took grow path =>
    have hgrown := (hn.keep took.same).grow grow
    cases b with
    | true => exact hgrown
    | false => exact hgrown

theorem Cleared.notHuge {w : Nat} (ho : Owned s own) (h : Cleared r w s own s' own') (hn : NotHuge s own c v) :
    NotHuge s' own' c v := by
  cases h with
  | absent => exact hn
  | freed page table log =>
    exact hn.write ho.trees table (ptIdx_lt w) (by rw [pagePath_length]; decide) (by simp) rfl

/-! ## `vmm_user_alloc` -/

/-- With four frames for each page, three of them for tables, all pages are mapped. -/
theorem userAllocLoop_ok (hf : flags &&& pteFrameMask = 0) (init : Option (List (BitVec 8))) (initLen : Nat) :
    ∀ (n i : Nat) {s : MemState} {own : Label}, Owned s own → own c = some (c, []) →
      (∀ j < i + n, v + j * 4096 < userSpaceEnd) → 4 * n ≤ s.pmm.clearCount →
      ∃ t own', userAllocLoop c v flags init initLen n i s = .ok (0, t) ∧ Effect c s own t own' ∧
        (∀ k x, NotHuge s own k x → NotHuge t own' k x) ∧ s.pmm.clearCount ≤ t.pmm.clearCount + 4 * n := by
  intro n
  induction n with
  | zero => exact fun i s own ho _ _ _ => ⟨s, own, rfl, .refl ho c, fun _ _ h => h, Nat.le_refl _⟩
  | succ n ih =>
    intro i s own ho hc hlow hfree
    have hv := hlow i (by omega)
    rcases pmmAlloc_frame ho.trees.pmm with ⟨-, hfull⟩ | ⟨a, -, hne, -, ha, -⟩
    · have := clearCount_eq_zero hfull
      omega
    have took := (took_of_alloc ho ha hne (length_initBytes init initLen i)).2
    have h₁ := (took.effect ho c).owned
    have hcount := took.count
    obtain ⟨s₂, hmap, hle⟩ := map_ok a (flags ||| pteUser) h₁.trees h₁.shared hc
      (notHuge_low h₁.trees (low_index hv)) (fun _ => hv) (by omega)
    rcases round_of_map (b := true) ho took hc (fun _ => hv) hmap with ⟨-, own₂, hround⟩ | ⟨hn, -⟩
    · rw [treeRoot_low hv] at hround
      have heff := hround.effect ho (fun _ => hv) (frame_or_user hf) (tracked_low hv)
      obtain ⟨t, own', hloop, heff', hhuge, hle'⟩ :=
        ih (i + 1) heff.owned (heff.tables (by simp) hc) (fun j hj => hlow j (by omega)) (by omega)
      refine ⟨t, own', ?_, heff.trans heff', fun k x hn => hhuge k x (hround.notHuge ho hn), by omega⟩
      unfold userAllocLoop
      simp only [ha, hne, if_false, hmap]
      exact hloop
    · exact absurd rfl hn

theorem userAlloc_ok {len initLen : Nat} (hf : flags &&& pteFrameMask = 0) (init : Option (List (BitVec 8)))
    (ho : Owned s own) (hc : own c = some (c, [])) (hv : v % 4096 = 0) (hlow : v + len ≤ userSpaceEnd) (hpos : 0 < len)
    (hinit : initLen ≤ len) (hfree : 4 * ((len + 4096 - 1) / 4096) ≤ s.pmm.clearCount) :
    ∃ t own', vmmUserAlloc s c v len flags init initLen = .ok (0, t) ∧ Effect c s own t own' ∧
      (∀ k x, NotHuge s own k x → NotHuge t own' k x) ∧
      s.pmm.clearCount ≤ t.pmm.clearCount + 4 * ((len + 4096 - 1) / 4096) := by
  rw [vmmUserAlloc, if_neg (not_not.2 hv), if_neg (Nat.ne_of_gt hpos), if_neg (by omega), if_neg (by omega)]
  exact userAllocLoop_ok hf init initLen _ 0 ho hc (fun j hj => by omega) hfree

/-! ## `sys_sbrk` -/

theorem unmap_returns_pmm {p : Pmm} (h : vmmUnmapPage s c v = .ok s') :
    ∃ s₁, vmmUnmapPage { s with pmm := p } c v = .ok s₁ := by
  cases hs : vmmUnmapPage { s with pmm := p } c v with
  | ok s₁ => exact ⟨s₁, rfl⟩
  | error e =>
    exfalso
    unfold vmmUnmapPage at h hs
    simp only at h hs
    grind

theorem Round.noHugeWindow {w : Nat} (ho : Owned s own) (hw : InWindow w) (h : Round b r vmmFlagsKernelRw w s own s' own')
    (hn : NoHugeWindow s own) : NoHugeWindow s' own' := by
  intro v hv
  rw [(h.heap_effect ho hw).kernelCtx]
  exact h.notHuge ho (hn v hv)

theorem Cleared.noHugeWindow {w : Nat} (ho : Owned s own) (hw : InWindow w) (h : Cleared r w s own s' own')
    (hn : NoHugeWindow s own) : NoHugeWindow s' own' := by
  intro v hv
  rw [(h.effect ho hw.tracked).kernelCtx]
  exact h.notHuge ho (hn v hv)

theorem NoHugeWindow.root (hn : NoHugeWindow s own) (hv : InWindow v) : NotHuge s own (treeRoot s s.kernelCtx v) v := by
  rw [treeRoot_kernel]
  exact hn v hv

theorem growLoop_returns {heap : Heap} (hf : heap.flags = vmmFlagsKernelRw) : ∀ (n mapped : Nat) {s : MemState} {own : Label},
    Owned s own → NoHugeWindow s own → heap.vmmCtx = s.kernelCtx → (∀ x ∈ pagesFrom mapped 0 n, InWindow x) →
    ∃ res, growLoop heap n mapped s = .ok res := by
  intro n
  induction n with
  | zero => exact fun _ _ _ _ _ _ _ => ⟨_, rfl⟩
  | succ n ih =>
    intro mapped s own ho hn hctx hw
    rw [pagesFrom_one_more] at hw
    have hin := hw mapped List.mem_cons_self
    unfold growLoop
    simp only [hctx, hf]
    split
    · exact ⟨_, rfl⟩
    · rename_i hne
      have took := (took_of_alloc ho rfl hne (l := []) (by simp)).1
      have htook := (took.effect ho s.kernelCtx).owned
      obtain ⟨res, s₂, hmap⟩ := map_returns (pmmAlloc s.pmm).1 vmmFlagsKernelRw htook.trees htook.shared
        htook.trees.kernel (NoHugeWindow.root (fun v hv => (hn v hv).keep took.same) hin)
      have hmap' : vmmMapPage { s with pmm := (pmmAlloc s.pmm).2 } s.kernelCtx mapped (pmmAlloc s.pmm).1 vmmFlagsKernelRw =
          .ok (res, s₂) := hmap
      rw [hmap']
      have hround : ∃ own₂, Round false s.kernelCtx vmmFlagsKernelRw mapped s own s₂ own₂ := by
        have hround := round_of_map (b := false) ho took ho.trees.kernel
          (fun hu => by rw [heapFlags_user] at hu; cases hu) hmap'
        rw [treeRoot_kernel] at hround
        rcases hround with ⟨-, own₂, hround⟩ | ⟨-, own₂, hround⟩ <;> exact ⟨own₂, hround⟩
      obtain ⟨own₂, hround⟩ := hround
      have heff := hround.heap_effect ho hin
      exact ih (mapped + 4096) heff.owned (hround.noHugeWindow ho hin hn) (hctx.trans heff.kernelCtx.symm)
        fun x hx => hw x (List.mem_cons_of_mem _ hx)

theorem shrinkLoop_returns {heap : Heap} : ∀ (n mapped : Nat) {s : MemState} {own : Label},
    Owned s own → NoHugeWindow s own → heap.vmmCtx = s.kernelCtx → mapped % 4096 = 0 →
    (∀ x ∈ pagesBelow mapped n, InWindow x) → ∃ res, shrinkLoop heap n mapped s = .ok res := by
  intro n
  induction n with
  | zero => exact fun _ _ _ _ _ _ _ _ => ⟨_, rfl⟩
  | succ n ih =>
    intro mapped s own ho hn hctx hal hw
    rw [pagesBelow_succ] at hw
    have hin := hw _ List.mem_cons_self
    obtain ⟨s₁, hun⟩ := unmap_returns ho.trees ho.shared ho.trees.kernel (hn.root hin)
    unfold shrinkLoop
    simp only [hctx]
    have hall : ∃ s₂, vmmUnmapPage (if vmmGetPhys s.mem s.kernelCtx (mapped - 4096) ≠ 0 then
        { s with pmm := pmmFree s.pmm (vmmGetPhys s.mem s.kernelCtx (mapped - 4096)) } else s) s.kernelCtx (mapped - 4096) =
        .ok s₂ := by
      split
      · exact unmap_returns_pmm hun
      · exact ⟨s₁, hun⟩
    obtain ⟨s₂, hs₂⟩ := hall
    rw [hs₂]
    obtain ⟨own₂, hclear⟩ := cleared_of_unmap ho hin (by omega) hs₂
    have heff := hclear.effect ho hin.tracked
    exact ih (mapped - 4096) heff.owned (hclear.noHugeWindow ho hin hn) (hctx.trans heff.kernelCtx.symm) (by omega)
      fun x hx => hw x (List.mem_cons_of_mem _ hx)

theorem sbrk_returns {heap : Heap} {increment : Int} (ho : Owned s own) (hn : NoHugeWindow s own) (hh : HeapOk s heap)
    (hfits : FitsBreak heap increment) : ∃ res s', sysSbrk s increment = .ok (res, s') := by
  obtain ⟨hlo, hhi, hnn, hwrap⟩ := hfits
  have hlow := hh.low
  have hback := hh.backed
  have hhigh := hh.high
  have haligned := hh.aligned
  have hlim : kheapLimit % 4096 = 0 := by decide
  have hbl : kheapVirtBase ≤ kheapLimit := by decide
  unfold sysSbrk
  rw [hh.loaded]
  simp only
  split
  · exact ⟨_, _, rfl⟩
  rename_i hz
  split
  · rename_i hpos
    rw [u64_of_lt (show heap.brk + increment.toNat < 2 ^ 64 by omega), hh.limit]
    split
    · exact ⟨_, _, rfl⟩
    rename_i hle
    have hup := pageAlignUp_eq (Nat.le_of_not_lt hle)
    obtain ⟨n, hnum⟩ : ∃ n, (pageAlignUp (heap.brk + increment.toNat) - heap.mappedEnd + (4096 - 1)) / 4096 = n := ⟨_, rfl⟩
    rw [hnum]
    obtain ⟨⟨done, top, s₁⟩, hloop⟩ := growLoop_returns hh.flags n heap.mappedEnd ho hn hh.ctx fun x hx =>
      hh.grow_window (Nat.le_refl n) (by omega) (Nat.le_of_not_lt hle) hx
    rw [hloop]
    cases done <;> exact ⟨_, _, rfl⟩
  · rename_i hneg
    rw [u64_of_lt (show (-increment).toNat < 2 ^ 64 by omega)]
    obtain ⟨newBrk, hnew⟩ : ∃ n, (if (-increment).toNat > heap.brk - heap.baseAddr then heap.baseAddr
        else heap.brk - (-increment).toNat) = n := ⟨_, rfl⟩
    rw [hnew]
    have hbrk : newBrk = max kheapVirtBase (heap.brk - (-increment).toNat) := by
      rw [← hnew, hh.base]
      split <;> omega
    have hup := pageAlignUp_eq (x := newBrk) (by omega)
    obtain ⟨n, hnum⟩ : ∃ n, (heap.mappedEnd - pageAlignUp newBrk + (4096 - 1)) / 4096 = n := ⟨_, rfl⟩
    rw [hnum]
    obtain ⟨⟨top, s₁⟩, hloop⟩ := shrinkLoop_returns n heap.mappedEnd ho hn hh.ctx haligned fun x hx =>
      hh.shrink_window hbrk (by omega) hx
    rw [hloop]
    exact ⟨_, _, rfl⟩

end Huge

end ToastOS.Mmu
