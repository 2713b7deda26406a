import ToastOS.Mmu.Trees

/-!
# Trees under the other operations

Leaf entries carry no label, so writing one changes no tree (`Trees.leaf`); neither does a write to a frame without a label
(`Trees.keep`). `vmm_create_context` adds a root (`create_spec`), and `vmm_unmap_page` clears a leaf entry or finds none
(`unmap_spec`).
-/

namespace ToastOS.Mmu

open ToastOS.Lib Function

section Keep

variable {s s' : MemState} {own : Label} {t pt r c v i n : Nat} {p : List Nat} {e : Entry}

theorem present_of_child {m : Mem} {u : Nat} (h : child m t i = some u) :
    has (entry m t i) ptePresent = true ∧ has (entry m t i) ptePs = false ∧ frameOf (entry m t i) = u := by
  unfold child at h
  split at h
  · rename_i hp
    obtain ⟨hp, hps⟩ := Bool.and_eq_true_iff.1 hp
    exact ⟨hp, by simpa using hps, Option.some.inj h⟩
  · cases h

theorem Trees.unique (h : Trees s own) (hp : Inside s.kernelCtx r p) (h1 : own t = some (r, p)) (h2 : own pt = some (r, p)) :
    t = pt := by
  have hr := h.root h1
  have hw := (h.walk_iff hr hp).2 h1
  rw [(h.walk_iff hr hp).2 h2] at hw
  exact (Option.some.inj hw).symm

/-- The path to a table leads through tables, each behind a slot of the one before. -/
theorem Trees.along (h : Trees s own) {q : List Nat} (hp : Inside s.kernelCtx r (p ++ [i] ++ q))
    (hpt : own pt = some (r, p ++ [i] ++ q)) :
    ∃ t u, own t = some (r, p) ∧ child s.mem t i = some u ∧ own u = some (r, p ++ [i]) := by
  have hr := h.root hpt
  have hw := (h.walk_iff hr hp).2 hpt
  rw [walk_append, Option.bind_eq_some_iff] at hw
  obtain ⟨u, hu, -⟩ := hw
  have hu := (h.walk_iff hr hp.of_append).1 hu
  obtain ⟨t, ht, hc⟩ := h.labelled.linked hu hp.of_append
  exact ⟨t, u, ht, hc, hu⟩

def SameTables (s : MemState) (own : Label) (s' : MemState) : Prop :=
  ∀ t pl, own t = some pl → ∀ i < 512, entry s'.mem t i = entry s.mem t i

theorem Trees.keep (h : Trees s own) (hk : s'.kernelCtx = s.kernelCtx) (hpmm : s'.pmm.Ok)
    (hmark : ∀ f pl, own f = some pl → s'.pmm.marked (f / 4096) = true) (hsame : SameTables s own s') : Trees s' own := by
  refine h.congr hk hpmm hmark (fun t r p i ht hin => child_congr (hsame t _ ht i hin.slot_lt)) ?_
  intro t r p i ht hin h1 h2
  rw [hsame t _ ht i hin.slot_lt] at h1 h2
  exact ⟨h1, h2⟩

theorem SharedHalf.keep (h : SharedHalf s own) (ht : Trees s own) (hk : s'.kernelCtx = s.kernelCtx)
    (hsame : ∀ c, own c = some (c, []) → ∀ i, 256 ≤ i → i < 512 → entry s'.mem c i = entry s.mem c i) :
    SharedHalf s' own := by
  intro c hc i h1 h2
  rw [hk, hsame c hc i h1 h2, hsame _ ht.kernel i h1 h2]
  exact h c hc i h1 h2

theorem sameTables_zeroFrame (h : Trees s own) (hn : IsFrame n) (hfree : own n = none) (l : List (BitVec 8))
    (hl : l.length ≤ 4096) : SameTables s own { s with mem := copyIn (zeroFrame s.mem n) n l } := by
  intro t pl ht i hi
  have hne : n ≠ t := by
    rintro rfl
    rw [hfree] at ht; cases ht
  show entry (copyIn (zeroFrame s.mem n) n l) t i = entry s.mem t i
  rw [entry_copyIn hn.1 (h.aligned ht) hne hi hl, entry_zeroFrame hn.1 (h.aligned ht) hne hi]

theorem Trees.leaf (h : Trees s own) (hpt : own pt = some (r, p)) (hp : p.length = 3) (hi : i < 512) (log : List MapEvent) :
    Trees { s with mem := setEntry s.mem pt i e, log } own := by
  have hkeep : ∀ t c q j, own t = some (c, q) → Inside s.kernelCtx c (q ++ [j]) →
      entry (setEntry s.mem pt i e) t j = entry s.mem t j := by
    intro t c q j ht hin
    refine h.entry_setEntry hpt hi ht hin.slot_lt (.inl ?_)
    rintro rfl
    rw [hpt] at ht; cases ht
    have := hin.1
    rw [List.length_append, List.length_singleton] at this
    omega
  refine h.congr rfl h.pmm (fun f pl hf => (h.frame hf).2) (fun t c q j ht hin => child_congr (hkeep t c q j ht hin)) ?_
  intro t c q j ht hin h1 h2
  have he := hkeep t c q j ht hin
  rw [show entry (setEntry s.mem pt i e) t j = entry s.mem t j from he] at h1 h2
  exact ⟨h1, h2⟩

theorem SharedHalf.leaf (h : SharedHalf s own) (ht : Trees s own) (hpt : own pt = some (r, p)) (hp : p.length = 3)
    (hi : i < 512) (log : List MapEvent) : SharedHalf { s with mem := setEntry s.mem pt i e, log } own := by
  refine h.keep ht rfl fun c hc j _ hj => ht.entry_setEntry hpt hi hc hj (.inl ?_)
  rintro rfl
  rw [hpt] at hc; cases hc
  cases hp

/-- Growing a tree leaves the shared entries alone, when no user table is asked for in the upper half. -/
theorem SharedHalf.grow {own' : Label} {flags : Entry} (h : SharedHalf s own) (g : Grow s own s' own' r p flags)
    (ht : Trees s own) (hu : ∀ i, 256 ≤ i → [i] <+: p → has flags pteUser = false) : SharedHalf s' own' := by
  have hsame : ∀ c, own c = some (c, []) → ∀ i, 256 ≤ i → i < 512 → entry s'.mem c i = entry s.mem c i := by
    intro c hc i h1 h2
    rcases g.entries hc h2 with he | ⟨-, hp, ⟨-, hf, -⟩ | ⟨hn, -⟩⟩
    · exact he
    · exact absurd hf (by rw [hu i h1 hp]; decide)
    · obtain ⟨he, hpres, -⟩ := h c hc i h1 h2
      rw [he, hpres] at hn; cases hn
  intro c hc i h1 h2
  rcases g.added hc with hc | ⟨-, -, -, hne, -⟩
  · rw [g.rest.kernelCtx, hsame c hc i h1 h2, hsame _ ht.kernel i h1 h2]
    exact h c hc i h1 h2
  · exact absurd rfl hne

theorem Trees.newRoot (h : Trees s own) (hn : IsFrame n) (hfree : own n = none) (hk : s'.kernelCtx = s.kernelCtx)
    (hpmm : s'.pmm.Ok) (hmark : ∀ f, f = n ∨ (∃ pl, own f = some pl) → s'.pmm.marked (f / 4096) = true)
    (hsame : SameTables s own s') (hzero : ∀ i < 256, entry s'.mem n i = 0) :
    Trees s' (update own n (some (n, []))) := by
  have hold : ∀ {f pl}, own f = some pl → update own n (some (n, [])) f = some pl :=
    fun hf => update_of_fresh hfree hf
  have hcases : ∀ {f pl}, update own n (some (n, [])) f = some pl → (f = n ∧ pl = (n, [])) ∨ own f = some pl :=
    fun hf => (update_some_iff.1 hf).imp_right And.right
  have hkern : n ≠ s.kernelCtx := by
    rintro rfl
    rw [h.kernel] at hfree; cases hfree
  -- the slots of the new tree are those of the user half, and they are empty
  have hslot : ∀ i, Inside s.kernelCtx n ([] ++ [i]) → entry s'.mem n i = 0 := by
    intro i hin
    rcases hin.2.2 with hr | hlt
    · exact absurd hr hkern
    · exact hzero i (hlt i rfl)
  have hin : InTree s.kernelCtx n [] := ⟨fun i hi => absurd hi List.not_mem_nil, .inr fun i hi => by cases hi⟩
  refine h.add hn hfree hpmm hk hmark (update_self _ _ _) hin ⟨?_, ?_, ?_⟩ ?_
  · intro f c hf
    rcases hcases hf with ⟨rfl, heq⟩ | hf
    · cases heq; rfl
    · exact h.labelled.root hf
  · intro t c q j w ht hj hc
    rcases hcases ht with ⟨rfl, heq⟩ | hto
    · cases heq
      rw [child, hslot j hj, zero_has] at hc; cases hc
    · rw [child_congr (hsame t _ hto j hj.slot_lt)] at hc
      exact hold (h.labelled.slot hto hj hc)
  · intro w c q j hw hj
    rcases hcases hw with ⟨-, heq⟩ | hw
    · exact absurd (congrArg Prod.snd heq) (by simp)
    · obtain ⟨t, ht, hc⟩ := h.labelled.linked hw hj
      exact ⟨t, hold ht, by rw [child_congr (hsame t _ ht j hj.slot_lt)]; exact hc⟩
  · intro t c q j ht hj hhead hpres
    rcases hcases ht with ⟨rfl, heq⟩ | hto
    · cases heq
      rw [hslot j hj, zero_has] at hpres; cases hpres
    · rw [hsame t _ hto j hj.slot_lt] at hpres ⊢
      exact h.noHuge hto hj hhead hpres

end Keep

/-! ## Contexts -/

/-- The context `n` is new. -/
structure Created (s : MemState) (own : Label) (n : Nat) (s' : MemState) : Prop where
  frame : IsFrame n
  unused : own n = none
  unmarked : s.pmm.marked (n / 4096) = false
  taken : n ≠ 0 ∧ n / 4096 < 8 * s.pmm.bitmapBytes
  trees : Trees s' (update own n (some (n, [])))
  shared : SharedHalf s' (update own n (some (n, [])))
  tables : SameTables s own s'
  empty : ∀ i < 256, entry s'.mem n i = 0
  marks : ∀ m, s'.pmm.marked m = true ↔ s.pmm.marked m = true ∨ m = n / 4096
  rest : SameRest s s'

section Create

variable {s s' : MemState} {own : Label} {res : Option Nat} {ok : Bool}

theorem create_spec (h : Trees s own) (hsh : SharedHalf s own) (hok : vmmCreateContext s ok = (res, s')) :
    (res = none ∧ s' = s) ∨ ∃ n, res = some n ∧ Created s own n s' := by
  unfold vmmCreateContext at hok
  split at hok
  · cases hok
    exact .inl ⟨rfl, rfl⟩
  · rcases pmmAlloc_frame h.pmm with ⟨ha, -⟩ | ⟨n, hn, hpos, hm, ha, -⟩
    · rw [ha] at hok
      cases hok
      exact .inl ⟨rfl, rfl⟩
    · rw [ha] at hok
      simp only [hpos, if_false] at hok
      have hfree : own n = none := h.fresh hm
      have hkern : n ≠ s.kernelCtx := by
        intro hk
        rw [hk, h.kernel] at hfree; cases hfree
      have hkal := h.aligned h.kernel
      obtain ⟨hnew, hother⟩ := entry_copyKernelHalf (m := zeroFrame s.mem n) hn.1 hkal hkern
      generalize copyKernelHalf (zeroFrame s.mem n) s.kernelCtx n = m at hok hnew hother
      cases hok
      have hsame : ∀ t pl, own t = some pl → ∀ i < 512, entry m t i = entry s.mem t i := by
        intro t pl ht i hi
        have hne : t ≠ n := by
          rintro rfl
          rw [hfree] at ht; cases ht
        rw [hother t (h.aligned ht) hne i hi, entry_zeroFrame hn.1 (h.aligned ht) (Ne.symm hne) hi]
      have hmarks : ∀ f, (allocFrame s.pmm n).marked f = true ↔ s.pmm.marked f = true ∨ f = n / 4096 := by
        intro f
        rw [marked_allocFrame, Bool.or_eq_true, decide_eq_true_iff]
      have hempty : ∀ i < 256, entry m n i = 0 := by
        intro i hi
        rw [hnew i (by omega), if_neg (by omega), entry_zeroFrame_same (by omega)]
      refine .inr ⟨n, rfl, hn, hfree, hm, ⟨hpos, pmmAlloc_inRange h.pmm ha hpos⟩, ?_, ?_, hsame, hempty, hmarks,
        ⟨rfl, rfl, rfl, rfl, rfl, rfl, rfl, pmmAlloc_balanced h.pmm ha⟩⟩
      · refine h.newRoot hn hfree rfl (h.pmm.allocFrame _) ?_ hsame hempty
        rintro f (rfl | ⟨pl, hf⟩)
        · exact (hmarks _).2 (.inr rfl)
        · exact (hmarks _).2 (.inl (h.frame hf).2)
      · intro c hc i h1 h2
        show entry m c i = entry m s.kernelCtx i ∧ has (entry m s.kernelCtx i) ptePresent = true ∧
          has (entry m s.kernelCtx i) ptePs = false
        rw [hsame _ _ h.kernel i h2]
        refine ⟨?_, (hsh _ h.kernel i h1 h2).2⟩
        by_cases hcn : c = n
        · rw [hcn, hnew i h2, if_pos h1, entry_zeroFrame hn.1 hkal hkern h2]
        · rw [update_of_ne hcn] at hc
          exact (hsame c _ hc i h2).trans (hsh c hc i h1 h2).1

theorem create_ok (hp : s.pmm.Ok) (hfree : 0 < s.pmm.clearCount) :
    ∃ n s', vmmCreateContext s true = (some n, s') ∧ s.pmm.clearCount = s'.pmm.clearCount + 1 := by
  rcases pmmAlloc_frame hp with ⟨-, hfull⟩ | ⟨n, -, hpos, -, ha, hcount⟩
  · rw [clearCount_eq_zero hfull] at hfree
    omega
  · unfold vmmCreateContext
    simp only [Bool.not_true, Bool.false_eq_true, if_false, ha, hpos]
    exact ⟨_, _, rfl, hcount⟩

end Create

/-! ## `vmm_unmap_page` -/

/-- The page was not mapped, or it no longer is. -/
inductive UnmapResult (s : MemState) (own : Label) (c v : Nat) : MemState → Prop
  | absent (h : ∀ pt, own pt = some (treeRoot s c v, tablePath v) → has (entry s.mem pt (ptIdx v)) ptePresent = false) :
      UnmapResult s own c v s
  | unmapped {pt} (table : own pt = some (treeRoot s c v, tablePath v))
      (present : has (entry s.mem pt (ptIdx v)) ptePresent = true) :
      UnmapResult s own c v { s with
        mem := setEntry s.mem pt (ptIdx v) 0
        log := ⟨c, v / 4096, none⟩ :: s.log }

section Unmap

variable {s s' : MemState} {own : Label} {r c v i : Nat} {p : List Nat}

theorem first_entry (h : SharedHalf s own) (hc : own c = some (c, [])) :
    entry s.mem c (pml4Idx v) = entry s.mem (treeRoot s c v) (pml4Idx v) := by
  unfold treeRoot
  split
  · rfl
  · rename_i hge
    exact (h c hc _ (Nat.le_of_not_lt hge) (Nat.mod_lt _ (by decide))).1

theorem first_not_huge (h : Trees s own) (hsh : SharedHalf s own) (hc : own c = some (c, []))
    (hp : has (entry s.mem (treeRoot s c v) (pml4Idx v)) ptePresent = true) :
    has (entry s.mem (treeRoot s c v) (pml4Idx v)) ptePs = false := by
  have hin : Inside s.kernelCtx (treeRoot s c v) ([] ++ [pml4Idx v]) :=
    Inside.of_append (q := [pdptIdx v, pdIdx v]) (inside_tablePath s c v)
  by_cases hlt : pml4Idx v < 256
  · refine h.noHuge (root_treeRoot h hc) hin ?_ hp
    intro j hj
    cases hj
    exact hlt
  · rw [treeRoot, if_neg hlt]
    exact (hsh c hc _ (Nat.le_of_not_lt hlt) (Nat.mod_lt _ (by decide))).2.2

/-- Where the slot of a table is empty there is nothing further down the path. -/
theorem Trees.nothing_below (h : Trees s own) {t : Nat} {q : List Nat} (ht : own t = some (r, p))
    (hin : Inside s.kernelCtx r (p ++ [i] ++ q)) (hc : child s.mem t i = none) (u : Nat) :
    own u ≠ some (r, p ++ [i] ++ q) := by
  intro hu
  have hw := (h.walk_iff (h.root ht) hin).2 hu
  rw [walk_append, walk_snoc, (h.walk_iff (h.root ht) hin.of_append.of_append).2 ht] at hw
  simp only [Option.bind_some, hc, Option.bind_none] at hw
  cases hw

theorem child_eq_some {m : Mem} {t : Nat} (h1 : has (entry m t i) ptePresent = true) (h2 : has (entry m t i) ptePs = false) :
    child m t i = some (frameOf (entry m t i)) := by
  rw [child, h1, h2]; rfl

theorem unmap_spec (h : Trees s own) (hsh : SharedHalf s own) (hc : own c = some (c, []))
    (hok : vmmUnmapPage s c v = .ok s') : UnmapResult s own c v s' := by
  have hr := root_treeRoot (v := v) h hc
  have hin := inside_tablePath s c v
  unfold vmmUnmapPage at hok
  simp only [first_entry hsh hc] at hok
  split at hok
  · rename_i hp
    cases hok
    refine .absent fun pt hpt => ?_
    exact absurd hpt (h.nothing_below (q := [pdptIdx v, pdIdx v]) hr hin (child_of_not_present (by simpa using hp)) pt)
  · rename_i hp
    rw [Bool.not_eq_true, Bool.not_eq_false'] at hp
    have h₁ := h.labelled.slot hr (hin.of_append (p := [] ++ [pml4Idx v]) (q := [pdptIdx v, pdIdx v]))
      (child_eq_some hp (first_not_huge h hsh hc hp))
    split at hok
    · rename_i hp₂
      cases hok
      refine .absent fun pt hpt => ?_
      exact absurd hpt (h.nothing_below (q := [pdIdx v]) h₁ hin (child_of_not_present (by simpa using hp₂)) pt)
    · rename_i hp₂
      rw [Bool.not_eq_true, Bool.not_eq_false'] at hp₂
      split at hok
      · cases hok
      · rename_i hs₂
        rw [Bool.not_eq_true] at hs₂
        have h₂ := h.labelled.slot h₁ (hin.of_append (p := [pml4Idx v] ++ [pdptIdx v]) (q := [pdIdx v]))
          (child_eq_some hp₂ hs₂)
        split at hok
        · rename_i hp₃
          cases hok
          refine .absent fun pt hpt => ?_
          refine absurd hpt (h.nothing_below (q := []) h₂ ?_ (child_of_not_present (by simpa using hp₃)) pt)
          exact hin
        · rename_i hp₃
          rw [Bool.not_eq_true, Bool.not_eq_false'] at hp₃
          split at hok
          · cases hok
          · rename_i hs₃
            rw [Bool.not_eq_true] at hs₃
            have h₃ := h.labelled.slot h₂ hin (child_eq_some hp₃ hs₃)
            split at hok
            · rename_i hp₄
              cases hok
              refine .absent fun pt hpt => ?_
              have hw := (h.walk_iff hr hin).2 hpt
              have hw' := (h.walk_iff hr hin).2 h₃
              rw [hw] at hw'; cases hw'
              simpa using hp₄
            · rename_i hp₄
              rw [Bool.not_eq_true, Bool.not_eq_false'] at hp₄
              cases hok
              exact .unmapped h₃ hp₄

end Unmap

end ToastOS.Mmu
