import ToastOS.Mmu.UserAccess

/-!
# Address translation

`vmm_get_phys` goes down the tables as `walk_user` does, which `physLoop` says as a recursion over the slots that are left.
Growing a tree changes no translation, and a leaf entry changes that of its own page only, in all contexts when the page
is in the shared half. So the three functions on mappings implement a finite map (`mapping_refines_finite_map`), and the
contexts agree on the upper half (`kernel_half_coherent`).
-/

namespace ToastOS.Mmu

open ToastOS.Lib Function

/-- The offset bits of an address below a slot, with `n` slots to go. -/
def offsetMask : Nat → Entry
  | 0 => 0xFFF
  | 1 => 0x1FFFFF
  | _ => 0x3FFFFFFF

/-- The address that a leaf or huge entry stands for. -/
def physOf (e : Entry) (n v : Nat) : Nat := ((e &&& pteFrameMask) ||| (BitVec.ofNat 64 v &&& offsetMask n)).toNat

/-- `vmm_get_phys` as a loop over the slots that are left. -/
def physLoop (m : Mem) (v : Nat) : List Nat → Nat → Nat
  | [], _ => 0
  | i :: rest, t =>
    if !has (entry m t i) ptePresent then 0
    else if rest = [] ∨ has (entry m t i) ptePs = true then physOf (entry m t i) rest.length v
    else physLoop m v rest (frameOf (entry m t i))

section Loop

variable {m : Mem} {v t i c : Nat} {rest : List Nat} {e e' : Entry}

theorem physLoop_absent (h : has (entry m t i) ptePresent = false) : physLoop m v (i :: rest) t = 0 := by
  rw [physLoop, h]; rfl

theorem physLoop_slot (h : child m t i = some c) (hr : rest ≠ []) : physLoop m v (i :: rest) t = physLoop m v rest c := by
  obtain ⟨h1, h2, h3⟩ := present_of_child h
  simp [physLoop, h1, h2, h3, hr]

/-- An entry that is as it was, with tables behind it that translate as they did. -/
theorem physLoop_congr {m' : Mem} (he : entry m' t i = entry m t i)
    (hdown : ∀ u, child m t i = some u → physLoop m' v rest u = physLoop m v rest u) :
    physLoop m' v (i :: rest) t = physLoop m v (i :: rest) t := by
  rw [physLoop, physLoop, he]
  by_cases hp : has (entry m t i) ptePresent = true
  · by_cases hps : has (entry m t i) ptePs = true
    · simp [hp, hps]
    · simp [hp, hps, hdown _ (child_eq_some hp (by simpa using hps))]
  · simp [hp]

theorem vmmGetPhys_eq (h : has (entry m c (pml4Idx v)) ptePresent = true → has (entry m c (pml4Idx v)) ptePs = false) :
    vmmGetPhys m c v = physLoop m v (tablePath v ++ [ptIdx v]) c := by
  unfold vmmGetPhys
  simp only [tablePath, List.cons_append, List.nil_append, physLoop, physOf, List.length_cons, List.length_nil, offsetMask]
  by_cases hp : has (entry m c (pml4Idx v)) ptePresent = true
  · simp only [hp, h hp]
    simp
  · simp [hp]

theorem physOf_user (e : Entry) (n v : Nat) : physOf (e ||| pteUser) n v = physOf e n v := by
  have h : (e ||| pteUser) &&& pteFrameMask = e &&& pteFrameMask := by
    rw [show (e ||| pteUser) &&& pteFrameMask = (e &&& pteFrameMask) ||| (pteUser &&& pteFrameMask) from
      BitVec.and_or_distrib_right, show pteUser &&& pteFrameMask = 0#64 by decide, BitVec.or_zero]
  rw [physOf, physOf, h]

theorem physOf_page (e : Entry) (v : Nat) : physOf e 0 v = frameOf e + v % 4096 := by
  have hoff : (BitVec.ofNat 64 v &&& 0xFFF).toNat = v % 4096 := by
    rw [BitVec.toNat_and, BitVec.toNat_ofNat, show (0xFFF : Entry).toNat = 2 ^ 12 - 1 by decide,
      Nat.and_two_pow_sub_one_eq_mod]
    omega
  have hal := (isFrame_frameOf e).1
  rw [physOf, BitVec.toNat_or, show offsetMask 0 = 0xFFF from rfl, hoff, ← frameOf]
  have hor := Nat.two_pow_add_eq_or_of_lt (i := 12) (b := v % 4096) (Nat.mod_lt _ (by decide)) (frameOf e / 4096)
  rw [show 2 ^ 12 * (frameOf e / 4096) = frameOf e by omega] at hor
  exact hor.symm

theorem frameOf_leafEntry {pa : Nat} {flags : Entry} (hp : IsFrame pa) (hf : flags &&& pteFrameMask = 0) :
    frameOf (leafEntry pa flags) = pa := by
  rw [leafEntry, frameOf_or hf, frameOf_or (show ptePresent &&& pteFrameMask = 0 by decide), ofNat_and_frameMask hp]
  exact frameOf_ofNat hp

theorem physOf_leafEntry {pa : Nat} {flags : Entry} (hp : IsFrame pa) (hf : flags &&& pteFrameMask = 0) :
    physOf (leafEntry pa flags) 0 v = pa + v % 4096 := by
  rw [physOf_page, frameOf_leafEntry hp hf]

end Loop

/-! ## Moves and translation -/

section Moves

variable {s s' : MemState} {own own' : Label} {r i x v pt : Nat} {p : List Nat} {flags e : Entry}

theorem physLoop_keep (h : Trees s own) (hsame : SameTables s own s') (hi : i < 512) : ∀ (rest q : List Nat) {t : Nat},
    own t = some (r, q) → Inside s.kernelCtx r (q ++ rest) →
    physLoop s'.mem x (rest ++ [i]) t = physLoop s.mem x (rest ++ [i]) t := by
  intro rest
  induction rest with
  | nil =>
    intro q t ht _
    exact physLoop_congr (hsame t _ ht i hi) fun _ _ => rfl
  | cons j rest ih =>
    intro q t ht hin
    rw [List.append_cons] at hin
    refine physLoop_congr (hsame t _ ht j hin.of_append.slot_lt) fun u hu => ?_
    exact ih (q ++ [j]) (h.labelled.slot ht hin.of_append hu) hin

theorem physLoop_fresh (h : Trees s own) (g : Grow s own s' own' r p flags) (hp : p <+: tablePath v) (hi : i < 512) :
    ∀ (rest q : List Nat) {t c : Nat}, own t = none → own' t = some (c, q) → Inside s.kernelCtx c (q ++ rest) →
      q.length + rest.length = 3 → physLoop s'.mem x (rest ++ [i]) t = 0 := by
  intro rest
  induction rest with
  | nil =>
    intro q t c hn ht _ hlen
    have he : entry s'.mem t i = 0 :=
      (g.fresh hn ht hi).resolve_right fun hx => pt_not_on_path hp (by simpa using hlen) hx.2.1
    exact physLoop_absent (by rw [he, zero_has])
  | cons j rest ih =>
    intro q t c hn ht hin hlen
    rw [List.append_cons] at hin
    rcases g.fresh hn ht hin.of_append.slot_lt with he | ⟨-, -, ⟨hz, -⟩ | ⟨-, n, hnf, he⟩⟩
    · exact physLoop_absent (by rw [he, zero_has])
    · rw [zero_has] at hz; cases hz
    · have hc : child s'.mem t j = some n := child_of_link hnf he
      have hin' : Inside s'.kernelCtx c (q ++ [j]) := by rw [g.rest.kernelCtx]; exact hin.of_append
      have hn' := g.trees.labelled.slot ht hin' hc
      -- a table that was there before would be behind a table that was there before
      have hnone : own n = none := by
        rcases g.added hn' with hold | ⟨hnone, -⟩
        · obtain ⟨t₀, ht₀, -⟩ := h.labelled.linked hold hin.of_append
          have := g.trees.unique hin'.of_append (g.kept ht₀) ht
          rw [← this, ht₀] at hn
          cases hn
        · exact hnone
      rw [List.cons_append, physLoop_slot hc (by simp)]
      refine ih (q ++ [j]) hnone hn' hin ?_
      rw [List.length_append, List.length_singleton]
      rw [List.length_cons] at hlen
      omega

theorem physLoop_grow (h : Trees s own) (g : Grow s own s' own' r p flags) (hp : p <+: tablePath v) (hi : i < 512) :
    ∀ (rest q : List Nat) {t c : Nat}, own t = some (c, q) → Inside s.kernelCtx c (q ++ rest) →
      q.length + rest.length = 3 → physLoop s'.mem x (rest ++ [i]) t = physLoop s.mem x (rest ++ [i]) t := by
  intro rest
  induction rest with
  | nil =>
    intro q t c ht _ hlen
    have he : entry s'.mem t i = entry s.mem t i :=
      (g.entries ht hi).resolve_right fun hx => pt_not_on_path hp (by simpa using hlen) hx.2.1
    exact physLoop_congr he fun _ _ => rfl
  | cons j rest ih =>
    intro q t c ht hin hlen
    rw [List.append_cons] at hin
    have hlen' : (q ++ [j]).length + rest.length = 3 := by
      rw [List.length_append, List.length_singleton]
      rw [List.length_cons] at hlen
      omega
    have hdown : ∀ u, child s.mem t j = some u → physLoop s'.mem x (rest ++ [i]) u = physLoop s.mem x (rest ++ [i]) u :=
      fun u hu => ih (q ++ [j]) (h.labelled.slot ht hin.of_append hu) hin hlen'
    show physLoop s'.mem x (j :: (rest ++ [i])) t = physLoop s.mem x (j :: (rest ++ [i])) t
    rcases g.entries ht hin.of_append.slot_lt with he | ⟨-, -, ⟨hpres, -, he⟩ | ⟨hpres, n, hnf, he⟩⟩
    · exact physLoop_congr he hdown
    · -- the slot is opened for user pages
      rw [physLoop, physLoop, he, has_or_user (by decide), has_or_user (by decide), physOf_user, frameOf_or_user]
      by_cases hps : has (entry s.mem t j) ptePs = true
      · simp [hpres, hps]
      · simp [hpres, hps, hdown _ (child_eq_some hpres (by simpa using hps))]
    · -- a table is added
      have hc : child s'.mem t j = some n := child_of_link hnf he
      have hin' : Inside s'.kernelCtx c (q ++ [j]) := by rw [g.rest.kernelCtx]; exact hin.of_append
      have hn' := g.trees.labelled.slot (g.kept ht) hin' hc
      have hnone : own n = none := by
        rcases g.added hn' with hold | ⟨hnone, -⟩
        · obtain ⟨t₀, ht₀, hc₀⟩ := h.labelled.linked hold hin.of_append
          rw [h.unique hin.of_append.of_append ht₀ ht] at hc₀
          rw [(present_of_child hc₀).1] at hpres
          cases hpres
        · exact hnone
      rw [physLoop_absent hpres, physLoop_slot hc (by simp)]
      exact physLoop_fresh h g hp hi rest (q ++ [j]) hnone hn' hin hlen'

/-- A leaf entry means nothing to the other slots of page tables. -/
theorem physLoop_other {r₀ j : Nat} {p₀ : List Nat} (h : Trees s own) (hpt : own pt = some (r₀, p₀)) (hlen : p₀.length = 3)
    (hj : j < 512) (hi : i < 512) : ∀ (rest q : List Nat) {t c : Nat}, own t = some (c, q) →
      Inside s.kernelCtx c (q ++ rest) → ¬ (c = r₀ ∧ q ++ rest = p₀ ∧ i = j) →
      physLoop (setEntry s.mem pt j e) x (rest ++ [i]) t = physLoop s.mem x (rest ++ [i]) t := by
  intro rest
  induction rest with
  | nil =>
    intro q t c ht _ hne
    have he : entry (setEntry s.mem pt j e) t i = entry s.mem t i := by
      refine h.entry_setEntry hpt hj ht hi ?_
      by_contra hboth
      rw [not_or, not_not, not_not] at hboth
      obtain ⟨rfl, hij⟩ := hboth
      rw [hpt] at ht
      cases ht
      exact hne ⟨rfl, List.append_nil _, hij⟩
    exact physLoop_congr he fun _ _ => rfl
  | cons k rest ih =>
    intro q t c ht hin hne
    rw [List.append_cons] at hin hne
    have he : entry (setEntry s.mem pt j e) t k = entry s.mem t k :=
      h.entry_setEntry hpt hj ht hin.of_append.slot_lt (.inl (slot_ne_leaf ht hin.of_append.1 hpt hlen))
    exact physLoop_congr he fun u hu => ih (q ++ [k]) (h.labelled.slot ht hin.of_append hu) hin hne

/-- The slot that is written is the translation of its page. -/
theorem physLoop_written (h : Trees s own) (hi : i < 512) : ∀ (rest q : List Nat) {t : Nat}, own t = some (r, q) →
    Inside s.kernelCtx r (q ++ rest) → (q ++ rest).length = 3 → own pt = some (r, q ++ rest) →
    physLoop (setEntry s.mem pt i e) x (rest ++ [i]) t = if has e ptePresent then physOf e 0 x else 0 := by
  intro rest
  induction rest with
  | nil =>
    intro q t ht hin _ hpt
    rw [List.append_nil] at hin hpt
    obtain rfl : t = pt := h.unique hin ht hpt
    show physLoop (setEntry s.mem t i e) x [i] t = _
    rw [physLoop, entry_setEntry_same]
    cases has e ptePresent <;> simp
  | cons j rest ih =>
    intro q t ht hin hlen hpt
    rw [List.append_cons] at hin hlen hpt
    obtain ⟨t₀, u, ht₀, hc, hu⟩ := h.along hin hpt
    obtain rfl : t₀ = t := h.unique hin.of_append.of_append ht₀ ht
    have he : entry (setEntry s.mem pt i e) t₀ j = entry s.mem t₀ j :=
      h.entry_setEntry hpt hi ht hin.of_append.slot_lt (.inl (slot_ne_leaf ht hin.of_append.1 hpt hlen))
    rw [List.cons_append, physLoop_slot (by rw [child_congr he]; exact hc) (by simp)]
    exact ih (q ++ [j]) hu hin hlen hpt

end Moves

/-! ## The functions on mappings -/

/-- The address `x` of context `c'` is in the page of `v` in context `c`; the upper half is shared. -/
def SamePage (c v c' x : Nat) : Prop := x / 4096 = v / 4096 ∧ (c' = c ∨ userSpaceEnd ≤ x)

instance (c v c' x : Nat) : Decidable (SamePage c v c' x) := inferInstanceAs (Decidable (_ ∧ _))

section Functions

variable {s s' : MemState} {own own' : Label} {c c' v x pa : Nat} {flags : Entry} {n : Int}

theorem samePage_iff (hv : Canonical v) (hx : Canonical x) :
    SamePage c v c' x ↔ treeRoot s c' x = treeRoot s c v ∧ tablePath x = tablePath v ∧ ptIdx x = ptIdx v := by
  constructor
  · rintro ⟨hpage, hctx⟩
    obtain ⟨hpath, hidx⟩ := page_indices hpage
    refine ⟨?_, hpath, hidx⟩
    have h4 : pml4Idx x = pml4Idx v := (List.cons.inj hpath).1
    unfold treeRoot
    rw [h4]
    split
    · rename_i hlow
      rcases hctx with rfl | hhigh
      · rfl
      · rw [← h4, hx.low_iff] at hlow
        omega
    · rfl
  · rintro ⟨hroot, hpath, hidx⟩
    refine ⟨hx.page_eq hv hpath hidx, ?_⟩
    by_cases hlow : x < userSpaceEnd
    · left
      have h4 : pml4Idx x = pml4Idx v := (List.cons.inj hpath).1
      unfold treeRoot at hroot
      rw [← h4, if_pos (low_index hlow), if_pos (low_index hlow)] at hroot
      exact hroot
    · exact .inr (Nat.le_of_not_lt hlow)

theorem phys_root (h : Sys s own) (hc : own c = some (c, [])) :
    vmmGetPhys s.mem c x = physLoop s.mem x (tablePath x ++ [ptIdx x]) (treeRoot s c x) := by
  have he := first_entry (v := x) h.shared hc
  rw [vmmGetPhys_eq (by rw [he]; exact first_not_huge h.trees h.shared hc)]
  show physLoop s.mem x (pml4Idx x :: _) c = physLoop s.mem x (pml4Idx x :: _) (treeRoot s c x)
  rw [physLoop, physLoop, he]

theorem phys_grow {r : Nat} {p : List Nat} (h : Sys s own) (h' : Sys s' own') (g : Grow s own s' own' r p flags)
    (hp : p <+: tablePath v) (hc : own c = some (c, [])) : vmmGetPhys s'.mem c x = vmmGetPhys s.mem c x := by
  rw [phys_root h' (g.kept hc), phys_root h hc, treeRoot_congr g.rest.kernelCtx]
  exact physLoop_grow h.trees g hp (ptIdx_lt x) (tablePath x) [] (root_treeRoot h.trees hc) (inside_tablePath s c x) rfl

theorem phys_keep (h : Sys s own) (h' : Sys s' own) (hk : s'.kernelCtx = s.kernelCtx) (hsame : SameTables s own s')
    (hc : own c = some (c, [])) : vmmGetPhys s'.mem c x = vmmGetPhys s.mem c x := by
  rw [phys_root h' hc, phys_root h hc, treeRoot_congr hk]
  exact physLoop_keep h.trees hsame (ptIdx_lt x) (tablePath x) [] (root_treeRoot h.trees hc) (inside_tablePath s c x)

theorem phys_leaf {pt : Nat} {e : Entry} (h : Sys s own) (h' : Sys s' own) (hmem : s'.mem = setEntry s.mem pt (ptIdx v) e)
    (hk : s'.kernelCtx = s.kernelCtx) (hc' : own c' = some (c', [])) (hv : Canonical v) (hx : Canonical x)
    (hpt : own pt = some (treeRoot s c v, tablePath v)) :
    vmmGetPhys s'.mem c' x =
      if SamePage c v c' x then (if has e ptePresent then physOf e 0 x else 0) else vmmGetPhys s.mem c' x := by
  rw [phys_root h' hc', phys_root h hc', treeRoot_congr hk, hmem]
  have hroot := root_treeRoot (v := x) h.trees hc'
  have hin := inside_tablePath s c' x
  split
  · rename_i hsame
    obtain ⟨h1, h2, h3⟩ := (samePage_iff hv hx).1 hsame
    rw [← h1, ← h2] at hpt
    rw [← h3]
    exact physLoop_written h.trees (ptIdx_lt x) (tablePath x) [] hroot hin rfl hpt
  · rename_i hne
    refine physLoop_other h.trees hpt rfl (ptIdx_lt v) (ptIdx_lt x) (tablePath x) [] hroot hin ?_
    rintro ⟨h1, h2, h3⟩
    exact hne ((samePage_iff hv hx).2 ⟨h1, h2, h3⟩)

theorem map_phys (h : Sys s own) (hc : own c = some (c, [])) (hc' : own c' = some (c', [])) (hv : Canonical v)
    (hx : Canonical x) (hp : IsFrame pa) (hf : flags &&& pteFrameMask = 0)
    (hok : vmmMapPage s c v pa flags = .ok (n, s')) :
    vmmGetPhys s'.mem c' x = if n = 0 ∧ SamePage c v c' x then pa + x % 4096 else vmmGetPhys s.mem c' x := by
  cases map_spec h.trees h.shared hc hok with
  | refused => rw [if_neg (by simp)]
  | failed grow path _ _ allowed =>
    rw [if_neg (by simp)]
    have h' := h.move (P := fun _ _ => True) (.grow hc allowed path grow)
    exact phys_grow h h' grow path hc'
  | @mapped s₁ own₁ pt grow table allowed =>
    have h₁ := h.move (P := fun _ _ => True) (.grow hc allowed List.prefix_rfl grow)
    rw [← treeRoot_congr grow.rest.kernelCtx] at table
    have hwrite : LeafWrite s₁ own₁ c v (leafEntry pa flags) (some flags) :=
      ⟨⟨pa, rfl⟩, fun hu => ⟨allowed hu, fun t q i ht hq => grow.user hu (by
        rw [← treeRoot_congr grow.rest.kernelCtx]; exact ht) hq⟩⟩
    have h₂ := h₁.move (P := fun _ _ => True) (.leaf (grow.kept hc) trivial table hwrite)
    rw [phys_leaf h₁ h₂ rfl rfl (grow.kept hc') hv hx table, leafOf_leafEntry.1, physOf_leafEntry hp hf,
      phys_grow h h₁ grow List.prefix_rfl hc']
    simp only [true_and, if_true]

/-- `vmm_unmap_page` returns without a change only where nothing is mapped. -/
theorem phys_of_unmap_nothing (hok : vmmUnmapPage s c v = .ok s) (hx : x / 4096 = v / 4096) : vmmGetPhys s.mem c x = 0 := by
  obtain ⟨hpath, hidx⟩ := page_indices hx
  simp only [tablePath, List.cons.injEq, and_true] at hpath
  obtain ⟨h4, h3, h2⟩ := hpath
  unfold vmmUnmapPage at hok
  unfold vmmGetPhys
  simp only [h4, h3, h2, hidx]
  simp only at hok
  split at hok
  · rename_i hp
    rw [if_pos hp]
  rename_i hp
  rw [if_neg hp]
  split at hok
  · rename_i hp₂
    rw [if_pos hp₂]
  rename_i hp₂
  rw [if_neg hp₂]
  split at hok
  · cases hok
  rename_i hs₂
  rw [if_neg hs₂]
  split at hok
  · rename_i hp₃
    rw [if_pos hp₃]
  rename_i hp₃
  rw [if_neg hp₃]
  split at hok
  · cases hok
  rename_i hs₃
  rw [if_neg hs₃]
  split at hok
  · rename_i hp₄
    rw [if_pos hp₄]
  · have hlog := congrArg (fun s : MemState => s.log.length) (Except.ok.inj hok)
    simp at hlog

theorem unmap_phys (h : Sys s own) (hc : own c = some (c, [])) (hc' : own c' = some (c', [])) (hv : Canonical v)
    (hx : Canonical x) (hok : vmmUnmapPage s c v = .ok s') :
    vmmGetPhys s'.mem c' x = if SamePage c v c' x then 0 else vmmGetPhys s.mem c' x := by
  cases unmap_spec h.trees h.shared hc hok with
  | absent =>
    split
    · rename_i hsame
      have hroot : treeRoot s c' x = treeRoot s c x := by
        rcases hsame.2 with rfl | hhigh
        · rfl
        · have hidx : ¬ pml4Idx x < 256 := fun hlt => absurd (hx.low_iff.1 hlt) (Nat.not_lt.2 hhigh)
          rw [treeRoot, treeRoot, if_neg hidx, if_neg hidx]
      rw [phys_root h hc', hroot, ← phys_root h hc]
      exact phys_of_unmap_nothing hok hsame.1
    · rfl
  | @unmapped pt table present =>
    have hwrite : LeafWrite s own c v 0 none := rfl
    have h' := h.move (P := fun _ _ => True) (.leaf hc trivial table hwrite)
    rw [phys_leaf h h' rfl rfl hc' hv hx table, zero_has]
    rfl

/-- A new context translates the upper half as the kernel's does, and nothing else. -/
theorem create_phys {k : Nat} (h : Sys s own) (hk : Created s own k s') (hx : Canonical x) :
    vmmGetPhys s'.mem k x = if x < userSpaceEnd then 0 else vmmGetPhys s.mem s.kernelCtx x := by
  have h' := h.created hk
  have hself : update own k (some (k, [])) k = some (k, []) := update_self _ _ _
  split
  · rename_i hlow
    simp only [vmmGetPhys, hk.empty _ (low_index hlow), zero_has]
    rfl
  · rename_i hhigh
    have hidx : ¬ pml4Idx x < 256 := fun hlt => hhigh (hx.low_iff.1 hlt)
    have hne : s.kernelCtx ≠ k := by
      intro heq
      have := h.trees.kernel
      rw [heq, hk.unused] at this
      cases this
    have hroot : treeRoot s' k x = s.kernelCtx := by rw [treeRoot, if_neg hidx, hk.rest.kernelCtx]
    have hroot' : treeRoot s s.kernelCtx x = s.kernelCtx := by rw [treeRoot, if_neg hidx]
    rw [phys_root h' hself, phys_root h h.trees.kernel, hroot, hroot']
    exact physLoop_keep h.trees hk.tables (ptIdx_lt x) (tablePath x) [] h.trees.kernel (hroot' ▸ inside_tablePath s _ x)

theorem create_phys_old {k : Nat} (h : Sys s own) (hk : Created s own k s') (hc : own c = some (c, [])) :
    vmmGetPhys s'.mem c x = vmmGetPhys s.mem c x := by
  have h' := h.created hk
  have hne : c ≠ k := by
    rintro rfl
    rw [hk.unused] at hc; cases hc
  have hc' : update own k (some (k, [])) c = some (c, []) := by rw [update_of_ne hne]; exact hc
  rw [phys_root h' hc', phys_root h hc, treeRoot_congr hk.rest.kernelCtx]
  exact physLoop_keep h.trees hk.tables (ptIdx_lt x) (tablePath x) [] (root_treeRoot h.trees hc) (inside_tablePath s c x)

end Functions

/-! ## The kernel half -/

section KernelHalf

variable {P : Nat → Option Entry → Prop} {s s' : MemState} {own own' : Label} {c i : Nat}

/-- The leaf entry of an address, if there is a page table for it. -/
def leafOf (m : Mem) (ctx vAddr : Nat) : Option Entry :=
  (walk (child m) ctx (tablePath vAddr)).map fun pt => entry m pt (ptIdx vAddr)

theorem Move.slots (h : Sys s own) (hm : Move P s own s' own') (hc : own c = some (c, [])) (h1 : 256 ≤ i) (h2 : i < 512) :
    entry s'.mem c i = entry s.mem c i := by
  cases hm with
  | @grow _ _ _ v _ _ _ allowed path g =>
    rcases g.entries hc h2 with he | ⟨-, hp, ⟨-, hu, -⟩ | ⟨hn, -⟩⟩
    · exact he
    · have hidx := head_of_path path hp
      exact absurd (allowed hu) (Nat.not_lt.2 (userSpaceEnd_le (by omega)))
    · obtain ⟨he, hpres, -⟩ := h.shared c hc i h1 h2
      rw [he, hpres] at hn; cases hn
  | @leaf _ v pt e _ _ _ table _ =>
    refine h.trees.entry_setEntry table (ptIdx_lt v) hc h2 (.inl ?_)
    exact slot_ne_leaf (i := i) hc (by simp) table rfl
  | keep same => exact same c _ hc i h2

theorem Moves.slots (h : Sys s own) (hm : Moves P s own s' own') (hc : own c = some (c, [])) (h1 : 256 ≤ i) (h2 : i < 512) :
    entry s'.mem c i = entry s.mem c i := by
  induction hm with
  | refl => rfl
  | tail hms hm ih => rw [hm.slots (h.moves hms) (hms.kept.labels hc) h1 h2, ih]

theorem same_translation {m : Mem} {c' v : Nat} (h : entry m c (pml4Idx v) = entry m c' (pml4Idx v)) :
    vmmGetPhys m c v = vmmGetPhys m c' v ∧ leafOf m c v = leafOf m c' v := by
  constructor
  · rw [vmmGetPhys, vmmGetPhys, h]
  · rw [leafOf, leafOf, tablePath, walk, walk, child, child, h]

end KernelHalf

/-- In every state of a run the contexts agree on the upper half, and the slots of their PML4s there are never written. -/
theorem kernel_half_coherent {mem : Mem} {pmm : Pmm} {cr3 : Entry} {nx : Bool} {s₀ : MemState} {s t : VmState}
    (hl : LimineTables mem pmm cr3) (hinit : initVmm mem pmm cr3 nx = .ok s₀)
    (hs : Reach vmStep (TableCall fun _ _ => True) ⟨s₀, [s₀.kernelCtx]⟩ s)
    (ht : Reach vmStep (TableCall fun _ _ => True) s t) :
    (∀ c ∈ s.ctxs, ∀ c' ∈ s.ctxs, ∀ v, Canonical v → userSpaceEnd ≤ v →
      vmmGetPhys s.sys.mem c v = vmmGetPhys s.sys.mem c' v ∧ leafOf s.sys.mem c v = leafOf s.sys.mem c' v) ∧
    ∀ c ∈ s.ctxs, c ∈ t.ctxs ∧ ∀ i, 256 ≤ i → i < 512 → entry t.sys.mem c i = entry s.sys.mem c i := by
  obtain ⟨own, hinv⟩ := vmInv_boot hl hinit hs
  refine ⟨?_, ?_⟩
  · intro c hc c' hc' v hv hhigh
    have hidx : ¬ pml4Idx v < 256 := fun hlt => absurd (hv.low_iff.1 hlt) (Nat.not_lt.2 hhigh)
    have h2 : pml4Idx v < 512 := Nat.mod_lt _ (by decide)
    have h1 := (hinv.sys.shared c ((hinv.roots c).2 hc) _ (Nat.le_of_not_lt hidx) h2).1
    have h1' := (hinv.sys.shared c' ((hinv.roots c').2 hc') _ (Nat.le_of_not_lt hidx) h2).1
    exact same_translation (h1.trans h1'.symm)
  · have hlater : ∃ own, VmInv t own ∧ ∀ c ∈ s.ctxs, c ∈ t.ctxs ∧
        ∀ i, 256 ≤ i → i < 512 → entry t.sys.mem c i = entry s.sys.mem c i := by
      refine ht.invariant (P := fun t => ∃ own, VmInv t own ∧ ∀ c ∈ s.ctxs, c ∈ t.ctxs ∧
        ∀ i, 256 ≤ i → i < 512 → entry t.sys.mem c i = entry s.sys.mem c i) ⟨own, hinv, fun c hc => ⟨hc, fun _ _ _ => rfl⟩⟩ ?_
      rintro t call t' ⟨own, hinv, hall⟩ hok hstep
      obtain ⟨own', hm⟩ := step_moves hinv hok hstep
      refine ⟨own', hm.inv hinv, fun c hc => ?_⟩
      obtain ⟨hct, hslots⟩ := hall c hc
      have hroot := (hinv.roots c).2 hct
      cases hm with
      | moves hctxs hm =>
        refine ⟨by rw [hctxs]; exact hct, fun i h1 h2 => ?_⟩
        rw [hm.slots hinv.sys hroot h1 h2, hslots i h1 h2]
      | created hctxs hn hl =>
        refine ⟨by rw [hctxs]; exact List.mem_cons_of_mem _ hct, fun i h1 h2 => ?_⟩
        rw [hn.tables c _ hroot i h2, hslots i h1 h2]
    obtain ⟨-, -, hall⟩ := hlater
    exact hall

/-- A page next to the one that Limine has mapped: it is mapped through a new context and unmapped through the kernel's. -/
theorem coherent_through_two_contexts : ∃ s₀ c s₁ t u, initVmm bootMem bootPmm 0x1000 true = .ok s₀ ∧
    vmmCreateContext s₀ true = (some c, s₁) ∧ vmmMapPage s₁ c 0xFFFFFFFF80001000 0x6000 vmmFlagsKernelRw = .ok (0, t) ∧
    vmmUnmapPage t s₀.kernelCtx 0xFFFFFFFF80001000 = .ok u ∧
    vmmGetPhys t.mem s₀.kernelCtx 0xFFFFFFFF80001123 = 0x6123 ∧ vmmGetPhys u.mem c 0xFFFFFFFF80001123 = 0 := by
  obtain ⟨s₀, c, s₁, t, hinit, hcreate, hmap, hr₁, hr, hunmap⟩ := boot_calls (P := fun _ _ => True) (v := 0xFFFFFFFF80001000)
    0x6000 vmmFlagsKernelRw (fun _ => trivial) (by decide)
  have hk : s₀.kernelCtx ∈ [c, s₀.kernelCtx] := List.mem_cons_of_mem _ List.mem_cons_self
  obtain ⟨u, hu, hru⟩ := hunmap _ hk
  have hcan : ∀ {x}, x = 0xFFFFFFFF80001000 ∨ x = 0xFFFFFFFF80001123 → Canonical x := by
    rintro x (rfl | rfl) <;> exact .inr ⟨by decide, by decide⟩
  have hsame := fun {s : MemState} hs => (kernel_half_coherent (s := ⟨s, [c, s₀.kernelCtx]⟩) limineTables_boot hinit hs
    .refl).1 _ hk c List.mem_cons_self 0xFFFFFFFF80001123 (hcan (.inr rfl)) (by decide)
  obtain ⟨own₁, hinv₁⟩ := vmInv_boot limineTables_boot hinit hr₁
  obtain ⟨own, hinv⟩ := vmInv_boot limineTables_boot hinit hr
  have hc₁ := (hinv₁.roots c).2 List.mem_cons_self
  have hd := (hinv.roots _).2 hk
  refine ⟨s₀, c, s₁, t, u, hinit, hcreate, hmap, hu, ?_, ?_⟩
  · rw [(hsame hr).1, map_phys hinv₁.sys hc₁ hc₁ (hcan (.inl rfl)) (hcan (.inr rfl)) ⟨by decide, by decide⟩ (by decide) hmap]
    exact if_pos ⟨rfl, rfl, .inl rfl⟩
  · rw [← (hsame hru).1, unmap_phys hinv.sys hd hd (hcan (.inl rfl)) (hcan (.inr rfl)) hu]
    exact if_pos ⟨rfl, .inl rfl⟩

/-! ## A finite map -/

def FlagsOk (flags : Entry) : Prop := flags &&& ~~~(ptePresent ||| pteWrite ||| pteUser ||| pteNx) = 0

theorem FlagsOk.frame {flags : Entry} (h : FlagsOk flags) : flags &&& pteFrameMask = 0 := by
  have hmask : ~~~(ptePresent ||| pteWrite ||| pteUser ||| pteNx) &&& pteFrameMask = pteFrameMask := by decide
  rw [← hmask, ← BitVec.and_assoc, show flags &&& ~~~(ptePresent ||| pteWrite ||| pteUser ||| pteNx) = 0#64 from h,
    BitVec.zero_and]
  rfl

/-- What each context translates each address to. -/
abbrev Translation := Nat → Nat → Nat

def Translation.map (T : Translation) (ctx vAddr pAddr : Nat) : Translation := fun c x =>
  if SamePage ctx vAddr c x then pAddr + x % 4096 else T c x

def Translation.unmap (T : Translation) (ctx vAddr : Nat) : Translation := fun c x =>
  if SamePage ctx vAddr c x then 0 else T c x

/-- A new context shares the upper half of the kernel's. -/
def Translation.create (T : Translation) (kernelCtx ctx : Nat) : Translation := fun c x =>
  if c = ctx then (if x < userSpaceEnd then 0 else T kernelCtx x) else T c x

/-- A call, and what it should do to the translation. -/
def tracedStep (st : VmState × Translation) : VmCall → Option (VmState × Translation)
  | .map ctx vAddr pAddr flags =>
    match vmmMapPage st.1.sys ctx vAddr pAddr flags with
    | .ok (r, sys) => some (⟨sys, st.1.ctxs⟩, if r = 0 then st.2.map ctx vAddr pAddr else st.2)
    | .error _ => none
  | .unmap ctx vAddr =>
    match vmmUnmapPage st.1.sys ctx vAddr with
    | .ok sys => some (⟨sys, st.1.ctxs⟩, st.2.unmap ctx vAddr)
    | .error _ => none
  | .create kmallocOk =>
    match vmmCreateContext st.1.sys kmallocOk with
    | (some ctx, sys) => some (⟨sys, ctx :: st.1.ctxs⟩, st.2.create st.1.sys.kernelCtx ctx)
    | (none, sys) => some (⟨sys, st.1.ctxs⟩, st.2)
  | call => (vmStep st.1 call).map (·, st.2)

/-- Mappings of frames at canonical addresses. -/
def MapCall (st : VmState × Translation) : VmCall → Prop
  | .map ctx vAddr pAddr flags => ctx ∈ st.1.ctxs ∧ Canonical vAddr ∧ IsFrame pAddr ∧ FlagsOk flags
  | .unmap ctx vAddr => ctx ∈ st.1.ctxs ∧ Canonical vAddr
  | .create _ => True
  | .others p => p.Ok ∧ TablesMarked st.1 p
  | _ => False

/-- The tables translate as `T` says. -/
def Translates (s : VmState) (T : Translation) : Prop :=
  ∀ c ∈ s.ctxs, ∀ x, Canonical x → vmmGetPhys s.sys.mem c x = T c x

theorem translates_step {s s' : VmState} {T T' : Translation} {own : Label} {call : VmCall} (h : VmInv s own)
    (hT : Translates s T) (hok : MapCall (s, T) call) (hs : tracedStep (s, T) call = some (s', T')) :
    (∃ own', VmInv s' own') ∧ Translates s' T' := by
  cases call with
  | map c v pa fl =>
    obtain ⟨hc, hv, hp, hf⟩ := hok
    simp only [tracedStep] at hs
    split at hs <;> rename_i heq <;> cases hs
    rename_i r sys
    obtain ⟨own', hm⟩ := map_moves (P := fun _ _ => True) h.sys ((h.roots c).2 hc) trivial heq
    refine ⟨⟨own', VmMoves.inv h (.moves rfl hm)⟩, fun c' hc' x hx => ?_⟩
    rw [map_phys h.sys ((h.roots c).2 hc) ((h.roots c').2 hc') hv hx hp hf.frame heq, hT c' hc' x hx]
    by_cases hr : r = 0
    · simp only [hr, true_and, if_true]
      rfl
    · simp only [hr, false_and, if_false]
  | unmap c v =>
    obtain ⟨hc, hv⟩ := hok
    simp only [tracedStep] at hs
    split at hs <;> rename_i heq <;> cases hs
    obtain ⟨own', hm⟩ := unmap_moves (P := fun _ _ => True) h.sys ((h.roots c).2 hc) trivial heq
    refine ⟨⟨own', VmMoves.inv h (.moves rfl hm)⟩, fun c' hc' x hx => ?_⟩
    rw [unmap_phys h.sys ((h.roots c).2 hc) ((h.roots c').2 hc') hv hx heq, hT c' hc' x hx]
    rfl
  | create kmallocOk =>
    simp only [tracedStep] at hs
    split at hs <;> rename_i heq <;> cases hs
    · rename_i n sys
      rcases create_spec h.sys.trees h.sys.shared heq with ⟨hres, -⟩ | ⟨_, hres, hn⟩
      · cases hres
      cases hres
      have hm : VmMoves (fun _ _ => True) s own ⟨_, _ :: s.ctxs⟩ _ := .created rfl hn rfl
      refine ⟨⟨_, hm.inv h⟩, fun c hc x hx => ?_⟩
      rcases List.mem_cons.1 hc with rfl | hc
      · rw [create_phys h.sys hn hx, hT _ ((h.roots _).1 h.sys.trees.kernel) x hx]
        simp only [Translation.create, if_true]
      · have hroot := (h.roots c).2 hc
        have hne : c ≠ n := by
          rintro rfl
          rw [hn.unused] at hroot; cases hroot
        rw [create_phys_old h.sys hn hroot, hT c hc x hx]
        simp only [Translation.create, hne, if_false]
    · rcases create_spec h.sys.trees h.sys.shared heq with ⟨-, rfl⟩ | ⟨n, hres, -⟩
      · exact ⟨⟨own, h⟩, hT⟩
      · cases hres
  | others p =>
    cases hs
    have hcall : TableCall (fun _ _ => True) s (.others p) := hok
    obtain ⟨own', hm⟩ := step_moves h hcall rfl
    exact ⟨⟨own', hm.inv h⟩, hT⟩
  | userAlloc => exact hok.elim
  | destroy => exact hok.elim
  | sbrk => exact hok.elim

/-- In every state that the API reaches: `vmm_map_page` maps the page it is asked to, or fails and changes no translation;
`vmm_unmap_page` unmaps the page; and after any sequence of such calls the tables translate as the finite map does. -/
theorem mapping_refines_finite_map {mem : Mem} {pmm : Pmm} {cr3 : Entry} {nx : Bool} {s₀ : MemState} {s : VmState}
    (hl : LimineTables mem pmm cr3) (hinit : initVmm mem pmm cr3 nx = .ok s₀)
    (hs : Reach vmStep (TableCall fun _ _ => True) ⟨s₀, [s₀.kernelCtx]⟩ s) :
    (∀ c ∈ s.ctxs, ∀ v pa flags, Canonical v → IsFrame pa → FlagsOk flags → ∀ n t,
      vmmMapPage s.sys c v pa flags = .ok (n, t) → (n = 0 ∨ n = -1) ∧ ∀ x, Canonical x →
        vmmGetPhys t.mem c x = if n = 0 ∧ x / 4096 = v / 4096 then pa + x % 4096 else vmmGetPhys s.sys.mem c x) ∧
    (∀ c ∈ s.ctxs, ∀ v, Canonical v → ∀ t, vmmUnmapPage s.sys c v = .ok t → ∀ x, Canonical x →
      vmmGetPhys t.mem c x = if x / 4096 = v / 4096 then 0 else vmmGetPhys s.sys.mem c x) ∧
    ∀ t T, Reach tracedStep MapCall (s, fun c x => vmmGetPhys s.sys.mem c x) (t, T) → Translates t T := by
  obtain ⟨own, hinv⟩ := vmInv_boot hl hinit hs
  have hself : ∀ {c v x}, SamePage c v c x ↔ x / 4096 = v / 4096 := ⟨fun h => h.1, fun h => ⟨h, .inl rfl⟩⟩
  refine ⟨?_, ?_, ?_⟩
  · intro c hc v pa flags hv hp hf n t hok
    have hroot := (hinv.roots c).2 hc
    refine ⟨?_, fun x hx => ?_⟩
    · cases map_spec hinv.sys.trees hinv.sys.shared hroot hok with
      | refused => exact .inr rfl
      | failed => exact .inr rfl
      | mapped => exact .inl rfl
    · rw [map_phys hinv.sys hroot hroot hv hx hp hf.frame hok]
      simp only [hself]
  · intro c hc v hv t hok x hx
    have hroot := (hinv.roots c).2 hc
    rw [unmap_phys hinv.sys hroot hroot hv hx hok]
    simp only [hself]
  · intro t T hreach
    have hboth : (∃ own, VmInv t own) ∧ Translates t T := by
      refine hreach.invariant (P := fun st => (∃ own, VmInv st.1 own) ∧ Translates st.1 st.2) ?_ ?_
      · exact ⟨⟨own, hinv⟩, fun c _ x _ => rfl⟩
      · rintro ⟨u, U⟩ call ⟨u', U'⟩ ⟨⟨own, hinv⟩, hU⟩ hok hstep
        exact translates_step hinv hU hok hstep
    exact hboth.2

/-- A page of a new context in the machine of `boot_ok` is mapped. -/
theorem translation_of_first_page : ∃ s₀ c s₁ t, initVmm bootMem bootPmm 0x1000 true = .ok s₀ ∧
    vmmCreateContext s₀ true = (some c, s₁) ∧ vmmMapPage s₁ c 0x400000 0x200000 (ptePresent ||| pteWrite) = .ok (0, t) ∧
    vmmGetPhys t.mem c 0x400123 = 0x200123 := by
  obtain ⟨s₀, c, s₁, t, hinit, hcreate, hmap, hr₁, -, -⟩ := boot_calls (P := fun _ _ => True) (v := 0x400000)
    0x200000 (ptePresent ||| pteWrite) (fun _ => trivial) (fun _ => by decide)
  refine ⟨s₀, c, s₁, t, hinit, hcreate, hmap, ?_⟩
  have h := (mapping_refines_finite_map limineTables_boot hinit hr₁).1 c List.mem_cons_self 0x400000 0x200000
    (ptePresent ||| pteWrite) (.inl (by decide)) ⟨by decide, by decide⟩ (by unfold FlagsOk; decide) 0 t hmap
  exact h.2 0x400123 (.inl (by decide))

end ToastOS.Mmu
