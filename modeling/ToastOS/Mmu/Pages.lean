import ToastOS.Mmu.Translation

/-!
# Labels for pages

A page of user code or of the kernel heap gets a label too: the four slots that lead to it. `Pages` says that these labels
and the leaf entries of the user half and of the heap's window are the same thing; with it a frame has one place at most,
whether it is a table or a page.

* `Pages.grow`, `Pages.keep` : what changes no leaf entry of a labelled table;
* `Owned.write` : a leaf entry is written or cleared, and the label moves with it (`relabel`);
* `Owned.drop` : a whole tree is given up.
-/

namespace ToastOS.Mmu

open ToastOS.Lib Function

/-- The slots that lead to a page. -/
def pagePath (v : Nat) : List Nat := tablePath v ++ [ptIdx v]

/-- The range that `init_kheap` reserves for the heap. -/
def InWindow (v : Nat) : Prop := kheapVirtBase ≤ v ∧ v < kheapVirtBase + 1024 * 1024 * 64

/-- The places whose pages are labelled: the user half and the heap's window. -/
def Tracked (p : List Nat) : Prop := (∀ j ∈ p.head?, j < 256) ∨ ∃ v, InWindow v ∧ p = pagePath v

structure Pages (s : MemState) (own : Label) : Prop where
  entry : ∀ {pt r q i}, own pt = some (r, q) → q.length = 3 → i < 512 → Tracked (q ++ [i]) →
    has (entry s.mem pt i) ptePresent = true → own (frameOf (entry s.mem pt i)) = some (r, q ++ [i])
  page : ∀ {f r q i}, own f = some (r, q ++ [i]) → q.length = 3 → Tracked (q ++ [i]) ∧
    ∃ pt, own pt = some (r, q) ∧ has (Mmu.entry s.mem pt i) ptePresent = true ∧ frameOf (Mmu.entry s.mem pt i) = f
  short : ∀ {f r q}, own f = some (r, q) → q.length ≤ 4
  /-- All but the kernel's tables come from the manager. -/
  taken : ∀ {f r q}, own f = some (r, q) → r ≠ s.kernelCtx ∨ 3 < q.length →
    f ≠ 0 ∧ f / 4096 < 8 * s.pmm.bitmapBytes

/-- Tables and pages with their labels. -/
structure Owned (s : MemState) (own : Label) : Prop where
  trees : Trees s own
  shared : SharedHalf s own
  pages : Pages s own

section Addresses

variable {v w : Nat}

theorem InWindow.canonical (h : InWindow v) : Canonical v := by
  obtain ⟨h1, h2⟩ := h
  unfold kheapVirtBase at h1 h2
  exact .inr ⟨by omega, by omega⟩

theorem InWindow.high (h : InWindow v) : ¬ pml4Idx v < 256 := by
  rw [h.canonical.low_iff]
  obtain ⟨h1, -⟩ := h
  unfold kheapVirtBase at h1
  unfold userSpaceEnd
  omega

theorem pagePath_length (v : Nat) : (pagePath v).length = 4 := rfl

theorem Canonical.pagePath_eq (hv : Canonical v) (hw : Canonical w) : pagePath v = pagePath w ↔ v / 4096 = w / 4096 := by
  constructor
  · intro h
    obtain ⟨h1, h2⟩ := List.append_inj' h rfl
    exact hv.page_eq hw h1 (List.cons.inj h2).1
  · intro h
    obtain ⟨h1, h2⟩ := page_indices h
    rw [pagePath, pagePath, h1, h2]

theorem tracked_low (h : v < userSpaceEnd) : Tracked (pagePath v) := by
  refine .inl fun j hj => ?_
  cases hj
  exact low_index h

theorem InWindow.tracked (h : InWindow v) : Tracked (pagePath v) := .inr ⟨v, h, rfl⟩

end Addresses

/-! ## Steps that write no leaf entry -/

section Steps

variable {s s' : MemState} {own own' : Label} {r v : Nat} {p : List Nat} {flags : Entry}

theorem Grow.old_label (g : Grow s own s' own' r p flags) (hp : p <+: tablePath v) {f c : Nat} {q : List Nat}
    (hf : own' f = some (c, q)) (hq : 3 < q.length) : own f = some (c, q) := by
  rcases g.added hf with hold | ⟨-, -, -, -, hle⟩
  · exact hold
  · have := (hle.trans hp).length_le
    rw [tablePath_length] at this
    omega

theorem Pages.grow (h : Pages s own) (ht : Trees s own) (g : Grow s own s' own' r p flags) (hp : p <+: tablePath v) :
    Pages s' own' := by
  refine ⟨?_, ?_, ?_, ?_⟩
  · intro pt c q i hpt hlen hi htr hpres
    rcases g.leafEntries hp hpt hlen hi with ⟨hold, he⟩ | ⟨-, he⟩
    · rw [he] at hpres ⊢
      exact g.kept (h.entry hold hlen hi htr hpres)
    · rw [he, zero_has] at hpres; cases hpres
  · intro f c q i hf hlen
    have hold := g.old_label hp hf (by rw [List.length_append, List.length_singleton]; omega)
    obtain ⟨htr, pt, hpt, hpres, hframe⟩ := h.page hold hlen
    have hi : i < 512 := (ht.inTree hold).1 i (List.mem_append_right _ List.mem_cons_self)
    refine ⟨htr, pt, g.kept hpt, ?_⟩
    rcases g.leafEntries hp (g.kept hpt) hlen hi with ⟨-, he⟩ | ⟨hnone, -⟩
    · rw [he]
      exact ⟨hpres, hframe⟩
    · rw [hpt] at hnone; cases hnone
  · intro f c q hf
    rcases g.added hf with hold | ⟨-, -, -, -, hle⟩
    · exact h.short hold
    · have := (hle.trans hp).length_le
      rw [tablePath_length] at this
      omega
  · intro f c q hf hc
    rw [g.rest.bytes]
    rw [g.rest.kernelCtx] at hc
    rcases g.added hf with hold | ⟨hnone, -⟩
    · exact h.taken hold hc
    · exact g.taken hnone (by rw [hf]; simp)

theorem Pages.keep (h : Pages s own) (ht : Trees s own) (hsame : SameTables s own s') (hk : s'.kernelCtx = s.kernelCtx)
    (hb : s'.pmm.bitmapBytes = s.pmm.bitmapBytes) : Pages s' own := by
  refine ⟨?_, ?_, h.short, by rw [hk, hb]; exact h.taken⟩
  · intro pt c q i hpt hlen hi htr hpres
    rw [hsame pt _ hpt i hi] at hpres ⊢
    exact h.entry hpt hlen hi htr hpres
  · intro f c q i hf hlen
    obtain ⟨htr, pt, hpt, hpres, hframe⟩ := h.page hf hlen
    have hi : i < 512 := (ht.inTree hf).1 i (List.mem_append_right _ List.mem_cons_self)
    refine ⟨htr, pt, hpt, ?_⟩
    rw [hsame pt _ hpt i hi]
    exact ⟨hpres, hframe⟩

end Steps

/-! ## Writing a leaf entry -/

/-- The frame `o`, if any, has the label `l` now, and nothing else does. -/
def relabel (own : Label) (l : Nat × List Nat) (o : Option Nat) : Label := fun f =>
  if o = some f then some l else if own f = some l then none else own f

section Relabel

variable {s s' : MemState} {own : Label} {l : Nat × List Nat} {o : Option Nat} {f r n : Nat} {q : List Nat}

theorem relabel_table (hl : 3 < l.2.length) (ho : ∀ n, o = some n → own n = none) (hq : q.length ≤ 3) :
    relabel own l o f = some (r, q) ↔ own f = some (r, q) := by
  have hne : ∀ {r}, l ≠ (r, q) := by
    rintro r rfl
    exact absurd hl (by simpa using hq)
  unfold relabel
  constructor
  · intro h
    split at h
    · exact absurd (Option.some.inj h) hne
    · split at h
      · cases h
      · exact h
  · intro h
    rw [if_neg, if_neg]
    · exact h
    · rw [h]
      exact fun he => hne (Option.some.inj he).symm
    · intro he
      rw [ho f he] at h
      cases h

theorem of_relabel (h : relabel own l o f = some (r, q)) : (o = some f ∧ (r, q) = l) ∨
    (own f = some (r, q) ∧ (r, q) ≠ l) := by
  unfold relabel at h
  split at h
  · rename_i he
    exact .inl ⟨he, (Option.some.inj h).symm⟩
  · split at h
    · cases h
    · rename_i hne
      exact .inr ⟨h, fun he => hne (by rw [h, he])⟩

theorem relabel_other (hne : (r, q) ≠ l) (ho : ∀ n, o = some n → own n = none) (h : own f = some (r, q)) :
    relabel own l o f = some (r, q) := by
  rw [relabel, if_neg, if_neg, h]
  · rw [h]
    exact fun he => hne (Option.some.inj he)
  · intro he
    rw [ho f he] at h
    cases h

theorem Trees.relabel (h : Trees s own) (hl : 3 < l.2.length) (hroot : own l.1 = some (l.1, []))
    (hin : InTree s.kernelCtx l.1 l.2)
    (ho : ∀ n, o = some n → own n = none ∧ IsFrame n ∧ s.pmm.marked (n / 4096) = true) : Trees s (relabel own l o) := by
  have hnone : ∀ n, o = some n → own n = none := fun n hn => (ho n hn).1
  refine ⟨h.pmm, ?_, ?_, ?_, ?_, ⟨?_, ?_, ?_⟩, ?_⟩
  · rintro f ⟨r, q⟩ hf
    rcases of_relabel hf with ⟨he, -⟩ | ⟨hf, -⟩
    · exact (ho f he).2
    · exact h.frame hf
  · intro f r q hf
    rw [relabel_table hl hnone (q := []) (by simp)]
    rcases of_relabel hf with ⟨-, he⟩ | ⟨hf, -⟩
    · rw [← he] at hroot
      exact hroot
    · exact h.root hf
  · intro f r q hf
    rcases of_relabel hf with ⟨-, he⟩ | ⟨hf, -⟩
    · rw [← he] at hin
      exact hin
    · exact h.inTree hf
  · exact (relabel_table hl hnone (by simp)).2 h.kernel
  · intro u r hu
    exact h.labelled.root ((relabel_table hl hnone (by simp)).1 hu)
  · intro t r p i u ht hp hc
    rw [relabel_table hl hnone hp.of_append.1] at ht
    exact (relabel_table hl hnone hp.1).2 (h.labelled.slot ht hp hc)
  · intro u r p i hu hp
    rw [relabel_table hl hnone hp.1] at hu
    obtain ⟨t, ht, hc⟩ := h.labelled.linked hu hp
    exact ⟨t, (relabel_table hl hnone hp.of_append.1).2 ht, hc⟩
  · intro t r p i ht hp
    rw [relabel_table hl hnone hp.of_append.1] at ht
    exact h.noHuge ht hp

theorem SharedHalf.relabel (h : SharedHalf s own) (hl : 3 < l.2.length) (ho : ∀ n, o = some n → own n = none) :
    SharedHalf s (relabel own l o) :=
  fun c hc => h c ((relabel_table hl ho (by simp)).1 hc)

/-- The frame that a new leaf entry leads to, if it leads to one. -/
structure NewPage (s : MemState) (own : Label) (e : Entry) (o : Option Nat) : Prop where
  fresh : ∀ n, o = some n → own n = none ∧ IsFrame n ∧ s.pmm.marked (n / 4096) = true
  taken : ∀ n, o = some n → n ≠ 0 ∧ n / 4096 < 8 * s.pmm.bitmapBytes
  present : has e ptePresent = o.isSome
  frame : ∀ n, o = some n → frameOf e = n

theorem Owned.write {pt i : Nat} {e : Entry} (h : Owned s own) (hpt : own pt = some (r, q)) (hq : q.length = 3)
    (hi : i < 512) (htr : Tracked (q ++ [i])) (hn : NewPage s own e o) (log : List MapEvent) :
    Owned { s with mem := setEntry s.mem pt i e, log } (relabel own (r, q ++ [i]) o) := by
  have hlen : 3 < (q ++ [i]).length := by rw [List.length_append, List.length_singleton]; omega
  have hroot := h.trees.root hpt
  have hin : InTree s.kernelCtx r (q ++ [i]) := by
    obtain ⟨h1, h2⟩ := h.trees.inTree hpt
    refine ⟨?_, ?_⟩
    · intro j hj
      rcases List.mem_append.1 hj with hj | hj
      · exact h1 j hj
      · rw [List.mem_singleton.1 hj]; exact hi
    · refine h2.imp_right fun h2 j hj => h2 j ?_
      cases q with
      | nil => cases hq
      | cons a q => exact hj
  have hnone : ∀ n, o = some n → own n = none := fun n hn' => (hn.fresh n hn').1
  have ht' := (h.trees.leaf hpt hq hi (e := e) log).relabel (l := (r, q ++ [i])) (o := o) hlen hroot hin hn.fresh
  have hsh' := (h.shared.leaf h.trees hpt hq hi (e := e) log).relabel (l := (r, q ++ [i])) (o := o) hlen hnone
  have hkeep : ∀ {t j pl}, own t = some pl → j < 512 → ¬ (t = pt ∧ j = i) →
      entry (setEntry s.mem pt i e) t j = entry s.mem t j :=
    fun ht hj hne => h.trees.entry_setEntry hpt hi ht hj (not_and_or.1 hne)
  -- the place of another slot is another place
  have hplace : ∀ {t j c p}, own t = some (c, p) → p.length = 3 → ¬ (t = pt ∧ j = i) → (c, p ++ [j]) ≠ (r, q ++ [i]) := by
    intro t j c p ht hp hne heq
    obtain ⟨rfl, hpath⟩ := Prod.mk.inj heq
    obtain ⟨rfl, hji⟩ := List.append_inj' hpath rfl
    have hinside : Inside s.kernelCtx c p := ⟨by omega, h.trees.inTree hpt⟩
    exact hne ⟨h.trees.unique hinside ht hpt, (List.cons.inj hji).1⟩
  refine ⟨ht', hsh', ⟨?_, ?_, ?_, ?_⟩⟩
  · intro t c p j ht hp hj htr' hpres
    rw [relabel_table hlen hnone (by omega)] at ht
    by_cases hslot : t = pt ∧ j = i
    · obtain ⟨rfl, rfl⟩ := hslot
      rw [hpt] at ht
      cases ht
      rw [show entry (setEntry s.mem t j e) t j = e from entry_setEntry_same, hn.present] at hpres
      obtain ⟨n, rfl⟩ := Option.isSome_iff_exists.1 hpres
      show Mmu.relabel own (r, q ++ [j]) (some n) (frameOf (entry (setEntry s.mem t j e) t j)) = _
      rw [entry_setEntry_same, hn.frame n rfl, Mmu.relabel, if_pos rfl]
    · have he := hkeep ht hj hslot
      rw [show entry (setEntry s.mem pt i e) t j = _ from he] at hpres
      show Mmu.relabel own (r, q ++ [i]) o (frameOf (entry (setEntry s.mem pt i e) t j)) = _
      rw [he]
      exact relabel_other (hplace ht hp hslot) hnone (h.pages.entry ht hp hj htr' hpres)
  · intro f c p j hf hp
    show Tracked (p ++ [j]) ∧ ∃ pt', Mmu.relabel own (r, q ++ [i]) o pt' = some (c, p) ∧
      has (entry (setEntry s.mem pt i e) pt' j) ptePresent = true ∧ frameOf (entry (setEntry s.mem pt i e) pt' j) = f
    rcases of_relabel hf with ⟨rfl, heq⟩ | ⟨hf, hne⟩
    · obtain ⟨rfl, hpath⟩ := Prod.mk.inj heq
      obtain ⟨rfl, hji⟩ := List.append_inj' hpath rfl
      obtain rfl := (List.cons.inj hji).1
      refine ⟨htr, pt, (relabel_table hlen hnone (by omega)).2 hpt, ?_⟩
      rw [entry_setEntry_same]
      exact ⟨hn.present, hn.frame f rfl⟩
    · obtain ⟨htr', t, ht, hpres, hframe⟩ := h.pages.page hf hp
      have hj : j < 512 := (h.trees.inTree hf).1 j (List.mem_append_right _ List.mem_cons_self)
      refine ⟨htr', t, (relabel_table hlen hnone (by omega)).2 ht, ?_⟩
      rw [hkeep ht hj ?_]
      · exact ⟨hpres, hframe⟩
      · rintro ⟨rfl, rfl⟩
        rw [hpt] at ht
        cases ht
        exact hne rfl
  · intro f c p hf
    rcases of_relabel hf with ⟨-, heq⟩ | ⟨hf, -⟩
    · cases heq
      rw [List.length_append, List.length_singleton]
      omega
    · exact h.pages.short hf
  · intro f c p hf hc
    rcases of_relabel hf with ⟨he, -⟩ | ⟨hf, -⟩
    · exact hn.taken f he
    · exact h.pages.taken hf hc

end Relabel

/-! ## Steps on labelled tables and pages -/

/-- The labels without those in the tree of `c`. -/
def drop (own : Label) (c : Nat) : Label := fun f => (own f).filter fun l => l.1 ≠ c

section Owned

variable {s s' : MemState} {own own' : Label} {r v : Nat} {p : List Nat} {flags : Entry}

theorem drop_iff {c f : Nat} {q : List Nat} : drop own c f = some (r, q) ↔ own f = some (r, q) ∧ r ≠ c := by
  rw [drop, Option.filter_eq_some_iff, decide_eq_true_iff]

theorem Owned.grow (h : Owned s own) (g : Grow s own s' own' r p flags) (hp : p <+: tablePath v)
    (hu : has flags pteUser = true → v < userSpaceEnd) : Owned s' own' := by
  refine ⟨g.trees, h.shared.grow g h.trees ?_, h.pages.grow h.trees g hp⟩
  intro i hi hip
  rw [← Bool.not_eq_true]
  intro hf
  have hidx := head_of_path hp hip
  exact absurd (hu hf) (Nat.not_lt.2 (userSpaceEnd_le (by omega)))

theorem Owned.keep (h : Owned s own) (hsame : SameTables s own s') (hk : s'.kernelCtx = s.kernelCtx)
    (hb : s'.pmm.bitmapBytes = s.pmm.bitmapBytes) (hpmm : s'.pmm.Ok)
    (hmark : ∀ f pl, own f = some pl → s'.pmm.marked (f / 4096) = true) : Owned s' own :=
  ⟨h.trees.keep hk hpmm hmark hsame, h.shared.keep h.trees hk fun c hc i _ hi => hsame c _ hc i hi,
    h.pages.keep h.trees hsame hk hb⟩

theorem Owned.created {n : Nat} (h : Owned s own) (hn : Created s own n s') :
    Owned s' (update own n (some (n, []))) := by
  have hold : ∀ {f pl}, own f = some pl → update own n (some (n, [])) f = some pl :=
    fun hf => update_of_fresh hn.unused hf
  have hcases : ∀ {f pl}, update own n (some (n, [])) f = some pl → (f = n ∧ pl = (n, [])) ∨ own f = some pl :=
    fun hf => (update_some_iff.1 hf).imp_right And.right
  refine ⟨hn.trees, hn.shared, ?_, ?_, ?_, ?_⟩
  · intro pt c q i hpt hlen hi htr hpres
    rcases hcases hpt with ⟨-, heq⟩ | hpt
    · cases heq
      cases hlen
    · rw [hn.tables pt _ hpt i hi] at hpres ⊢
      exact hold (h.pages.entry hpt hlen hi htr hpres)
  · intro f c q i hf hlen
    rcases hcases hf with ⟨-, heq⟩ | hf
    · exact absurd (congrArg Prod.snd heq) (by simp)
    · obtain ⟨htr, pt, hpt, hpres, hframe⟩ := h.pages.page hf hlen
      have hi : i < 512 := (h.trees.inTree hf).1 i (List.mem_append_right _ List.mem_cons_self)
      refine ⟨htr, pt, hold hpt, ?_⟩
      rw [hn.tables pt _ hpt i hi]
      exact ⟨hpres, hframe⟩
  · intro f c q hf
    rcases hcases hf with ⟨-, heq⟩ | hf
    · cases heq
      exact Nat.zero_le 4
    · exact h.pages.short hf
  · intro f c q hf hc
    rw [hn.rest.bytes]
    rw [hn.rest.kernelCtx] at hc
    rcases hcases hf with ⟨rfl, -⟩ | hf
    · exact hn.taken
    · exact h.pages.taken hf hc

/-- Without the tree of `c`, which is not the kernel's, the labels still fit. -/
theorem Owned.drop {c : Nat} (h : Owned s own) (hc : c ≠ s.kernelCtx) (hmem : s'.mem = s.mem)
    (hk : s'.kernelCtx = s.kernelCtx) (hb : s'.pmm.bitmapBytes = s.pmm.bitmapBytes) (hpmm : s'.pmm.Ok)
    (hmark : ∀ f r q, own f = some (r, q) → r ≠ c → s'.pmm.marked (f / 4096) = true) : Owned s' (drop own c) := by
  refine ⟨⟨hpmm, ?_, ?_, ?_, ?_, ⟨?_, ?_, ?_⟩, ?_⟩, ?_, ?_, ?_, ?_, ?_⟩
  · rintro f ⟨r, q⟩ hf
    obtain ⟨hf, hne⟩ := drop_iff.1 hf
    exact ⟨(h.trees.frame hf).1, hmark f r q hf hne⟩
  · intro f r q hf
    obtain ⟨hf, hne⟩ := drop_iff.1 hf
    exact drop_iff.2 ⟨h.trees.root hf, hne⟩
  · intro f r q hf
    rw [hk]
    exact h.trees.inTree (drop_iff.1 hf).1
  · rw [hk]
    exact drop_iff.2 ⟨h.trees.kernel, hc.symm⟩
  · intro u r hu
    exact h.trees.labelled.root (drop_iff.1 hu).1
  · intro t r q i u ht hin hchild
    obtain ⟨ht, hne⟩ := drop_iff.1 ht
    rw [hk] at hin
    rw [hmem] at hchild
    exact drop_iff.2 ⟨h.trees.labelled.slot ht hin hchild, hne⟩
  · intro u r q i hu hin
    obtain ⟨hu, hne⟩ := drop_iff.1 hu
    rw [hk] at hin
    obtain ⟨t, ht, hchild⟩ := h.trees.labelled.linked hu hin
    exact ⟨t, drop_iff.2 ⟨ht, hne⟩, by rw [hmem]; exact hchild⟩
  · intro t r q i ht hin
    rw [hk] at hin
    rw [hmem]
    exact h.trees.noHuge (drop_iff.1 ht).1 hin
  · intro d hd i h1 h2
    rw [hmem, hk]
    exact h.shared d (drop_iff.1 hd).1 i h1 h2
  · intro pt r q i hpt hlen hi htr hpres
    obtain ⟨hpt, hne⟩ := drop_iff.1 hpt
    rw [hmem] at hpres ⊢
    exact drop_iff.2 ⟨h.pages.entry hpt hlen hi htr hpres, hne⟩
  · intro f r q i hf hlen
    obtain ⟨hf, hne⟩ := drop_iff.1 hf
    obtain ⟨htr, pt, hpt, hrest⟩ := h.pages.page hf hlen
    exact ⟨htr, pt, drop_iff.2 ⟨hpt, hne⟩, by rw [hmem]; exact hrest⟩
  · intro f r q hf
    exact h.pages.short (drop_iff.1 hf).1
  · intro f r q hf hr
    rw [hk] at hr
    rw [hb]
    exact h.pages.taken (drop_iff.1 hf).1 hr

end Owned

end ToastOS.Mmu
