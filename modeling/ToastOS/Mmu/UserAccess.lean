import ToastOS.Mmu.Boot

/-!
# What user code can reach

`walk_user` takes the conjunction of the U/S bits over four levels, three of them shared with other pages. `Access` ties
these bits to the latest mapping of each page: the leaf entry has the bits of that mapping, a user page has an open path,
and a page that is not mapped has no entry. An open path alone gives nothing away, so upgrading a slot on it, also for a call
that fails afterwards, is harmless (`user_access_exact`).
-/

namespace ToastOS.Mmu

open ToastOS.Lib Function

variable {q : List Nat} {c d i pt w : Nat} {m : Mem} {s : MemState} {own : Label}

/-- The flags of the latest mapping of a page, if it has not been unmapped since. -/
def lastFlags (log : List MapEvent) (ctx page : Nat) : Option Entry :=
  (log.find? fun e => e.ctx = ctx ∧ e.page = page).bind MapEvent.flags

theorem lastFlags_cons (log : List MapEvent) (c c' page page' : Nat) (fl : Option Entry) :
    lastFlags (⟨c', page', fl⟩ :: log) c page = if c' = c ∧ page' = page then fl else lastFlags log c page := by
  unfold lastFlags
  rw [List.find?_cons]
  by_cases h : c' = c ∧ page' = page
  · simp [h]
  · simp [h]

/-- The user bit is set in every slot on the path to the page table of `v`. -/
def OpenPath (s : MemState) (own : Label) (c v : Nat) : Prop :=
  ∀ t q i, own t = some (c, q) → q ++ [i] <+: tablePath v → has (entry s.mem t i) pteUser = true

/-- The leaf entry `e` of a page that was mapped with `fl`. -/
def LeafOf (e fl : Entry) : Prop :=
  has e ptePresent = true ∧ has e pteUser = has fl pteUser ∧ has e pteWrite = has fl pteWrite

structure Access (s : MemState) (own : Label) : Prop where
  logged : ∀ e ∈ s.log, own e.ctx = some (e.ctx, [])
  mapped : ∀ c v fl, own c = some (c, []) → v < userSpaceEnd → lastFlags s.log c (v / 4096) = some fl →
    ∃ pt, own pt = some (c, tablePath v) ∧ LeafOf (entry s.mem pt (ptIdx v)) fl ∧
      (has fl pteUser = true → OpenPath s own c v)
  unmapped : ∀ c v pt, v < userSpaceEnd → own pt = some (c, tablePath v) → lastFlags s.log c (v / 4096) = none →
    has (entry s.mem pt (ptIdx v)) ptePresent = false
  write : ∀ t r q i, own t = some (r, q) → Inside s.kernelCtx r (q ++ [i]) → (∀ j ∈ (q ++ [i]).head?, j < 256) →
    has (entry s.mem t i) ptePresent = true → has (entry s.mem t i) pteWrite = true
  high : ∀ t r q, own t = some (r, q) → q.length = 3 → (∀ j ∈ q.head?, 256 ≤ j) → ∀ i < 512,
    has (entry s.mem t i) ptePresent = true → has (entry s.mem t i) pteUser = false

section Bits

variable {flags flag : Entry} {pa : Nat}

theorem has_leafEntry (hf : pteFrameMask &&& flag = 0) :
    has (leafEntry pa flags) flag = (has ptePresent flag || has flags flag) := by
  rw [leafEntry, has_or, has_or, has_frame_and hf, Bool.false_or]

theorem leafOf_leafEntry : LeafOf (leafEntry pa flags) flags := by
  refine ⟨?_, ?_, ?_⟩
  · rw [has_leafEntry (by decide), show has ptePresent ptePresent = true by decide, Bool.true_or]
  · rw [has_leafEntry (by decide), show has ptePresent pteUser = false by decide, Bool.false_or]
  · rw [has_leafEntry (by decide), show has ptePresent pteWrite = false by decide, Bool.false_or]

end Bits

section Moves

variable {P : Nat → Option Entry → Prop} {s' : MemState} {own' : Label} {v r : Nat} {p : List Nat} {flags : Entry}

theorem pt_not_on_path (hp : p <+: tablePath v) (hq : q.length = 3) : ¬ q ++ [i] <+: p := by
  intro h
  have := (h.trans hp).length_le
  rw [List.length_append, List.length_singleton, tablePath_length] at this
  omega

/-- Growing changes no entry of a page table that was there, and a new one is empty. -/
theorem Grow.leafEntries (g : Grow s own s' own' r p flags) (hp : p <+: tablePath v) {pl : Nat × List Nat}
    (hpt : own' pt = some pl) (hlen : pl.2.length = 3) (hi : i < 512) :
    (own pt = some pl ∧ entry s'.mem pt i = entry s.mem pt i) ∨ (own pt = none ∧ entry s'.mem pt i = 0) := by
  obtain ⟨c, q⟩ := pl
  rcases g.added hpt with hold | ⟨hnone, -⟩
  · exact .inl ⟨hold, (g.entries hold hi).resolve_right fun hx => pt_not_on_path hp hlen hx.2.1⟩
  · exact .inr ⟨hnone, (g.fresh hnone hpt hi).resolve_right fun hx => pt_not_on_path hp hlen hx.2.1⟩

theorem OpenPath.grow (ho : OpenPath s own c v) (h : Trees s own) (g : Grow s own s' own' r p flags)
    (hin : Inside s.kernelCtx c (tablePath v)) (hpt : own pt = some (c, tablePath v)) : OpenPath s' own' c v := by
  intro t q i ht hq
  obtain ⟨l, hl⟩ := hq
  rw [← hl] at hin hpt
  obtain ⟨t₀, u, ht₀, hc, -⟩ := h.along hin hpt
  have hin' : Inside s'.kernelCtx c q := by rw [g.rest.kernelCtx]; exact hin.of_append.of_append
  obtain rfl : t₀ = t := g.trees.unique hin' (g.kept ht₀) ht
  have hold := ho t₀ q i ht₀ ⟨l, hl⟩
  rcases g.entries ht₀ hin.of_append.slot_lt with he | ⟨-, -, ⟨-, -, he⟩ | ⟨hn, -⟩⟩
  · rw [he]; exact hold
  · rw [he, has_or, hold, Bool.true_or]
  · rw [(present_of_child hc).1] at hn; cases hn

theorem inside_low (s : MemState) (c : Nat) (hv : v < userSpaceEnd) : Inside s.kernelCtx c (tablePath v) := by
  have h := inside_tablePath s c v
  rwa [treeRoot, if_pos (low_index hv)] at h

theorem Grow.write (g : Grow s own s' own' r p flags) {t c q i} (ht : own' t = some (c, q)) (hi : i < 512)
    (hold : own t = some (c, q) → has (entry s.mem t i) ptePresent = true → has (entry s.mem t i) pteWrite = true)
    (hp : has (entry s'.mem t i) ptePresent = true) : has (entry s'.mem t i) pteWrite = true := by
  have hup : ∀ {e e'}, Upgrade flags e e' → (has e ptePresent = true → has e pteWrite = true) → has e' pteWrite = true := by
    rintro e e' (⟨he, -, rfl⟩ | ⟨-, n, hn, rfl⟩) hw
    · rw [has_or, hw he, Bool.true_or]
    · exact write_linkEntry hn
  rcases g.added ht with ho | ⟨hnone, -⟩
  · rcases g.entries ho hi with he | ⟨-, -, hu⟩
    · rw [he] at hp ⊢
      exact hold ho hp
    · exact hup hu (hold ho)
  · rcases g.fresh hnone ht hi with he | ⟨-, -, hu⟩
    · rw [he, zero_has] at hp; cases hp
    · exact hup hu fun h => by rw [zero_has] at h; cases h

theorem Access.grow (h : Access s own) (ht : Trees s own) (g : Grow s own s' own' r p flags) (hp : p <+: tablePath v) :
    Access s' own' := by
  refine ⟨?_, ?_, ?_, ?_, ?_⟩
  · rw [g.rest.log]
    exact fun e he => g.kept (h.logged e he)
  · intro c w fl hc hw hfl
    rw [g.rest.log] at hfl
    have hc : own c = some (c, []) := (g.added hc).resolve_right fun hx => hx.2.2.2.1 rfl
    obtain ⟨pt, hpt, hleaf, hopen⟩ := h.mapped c w fl hc hw hfl
    refine ⟨pt, g.kept hpt, ?_, fun hu => (hopen hu).grow ht g (inside_low s c hw) hpt⟩
    rcases g.leafEntries hp (g.kept hpt) rfl (ptIdx_lt w) with ⟨-, he⟩ | ⟨hnone, -⟩
    · rw [he]; exact hleaf
    · rw [hpt] at hnone; cases hnone
  · intro c w pt hw hpt hfl
    rw [g.rest.log] at hfl
    rcases g.leafEntries hp hpt rfl (ptIdx_lt w) with ⟨hold, he⟩ | ⟨-, he⟩
    · rw [he]; exact h.unmapped c w pt hw hold hfl
    · rw [he, zero_has]
  · intro t c q i hto hin hhead hpres
    rw [g.rest.kernelCtx] at hin
    exact g.write hto hin.slot_lt (fun ho => h.write t c q i ho hin hhead) hpres
  · intro t c q hto hlen hhead i hi hpres
    rcases g.leafEntries hp hto hlen hi with ⟨hold, he⟩ | ⟨-, he⟩
    · rw [he] at hpres ⊢
      exact h.high t c q hold hlen hhead i hi hpres
    · rw [he, zero_has]

theorem page_low (h : v / 4096 = w / 4096) (hw : w < userSpaceEnd) : v < userSpaceEnd := by
  unfold userSpaceEnd at *
  omega

theorem slot_ne_leaf {t : Nat} {pl : Nat × List Nat} (ht : own t = some (r, q))
    (hq : (q ++ [i]).length ≤ 3) (hpt : own pt = some pl) (hlen : pl.2.length = 3) : t ≠ pt := by
  rintro rfl
  rw [ht] at hpt
  cases hpt
  rw [List.length_append, List.length_singleton] at hq
  have : q.length = 3 := hlen
  omega

/-! `e` is written for the page of `v`, into the page table `pt` of it. -/

section Leaf

variable {e : Entry} {fl : Option Entry} (ht : Trees s own) (hpt : own pt = some (treeRoot s c v, tablePath v))

include ht hpt in
theorem entry_of_slot {t : Nat} (hto : own t = some (d, q)) (hi : i < 512) (hq : (q ++ [i]).length ≤ 3) :
    entry (setEntry s.mem pt (ptIdx v) e) t i = entry s.mem t i :=
  ht.entry_setEntry hpt (ptIdx_lt v) hto hi (.inl (slot_ne_leaf hto hq hpt rfl))

include ht hpt in
theorem entry_of_page_ne {pt' : Nat} (hv : Canonical v) (hlow : w < userSpaceEnd) (hpt' : own pt' = some (d, tablePath w))
    (hne : ¬ (c = d ∧ v / 4096 = w / 4096)) :
    entry (setEntry s.mem pt (ptIdx v) e) pt' (ptIdx w) = entry s.mem pt' (ptIdx w) := by
  refine ht.entry_setEntry hpt (ptIdx_lt v) hpt' (ptIdx_lt w) ?_
  by_contra hboth
  rw [not_or, not_not, not_not] at hboth
  obtain ⟨rfl, hidx⟩ := hboth
  rw [hpt] at hpt'
  obtain ⟨hroot, hpath⟩ := Prod.mk.inj (Option.some.inj hpt')
  refine hne ⟨?_, hv.page_eq (.inl hlow) hpath hidx.symm⟩
  have hidx4 : pml4Idx v = pml4Idx w := (List.cons.inj hpath).1
  rw [treeRoot, if_pos (by rw [hidx4]; exact low_index hlow)] at hroot
  exact hroot

include hpt in
/-- The page table of a user page is in the tree of its context. -/
theorem own_of_page_eq (hpage : v / 4096 = w / 4096) (hlow : w < userSpaceEnd) :
    own pt = some (c, tablePath w) ∧ treeRoot s c v = c := by
  have hroot : treeRoot s c v = c := if_pos (low_index (page_low hpage hlow))
  rw [hroot, (page_indices hpage).1] at hpt
  exact ⟨hpt, hroot⟩

include ht hpt in
theorem OpenPath.leaf (hlow : w < userSpaceEnd) (ho : OpenPath s own d w) (log : List MapEvent) :
    OpenPath { s with mem := setEntry s.mem pt (ptIdx v) e, log } own d w := by
  intro t q i hto hq
  have hin : Inside s.kernelCtx d (q ++ [i]) := by
    obtain ⟨l, hl⟩ := hq
    exact Inside.of_append (q := l) (by rw [hl]; exact inside_low s d hlow)
  show has (entry (setEntry s.mem pt (ptIdx v) e) t i) pteUser = true
  rw [entry_of_slot ht hpt hto hin.slot_lt hin.1]
  exact ho t q i hto hq

include ht hpt in
theorem Access.leaf (h : Access s own) (hc : own c = some (c, [])) (hv : Canonical v) (hw : LeafWrite s own c v e fl) :
    Access { s with mem := setEntry s.mem pt (ptIdx v) e, log := ⟨c, v / 4096, fl⟩ :: s.log } own := by
  have hsame : entry (setEntry s.mem pt (ptIdx v) e) pt (ptIdx v) = e := entry_setEntry_same
  refine ⟨?_, ?_, ?_, ?_, ?_⟩
  · intro ev hev
    rcases List.mem_cons.1 hev with rfl | hev
    · exact hc
    · exact h.logged ev hev
  · intro d w f hd hlow hf
    simp only [lastFlags_cons] at hf
    split at hf
    · -- the page that is mapped now
      rename_i heq
      obtain ⟨rfl, hpage⟩ := heq
      subst hf
      obtain ⟨⟨pa, rfl⟩, hu⟩ := hw
      obtain ⟨hpath, hidx⟩ := page_indices hpage
      obtain ⟨hpt', hroot⟩ := own_of_page_eq hpt hpage hlow
      refine ⟨pt, hpt', ?_, fun hfu => OpenPath.leaf ht hpt hlow ?_ _⟩
      · show LeafOf (entry (setEntry s.mem pt (ptIdx v) (leafEntry pa f)) pt (ptIdx w)) f
        rw [← hidx, hsame]
        exact leafOf_leafEntry
      · have := (hu hfu).2
        rw [hroot, hpath] at this
        exact this
    · rename_i hne
      obtain ⟨pt', hpt', hleaf, ho⟩ := h.mapped d w f hd hlow hf
      refine ⟨pt', hpt', ?_, fun hfu => OpenPath.leaf ht hpt hlow (ho hfu) _⟩
      show LeafOf (entry (setEntry s.mem pt (ptIdx v) e) pt' (ptIdx w)) f
      rw [entry_of_page_ne ht hpt hv hlow hpt' hne]
      exact hleaf
  · intro d w pt' hlow hpt' hf
    simp only [lastFlags_cons] at hf
    show has (entry (setEntry s.mem pt (ptIdx v) e) pt' (ptIdx w)) ptePresent = false
    split at hf
    · rename_i heq
      obtain ⟨rfl, hpage⟩ := heq
      subst hf
      obtain rfl : e = 0 := hw
      obtain rfl : pt' = pt := ht.unique (inside_low s c hlow) hpt' (own_of_page_eq hpt hpage hlow).1
      rw [← (page_indices hpage).2, hsame, zero_has]
    · rename_i hne
      rw [entry_of_page_ne ht hpt hv hlow hpt' hne]
      exact h.unmapped d w pt' hlow hpt' hf
  · intro t d q i hto hin hhead hpres
    have he := entry_of_slot ht hpt (e := e) hto hin.slot_lt hin.1
    rw [show entry (setEntry s.mem pt (ptIdx v) e) t i = _ from he] at hpres ⊢
    exact h.write t d q i hto hin hhead hpres
  · intro t d q hto hlen hhead i hi hpres
    by_cases hti : t = pt ∧ i = ptIdx v
    · obtain ⟨rfl, rfl⟩ := hti
      rw [hpt] at hto
      cases hto
      rw [show entry (setEntry s.mem t (ptIdx v) e) t (ptIdx v) = e from hsame] at hpres ⊢
      cases fl with
      | none => rw [show e = 0 from hw, zero_has]
      | some f =>
        obtain ⟨⟨pa, rfl⟩, hu⟩ := hw
        rw [leafOf_leafEntry.2.1, ← Bool.not_eq_true]
        intro hfu
        have h1 := low_index (hu hfu).1
        have h2 := hhead (pml4Idx v) rfl
        omega
    · have he : entry (setEntry s.mem pt (ptIdx v) e) t i = entry s.mem t i :=
        ht.entry_setEntry hpt (ptIdx_lt v) hto hi (not_and_or.1 hti)
      rw [show entry (setEntry s.mem pt (ptIdx v) e) t i = _ from he] at hpres ⊢
      exact h.high t d q hto hlen hhead i hi hpres

end Leaf

theorem Access.keep (h : Access s own) (hsame : SameTables s own s') (hk : s'.kernelCtx = s.kernelCtx)
    (hlog : s'.log = s.log) : Access s' own := by
  refine ⟨by rw [hlog]; exact h.logged, ?_, ?_, ?_, ?_⟩
  · intro d w f hd hlow hf
    rw [hlog] at hf
    obtain ⟨pt, hpt, hleaf, ho⟩ := h.mapped d w f hd hlow hf
    refine ⟨pt, hpt, by rw [hsame pt _ hpt _ (ptIdx_lt w)]; exact hleaf, fun hfu t q i hto hq => ?_⟩
    have hi : i < 512 := by
      obtain ⟨l, hl⟩ := hq
      exact Inside.slot_lt (Inside.of_append (q := l) (by rw [hl]; exact inside_low s d hlow))
    rw [hsame t _ hto i hi]
    exact ho hfu t q i hto hq
  · intro d w pt hlow hpt hf
    rw [hlog] at hf
    rw [hsame pt _ hpt _ (ptIdx_lt w)]
    exact h.unmapped d w pt hlow hpt hf
  · intro t d q i hto hin hhead hpres
    rw [hk] at hin
    rw [hsame t _ hto i hin.slot_lt] at hpres ⊢
    exact h.write t d q i hto hin hhead hpres
  · intro t d q hto hlen hhead i hi hpres
    rw [hsame t _ hto i hi] at hpres ⊢
    exact h.high t d q hto hlen hhead i hi hpres

theorem Access.move (h : Access s own) (ht : Trees s own) (hm : Move (fun v _ => Canonical v) s own s' own') :
    Access s' own' := by
  cases hm with
  | grow _ _ path g => exact h.grow ht g path
  | leaf ctx permitted table written => exact h.leaf ht table ctx permitted written
  | keep same hk hlog => exact h.keep same hk hlog

/-- A new context has no user pages, and nothing is logged for it. -/
theorem Access.created {n : Nat} (h : Access s own) (hn : Created s own n s') :
    Access s' (update own n (some (n, []))) := by
  have hkeep : Access s' own := h.keep hn.tables hn.rest.kernelCtx hn.rest.log
  have hcases : ∀ {f pl}, update own n (some (n, [])) f = some pl → (f = n ∧ pl = (n, [])) ∨ own f = some pl :=
    fun hf => (update_some_iff.1 hf).imp_right And.right
  have hold : ∀ {f pl}, own f = some pl → update own n (some (n, [])) f = some pl :=
    fun hf => update_of_fresh hn.unused hf
  refine ⟨fun e he => hold (hkeep.logged e he), ?_, ?_, ?_, ?_⟩
  · intro d w f hd hlow hf
    rcases hcases hd with ⟨rfl, -⟩ | hd
    · -- every logged context was labelled before
      exfalso
      unfold lastFlags at hf
      rw [Option.bind_eq_some_iff] at hf
      obtain ⟨ev, hev, -⟩ := hf
      have hctx := List.find?_some hev
      rw [decide_eq_true_iff] at hctx
      have := hkeep.logged ev (List.mem_of_find?_eq_some hev)
      rw [hctx.1, hn.unused] at this
      cases this
    · obtain ⟨pt, hpt, hleaf, ho⟩ := hkeep.mapped d w f hd hlow hf
      refine ⟨pt, hold hpt, hleaf, fun hfu t q i hto hq => ?_⟩
      rcases hcases hto with ⟨-, heq⟩ | hto
      · cases heq
        rw [hn.unused] at hd; cases hd
      · exact ho hfu t q i hto hq
  · intro d w pt hlow hpt hf
    rcases hcases hpt with ⟨-, heq⟩ | hpt
    · cases heq
    · exact hkeep.unmapped d w pt hlow hpt hf
  · intro t d q i hto hin hhead hpres
    rcases hcases hto with ⟨rfl, heq⟩ | hto
    · cases heq
      rw [hn.empty i (hhead i rfl), zero_has] at hpres; cases hpres
    · exact hkeep.write t d q i hto hin hhead hpres
  · intro t d q hto hlen hhead i hi hpres
    rcases hcases hto with ⟨-, heq⟩ | hto
    · cases heq
      cases hlen
    · exact hkeep.high t d q hto hlen hhead i hi hpres

end Moves

/-! ## `walk_user` -/

section Walk

variable {v t r : Nat} {w w' : Bool}

theorem walkUserLoop_leaf : walkUserLoop m [i] t w = some w' ↔
    has (entry m t i) ptePresent = true ∧ has (entry m t i) pteUser = true ∧ w' = (w && has (entry m t i) pteWrite) := by
  rw [walkUserLoop, eq_comm (a := w')]
  cases has (entry m t i) ptePresent <;> cases has (entry m t i) pteUser <;> simp

theorem walkUserLoop_slot {rest : List Nat} (hr : rest ≠ []) : walkUserLoop m (i :: rest) t w = some w' ↔
    (has (entry m t i) ptePresent = true ∧ has (entry m t i) ptePs = false) ∧ has (entry m t i) pteUser = true ∧
      walkUserLoop m rest (frameOf (entry m t i)) (w && has (entry m t i) pteWrite) = some w' := by
  rw [walkUserLoop]
  cases has (entry m t i) ptePresent <;> cases has (entry m t i) pteUser <;> cases has (entry m t i) ptePs <;> simp [hr]

/-- Every slot from `q` on along the path allows writes. -/
def Writable (s : MemState) (own : Label) (r : Nat) (p : List Nat) : Prop :=
  ∀ t q j, own t = some (r, q) → q ++ [j] <+: p → has (entry s.mem t j) ptePresent = true →
    has (entry s.mem t j) pteWrite = true

/-- A walk that succeeds ends at a user entry of the page table. -/
theorem walkUserLoop_some (ht : Trees s own) : ∀ (rest q : List Nat) {t : Nat} {w : Bool}, own t = some (r, q) →
    Inside s.kernelCtx r (q ++ rest) → walkUserLoop s.mem (rest ++ [i]) t w = some w' →
    ∃ pt, own pt = some (r, q ++ rest) ∧ has (entry s.mem pt i) ptePresent = true ∧ has (entry s.mem pt i) pteUser = true ∧
      (Writable s own r (q ++ rest) → w' = (w && has (entry s.mem pt i) pteWrite)) := by
  intro rest
  induction rest with
  | nil =>
    intro q t w hto hin hw
    obtain ⟨h1, h2, h3⟩ := walkUserLoop_leaf.1 hw
    exact ⟨t, by rw [List.append_nil]; exact hto, h1, h2, fun _ => h3⟩
  | cons j rest ih =>
    intro q t w hto hin hw
    rw [List.append_cons] at hin ⊢
    obtain ⟨⟨hp, hps⟩, -, hw⟩ := (walkUserLoop_slot (by simp)).1 hw
    obtain ⟨pt, hpt, h1, h2, h3⟩ := ih (q ++ [j]) (ht.labelled.slot hto hin.of_append (child_eq_some hp hps)) hin hw
    refine ⟨pt, hpt, h1, h2, fun hall => ?_⟩
    rw [h3 hall, hall t q j hto (List.prefix_append _ _) hp, Bool.and_true]

theorem walkUserLoop_open (ht : Trees s own) (hp : has (entry s.mem pt i) ptePresent = true)
    (hu : has (entry s.mem pt i) pteUser = true) : ∀ (rest q : List Nat) {t : Nat} {w : Bool}, own t = some (r, q) →
    Inside s.kernelCtx r (q ++ rest) → own pt = some (r, q ++ rest) →
    (∀ t q' j, own t = some (r, q') → q' ++ [j] <+: q ++ rest → has (entry s.mem t j) pteUser = true) →
    Writable s own r (q ++ rest) →
    walkUserLoop s.mem (rest ++ [i]) t w = some (w && has (entry s.mem pt i) pteWrite) := by
  intro rest
  induction rest with
  | nil =>
    intro q t w hto hin hpt _ _
    rw [List.append_nil] at hpt hin
    obtain rfl : t = pt := ht.unique hin hto hpt
    exact walkUserLoop_leaf.2 ⟨hp, hu, rfl⟩
  | cons j rest ih =>
    intro q t w hto hin hpt hopen hwr
    rw [List.append_cons] at hin hpt hopen hwr
    obtain ⟨t', u, hto', hc, hu'⟩ := ht.along hin hpt
    obtain rfl : t' = t := ht.unique hin.of_append.of_append hto' hto
    obtain ⟨h1, h2, h3⟩ := present_of_child hc
    refine (walkUserLoop_slot (by simp)).2 ⟨⟨h1, h2⟩, hopen t' q j hto (List.prefix_append _ _), ?_⟩
    rw [hwr t' q j hto (List.prefix_append _ _) h1, Bool.and_true, h3]
    exact ih (q ++ [j]) hu' hin hpt hopen hwr

theorem walkUserLoop_congr {rest : List Nat} (h : entry m t i = entry m r i) :
    walkUserLoop m (i :: rest) t w = walkUserLoop m (i :: rest) r w := by
  rw [walkUserLoop, walkUserLoop, h]

/-- The walk starts in the tree that the address belongs to. -/
theorem walkUser_root (h : Sys s own) (hc : own c = some (c, [])) :
    walkUser s.mem c v = walkUserLoop s.mem (tablePath v ++ [ptIdx v]) (treeRoot s c v) true :=
  walkUserLoop_congr (first_entry h.shared hc)

theorem Access.writable (ha : Access s own) (hlow : v < userSpaceEnd) : Writable s own c (tablePath v) := by
  intro t q j hto hq
  have hhead : ∀ a ∈ (q ++ [j]).head?, a < 256 := by
    intro a hmem
    obtain ⟨l, hl⟩ := hq
    have hidx : [a] <+: tablePath v := by
      rw [← hl]
      cases q with
      | nil => cases hmem; exact ⟨l, rfl⟩
      | cons b q => cases hmem; exact ⟨q ++ [j] ++ l, rfl⟩
    rw [head_of_path List.prefix_rfl hidx]
    exact low_index hlow
  have hin : Inside s.kernelCtx c (q ++ [j]) := by
    obtain ⟨l, hl⟩ := hq
    exact Inside.of_append (q := l) (by rw [hl]; exact inside_low s c hlow)
  exact ha.write t c q j hto hin hhead

theorem walkUser_iff (h : Sys s own) (ha : Access s own) (hc : own c = some (c, [])) (hv : Canonical v) :
    walkUser s.mem c v = some w ↔ v < userSpaceEnd ∧
      ∃ fl, lastFlags s.log c (v / 4096) = some fl ∧ has fl pteUser = true ∧ w = has fl pteWrite := by
  have hin := inside_tablePath s c v
  have hroot := root_treeRoot (v := v) h.trees hc
  rw [walkUser_root h hc]
  constructor
  · intro hw
    obtain ⟨pt, hpt, hp, hu, hwr⟩ := walkUserLoop_some h.trees (tablePath v) [] hroot hin hw
    have hlow : v < userSpaceEnd := by
      by_contra hge
      have hidx : ¬ pml4Idx v < 256 := fun hlt => hge (hv.low_iff.1 hlt)
      have := ha.high pt _ _ hpt rfl (fun j hj => by cases hj; omega) (ptIdx v) (ptIdx_lt v) hp
      rw [hu] at this; cases this
    rw [treeRoot, if_pos (low_index hlow)] at hpt hwr
    refine ⟨hlow, ?_⟩
    cases hfl : lastFlags s.log c (v / 4096) with
    | none =>
      have := ha.unmapped c v pt hlow hpt hfl
      rw [hp] at this; cases this
    | some fl =>
      obtain ⟨pt', hpt', ⟨-, hlu, hlw⟩, -⟩ := ha.mapped c v fl hc hlow hfl
      obtain rfl : pt' = pt := h.trees.unique (inside_low s c hlow) hpt' hpt
      refine ⟨fl, rfl, by rw [← hlu]; exact hu, ?_⟩
      rw [hwr (ha.writable hlow), Bool.true_and, hlw]
  · rintro ⟨hlow, fl, hfl, hfu, rfl⟩
    obtain ⟨pt, hpt, ⟨hp, hlu, hlw⟩, hopen⟩ := ha.mapped c v fl hc hlow hfl
    have hroot' : treeRoot s c v = c := if_pos (low_index hlow)
    rw [hroot'] at hin ⊢
    have hwalk := walkUserLoop_open (w := true) h.trees hp (hlu.trans hfu) (tablePath v) [] hc hin hpt (hopen hfu)
      (ha.writable hlow)
    rw [hwalk, Bool.true_and, hlw]

end Walk

/-! ## Runs -/

/-- No leaf entry of the upper half that Limine leaves is open to user code. -/
def NoUserLeaf (mem : Mem) (cr3 : Entry) : Prop :=
  ∀ q t, KernelPath q → q.length = 3 → walk (child mem) (frameOf cr3) q = some t →
    ∀ i < 512, has (entry mem t i) ptePresent = true → has (entry mem t i) pteUser = false

theorem access_inherited {mem : Mem} {cr3 : Entry} (h : Inherited mem cr3 s own)
    (hu : NoUserLeaf mem cr3) : Access s own := by
  refine ⟨?_, ?_, ?_, ?_, ?_⟩
  · rw [h.log]
    exact fun e he => absurd he List.not_mem_nil
  · intro c v fl _ _ hfl
    rw [h.log] at hfl
    cases hfl
  · intro c v pt hlow hpt _
    -- the inherited tables are all in the upper half
    obtain ⟨-, ⟨-, hq⟩ | ⟨-, hq, -⟩⟩ := h.label hpt
    · cases hq
    · have h1 := hq.2.2 (pml4Idx v) rfl
      have h2 := low_index hlow
      omega
  · intro t r q i ht _ hhead hpres
    obtain ⟨rfl, ⟨rfl, rfl⟩ | ⟨hne, hq, -⟩⟩ := h.label ht
    · rw [h.low i (hhead i rfl), zero_has] at hpres; cases hpres
    · cases q with
      | nil => exact absurd rfl hne
      | cons a q =>
        have h1 := hq.2.2 a rfl
        have h2 := hhead a rfl
        omega
  · intro t r q ht hlen _ i hi hpres
    obtain ⟨-, ⟨-, rfl⟩ | ⟨-, hq, hw, hsame⟩⟩ := h.label ht
    · cases hlen
    · rw [hsame i hi] at hpres ⊢
      exact hu q t hq hlen hw i hi hpres

theorem map_log {t : MemState} {v pa : Nat} {fl : Entry} {n : Int} (h : Sys s own)
    (hc : own c = some (c, [])) (hok : vmmMapPage s c v pa fl = .ok (n, t)) :
    (n = 0 ∧ t.log = ⟨c, v / 4096, some fl⟩ :: s.log) ∨ (n = -1 ∧ t.log = s.log) := by
  cases map_spec h.trees h.shared hc hok with
  | refused => exact .inr ⟨rfl, rfl⟩
  | failed grow => exact .inr ⟨rfl, grow.rest.log⟩
  | mapped grow => exact .inl ⟨rfl, by rw [grow.rest.log]⟩

theorem unmap_log {t : MemState} {v : Nat} (h : Sys s own) (ha : Access s own)
    (hc : own c = some (c, [])) (hok : vmmUnmapPage s c v = .ok t) :
    (t = s ∨ t.log = ⟨c, v / 4096, none⟩ :: s.log) ∧ (v < userSpaceEnd → lastFlags t.log c (v / 4096) = none) := by
  cases unmap_spec h.trees h.shared hc hok with
  | absent hno =>
    refine ⟨.inl rfl, fun hlow => ?_⟩
    by_contra hne
    obtain ⟨fl, hfl⟩ := Option.ne_none_iff_exists'.1 hne
    obtain ⟨pt, hpt, ⟨hp, -⟩, -⟩ := ha.mapped c v fl hc hlow hfl
    rw [treeRoot_low hlow] at hno
    cases (hno pt hpt).symm.trans hp
  | unmapped =>
    refine ⟨.inr rfl, fun _ => ?_⟩
    rw [lastFlags_cons, if_pos ⟨rfl, rfl⟩]

/-- In every state of a run of calls on canonical addresses, `walk_user` succeeds for exactly the user pages whose latest
mapping is a user mapping, and reports that mapping's write permission. A mapping is a call of `vmm_map_page` that
returns 0, and the page is mapped until `vmm_unmap_page` is called for it. -/
theorem user_access_exact {mem : Mem} {pmm : Pmm} {cr3 : Entry} {nx : Bool} {s₀ : MemState} {s : VmState}
    (hl : LimineTables mem pmm cr3) (hu : NoUserLeaf mem cr3) (hinit : initVmm mem pmm cr3 nx = .ok s₀)
    (h : Reach vmStep (TableCall fun v _ => Canonical v) ⟨s₀, [s₀.kernelCtx]⟩ s) (hc : c ∈ s.ctxs) :
    (∀ v w, Canonical v → (walkUser s.sys.mem c v = some w ↔ v < userSpaceEnd ∧
      ∃ fl, lastFlags s.sys.log c (v / 4096) = some fl ∧ has fl pteUser = true ∧ w = has fl pteWrite)) ∧
    (∀ v pa fl n t, vmmMapPage s.sys c v pa fl = .ok (n, t) →
      (n = 0 ∧ t.log = ⟨c, v / 4096, some fl⟩ :: s.sys.log) ∨ (n = -1 ∧ t.log = s.sys.log)) ∧
    ∀ v t, vmmUnmapPage s.sys c v = .ok t → (t = s.sys ∨ t.log = ⟨c, v / 4096, none⟩ :: s.sys.log) ∧
      (v < userSpaceEnd → lastFlags t.log c (v / 4096) = none) := by
  obtain ⟨s₁, own₁, own₀, hinh, hms, hinv, -⟩ := initVmm_spec (P := fun v _ => Canonical v) hl hinit
  have ha : Trees s₀ own₀ ∧ Access s₀ own₀ :=
    hms.invariant (I := fun s own => Trees s own ∧ Access s own) ⟨hinh.trees, access_inherited hinh hu⟩
      fun hta hm => ⟨hta.1.move hm, hta.2.move hta.1 hm⟩
  obtain ⟨own, hinv, ha⟩ := vmInv_of_reach (I := Access) hinv ha.2 (fun hs ha hm => ha.move hs.trees hm)
    (fun _ ha hn => ha.created hn) h
  have hroot := (hinv.roots c).2 hc
  exact ⟨fun v w hv => walkUser_iff hinv.sys ha hroot hv, fun v pa fl n t hok => map_log hinv.sys hroot hok,
    fun v t hok => unmap_log hinv.sys ha hroot hok⟩

theorem noUserLeaf_boot : NoUserLeaf bootMem 0x1000 := by
  intro q t hq hlen hw i hi _
  obtain ⟨-, rfl⟩ := walk_boot q (n := 0) (by omega) hq.2.1 hw
  rw [entry_boot (by omega) hi]
  split_ifs <;> decide

/-- A user page of a new context, mapped and unmapped, in the machine of `boot_ok`. -/
theorem user_access_of_mapped_page : ∃ s₀ c s₁ t u, initVmm bootMem bootPmm 0x1000 true = .ok s₀ ∧
    vmmCreateContext s₀ true = (some c, s₁) ∧
    vmmMapPage s₁ c 0x400000 0x6000 (ptePresent ||| pteWrite ||| pteUser) = .ok (0, t) ∧
    vmmUnmapPage t c 0x400000 = .ok u ∧
    walkUser t.mem c 0x400000 = some true ∧ walkUser u.mem c 0x400000 = none := by
  have hcan : Canonical 0x400000 := .inl (by decide)
  obtain ⟨s₀, c, s₁, t, hinit, hcreate, hmap, hr₁, hr, hunmap⟩ := boot_calls (P := fun v _ => Canonical v) 0x6000
    (ptePresent ||| pteWrite ||| pteUser) (fun _ => hcan) (fun _ => by decide)
  obtain ⟨u, hu, hru⟩ := hunmap c List.mem_cons_self
  have hexact := fun {s} hs => user_access_exact (s := s) limineTables_boot noUserLeaf_boot hinit hs (c := c)
  refine ⟨s₀, c, s₁, t, u, hinit, hcreate, hmap, hu, ?_, ?_⟩
  · rcases (hexact hr₁ List.mem_cons_self).2.1 _ _ _ _ _ hmap with ⟨-, hlog⟩ | ⟨hn, -⟩
    · refine ((hexact hr List.mem_cons_self).1 _ _ hcan).2
        ⟨by decide, ptePresent ||| pteWrite ||| pteUser, ?_, by decide, by decide⟩
      rw [show (⟨t, _⟩ : VmState).sys.log = _ from hlog, lastFlags_cons, if_pos ⟨rfl, rfl⟩]
    · cases hn
  · by_contra hne
    obtain ⟨w, hw⟩ := Option.ne_none_iff_exists'.1 hne
    obtain ⟨-, fl, hfl, -⟩ := ((hexact hru List.mem_cons_self).1 _ _ hcan).1 hw
    cases hfl.symm.trans (((hexact hr List.mem_cons_self).2.2 _ _ hu).2 (by decide))

end ToastOS.Mmu
