import ToastOS.Mmu.Break
import ToastOS.Mmu.Ownership

/-!
# Which pages of the heap are there

`sys_sbrk` does not look at the result of `vmm_map_page`: when the frame for a page is the last one and a table for it is
missing, the call goes on without the page. `affordable` counts, from the state before the call, whether that can happen;
when it cannot, every round maps its page (`rounds_mapped`), and the pages from the base of the heap to `mapped_end` are
mapped, each to a frame of its own, and no others (`HeapPages`). Over runs this is `heap_is_backed`; `sbrk_without_table`
is the run where it fails.
-/

namespace ToastOS.Mmu

open ToastOS.Lib

/-! ## The tables a call needs -/

/-- The tables that the page `v` needs and that neither exist nor are made for the pages `earlier`. -/
def newTables (m : Mem) (k : Nat) (earlier : List Nat) (v : Nat) : Nat :=
  (List.range 3).countP fun j => (walk (child m) k ((tablePath v).take (j + 1))).isNone &&
    earlier.all fun w => (tablePath w).take (j + 1) != (tablePath v).take (j + 1)

/-- With `free` frames, the rounds for these pages get all tables they need: frames run out only between two rounds. -/
def affordable (m : Mem) (k : Nat) : Nat → List Nat → List Nat → Bool
  | _, _, [] => true
  | free, earlier, v :: vs =>
    free == 0 || (decide (1 + newTables m k earlier v ≤ free) &&
      affordable m k (free - (1 + newTables m k earlier v)) (v :: earlier) vs)

/-- The pages that `sys_sbrk` adds for a larger break. -/
def pagesToAdd (heap : Heap) (increment : Int) : List Nat :=
  pagesFrom heap.mappedEnd 0 ((pageAlignUp (heap.brk + increment.toNat) - heap.mappedEnd) / 4096)

/-- The frames do not run out between a page and its tables. -/
def TablesAffordable (s : MemState) (increment : Int) : Prop :=
  ∀ heap, s.heap = some heap → 0 < increment → heap.brk + increment ≤ heap.limit →
    affordable s.mem s.kernelCtx s.pmm.clearCount [] (pagesToAdd heap increment) = true

theorem affordable_append {m : Mem} {k : Nat} : ∀ {vs ws : List Nat} {free : Nat} {earlier : List Nat},
    affordable m k free earlier (vs ++ ws) = true → affordable m k free earlier vs = true := by
  intro vs
  induction vs with
  | nil => exact fun _ => rfl
  | cons v vs ih =>
    intro ws free earlier h
    rw [List.cons_append, affordable, Bool.or_eq_true, Bool.and_eq_true] at h
    rw [affordable, Bool.or_eq_true, Bool.and_eq_true]
    exact h.imp_right fun h => ⟨h.1, ih h.2⟩

section Tables

variable {s s' : MemState} {own own' : Label} {m : Mem} {k v : Nat} {earlier : List Nat} {flags : Entry}

/-- The tables are those of `m` and those on the paths of the pages `earlier`. -/
def TablesOf (m : Mem) (k : Nat) (earlier : List Nat) (own : Label) : Prop :=
  ∀ q, q ≠ [] → Inside k k q → ((∃ u, own u = some (k, q)) ↔ walk (child m) k q ≠ none ∨ ∃ w ∈ earlier, q <+: tablePath w)

theorem missing_eq (h : Trees s own) (hk : s.kernelCtx = k) (ht : TablesOf m k earlier own) (v : Nat) :
    missing s.mem k (tablePath v) = newTables m k earlier v := by
  subst hk
  have hinside := inside_tablePath s s.kernelCtx v
  rw [treeRoot_kernel] at hinside
  unfold missing newTables
  rw [tablePath_length]
  apply List.countP_congr
  intro j hj
  have hj := List.mem_range.1 hj
  have hlen : ((tablePath v).take (j + 1)).length = j + 1 := by
    rw [List.length_take, tablePath_length]
    omega
  have hne : (tablePath v).take (j + 1) ≠ [] := fun h => by rw [h] at hlen; cases hlen
  have hin : Inside s.kernelCtx s.kernelCtx ((tablePath v).take (j + 1)) := by
    rw [← List.take_append_drop (j + 1) (tablePath v)] at hinside
    exact hinside.of_append
  have hwalk : walk (child s.mem) s.kernelCtx ((tablePath v).take (j + 1)) = none ↔
      ¬ ∃ u, own u = some (s.kernelCtx, (tablePath v).take (j + 1)) := by
    rw [Option.eq_none_iff_forall_ne_some, not_exists]
    exact forall_congr' fun u => not_congr (h.walk_iff h.kernel hin)
  have hpre : ∀ w, (tablePath v).take (j + 1) <+: tablePath w ↔ (tablePath w).take (j + 1) = (tablePath v).take (j + 1) := by
    intro w
    rw [List.prefix_iff_eq_take, hlen]
    exact eq_comm
  rw [Option.isNone_iff_eq_none, hwalk, ht _ hne hin, Bool.and_eq_true, Option.isNone_iff_eq_none, List.all_eq_true, not_or,
    not_not, not_exists]
  simp only [hpre, bne_iff_ne, not_and, ne_eq]

inductive Mapped (r : Nat) (flags : Entry) (v : Nat) (s : MemState) (own : Label) : MemState → Label → Prop
  | intro {phys s₁ s₂ own₂ pt} (took : Took s own phys s₁) (grow : Grow s₁ own s₂ own₂ r (tablePath v) flags)
      (table : own₂ pt = some (r, tablePath v)) (log : List MapEvent) :
      Mapped r flags v s own { s₂ with mem := setEntry s₂.mem pt (ptIdx v) (leafEntry phys flags), log }
        (relabel own₂ (r, pagePath v) (some phys))

theorem Mapped.round {r : Nat} (h : Mapped r flags v s own s' own') : Round false r flags v s own s' own' := by
  cases h with
  | intro took grow table log => exact .mapped took grow table log

theorem Mapped.tablesOf (ho : Owned s own) (hw : InWindow v) (ht : TablesOf m k earlier own)
    (h : Mapped k vmmFlagsKernelRw v s own s' own') : TablesOf m k (v :: earlier) own' := by
  have heff := h.round.heap_effect ho hw
  intro q hne hin
  cases h with
  | @intro phys s₁ s₂ own₂ pt took grow table log =>
    have hnone := took.unlabelled ho grow
    have hiff : (∃ u, relabel own₂ (k, pagePath v) (some phys) u = some (k, q)) ↔ ∃ u, own₂ u = some (k, q) :=
      exists_congr fun u => relabel_table (show 3 < (pagePath v).length by rw [pagePath_length]; decide) hnone hin.1
    constructor
    · intro h
      obtain ⟨u, hu⟩ := hiff.1 h
      rcases grow.added hu with hold | ⟨-, -, -, -, hpre⟩
      · rcases (ht q hne hin).1 ⟨u, hold⟩ with h | ⟨w, hw, hpre⟩
        · exact .inl h
        · exact .inr ⟨w, List.mem_cons_of_mem _ hw, hpre⟩
      · exact .inr ⟨v, List.mem_cons_self, hpre⟩
    · have hold : (∃ u, own u = some (k, q)) → ∃ u, relabel own₂ (k, pagePath v) (some phys) u = some (k, q) := by
        rintro ⟨u, hu⟩
        exact ⟨u, heff.tables hin.1 hu⟩
      rintro (h | ⟨w, hw, hpre⟩)
      · exact hold ((ht q hne hin).2 (.inl h))
      · rcases List.mem_cons.1 hw with rfl | hw
        · obtain ⟨l, hl⟩ := hpre
          rw [hiff]
          have hgrown := Effect.grow (took.effect ho k).owned grow List.prefix_rfl
            (fun hu => by rw [heapFlags_user] at hu; cases hu)
          rw [← hl] at table
          exact hgrown.owned.ancestor l table
        · exact hold ((ht q hne hin).2 (.inr ⟨w, hw, hpre⟩))

theorem rounds_mapped {vs : List Nat} (hw : ∀ x ∈ vs, InWindow x) : ∀ {s own free earlier}, Owned s own → s.kernelCtx = k →
    TablesOf m k earlier own → s.pmm.clearCount = free → affordable m k free earlier vs = true →
    Rounds (Round false k vmmFlagsKernelRw) vs s own s' own' → Rounds (Mapped k vmmFlagsKernelRw) vs s own s' own' := by
  induction vs with
  | nil =>
    intro s own free earlier ho hk ht hfree ha h
    cases h
    exact .nil
  | cons v vs ih =>
    intro s own free earlier ho hk ht hfree ha h
    cases h with
    | @cons _ _ _ _ s₁ own₁ _ _ first rest =>
      have heff := first.heap_effect ho (hw v List.mem_cons_self)
      rw [affordable, Bool.or_eq_true, Bool.and_eq_true, beq_iff_eq, decide_eq_true_iff] at ha
      have hmissing : ∀ {phys t}, Took s own phys t → missing t.mem k (tablePath v) = newTables m k earlier v := by
        intro phys t took
        exact missing_eq (took.effect ho k).owned.trees (took.kernelCtx.trans hk) ht v
      cases first with
      | failed took _ _ short =>
        have hcount := took.count
        rw [hmissing took] at short
        rcases ha with hz | ⟨hle, -⟩ <;> omega
      | @mapped phys t₁ t₂ own₂ pt took grow table log =>
        have hcount := took.count
        have hgrow := grow.count
        rw [hmissing took] at hgrow
        have hmapped := Mapped.intro took grow table log
        obtain ⟨hle, ha⟩ := ha.resolve_left (by omega)
        refine .cons hmapped (ih (fun x hx => hw x (List.mem_cons_of_mem _ hx)) heff.owned (heff.kernelCtx.trans hk)
          (hmapped.tablesOf ho (hw v List.mem_cons_self) ht) ?_ ha rest)
        show t₂.pmm.clearCount = _
        omega

end Tables

/-! ## The pages -/

/-- The pages from the base of the heap to `top` are mapped with the heap's flags, and they are the only pages. -/
structure HeapPages (s : MemState) (own : Label) (top : Nat) : Prop where
  mapped : ∀ v, kheapVirtBase ≤ v → v < top → v % 4096 = 0 → ∃ f pt, own f = some (s.kernelCtx, pagePath v) ∧
    own pt = some (s.kernelCtx, tablePath v) ∧ entry s.mem pt (ptIdx v) = leafEntry f vmmFlagsKernelRw
  only : ∀ {f r q}, own f = some (r, q) → 3 < q.length →
    r = s.kernelCtx ∧ ∃ v, kheapVirtBase ≤ v ∧ v < top ∧ v % 4096 = 0 ∧ q = pagePath v

/-- The frames that were taken since the bitmap was `base` have a label. -/
def TakenLabelled (base : Nat → Bool) (s : MemState) (own : Label) : Prop :=
  ∀ n, s.pmm.marked n = true → base n = true ∨ own (4096 * n) ≠ none

section Pages

variable {s s' : MemState} {own own' : Label} {r c v w pt : Nat} {flags : Entry} {b : Bool} {base : Nat → Bool}

theorem leaf_ne (h1 : own pt = some (c, tablePath w)) {pt' : Nat} (h2 : own pt' = some (r, tablePath v))
    (hne : (c, pagePath w) ≠ (r, pagePath v)) : pt ≠ pt' ∨ ptIdx w ≠ ptIdx v := by
  rw [← not_and_or]
  rintro ⟨rfl, hidx⟩
  rw [h1] at h2
  obtain ⟨rfl, hpath⟩ := Prod.mk.inj (Option.some.inj h2)
  exact hne (by rw [pagePath, pagePath, hpath, hidx])

theorem Round.leaf_kept (h : Round b r flags v s own s' own') (hpt : own pt = some (c, tablePath w))
    (hne : (c, pagePath w) ≠ (r, pagePath v)) : entry s'.mem pt (ptIdx w) = entry s.mem pt (ptIdx w) := by
  have hgrown : ∀ {phys s₁ s₂ own₂ p}, Took s own phys s₁ → Grow s₁ own s₂ own₂ r p flags → p <+: tablePath v →
      entry s₂.mem pt (ptIdx w) = entry s.mem pt (ptIdx w) := by
    intro phys s₁ s₂ own₂ p took grow path
    rcases grow.leafEntries path (grow.kept hpt) rfl (ptIdx_lt w) with ⟨-, he⟩ | ⟨hnone, -⟩
    · rw [he]
      exact took.same pt _ hpt _ (ptIdx_lt w)
    · rw [hpt] at hnone
      cases hnone
  cases h with
  | @mapped phys s₁ s₂ own₂ pt' took grow table log =>
    show entry (setEntry s₂.mem pt' (ptIdx v) _) pt (ptIdx w) = _
    rw [grow.trees.entry_setEntry table (ptIdx_lt v) (grow.kept hpt) (ptIdx_lt w) (leaf_ne (grow.kept hpt) table hne)]
    exact hgrown took grow List.prefix_rfl
  | failed took grow path =>
    have hkept := hgrown took grow path
    cases b with
    | true => exact hkept
    | false => exact hkept

theorem Cleared.leaf_kept (ho : Owned s own) (h : Cleared r v s own s' own') (hpt : own pt = some (c, tablePath w))
    (hne : (c, pagePath w) ≠ (r, pagePath v)) : entry s'.mem pt (ptIdx w) = entry s.mem pt (ptIdx w) := by
  cases h with
  | absent => rfl
  | freed page table log =>
    exact ho.trees.entry_setEntry table (ptIdx_lt v) hpt (ptIdx_lt w) (leaf_ne hpt table hne)

theorem InWindow.of_le {top : Nat} (h1 : kheapVirtBase ≤ w) (h2 : w < top) (h3 : top ≤ kheapLimit) : InWindow w :=
  ⟨h1, Nat.lt_of_lt_of_le h2 h3⟩

theorem InWindow.path_ne (hw : InWindow w) (hv : InWindow v) (h : w / 4096 ≠ v / 4096) : pagePath w ≠ pagePath v :=
  fun heq => h ((hw.canonical.pagePath_eq hv.canonical).1 heq)

theorem HeapPages.fresh (h : HeapPages s own v) (hv : v % 4096 = 0) (hw : InWindow v) (f : Nat) :
    own f ≠ some (s.kernelCtx, pagePath v) := by
  intro hf
  obtain ⟨-, w, h1, h2, h3, heq⟩ := h.only hf (by rw [pagePath_length]; decide)
  exact InWindow.path_ne hw (.of_le h1 h2 (Nat.le_of_lt hw.2)) (by omega) heq

theorem HeapPages.add (ho : Owned s own) (h : HeapPages s own v) (hv : v % 4096 = 0) (hw : InWindow v)
    (hm : Mapped s.kernelCtx vmmFlagsKernelRw v s own s' own') : HeapPages s' own' (v + 4096) := by
  have heff := hm.round.heap_effect ho hw
  have hkeep : ∀ {pt c w}, own pt = some (c, tablePath w) → (c, pagePath w) ≠ (s.kernelCtx, pagePath v) →
      entry s'.mem pt (ptIdx w) = entry s.mem pt (ptIdx w) := fun hpt hne => hm.round.leaf_kept hpt hne
  cases hm with
  | @intro phys s₁ s₂ own₂ pt took grow table log =>
    have hnone := took.unlabelled ho grow
    have hlong : ∀ x, 3 < (pagePath x).length := fun x => by rw [pagePath_length]; decide
    refine ⟨?_, ?_⟩
    · intro w h1 h2 h3
      rw [heff.kernelCtx]
      by_cases hwv : w = v
      · subst hwv
        exact ⟨phys, pt, by rw [relabel, if_pos rfl], (relabel_table (q := tablePath w) (hlong w) hnone
          (Nat.le_refl 3)).2 table, entry_setEntry_same⟩
      · obtain ⟨f, pt', hf, hpt', he⟩ := h.mapped w h1 (by omega) h3
        have hne : (s.kernelCtx, pagePath w) ≠ (s.kernelCtx, pagePath v) := fun heq =>
          InWindow.path_ne (.of_le h1 (by omega) (Nat.le_of_lt hw.2)) hw (by omega) (Prod.mk.inj heq).2
        exact ⟨f, pt', relabel_other hne hnone (grow.kept hf), heff.tables (Nat.le_refl 3) hpt', by
          rw [hkeep hpt' hne]; exact he⟩
    · intro f r q hf hq
      rw [heff.kernelCtx]
      rcases of_relabel hf with ⟨-, heq⟩ | ⟨hold, -⟩
      · cases heq
        exact ⟨rfl, v, hw.1, by omega, hv, rfl⟩
      · obtain ⟨hr, w, h1, h2, h3, h4⟩ := h.only (grow.old_label List.prefix_rfl hold hq) hq
        exact ⟨hr, w, h1, by omega, h3, h4⟩

theorem Owned.page_unique (ho : Owned s own) {f g : Nat} (hf : own f = some (c, pagePath v))
    (hg : own g = some (c, pagePath v)) : f = g := by
  obtain ⟨t, ht, -, hft⟩ := ho.above (q := tablePath v) hf
  obtain ⟨u, hu, -, hgu⟩ := ho.above (q := tablePath v) hg
  have hin : Inside s.kernelCtx c (tablePath v) := ⟨Nat.le_refl 3, ho.trees.inTree ht⟩
  rw [← hft, ← hgu, ho.trees.unique hin ht hu]

theorem HeapPages.remove (ho : Owned s own) (h : HeapPages s own (v + 4096)) (hv : v % 4096 = 0) (hw : InWindow v)
    (hc : Cleared s.kernelCtx v s own s' own') : HeapPages s' own' v := by
  have heff := hc.effect ho hw.tracked
  have hlong : ∀ x, 3 < (pagePath x).length := fun x => by rw [pagePath_length]; decide
  have hkeep : ∀ {pt c w}, own pt = some (c, tablePath w) → (c, pagePath w) ≠ (s.kernelCtx, pagePath v) →
      entry s'.mem pt (ptIdx w) = entry s.mem pt (ptIdx w) := fun hpt hne => hc.leaf_kept ho hpt hne
  cases hc with
  | absent hnone =>
    obtain ⟨f, -, hf, -⟩ := h.mapped v hw.1 (by omega) hv
    exact absurd hf (hnone f)
  | @freed phys pt page table log =>
    have hnone : ∀ n, (none : Option Nat) = some n → own n = none := by simp
    refine ⟨?_, ?_⟩
    · intro w h1 h2 h3
      obtain ⟨f, pt', hf, hpt', he⟩ := h.mapped w h1 (by omega) h3
      have hne : (s.kernelCtx, pagePath w) ≠ (s.kernelCtx, pagePath v) := fun heq =>
        InWindow.path_ne (.of_le h1 h2 (Nat.le_of_lt hw.2)) hw (by omega) (Prod.mk.inj heq).2
      exact ⟨f, pt', relabel_other hne hnone hf, heff.tables (Nat.le_refl 3) hpt', by rw [hkeep hpt' hne]; exact he⟩
    · intro f r q hf hq
      obtain ⟨hold, hne⟩ := (of_relabel hf).resolve_left (by simp)
      obtain ⟨rfl, w, h1, h2, h3, rfl⟩ := h.only hold hq
      refine ⟨rfl, w, h1, ?_, h3, rfl⟩
      by_contra hge
      exact hne (by rw [show w = v by omega])

theorem TakenLabelled.mapped (ho : Owned s own) (h : TakenLabelled base s own) (hfresh : ∀ f, own f ≠ some (r, pagePath v))
    (hm : Mapped r flags v s own s' own') : TakenLabelled base s' own' := by
  cases hm with
  | @intro phys s₁ s₂ own₂ pt took grow table log =>
    have hnone := took.unlabelled ho grow
    have hkept : ∀ {f}, own₂ f ≠ none → relabel own₂ (r, pagePath v) (some phys) f ≠ none := by
      intro f hf
      obtain ⟨⟨c, q⟩, hl⟩ := Option.ne_none_iff_exists'.1 hf
      rw [relabel_other (fun heq => ?_) hnone hl]
      · simp
      · rw [heq] at hl
        exact hfresh f (grow.old_label List.prefix_rfl hl (by rw [pagePath_length]; decide))
    intro n hn
    rcases (grow.marks n).1 hn with hn | ⟨-, hl⟩
    · rcases (took.marks n).1 hn with hn | rfl
      · refine (h n hn).imp_right fun hl => hkept ?_
        obtain ⟨l, hl⟩ := Option.ne_none_iff_exists'.1 hl
        rw [grow.kept hl]
        simp
      · refine .inr ?_
        rw [Nat.mul_div_cancel' (Nat.dvd_of_mod_eq_zero took.frame.1), relabel, if_pos rfl]
        simp
    · exact .inr (hkept hl)

theorem TakenLabelled.cleared (ho : Owned s own) (h : TakenLabelled base s own) (hc : Cleared r v s own s' own') :
    TakenLabelled base s' own' := by
  cases hc with
  | absent => exact h
  | @freed phys pt page table log =>
    intro n hn
    have hn : (freeFrame s.pmm phys).marked n = true := hn
    rw [marked_freeFrame, Bool.and_eq_true, decide_eq_true_iff] at hn
    refine (h n hn.1).imp_right fun hl => ?_
    obtain ⟨⟨c, q⟩, hl⟩ := Option.ne_none_iff_exists'.1 hl
    rw [relabel_other (fun heq => ?_) (by simp) hl]
    · simp
    · rw [heq] at hl
      have := ho.page_unique hl page
      omega

end Pages

/-! ## One call -/

/-- The heap between two calls; `base` is the bitmap before the first. -/
structure HeapInv (base : Nat → Bool) (s : MemState) (own : Label) (heap : Heap) : Prop where
  owned : Owned s own
  ok : HeapOk s heap
  noHuge : NoHugeWindow s own
  pages : HeapPages s own heap.mappedEnd
  taken : TakenLabelled base s own
  roots : ∀ c, own c = some (c, []) → c = s.kernelCtx
  kernel : base (s.kernelCtx / 4096) = true

section Calls

variable {s s' : MemState} {own own' : Label} {heap : Heap} {increment : Int} {res : Option Nat} {base : Nat → Bool}
  {c w pt : Nat}

theorem grown_pages : ∀ (m : Nat) {top : Nat} {s : MemState} {own : Label}, Owned s own → HeapPages s own top →
    TakenLabelled base s own → NoHugeWindow s own → top % 4096 = 0 → (∀ x ∈ pagesFrom top 0 m, InWindow x) →
    Rounds (Mapped s.kernelCtx vmmFlagsKernelRw) (pagesFrom top 0 m) s own s' own' →
    HeapPages s' own' (top + m * 4096) ∧ TakenLabelled base s' own' ∧ NoHugeWindow s' own' := by
  intro m
  induction m with
  | zero =>
    intro top s own ho hp ht hn _ _ h
    cases h
    exact ⟨by rwa [Nat.zero_mul, Nat.add_zero], ht, hn⟩
  | succ m ih =>
    intro top s own ho hp ht hn hal hw h
    rw [pagesFrom_one_more] at hw h
    have hin := hw top List.mem_cons_self
    cases h with
    | @cons _ _ _ _ s₁ own₁ _ _ first rest =>
      have heff := first.round.heap_effect ho hin
      rw [← heff.kernelCtx] at rest
      have hrest := ih heff.owned (hp.add ho hal hin first) (ht.mapped ho (hp.fresh hal hin) first)
        (first.round.noHugeWindow ho hin hn) (by omega) (fun x hx => hw x (List.mem_cons_of_mem _ hx)) rest
      rwa [show top + 4096 + m * 4096 = top + (m + 1) * 4096 by omega] at hrest

/-- Clearing the pages from the top down leaves those below. -/
theorem shrunk_pages : ∀ (n : Nat) {top : Nat} {s : MemState} {own : Label}, Owned s own → HeapPages s own top →
    TakenLabelled base s own → NoHugeWindow s own → top % 4096 = 0 → (∀ x ∈ pagesBelow top n, InWindow x) →
    Rounds (Cleared s.kernelCtx) (pagesBelow top n) s own s' own' →
    HeapPages s' own' (top - n * 4096) ∧ TakenLabelled base s' own' ∧ NoHugeWindow s' own' := by
  intro n
  induction n with
  | zero =>
    intro top s own ho hp ht hn _ _ h
    cases h
    exact ⟨by rwa [Nat.zero_mul, Nat.sub_zero], ht, hn⟩
  | succ n ih =>
    intro top s own ho hp ht hn hal hw h
    rw [pagesBelow_succ] at hw h
    have hlow : kheapVirtBase ≤ top - 4096 := (hw _ List.mem_cons_self).1
    obtain ⟨v, rfl⟩ : ∃ v, top = v + 4096 := ⟨top - 4096, by have hpos : 0 < kheapVirtBase := (by decide); omega⟩
    rw [Nat.add_sub_cancel] at hw h
    have hin := hw _ List.mem_cons_self
    cases h with
    | @cons _ _ _ _ s₁ own₁ _ _ first rest =>
      have heff := first.effect ho hin.tracked
      rw [← heff.kernelCtx] at rest
      have hrest := ih heff.owned (hp.remove ho (by omega) hin first) (ht.cleared ho first)
        (first.noHugeWindow ho hin hn) (by omega) (fun x hx => hw x (List.mem_cons_of_mem _ hx)) rest
      rwa [show v - n * 4096 = v + 4096 - (n + 1) * 4096 by omega] at hrest

/-- The pages that a call adds come first among those that are needed. -/
theorem pagesToAdd_split {m n : Nat} (hm : m ≤ n)
    (hfits : n = 0 ∨ heap.mappedEnd + n * 4096 = pageAlignUp (heap.brk + increment.toNat)) :
    ∃ ws, pagesToAdd heap increment = pagesFrom heap.mappedEnd 0 m ++ ws := by
  obtain ⟨l, hl⟩ : ∃ l, (pageAlignUp (heap.brk + increment.toNat) - heap.mappedEnd) / 4096 = m + l :=
    ⟨(pageAlignUp (heap.brk + increment.toNat) - heap.mappedEnd) / 4096 - m, by omega⟩
  refine ⟨pagesFrom heap.mappedEnd m l, ?_⟩
  rw [pagesToAdd, hl, pagesFrom, pagesFrom, pagesFrom, ← List.map_append]
  congr 1
  have happ : List.range' 0 m 1 ++ List.range' (0 + 1 * m) l 1 = List.range' 0 (m + l) 1 := List.range'_append
  rw [Nat.one_mul, Nat.zero_add] at happ
  exact happ.symm

theorem HeapInv.after {s₁ : MemState} {heap' : Heap} (h : HeapInv base s own heap) (heff : Effect s.kernelCtx s own s₁ own')
    (hh : HeapOk { s₁ with heap := some heap' } heap') (hp : HeapPages s₁ own' heap'.mappedEnd)
    (ht : TakenLabelled base s₁ own')
    (hn : NoHugeWindow s₁ own') : HeapInv base { s₁ with heap := some heap' } own' heap' := by
  refine ⟨heff.owned.setHeap _, hh, hn, ⟨hp.mapped, hp.only⟩, ht, fun c hc => ?_, ?_⟩
  · exact (h.roots c (heff.roots hc)).trans heff.kernelCtx.symm
  · show base (s₁.kernelCtx / 4096) = true
    rw [heff.kernelCtx]
    exact h.kernel

/-- With enough frames for the tables, a call keeps the heap backed. -/
theorem HeapInv.sbrk (h : HeapInv base s own heap) (hfits : FitsBreak heap increment) (hafford : TablesAffordable s increment)
    (hok : sysSbrk s increment = .ok (res, s')) : ∃ own' heap', HeapInv base s' own' heap' := by
  obtain ⟨own', hres⟩ := sbrk_spec h.owned h.ok hfits hok
  obtain ⟨heap', -, -, -, hh'⟩ := hres.effect h.owned h.ok
  cases hres with
  | zero => exact ⟨own, heap, h⟩
  | refused => exact ⟨own, heap, h⟩
  | @grown m n s₁ _ hpos need fits window le out rounds =>
    have hwin : ∀ x ∈ pagesFrom heap.mappedEnd 0 m, InWindow x := fun x hx => h.ok.grow_window le fits window hx
    have heff₁ : Effect s.kernelCtx s own s₁ own' := rounds.effect h.owned fun hv ho hr => hr.heap_effect ho (hwin _ hv)
    obtain ⟨ws, hsplit⟩ := pagesToAdd_split le fits
    have hlim := h.ok.limit
    have ha := hafford heap h.ok.loaded hpos (by rw [hlim]; omega)
    rw [hsplit] at ha
    have htables : TablesOf s.mem s.kernelCtx [] own := by
      intro q _ hin
      rw [Option.ne_none_iff_exists']
      simp only [List.not_mem_nil, false_and, exists_false, or_false]
      exact exists_congr fun u => (h.owned.trees.walk_iff h.owned.trees.kernel hin).symm
    have hmapped := rounds_mapped hwin h.owned rfl htables rfl (affordable_append ha) rounds
    obtain ⟨hpages, htaken, hnoHuge⟩ := grown_pages m h.owned h.pages h.taken h.noHuge h.ok.aligned hwin hmapped
    cases hh'.loaded
    exact ⟨own', _, h.after heff₁ hh' hpages htaken hnoHuge⟩
  | @shrunk newBrk n s₁ _ hneg hbrk keep rounds =>
    have hwin : ∀ x ∈ pagesBelow heap.mappedEnd n, InWindow x := fun x hx => h.ok.shrink_window hbrk keep hx
    have heff₁ : Effect s.kernelCtx s own s₁ own' := rounds.effect h.owned fun hv ho hr => hr.effect ho (hwin _ hv).tracked
    obtain ⟨hpages, htaken, hnoHuge⟩ := shrunk_pages n h.owned h.pages h.taken h.noHuge h.ok.aligned hwin rounds
    cases hh'.loaded
    exact ⟨own', _, h.after heff₁ hh' hpages htaken hnoHuge⟩

theorem leafOf_table (ho : Owned s own) (hpt : own pt = some (s.kernelCtx, tablePath w)) :
    leafOf s.mem s.kernelCtx w = some (entry s.mem pt (ptIdx w)) := by
  have hin := inside_tablePath s s.kernelCtx w
  rw [treeRoot_kernel] at hin
  rw [leafOf, (ho.trees.walk_iff ho.trees.kernel hin).2 hpt]
  rfl

theorem Rounds.leaf_kept {vs : List Nat} {r : Nat} (hw : ∀ x ∈ vs, InWindow x ∧ pagePath w ≠ pagePath x) (ho : Owned s own)
    (hpt : own pt = some (c, tablePath w)) (h : Rounds (Round false r vmmFlagsKernelRw) vs s own s' own') :
    entry s'.mem pt (ptIdx w) = entry s.mem pt (ptIdx w) := by
  induction h with
  | nil => rfl
  | cons first rest ih =>
    obtain ⟨hin, hne⟩ := hw _ List.mem_cons_self
    have heff := first.heap_effect ho hin
    rw [ih (fun x hx => hw x (List.mem_cons_of_mem _ hx)) heff.owned (heff.tables (Nat.le_refl 3) hpt)]
    exact first.leaf_kept hpt fun heq => hne (Prod.mk.inj heq).2

/-- The pages below `mapped_end`. -/
def InHeap (heap : Heap) (v : Nat) : Prop := heap.baseAddr ≤ v ∧ v < heap.mappedEnd ∧ v % 4096 = 0

/-- A call that returns `(void*)-1` may have mapped pages above; the break and the pages below are as they were. -/
theorem HeapInv.failed (h : HeapInv base s own heap) (hfits : FitsBreak heap increment)
    (hok : sysSbrk s increment = .ok (none, s')) : ∃ heap', s'.heap = some heap' ∧ heap'.brk = heap.brk ∧
      ∀ v, InHeap heap v → leafOf s'.mem heap.vmmCtx v = leafOf s.mem heap.vmmCtx v := by
  obtain ⟨own', hres⟩ := sbrk_spec h.owned h.ok hfits hok
  generalize hnone : (none : Option Nat) = res at hres
  cases hres with
  | zero => cases hnone
  | refused => exact ⟨heap, h.ok.loaded, rfl, fun _ _ => rfl⟩
  | @grown m n s₁ _ hpos need fits window le out rounds =>
    have hne : m ≠ n := by
      rintro rfl
      rw [if_pos rfl] at hnone
      cases hnone
    refine ⟨_, rfl, if_neg hne, ?_⟩
    rintro v ⟨hlow, hlt, hal⟩
    rw [h.ok.base] at hlow
    have hwin : ∀ x ∈ pagesFrom heap.mappedEnd 0 m, InWindow x := fun x hx => h.ok.grow_window le fits window hx
    have heff : Effect s.kernelCtx s own s₁ own' := rounds.effect h.owned fun hv ho hr => hr.heap_effect ho (hwin _ hv)
    obtain ⟨f, pt, -, hpt, -⟩ := h.pages.mapped v hlow hlt hal
    have hpt' : own' pt = some (s₁.kernelCtx, tablePath v) := by
      rw [heff.kernelCtx]
      exact heff.tables (Nat.le_refl 3) hpt
    have hkept := rounds.leaf_kept (w := v) (fun x hx => ⟨hwin x hx, by
      refine InWindow.path_ne (.of_le hlow hlt h.ok.high) (hwin x hx) ?_
      obtain ⟨j, -, -, rfl⟩ := mem_pagesFrom.1 hx
      have := h.ok.aligned
      omega⟩) h.owned hpt
    have hafter := leafOf_table heff.owned hpt'
    rw [hkept, ← leafOf_table h.owned hpt, heff.kernelCtx] at hafter
    rw [h.ok.ctx]
    exact hafter
  | shrunk => cases hnone

/-! ## What the tables say -/

/-- The heap is backed: the pages from its base to `mapped_end` are mapped with its flags, each to a frame of its own that
is in use; nothing is mapped from there to the limit; and the frames that are in use, other than those of `base`, are
those pages or tables. -/
structure Backed (base : Nat → Bool) (s : MemState) (heap : Heap) : Prop where
  loaded : s.heap = some heap
  aligned : heap.mappedEnd % 4096 = 0
  brk : heap.brk ≤ heap.mappedEnd
  page : ∀ v, InHeap heap v → ∃ f, leafOf s.mem heap.vmmCtx v = some (leafEntry f heap.flags) ∧ IsFrame f ∧
    s.pmm.marked (f / 4096) = true
  once : ∀ v w f, InHeap heap v → InHeap heap w → IsFrame f → leafOf s.mem heap.vmmCtx v = some (leafEntry f heap.flags) →
    leafOf s.mem heap.vmmCtx w = some (leafEntry f heap.flags) → v = w
  above : ∀ x, heap.mappedEnd ≤ x → x < heap.limit → vmmGetPhys s.mem heap.vmmCtx x = 0
  taken : ∀ n, s.pmm.marked n = true → base n = true ∨
    (∃ v, InHeap heap v ∧ leafOf s.mem heap.vmmCtx v = some (leafEntry (4096 * n) heap.flags)) ∨
    ∃ q, q ≠ [] ∧ q.length ≤ 3 ∧ walk (child s.mem) heap.vmmCtx q = some (4096 * n)

theorem phys_eq_zero {x : Nat} (ho : Owned s own) (hn : NoHugeWindow s own) (hw : InWindow x)
    (hnone : ∀ f, own f ≠ some (s.kernelCtx, pagePath x)) : vmmGetPhys s.mem s.kernelCtx x = 0 := by
  obtain ⟨s', hun⟩ := unmap_returns ho.trees ho.shared ho.trees.kernel (hn.root hw)
  cases unmap_spec ho.trees ho.shared ho.trees.kernel hun with
  | absent => exact phys_of_unmap_nothing hun rfl
  | unmapped table present =>
    rw [treeRoot_kernel] at table
    exact absurd (ho.pages.entry table rfl (ptIdx_lt x) hw.tracked present) (hnone _)

theorem HeapInv.leaf (h : HeapInv base s own heap) {v : Nat} (hv : InHeap heap v) :
    ∃ f, own f = some (s.kernelCtx, pagePath v) ∧ leafOf s.mem heap.vmmCtx v = some (leafEntry f heap.flags) := by
  obtain ⟨hlow, hlt, hal⟩ := hv
  rw [h.ok.base] at hlow
  obtain ⟨f, pt, hf, hpt, he⟩ := h.pages.mapped v hlow hlt hal
  refine ⟨f, hf, ?_⟩
  rw [h.ok.ctx, h.ok.flags, leafOf_table h.owned hpt, he]

theorem HeapInv.backed (h : HeapInv base s own heap) : Backed base s heap where
  loaded := h.ok.loaded
  aligned := h.ok.aligned
  brk := h.ok.backed
  page := by
    intro v hv
    obtain ⟨f, hf, hleaf⟩ := h.leaf hv
    exact ⟨f, hleaf, h.owned.trees.frame hf⟩
  once := by
    intro v w f hv hw hframe hvf hwf
    have hlabel : ∀ {x}, InHeap heap x → leafOf s.mem heap.vmmCtx x = some (leafEntry f heap.flags) →
        own f = some (s.kernelCtx, pagePath x) := by
      intro x hx hleaf
      obtain ⟨g, hg, hgleaf⟩ := h.leaf hx
      have heq := congrArg frameOf (Option.some.inj (hleaf.symm.trans hgleaf))
      have hflags : heap.flags &&& pteFrameMask = 0 := by
        rw [h.ok.flags]
        decide
      rw [frameOf_leafEntry hframe hflags, frameOf_leafEntry (h.owned.trees.frame hg).1 hflags] at heq
      rw [heq]
      exact hg
    have hpath := (Prod.mk.inj (Option.some.inj ((hlabel hv hvf).symm.trans (hlabel hw hwf)))).2
    have hwin : ∀ {x}, InHeap heap x → InWindow x := fun hx => .of_le (h.ok.base ▸ hx.1) hx.2.1 h.ok.high
    have hpage := ((hwin hv).canonical.pagePath_eq (hwin hw).canonical).1 hpath
    have h1 := hv.2.2
    have h2 := hw.2.2
    omega
  above := by
    intro x hge hlt
    rw [h.ok.ctx]
    rw [h.ok.limit] at hlt
    have hw : InWindow x := ⟨by have := h.ok.low; have := h.ok.backed; omega, hlt⟩
    refine phys_eq_zero h.owned h.noHuge hw fun f hf => ?_
    obtain ⟨-, v, h1, h2, h3, heq⟩ := h.pages.only hf (by rw [pagePath_length]; decide)
    refine InWindow.path_ne hw (.of_le h1 h2 h.ok.high) ?_ heq
    have := h.ok.aligned
    omega
  taken := by
    intro n hn
    rcases h.taken n hn with hbase | hl
    · exact .inl hbase
    obtain ⟨⟨r, q⟩, hl⟩ := Option.ne_none_iff_exists'.1 hl
    have hroot := h.owned.trees.root hl
    obtain rfl := h.roots r hroot
    by_cases hq : q.length ≤ 3
    · have hin : Inside s.kernelCtx s.kernelCtx q := ⟨hq, h.owned.trees.inTree hl⟩
      by_cases hnil : q = []
      · -- the PML4 itself
        subst hnil
        have hk := h.owned.trees.unique hin hl hroot
        left
        have hkernel := h.kernel
        rwa [← hk, Nat.mul_div_cancel_left n (by decide)] at hkernel
      · refine .inr (.inr ⟨q, hnil, hq, ?_⟩)
        rw [h.ok.ctx]
        exact (h.owned.trees.walk_iff hroot hin).2 hl
    · obtain ⟨-, v, h1, h2, h3, rfl⟩ := h.pages.only hl (Nat.lt_of_not_le hq)
      have hv : InHeap heap v := ⟨by rw [h.ok.base]; exact h1, h2, h3⟩
      obtain ⟨f, hf, hleaf⟩ := h.leaf hv
      rw [h.owned.page_unique hf hl] at hleaf
      exact .inr (.inl ⟨v, hv, hleaf⟩)

end Calls

/-! ## Runs -/

/-- The break does not wrap, and the tables can be paid for. -/
def SbrkOk (s : MemState) (increment : Int) : Prop :=
  (∀ heap, s.heap = some heap → FitsBreak heap increment) ∧ TablesAffordable s increment

section Boot

variable {mem : Mem} {pmm p : Pmm} {cr3 : Entry} {nx : Bool} {s s' s₀ : MemState} {own own' : Label} {v x : Nat}

theorem physLoop_walk {m : Mem} {rest : List Nat} (hr : rest ≠ []) : ∀ (q : List Nat) {t u : Nat},
    walk (child m) t q = some u → physLoop m v (q ++ rest) t = physLoop m v rest u := by
  intro q
  induction q with
  | nil =>
    intro t u h
    cases h
    rfl
  | cons i q ih =>
    intro t u h
    rw [walk, Option.bind_eq_some_iff] at h
    obtain ⟨c, hc, h⟩ := h
    rw [List.cons_append, physLoop_slot hc (by simp [hr]), ih h]

theorem physOf_odd (e : Entry) (n : Nat) (hv : v % 2 = 1) : physOf e n v ≠ 0 := by
  intro hzero
  have hbit : (physOf e n v).testBit 0 = true := by
    rw [physOf, ← BitVec.getLsbD, BitVec.getLsbD_or, BitVec.getLsbD_and, BitVec.getLsbD_and, BitVec.getLsbD_ofNat]
    have hmask : (offsetMask n).getLsbD 0 = true := by
      unfold offsetMask
      split <;> decide
    simp [hmask, hv]
  rw [hzero] at hbit
  cases hbit

theorem InWindow.slot (h : InWindow v) : 256 ≤ pml4Idx v ∧ pml4Idx v < 512 := by
  obtain ⟨h1, h2⟩ := h
  unfold kheapVirtBase at h1 h2
  unfold pml4Idx
  omega

/-- A huge page of Limine's in the window would give some byte of it an address. -/
theorem noHuge_inherited (hl : LimineTables mem pmm cr3) (hw : WindowFree mem cr3) (h : Inherited mem cr3 s own) :
    NoHugeWindow s own := by
  intro v hv t q i ht hpre hp
  obtain ⟨-, ⟨rfl, rfl⟩ | ⟨-, hq, hwalk, hsame⟩⟩ := h.label ht
  · obtain rfl : i = pml4Idx v := by
      obtain ⟨l, hl⟩ := hpre
      exact (List.cons.inj hl).1
    obtain ⟨h1, h2⟩ := hv.slot
    rw [h.high _ h1 h2] at hp ⊢
    exact hl.pml4 _ h1 h2 hp
  · have hi := slot_lt_of_path hpre
    rw [hsame i hi] at hp ⊢
    rw [← Bool.not_eq_true]
    intro hps
    have hx : (v / 4096 * 4096 + 1) / 4096 = v / 4096 := by omega
    have hin : InWindow (v / 4096 * 4096 + 1) := by
      obtain ⟨h1, h2⟩ := hv
      have hbase : kheapVirtBase % 4096 = 0 := by decide
      exact ⟨by omega, by omega⟩
    obtain ⟨l, hpath⟩ := hpre
    have hzero := hw _ hin
    rw [vmmGetPhys_eq fun hpres => hl.pml4 _ hin.slot.1 hin.slot.2 hpres, (page_indices hx).1, ← hpath, List.append_assoc,
      List.append_assoc, physLoop_walk (by simp) q hwalk, List.singleton_append, physLoop, hp, if_neg (by simp),
      if_pos (.inr hps)] at hzero
    exact physOf_odd _ _ (by omega) hzero

theorem NoHugeWindow.move (h : NoHugeWindow s own) (hm : Move (fun _ _ => False) s own s' own') : NoHugeWindow s' own' := by
  intro v hv
  rw [hm.kept.kernelCtx]
  cases hm with
  | grow _ _ _ g => exact (h v hv).grow g
  | leaf _ permitted => exact permitted.elim
  | keep same => exact (h v hv).keep same

/-- The heap that `init_kheap` sets up, with any state of the manager in which the tables are in use; the tables below the
PDPTs are Limine's. -/
theorem heapInv_boot (hl : LimineTables mem pmm cr3) (hw : WindowFree mem cr3) (hok : initVmm mem pmm cr3 nx = .ok s₀)
    (hp : p.Ok) (hm : TablesMarked ⟨s₀, [s₀.kernelCtx]⟩ p) :
    ∃ own heap, HeapInv p.marked (initKheap { s₀ with pmm := p }) own heap ∧ heap.mappedEnd = kheapVirtBase ∧
      ∀ f c q, own f = some (c, q) → 1 < q.length → walk (child mem) (frameOf cr3) q = some f := by
  obtain ⟨s₁, own₁, own, hinh, hms, hinv, hadded⟩ := initVmm_spec (P := fun _ _ => False) hl hok
  have hkeep : Move (fun _ _ => False) s₀ own { s₀ with pmm := p } own :=
    .keep (fun _ _ _ _ _ => rfl) rfl rfl hp fun f pl hf => hinv.tablesMarked hm hf
  have hall : Moves (fun _ _ => False) s₁ own₁ { s₀ with pmm := p } own := .tail hms hkeep
  have hinv' : VmInv ⟨{ s₀ with pmm := p }, [s₀.kernelCtx]⟩ own := VmMoves.inv hinv (.moves rfl hkeep.single)
  have hno : NoPages { s₀ with pmm := p } own := hall.invariant (I := NoPages) (noPages_inherited hinh hw)
    fun h hm => h.move hm
  have hnoHuge : NoHugeWindow { s₀ with pmm := p } own :=
    hall.invariant (I := NoHugeWindow) (noHuge_inherited hl hw hinh) fun h hm => h.move hm
  have howned := vmOwned_of_noPages hinv' hno
  obtain ⟨heap, hh, hend⟩ := heapOk_initKheap { s₀ with pmm := p }
  refine ⟨own, heap, ⟨howned.owned, hh, hnoHuge, ⟨?_, ?_⟩, fun n hn => .inl hn, fun c hc => ?_, ?_⟩, hend, ?_⟩
  · intro v h1 h2
    omega
  · intro f r q hf hq
    have := hinv.sys.tables f r q hf
    omega
  · exact List.mem_singleton.1 ((hinv.roots c).1 hc)
  · exact hinv.tablesMarked hm hinv.sys.trees.kernel
  · intro f c q hf hq
    obtain ⟨-, ⟨-, rfl⟩ | ⟨-, -, hwalk, -⟩⟩ := hinh.label ((hadded f c q hf).resolve_right (by omega))
    · cases hq
    · exact hwalk

/-- In every run of calls whose tables can be paid for, the heap is backed. The next call returns whatever the state of
the manager, and when it fails it leaves the break and the pages as they were. -/
theorem heap_is_backed (hl : LimineTables mem pmm cr3) (hw : WindowFree mem cr3) (hok : initVmm mem pmm cr3 nx = .ok s₀)
    (hp : p.Ok) (hm : TablesMarked ⟨s₀, [s₀.kernelCtx]⟩ p)
    (h : Reach sbrkStep SbrkOk (initKheap { s₀ with pmm := p }) s) :
    ∃ heap, Backed p.marked s heap ∧ (∀ increment, FitsBreak heap increment → ∃ res s', sysSbrk s increment = .ok (res, s')) ∧
      ∀ increment s', FitsBreak heap increment → sysSbrk s increment = .ok (none, s') →
        ∃ heap', s'.heap = some heap' ∧ heap'.brk = heap.brk ∧
          ∀ v, InHeap heap v → leafOf s'.mem heap.vmmCtx v = leafOf s.mem heap.vmmCtx v := by
  obtain ⟨own₀, heap₀, h₀, -, -⟩ := heapInv_boot hl hw hok hp hm
  have hinv : ∃ own heap, HeapInv p.marked s own heap := by
    refine h.invariant (P := fun s => ∃ own heap, HeapInv p.marked s own heap) ⟨own₀, heap₀, h₀⟩ ?_
    rintro s increment s' ⟨own, heap, hs⟩ ⟨hfits, hafford⟩ hstep
    unfold sbrkStep at hstep
    split at hstep
    · rename_i heq
      cases hstep
      exact hs.sbrk (hfits heap hs.ok.loaded) hafford heq
    · cases hstep
  obtain ⟨own, heap, hs⟩ := hinv
  exact ⟨heap, hs.backed, fun increment hfits => sbrk_returns hs.owned hs.noHuge hs.ok hfits,
    fun increment s' hfits hok => hs.failed hfits hok⟩

theorem tablesMarked_boot (hinv : VmInv ⟨s₀, [s₀.kernelCtx]⟩ own) (hp : ∀ n, s₀.pmm.marked n = true → p.marked n = true) :
    TablesMarked ⟨s₀, [s₀.kernelCtx]⟩ p := by
  intro c hc q t hlen hlt hwalk
  obtain rfl := List.mem_singleton.1 hc
  have ht := (hinv.sys.trees.walk_iff hinv.sys.trees.kernel ⟨hlen, hlt, .inl rfl⟩).1 hwalk
  exact hp _ (hinv.sys.trees.frame ht).2

/-- The first byte of the heap of the machine of `boot_ok` is backed. -/
theorem first_byte_backed : ∃ s₀ s, initVmm bootMem bootPmm 0x1000 true = .ok s₀ ∧ sbrkStep (initKheap s₀) 1 = some s ∧
    ∃ heap, Backed s₀.pmm.marked s heap := by
  obtain ⟨s₀, hinit⟩ := boot_ok true
  obtain ⟨-, -, own₀, -, -, hinv₀, -⟩ := initVmm_spec (P := fun _ _ => True) limineTables_boot hinit
  have hok := hinv₀.sys.trees.pmm
  have hmarked := tablesMarked_boot hinv₀ (p := s₀.pmm) fun _ h => h
  obtain ⟨heap, hh, hend⟩ := heapOk_initKheap s₀
  have hbrk : heap.brk = kheapVirtBase := Nat.le_antisymm (hend ▸ hh.backed) hh.low
  have hfits : FitsBreak heap 1 := hh.fits ⟨by decide, by decide⟩
  have hstep : SbrkOk (initKheap s₀) 1 := by
    refine ⟨fun _ hl => ?_, fun _ hl _ _ => ?_⟩
    · rw [hh.loaded] at hl
      cases hl
      exact hfits
    · rw [hh.loaded] at hl
      cases hl
      have hpages : pagesToAdd heap 1 = [kheapVirtBase] := by
        rw [pagesToAdd, hbrk, hend]
        decide
      have hfree : 4 ≤ s₀.pmm.clearCount := Nat.le_trans (by decide) (boot_free hinit)
      have hnew : newTables s₀.mem s₀.kernelCtx [] kheapVirtBase ≤ 3 := List.countP_le_length
      rw [hpages, affordable, affordable, Bool.and_true, Bool.or_eq_true, decide_eq_true_iff]
      right
      show _ ≤ s₀.pmm.clearCount
      exact Nat.le_trans (Nat.add_le_add_left hnew 1) hfree
  obtain ⟨own, _, hinv, -, -⟩ := heapInv_boot limineTables_boot windowFree_boot hinit hok hmarked
  obtain ⟨res, s, hs⟩ := sbrk_returns hinv.owned hinv.noHuge hh hfits
  have hrun : sbrkStep (initKheap s₀) 1 = some s := by rw [sbrkStep, hs]
  obtain ⟨heap, hb, -⟩ := heap_is_backed limineTables_boot windowFree_boot hinit hok hmarked (.tail .refl hstep hrun)
  exact ⟨s₀, s, hinit, hrun, heap, hb⟩

/-! ## The run that fails -/

/-- Frame `n` is clear and no other. -/
def onlyClear (p : Pmm) (n : Nat) : Pmm := freeFrame { p with bMap := fun _ => 0xFF } (4096 * n)

theorem marked_full (p : Pmm) (f : Nat) : ({ p with bMap := fun _ => 0xFF } : Pmm).marked f = true := by
  have hbits : ∀ j < 8, (0xFF : BitVec 8).getLsbD j = true := by decide
  exact hbits _ (Nat.mod_lt _ (by decide))

theorem marked_onlyClear (p : Pmm) (n f : Nat) : (onlyClear p n).marked f = decide (f ≠ n) := by
  rw [onlyClear, marked_freeFrame, marked_full, Bool.true_and, Nat.mul_div_cancel_left n (by decide)]

theorem clearCount_onlyClear {n : Nat} (hn : n < 8 * p.bitmapBytes) : (onlyClear p n).clearCount = 1 := by
  rw [onlyClear, ← clearCount_freeFrame (p := { p with bMap := fun _ => 0xFF }) hn (marked_full p n),
    clearCount_eq_zero fun f _ => marked_full p f]

/-- With one frame left and no page table for the first page, a call that needs this page succeeds without it. -/
theorem HeapInv.without_table {base : Nat → Bool} {heap : Heap} (h : HeapInv base s own heap)
    (hend : heap.mappedEnd = kheapVirtBase)
    (hone : s.pmm.clearCount = 1) (hno : ∀ t, own t ≠ some (s.kernelCtx, tablePath kheapVirtBase)) :
    ∃ s', sysSbrk s 1 = .ok (some kheapVirtBase, s') ∧ vmmGetPhys s'.mem s'.kernelCtx kheapVirtBase = 0 ∧
      ∃ heap', s'.heap = some heap' ∧ heap'.brk = kheapVirtBase + 1 ∧ heap'.mappedEnd = kheapVirtBase + 4096 ∧
        ¬ Backed base s' heap' := by
  have hbrk : heap.brk = kheapVirtBase := Nat.le_antisymm (hend ▸ h.ok.backed) h.ok.low
  have hfits : FitsBreak heap 1 := h.ok.fits ⟨by decide, by decide⟩
  have hin : InWindow kheapVirtBase := ⟨Nat.le_refl _, by decide⟩
  have hup : pageAlignUp (heap.brk + (1 : Int).toNat) = kheapVirtBase + 4096 := by
    rw [hbrk]
    decide
  obtain ⟨res, s', hs⟩ := sbrk_returns h.owned h.noHuge h.ok hfits
  obtain ⟨own', hres⟩ := sbrk_spec h.owned h.ok hfits hs
  cases hres with
  | zero hz => cases hz
  | refused _ high =>
    rw [hbrk] at high
    exact absurd high (by decide)
  | shrunk hneg => exact absurd hneg (by decide)
  | @grown m n s₁ _ hpos need fits window le out rounds =>
    rw [hup, hend] at fits need
    obtain rfl : n = 1 := by omega
    have hm : m = 1 := by
      by_contra hm
      obtain rfl : m = 0 := by omega
      cases rounds
      have := clearCount_eq_zero (out (by omega))
      omega
    subst hm
    rw [if_pos rfl, hbrk] at hs
    refine ⟨_, hs, ?_⟩
    rw [pagesFrom_one_more, hend] at rounds
    cases rounds with
    | @cons _ _ _ _ _ _ _ _ first rest =>
      cases rest
      have hnoHuge := first.noHugeWindow h.owned hin h.noHuge
      have heff := first.heap_effect h.owned hin
      have hnone : ∀ f, own' f ≠ some (s.kernelCtx, pagePath kheapVirtBase) := by
        cases first with
        | @mapped phys t₁ t₂ own₁ pt took grow table log =>
          -- the page table would have to be a frame of its own
          have hcount := took.count
          rcases grow.added table with hold | ⟨hfresh, hclear, -⟩
          · exact absurd hold (hno pt)
          · have hrange := (grow.taken hfresh (by rw [table]; simp)).2
            rw [marked_of_clearCount (by omega) hrange] at hclear
            cases hclear
        | failed took grow path =>
          intro f hf
          have hlong : 3 < (pagePath kheapVirtBase).length := by decide
          exact (hend ▸ h.pages).fresh (by decide) hin f (grow.old_label path hf hlong)
      have hnone' : ∀ f, own' f ≠ some (s₁.kernelCtx, pagePath kheapVirtBase) := by rwa [heff.kernelCtx]
      have hphys : vmmGetPhys s₁.mem s₁.kernelCtx kheapVirtBase = 0 := phys_eq_zero heff.owned hnoHuge hin hnone'
      refine ⟨hphys, _, rfl, ?_, ?_, fun hb => ?_⟩
      · show (if 1 = 1 then kheapVirtBase + (1 : Int).toNat else kheapVirtBase) = kheapVirtBase + 1
        rw [if_pos rfl]
        rfl
      · show heap.mappedEnd + 1 * 4096 = kheapVirtBase + 4096
        rw [hend]
      · obtain ⟨f, hleaf, -⟩ := hb.page kheapVirtBase ⟨Nat.le_of_eq h.ok.base, by
          show kheapVirtBase < heap.mappedEnd + 1 * 4096
          omega, by decide⟩
        have hleaf : leafOf s₁.mem heap.vmmCtx kheapVirtBase = some (leafEntry f heap.flags) := hleaf
        rw [h.ok.ctx, ← heff.kernelCtx, leafOf, Option.map_eq_some_iff] at hleaf
        obtain ⟨pt, hwalk, he⟩ := hleaf
        have hroot := inside_tablePath s₁ s₁.kernelCtx kheapVirtBase
        rw [treeRoot_kernel] at hroot
        have hpt := (heff.owned.trees.walk_iff heff.owned.trees.kernel hroot).1 hwalk
        exact hnone' _ (heff.owned.pages.entry hpt rfl (ptIdx_lt _) hin.tracked (by rw [he]; exact present_leafEntry))

theorem sbrk_without_table : ∃ s₀ n s, initVmm bootMem bootPmm 0x1000 true = .ok s₀ ∧ (onlyClear s₀.pmm n).Ok ∧
    TablesMarked ⟨s₀, [s₀.kernelCtx]⟩ (onlyClear s₀.pmm n) ∧
    sysSbrk (initKheap { s₀ with pmm := onlyClear s₀.pmm n }) 1 = .ok (some kheapVirtBase, s) ∧
    vmmGetPhys s.mem s.kernelCtx kheapVirtBase = 0 ∧
    ∃ heap, s.heap = some heap ∧ heap.brk = kheapVirtBase + 1 ∧ heap.mappedEnd = kheapVirtBase + 4096 ∧
      ¬ Backed (onlyClear s₀.pmm n).marked s heap := by
  obtain ⟨s₀, hinit⟩ := boot_ok true
  obtain ⟨n, hn, hclear⟩ : ∃ n < 8 * s₀.pmm.bitmapBytes, s₀.pmm.marked n = false := by
    by_contra hall
    have hfree := boot_free hinit
    rw [clearCount_eq_zero fun f hf => ?_] at hfree
    · omega
    · rw [← Bool.not_eq_false]
      exact fun hm => hall ⟨f, hf, hm⟩
  obtain ⟨-, -, own₀, -, -, hinv₀, -⟩ := initVmm_spec (P := fun _ _ => True) limineTables_boot hinit
  have hne : ∀ {f}, s₀.pmm.marked f = true → (onlyClear s₀.pmm n).marked f = true := by
    intro f hf
    rw [marked_onlyClear, decide_eq_true_iff]
    rintro rfl
    rw [hf] at hclear
    cases hclear
  have hpok : (onlyClear s₀.pmm n).Ok := ⟨hinv₀.sys.trees.pmm.size, hne hinv₀.sys.trees.pmm.zero⟩
  have hmarked := tablesMarked_boot hinv₀ fun f hf => hne (f := f) hf
  obtain ⟨own, heap, hinv, hend, hlow⟩ := heapInv_boot limineTables_boot windowFree_boot hinit hpok hmarked
  have hno : ∀ t, own t ≠ some (s₀.kernelCtx, tablePath kheapVirtBase) := by
    intro t ht
    have hwalk := hlow t _ _ ht (by decide)
    rw [tablePath, walk, show frameOf 0x1000 = 0x1000 * (0 + 1) by decide, child_boot (by decide) (by decide),
      if_neg (by decide)] at hwalk
    cases hwalk
  obtain ⟨s, hs, hphys, hheap⟩ := hinv.without_table hend (clearCount_onlyClear hn) hno
  exact ⟨s₀, n, s, hinit, hpok, hmarked, hs, hphys, hheap⟩

end Boot

end ToastOS.Mmu
