import ToastOS.Mmu.Ownership

/-!
# Tearing an address space down gives back what it took

Between `vmm_create_context` and `vmm_destroy_context` a context takes frames in calls of `vmm_user_alloc`, and the kernel
heap may take and free frames of its own. `Traced` carries the bitmap and the counter without what the context has taken,
as ghosts that only `sys_sbrk` changes. `Life` says that the manager's bitmap is the ghost's with the frames of the
context's tree on top; destroying the context removes those (`Life.destroy`). `create_user_task` runs through such a life
when it fails (`createUserTask_settled`).
-/

namespace ToastOS.Mmu

open ToastOS.Lib Function

/-- The memory system; `base` and `baseFree` are ghosts: the bitmap and `free_frames` without the frames of one context. -/
structure Traced where
  sys : MemState
  base : Nat → Bool
  baseFree : Nat

def Traced.start (s : MemState) : Traced := ⟨s, s.pmm.marked, s.pmm.freeFrames⟩

/-- `sys_sbrk`; the ghosts change where the manager does. -/
def Traced.sbrk (T : Traced) (increment : Int) : Except Kpanic Traced :=
  match sysSbrk T.sys increment with
  | .error e => .error e
  | .ok (_, sys) =>
    .ok { sys,
          base := fun n => if sys.pmm.marked n = T.sys.pmm.marked n then T.base n else sys.pmm.marked n,
          baseFree := u64 (T.baseFree + sys.pmm.freeFrames + (2 ^ 64 - T.sys.pmm.freeFrames)) }

/-! ## The invariant -/

/-- The frame `n` has a label in the tree of `c`. -/
def InTreeOf (own : Label) (c n : Nat) : Prop := ∃ q, own (4096 * n) = some (c, q)

/-- The clear bits of a bitmap of `n` bits. -/
def clearIn (b : Nat → Bool) (n : Nat) : Nat := (List.range n).countP fun f => !b f

/-- The bitmap is `base` with the frames of `c` added, and the counter is what `baseFree` and these frames say. -/
structure Life (c : Nat) (T : Traced) (own : Label) : Prop where
  owned : Owned T.sys own
  heap : ∃ heap, HeapOk T.sys heap
  ctx : own c = some (c, [])
  user : c ≠ T.sys.kernelCtx
  marks : ∀ n, T.sys.pmm.marked n = true ↔ T.base n = true ∨ InTreeOf own c n
  apart : ∀ n, InTreeOf own c n → T.base n = false
  count : (T.sys.pmm.freeFrames + clearIn T.base (8 * T.sys.pmm.bitmapBytes)) % 2 ^ 64 =
    (T.baseFree + T.sys.pmm.clearCount) % 2 ^ 64
  bound : T.sys.pmm.freeFrames < 2 ^ 64
  baseBound : T.baseFree < 2 ^ 64

/-- No frame of a context is taken: the ghosts are the manager's own. -/
structure Settled (T : Traced) (own : Label) : Prop where
  owned : Owned T.sys own
  heap : ∃ heap, HeapOk T.sys heap
  marks : ∀ n, T.sys.pmm.marked n = T.base n
  count : T.sys.pmm.freeFrames = T.baseFree
  bound : T.sys.pmm.freeFrames < 2 ^ 64

section Count

/-- Two pairs of tests that agree in number at each place agree in number on a list. -/
theorem countP_add {p q r t : Nat → Bool} (h : ∀ n, (p n).toNat + (q n).toNat = (r n).toNat + (t n).toNat) :
    ∀ l : List Nat, l.countP p + l.countP q = l.countP r + l.countP t := by
  intro l
  induction l with
  | nil => rfl
  | cons a l ih =>
    have ha := h a
    simp only [List.countP_cons]
    cases hp : p a <;> cases hq : q a <;> cases hr : r a <;> cases ht : t a <;> simp_all <;> omega

end Count

section Sbrk

variable {T T' : Traced} {own : Label} {c : Nat} {increment : Int}

/-- What a call does for the trees of the other contexts: their labels stay. -/
theorem sbrk_traced (ho : Owned T.sys own) {heap : Heap} (hh : HeapOk T.sys heap) (hfits : FitsBreak heap increment)
    (hok : T.sbrk increment = .ok T') :
    ∃ own', Owned T'.sys own' ∧ (∃ heap', HeapOk T'.sys heap') ∧ T'.sys.kernelCtx = T.sys.kernelCtx ∧
      T'.sys.pmm.bitmapBytes = T.sys.pmm.bitmapBytes ∧ Balanced T.sys.pmm T'.sys.pmm ∧
      (∀ {f c q}, c ≠ T.sys.kernelCtx → (own' f = some (c, q) ↔ own f = some (c, q))) ∧
      T' = { sys := T'.sys,
             base := fun n => if T'.sys.pmm.marked n = T.sys.pmm.marked n then T.base n else T'.sys.pmm.marked n,
             baseFree := u64 (T.baseFree + T'.sys.pmm.freeFrames + (2 ^ 64 - T.sys.pmm.freeFrames)) } := by
  unfold Traced.sbrk at hok
  split at hok
  · cases hok
  · rename_i res s heq
    cases hok
    obtain ⟨own', hres⟩ := sbrk_spec ho hh hfits heq
    obtain ⟨heap', t, heff, rfl, hh'⟩ := hres.effect ho hh
    exact ⟨own', heff.owned.setHeap _, ⟨heap', hh'⟩, heff.kernelCtx, heff.bytes, heff.balanced, heff.others, rfl⟩

theorem Life.sbrk (h : Life c T own) (hfits : ∀ heap, T.sys.heap = some heap → FitsBreak heap increment)
    (hok : T.sbrk increment = .ok T') :
    ∃ own', Life c T' own' ∧ T'.sys.kernelCtx = T.sys.kernelCtx ∧ ∀ {f q}, own' f = some (c, q) ↔ own f = some (c, q) := by
  obtain ⟨heap, hh⟩ := h.heap
  obtain ⟨own', ho', hh', hk, hb, hbal, hothers, hT⟩ := sbrk_traced h.owned hh (hfits heap hh.loaded) hok
  have hlabels : ∀ {f q}, own' f = some (c, q) ↔ own f = some (c, q) := hothers h.user
  have htree : ∀ n, InTreeOf own' c n ↔ InTreeOf own c n := fun n => exists_congr fun q => hlabels
  -- the frames of the tree are in use before and after
  have hsame : ∀ n, InTreeOf own c n → T'.sys.pmm.marked n = true ∧ T.sys.pmm.marked n = true := by
    intro n hn
    obtain ⟨q, hq⟩ := (htree n).2 hn
    have hm := (ho'.trees.frame hq).2
    rw [Nat.mul_div_cancel_left n (by decide)] at hm
    exact ⟨hm, (h.marks n).2 (.inr hn)⟩
  have hbase : T'.base = fun n => if T'.sys.pmm.marked n = T.sys.pmm.marked n then T.base n else T'.sys.pmm.marked n := by
    rw [hT]
  have hfree : T'.baseFree = u64 (T.baseFree + T'.sys.pmm.freeFrames + (2 ^ 64 - T.sys.pmm.freeFrames)) := by rw [hT]
  refine ⟨own', ⟨ho', hh', hlabels.2 h.ctx, by rw [hk]; exact h.user, ?_, ?_, ?_, hbal.bound h.bound, ?_⟩, hk, hlabels⟩
  · intro n
    rw [htree, hbase]
    by_cases hn : InTreeOf own c n
    · simp only [(hsame n hn).1, hn, or_true]
    · have hm := h.marks n
      simp only [hn, or_false] at hm ⊢
      split
      · rename_i heq
        rw [heq]
        exact hm
      · exact Iff.rfl
  · intro n hn
    have hn := (htree n).1 hn
    obtain ⟨h1, h2⟩ := hsame n hn
    rw [hbase]
    show (if T'.sys.pmm.marked n = T.sys.pmm.marked n then T.base n else T'.sys.pmm.marked n) = false
    rw [if_pos (h1.trans h2.symm)]
    exact h.apart n hn
  · -- where the bitmap changes the ghost had the same bit
    have hadd : clearIn T'.base (8 * T'.sys.pmm.bitmapBytes) + T.sys.pmm.clearCount =
        clearIn T.base (8 * T.sys.pmm.bitmapBytes) + T'.sys.pmm.clearCount := by
      rw [Pmm.clearCount, Pmm.clearCount, clearIn, clearIn, hb]
      refine countP_add (fun n => ?_) _
      rw [hbase]
      simp only
      by_cases heq : T'.sys.pmm.marked n = T.sys.pmm.marked n
      · rw [if_pos heq, heq]
      · rw [if_neg heq]
        have hn : ¬ InTreeOf own c n := fun hn => heq ((hsame n hn).1.trans (hsame n hn).2.symm)
        have hm : T.sys.pmm.marked n = T.base n := by
          have := h.marks n
          simp only [hn, or_false] at this
          exact Bool.eq_iff_iff.2 this
        rw [hm]
        omega
    have hcount := h.count
    have hbound := h.bound
    have hbound' := hbal.bound h.bound
    have hu : ∀ x, u64 x = x % 2 ^ 64 := fun _ => rfl
    rw [hfree, hu]
    omega
  · rw [hfree]
    exact u64_lt _

theorem Settled.sbrk (h : Settled T own) (hfits : ∀ heap, T.sys.heap = some heap → FitsBreak heap increment)
    (hok : T.sbrk increment = .ok T') : ∃ own', Settled T' own' := by
  obtain ⟨heap, hh⟩ := h.heap
  obtain ⟨own', ho', hh', -, -, hbal, -, hT⟩ := sbrk_traced h.owned hh (hfits heap hh.loaded) hok
  have hbound := hbal.bound h.bound
  refine ⟨own', ho', hh', fun n => ?_, ?_, hbound⟩
  · rw [hT]
    simp only
    split
    · rename_i heq
      rw [heq]
      exact h.marks n
    · rfl
  · have hb := h.bound
    have hu : ∀ x, u64 x = x % 2 ^ 64 := fun _ => rfl
    rw [hT]
    simp only [hu]
    rw [← h.count]
    omega

end Sbrk

/-! ## Calls of `vmm_user_alloc` on pages that are not mapped -/

/-- Labels are only added, and the frames that get one are those that become marked. -/
structure Exact (s : MemState) (own : Label) (s' : MemState) (own' : Label) : Prop where
  kept : ∀ {f l}, own f = some l → own' f = some l
  marks : ∀ n, s'.pmm.marked n = true ↔ s.pmm.marked n = true ∨ (own (4096 * n) = none ∧ own' (4096 * n) ≠ none)
  fresh : ∀ {f}, own f = none → own' f ≠ none → s.pmm.marked (f / 4096) = false

section Exact

variable {s s₁ s₂ s' : MemState} {own own₁ own₂ own' : Label} {c v : Nat} {flags : Entry}

theorem Exact.refl (s : MemState) (own : Label) : Exact s own s own :=
  ⟨id, fun _ => ⟨.inl, fun h => h.elim id fun h => absurd h.1 h.2⟩, fun h1 h2 => absurd h1 h2⟩

theorem Exact.trans (h : Exact s own s₁ own₁) (h' : Exact s₁ own₁ s₂ own₂) : Exact s own s₂ own₂ := by
  have hback : ∀ {f}, own₁ f = none → own f = none := by
    intro f h1
    cases ho : own f with
    | none => rfl
    | some l =>
      rw [h.kept ho] at h1
      cases h1
  have hforth : ∀ {f}, own₁ f ≠ none → own₂ f ≠ none := by
    intro f h1
    obtain ⟨l, hl⟩ := Option.ne_none_iff_exists'.1 h1
    rw [h'.kept hl]
    simp
  refine ⟨fun hf => h'.kept (h.kept hf), fun n => ?_, fun {f} h1 h2 => ?_⟩
  · rw [h'.marks, h.marks]
    constructor
    · rintro ((hm | ⟨h1, h2⟩) | ⟨h1, h2⟩)
      · exact .inl hm
      · exact .inr ⟨h1, hforth h2⟩
      · exact .inr ⟨hback h1, h2⟩
    · rintro (hm | ⟨h1, h2⟩)
      · exact .inl (.inl hm)
      · by_cases hmid : own₁ (4096 * n) = none
        · exact .inr ⟨hmid, h2⟩
        · exact .inl (.inr ⟨h1, hmid⟩)
  · by_cases hmid : own₁ f = none
    · have hm := h'.fresh hmid h2
      rw [← Bool.not_eq_true] at hm ⊢
      exact fun hs => hm ((h.marks _).2 (.inl hs))
    · exact h.fresh h1 hmid

/-- A table that was added while a page was taken was free before. -/
theorem Took.unmarked_before {r phys f : Nat} {p : List Nat} {l : Nat × List Nat} (took : Took s own phys s₁)
    (grow : Grow s₁ own s₂ own₂ r p flags) (h1 : own f = none) (h2 : own₂ f = some l) : s.pmm.marked (f / 4096) = false := by
  rcases grow.added h2 with hold | ⟨-, hclear, -⟩
  · rw [h1] at hold
    cases hold
  · rw [← Bool.not_eq_true] at hclear ⊢
    exact fun hm => hclear ((took.marks _).2 (.inl hm))

/-- A round for a page that has no frame yet. The only page label it adds is the page's own. -/
theorem Round.exact (ho : Owned s own) (hfresh : ∀ f, own f ≠ some (c, pagePath v)) (h : Round true c flags v s own s' own') :
    Exact s own s' own' ∧ ∀ {f r q}, own' f = some (r, q) → 3 < q.length → own f = some (r, q) ∨
    (r, q) = (c, pagePath v) := by
  cases h with
  | @mapped phys s₁ s₂ own₂ pt took grow table log =>
    have hphys : own phys = none := ho.trees.fresh took.unmarked
    have hal : 4096 * (phys / 4096) = phys := Nat.mul_div_cancel' (Nat.dvd_of_mod_eq_zero took.frame.1)
    have hnone := took.unlabelled ho grow
    have hkept : ∀ {f l}, own₂ f = some l → relabel own₂ (c, pagePath v) (some phys) f = some l := by
      rintro f ⟨r, q⟩ hf
      refine relabel_other (fun heq => ?_) hnone hf
      rw [heq] at hf
      exact hfresh f (grow.old_label List.prefix_rfl hf (by rw [pagePath_length]; decide))
    refine ⟨⟨fun hf => hkept (grow.kept hf), fun n => ?_, fun {f} h1 h2 => ?_⟩, ?_⟩
    · show s₂.pmm.marked n = true ↔ _
      rw [grow.marks, took.marks]
      constructor
      · rintro ((hm | rfl) | ⟨h1, h2⟩)
        · exact .inl hm
        · rw [hal]
          exact .inr ⟨hphys, by rw [relabel, if_pos rfl]; simp⟩
        · obtain ⟨l, hl⟩ := Option.ne_none_iff_exists'.1 h2
          exact .inr ⟨h1, by rw [hkept hl]; simp⟩
      · rintro (hm | ⟨h1, h2⟩)
        · exact .inl (.inl hm)
        · obtain ⟨⟨r, q⟩, hl⟩ := Option.ne_none_iff_exists'.1 h2
          rcases of_relabel hl with ⟨heq, -⟩ | ⟨hold, -⟩
          · cases heq
            exact .inl (.inr (by omega))
          · exact .inr ⟨h1, by rw [hold]; simp⟩
    · obtain ⟨⟨r, q⟩, hl⟩ := Option.ne_none_iff_exists'.1 h2
      rcases of_relabel hl with ⟨heq, -⟩ | ⟨hold, -⟩
      · cases heq
        exact took.unmarked
      · exact took.unmarked_before grow h1 hold
    · intro f r q hf hq
      rcases of_relabel hf with ⟨-, heq⟩ | ⟨hold, -⟩
      · exact .inr heq
      · exact .inl (grow.old_label List.prefix_rfl hold hq)
  | @failed phys s₁ s₂ _ p took grow path =>
    have hphys : own phys = none := ho.trees.fresh took.unmarked
    have hal : 4096 * (phys / 4096) = phys := Nat.mul_div_cancel' (Nat.dvd_of_mod_eq_zero took.frame.1)
    have htable : own' phys = none := took.not_table ho grow
    refine ⟨⟨grow.kept, fun n => ?_, fun h1 h2 => ?_⟩, fun hf hq => .inl (grow.old_label path hf hq)⟩
    · show (freeFrame s₂.pmm phys).marked n = true ↔ _
      rw [marked_freeFrame, Bool.and_eq_true, decide_eq_true_iff, grow.marks, took.marks]
      constructor
      · rintro ⟨(hm | rfl) | hx, hne⟩
        · exact .inl hm
        · exact absurd rfl hne
        · exact .inr hx
      · rintro (hm | ⟨h1, h2⟩)
        · refine ⟨.inl (.inl hm), ?_⟩
          rintro rfl
          rw [took.unmarked] at hm
          cases hm
        · refine ⟨.inr ⟨h1, h2⟩, ?_⟩
          rintro rfl
          rw [hal] at h2
          exact h2 htable
    · obtain ⟨⟨r, q⟩, hl⟩ := Option.ne_none_iff_exists'.1 h2
      exact took.unmarked_before grow h1 hl

/-- Rounds for different pages, none of which has a frame yet. -/
theorem Rounds.exact {vs : List Nat} (hlow : ∀ x ∈ vs, x < userSpaceEnd) (hf : flags &&& pteFrameMask = 0)
    (hnd : (vs.map pagePath).Nodup) (ho : Owned s own) (hfresh : ∀ x ∈ vs, ∀ f, own f ≠ some (c, pagePath x))
    (h : Rounds (Round true c flags) vs s own s' own') :
    Exact s own s' own' ∧ ∀ {f r q}, own' f = some (r, q) → 3 < q.length →
      own f = some (r, q) ∨ ∃ x ∈ vs, (r, q) = (c, pagePath x) := by
  induction h with
  | nil => exact ⟨.refl _ _, fun hf _ => .inl hf⟩
  | @cons v vs s own s₁ own₁ s₂ own₂ first rest ih =>
    have hv := hlow v List.mem_cons_self
    have ho₁ := (first.effect ho (fun _ => hv) hf (tracked_low hv)).owned
    obtain ⟨hex, hpages⟩ := first.exact ho (hfresh v List.mem_cons_self)
    rw [List.map_cons, List.nodup_cons] at hnd
    have hfresh₁ : ∀ x ∈ vs, ∀ f, own₁ f ≠ some (c, pagePath x) := by
      intro x hx f hl
      rcases hpages hl (by rw [pagePath_length]; decide) with hold | heq
      · exact hfresh x (List.mem_cons_of_mem _ hx) f hold
      · exact hnd.1 (List.mem_map.2 ⟨x, hx, (Prod.mk.inj heq).2⟩)
    obtain ⟨hex', hpages'⟩ := ih (fun x hx => hlow x (List.mem_cons_of_mem _ hx)) hnd.2 ho₁ hfresh₁
    refine ⟨hex.trans hex', fun hl hq => ?_⟩
    rcases hpages' hl hq with hl | ⟨x, hx, heq⟩
    · rcases hpages hl hq with hold | heq
      · exact .inl hold
      · exact .inr ⟨v, List.mem_cons_self, heq⟩
    · exact .inr ⟨x, List.mem_cons_of_mem _ hx, heq⟩

end Exact

/-! ## The life of a context -/

/-- No page has bytes of both ranges. -/
def PagesApart (a b : Nat × Nat) : Prop :=
  ∀ x y, a.1 ≤ x → x < a.1 + a.2 → b.1 ≤ y → y < b.1 + b.2 → x / 4096 ≠ y / 4096

/-- The pages of the context are in these ranges. -/
def PagesIn (own : Label) (c : Nat) (ranges : List (Nat × Nat)) : Prop :=
  ∀ {f q}, own f = some (c, q) → 3 < q.length →
    ∃ a ∈ ranges, ∃ x, x < userSpaceEnd ∧ a.1 ≤ x ∧ x < a.1 + a.2 ∧ q = pagePath x

section Life

variable {T : Traced} {s s' : MemState} {own : Label} {c v len initLen : Nat} {flags : Entry}
  {init : Option (List (BitVec 8))} {ranges : List (Nat × Nat)} {res : Int}

theorem canonical_low {x : Nat} (h : x < userSpaceEnd) : Canonical x := by
  unfold userSpaceEnd at h
  exact .inl (by omega)

theorem Life.userAlloc (h : Life c T own) (hin : PagesIn own c ranges) (hf : flags &&& pteFrameMask = 0)
    (hapart : ∀ a ∈ ranges, PagesApart (v, len) a) (hok : vmmUserAlloc T.sys c v len flags init initLen = .ok (res, s')) :
    ∃ own', Life c { T with sys := s' } own' ∧ PagesIn own' c ((v, len) :: ranges) ∧ s'.kernelCtx = T.sys.kernelCtx := by
  obtain ⟨m, own', hrounds, hpages⟩ := userAlloc_rounds hf h.owned h.ctx hok
  have hlow : ∀ x ∈ pagesFrom v 0 m, x < userSpaceEnd := fun x hx => (hpages x hx).1
  have hnd : ((pagesFrom v 0 m).map pagePath).Nodup := by
    refine List.Nodup.map_on ?_ ?_
    · intro x hx y hy heq
      have hpage := ((canonical_low (hlow x hx)).pagePath_eq (canonical_low (hlow y hy))).1 heq
      have hx' := (hpages x hx).2.1
      have hy' := (hpages y hy).2.1
      omega
    · refine List.Nodup.map_on ?_ List.nodup_range'
      intro i _ j _ heq
      omega
  have hfresh : ∀ x ∈ pagesFrom v 0 m, ∀ f, own f ≠ some (c, pagePath x) := by
    intro x hx f hl
    obtain ⟨a, ha, y, hy, hy1, hy2, heq⟩ := hin hl (by rw [pagePath_length]; decide)
    obtain ⟨hx0, -, hx1, hx2⟩ := hpages x hx
    exact hapart a ha x y hx1 hx2 hy1 hy2 (((canonical_low hx0).pagePath_eq (canonical_low hy)).1 heq)
  obtain ⟨hex, hnew⟩ := hrounds.exact hlow (frame_or_user hf) hnd h.owned hfresh
  have heff : Effect c T.sys own s' own' := hrounds.effect h.owned fun hx ho hr =>
    hr.effect ho (fun _ => hlow _ hx) (frame_or_user hf) (tracked_low (hlow _ hx))
  obtain ⟨heap, hh⟩ := h.heap
  -- a frame is in the tree now if it was, or if it has just got a label
  have htree : ∀ n, InTreeOf own' c n ↔ InTreeOf own c n ∨ (own (4096 * n) = none ∧ own' (4096 * n) ≠ none) := by
    intro n
    constructor
    · rintro ⟨q, hq⟩
      cases hold : own (4096 * n) with
      | none => exact .inr ⟨rfl, by rw [hq]; simp⟩
      | some l =>
        rw [hex.kept hold] at hq
        exact .inl ⟨q, by rw [hold, hq]⟩
    · rintro (⟨q, hq⟩ | ⟨h1, h2⟩)
      · exact ⟨q, hex.kept hq⟩
      · obtain ⟨⟨r, q⟩, hl⟩ := Option.ne_none_iff_exists'.1 h2
        by_cases hr : r = c
        · exact ⟨q, by rw [hl, hr]⟩
        · rw [heff.others hr, h1] at hl
          cases hl
  refine ⟨own', ⟨heff.owned, ⟨heap, hh.congr heff.heap heff.kernelCtx⟩, hex.kept h.ctx, ?_, ?_, ?_, ?_,
    heff.balanced.bound h.bound, h.baseBound⟩, ?_, heff.kernelCtx⟩
  · show c ≠ s'.kernelCtx
    rw [heff.kernelCtx]
    exact h.user
  · intro n
    show s'.pmm.marked n = true ↔ T.base n = true ∨ _
    rw [hex.marks, h.marks, htree, or_assoc]
  · intro n hn
    show T.base n = false
    rcases (htree n).1 hn with hn | ⟨h1, h2⟩
    · exact h.apart n hn
    · have hm := hex.fresh h1 h2
      rw [Nat.mul_div_cancel_left n (by decide), ← Bool.not_eq_true] at hm
      rw [← Bool.not_eq_true]
      exact fun hb => hm ((h.marks n).2 (.inl hb))
  · show (s'.pmm.freeFrames + clearIn T.base (8 * s'.pmm.bitmapBytes)) % 2 ^ 64 = (T.baseFree + s'.pmm.clearCount) % 2 ^ 64
    have hcount := h.count
    have hbal := heff.balanced.count
    rw [heff.bytes]
    omega
  · intro f q hl hq
    rcases hnew hl hq with hold | ⟨x, hx, heq⟩
    · obtain ⟨a, ha, hx⟩ := hin hold hq
      exact ⟨a, List.mem_cons_of_mem _ ha, hx⟩
    · obtain ⟨hx0, -, hx1, hx2⟩ := hpages x hx
      exact ⟨(v, len), List.mem_cons_self, x, hx0, hx1, hx2, (Prod.mk.inj heq).2⟩

theorem Settled.created (h : Settled T own) {n : Nat} (hn : Created T.sys own n s') :
    Life n { T with sys := s' } (update own n (some (n, []))) ∧
      PagesIn (update own n (some (n, []))) n [] ∧ s'.kernelCtx = T.sys.kernelCtx := by
  have hself : update own n (some (n, [])) n = some (n, []) := update_self _ _ _
  have honly : ∀ {f q}, update own n (some (n, [])) f = some (n, q) → f = n ∧ q = [] := by
    intro f q hf
    rcases update_some_iff.1 hf with ⟨hfn, heq⟩ | ⟨-, hf⟩
    · exact ⟨hfn, (Prod.mk.inj heq).2⟩
    · have hroot := h.owned.trees.root hf
      rw [hn.unused] at hroot
      cases hroot
  have hal : 4096 * (n / 4096) = n := Nat.mul_div_cancel' (Nat.dvd_of_mod_eq_zero hn.frame.1)
  have htree : ∀ m, InTreeOf (update own n (some (n, []))) n m ↔ m = n / 4096 := by
    intro m
    constructor
    · rintro ⟨q, hq⟩
      have := (honly hq).1
      omega
    · rintro rfl
      exact ⟨[], by rw [hal]; exact hself⟩
  obtain ⟨heap, hh⟩ := h.heap
  refine ⟨⟨h.owned.created hn, ⟨heap, hh.congr hn.rest.heap hn.rest.kernelCtx⟩, hself, ?_, ?_, ?_, ?_,
    hn.rest.balanced.bound h.bound, h.count ▸ h.bound⟩, ?_, hn.rest.kernelCtx⟩
  · show n ≠ s'.kernelCtx
    rw [hn.rest.kernelCtx]
    rintro rfl
    have := h.owned.trees.kernel
    rw [hn.unused] at this
    cases this
  · intro m
    show s'.pmm.marked m = true ↔ T.base m = true ∨ _
    rw [hn.marks, htree, h.marks]
  · intro m hm
    show T.base m = false
    rw [← h.marks, (htree m).1 hm]
    exact hn.unmarked
  · show (s'.pmm.freeFrames + clearIn T.base (8 * s'.pmm.bitmapBytes)) % 2 ^ 64 = (T.baseFree + s'.pmm.clearCount) % 2 ^ 64
    have hclear : clearIn T.base (8 * s'.pmm.bitmapBytes) = T.sys.pmm.clearCount := by
      rw [clearIn, Pmm.clearCount, hn.rest.bytes, show T.base = T.sys.pmm.marked from funext fun m => (h.marks m).symm]
    rw [hclear, ← h.count]
    exact hn.rest.balanced.count
  · intro f q hf hq
    rw [(honly hf).2] at hq
    cases hq

theorem Life.destroy (h : Life c T own) : Settled { T with sys := vmmDestroyContext T.sys c } (drop own c) := by
  have hd := destroy_spec h.owned h.ctx h.user
  obtain ⟨heap, hh⟩ := h.heap
  have hmarks : ∀ n, (vmmDestroyContext T.sys c).pmm.marked n = T.base n := by
    intro n
    rw [Bool.eq_iff_iff, hd.marks, h.marks]
    constructor
    · rintro ⟨hb | ⟨q, hq⟩, hno⟩
      · exact hb
      · exact absurd hq (hno q)
    · intro hb
      refine ⟨.inl hb, fun q hq => ?_⟩
      rw [h.apart n ⟨q, hq⟩] at hb
      cases hb
  have hclear : clearIn T.base (8 * T.sys.pmm.bitmapBytes) = (vmmDestroyContext T.sys c).pmm.clearCount := by
    rw [clearIn, Pmm.clearCount, hd.bytes, show T.base = (vmmDestroyContext T.sys c).pmm.marked from funext fun n =>
      (hmarks n).symm]
  refine ⟨hd.owned, ⟨heap, hh.congr hd.heap hd.kernelCtx⟩, hmarks, ?_, hd.balanced.bound h.bound⟩
  show (vmmDestroyContext T.sys c).pmm.freeFrames = T.baseFree
  have hcount := h.count
  have hbal := hd.balanced.count
  have hb := hd.balanced.bound h.bound
  have hb' := h.baseBound
  rw [hclear] at hcount
  omega

end Life

/-! ## Runs of calls on one context -/

inductive LifeCall
  | userAlloc (vAddr len : Nat) (flags : Entry) (init : Option (List (BitVec 8))) (initLen : Nat)
  /-- The kernel heap is used in between. -/
  | sbrk (increment : Int)

/-- The memory system and the ranges that were asked for. -/
structure Living where
  traced : Traced
  ranges : List (Nat × Nat)

def lifeStep (c : Nat) (L : Living) : LifeCall → Option Living
  | .userAlloc vAddr len flags init initLen =>
    match vmmUserAlloc L.traced.sys c vAddr len flags init initLen with
    | .ok (_, sys) => some ⟨{ L.traced with sys }, (vAddr, len) :: L.ranges⟩
    | .error _ => none
  | .sbrk increment =>
    match L.traced.sbrk increment with
    | .ok traced => some { L with traced }
    | .error _ => none

/-- The ranges are pairwise disjoint in pages. -/
def LifeOk (L : Living) : LifeCall → Prop
  | .userAlloc vAddr len flags _ _ => flags &&& pteFrameMask = 0 ∧ ∀ a ∈ L.ranges, PagesApart (vAddr, len) a
  | .sbrk increment => ∀ heap, L.traced.sys.heap = some heap → FitsBreak heap increment

theorem life_of_reach {c : Nat} {L₀ L : Living} {own₀ : Label} (h₀ : Life c L₀.traced own₀) (hin : PagesIn own₀ c L₀.ranges)
    (h : Reach (lifeStep c) LifeOk L₀ L) : ∃ own, Life c L.traced own ∧ PagesIn own c L.ranges := by
  refine h.invariant (P := fun L => ∃ own, Life c L.traced own ∧ PagesIn own c L.ranges) ⟨own₀, h₀, hin⟩ ?_
  rintro L call L' ⟨own, hL, hin⟩ hok hstep
  cases call with
  | userAlloc v len flags init initLen =>
    obtain ⟨hf, hapart⟩ := hok
    simp only [lifeStep] at hstep
    split at hstep <;> rename_i heq <;> cases hstep
    obtain ⟨own', hL', hin', -⟩ := hL.userAlloc hin hf hapart heq
    exact ⟨own', hL', hin'⟩
  | sbrk increment =>
    simp only [lifeStep] at hstep
    split at hstep <;> rename_i heq <;> cases hstep
    obtain ⟨own', hL', -, hlabels⟩ := hL.sbrk hok heq
    refine ⟨own', hL', fun hf hq => ?_⟩
    exact hin (hlabels.1 hf) hq

/-! ## `create_user_task` -/

def userCodeBase : Nat := 0x400000

def userStackTop : Nat := 0x00007FFFFFFFF000

def userStackSize : Nat := 16 * 4096

def vmmFlagsUserRw : Entry := ptePresent ||| pteWrite ||| pteUser

/-- What `kmalloc` and `kfree` do for `create_user_task`: their calls of `sys_sbrk`, and whether there is memory for the
context and for the task. -/
structure KmallocUse where
  ctxSbrks : List Int
  ctxOk : Bool
  taskSbrks : List Int
  taskOk : Bool
  freeSbrks : List Int

def Traced.sbrks : List Int → Traced → Except Kpanic Traced
  | [], T => .ok T
  | increment :: rest, T =>
    match T.sbrk increment with
    | .error e => .error e
    | .ok T => sbrks rest T

/-- `create_user_task` as the memory system sees it; a task is named by its context, and `none` is NULL. -/
def createUserTask (T : Traced) (image : Option (List (BitVec 8))) (imageSize entryOffset : Nat) (k : KmallocUse) :
    Except Kpanic (Option Nat × Traced) :=
  let fail (T : Traced) : Except Kpanic (Option Nat × Traced) :=
    match T.sbrks k.freeSbrks with
    | .error e => .error e
    | .ok T => .ok (none, T)
  if image = none ∨ imageSize = 0 ∨ entryOffset ≥ imageSize then .ok (none, T)
  else
    match T.sbrks k.ctxSbrks with
    | .error e => .error e
    | .ok T =>
      match vmmCreateContext T.sys k.ctxOk with
      | (none, sys) => fail { T with sys }
      | (some ctx, sys) =>
        match vmmUserAlloc sys ctx userCodeBase imageSize vmmFlagsUserRw image imageSize with
        | .error e => .error e
        | .ok (r, sys) =>
          if r ≠ 0 then fail { T with sys := vmmDestroyContext sys ctx }
          else
            match vmmUserAlloc sys ctx (userStackTop - userStackSize) userStackSize (vmmFlagsUserRw ||| vmmNxFlag sys)
              none 0 with
            | .error e => .error e
            | .ok (r, sys) =>
              if r ≠ 0 then fail { T with sys := vmmDestroyContext sys ctx }
              else
                match Traced.sbrks k.taskSbrks { T with sys } with
                | .error e => .error e
                | .ok T => if k.taskOk then .ok (some ctx, T) else fail { T with sys := vmmDestroyContext T.sys ctx }

section CreateUserTask

variable {T T' : Traced} {own : Label} {c : Nat}

/-- The condition on a call follows from the state of the heap. -/
theorem fits_of_small {increment : Int} (hh : ∃ heap, HeapOk T.sys heap) (h : SmallIncrement increment) :
    ∀ heap, T.sys.heap = some heap → FitsBreak heap increment := by
  intro heap hloaded
  obtain ⟨heap', hh⟩ := hh
  obtain rfl := Option.some.inj (hloaded.symm.trans hh.loaded)
  exact hh.fits h

theorem sbrks_invariant {Q : Traced → Prop}
    (hstep : ∀ {T i T₁}, Q T → SmallIncrement i → T.sbrk i = .ok T₁ → Q T₁) : ∀ (l : List Int) {T : Traced}, Q T →
    (∀ i ∈ l, SmallIncrement i) → T.sbrks l = .ok T' → Q T' := by
  intro l
  induction l with
  | nil =>
    intro T h _ hok
    cases hok
    exact h
  | cons i l ih =>
    intro T h hl hok
    unfold Traced.sbrks at hok
    split at hok
    · cases hok
    · rename_i T₁ heq
      exact ih (hstep h (hl i List.mem_cons_self) heq) (fun j hj => hl j (List.mem_cons_of_mem i hj)) hok

theorem Settled.sbrks (l : List Int) (h : Settled T own) (hl : ∀ i ∈ l, SmallIncrement i) (hok : T.sbrks l = .ok T') :
    ∃ own', Settled T' own' := by
  refine sbrks_invariant (Q := fun T => ∃ own, Settled T own) ?_ l ⟨own, h⟩ hl hok
  rintro T i T₁ ⟨own, h⟩ hi heq
  exact h.sbrk (fits_of_small h.heap hi) heq

theorem Life.sbrks (l : List Int) (h : Life c T own) (hl : ∀ i ∈ l, SmallIncrement i) (hok : T.sbrks l = .ok T') :
    ∃ own', Life c T' own' := by
  refine sbrks_invariant (Q := fun T => ∃ own, Life c T own) ?_ l ⟨own, h⟩ hl hok
  rintro T i T₁ ⟨own, h⟩ hi heq
  obtain ⟨own₁, h₁, -⟩ := h.sbrk (fits_of_small h.heap hi) heq
  exact ⟨own₁, h₁⟩

theorem userRwFlags (s : MemState) : (vmmFlagsUserRw ||| vmmNxFlag s) &&& pteFrameMask = 0 := by
  unfold vmmNxFlag
  cases s.nxEnabled <;> decide

/-- When `create_user_task` fails, no frame of the context it has made is left. -/
theorem createUserTask_settled {image : Option (List (BitVec 8))} {imageSize entryOffset : Nat} {k : KmallocUse}
    (h : Settled T own)
    (hfit : userCodeBase + imageSize ≤ userStackTop - userStackSize ∨ userSpaceEnd < userCodeBase + imageSize)
    (hk : ∀ i ∈ k.ctxSbrks ++ k.taskSbrks ++ k.freeSbrks, SmallIncrement i)
    (hok : createUserTask T image imageSize entryOffset k = .ok (none, T')) : ∃ own', Settled T' own' := by
  have hfail : ∀ {T own}, Settled T own → (match T.sbrks k.freeSbrks with
      | .error e => (.error e : Except Kpanic (Option Nat × Traced))
      | .ok T => .ok (none, T)) = .ok (none, T') → ∃ own', Settled T' own' := by
    intro T own h hok
    split at hok
    · cases hok
    · rename_i T₁ heq
      cases hok
      exact h.sbrks k.freeSbrks (fun i hi => hk i (List.mem_append_right _ hi)) heq
  unfold createUserTask at hok
  simp only at hok
  split at hok
  · cases hok
    exact ⟨own, h⟩
  rename_i hargs
  split at hok
  · cases hok
  rename_i T₁ hctx
  obtain ⟨own₁, h₁⟩ := h.sbrks k.ctxSbrks (fun i hi => hk i (List.mem_append_left _ (List.mem_append_left _ hi))) hctx
  split at hok
  · rename_i sys hcreate
    rcases create_spec h₁.owned.trees h₁.owned.shared hcreate with ⟨-, rfl⟩ | ⟨n, hres, -⟩
    · exact hfail h₁ hok
    · cases hres
  rename_i ctx sys hcreate
  rcases create_spec h₁.owned.trees h₁.owned.shared hcreate with ⟨hres, -⟩ | ⟨n, hres, hn⟩
  · cases hres
  cases hres
  obtain ⟨h₂, hin₂, -⟩ := h₁.created hn
  split at hok
  · cases hok
  rename_i r sys₃ hcode
  obtain ⟨own₃, h₃, hin₃, -⟩ := h₂.userAlloc hin₂ (by decide) (fun a ha => absurd ha List.not_mem_nil) hcode
  split at hok
  · exact hfail h₃.destroy hok
  rename_i hr
  have hfit : userCodeBase + imageSize ≤ userStackTop - userStackSize := by
    refine hfit.resolve_right fun hhigh => ?_
    rw [userAlloc_refused (.inr ⟨fun hz => hargs (.inr (.inl hz)), .inr hhigh⟩)] at hcode
    cases hcode
    exact hr (by decide)
  split at hok
  · cases hok
  rename_i r sys₄ hstack
  have hapart : ∀ a ∈ [(userCodeBase, imageSize)], PagesApart (userStackTop - userStackSize, userStackSize) a := by
    intro a ha x y hx _ _ hy
    rw [List.mem_singleton.1 ha] at hy
    have hal : (userStackTop - userStackSize) % 4096 = 0 := by decide
    simp only at hx hy
    omega
  obtain ⟨own₄, h₄, -, -⟩ := h₃.userAlloc hin₃ (userRwFlags _) hapart hstack
  split at hok
  · exact hfail h₄.destroy hok
  split at hok
  · cases hok
  rename_i T₅ htask
  obtain ⟨own₅, h₅⟩ := h₄.sbrks k.taskSbrks (fun i hi => hk i (List.mem_append_left _ (List.mem_append_right _ hi))) htask
  split at hok
  · cases hok
  · exact hfail h₅.destroy hok

end CreateUserTask

/-! ## What is freed -/

/-- The PML4, a table or a page of the user half of `c`. -/
def Place.InUserHalf (c : Nat) : Place → Prop
  | .pml4 ctx => ctx = c
  | .userTable ctx _ => ctx = c
  | .userPage ctx _ => ctx = c
  | .kernelTable _ => False
  | .heapPage _ => False

section Freed

variable {s : MemState} {own : Label} {c f : Nat} {q : List Nat}

theorem pagePath_pageOf {i j k l : Nat} (hi : i < 256) (hj : j < 512) (hk : k < 512) (hl : l < 512) :
    pagePath (pageOf [i, j, k, l] * 4096) = [i, j, k, l] ∧ pageOf [i, j, k, l] * 4096 < userSpaceEnd := by
  have hn : pageOf [i, j, k, l] = ((i * 512 + j) * 512 + k) * 512 + l := by
    rw [pageOf, if_pos hi, Nat.zero_add]
  rw [hn]
  constructor
  · show [pml4Idx _, pdptIdx _, pdIdx _, ptIdx _] = _
    unfold pml4Idx pdptIdx pdIdx ptIdx
    simp only [List.cons.injEq, and_true]
    omega
  · unfold userSpaceEnd
    omega

theorem four_slots : ∀ {q : List Nat}, q.length = 4 → ∃ i j k l, q = [i, j, k, l]
  | [i, j, k, l], _ => ⟨i, j, k, l, rfl⟩

/-- A label in the tree of `c` stands for a place of its user half, and the frame is used for it. -/
theorem owner_of_label (ho : Owned s own) (hc : c ≠ s.kernelCtx) (hf : own f = some (c, q)) :
    Owner ⟨s, [c]⟩ (placeOf c q) f ∧ (placeOf c q).InUserHalf c := by
  have hroot := ho.trees.root hf
  obtain ⟨hlt, hlow⟩ := ho.trees.inTree hf
  have hlow := hlow.resolve_left hc
  have hlen := ho.pages.short hf
  unfold placeOf
  by_cases hq : q = []
  · subst hq
    rw [if_pos rfl]
    exact ⟨⟨List.mem_singleton_self c, ho.trees.labelled.root hf⟩, rfl⟩
  rw [if_neg hq, if_pos (headD_lt hq hlow), if_pos (headD_lt hq hlow)]
  by_cases h3 : q.length ≤ 3
  · rw [if_pos h3]
    refine ⟨⟨List.mem_singleton_self c, hq, ⟨h3, hlt, hlow⟩, ?_⟩, rfl⟩
    exact (ho.trees.walk_iff hroot ⟨h3, hlt, .inr hlow⟩).2 hf
  · rw [if_neg h3]
    obtain ⟨i, j, k, l, rfl⟩ := four_slots (by omega : q.length = 4)
    simp only [List.mem_cons, List.not_mem_nil, or_false, forall_eq_or_imp, forall_eq] at hlt
    obtain ⟨hpath, hend⟩ := pagePath_pageOf (hlow i rfl) hlt.2.1 hlt.2.2.1 hlt.2.2.2
    obtain ⟨t, ht, hp, hframe⟩ := ho.above (q := [i, j, k]) hf
    obtain ⟨htp, hpi⟩ := List.append_inj' (hpath.trans (show [i, j, k, l] = [i, j, k] ++ [l] from rfl)) rfl
    have hin := inside_tablePath s c (pageOf [i, j, k, l] * 4096)
    rw [treeRoot_low hend] at hin
    rw [← htp] at ht
    refine ⟨⟨List.mem_singleton_self c, hend, entry s.mem t l, ?_, hp, hframe⟩, rfl⟩
    show (walk (child s.mem) c _).map _ = _
    rw [(ho.trees.walk_iff hroot hin).2 ht, Option.map_some, (List.cons.inj hpi).1]

theorem mem_contextFrames_owner (ho : Owned s own) (hc : own c = some (c, [])) (hne : c ≠ s.kernelCtx) :
    f ∈ contextFrames s.mem c ↔ ∃ pl, pl.InUserHalf c ∧ Owner ⟨s, [c]⟩ pl f := by
  rw [mem_contextFrames ho hc hne]
  constructor
  · rintro ⟨q, hf⟩
    obtain ⟨h1, h2⟩ := owner_of_label ho hne hf
    exact ⟨_, h2, h1⟩
  · rintro ⟨pl, hpl, howner⟩
    have hl := label_of_owner (s := ⟨s, [c]⟩) ho (fun d hd => by rw [List.mem_singleton.1 hd]; exact hc) howner
    cases pl with
    | pml4 ctx => exact ⟨_, hpl ▸ hl⟩
    | userTable ctx path => exact ⟨_, hpl ▸ hl⟩
    | userPage ctx page => exact ⟨_, hpl ▸ hl⟩
    | kernelTable path => exact hpl.elim
    | heapPage page => exact hpl.elim

theorem user_half_only (ho : Owned s own) (hc : own c = some (c, [])) (hne : c ≠ s.kernelCtx)
    (hf : f ∈ contextFrames s.mem c) {pl : Place} (howner : Owner ⟨s, [c]⟩ pl f) : pl.InUserHalf c := by
  obtain ⟨q, hf⟩ := (mem_contextFrames ho hc hne).1 hf
  have hl := label_of_owner (s := ⟨s, [c]⟩) ho (fun d hd => by rw [List.mem_singleton.1 hd]; exact hc) howner
  have hpl := placeOf_label (k := s.kernelCtx) howner
  have heq := Option.some.inj (hl.symm.trans hf)
  rw [show pl.label s.kernelCtx = (c, q) from heq] at hpl
  rw [← hpl]
  exact (owner_of_label ho hne hf).2

end Freed

/-! ## From the start of the system -/

section Main

variable {mem : Mem} {pmm : Pmm} {cr3 : Entry} {nx : Bool} {s₀ : MemState} {s : VmState}

/-- In every state of a run the manager is settled: the ghosts can start there. -/
theorem settled_of_reach (hl : LimineTables mem pmm cr3) (hw : WindowFree mem cr3) (hfree : pmm.freeFrames < 2 ^ 64)
    (hok : initVmm mem pmm cr3 nx = .ok s₀) (h : Reach vmStep SpaceCall ⟨initKheap s₀, [s₀.kernelCtx]⟩ s) :
    ∃ own, Settled (.start s.sys) own := by
  obtain ⟨own₀, h₀⟩ := vmOwned_boot hl hw hok
  obtain ⟨own, hs, hacc⟩ := vmOwned_of_reach h₀ h
  refine ⟨own, hs.owned, hs.heap, fun _ => rfl, rfl, hacc.balanced.bound ?_⟩
  exact (initVmm_count hl.manager hok).1.bound hfree

/-- Destroying a context leaves the bitmap and the counter as they were before it was created, apart from what the kernel
heap has changed since; the frames that are freed, each once, are those of the context's user half. And
`create_user_task` leaves the bitmap and the counter as they were whenever it fails. -/
theorem teardown_restores (hl : LimineTables mem pmm cr3) (hw : WindowFree mem cr3) (hfree : pmm.freeFrames < 2 ^ 64)
    (hok : initVmm mem pmm cr3 nx = .ok s₀) (h : Reach vmStep SpaceCall ⟨initKheap s₀, [s₀.kernelCtx]⟩ s) :
    (∀ kmallocOk c s₁ L, vmmCreateContext s.sys kmallocOk = (some c, s₁) →
      Reach (lifeStep c) LifeOk ⟨{ Traced.start s.sys with sys := s₁ }, []⟩ L →
        (∀ n, (vmmDestroyContext L.traced.sys c).pmm.marked n = L.traced.base n) ∧
        (vmmDestroyContext L.traced.sys c).pmm.freeFrames = L.traced.baseFree ∧
        ∃ frames : List Nat, frames.Nodup ∧ (vmmDestroyContext L.traced.sys c).pmm = frames.foldl pmmFree L.traced.sys.pmm ∧
          (∀ f, f ∈ frames ↔ ∃ pl, pl.InUserHalf c ∧ Owner ⟨L.traced.sys, [c]⟩ pl f) ∧
          ∀ f ∈ frames, ∀ pl, Owner ⟨L.traced.sys, [c]⟩ pl f → pl.InUserHalf c) ∧
    (∀ image imageSize entryOffset k T',
      userCodeBase + imageSize ≤ userStackTop - userStackSize ∨ userSpaceEnd < userCodeBase + imageSize →
      (∀ i ∈ k.ctxSbrks ++ k.taskSbrks ++ k.freeSbrks, SmallIncrement i) →
      createUserTask (.start s.sys) image imageSize entryOffset k = .ok (none, T') →
        (∀ n, T'.sys.pmm.marked n = T'.base n) ∧ T'.sys.pmm.freeFrames = T'.baseFree) := by
  obtain ⟨own, hset⟩ := settled_of_reach hl hw hfree hok h
  constructor
  · intro ok c s₁ L hcreate hrun
    rcases create_spec hset.owned.trees hset.owned.shared hcreate with ⟨hres, -⟩ | ⟨n, hres, hn⟩
    · cases hres
    cases hres
    obtain ⟨hlife, hin, -⟩ := hset.created hn
    obtain ⟨own', hL, -⟩ := life_of_reach hlife hin hrun
    have hd := hL.destroy
    refine ⟨hd.marks, hd.count, contextFrames L.traced.sys.mem c, nodup_contextFrames hL.owned hL.ctx,
      destroy_pmm _ hL.user, fun f => mem_contextFrames_owner hL.owned hL.ctx hL.user, ?_⟩
    exact fun f hf pl howner => user_half_only hL.owned hL.ctx hL.user hf howner
  · intro image imageSize entryOffset k T' hfit hk hnull
    obtain ⟨own', hT'⟩ := createUserTask_settled hset hfit hk hnull
    exact ⟨hT'.marks, hT'.count⟩

/-- In the machine of `boot_ok`: a context that is filled and destroyed, and a `create_user_task` that has loaded the image
and the stack when there is no memory for the task. -/
theorem teardown_of_new_context : ∃ s₀ c s₁ t T, initVmm bootMem bootPmm 0x1000 true = .ok s₀ ∧
    vmmCreateContext (initKheap s₀) true = (some c, s₁) ∧
    vmmUserAlloc s₁ c userCodeBase 3 vmmFlagsUserRw (some [7, 8, 9]) 3 = .ok (0, t) ∧
    (∀ n, (vmmDestroyContext t c).pmm.marked n = s₀.pmm.marked n) ∧
    (vmmDestroyContext t c).pmm.freeFrames = s₀.pmm.freeFrames ∧
    createUserTask (.start (initKheap s₀)) (some [7, 8, 9]) 3 0 ⟨[], true, [], false, []⟩ = .ok (none, T) ∧
    (∀ n, T.sys.pmm.marked n = s₀.pmm.marked n) ∧ T.sys.pmm.freeFrames = s₀.pmm.freeFrames := by
  obtain ⟨s₀, own₀, hinit, h₀, hn₀, hfree⟩ := boot_state
  obtain ⟨c, s₁, own₁, hcreate, h₁, -, hcount⟩ := new_context h₀ hn₀ (Nat.le_trans (by decide) hfree)
  simp only at hcreate hcount
  have hc := (h₁.roots c).2 List.mem_cons_self
  obtain ⟨t, own₂, hcode, heff, -, hle⟩ := userAlloc_ok (show vmmFlagsUserRw &&& pteFrameMask = 0 by decide) (some [7, 8, 9])
    h₁.owned hc (show userCodeBase % 4096 = 0 by decide) (show userCodeBase + 3 ≤ userSpaceEnd by decide) (by decide)
    (Nat.le_refl 3) (by simp only; omega)
  simp only at hcode hle
  have hroom : 4 * ((userStackSize + 4096 - 1) / 4096) ≤ t.pmm.clearCount := by
    unfold userStackSize
    omega
  obtain ⟨u, -, hstack, -⟩ := userAlloc_ok (userRwFlags t) none heff.owned (heff.tables (by simp) hc)
    (show (userStackTop - userStackSize) % 4096 = 0 by decide)
    (show userStackTop - userStackSize + userStackSize ≤ userSpaceEnd by decide) (by decide) (Nat.zero_le _) hroom
  have hrun : Reach (lifeStep c) LifeOk ⟨{ Traced.start (initKheap s₀) with sys := s₁ }, []⟩
      ⟨{ Traced.start (initKheap s₀) with sys := t }, [(userCodeBase, 3)]⟩ :=
    .tail (a := .userAlloc userCodeBase 3 vmmFlagsUserRw (some [7, 8, 9]) 3) .refl
      ⟨by decide, fun a ha => absurd ha List.not_mem_nil⟩ (by simp only [lifeStep, hcode])
  have htask : createUserTask (.start (initKheap s₀)) (some [7, 8, 9]) 3 0 ⟨[], true, [], false, []⟩ =
      .ok (none, { Traced.start (initKheap s₀) with sys := vmmDestroyContext u c }) := by
    unfold createUserTask
    rw [if_neg (by simp)]
    simp only [Traced.sbrks, Traced.start, hcreate, hcode, hstack, ne_eq, not_true, if_false, Bool.false_eq_true]
  obtain ⟨hlife, hfail⟩ := teardown_restores limineTables_boot windowFree_boot (by decide) hinit .refl
  obtain ⟨hmarks, hfrees, -⟩ := hlife true c s₁ _ hcreate hrun
  obtain ⟨hmarks', hfrees'⟩ := hfail _ _ _ _ _ (.inl (by decide)) (fun i hi => absurd hi List.not_mem_nil) htask
  exact ⟨s₀, c, s₁, t, _, hinit, hcreate, hcode, hmarks, hfrees, htask, hmarks', hfrees'⟩

end Main

end ToastOS.Mmu
