import ToastOS.Mmu.Pages

/-!
# What the calls that take and free pages do

`Effect r` is a change of the memory system inside the tree of `r`: the labels of the other trees stay, no context comes or
goes, and every frame that is freed was in use. `vmm_user_alloc` and `sys_sbrk` are made of four such changes:

* `Took` : a frame is taken for a page; `Effect.give` : one is given back;
* `Effect.grow` : tables are added; `Effect.write` : a leaf entry is written or cleared.
-/

namespace ToastOS.Mmu

open ToastOS.Lib

variable {init : Option (List (BitVec 8))} {initLen : Nat}

structure Effect (r : Nat) (s : MemState) (own : Label) (s' : MemState) (own' : Label) : Prop where
  owned : Owned s' own'
  others : ∀ {f c q}, c ≠ r → (own' f = some (c, q) ↔ own f = some (c, q))
  tables : ∀ {f c q}, q.length ≤ 3 → own f = some (c, q) → own' f = some (c, q)
  roots : ∀ {c}, own' c = some (c, []) → own c = some (c, [])
  kernelCtx : s'.kernelCtx = s.kernelCtx
  heap : s'.heap = s.heap
  bytes : s'.pmm.bitmapBytes = s.pmm.bitmapBytes
  frees : ∀ g ∈ s'.pmm.frees, g ∈ s.pmm.frees ∨ g.2 = true
  balanced : Balanced s.pmm s'.pmm

section Effect

variable {s s₁ s₂ s' : MemState} {own own₁ own₂ own' : Label} {r c v n phys : Nat} {p q : List Nat} {flags e : Entry}
  {o : Option Nat}

theorem Effect.refl (h : Owned s own) (r : Nat) : Effect r s own s own :=
  ⟨h, fun _ => Iff.rfl, fun _ hf => hf, fun hc => hc, rfl, rfl, rfl, fun _ hg => .inl hg, .refl _⟩

theorem Effect.trans (h : Effect r s own s₁ own₁) (h' : Effect r s₁ own₁ s₂ own₂) : Effect r s own s₂ own₂ where
  owned := h'.owned
  others hc := (h'.others hc).trans (h.others hc)
  tables hq hf := h'.tables hq (h.tables hq hf)
  roots hc := h.roots (h'.roots hc)
  kernelCtx := h'.kernelCtx.trans h.kernelCtx
  heap := h'.heap.trans h.heap
  bytes := h'.bytes.trans h.bytes
  frees g hg := (h'.frees g hg).elim (h.frees g) .inr
  balanced := h.balanced.trans h'.balanced

theorem Effect.grow (h : Owned s own) (g : Grow s own s' own' r p flags) (hp : p <+: tablePath v)
    (hu : has flags pteUser = true → v < userSpaceEnd) : Effect r s own s' own' where
  owned := h.grow g hp hu
  others hc := ⟨fun hf => (g.added hf).resolve_right fun hx => hc hx.2.2.1, g.kept⟩
  tables _ hf := g.kept hf
  roots hc := (g.added hc).resolve_right fun hx => hx.2.2.2.1 rfl
  kernelCtx := g.rest.kernelCtx
  heap := g.rest.heap
  bytes := g.rest.bytes
  frees x hx := by
    rw [g.rest.frees] at hx
    exact .inl hx
  balanced := g.rest.balanced

theorem Effect.write {pt i : Nat} (h : Owned s own) (hpt : own pt = some (r, q)) (hq : q.length = 3) (hi : i < 512)
    (htr : Tracked (q ++ [i])) (hn : NewPage s own e o) (log : List MapEvent) :
    Effect r s own { s with mem := setEntry s.mem pt i e, log } (relabel own (r, q ++ [i]) o) := by
  have hlen : 3 < (q ++ [i]).length := by rw [List.length_append, List.length_singleton]; omega
  have hnone : ∀ n, o = some n → own n = none := fun n hn' => (hn.fresh n hn').1
  refine ⟨h.write hpt hq hi htr hn log, ?_, ?_, ?_, rfl, rfl, rfl, fun _ hg => .inl hg, .refl _⟩
  · intro f c p hc
    have hne : (c, p) ≠ (r, q ++ [i]) := fun he => hc (Prod.mk.inj he).1
    exact ⟨fun hf => ((of_relabel hf).resolve_left fun hx => hne hx.2).1, relabel_other hne hnone⟩
  · exact fun hp hf => (relabel_table hlen hnone hp).2 hf
  · exact fun hc => (relabel_table hlen hnone (by simp)).1 hc

/-- A frame was taken for a page, and no table has changed. -/
structure Took (s : MemState) (own : Label) (phys : Nat) (s' : MemState) : Prop where
  frame : IsFrame phys
  pos : phys ≠ 0
  inRange : phys / 4096 < 8 * s.pmm.bitmapBytes
  unmarked : s.pmm.marked (phys / 4096) = false
  same : SameTables s own s'
  pmm : s'.pmm = allocFrame s.pmm phys
  kernelCtx : s'.kernelCtx = s.kernelCtx
  heap : s'.heap = s.heap
  count : s.pmm.clearCount = s'.pmm.clearCount + 1

theorem Took.marks (h : Took s own phys s') (f : Nat) :
    s'.pmm.marked f = true ↔ s.pmm.marked f = true ∨ f = phys / 4096 := by
  rw [h.pmm, marked_allocFrame, Bool.or_eq_true, decide_eq_true_iff]

theorem Took.effect (h : Took s own phys s') (ho : Owned s own) (r : Nat) : Effect r s own s' own := by
  have hbytes : s'.pmm.bitmapBytes = s.pmm.bitmapBytes := by rw [h.pmm]; rfl
  refine ⟨?_, fun _ => Iff.rfl, fun _ hf => hf, fun hc => hc, h.kernelCtx, h.heap, hbytes, ?_, ?_⟩
  · refine ho.keep h.same h.kernelCtx hbytes (by rw [h.pmm]; exact ho.trees.pmm.allocFrame phys) ?_
    intro f pl hf
    exact (h.marks _).2 (.inl (ho.trees.frame hf).2)
  · intro g hg
    rw [h.pmm] at hg
    exact .inl hg
  · have hal : 4096 * (phys / 4096) = phys := Nat.mul_div_cancel' (Nat.dvd_of_mod_eq_zero h.frame.1)
    have hb := balanced_allocFrame h.inRange h.unmarked
    rw [hal] at hb
    rw [h.pmm]
    exact hb

/-- `pmm_alloc` gives a frame that a page can have; filling it changes no table. -/
theorem took_of_alloc (ho : Owned s own) {pm : Pmm} (ha : pmmAlloc s.pmm = (phys, pm)) (hne : phys ≠ 0) {l : List (BitVec 8)}
    (hl : l.length ≤ 4096) :
    Took s own phys { s with pmm := pm } ∧
    Took s own phys { s with mem := copyIn (zeroFrame s.mem phys) phys l, pmm := pm } := by
  have hrange := pmmAlloc_inRange ho.trees.pmm ha hne
  rcases pmmAlloc_frame ho.trees.pmm with ⟨he, -⟩ | ⟨a, hframe, hpos, hm, he, hcount⟩
  · rw [he] at ha
    cases ha
    exact absurd rfl hne
  · rw [he] at ha
    cases ha
    refine ⟨⟨hframe, hpos, hrange, hm, fun _ _ _ _ _ => rfl, rfl, rfl, rfl, hcount⟩,
      ⟨hframe, hpos, hrange, hm, ?_, rfl, rfl, rfl, hcount⟩⟩
    exact sameTables_zeroFrame ho.trees hframe (ho.trees.fresh hm) l hl

theorem Effect.give (h : Owned s own) (hf : IsFrame n) (hpos : n ≠ 0) (hrange : n / 4096 < 8 * s.pmm.bitmapBytes)
    (hm : s.pmm.marked (n / 4096) = true) (hfree : own n = none) (r : Nat) :
    Effect r s own { s with pmm := pmmFree s.pmm n } own := by
  have hal := hf.1
  refine ⟨?_, fun _ => Iff.rfl, fun _ hf => hf, fun hc => hc, rfl, rfl, rfl, ?_, ?_⟩
  · refine h.keep (fun _ _ _ _ _ => rfl) rfl rfl ⟨h.trees.pmm.size, ?_⟩ ?_
    · show (freeFrame s.pmm n).marked 0 = true
      rw [marked_freeFrame, h.trees.pmm.zero, Bool.true_and, decide_eq_true_iff]
      omega
    · intro f pl hfl
      show (freeFrame s.pmm n).marked (f / 4096) = true
      have hne : f ≠ n := by
        rintro rfl
        rw [hfree] at hfl; cases hfl
      have hal' := h.trees.aligned hfl
      rw [marked_freeFrame, (h.trees.frame hfl).2, Bool.true_and, decide_eq_true_iff]
      omega
  · intro g hg
    rcases List.mem_cons.1 hg with rfl | hg
    · exact .inr hm
    · exact .inl hg
  · show Balanced s.pmm (freeFrame s.pmm n)
    rw [freeFrame_frame]
    exact balanced_freeFrame hrange hm

/-! ## Mapping the page -/

theorem present_leafEntry : has (leafEntry phys flags) ptePresent = true := leafOf_leafEntry.1

/-- A frame that was taken is not among the tables that were added since. -/
theorem Grow.not_table (g : Grow s own s' own' r p flags) (hfree : own n = none) (hm : s.pmm.marked (n / 4096) = true) :
    own' n = none := by
  cases hn : own' n with
  | none => rfl
  | some pl =>
    rcases g.added hn with hold | ⟨-, hclear, -⟩
    · rw [hfree] at hold; cases hold
    · rw [hm] at hclear; cases hclear

theorem Took.not_table (h : Took s own phys s₁) (ho : Owned s own) (g : Grow s₁ own s₂ own₂ r p flags) : own₂ phys = none :=
  g.not_table (ho.trees.fresh h.unmarked) ((h.marks _).2 (.inr rfl))

theorem Took.unlabelled (h : Took s own phys s₁) (ho : Owned s own) (g : Grow s₁ own s₂ own₂ r p flags) :
    ∀ n, some phys = some n → own₂ n = none := by
  rintro n ⟨⟩
  exact h.not_table ho g

theorem Took.mapped {pt : Nat} (h : Took s own phys s₁) (ho : Owned s own) (g : Grow s₁ own s₂ own₂ r (tablePath v) flags)
    (hpt : own₂ pt = some (r, tablePath v)) (hu : has flags pteUser = true → v < userSpaceEnd)
    (hf : flags &&& pteFrameMask = 0) (htr : Tracked (pagePath v)) (log : List MapEvent) :
    Effect r s own { s₂ with mem := setEntry s₂.mem pt (ptIdx v) (leafEntry phys flags), log }
      (relabel own₂ (r, pagePath v) (some phys)) := by
  have hgrow := Effect.grow (h.effect ho r).owned g List.prefix_rfl hu
  refine (h.effect ho r).trans (hgrow.trans (Effect.write hgrow.owned hpt rfl (ptIdx_lt v) htr ?_ log))
  refine ⟨?_, ?_, present_leafEntry, ?_⟩
  · rintro n ⟨⟩
    exact ⟨h.not_table ho g, h.frame, (g.marks _).2 (.inl ((h.marks _).2 (.inr rfl)))⟩
  · rintro n ⟨⟩
    refine ⟨h.pos, ?_⟩
    rw [g.rest.bytes, h.pmm]
    exact h.inRange
  · rintro n ⟨⟩
    exact frameOf_leafEntry h.frame hf

theorem Took.returned (h : Took s own phys s₁) (ho : Owned s own) (g : Grow s₁ own s₂ own₂ r p flags) (hp : p <+: tablePath v)
    (hu : has flags pteUser = true → v < userSpaceEnd) : Effect r s own { s₂ with pmm := pmmFree s₂.pmm phys } own₂ := by
  have hgrow := Effect.grow (h.effect ho r).owned g hp hu
  refine (h.effect ho r).trans (hgrow.trans (Effect.give hgrow.owned h.frame h.pos ?_ ?_ (h.not_table ho g) r))
  · rw [g.rest.bytes, h.pmm]
    exact h.inRange
  · exact (g.marks _).2 (.inl ((h.marks _).2 (.inr rfl)))

end Effect

/-! ## Rounds of the loops -/

/-- One round: a page is taken and mapped, or there is no table for it; then `vmm_user_alloc` gives it back and `sys_sbrk`
does not. -/
inductive Round (giveBack : Bool) (r : Nat) (flags : Entry) (v : Nat) (s : MemState) (own : Label) : MemState → Label → Prop
  | mapped {phys s₁ s₂ own₂ pt} (took : Took s own phys s₁) (grow : Grow s₁ own s₂ own₂ r (tablePath v) flags)
      (table : own₂ pt = some (r, tablePath v)) (log : List MapEvent) :
      Round giveBack r flags v s own { s₂ with mem := setEntry s₂.mem pt (ptIdx v) (leafEntry phys flags), log }
        (relabel own₂ (r, pagePath v) (some phys))
  | failed {phys s₁ s₂ own₂ p} (took : Took s own phys s₁) (grow : Grow s₁ own s₂ own₂ r p flags) (path : p <+: tablePath v)
      (short : s₁.pmm.clearCount < missing s₁.mem r (tablePath v)) :
      Round giveBack r flags v s own (if giveBack then { s₂ with pmm := pmmFree s₂.pmm phys } else s₂) own₂

/-- A page is unmapped and freed, or there was none. -/
inductive Cleared (r v : Nat) (s : MemState) (own : Label) : MemState → Label → Prop
  | absent (none : ∀ f, own f ≠ some (r, pagePath v)) : Cleared r v s own s own
  | freed {phys pt} (page : own phys = some (r, pagePath v)) (table : own pt = some (r, tablePath v)) (log : List MapEvent) :
      Cleared r v s own { s with mem := setEntry s.mem pt (ptIdx v) 0, pmm := pmmFree s.pmm phys, log }
        (relabel own (r, pagePath v) none)

inductive Rounds (R : Nat → MemState → Label → MemState → Label → Prop) : List Nat → MemState → Label → MemState →
    Label → Prop
  | nil {s own} : Rounds R [] s own s own
  | cons {v vs s own s₁ own₁ s₂ own₂} (first : R v s own s₁ own₁) (rest : Rounds R vs s₁ own₁ s₂ own₂) :
      Rounds R (v :: vs) s own s₂ own₂

section Rounds

variable {s s₁ s₂ s' : MemState} {own own₁ own₂ own' : Label} {r c v phys : Nat} {flags : Entry} {b : Bool}
  {R : Nat → MemState → Label → MemState → Label → Prop} {vs : List Nat}

theorem Round.effect (ho : Owned s own) (hu : has flags pteUser = true → v < userSpaceEnd) (hf : flags &&& pteFrameMask = 0)
    (htr : Tracked (pagePath v)) (h : Round b r flags v s own s' own') : Effect r s own s' own' := by
  cases h with
  | mapped took grow table log => exact took.mapped ho grow table hu hf htr log
  | failed took grow path =>
    cases b with
    | true => exact took.returned ho grow path hu
    | false => exact (took.effect ho r).trans (Effect.grow (took.effect ho r).owned grow path hu)

theorem relabel_none (h : own phys = some (r, pagePath v)) : relabel own (r, pagePath v) none phys = none := by
  rw [relabel, if_neg (by simp), if_pos h]

theorem Cleared.effect (ho : Owned s own) (htr : Tracked (pagePath v)) (h : Cleared r v s own s' own') :
    Effect r s own s' own' := by
  cases h with
  | absent => exact .refl ho r
  | @freed phys pt page table log =>
    have hnew : NewPage s own 0 none := ⟨by simp, by simp, zero_has _, by simp⟩
    have hw := Effect.write ho table rfl (ptIdx_lt v) htr hnew log
    obtain ⟨hpos, hrange⟩ := ho.pages.taken page (.inr (by rw [pagePath_length]; decide))
    obtain ⟨hframe, hm⟩ := ho.trees.frame page
    exact hw.trans (Effect.give hw.owned hframe hpos hrange hm (relabel_none page) r)

theorem Rounds.effect (ho : Owned s own) (hstep : ∀ {v s own s' own'}, v ∈ vs → Owned s own → R v s own s' own' →
    Effect r s own s' own') (h : Rounds R vs s own s' own') : Effect r s own s' own' := by
  induction h with
  | nil => exact .refl ho r
  | cons first rest ih =>
    have h₁ := hstep List.mem_cons_self ho first
    exact h₁.trans (ih h₁.owned fun hv => hstep (List.mem_cons_of_mem _ hv))

theorem round_of_map {n : Int} (ho : Owned s own) (took : Took s own phys s₁) (hc : own c = some (c, []))
    (hu : has flags pteUser = true → v < userSpaceEnd) (hok : vmmMapPage s₁ c v phys flags = .ok (n, s₂)) :
    (n = 0 ∧ ∃ own', Round b (treeRoot s c v) flags v s own s₂ own') ∨
      (n ≠ 0 ∧ ∃ own', Round b (treeRoot s c v) flags v s own
        (if b then { s₂ with pmm := pmmFree s₂.pmm phys } else s₂) own') := by
  have h₁ := (took.effect ho c).owned
  have hroot : treeRoot s₁ c v = treeRoot s c v := treeRoot_congr took.kernelCtx c v
  cases map_spec h₁.trees h₁.shared hc hok with
  | refused user high => exact absurd (hu user) (Nat.not_lt.2 high)
  | failed grow path _ short =>
    rw [hroot] at grow short
    exact .inr ⟨by decide, _, .failed took grow path short⟩
  | mapped grow table =>
    rw [hroot] at grow table
    exact .inl ⟨rfl, _, .mapped took grow table _⟩

/-- The pages `v + i * 4096` and the `m - 1` after it. -/
def pagesFrom (v i m : Nat) : List Nat := (List.range' i m).map fun j => v + j * 4096

theorem pagesFrom_succ (v i m : Nat) : pagesFrom v i (m + 1) = (v + i * 4096) :: pagesFrom v (i + 1) m := by
  rw [pagesFrom, List.range'_succ, List.map_cons, pagesFrom]

theorem mem_pagesFrom {x i m : Nat} : x ∈ pagesFrom v i m ↔ ∃ j, i ≤ j ∧ j < i + m ∧ x = v + j * 4096 := by
  simp only [pagesFrom, List.mem_map, List.mem_range'_1]
  constructor
  · rintro ⟨j, ⟨h1, h2⟩, rfl⟩
    exact ⟨j, h1, h2, rfl⟩
  · rintro ⟨j, h1, h2, rfl⟩
    exact ⟨j, ⟨h1, h2⟩, rfl⟩

theorem frame_or_user (hf : flags &&& pteFrameMask = 0) : (flags ||| pteUser) &&& pteFrameMask = 0 := by
  rw [BitVec.and_or_distrib_right, show flags &&& pteFrameMask = 0#64 from hf, show pteUser &&& pteFrameMask = 0#64 by decide]
  rfl

theorem userAllocLoop_rounds {res : Int} (hf : flags &&& pteFrameMask = 0) :
    ∀ (n i : Nat) {s : MemState} {own : Label}, Owned s own → own c = some (c, []) →
      (∀ j < n, v + (i + j) * 4096 < userSpaceEnd) →
      userAllocLoop c v flags init initLen n i s = .ok (res, s') →
      ∃ m own', m ≤ n ∧ Rounds (Round true c (flags ||| pteUser)) (pagesFrom v i m) s own s' own' := by
  have hfl := frame_or_user hf
  intro n
  induction n with
  | zero =>
    intro i s own ho hc hv hok
    cases hok
    exact ⟨0, own, Nat.le_refl 0, .nil⟩
  | succ n ih =>
    intro i s own ho hc hv hok
    unfold userAllocLoop at hok
    simp only at hok
    split at hok
    · -- out of frames
      rename_i hzero
      cases hok
      rcases pmmAlloc_frame ho.trees.pmm with ⟨ha, -⟩ | ⟨a, -, hpos, -, ha, -⟩
      · rw [ha]
        exact ⟨0, own, Nat.zero_le _, .nil⟩
      · rw [ha] at hzero
        exact absurd hzero hpos
    · rename_i hne
      have took := (took_of_alloc ho rfl hne
        (length_initBytes init initLen i)).2
      have hlow : v + i * 4096 < userSpaceEnd := hv 0 (by omega)
      split at hok
      · cases hok
      · rename_i res₁ s₂ heq
        rcases round_of_map (b := true) ho took hc (fun _ => hlow) heq with ⟨rfl, own₂, hround⟩ | ⟨hres, own₂, hround⟩
        · rw [treeRoot_low hlow] at hround
          simp only [ne_eq, not_true_eq_false, if_false] at hok
          have heff := hround.effect ho (fun _ => hlow) hfl (tracked_low hlow)
          obtain ⟨m, own₃, hm, hrest⟩ := ih (i + 1) heff.owned (heff.tables (by simp) hc) (by
            intro j hj
            have := hv (j + 1) (by omega)
            rwa [show i + (j + 1) = i + 1 + j by omega] at this) hok
          exact ⟨m + 1, own₃, by omega, by rw [pagesFrom_succ]; exact .cons hround hrest⟩
        · rw [treeRoot_low hlow] at hround
          rw [if_pos hres] at hok
          cases hok
          exact ⟨1, own₂, by omega, by rw [pagesFrom_succ]; exact .cons hround .nil⟩

theorem userAlloc_refused {len : Nat}
    (h : v % 4096 ≠ 0 ∨ len ≠ 0 ∧ (len < initLen ∨ userSpaceEnd < v + len)) :
    vmmUserAlloc s c v len flags init initLen = .ok (-1, s) := by
  unfold vmmUserAlloc
  split_ifs <;> first | rfl | omega

/-- `vmm_user_alloc` on an existing context: rounds for pages of the range, all in the user half. -/
theorem userAlloc_rounds {len : Nat} {res : Int} (hf : flags &&& pteFrameMask = 0)
    (ho : Owned s own) (hc : own c = some (c, [])) (hok : vmmUserAlloc s c v len flags init initLen = .ok (res, s')) :
    ∃ m own', Rounds (Round true c (flags ||| pteUser)) (pagesFrom v 0 m) s own s' own' ∧
      ∀ x ∈ pagesFrom v 0 m, x < userSpaceEnd ∧ x % 4096 = 0 ∧ v ≤ x ∧ x < v + len := by
  have hnone : ∃ m own', Rounds (Round true c (flags ||| pteUser)) (pagesFrom v 0 m) s own s own' ∧
      ∀ x ∈ pagesFrom v 0 m, x < userSpaceEnd ∧ x % 4096 = 0 ∧ v ≤ x ∧ x < v + len := ⟨0, own, .nil, by simp [pagesFrom]⟩
  unfold vmmUserAlloc at hok
  split at hok
  · cases hok; exact hnone
  split at hok
  · cases hok; exact hnone
  split at hok
  · cases hok; exact hnone
  rename_i halign hlen hrange
  split at hok
  · cases hok; exact hnone
  rw [not_or] at hrange
  have hpages : ∀ j < (len + 4096 - 1) / 4096, v + j * 4096 < userSpaceEnd ∧ v + j * 4096 < v + len := by
    intro j hj
    omega
  obtain ⟨m, own', hm, hrounds⟩ := userAllocLoop_rounds hf _ 0 ho hc (fun j hj => by
    rw [Nat.zero_add]
    exact (hpages j hj).1) hok
  refine ⟨m, own', hrounds, ?_⟩
  intro x hx
  obtain ⟨j, -, hj, rfl⟩ := mem_pagesFrom.1 hx
  obtain ⟨h1, h2⟩ := hpages j (by omega)
  exact ⟨h1, by omega, by omega, h2⟩

end Rounds

end ToastOS.Mmu
