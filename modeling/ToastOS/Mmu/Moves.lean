import ToastOS.Lib.Run
import ToastOS.Mmu.TreeOps
import Mathlib.Logic.Relation

/-!
# What the calls into `vmm.c` do to the tables

* `VmCall`, `vmStep` : the calls, and the frame allocator under its other users; a panic ends the run;
* `Move` : the three things a call on a context is made of: tables are added along a path, one leaf entry is written, no
  table changes;
* `step_moves` : every permitted call is a sequence of moves or adds a context, so an invariant has to be checked for
  these only.
-/

namespace ToastOS.Mmu

open ToastOS.Lib Function

/-! ## Addresses -/

/-- A canonical address: 47 bits, sign-extended. -/
def Canonical (v : Nat) : Prop := v < 2 ^ 47 ∨ (2 ^ 64 - 2 ^ 47 ≤ v ∧ v < 2 ^ 64)

section Addresses

variable {v w : Nat}

theorem Canonical.low_iff (h : Canonical v) : pml4Idx v < 256 ↔ v < userSpaceEnd := by
  unfold Canonical at h
  unfold pml4Idx
  show v / 2 ^ 39 % 512 < 256 ↔ v < 0x0000800000000000
  omega

theorem Canonical.page_eq (hv : Canonical v) (hw : Canonical w) (ht : tablePath v = tablePath w)
    (hi : ptIdx v = ptIdx w) : v / 4096 = w / 4096 := by
  unfold Canonical at hv hw
  simp only [tablePath, List.cons.injEq, and_true] at ht
  unfold pml4Idx pdptIdx pdIdx at ht
  unfold ptIdx at hi
  omega

theorem low_index (hv : v < userSpaceEnd) : pml4Idx v < 256 := by
  by_contra h
  have := userSpaceEnd_le h
  omega

theorem page_indices (h : v / 4096 = w / 4096) : tablePath v = tablePath w ∧ ptIdx v = ptIdx w := by
  simp only [tablePath, List.cons.injEq, and_true]
  unfold pml4Idx pdptIdx pdIdx ptIdx
  omega

theorem tablePath_length (v : Nat) : (tablePath v).length = 3 := rfl

theorem ptIdx_lt (v : Nat) : ptIdx v < 512 := Nat.mod_lt _ (by decide)

end Addresses

/-! ## Calls -/

inductive VmCall
  | create (kmallocOk : Bool)
  | map (ctx vAddr pAddr : Nat) (flags : Entry)
  | unmap (ctx vAddr : Nat)
  | userAlloc (ctx vAddr len : Nat) (flags : Entry) (init : Option (List (BitVec 8))) (initLen : Nat)
  | destroy (ctx : Nat)
  | sbrk (increment : Int)
  /-- The other users of the frame allocator take frames and give some back. -/
  | others (pmm : Pmm)

/-- The memory system and the contexts that exist, the kernel's included. -/
structure VmState where
  sys : MemState
  ctxs : List Nat

/-- One call; a panic has no next state. -/
def vmStep (s : VmState) : VmCall → Option VmState
  | .create kmallocOk =>
    match vmmCreateContext s.sys kmallocOk with
    | (some ctx, sys) => some ⟨sys, ctx :: s.ctxs⟩
    | (none, sys) => some ⟨sys, s.ctxs⟩
  | .map ctx vAddr pAddr flags =>
    match vmmMapPage s.sys ctx vAddr pAddr flags with
    | .ok (_, sys) => some ⟨sys, s.ctxs⟩
    | .error _ => none
  | .unmap ctx vAddr =>
    match vmmUnmapPage s.sys ctx vAddr with
    | .ok sys => some ⟨sys, s.ctxs⟩
    | .error _ => none
  | .userAlloc ctx vAddr len flags init initLen =>
    match vmmUserAlloc s.sys ctx vAddr len flags init initLen with
    | .ok (_, sys) => some ⟨sys, s.ctxs⟩
    | .error _ => none
  | .destroy ctx => some ⟨vmmDestroyContext s.sys ctx, if ctx = s.sys.kernelCtx then s.ctxs else s.ctxs.erase ctx⟩
  | .sbrk increment =>
    match sysSbrk s.sys increment with
    | .ok (_, sys) => some ⟨sys, s.ctxs⟩
    | .error _ => none
  | .others pmm => some ⟨{ s.sys with pmm }, s.ctxs⟩

/-- The manager `p` knows that the tables of the contexts are in use. -/
def TablesMarked (s : VmState) (p : Pmm) : Prop :=
  ∀ c ∈ s.ctxs, ∀ q t, q.length ≤ 3 → (∀ i ∈ q, i < 512) → walk (child s.sys.mem) c q = some t → p.marked (t / 4096) = true

/-- The calls that work on tables of existing contexts; `P` permits a page to be mapped with some flags, or unmapped. -/
def TableCall (P : Nat → Option Entry → Prop) (s : VmState) : VmCall → Prop
  | .create _ => True
  | .map ctx vAddr _ flags => ctx ∈ s.ctxs ∧ P vAddr (some flags)
  | .unmap ctx vAddr => ctx ∈ s.ctxs ∧ P vAddr none
  | .userAlloc ctx _ _ flags _ _ => ctx ∈ s.ctxs ∧ ∀ v < userSpaceEnd, P v (some (flags ||| pteUser))
  | .destroy _ => False
  | .sbrk _ => False
  | .others p => p.Ok ∧ TablesMarked s p

/-! ## Moves -/

def AllTables (own : Label) : Prop := ∀ f r q, own f = some (r, q) → q.length ≤ 3

/-- The labels fit the tables, and the contexts share their upper half. -/
structure Sys (s : MemState) (own : Label) : Prop where
  trees : Trees s own
  shared : SharedHalf s own
  tables : AllTables own

/-- The leaf entries of `vmm_map_page`, where the path is open to the user if the page is, and of `vmm_unmap_page`. -/
def LeafWrite (s : MemState) (own : Label) (c v : Nat) (e : Entry) : Option Entry → Prop
  | none => e = 0
  | some flags => (∃ pa, e = leafEntry pa flags) ∧ (has flags pteUser = true → v < userSpaceEnd ∧
      ∀ t q i, own t = some (treeRoot s c v, q) → q ++ [i] <+: tablePath v → has (entry s.mem t i) pteUser = true)

inductive Move (P : Nat → Option Entry → Prop) (s : MemState) (own : Label) : MemState → Label → Prop
  | grow {s' own' c v p flags} (ctx : own c = some (c, [])) (allowed : has flags pteUser = true → v < userSpaceEnd)
      (path : p <+: tablePath v) (grown : Grow s own s' own' (treeRoot s c v) p flags) : Move P s own s' own'
  | leaf {c v pt e fl} (ctx : own c = some (c, [])) (permitted : P v fl)
      (table : own pt = some (treeRoot s c v, tablePath v)) (written : LeafWrite s own c v e fl) :
      Move P s own { s with mem := setEntry s.mem pt (ptIdx v) e, log := ⟨c, v / 4096, fl⟩ :: s.log } own
  | keep {s'} (same : SameTables s own s') (kernelCtx : s'.kernelCtx = s.kernelCtx) (log : s'.log = s.log)
      (pmm : s'.pmm.Ok) (marks : ∀ f pl, own f = some pl → s'.pmm.marked (f / 4096) = true) : Move P s own s' own

inductive Moves (P : Nat → Option Entry → Prop) : MemState → Label → MemState → Label → Prop
  | refl {s own} : Moves P s own s own
  | tail {s own s₁ own₁ s₂ own₂} : Moves P s own s₁ own₁ → Move P s₁ own₁ s₂ own₂ → Moves P s own s₂ own₂

section Moves

variable {P : Nat → Option Entry → Prop} {s s₁ s₂ s' : MemState} {own own₁ own₂ own' : Label} {c v pa : Nat} {flags : Entry}

theorem Move.single (h : Move P s own s' own') : Moves P s own s' own' := .tail .refl h

theorem Moves.trans (h : Moves P s own s₁ own₁) (h' : Moves P s₁ own₁ s₂ own₂) : Moves P s own s₂ own₂ := by
  induction h' with
  | refl => exact h
  | tail _ hm ih => exact .tail ih hm

theorem Moves.invariant {I : MemState → Label → Prop} (h : Moves P s own s' own') (h0 : I s own)
    (hstep : ∀ {s own s' own'}, I s own → Move P s own s' own' → I s' own') : I s' own' := by
  induction h with
  | refl => exact h0
  | tail _ hm ih => exact hstep ih hm

theorem head_of_path {i : Nat} {p : List Nat} (hp : p <+: tablePath v) (hi : [i] <+: p) : i = pml4Idx v := by
  have h := hi.trans hp
  obtain ⟨l, hl⟩ := h
  exact (List.cons.inj hl).1

theorem Move.tables (hm : Move P s own s' own') (h : AllTables own) : AllTables own' := by
  cases hm with
  | grow _ _ path g =>
    intro f r q hf
    rcases g.added hf with hf | ⟨-, -, -, -, hq⟩
    · exact h f r q hf
    · exact (hq.trans path).length_le
  | leaf => exact h
  | keep => exact h

theorem Moves.tables (hm : Moves P s own s' own') (h : AllTables own) : AllTables own' :=
  hm.invariant (I := fun _ o => AllTables o) h fun ho hm => hm.tables ho

theorem Trees.move (h : Trees s own) (hm : Move P s own s' own') : Trees s' own' := by
  cases hm with
  | grow _ _ _ g => exact g.trees
  | leaf _ _ table _ => exact h.leaf table (tablePath_length _) (ptIdx_lt _) _
  | keep same hk _ hpmm hmarks => exact h.keep hk hpmm hmarks same

theorem Sys.move (h : Sys s own) (hm : Move P s own s' own') : Sys s' own' := by
  refine ⟨h.trees.move hm, ?_, hm.tables h.tables⟩
  cases hm with
  | grow ctx allowed path g =>
    refine h.shared.grow g h.trees ?_
    intro i hi hp
    rw [← Bool.not_eq_true]
    intro hu
    have hidx := head_of_path path hp
    exact absurd (allowed hu) (Nat.not_lt.2 (userSpaceEnd_le (by omega)))
  | leaf _ _ table _ => exact h.shared.leaf h.trees table (tablePath_length _) (ptIdx_lt _) _
  | keep same hk => exact h.shared.keep h.trees hk fun c hc i _ hi => same c _ hc i hi

theorem Sys.created {n : Nat} (h : Sys s own) (hn : Created s own n s') :
    Sys s' (update own n (some (n, []))) := by
  refine ⟨hn.trees, hn.shared, ?_⟩
  intro f r q hf
  rcases update_some_iff.1 hf with ⟨-, heq⟩ | ⟨-, hf⟩
  · cases heq
    exact Nat.zero_le _
  · exact h.tables f r q hf

theorem Sys.moves (h : Sys s own) (hm : Moves P s own s' own') : Sys s' own' := hm.invariant h fun hs => hs.move

/-- No label is lost, no context is added, and the kernel's stays. -/
structure Kept (s : MemState) (own : Label) (s' : MemState) (own' : Label) : Prop where
  labels : ∀ {f pl}, own f = some pl → own' f = some pl
  roots : ∀ {c}, own' c = some (c, []) → own c = some (c, [])
  kernelCtx : s'.kernelCtx = s.kernelCtx

theorem Kept.trans (h : Kept s own s₁ own₁) (h' : Kept s₁ own₁ s₂ own₂) : Kept s own s₂ own₂ :=
  ⟨fun hf => h'.labels (h.labels hf), fun hc => h.roots (h'.roots hc), h'.kernelCtx.trans h.kernelCtx⟩

theorem Move.kept (h : Move P s own s' own') : Kept s own s' own' := by
  cases h with
  | grow _ _ _ g =>
    refine ⟨g.kept, fun hc => ?_, g.rest.kernelCtx⟩
    exact (g.added hc).resolve_right fun hx => hx.2.2.2.1 rfl
  | leaf => exact ⟨id, id, rfl⟩
  | keep _ hk => exact ⟨id, id, hk⟩

theorem Moves.kept (h : Moves P s own s' own') : Kept s own s' own' := by
  induction h with
  | refl => exact ⟨id, id, rfl⟩
  | tail _ hm ih => exact ih.trans hm.kept

/-! ## The calls as moves -/

theorem treeRoot_congr (h : s'.kernelCtx = s.kernelCtx) (c v : Nat) : treeRoot s' c v = treeRoot s c v := by
  rw [treeRoot, treeRoot, h]

theorem map_moves {n : Int} (h : Sys s own) (hc : own c = some (c, [])) (hP : P v (some flags))
    (hok : vmmMapPage s c v pa flags = .ok (n, s')) : ∃ own', Moves P s own s' own' := by
  cases map_spec h.trees h.shared hc hok with
  | refused => exact ⟨own, .refl⟩
  | failed grow path _ _ allowed => exact ⟨_, (Move.grow hc allowed path grow).single⟩
  | mapped grow table allowed =>
    have hm : Move P s own _ _ := .grow hc allowed List.prefix_rfl grow
    refine ⟨_, .tail hm.single (.leaf (grow.kept hc) hP ?_ ⟨⟨pa, rfl⟩, fun hu => ⟨allowed hu, ?_⟩⟩)⟩
    · rw [treeRoot_congr grow.rest.kernelCtx]
      exact table
    · intro t q i ht hq
      rw [treeRoot_congr grow.rest.kernelCtx] at ht
      exact grow.user hu ht hq

theorem unmap_moves (h : Sys s own) (hc : own c = some (c, [])) (hP : P v none)
    (hok : vmmUnmapPage s c v = .ok s') : ∃ own', Moves P s own s' own' := by
  cases unmap_spec h.trees h.shared hc hok with
  | absent => exact ⟨own, .refl⟩
  | unmapped table => exact ⟨own, (Move.leaf hc hP table rfl).single⟩

/-- A frame is taken for a page and filled: it is no table, and the tables stay in use. -/
theorem take_page {n : Nat} (h : Sys s own) (hn : IsFrame n) (hm : s.pmm.marked (n / 4096) = false)
    {l : List (BitVec 8)} (hl : l.length ≤ 4096) :
    Move P s own { s with mem := copyIn (zeroFrame s.mem n) n l, pmm := allocFrame s.pmm n } own := by
  refine .keep ?_ rfl rfl (h.trees.pmm.allocFrame n) ?_
  · exact sameTables_zeroFrame h.trees hn (h.trees.fresh hm) l hl
  · intro f pl hf
    show (allocFrame s.pmm n).marked (f / 4096) = true
    rw [marked_allocFrame, (h.trees.frame hf).2, Bool.true_or]

theorem give_page {n : Nat} (h : Sys s own) (hn : IsFrame n) (hpos : n ≠ 0) (hfree : own n = none) :
    Move P s own { s with pmm := pmmFree s.pmm n } own := by
  refine .keep (fun _ _ _ _ _ => rfl) rfl rfl ⟨h.trees.pmm.size, ?_⟩ ?_
  · show (freeFrame s.pmm n).marked 0 = true
    have := hn.1
    rw [marked_freeFrame, h.trees.pmm.zero, Bool.true_and, decide_eq_true_iff]
    omega
  · intro f pl hf
    show (freeFrame s.pmm n).marked (f / 4096) = true
    have hne : f ≠ n := by
      rintro rfl
      rw [hfree] at hf; cases hf
    have hal := h.trees.aligned hf
    have := hn.1
    rw [marked_freeFrame, (h.trees.frame hf).2, Bool.true_and, decide_eq_true_iff]
    omega

theorem MapResult.unlabelled {n : Int} {f : Nat} (h : MapResult s own c v pa flags n s') (hne : n ≠ 0) (hfree : own f = none)
    (hm : s.pmm.marked (f / 4096) = true) :
    ∃ own', own' f = none ∧ (∀ {P}, own c = some (c, []) → Moves P s own s' own') := by
  cases h with
  | refused => exact ⟨own, hfree, fun _ => .refl⟩
  | @failed _ own' _ grow path _ _ allowed =>
    refine ⟨own', ?_, fun hc => (Move.grow hc allowed path grow).single⟩
    cases hf : own' f with
    | none => rfl
    | some pl =>
      rcases grow.added hf with hold | ⟨-, hclear, -⟩
      · rw [hfree] at hold; cases hold
      · rw [hm] at hclear; cases hclear
  | mapped => exact absurd rfl hne

theorem userAllocLoop_moves {init : Option (List (BitVec 8))} {initLen : Nat} {r : Int} :
    ∀ (n i : Nat) {s : MemState} {own : Label}, Sys s own → own c = some (c, []) →
      (∀ j < n, P (v + (i + j) * 4096) (some (flags ||| pteUser))) →
      userAllocLoop c v flags init initLen n i s = .ok (r, s') → ∃ own', Moves P s own s' own' := by
  intro n
  induction n with
  | zero =>
    intro i s own h hc hP hok
    cases hok
    exact ⟨own, .refl⟩
  | succ n ih =>
    intro i s own h hc hP hok
    unfold userAllocLoop at hok
    rcases pmmAlloc_frame h.trees.pmm with ⟨ha, -⟩ | ⟨phys, hphys, hpos, hm, ha, -⟩
    · rw [ha] at hok
      cases hok
      exact ⟨own, .refl⟩
    rw [ha] at hok
    simp only [hpos, if_false] at hok
    have hfree : own phys = none := h.trees.fresh hm
    have htake : Move P s own _ own := take_page h hphys hm (length_initBytes init initLen i)
    have h₁ := h.move htake
    split at hok
    · cases hok
    · rename_i res s₂ heq
      split at hok
      · -- no table for the page, which is freed again
        rename_i hne
        cases hok
        have hmarked : (allocFrame s.pmm phys).marked (phys / 4096) = true := by
          rw [marked_allocFrame]; simp
        obtain ⟨own₂, hfree₂, hmoves⟩ := (map_spec h₁.trees h₁.shared hc heq).unlabelled hne hfree hmarked
        have h₂ := h₁.moves (P := P) (hmoves hc)
        exact ⟨own₂, .tail (htake.single.trans (hmoves hc)) (give_page h₂ hphys hpos hfree₂)⟩
      · obtain ⟨own₂, hmoves⟩ := map_moves h₁ hc (hP 0 (by omega)) heq
        have h₂ := h₁.moves hmoves
        have hP₂ : ∀ j < n, P (v + (i + 1 + j) * 4096) (some (flags ||| pteUser)) := by
          intro j hj
          have := hP (j + 1) (by omega)
          rwa [show i + (j + 1) = i + 1 + j by omega] at this
        obtain ⟨own₃, hrest⟩ := ih (i + 1) h₂ (hmoves.kept.labels hc) hP₂ hok
        exact ⟨own₃, (htake.single.trans hmoves).trans hrest⟩

theorem userAlloc_moves {init : Option (List (BitVec 8))} {len initLen : Nat} {r : Int} (h : Sys s own)
    (hc : own c = some (c, [])) (hP : ∀ w < userSpaceEnd, P w (some (flags ||| pteUser)))
    (hok : vmmUserAlloc s c v len flags init initLen = .ok (r, s')) : ∃ own', Moves P s own s' own' := by
  unfold vmmUserAlloc at hok
  split at hok
  · cases hok; exact ⟨own, .refl⟩
  split at hok
  · cases hok; exact ⟨own, .refl⟩
  split at hok
  · cases hok; exact ⟨own, .refl⟩
  rename_i hrange
  split at hok
  · cases hok; exact ⟨own, .refl⟩
  refine userAllocLoop_moves _ 0 h hc (fun j hj => hP _ ?_) hok
  rw [not_or] at hrange
  omega

end Moves

/-! ## Calls that return -/

/-- No slot on the way to the page table of `v` holds a huge page. -/
def NotHuge (s : MemState) (own : Label) (r v : Nat) : Prop :=
  ∀ t q i, own t = some (r, q) → q ++ [i] <+: tablePath v →
    has (entry s.mem t i) ptePresent = true → has (entry s.mem t i) ptePs = false

section Returns

variable {P : Nat → Option Entry → Prop} {s s' : MemState} {own own' : Label} {r c v pt n : Nat} {flags : Entry}

theorem treeRoot_low (hv : v < userSpaceEnd) : treeRoot s c v = c := if_pos (low_index hv)

theorem slot_lt_of_path {q : List Nat} {i : Nat} (h : q ++ [i] <+: tablePath v) : i < 512 := by
  have hi : i ∈ tablePath v := h.subset (List.mem_append_right _ List.mem_cons_self)
  simp only [tablePath, List.mem_cons, List.not_mem_nil, or_false] at hi
  unfold pml4Idx pdptIdx pdIdx at hi
  omega

theorem NotHuge.grow {c : Nat} {p : List Nat} (h : NotHuge s own r v) (g : Grow s own s' own' c p flags) :
    NotHuge s' own' r v := by
  intro t q i ht hpre hp
  have hi := slot_lt_of_path hpre
  rcases g.added ht with hold | ⟨hnone, -⟩
  · rcases g.entries hold hi with he | ⟨-, -, ⟨hpres, -, he⟩ | ⟨-, n, hn, he⟩⟩
    · rw [he] at hp ⊢
      exact h t q i hold hpre hp
    · rw [he, has_or_user (by decide)]
      exact h t q i hold hpre hpres
    · rw [he]
      exact ps_linkEntry hn
  · rcases g.fresh hnone ht hi with he | ⟨-, -, ⟨hpres, -⟩ | ⟨-, n, hn, he⟩⟩
    · rw [he, zero_has]
    · rw [zero_has] at hpres
      cases hpres
    · rw [he]
      exact ps_linkEntry hn

theorem NotHuge.keep (h : NotHuge s own r v) (hsame : SameTables s own s') : NotHuge s' own r v := by
  intro t q i ht hpre hp
  have hi := slot_lt_of_path hpre
  rw [hsame t _ ht i hi] at hp ⊢
  exact h t q i ht hpre hp

theorem NotHuge.leaf {i : Nat} {e : Entry} {w : Nat} (h : NotHuge s own r v) (ht : Trees s own)
    (hpt : own pt = some (c, tablePath w)) (hi : i < 512) (hmem : s'.mem = setEntry s.mem pt i e) : NotHuge s' own r v := by
  intro t q j hlt hpre hp
  have hlen := hpre.length_le
  rw [List.length_append, List.length_singleton, tablePath_length] at hlen
  have hne : t ≠ pt := by
    rintro rfl
    rw [hpt] at hlt
    obtain ⟨-, hq⟩ := Prod.mk.inj (Option.some.inj hlt)
    rw [← hq, tablePath_length] at hlen
    omega
  have he : entry s'.mem t j = entry s.mem t j := by
    rw [hmem]
    exact ht.entry_setEntry hpt hi hlt (slot_lt_of_path hpre) (Or.inl hne)
  rw [he] at hp ⊢
  exact h t q j hlt hpre hp

theorem NotHuge.move (h : NotHuge s own r v) (ht : Trees s own) (hm : Move P s own s' own') : NotHuge s' own' r v := by
  cases hm with
  | grow _ _ _ g => exact h.grow g
  | leaf _ _ table => exact h.leaf ht table (ptIdx_lt _) rfl
  | keep same => exact h.keep same

theorem NotHuge.created (h : NotHuge s own r v) (hn : Created s own n s') (hr : r ≠ n) :
    NotHuge s' (update own n (some (n, []))) r v := by
  intro t q i ht hpre hp
  rcases update_some_iff.1 ht with ⟨-, heq⟩ | ⟨-, ht⟩
  · exact absurd (Prod.mk.inj heq).1 hr
  · rw [hn.tables t _ ht i (slot_lt_of_path hpre)] at hp ⊢
    exact h t q i ht hpre hp

theorem notHuge_low (h : Trees s own) (hv : pml4Idx v < 256) : NotHuge s own (treeRoot s c v) v := by
  intro t q i ht hpre hp
  have hin := inside_tablePath s c v
  obtain ⟨rest, hrest⟩ := id hpre
  rw [← hrest] at hin
  refine h.noHuge ht hin.of_append (fun j hj => ?_) hp
  obtain ⟨l, hl⟩ := List.head?_eq_some_iff.1 hj
  rwa [head_of_path hpre ⟨l, hl.symm⟩]

theorem getOrAllocTable_returns (flags : Entry) (v : Nat) (level : TableLevel) {t i : Nat}
    (h : has (entry s.mem t i) ptePresent = true → has (entry s.mem t i) ptePs = false) :
    ∃ res s', getOrAllocTable s t i flags v level = .ok (res, s') := by
  unfold getOrAllocTable
  simp only
  split
  · rename_i hp
    rw [h hp, if_neg Bool.false_ne_true]
    split <;> exact ⟨_, _, rfl⟩
  · split <;> exact ⟨_, _, rfl⟩

theorem map_returns (pAddr : Nat) (flags : Entry) (h : Trees s own) (hsh : SharedHalf s own) (hc : own c = some (c, []))
    (hn : NotHuge s own (treeRoot s c v) v) : ∃ res s', vmmMapPage s c v pAddr flags = .ok (res, s') := by
  unfold vmmMapPage
  split
  · exact ⟨_, _, rfl⟩
  rename_i href
  have hv := user_of_not_refused href
  have hr := root_treeRoot (v := v) h hc
  have hin := inside_tablePath s c v
  obtain ⟨res₁, s₁, h₁⟩ := getOrAllocTable_returns flags v .pdpt
    (show _ → has (entry s.mem c (pml4Idx v)) ptePs = false by
      rw [first_entry hsh hc]
      exact hn _ [] (pml4Idx v) hr ⟨[pdptIdx v, pdIdx v], rfl⟩)
  rw [h₁]
  rcases first_table h hsh hc hv h₁ with ⟨rfl, -⟩ | ⟨u₁, own₁, rfl, g₁, ht₁⟩
  · exact ⟨_, _, rfl⟩
  obtain ⟨res₂, s₂, h₂⟩ := getOrAllocTable_returns flags v .pd
    (hn.grow g₁ u₁ _ (pdptIdx v) ht₁ ⟨[pdIdx v], rfl⟩)
  simp only [h₂]
  rcases next_table h hr hin.of_append g₁ ht₁ h₂ with ⟨rfl, -⟩ | ⟨u₂, own₂, rfl, g₂, ht₂⟩
  · exact ⟨_, _, rfl⟩
  obtain ⟨res₃, s₃, h₃⟩ := getOrAllocTable_returns flags v .pt
    (hn.grow g₂ u₂ _ (pdIdx v) ht₂ ⟨[], rfl⟩)
  simp only [h₃]
  cases res₃ <;> exact ⟨_, _, rfl⟩

theorem unmap_returns (h : Trees s own) (hsh : SharedHalf s own) (hc : own c = some (c, []))
    (hn : NotHuge s own (treeRoot s c v) v) : ∃ s', vmmUnmapPage s c v = .ok s' := by
  have hr := root_treeRoot (v := v) h hc
  have hin := inside_tablePath s c v
  unfold vmmUnmapPage
  simp only [first_entry hsh hc]
  split
  · exact ⟨_, rfl⟩
  rename_i hp₁
  rw [Bool.not_eq_true, Bool.not_eq_false'] at hp₁
  have ht₁ := h.labelled.slot hr (hin.of_append (q := [pdptIdx v, pdIdx v]) (p := [pml4Idx v]))
    (child_eq_some hp₁ (hn _ [] (pml4Idx v) hr ⟨[pdptIdx v, pdIdx v], rfl⟩ hp₁))
  split
  · exact ⟨_, rfl⟩
  rename_i hp₂
  rw [Bool.not_eq_true, Bool.not_eq_false'] at hp₂
  have hs₂ := hn _ _ (pdptIdx v) ht₁ ⟨[pdIdx v], rfl⟩ hp₂
  have ht₂ := h.labelled.slot ht₁ (hin.of_append (q := [pdIdx v])) (child_eq_some hp₂ hs₂)
  rw [hs₂, if_neg Bool.false_ne_true]
  split
  · exact ⟨_, rfl⟩
  rename_i hp₃
  rw [Bool.not_eq_true, Bool.not_eq_false'] at hp₃
  rw [hn _ _ (pdIdx v) ht₂ ⟨[], rfl⟩ hp₃, if_neg Bool.false_ne_true]
  split <;> exact ⟨_, rfl⟩

theorem map_ok (pAddr : Nat) (flags : Entry) (h : Trees s own) (hsh : SharedHalf s own) (hc : own c = some (c, []))
    (hn : NotHuge s own (treeRoot s c v) v) (hv : has flags pteUser = true → v < userSpaceEnd)
    (hfree : 3 ≤ s.pmm.clearCount) :
    ∃ s', vmmMapPage s c v pAddr flags = .ok (0, s') ∧ s.pmm.clearCount ≤ s'.pmm.clearCount + 3 := by
  have hmissing : missing s.mem (treeRoot s c v) (tablePath v) ≤ 3 := List.countP_le_length
  obtain ⟨r, s', hmap⟩ := map_returns pAddr flags h hsh hc hn
  cases map_spec h hsh hc hmap with
  | refused hu high => exact absurd (hv hu) (Nat.not_lt.2 high)
  | failed _ _ _ short => omega
  | mapped grow =>
    have hcount := grow.count
    exact ⟨_, hmap, by simp only; omega⟩

end Returns

/-! ## Runs -/

/-- The roots of the trees are the contexts. -/
structure VmInv (s : VmState) (own : Label) : Prop where
  sys : Sys s.sys own
  roots : ∀ c, own c = some (c, []) ↔ c ∈ s.ctxs

inductive VmMoves (P : Nat → Option Entry → Prop) (s : VmState) (own : Label) (s' : VmState) (own' : Label) : Prop
  | moves (ctxs : s'.ctxs = s.ctxs) (h : Moves P s.sys own s'.sys own')
  | created {n} (ctxs : s'.ctxs = n :: s.ctxs) (h : Created s.sys own n s'.sys)
      (label : own' = update own n (some (n, [])))

section Runs

variable {P : Nat → Option Entry → Prop} {s s' : VmState} {own own' : Label}

/-- The tables that can be walked to are those with a label. -/
theorem VmInv.tablesMarked (h : VmInv s own) {p : Pmm} (hp : TablesMarked s p) {f : Nat} {pl : Nat × List Nat}
    (hf : own f = some pl) : p.marked (f / 4096) = true := by
  obtain ⟨r, q⟩ := pl
  have hr := h.sys.trees.root hf
  have hlen := h.sys.tables f r q hf
  have hin := h.sys.trees.inTree hf
  exact hp r ((h.roots r).1 hr) q f hlen hin.1 ((h.sys.trees.walk_iff hr ⟨hlen, hin⟩).2 hf)

theorem VmMoves.inv (h : VmInv s own) (hm : VmMoves P s own s' own') : VmInv s' own' := by
  cases hm with
  | moves hctxs hm =>
    refine ⟨h.sys.moves hm, fun c => ?_⟩
    rw [hctxs, ← h.roots c]
    exact ⟨hm.kept.roots, hm.kept.labels⟩
  | created hctxs hn hl =>
    rename_i n
    subst hl
    refine ⟨h.sys.created hn, fun c => ?_⟩
    rw [hctxs, List.mem_cons, ← h.roots c, update_apply]
    split
    · rename_i hcn
      simp [hcn]
    · rename_i hcn
      simp [hcn]

theorem step_moves {call : VmCall} (h : VmInv s own) (hok : TableCall P s call) (hs : vmStep s call = some s') :
    ∃ own', VmMoves P s own s' own' := by
  cases call with
  | create kmallocOk =>
    simp only [vmStep] at hs
    split at hs <;> rename_i heq <;> cases hs
    · rcases create_spec h.sys.trees h.sys.shared heq with ⟨hres, -⟩ | ⟨n, hres, hn⟩
      · cases hres
      · cases hres
        exact ⟨_, .created rfl hn rfl⟩
    · rcases create_spec h.sys.trees h.sys.shared heq with ⟨-, hs⟩ | ⟨n, hres, -⟩
      · subst hs
        exact ⟨own, .moves rfl .refl⟩
      · cases hres
  | map c v pa flags =>
    obtain ⟨hc, hP⟩ := hok
    simp only [vmStep] at hs
    split at hs <;> rename_i heq <;> cases hs
    obtain ⟨own', hm⟩ := map_moves h.sys ((h.roots c).2 hc) hP heq
    exact ⟨own', .moves rfl hm⟩
  | unmap c v =>
    obtain ⟨hc, hP⟩ := hok
    simp only [vmStep] at hs
    split at hs <;> rename_i heq <;> cases hs
    obtain ⟨own', hm⟩ := unmap_moves h.sys ((h.roots c).2 hc) hP heq
    exact ⟨own', .moves rfl hm⟩
  | userAlloc c v len flags init initLen =>
    obtain ⟨hc, hP⟩ := hok
    simp only [vmStep] at hs
    split at hs <;> rename_i heq <;> cases hs
    obtain ⟨own', hm⟩ := userAlloc_moves h.sys ((h.roots c).2 hc) hP heq
    exact ⟨own', .moves rfl hm⟩
  | destroy c => exact hok.elim
  | sbrk increment => exact hok.elim
  | others p =>
    cases hs
    obtain ⟨hp, hmarked⟩ := hok
    refine ⟨own, .moves rfl (Move.single ?_)⟩
    exact .keep (fun _ _ _ _ _ => rfl) rfl rfl hp fun f pl hf => h.tablesMarked hmarked hf

/-- An invariant of the moves and of new contexts holds in every state of a run. -/
theorem vmInv_of_reach {s₀ : VmState} {own₀ : Label} {I : MemState → Label → Prop} (h₀ : VmInv s₀ own₀) (hI : I s₀.sys own₀)
    (hmove : ∀ {s own s' own'}, Sys s own → I s own → Move P s own s' own' → I s' own')
    (hnew : ∀ {s own s' n}, Sys s own → I s own → Created s own n s' → I s' (update own n (some (n, []))))
    (h : Reach vmStep (TableCall P) s₀ s) : ∃ own, VmInv s own ∧ I s.sys own := by
  refine h.invariant (P := fun s => ∃ own, VmInv s own ∧ I s.sys own) ⟨own₀, h₀, hI⟩ ?_
  rintro s call s' ⟨own, hinv, hi⟩ hok hs
  obtain ⟨own', hm⟩ := step_moves hinv hok hs
  refine ⟨own', hm.inv hinv, ?_⟩
  cases hm with
  | moves _ hm =>
    have hboth : Sys s'.sys own' ∧ I s'.sys own' :=
      hm.invariant (I := fun s own => Sys s own ∧ I s own) ⟨hinv.sys, hi⟩
        fun hsi hmv => ⟨hsi.1.move hmv, hmove hsi.1 hsi.2 hmv⟩
    exact hboth.2
  | created _ hn hl =>
    rw [hl]
    exact hnew hinv.sys hi hn

end Runs

end ToastOS.Mmu
