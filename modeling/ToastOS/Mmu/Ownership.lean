import ToastOS.Mmu.NoPanic
import ToastOS.Mmu.Teardown

/-!
# One owner for each frame

`Place` lists what a frame can be used for, and `Owner` reads from memory which frame is used for it. In every run of the
calls that build, fill and tear down address spaces and move the kernel's break, a frame has one place at most, it is
marked, and no call frees a frame that is free (`frame_has_one_owner`). The labels of `Owned` carry the proof: they name
the place of a frame (`label_of_owner`), and different places have different labels (`placeOf_label`).
-/

namespace ToastOS.Mmu

open ToastOS.Lib

/-! ## Places -/

inductive Place
  | pml4 (ctx : Nat)
  /-- A table of the user half: the slots that lead to it. -/
  | userTable (ctx : Nat) (path : List Nat)
  /-- A page of the user half, by its number. -/
  | userPage (ctx page : Nat)
  | kernelTable (path : List Nat)
  | heapPage (page : Nat)
  deriving DecidableEq

/-- A place for a table in the user half. -/
def UserPath (q : List Nat) : Prop := q.length ≤ 3 ∧ (∀ i ∈ q, i < 512) ∧ ∀ i ∈ q.head?, i < 256

/-- The frame of a page: the leaf entry behind its page table is present and holds it. -/
def PageFrame (m : Mem) (ctx page f : Nat) : Prop :=
  ∃ e, leafOf m ctx (page * 4096) = some e ∧ has e ptePresent = true ∧ frameOf e = f

/-- The frame `f` is used for this place. -/
def Owner (s : VmState) : Place → Nat → Prop
  | .pml4 ctx, f => ctx ∈ s.ctxs ∧ f = ctx
  | .userTable ctx path, f => ctx ∈ s.ctxs ∧ path ≠ [] ∧ UserPath path ∧ walk (child s.sys.mem) ctx path = some f
  | .userPage ctx page, f => ctx ∈ s.ctxs ∧ page * 4096 < userSpaceEnd ∧ PageFrame s.sys.mem ctx page f
  | .kernelTable path, f => path ≠ [] ∧ KernelPath path ∧ ∃ ctx ∈ s.ctxs, walk (child s.sys.mem) ctx path = some f
  | .heapPage page, f => InWindow (page * 4096) ∧ PageFrame s.sys.mem s.sys.kernelCtx page f

/-- The label of a place; `k` is the kernel's PML4. -/
def Place.label (k : Nat) : Place → Nat × List Nat
  | .pml4 ctx => (ctx, [])
  | .userTable ctx path => (ctx, path)
  | .userPage ctx page => (ctx, pagePath (page * 4096))
  | .kernelTable path => (k, path)
  | .heapPage page => (k, pagePath (page * 4096))

/-- The number of the canonical page behind four slots. -/
def pageOf : List Nat → Nat
  | [i, j, k, l] => (if i < 256 then 0 else 2 ^ 52 - 2 ^ 36) + ((i * 512 + j) * 512 + k) * 512 + l
  | _ => 0

def placeOf (r : Nat) (q : List Nat) : Place :=
  if q = [] then .pml4 r
  else if q.length ≤ 3 then (if q.headD 0 < 256 then .userTable r q else .kernelTable q)
  else if q.headD 0 < 256 then .userPage r (pageOf q) else .heapPage (pageOf q)

theorem pageOf_pagePath {n : Nat} (h : Canonical (n * 4096)) : pageOf (pagePath (n * 4096)) = n := by
  have hn : n * 4096 / 4096 = n := Nat.mul_div_cancel n (by decide)
  unfold Canonical at h
  show (if pml4Idx (n * 4096) < 256 then 0 else 2 ^ 52 - 2 ^ 36) +
    ((pml4Idx (n * 4096) * 512 + pdptIdx (n * 4096)) * 512 + pdIdx (n * 4096)) * 512 + ptIdx (n * 4096) = n
  unfold pml4Idx pdptIdx pdIdx ptIdx
  split <;> omega

theorem headD_lt {q : List Nat} (hne : q ≠ []) (h : ∀ i ∈ q.head?, i < 256) : q.headD 0 < 256 := by
  cases q with
  | nil => exact absurd rfl hne
  | cons a q => exact h a rfl

theorem placeOf_label {s : VmState} {pl : Place} {f k : Nat} (h : Owner s pl f) :
    placeOf (pl.label k).1 (pl.label k).2 = pl := by
  have hnil : ∀ n, pagePath n ≠ [] := by simp [pagePath]
  have hlong : ∀ n, ¬ (pagePath n).length ≤ 3 := fun n => by rw [pagePath_length]; decide
  cases pl with
  | pml4 ctx => rfl
  | userTable ctx path =>
    obtain ⟨-, hne, ⟨hlen, -, hlow⟩, -⟩ := h
    show placeOf ctx path = _
    rw [placeOf, if_neg hne, if_pos hlen, if_pos (headD_lt hne hlow)]
  | userPage ctx page =>
    obtain ⟨-, hlow, -⟩ := h
    have hcan : Canonical (page * 4096) := by
      unfold userSpaceEnd at hlow
      exact .inl (by omega)
    have hidx : (pagePath (page * 4096)).headD 0 < 256 := low_index hlow
    show placeOf ctx (pagePath (page * 4096)) = _
    rw [placeOf, if_neg (hnil _), if_neg (hlong _), if_pos hidx, pageOf_pagePath hcan]
  | kernelTable path =>
    obtain ⟨hne, ⟨hlen, -, hhigh⟩, -⟩ := h
    have hge : ¬ path.headD 0 < 256 := by
      cases path with
      | nil => exact absurd rfl hne
      | cons a q => exact Nat.not_lt.2 (hhigh a rfl)
    show placeOf k path = _
    rw [placeOf, if_neg hne, if_pos hlen, if_neg hge]
  | heapPage page =>
    obtain ⟨hw, -⟩ := h
    have hidx : ¬ (pagePath (page * 4096)).headD 0 < 256 := hw.high
    show placeOf k (pagePath (page * 4096)) = _
    rw [placeOf, if_neg (hnil _), if_neg (hlong _), if_neg hidx, pageOf_pagePath hw.canonical]

/-! ## The invariant -/

/-- The labels fit, the roots are the contexts, and the heap's fields are in order. -/
structure VmOwned (s : VmState) (own : Label) : Prop where
  owned : Owned s.sys own
  roots : ∀ c, own c = some (c, []) ↔ c ∈ s.ctxs
  nodup : s.ctxs.Nodup
  heap : ∃ heap, HeapOk s.sys heap

section Owner

variable {s : VmState} {own : Label} {c f : Nat} {q : List Nat}

theorem label_of_pageFrame {page : Nat} (h : Owned s.sys own) (hc : own c = some (c, []))
    (hroot : treeRoot s.sys c (page * 4096) = c) (htr : Tracked (pagePath (page * 4096)))
    (hf : PageFrame s.sys.mem c page f) : own f = some (c, pagePath (page * 4096)) := by
  obtain ⟨e, hleaf, hp, rfl⟩ := hf
  rw [leafOf, Option.map_eq_some_iff] at hleaf
  obtain ⟨pt, hpt, rfl⟩ := hleaf
  have hin := inside_tablePath s.sys c (page * 4096)
  rw [hroot] at hin
  exact h.pages.entry ((h.trees.walk_iff hc hin).1 hpt) rfl (ptIdx_lt _) htr hp

theorem walk_kernelPath (h : Owned s.sys own) (hc : own c = some (c, [])) (hq : KernelPath q) (hne : q ≠ []) :
    walk (child s.sys.mem) c q = walk (child s.sys.mem) s.sys.kernelCtx q := by
  cases q with
  | nil => exact absurd rfl hne
  | cons i q =>
    have hi : i < 512 := hq.2.1 i List.mem_cons_self
    have he : entry s.sys.mem c i = entry s.sys.mem s.sys.kernelCtx i := (h.shared c hc i (hq.2.2 i rfl) hi).1
    rw [walk, walk, child, child, he]

theorem label_of_owner (h : Owned s.sys own) (hr : ∀ c ∈ s.ctxs, own c = some (c, [])) {pl : Place} (ho : Owner s pl f) :
    own f = some (pl.label s.sys.kernelCtx) := by
  have hk := h.trees.kernel
  cases pl with
  | pml4 ctx =>
    obtain ⟨hc, rfl⟩ := ho
    exact hr _ hc
  | userTable ctx path =>
    obtain ⟨hc, hne, ⟨hlen, hlt, hlow⟩, hw⟩ := ho
    exact (h.trees.walk_iff (hr _ hc) ⟨hlen, hlt, .inr hlow⟩).1 hw
  | userPage ctx page =>
    obtain ⟨hc, hlow, hf⟩ := ho
    exact label_of_pageFrame h (hr _ hc) (treeRoot_low hlow) (tracked_low hlow) hf
  | kernelTable path =>
    obtain ⟨hne, hq, c, hc, hw⟩ := ho
    rw [walk_kernelPath h (hr _ hc) hq hne] at hw
    exact (h.trees.walk_iff hk ⟨hq.1, hq.2.1, .inl rfl⟩).1 hw
  | heapPage page =>
    obtain ⟨hw, hf⟩ := ho
    exact label_of_pageFrame h hk (treeRoot_kernel s.sys _) hw.tracked hf

end Owner

/-! ## Runs -/

/-- The calls on address spaces and the heap: on contexts that exist, with flags that hold no address, and with increments
that fit the break. -/
def SpaceCall (s : VmState) : VmCall → Prop
  | .create _ => True
  | .userAlloc ctx _ _ flags _ _ => ctx ∈ s.ctxs ∧ flags &&& pteFrameMask = 0
  | .destroy ctx => ctx ∈ s.ctxs
  | .sbrk increment => ∀ heap, s.sys.heap = some heap → FitsBreak heap increment
  | .map _ _ _ _ => False
  | .unmap _ _ => False
  | .others _ => False

/-- Between the two states every frame that was freed was in use, and the counter has followed the bitmap. -/
structure Accounted (s s' : MemState) : Prop where
  frees : ∀ g ∈ s'.pmm.frees, g ∈ s.pmm.frees ∨ g.2 = true
  balanced : Balanced s.pmm s'.pmm

theorem Accounted.refl (s : MemState) : Accounted s s := ⟨fun _ hg => .inl hg, .refl _⟩

theorem Accounted.trans {s₁ s₂ s₃ : MemState} (h : Accounted s₁ s₂) (h' : Accounted s₂ s₃) : Accounted s₁ s₃ :=
  ⟨fun g hg => (h'.frees g hg).elim (h.frees g) .inr, h.balanced.trans h'.balanced⟩

section Runs

variable {s s' : VmState} {own : Label}

theorem Effect.vmOwned {r : Nat} {own' : Label} {t : MemState} (h : VmOwned s own) (he : Effect r s.sys own t own') :
    VmOwned ⟨t, s.ctxs⟩ own' := by
  obtain ⟨heap, hh⟩ := h.heap
  refine ⟨he.owned, fun c => ?_, h.nodup, heap, hh.congr he.heap he.kernelCtx⟩
  rw [← h.roots c]
  exact ⟨he.roots, he.tables (by simp)⟩

theorem Created.vmOwned {n : Nat} {t : MemState} (h : VmOwned s own) (hn : Created s.sys own n t) :
    VmOwned ⟨t, n :: s.ctxs⟩ (Function.update own n (some (n, []))) := by
  obtain ⟨heap, hh⟩ := h.heap
  refine ⟨h.owned.created hn, fun c => ?_, ?_, heap, hh.congr hn.rest.heap hn.rest.kernelCtx⟩
  · rw [List.mem_cons, ← h.roots c, Function.update_apply]
    split <;> rename_i hcn <;> simp [hcn]
  · refine List.nodup_cons.2 ⟨fun hmem => ?_, h.nodup⟩
    cases ((h.roots n).2 hmem).symm.trans hn.unused

theorem create_vmOwned {ok : Bool} (h : VmOwned s own) (hs : vmStep s (.create ok) = some s') :
    ∃ own', VmOwned s' own' ∧ Accounted s.sys s'.sys := by
  simp only [vmStep] at hs
  split at hs <;> rename_i heq <;> cases hs
  · rcases create_spec h.owned.trees h.owned.shared heq with ⟨hres, -⟩ | ⟨n, hres, hn⟩
    · cases hres
    cases hres
    refine ⟨_, hn.vmOwned h, fun g hg => ?_, hn.rest.balanced⟩
    rw [hn.rest.frees] at hg
    exact .inl hg
  · rcases create_spec h.owned.trees h.owned.shared heq with ⟨-, hs⟩ | ⟨n, hres, -⟩
    · subst hs
      exact ⟨own, h, .refl _⟩
    · cases hres

theorem userAlloc_effect {c v len initLen : Nat} {flags : Entry} {init : Option (List (BitVec 8))} {res : Int}
    {t t' : MemState} (hf : flags &&& pteFrameMask = 0) (ho : Owned t own) (hc : own c = some (c, []))
    (hok : vmmUserAlloc t c v len flags init initLen = .ok (res, t')) : ∃ own', Effect c t own t' own' := by
  obtain ⟨m, own', hrounds, hpages⟩ := userAlloc_rounds hf ho hc hok
  refine ⟨own', hrounds.effect ho fun hx ho hr => ?_⟩
  have hlow := (hpages _ hx).1
  exact hr.effect ho (fun _ => hlow) (frame_or_user hf) (tracked_low hlow)

theorem destroy_vmOwned {c : Nat} (h : VmOwned s own) (hc : c ∈ s.ctxs) (hs : vmStep s (.destroy c) = some s') :
    ∃ own', VmOwned s' own' ∧ Accounted s.sys s'.sys := by
  cases hs
  by_cases hk : c = s.sys.kernelCtx
  · rw [if_pos hk, vmmDestroyContext, if_pos hk]
    exact ⟨own, h, .refl _⟩
  · rw [if_neg hk]
    have hd := destroy_spec h.owned ((h.roots c).2 hc) hk
    obtain ⟨heap, hh⟩ := h.heap
    refine ⟨drop own c, ⟨hd.owned, fun d => ?_, h.nodup.erase c, heap, hh.congr hd.heap hd.kernelCtx⟩, hd.frees, hd.balanced⟩
    rw [drop_iff, h.roots d, h.nodup.mem_erase_iff]
    exact And.comm

theorem sbrk_vmOwned {increment : Int} (h : VmOwned s own)
    (hfits : ∀ heap, s.sys.heap = some heap → FitsBreak heap increment) (hs : vmStep s (.sbrk increment) = some s') :
    ∃ own', VmOwned s' own' ∧ Accounted s.sys s'.sys := by
  obtain ⟨heap, hh⟩ := h.heap
  simp only [vmStep] at hs
  split at hs <;> rename_i heq <;> cases hs
  obtain ⟨own', hres⟩ := sbrk_spec h.owned hh (hfits heap hh.loaded) heq
  obtain ⟨heap', t, heff, rfl, hh'⟩ := hres.effect h.owned hh
  have ht := heff.vmOwned h
  exact ⟨own', ⟨ht.owned.setHeap _, ht.roots, ht.nodup, heap', hh'⟩, heff.frees, heff.balanced⟩

theorem vmOwned_step {call : VmCall} (h : VmOwned s own) (hok : SpaceCall s call) (hs : vmStep s call = some s') :
    ∃ own', VmOwned s' own' ∧ Accounted s.sys s'.sys := by
  cases call with
  | create ok => exact create_vmOwned h hs
  | userAlloc c v len flags init initLen =>
    obtain ⟨hc, hf⟩ := hok
    simp only [vmStep] at hs
    split at hs <;> rename_i heq <;> cases hs
    obtain ⟨own', heff⟩ := userAlloc_effect hf h.owned ((h.roots c).2 hc) heq
    exact ⟨own', heff.vmOwned h, heff.frees, heff.balanced⟩
  | destroy c => exact destroy_vmOwned h hok hs
  | sbrk increment => exact sbrk_vmOwned h hok hs
  | map => exact hok.elim
  | unmap => exact hok.elim
  | others => exact hok.elim

theorem vmOwned_of_reach {s₀ : VmState} {own₀ : Label} (h₀ : VmOwned s₀ own₀) (h : Reach vmStep SpaceCall s₀ s) :
    ∃ own, VmOwned s own ∧ Accounted s₀.sys s.sys := by
  refine h.invariant (P := fun s => ∃ own, VmOwned s own ∧ Accounted s₀.sys s.sys) ⟨own₀, h₀, .refl _⟩ ?_
  rintro s call s' ⟨own, hs, hacc⟩ hok hstep
  obtain ⟨own', hs', hacc'⟩ := vmOwned_step hs hok hstep
  exact ⟨own', hs', hacc.trans hacc'⟩

end Runs

/-! ## After `init_vmm` and `init_kheap` -/

/-- Limine maps nothing in the range that the heap is given. -/
def WindowFree (mem : Mem) (cr3 : Entry) : Prop := ∀ x, InWindow x → vmmGetPhys mem (frameOf cr3) x = 0

/-- No page with a label of its own is mapped. -/
def NoPages (s : MemState) (own : Label) : Prop :=
  ∀ pt r q i, own pt = some (r, q) → q.length = 3 → i < 512 → Tracked (q ++ [i]) →
    has (entry s.mem pt i) ptePresent = false

section Boot

variable {mem : Mem} {pmm : Pmm} {cr3 : Entry} {nx : Bool} {s s' : MemState} {own own' : Label}

theorem noPages_inherited (h : Inherited mem cr3 s own) (hw : WindowFree mem cr3) : NoPages s own := by
  intro pt r q i hpt hlen hi htr
  obtain ⟨-, ⟨-, rfl⟩ | ⟨hne, hq, hwalk, hsame⟩⟩ := h.label hpt
  · cases hlen
  rw [hsame i hi, ← Bool.not_eq_true]
  intro hp
  rcases htr with hlow | ⟨v, hv, hpath⟩
  · cases q with
    | nil => exact absurd rfl hne
    | cons a q =>
      have h1 := hlow a rfl
      have h2 := hq.2.2 a rfl
      omega
  · -- some byte of the page would have an address
    obtain ⟨rfl, hidx⟩ := List.append_inj' hpath rfl
    obtain rfl := (List.cons.inj hidx).1
    have hx : (v / 4096 * 4096 + 1) / 4096 = v / 4096 := by omega
    have hbase : kheapVirtBase % 4096 = 0 := by decide
    have hin : InWindow (v / 4096 * 4096 + 1) := by
      obtain ⟨h1, h2⟩ := hv
      exact ⟨by omega, by omega⟩
    obtain ⟨htp, hpi⟩ := page_indices hx
    rw [← htp] at hwalk
    have hzero := hw _ hin
    rw [phys_of_walk hwalk, hpi, if_pos hp, physOf_page] at hzero
    omega

theorem NoPages.move (h : NoPages s own) (hm : Move (fun _ _ => False) s own s' own') : NoPages s' own' := by
  intro pt r q i hpt hlen hi htr
  cases hm with
  | grow _ _ path g =>
    rcases g.leafEntries path hpt hlen hi with ⟨hold, he⟩ | ⟨-, he⟩
    · rw [he]
      exact h pt r q i hold hlen hi htr
    · rw [he, zero_has]
  | leaf _ permitted => exact permitted.elim
  | keep same => rw [same pt _ hpt i hi]; exact h pt r q i hpt hlen hi htr

/-- Before a page is mapped, the labels of the tables are all there is. -/
theorem vmOwned_of_noPages (hinv : VmInv ⟨s, [s.kernelCtx]⟩ own) (hno : NoPages s own) :
    VmOwned ⟨initKheap s, [s.kernelCtx]⟩ own := by
  obtain ⟨heap, hh, -⟩ := heapOk_initKheap s
  have hroot : ∀ {f r q}, own f = some (r, q) → r = s.kernelCtx := fun hf =>
    List.mem_singleton.1 ((hinv.roots _).1 (hinv.sys.trees.root hf))
  have hpages : Pages s own := by
    refine ⟨?_, ?_, ?_, ?_⟩
    · intro pt r q i hpt hlen hi htr hp
      rw [hno pt r q i hpt hlen hi htr] at hp
      cases hp
    · intro f r q i hf hlen
      have := hinv.sys.tables f r _ hf
      rw [List.length_append, List.length_singleton] at this
      omega
    · intro f r q hf
      have := hinv.sys.tables f r q hf
      omega
    · intro f r q hf hr
      have := hinv.sys.tables f r q hf
      rcases hr with hr | hr
      · exact absurd (hroot hf) hr
      · omega
  have howned : Owned s own := ⟨hinv.sys.trees, hinv.sys.shared, hpages⟩
  exact ⟨howned.setHeap _, hinv.roots, List.nodup_singleton _, heap, hh⟩

theorem vmOwned_boot (hl : LimineTables mem pmm cr3) (hw : WindowFree mem cr3) (hok : initVmm mem pmm cr3 nx = .ok s) :
    ∃ own, VmOwned ⟨initKheap s, [s.kernelCtx]⟩ own := by
  obtain ⟨s₀, own₀, own, hinh, hms, hinv, -⟩ := initVmm_spec (P := fun _ _ => False) hl hok
  exact ⟨own, vmOwned_of_noPages hinv (hms.invariant (I := NoPages) (noPages_inherited hinh hw) fun h hm => h.move hm)⟩

/-- In every state of a run after `init_vmm` and `init_kheap`: no frame is used for two places, a frame that is used is
marked, so `pmm_alloc` does not return it, and no call has freed a frame that was free. -/
theorem frame_has_one_owner {s₀ : MemState} {s : VmState} (hl : LimineTables mem pmm cr3) (hw : WindowFree mem cr3)
    (hok : initVmm mem pmm cr3 nx = .ok s₀) (h : Reach vmStep SpaceCall ⟨initKheap s₀, [s₀.kernelCtx]⟩ s) :
    (∀ pl pl' f, Owner s pl f → Owner s pl' f → pl = pl') ∧
      (∀ pl f, Owner s pl f → f % 4096 = 0 ∧ s.sys.pmm.marked (f / 4096) = true) ∧
      (∀ pl, (pmmAlloc s.sys.pmm).1 ≠ 0 → ¬ Owner s pl (pmmAlloc s.sys.pmm).1) ∧
      ∀ g ∈ s.sys.pmm.frees, g ∈ s₀.pmm.frees ∨ g.2 = true := by
  obtain ⟨own₀, h₀⟩ := vmOwned_boot hl hw hok
  obtain ⟨own, hs, hacc⟩ := vmOwned_of_reach h₀ h
  have hlabel : ∀ {pl f}, Owner s pl f → own f = some (pl.label s.sys.kernelCtx) :=
    fun ho => label_of_owner hs.owned (fun c hc => (hs.roots c).2 hc) ho
  have hframe : ∀ {pl f}, Owner s pl f → IsFrame f ∧ s.sys.pmm.marked (f / 4096) = true :=
    fun ho => hs.owned.trees.frame (hlabel ho)
  refine ⟨?_, fun pl f ho => ⟨(hframe ho).1.1, (hframe ho).2⟩, ?_, hacc.frees⟩
  · intro pl pl' f ho ho'
    have heq := (hlabel ho).symm.trans (hlabel ho')
    rw [← placeOf_label (k := s.sys.kernelCtx) ho, Option.some.inj heq, placeOf_label ho']
  · intro pl hne ho
    rcases pmmAlloc_frame hs.owned.trees.pmm with ⟨ha, -⟩ | ⟨a, -, -, hm, ha, -⟩
    · rw [ha] at hne
      exact hne rfl
    · rw [ha] at ho
      rw [(hframe ho).2] at hm
      cases hm

theorem windowFree_boot : WindowFree bootMem 0x1000 := by
  intro x hx
  have hlt : pml4Idx x < 511 := by
    obtain ⟨h1, h2⟩ := hx
    unfold kheapVirtBase at h1 h2
    unfold pml4Idx
    omega
  have hentry : entry bootMem (frameOf 0x1000) (pml4Idx x) = 0 := by
    rw [show frameOf 0x1000 = 0x1000 by decide, entry_boot (by decide) (by omega)]
    repeat rw [if_neg (by omega)]
  unfold vmmGetPhys
  simp only [hentry, zero_has, Bool.not_false, if_true]

theorem boot_state : ∃ s₀ own, initVmm bootMem bootPmm 0x1000 true = .ok s₀ ∧
    VmOwned ⟨initKheap s₀, [s₀.kernelCtx]⟩ own ∧ NoHugeWindow (initKheap s₀) own ∧ 249 ≤ (initKheap s₀).pmm.clearCount := by
  obtain ⟨s₀, hinit⟩ := boot_ok true
  obtain ⟨_, _, own, hinh, hms, hinv, -⟩ := initVmm_spec (P := fun _ _ => False) limineTables_boot hinit
  have hkept : Trees s₀ own ∧ NoHuge s₀ own ∧ NoPages s₀ own :=
    hms.invariant (I := fun s own => Trees s own ∧ NoHuge s own ∧ NoPages s own)
      ⟨hinh.trees, noHuge_inherited_boot hinh, noPages_inherited hinh windowFree_boot⟩
      fun h hm => ⟨h.1.move hm, h.2.1.move h.1 hm, h.2.2.move hm⟩
  have hfree : 249 ≤ s₀.pmm.clearCount := boot_free hinit
  exact ⟨s₀, own, hinit, vmOwned_of_noPages hinv hkept.2.2, fun v _ => hkept.2.1 v, hfree⟩

theorem new_context {s : VmState} (h : VmOwned s own) (hn : NoHugeWindow s.sys own) (hfree : 0 < s.sys.pmm.clearCount) :
    ∃ c s₁ own₁, vmmCreateContext s.sys true = (some c, s₁) ∧ VmOwned ⟨s₁, c :: s.ctxs⟩ own₁ ∧ NoHugeWindow s₁ own₁ ∧
      s.sys.pmm.clearCount = s₁.pmm.clearCount + 1 := by
  obtain ⟨c, s₁, hcreate, hcount⟩ := create_ok h.owned.trees.pmm hfree
  rcases create_spec h.owned.trees h.owned.shared hcreate with ⟨hres, -⟩ | ⟨n, hres, hc⟩
  · cases hres
  cases hres
  refine ⟨c, s₁, _, hcreate, hc.vmOwned h, fun v hv => ?_, hcount⟩
  rw [hc.rest.kernelCtx]
  refine (hn v hv).created hc ?_
  rintro rfl
  cases h.owned.trees.kernel.symm.trans hc.unused

theorem new_space {s : VmState} (h : VmOwned s own) (hn : NoHugeWindow s.sys own) (hfree : 5 ≤ s.sys.pmm.clearCount) :
    ∃ c s₁ t own', vmmCreateContext s.sys true = (some c, s₁) ∧
      vmmUserAlloc s₁ c 0x400000 3 vmmFlagsKernelRw (some [7, 8, 9]) 3 = .ok (0, t) ∧
      VmOwned ⟨t, c :: s.ctxs⟩ own' ∧ NoHugeWindow t own' ∧ s.sys.pmm.clearCount ≤ t.pmm.clearCount + 5 ∧
      ∀ s₀, Reach vmStep SpaceCall s₀ s → Reach vmStep SpaceCall s₀ ⟨t, c :: s.ctxs⟩ := by
  obtain ⟨c, s₁, own₁, hcreate, h₁, hn₁, hcount⟩ := new_context h hn (by omega)
  obtain ⟨t, own', ht, heff, hhuge, hle⟩ := userAlloc_ok (show vmmFlagsKernelRw &&& pteFrameMask = 0 by decide)
    (some [7, 8, 9]) h₁.owned ((h₁.roots c).2 List.mem_cons_self) (show 0x400000 % 4096 = 0 by decide)
    (show 0x400000 + 3 ≤ userSpaceEnd by decide) (by decide) (Nat.le_refl 3) (by simp only; omega)
  refine ⟨c, s₁, t, own', hcreate, ht, heff.vmOwned h₁, fun v hv => ?_, by simp only at hle; omega, fun s₀ hr => ?_⟩
  · rw [heff.kernelCtx]
    exact hhuge _ v (hn₁ v hv)
  · refine .tail (s := ⟨s₁, c :: s.ctxs⟩) (a := .userAlloc c 0x400000 3 vmmFlagsKernelRw (some [7, 8, 9]) 3)
      (.tail (a := .create true) hr trivial ?_) ⟨List.mem_cons_self, by decide⟩ ?_
    · simp only [vmStep, hcreate]
    · simp only [vmStep, ht]

/-- Two address spaces in the machine of `boot_ok`, a page of the heap, and the end of the first space. -/
theorem one_owner_of_new_context : ∃ s₀ c s₁ s₂ d s₃ s₄ res s₅ s, initVmm bootMem bootPmm 0x1000 true = .ok s₀ ∧
    vmmCreateContext (initKheap s₀) true = (some c, s₁) ∧
    vmmUserAlloc s₁ c 0x400000 3 vmmFlagsKernelRw (some [7, 8, 9]) 3 = .ok (0, s₂) ∧
    vmmCreateContext s₂ true = (some d, s₃) ∧
    vmmUserAlloc s₃ d 0x400000 3 vmmFlagsKernelRw (some [7, 8, 9]) 3 = .ok (0, s₄) ∧
    sysSbrk s₄ 1 = .ok (res, s₅) ∧ vmStep ⟨s₅, [d, c, s₀.kernelCtx]⟩ (.destroy c) = some s ∧
    (∀ pl pl' f, Owner s pl f → Owner s pl' f → pl = pl') ∧ ∀ g ∈ s.sys.pmm.frees, g ∈ s₀.pmm.frees ∨ g.2 = true := by
  obtain ⟨s₀, own₀, hinit, h₀, hn₀, hfree⟩ := boot_state
  obtain ⟨c, s₁, s₂, own₂, hc, ha, h₂, hn₂, hle, hr₁⟩ := new_space h₀ hn₀ (by simp only; omega)
  obtain ⟨d, s₃, s₄, own₄, hd, hb, h₄, hn₄, -, hr₂⟩ := new_space h₂ hn₂ (by simp only at hle ⊢; omega)
  obtain ⟨heap, hh⟩ := h₄.heap
  have hfits : FitsBreak heap 1 := hh.fits ⟨by decide, by decide⟩
  obtain ⟨res, s₅, hs⟩ := sbrk_returns h₄.owned hn₄ hh hfits
  have hr₃ : Reach vmStep SpaceCall ⟨initKheap s₀, [s₀.kernelCtx]⟩ ⟨s₅, [d, c, s₀.kernelCtx]⟩ := by
    refine .tail (a := .sbrk 1) (hr₂ _ (hr₁ _ .refl)) (fun heap' hloaded => ?_) ?_
    · rw [Option.some.inj (hloaded.symm.trans hh.loaded)]
      exact hfits
    · simp only [vmStep, hs]
  have hr₄ := Reach.tail (a := .destroy c) hr₃ (List.mem_cons_of_mem _ List.mem_cons_self) rfl
  obtain ⟨hone, -, -, hfrees⟩ := frame_has_one_owner limineTables_boot windowFree_boot hinit hr₄
  exact ⟨s₀, c, s₁, s₂, d, s₃, s₄, res, s₅, _, hinit, hc, ha, hd, hb, hs, rfl, hone, hfrees⟩

end Boot

end ToastOS.Mmu
