import ToastOS.Lib.Tree
import ToastOS.Mmu.Entry

/-!
# The page-table trees of the contexts

Every table is labelled with the PML4 of its tree and the slots that lead to it. The kernel half is the kernel's: a
context holds copies of the kernel's PML4 entries there, and a table below them is labelled with the kernel's PML4.

* `Trees s own` : the labels `own` fit the tables in memory, and every labelled frame is marked;
* `Linked` : what `get_or_alloc_table` does to one slot;
* `Grow` : what walking down a path with it does to all tables (`map_spec` for the whole of `vmm_map_page`).
-/

namespace ToastOS.Mmu

open ToastOS.Lib Function

variable {f i j k n r x : Nat} {p q : List Nat} {m : Mem} {s₁ : MemState} {level : TableLevel}

abbrev Label := Nat → Option (Nat × List Nat)

def child (m : Mem) (t i : Nat) : Option Nat :=
  if has (entry m t i) ptePresent && !has (entry m t i) ptePs then some (frameOf (entry m t i)) else none

/-- A place in the tree of `r`: the user half, or any slot of the kernel's PML4 `k`. -/
def InTree (k r : Nat) (p : List Nat) : Prop := (∀ i ∈ p, i < 512) ∧ (r = k ∨ ∀ i ∈ p.head?, i < 256)

/-- A place for a table. -/
def Inside (k r : Nat) (p : List Nat) : Prop := p.length ≤ 3 ∧ InTree k r p

structure Trees (s : MemState) (own : Label) : Prop where
  pmm : s.pmm.Ok
  frame : ∀ {f pl}, own f = some pl → IsFrame f ∧ s.pmm.marked (f / 4096) = true
  root : ∀ {f r p}, own f = some (r, p) → own r = some (r, [])
  inTree : ∀ {f r p}, own f = some (r, p) → InTree s.kernelCtx r p
  kernel : own s.kernelCtx = some (s.kernelCtx, [])
  labelled : Labelled (child s.mem) own (Inside s.kernelCtx)
  noHuge : ∀ {t r p i}, own t = some (r, p) → Inside s.kernelCtx r (p ++ [i]) → (∀ j ∈ (p ++ [i]).head?, j < 256) →
    has (entry s.mem t i) ptePresent = true → has (entry s.mem t i) ptePs = false

theorem InTree.of_append (h : InTree k r (p ++ q)) : InTree k r p := by
  refine ⟨fun i hi => h.1 i (List.mem_append_left _ hi), ?_⟩
  rcases h.2 with hk | hh
  · exact .inl hk
  · refine .inr fun i hi => hh i ?_
    cases p with
    | nil => cases hi
    | cons a p => exact hi

theorem Inside.of_append (h : Inside k r (p ++ q)) : Inside k r p := by
  refine ⟨?_, h.2.of_append⟩
  have := h.1
  rw [List.length_append] at this
  omega

theorem Inside.slot_lt (h : Inside k r (p ++ [i])) : i < 512 :=
  h.2.1 i (List.mem_append_right _ List.mem_cons_self)

section Trees

variable {s s' : MemState} {own : Label} {t u : Nat} {flags e : Entry}

theorem child_of_not_present (h : has (entry s.mem t i) ptePresent = false) : child s.mem t i = none := by
  rw [child, h]; rfl

theorem child_congr {m' : Mem} (h : entry m' t i = entry m t i) : child m' t i = child m t i := by
  rw [child, child, h]

/-- Walking the tables of a tree and reading the labels is the same. -/
theorem Trees.walk_iff (h : Trees s own) (hr : own r = some (r, [])) (hp : Inside s.kernelCtx r p) :
    walk (child s.mem) r p = some u ↔ own u = some (r, p) :=
  h.labelled.walk_iff hr (fun _ _ hi => hi.of_append) p hp u

theorem Trees.aligned (h : Trees s own) {pl : Nat × List Nat} (hf : own f = some pl) : f % 4096 = 0 := (h.frame hf).1.1

theorem Trees.congr (h : Trees s own) (hk : s'.kernelCtx = s.kernelCtx) (hpmm : s'.pmm.Ok)
    (hmark : ∀ f pl, own f = some pl → s'.pmm.marked (f / 4096) = true)
    (hchild : ∀ t r p i, own t = some (r, p) → Inside s.kernelCtx r (p ++ [i]) → child s'.mem t i = child s.mem t i)
    (hhuge : ∀ t r p i, own t = some (r, p) → Inside s.kernelCtx r (p ++ [i]) → has (entry s'.mem t i) ptePresent = true →
      has (entry s'.mem t i) ptePs = true → has (entry s.mem t i) ptePresent = true ∧ has (entry s.mem t i) ptePs = true) :
    Trees s' own := by
  refine ⟨hpmm, fun hf => ⟨(h.frame hf).1, hmark _ _ hf⟩, h.root, ?_, ?_, ⟨h.labelled.root, ?_, ?_⟩, ?_⟩
  · rw [hk]; exact h.inTree
  · rw [hk]; exact h.kernel
  · intro t r p i u ht hin hc
    rw [hk] at hin
    rw [hchild t r p i ht hin] at hc
    exact h.labelled.slot ht hin hc
  · intro u r p i hu hin
    rw [hk] at hin
    obtain ⟨t, ht, hc⟩ := h.labelled.linked hu hin
    exact ⟨t, ht, by rw [hchild t r p i ht hin]; exact hc⟩
  · intro t r p i ht hin hhead hpres
    rw [hk] at hin
    by_contra hps
    rw [Bool.not_eq_false] at hps
    obtain ⟨h1, h2⟩ := hhuge t r p i ht hin hpres hps
    exact absurd h2 (by rw [h.noHuge ht hin hhead h1]; decide)

def linkEntry (n : Nat) (flags : Entry) : Entry := BitVec.ofNat 64 n ||| ptePresent ||| pteWrite ||| (flags &&& pteUser)

theorem has_linkEntry {flag : Entry} (hn : IsFrame f) (hf : pteFrameMask &&& flag = 0) :
    has (linkEntry f flags) flag = (has ptePresent flag || has pteWrite flag || has flags (pteUser &&& flag)) := by
  rw [linkEntry, has_or, has_or, has_or, has_ofNat hn hf, has_and, Bool.false_or]

theorem present_linkEntry (hn : IsFrame f) : has (linkEntry f flags) ptePresent = true := by
  rw [has_linkEntry hn (by decide), show has ptePresent ptePresent = true by decide]; rfl

theorem write_linkEntry (hn : IsFrame f) : has (linkEntry f flags) pteWrite = true := by
  rw [has_linkEntry hn (by decide), show has pteWrite pteWrite = true by decide, Bool.or_true, Bool.true_or]

theorem user_linkEntry (hn : IsFrame f) : has (linkEntry f flags) pteUser = has flags pteUser := by
  rw [has_linkEntry hn (by decide), show has ptePresent pteUser = false by decide,
    show has pteWrite pteUser = false by decide, show pteUser &&& pteUser = pteUser by decide, Bool.false_or, Bool.false_or]

theorem ps_linkEntry (hn : IsFrame f) : has (linkEntry f flags) ptePs = false := by
  rw [has_linkEntry hn (by decide), show has ptePresent ptePs = false by decide,
    show has pteWrite ptePs = false by decide, show pteUser &&& ptePs = 0 by decide, has_zero]; rfl

theorem frameOf_linkEntry (hn : IsFrame f) : frameOf (linkEntry f flags) = f := by
  have hu : (flags &&& pteUser) &&& pteFrameMask = 0 := by
    rw [BitVec.and_assoc, show pteUser &&& pteFrameMask = 0#64 by decide, BitVec.and_zero]; rfl
  rw [linkEntry, frameOf_or hu, frameOf_or (by decide), frameOf_or (by decide), frameOf_ofNat hn]

theorem child_of_link {t : Nat} (hn : IsFrame f) (he : entry m t i = linkEntry f flags) : child m t i = some f := by
  rw [child, he, present_linkEntry hn, ps_linkEntry hn, frameOf_linkEntry hn]
  rfl

/-- What `get_or_alloc_table` can make of an entry. -/
def Upgrade (flags e e' : Entry) : Prop :=
  (has e ptePresent = true ∧ has flags pteUser = true ∧ e' = e ||| pteUser) ∨
    (has e ptePresent = false ∧ ∃ n, IsFrame n ∧ e' = linkEntry n flags)

theorem frameOf_or_user (e : Entry) : frameOf (e ||| pteUser) = frameOf e := frameOf_or (by decide)

theorem has_or_user {flag : Entry} (h : has pteUser flag = false) : has (e ||| pteUser) flag = has e flag := by
  rw [has_or, h, Bool.or_false]

/-- One more labelled table, once the labels fit the tables. -/
theorem Trees.add (h : Trees s own) (hn : IsFrame n) (hfree : own n = none) (hpmm : s'.pmm.Ok)
    (hk : s'.kernelCtx = s.kernelCtx) (hmark : ∀ f, f = n ∨ (∃ pl, own f = some pl) → s'.pmm.marked (f / 4096) = true)
    (hroot : update own n (some (r, p)) r = some (r, [])) (hin : InTree s.kernelCtx r p)
    (hlabelled : Labelled (child s'.mem) (update own n (some (r, p))) (Inside s.kernelCtx))
    (hhuge : ∀ {t c q i}, update own n (some (r, p)) t = some (c, q) → Inside s.kernelCtx c (q ++ [i]) →
      (∀ j ∈ (q ++ [i]).head?, j < 256) → has (entry s'.mem t i) ptePresent = true → has (entry s'.mem t i) ptePs = false) :
    Trees s' (update own n (some (r, p))) := by
  have hold : ∀ {f pl}, own f = some pl → update own n (some (r, p)) f = some pl :=
    fun hf => update_of_fresh hfree hf
  have hcases : ∀ {f pl}, update own n (some (r, p)) f = some pl → (f = n ∧ pl = (r, p)) ∨ own f = some pl :=
    fun hf => (update_some_iff.1 hf).imp_right And.right
  rw [← hk] at hlabelled
  refine ⟨hpmm, ?_, ?_, ?_, ?_, hlabelled, fun ht hin => hhuge ht (hk ▸ hin)⟩
  · intro f pl hf
    rcases hcases hf with ⟨rfl, -⟩ | hf
    · exact ⟨hn, hmark _ (.inl rfl)⟩
    · exact ⟨(h.frame hf).1, hmark f (.inr ⟨pl, hf⟩)⟩
  · intro f c q hf
    rcases hcases hf with ⟨-, heq⟩ | hf
    · cases heq
      exact hroot
    · exact hold (h.root hf)
  · intro f c q hf
    rw [hk]
    rcases hcases hf with ⟨-, heq⟩ | hf
    · cases heq
      exact hin
    · exact h.inTree hf
  · rw [hk]
    exact hold h.kernel

/-- A new table under an empty slot: the label grows by one. -/
theorem Trees.link (h : Trees s own) (ht : own t = some (r, p)) (hin : Inside s.kernelCtx r (p ++ [i]))
    (hslot : has (entry s.mem t i) ptePresent = false) (hn : IsFrame n) (hfree : own n = none)
    (hpmm : s'.pmm.Ok) (hk : s'.kernelCtx = s.kernelCtx)
    (hmark : ∀ f, f = n ∨ (∃ pl, own f = some pl) → s'.pmm.marked (f / 4096) = true)
    (hnew : entry s'.mem t i = linkEntry n flags) (hzero : ∀ j < 512, entry s'.mem n j = 0)
    (hkept : ∀ v pl, own v = some pl → ∀ j < 512, v ≠ t ∨ j ≠ i → entry s'.mem v j = entry s.mem v j) :
    Trees s' (update own n (some (r, p ++ [i]))) := by
  have hold : ∀ {f pl}, own f = some pl → update own n (some (r, p ++ [i])) f = some pl :=
    fun hf => update_of_fresh hfree hf
  have hcases : ∀ {f pl}, update own n (some (r, p ++ [i])) f = some pl →
      (f = n ∧ pl = (r, p ++ [i])) ∨ own f = some pl :=
    fun hf => (update_some_iff.1 hf).imp_right And.right
  have hchild : child s'.mem t i = some n := child_of_link hn hnew
  have hnone : ∀ j < 512, child s'.mem n j = none := by
    intro j hj
    rw [child, hzero j hj, zero_has]; rfl
  refine h.add hn hfree hpmm hk hmark (hold (h.root ht)) hin.2 ⟨?_, ?_, ?_⟩ ?_
  · intro f c hf
    rcases hcases hf with ⟨-, heq⟩ | hf
    · exact absurd (congrArg Prod.snd heq) (by simp)
    · exact h.labelled.root hf
  · intro v c q j w hv hj hc
    rcases hcases hv with ⟨rfl, -⟩ | hvo
    · rw [hnone j hj.slot_lt] at hc; cases hc
    · by_cases hvt : v = t ∧ j = i
      · obtain ⟨rfl, rfl⟩ := hvt
        rw [ht] at hvo; cases hvo
        rw [hchild] at hc; cases hc
        exact update_self _ _ _
      · rw [child_congr (hkept v _ hvo j hj.slot_lt (not_and_or.1 hvt))] at hc
        exact hold (h.labelled.slot hvo hj hc)
  · intro w c q j hw hj
    rcases hcases hw with ⟨rfl, heq⟩ | hw
    · obtain ⟨rfl, hq⟩ := Prod.mk.inj heq
      obtain ⟨rfl, hji⟩ := List.append_inj' hq rfl
      cases hji
      exact ⟨t, hold ht, hchild⟩
    · obtain ⟨v, hv, hc⟩ := h.labelled.linked hw hj
      refine ⟨v, hold hv, ?_⟩
      rw [child_congr (hkept v _ hv j hj.slot_lt ?_)]
      · exact hc
      · by_contra hvt
        rw [not_or, not_not, not_not] at hvt
        obtain ⟨rfl, rfl⟩ := hvt
        rw [child_of_not_present hslot] at hc; cases hc
  · intro v c q j hv hj hhead hpres
    rcases hcases hv with ⟨rfl, -⟩ | hv
    · rw [hzero j hj.slot_lt, zero_has] at hpres; cases hpres
    · by_cases hvt : v = t ∧ j = i
      · obtain ⟨rfl, rfl⟩ := hvt
        rw [hnew]; exact ps_linkEntry hn
      · have he := hkept v _ hv j hj.slot_lt (not_and_or.1 hvt)
        rw [he] at hpres ⊢
        exact h.noHuge hv hj hhead hpres

end Trees

/-- The rest of the state, with the manager's size and the frames it was given back. -/
structure SameRest (s s' : MemState) : Prop where
  kernelCtx : s'.kernelCtx = s.kernelCtx
  nxEnabled : s'.nxEnabled = s.nxEnabled
  cr3 : s'.cr3 = s.cr3
  heap : s'.heap = s.heap
  log : s'.log = s.log
  frees : s'.pmm.frees = s.pmm.frees
  bytes : s'.pmm.bitmapBytes = s.pmm.bitmapBytes
  balanced : Balanced s.pmm s'.pmm

theorem SameRest.refl (s : MemState) : SameRest s s := ⟨rfl, rfl, rfl, rfl, rfl, rfl, rfl, .refl _⟩

theorem SameRest.trans {s₂ s₃ : MemState} (h : SameRest s₁ s₂) (h' : SameRest s₂ s₃) : SameRest s₁ s₃ :=
  ⟨h'.kernelCtx.trans h.kernelCtx, h'.nxEnabled.trans h.nxEnabled, h'.cr3.trans h.cr3, h'.heap.trans h.heap,
    h'.log.trans h.log, h'.frees.trans h.frees, h'.bytes.trans h.bytes,
    h.balanced.trans h'.balanced⟩

/-- The byte at `x` is in a frame that is in use, and not for a table. -/
def IsData (s : MemState) (own : Label) (x : Nat) : Prop :=
  s.pmm.marked (x / 4096) = true ∧ ∀ r q, own (x / 4096 * 4096) = some (r, q) → 3 < q.length

def Exhausted (s : MemState) : Prop := ∀ n < 8 * s.pmm.bitmapBytes, s.pmm.marked n = true

/-- Slot `i` of the table `t`, which is at `p` in the tree of `r`, leads to the table `u` now. -/
structure Linked (s : MemState) (own : Label) (s' : MemState) (own' : Label) (t r : Nat) (p : List Nat) (i u : Nat)
    (flags : Entry) : Prop where
  trees : Trees s' own'
  there : own' u = some (r, p ++ [i])
  kept : ∀ {f pl}, own f = some pl → own' f = some pl
  added : ∀ {f pl}, own' f = some pl → own f = some pl ∨
    (f = u ∧ own u = none ∧ s.pmm.marked (u / 4096) = false ∧ pl = (r, p ++ [i]))
  slot : entry s'.mem t i = entry s.mem t i ∨ Upgrade flags (entry s.mem t i) (entry s'.mem t i)
  user : has flags pteUser = true → has (entry s'.mem t i) pteUser = true
  others : ∀ {v pl j}, own v = some pl → j < 512 → v ≠ t ∨ j ≠ i → entry s'.mem v j = entry s.mem v j
  zero : own u = none → ∀ {j}, j < 512 → entry s'.mem u j = 0
  marks : ∀ n, s'.pmm.marked n = true ↔ s.pmm.marked n = true ∨ (own u = none ∧ n = u / 4096)
  count : s.pmm.clearCount = s'.pmm.clearCount + if own u = none then 1 else 0
  taken : own u = none → u ≠ 0 ∧ u / 4096 < 8 * s.pmm.bitmapBytes
  data : ∀ {x}, IsData s own x → s'.mem x = s.mem x
  rest : SameRest s s'

section Linked

variable {s s' : MemState} {own : Label} {t u : Nat} {flags : Entry} {res : Option Nat}

/-- An entry of a table is not data, and neither is a free frame. -/
theorem IsData.setEntry (hx : IsData s own x) (ht : own t = some (r, p)) (hp : p.length ≤ 3)
    (hal : t % 4096 = 0) (hi : i < 512) (e : Entry) : setEntry m t i e x = m x := by
  refine sameOn_write64 m e (n := 1) ?_ x (Nat.le_refl x) (Nat.lt_succ_self x)
  by_contra hin
  have hframe : x / 4096 * 4096 = t := by omega
  exact absurd (hx.2 r p (hframe ▸ ht)) (Nat.not_lt.2 hp)

theorem IsData.zeroFrame (hx : IsData s own x) (hn : n % 4096 = 0) (hm : s.pmm.marked (n / 4096) = false) :
    zeroFrame m n x = m x := by
  refine sameOn_fill m 0 (n := 1) ?_ x (Nat.le_refl x) (Nat.lt_succ_self x)
  by_contra hin
  have hframe : x / 4096 = n / 4096 := by omega
  have := hx.1
  rw [hframe, hm] at this
  cases this

/-- The frames that are handed out are free, so no table is there. -/
theorem Trees.fresh (h : Trees s own) (hn : s.pmm.marked (n / 4096) = false) : own n = none := by
  cases hc : own n with
  | none => rfl
  | some pl =>
    have := (h.frame hc).2
    rw [hn] at this
    cases this

/-- A write to one slot leaves the other slots of the tables alone. -/
theorem Trees.entry_setEntry {v : Nat} {pl : Nat × List Nat} {e : Entry} (h : Trees s own) (ht : own t = some (r, p))
    (hi : i < 512) (hv : own v = some pl) (hj : j < 512) (hne : v ≠ t ∨ j ≠ i) :
    entry (setEntry m t i e) v j = entry m v j := by
  by_cases hvt : v = t
  · rw [hvt]
    exact entry_setEntry_slot (Ne.symm (hne.resolve_left (not_not.2 hvt)))
  · exact entry_setEntry_table (h.aligned ht) (h.aligned hv) (Ne.symm hvt) hi hj

theorem Trees.user (h : Trees s own) (ht : own t = some (r, p)) (hi : i < 512) :
    Trees { s with mem := setEntry s.mem t i (entry s.mem t i ||| pteUser) } own := by
  have hsame : ∀ {v c q j}, own v = some (c, q) → Inside s.kernelCtx c (q ++ [j]) →
      entry (setEntry s.mem t i (entry s.mem t i ||| pteUser)) v j = entry s.mem v j ∨
        entry (setEntry s.mem t i (entry s.mem t i ||| pteUser)) v j = entry s.mem v j ||| pteUser := by
    intro v c q j hv hj
    by_cases hvt : v = t ∧ j = i
    · obtain ⟨rfl, rfl⟩ := hvt
      exact .inr entry_setEntry_same
    · exact .inl (h.entry_setEntry ht hi hv hj.slot_lt (not_and_or.1 hvt))
  have hbits : ∀ {v c q j}, own v = some (c, q) → Inside s.kernelCtx c (q ++ [j]) → ∀ flag, has pteUser flag = false →
      has (entry (setEntry s.mem t i (entry s.mem t i ||| pteUser)) v j) flag = has (entry s.mem v j) flag := by
    intro v c q j hv hj flag hflag
    rcases hsame hv hj with he | he
    · rw [he]
    · rw [he, has_or_user hflag]
  refine h.congr rfl h.pmm (fun f pl hf => (h.frame hf).2) ?_ ?_
  · intro v c q j hv hj
    have hframe : frameOf (entry (setEntry s.mem t i (entry s.mem t i ||| pteUser)) v j) = frameOf (entry s.mem v j) := by
      rcases hsame hv hj with he | he
      · rw [he]
      · rw [he, frameOf_or_user]
    rw [child, child, hbits hv hj ptePresent (by decide), hbits hv hj ptePs (by decide), hframe]
  · intro v c q j hv hj h1 h2
    rw [hbits hv hj ptePresent (by decide)] at h1
    rw [hbits hv hj ptePs (by decide)] at h2
    exact ⟨h1, h2⟩

/-- The slot leads to a table already; its entry may be opened for user pages. -/
theorem Linked.there_already {m' : Mem} (hu : own u = some (r, p ++ [i])) (htrees : Trees { s with mem := m' } own)
    (hslot : entry m' t i = entry s.mem t i ∨ Upgrade flags (entry s.mem t i) (entry m' t i))
    (huser : has flags pteUser = true → has (entry m' t i) pteUser = true)
    (hothers : ∀ {v pl j}, own v = some pl → j < 512 → v ≠ t ∨ j ≠ i → entry m' v j = entry s.mem v j)
    (hdata : ∀ {x}, IsData s own x → m' x = s.mem x) : Linked s own { s with mem := m' } own t r p i u flags := by
  have hused : own u = none → False := by
    rw [hu]
    exact Option.some_ne_none _
  refine ⟨htrees, hu, id, .inl, hslot, huser, hothers, fun hn => (hused hn).elim, fun n => ?_, ?_,
    fun hn => (hused hn).elim, hdata, ⟨rfl, rfl, rfl, rfl, rfl, rfl, rfl, .refl _⟩⟩
  · exact ⟨.inl, fun hn => hn.resolve_right fun hx => hused hx.1⟩
  · rw [if_neg hused]
    rfl

theorem Linked.opened (h : Trees s own) (ht : own t = some (r, p)) (hin : Inside s.kernelCtx r (p ++ [i]))
    (hu : own u = some (r, p ++ [i])) (hp : has (entry s.mem t i) ptePresent = true) (hf : has flags pteUser = true) :
    Linked s own { s with mem := setEntry s.mem t i (entry s.mem t i ||| pteUser) } own t r p i u flags := by
  have hself : entry (setEntry s.mem t i (entry s.mem t i ||| pteUser)) t i = entry s.mem t i ||| pteUser :=
    entry_setEntry_same
  refine .there_already hu (h.user ht hin.slot_lt) (.inr (.inl ⟨hp, hf, hself⟩)) (fun _ => ?_)
    (fun hv hj hne => h.entry_setEntry ht hin.slot_lt hv hj hne)
    fun hx => hx.setEntry ht hin.of_append.1 (h.aligned ht) hin.slot_lt _
  rw [hself, has_or, show has pteUser pteUser = true by decide, Bool.or_true]

theorem Linked.made (h : Trees s own) (ht : own t = some (r, p)) (hin : Inside s.kernelCtx r (p ++ [i]))
    (hp : has (entry s.mem t i) ptePresent = false) (hn : IsFrame n) (hpos : n ≠ 0) (hm : s.pmm.marked (n / 4096) = false)
    (ha : pmmAlloc s.pmm = (n, allocFrame s.pmm n)) (hcount : s.pmm.clearCount = (allocFrame s.pmm n).clearCount + 1) :
    Linked s own { s with mem := setEntry (zeroFrame s.mem n) t i (linkEntry n flags), pmm := allocFrame s.pmm n }
      (update own n (some (r, p ++ [i]))) t r p i n flags := by
  have hfree : own n = none := h.fresh hm
  have hapart : ∀ {v pl}, own v = some pl → n ≠ v := by
    rintro v pl hv rfl
    rw [hfree] at hv
    cases hv
  have hothers : ∀ {v pl j}, own v = some pl → j < 512 → v ≠ t ∨ j ≠ i →
      entry (setEntry (zeroFrame s.mem n) t i (linkEntry n flags)) v j = entry s.mem v j := by
    intro v pl j hv hj hne
    rw [h.entry_setEntry ht hin.slot_lt hv hj hne, entry_zeroFrame hn.1 (h.aligned hv) (hapart hv) hj]
  have hzero : ∀ j < 512, entry (setEntry (zeroFrame s.mem n) t i (linkEntry n flags)) n j = 0 := by
    intro j hj
    rw [entry_setEntry_table (h.aligned ht) hn.1 (hapart ht).symm hin.slot_lt hj, entry_zeroFrame_same hj]
  have hmarks : ∀ f, (allocFrame s.pmm n).marked f = true ↔ s.pmm.marked f = true ∨ (own n = none ∧ f = n / 4096) := by
    intro f
    rw [marked_allocFrame, Bool.or_eq_true, decide_eq_true_iff, hfree]
    simp
  refine ⟨?_, update_self _ _ _, fun hf => update_of_fresh hfree hf, ?_,
    .inr (.inr ⟨hp, _, hn, entry_setEntry_same⟩), ?_, hothers, fun _ {j} hj => hzero j hj, hmarks, ?_,
    fun _ => ⟨hpos, pmmAlloc_inRange h.pmm ha hpos⟩,
    fun hx => (hx.setEntry ht hin.of_append.1 (h.aligned ht) hin.slot_lt _).trans (hx.zeroFrame hn.1 hm),
    ⟨rfl, rfl, rfl, rfl, rfl, rfl, rfl, pmmAlloc_balanced h.pmm ha⟩⟩
  · refine h.link ht hin hp hn hfree (h.pmm.allocFrame _) rfl ?_ entry_setEntry_same hzero
      fun v pl hv j hj hne => hothers hv hj hne
    rintro f (rfl | ⟨pl, hf⟩)
    · exact (hmarks _).2 (.inr ⟨hfree, rfl⟩)
    · exact (hmarks _).2 (.inl (h.frame hf).2)
  · intro f pl hf
    rcases update_some_iff.1 hf with ⟨rfl, rfl⟩ | ⟨-, hf⟩
    · exact .inr ⟨rfl, hfree, hm, rfl⟩
    · exact .inl hf
  · intro hf
    show has (entry (setEntry _ t i (linkEntry n flags)) t i) pteUser = true
    rw [entry_setEntry_same, user_linkEntry hn, hf]
  · rw [if_pos hfree]
    exact hcount

theorem getOrAllocTable_spec {v : Nat} (h : Trees s own) (ht : own t = some (r, p))
    (hin : Inside s.kernelCtx r (p ++ [i])) (hok : getOrAllocTable s t i flags v level = .ok (res, s')) :
    (res = none ∧ s' = s ∧ has (entry s.mem t i) ptePresent = false ∧ Exhausted s) ∨
      ∃ u own', res = some u ∧ Linked s own s' own' t r p i u flags := by
  unfold getOrAllocTable at hok
  simp only at hok
  split at hok
  · rename_i hp
    split at hok
    · cases hok
    · rename_i hps
      rw [Bool.not_eq_true] at hps
      have hchild : child s.mem t i = some (frameOf (entry s.mem t i)) := by rw [child, hp, hps]; rfl
      have hthere := h.labelled.slot ht hin hchild
      split at hok
      · rename_i hu
        cases hok
        rw [frameOf_or_user]
        exact .inr ⟨_, own, rfl, .opened h ht hin hthere hp (Bool.and_eq_true_iff.1 hu).1⟩
      · rename_i hu
        cases hok
        refine .inr ⟨_, own, rfl, .there_already hthere h (.inl rfl) (fun hf => ?_) (fun _ _ _ => rfl) fun _ => rfl⟩
        by_contra hne
        rw [Bool.not_eq_true] at hne
        exact hu (by rw [hf, hne]; rfl)
  · rename_i hp
    rw [Bool.not_eq_true] at hp
    rcases pmmAlloc_frame h.pmm with ⟨ha, hfull⟩ | ⟨n, hn, hpos, hm, ha, hcount⟩
    · rw [ha] at hok
      cases hok
      exact .inl ⟨rfl, rfl, hp, hfull⟩
    · rw [ha] at hok
      simp only [hpos, if_false] at hok
      cases hok
      exact .inr ⟨n, _, rfl, .made h ht hin hp hn hpos hm ha hcount⟩

end Linked

/-! ## Walking down a path -/

/-- The tables that are missing along a path. -/
def missing (m : Mem) (r : Nat) (p : List Nat) : Nat :=
  (List.range p.length).countP fun k => (walk (child m) r (p.take (k + 1))).isNone

theorem missing_snoc (m : Mem) (r : Nat) (p : List Nat) (i : Nat) :
    missing m r (p ++ [i]) = missing m r p + if walk (child m) r (p ++ [i]) = none then 1 else 0 := by
  unfold missing
  rw [List.length_append, List.length_singleton, List.range_succ, List.countP_append, List.countP_singleton]
  congr 1
  · apply List.countP_congr
    intro k hk
    have hk := List.mem_range.1 hk
    rw [List.take_append_of_le_length (by omega)]
  · rw [List.take_of_length_le (by simp)]
    simp only [Option.isNone_iff_eq_none]

/-- The tables along the path `p` of the tree of `r` were walked to, and made where there were none. -/
structure Grow (s : MemState) (own : Label) (s' : MemState) (own' : Label) (r : Nat) (p : List Nat) (flags : Entry) :
    Prop where
  trees : Trees s' own'
  kept : ∀ {f pl}, own f = some pl → own' f = some pl
  added : ∀ {f c q}, own' f = some (c, q) → own f = some (c, q) ∨
    (own f = none ∧ s.pmm.marked (f / 4096) = false ∧ c = r ∧ q ≠ [] ∧ q <+: p)
  entries : ∀ {t c q i}, own t = some (c, q) → i < 512 → entry s'.mem t i = entry s.mem t i ∨
    (c = r ∧ q ++ [i] <+: p ∧ Upgrade flags (entry s.mem t i) (entry s'.mem t i))
  fresh : ∀ {t c q i}, own t = none → own' t = some (c, q) → i < 512 → entry s'.mem t i = 0 ∨
    (c = r ∧ q ++ [i] <+: p ∧ Upgrade flags 0 (entry s'.mem t i))
  user : has flags pteUser = true → ∀ {t q i}, own' t = some (r, q) → q ++ [i] <+: p →
    has (entry s'.mem t i) pteUser = true
  marks : ∀ n, s'.pmm.marked n = true ↔ s.pmm.marked n = true ∨ (own (4096 * n) = none ∧ own' (4096 * n) ≠ none)
  count : s.pmm.clearCount = s'.pmm.clearCount + missing s.mem r p
  taken : ∀ {f}, own f = none → own' f ≠ none → f ≠ 0 ∧ f / 4096 < 8 * s.pmm.bitmapBytes
  data : ∀ {x}, IsData s own x → s'.mem x = s.mem x
  rest : SameRest s s'

section Grow

variable {s s₂ s' : MemState} {own own₁ own₂ : Label} {t u c v : Nat} {flags : Entry} {res : Option Nat}

theorem Grow.refl (h : Trees s own) : Grow s own s own r [] flags where
  trees := h
  kept := id
  added := .inl
  entries _ _ := .inl rfl
  fresh h1 h2 _ := by rw [h1] at h2; cases h2
  user _ _ _ _ _ hp := absurd hp.length_le (by simp)
  marks n := by simp
  count := rfl
  taken h1 h2 := absurd h1 h2
  data _ := rfl
  rest := .refl s

theorem not_snoc_isPrefix (p : List Nat) (i : Nat) : ¬ p ++ [i] <+: p := by
  intro h
  have := h.length_le
  rw [List.length_append, List.length_singleton] at this
  omega

theorem Grow.isData (g : Grow s own s₁ own₁ r p flags) (hx : IsData s own x) : IsData s₁ own₁ x := by
  refine ⟨(g.marks _).2 (.inl hx.1), fun c q hq => ?_⟩
  rcases g.added hq with hold | ⟨-, hm, -⟩
  · exact hx.2 c q hold
  · rw [Nat.mul_div_cancel _ (by decide), hx.1] at hm
    cases hm

theorem Grow.unlabelled (g : Grow s own s₁ own₁ r p flags) (hf : own₁ f = none) : own f = none := by
  cases ho : own f with
  | none => rfl
  | some pl =>
    rw [g.kept ho] at hf
    cases hf

/-! One more table on the way down: the path `p` of the tree of `r` was walked to `t`, and now slot `i` of it. -/

section Snoc

variable (g : Grow s own s₁ own₁ r p flags) (hin : Inside s.kernelCtx r (p ++ [i])) (ht : own₁ t = some (r, p))
  (l : Linked s₁ own₁ s₂ own₂ t r p i u flags)

include g l in
theorem Grow.snoc_added (hf : own₂ f = some (c, q)) : own f = some (c, q) ∨
    (own f = none ∧ s.pmm.marked (f / 4096) = false ∧ c = r ∧ q ≠ [] ∧ q <+: p ++ [i]) := by
  rcases l.added hf with hf | ⟨rfl, hn, hm, hpl⟩
  · exact (g.added hf).imp_right fun ⟨h1, h2, h3, h4, h5⟩ => ⟨h1, h2, h3, h4, h5.trans (List.prefix_append p [i])⟩
  · cases hpl
    refine .inr ⟨g.unlabelled hn, ?_, rfl, by simp, List.prefix_rfl⟩
    rw [← Bool.not_eq_true]
    intro hs
    rw [(g.marks _).2 (.inl hs)] at hm
    cases hm

include ht in
/-- The slot that is walked through now has not been touched before. -/
theorem not_isPrefix_of_slot (hv : own₁ v = some (c, q)) (hvt : v = t ∧ j = i) : ¬ q ++ [j] <+: p := by
  obtain ⟨rfl, rfl⟩ := hvt
  rw [ht] at hv
  cases hv
  exact not_snoc_isPrefix _ j

include g ht l in
theorem Grow.snoc_entries (hv : own v = some (c, q)) (hj : j < 512) : entry s₂.mem v j = entry s.mem v j ∨
    (c = r ∧ q ++ [j] <+: p ++ [i] ∧ Upgrade flags (entry s.mem v j) (entry s₂.mem v j)) := by
  have hq := g.kept hv
  by_cases hvt : v = t ∧ j = i
  · have hsame : entry s₁.mem v j = entry s.mem v j :=
      (g.entries hv hj).resolve_right fun hx => not_isPrefix_of_slot ht hq hvt hx.2.1
    obtain ⟨rfl, rfl⟩ := hvt
    rw [ht] at hq
    cases hq
    rw [← hsame]
    exact l.slot.imp_right fun hx => ⟨rfl, List.prefix_rfl, hx⟩
  · rw [l.others hq hj (not_and_or.1 hvt)]
    exact (g.entries hv hj).imp_right fun ⟨h1, h2, h3⟩ => ⟨h1, h2.trans (List.prefix_append p [i]), h3⟩

include g ht l in
theorem Grow.snoc_fresh (hn : own v = none) (hv : own₂ v = some (c, q)) (hj : j < 512) :
    entry s₂.mem v j = 0 ∨ (c = r ∧ q ++ [j] <+: p ++ [i] ∧ Upgrade flags 0 (entry s₂.mem v j)) := by
  rcases l.added hv with hv | ⟨rfl, hnone, -, -⟩
  · by_cases hvt : v = t ∧ j = i
    · have hsame : entry s₁.mem v j = 0 :=
        (g.fresh hn hv hj).resolve_right fun hx => not_isPrefix_of_slot ht hv hvt hx.2.1
      obtain ⟨rfl, rfl⟩ := hvt
      rw [ht] at hv
      cases hv
      have hs := l.slot
      rw [hsame] at hs
      exact hs.imp_right fun hx => ⟨rfl, List.prefix_rfl, hx⟩
    · rw [l.others hv hj (not_and_or.1 hvt)]
      exact (g.fresh hn hv hj).imp_right fun ⟨h1, h2, h3⟩ => ⟨h1, h2.trans (List.prefix_append p [i]), h3⟩
  · exact .inl (l.zero hnone hj)

include g l in
theorem Grow.unique_snoc (hq : Inside s.kernelCtx r q) (hw : own₂ v = some (r, q)) (hu : own₂ c = some (r, q)) : v = c := by
  have hq₂ : Inside s₂.kernelCtx r q := by rwa [l.rest.kernelCtx, g.rest.kernelCtx]
  have hr₂ := l.trees.root l.there
  have h1 := (l.trees.walk_iff hr₂ hq₂).2 hw
  rw [(l.trees.walk_iff hr₂ hq₂).2 hu] at h1
  exact (Option.some.inj h1).symm

include g hin ht l in
theorem Grow.snoc_user (hf : has flags pteUser = true) (hv : own₂ v = some (r, q)) (hle : q ++ [j] <+: p ++ [i]) :
    has (entry s₂.mem v j) pteUser = true := by
  rcases List.prefix_concat_iff.1 hle with heq | hshort
  · -- the slot at the end of the path
    obtain ⟨rfl, hji⟩ := List.append_inj' heq rfl
    cases hji
    obtain rfl := g.unique_snoc l hin.of_append hv (l.kept ht)
    exact l.user hf
  · rcases l.added hv with hv | ⟨-, -, -, hpl⟩
    · have hj : j < 512 := hin.2.1 j (List.mem_append_left _ (hshort.subset (List.mem_append_right _ List.mem_cons_self)))
      have hne : v ≠ t ∨ j ≠ i := not_and_or.1 fun hvt => not_isPrefix_of_slot ht hv hvt hshort
      rw [l.others hv hj hne]
      exact g.user hf hv hshort
    · cases hpl
      have hlen := hshort.length_le
      simp only [List.length_append, List.length_singleton] at hlen
      omega

include g l in
theorem Grow.snoc_marks (n : Nat) :
    s₂.pmm.marked n = true ↔ s.pmm.marked n = true ∨ (own (4096 * n) = none ∧ own₂ (4096 * n) ≠ none) := by
  have hal : n = u / 4096 ↔ 4096 * n = u := by
    have := l.trees.aligned l.there
    omega
  rw [l.marks, g.marks, hal]
  constructor
  · rintro ((h1 | ⟨h1, h2⟩) | ⟨h1, rfl⟩)
    · exact .inl h1
    · obtain ⟨pl, h2⟩ := Option.ne_none_iff_exists'.1 h2
      exact .inr ⟨h1, by rw [l.kept h2]; simp⟩
    · exact .inr ⟨g.unlabelled h1, by rw [l.there]; simp⟩
  · rintro (h1 | ⟨h1, h2⟩)
    · exact .inl (.inl h1)
    · obtain ⟨pl, h2⟩ := Option.ne_none_iff_exists'.1 h2
      rcases l.added h2 with h3 | ⟨h3, h4, -, -⟩
      · exact .inl (.inr ⟨h1, by rw [h3]; simp⟩)
      · exact .inr ⟨h4, h3⟩

include g l in
theorem Grow.snoc_taken (h1 : own f = none) (h2 : own₂ f ≠ none) : f ≠ 0 ∧ f / 4096 < 8 * s.pmm.bitmapBytes := by
  by_cases hf : own₁ f = none
  · obtain ⟨pl, h2⟩ := Option.ne_none_iff_exists'.1 h2
    rcases l.added h2 with hold | ⟨rfl, hn, -⟩
    · rw [hf] at hold
      cases hold
    · rw [← g.rest.bytes]
      exact l.taken hn
  · exact g.taken h1 hf

include g hin l in
/-- The table is new exactly when nothing was at the end of the path before. -/
theorem Grow.new_iff (h : Trees s own) (hr : own r = some (r, [])) : own₁ u = none ↔
    walk (child s.mem) r (p ++ [i]) = none := by
  constructor
  · intro hu
    cases hw : walk (child s.mem) r (p ++ [i]) with
    | none => rfl
    | some w =>
      have hold := (h.walk_iff hr hin).1 hw
      obtain rfl := g.unique_snoc l hin (l.kept (g.kept hold)) l.there
      rw [g.kept hold] at hu
      cases hu
  · intro hw
    by_contra hu
    obtain ⟨pl, hu⟩ := Option.ne_none_iff_exists'.1 hu
    have hpl := l.kept hu
    rw [l.there] at hpl
    cases hpl
    rcases g.added hu with hs | ⟨-, -, -, -, hle⟩
    · rw [(h.walk_iff hr hin).2 hs] at hw
      cases hw
    · exact not_snoc_isPrefix p i hle

include g hin ht l in
theorem Grow.snoc (h : Trees s own) (hr : own r = some (r, [])) : Grow s own s₂ own₂ r (p ++ [i]) flags where
  trees := l.trees
  kept hf := l.kept (g.kept hf)
  added := g.snoc_added l
  entries := g.snoc_entries ht l
  fresh := g.snoc_fresh ht l
  user hf _ _ _ := g.snoc_user hin ht l hf
  marks := g.snoc_marks l
  count := by
    rw [g.count, l.count, missing_snoc]
    simp only [g.new_iff hin l h hr]
    omega
  taken := g.snoc_taken l
  data hx := (l.data (g.isData hx)).trans (g.data hx)
  rest := g.rest.trans l.rest

end Snoc

end Grow

/-! ## `vmm_map_page` -/

/-- Every context has the kernel's entries in its upper half, and they are present. -/
def SharedHalf (s : MemState) (own : Label) : Prop :=
  ∀ c, own c = some (c, []) → ∀ i, 256 ≤ i → i < 512 →
    entry s.mem c i = entry s.mem s.kernelCtx i ∧ has (entry s.mem s.kernelCtx i) ptePresent = true ∧
      has (entry s.mem s.kernelCtx i) ptePs = false

/-- The tree that an address belongs to. -/
def treeRoot (s : MemState) (ctx vAddr : Nat) : Nat := if pml4Idx vAddr < 256 then ctx else s.kernelCtx

/-- The slots that lead to the page table of an address. -/
def tablePath (vAddr : Nat) : List Nat := [pml4Idx vAddr, pdptIdx vAddr, pdIdx vAddr]

/-- The leaf entry that `vmm_map_page` writes. -/
def leafEntry (pAddr : Nat) (flags : Entry) : Entry := (BitVec.ofNat 64 pAddr &&& pteFrameMask) ||| ptePresent ||| flags

section Map

variable {s s' : MemState} {own : Label} {c v pa : Nat} {flags : Entry} {res : Option Nat}

theorem inside_tablePath (s : MemState) (c v : Nat) : Inside s.kernelCtx (treeRoot s c v) (tablePath v) := by
  refine ⟨Nat.le_refl 3, ?_, ?_⟩
  · intro i hi
    simp only [tablePath, List.mem_cons, List.not_mem_nil, or_false] at hi
    rcases hi with rfl | rfl | rfl <;> exact Nat.mod_lt _ (by decide)
  · unfold treeRoot
    split
    · rename_i hlt
      refine .inr fun i hi => ?_
      cases hi
      exact hlt
    · exact .inl rfl

theorem root_treeRoot (h : Trees s own) (hc : own c = some (c, [])) : own (treeRoot s c v) = some (treeRoot s c v, []) := by
  unfold treeRoot
  split
  · exact hc
  · exact h.kernel

/-- Addresses with an upper-half slot are beyond the user's space. -/
theorem userSpaceEnd_le (h : ¬ pml4Idx v < 256) : userSpaceEnd ≤ v := by
  unfold pml4Idx at h
  show 0x0000800000000000 ≤ v
  omega

/-- In the upper half a context's PML4 is as good as the kernel's. -/
theorem getOrAllocTable_kernelHalf (hsame : entry s.mem c i = entry s.mem s.kernelCtx i)
    (hp : has (entry s.mem s.kernelCtx i) ptePresent = true) (hu : has flags pteUser = false)
    (hok : getOrAllocTable s c i flags v level = .ok (res, s')) :
    getOrAllocTable s s.kernelCtx i flags v level = .ok (res, s') := by
  unfold getOrAllocTable at hok ⊢
  simp only [hsame, hp, if_true, hu, Bool.false_and, Bool.false_eq_true, if_false] at hok ⊢
  split at hok
  · cases hok
  · rename_i hps
    rw [if_neg hps]; exact hok

theorem first_table (h : Trees s own) (hsh : SharedHalf s own) (hc : own c = some (c, []))
    (hv : has flags pteUser = true → v < userSpaceEnd)
    (hok : getOrAllocTable s c (pml4Idx v) flags v .pdpt = .ok (res, s')) :
    (res = none ∧ s' = s ∧ Exhausted s ∧ walk (child s.mem) (treeRoot s c v) [pml4Idx v] = none) ∨
      ∃ u own', res = some u ∧ Grow s own s' own' (treeRoot s c v) [pml4Idx v] flags ∧
        own' u = some (treeRoot s c v, [pml4Idx v]) := by
  have hin : Inside s.kernelCtx (treeRoot s c v) ([] ++ [pml4Idx v]) :=
    Inside.of_append (q := [pdptIdx v, pdIdx v]) (inside_tablePath s c v)
  have hr := root_treeRoot (v := v) h hc
  have hok : getOrAllocTable s (treeRoot s c v) (pml4Idx v) flags v .pdpt = .ok (res, s') := by
    unfold treeRoot
    split
    · exact hok
    · rename_i hge
      obtain ⟨h1, h2, -⟩ := hsh c hc (pml4Idx v) (Nat.le_of_not_lt hge) (Nat.mod_lt _ (by decide))
      refine getOrAllocTable_kernelHalf h1 h2 ?_ hok
      rw [← Bool.not_eq_true]
      exact fun hf => absurd (hv hf) (Nat.not_lt.2 (userSpaceEnd_le hge))
  rcases getOrAllocTable_spec h hr hin hok with ⟨h1, h2, h3, h4⟩ | ⟨u, own', hres, l⟩
  · refine .inl ⟨h1, h2, h4, ?_⟩
    rw [show [pml4Idx v] = [] ++ [pml4Idx v] from rfl, walk_snoc]
    exact child_of_not_present h3
  · exact .inr ⟨u, own', hres, (Grow.refl h).snoc hin hr l h hr, l.there⟩

theorem next_table {own₁ : Label} {t : Nat} (h : Trees s own)
    (hr : own r = some (r, [])) (hin : Inside s.kernelCtx r (p ++ [i])) (g : Grow s own s₁ own₁ r p flags)
    (ht : own₁ t = some (r, p)) (hok : getOrAllocTable s₁ t i flags v level = .ok (res, s')) :
    (res = none ∧ s' = s₁ ∧ Exhausted s₁ ∧ walk (child s.mem) r (p ++ [i]) = none) ∨
      ∃ u own', res = some u ∧ Grow s own s' own' r (p ++ [i]) flags ∧ own' u = some (r, p ++ [i]) := by
  have hin₁ : Inside s₁.kernelCtx r (p ++ [i]) := by rwa [g.rest.kernelCtx]
  rcases getOrAllocTable_spec g.trees ht hin₁ hok with ⟨h1, h2, h3, h4⟩ | ⟨u, own', hres, l⟩
  · refine .inl ⟨h1, h2, h4, ?_⟩
    cases hw : walk (child s.mem) r (p ++ [i]) with
    | none => rfl
    | some w =>
      have hw₁ := g.kept ((h.walk_iff hr hin).1 hw)
      obtain ⟨t', ht', hc⟩ := g.trees.labelled.linked hw₁ hin₁
      have hr₁ := g.kept hr
      have h5 := (g.trees.walk_iff hr₁ hin₁.of_append).2 ht
      have h6 := (g.trees.walk_iff hr₁ hin₁.of_append).2 ht'
      rw [h5] at h6; cases h6
      rw [child_of_not_present h3] at hc; cases hc
  · exact .inr ⟨u, own', hres, g.snoc hin ht l h hr, l.there⟩

/-- How `vmm_map_page` ends: the address was refused; there was no frame for a table; or the page is mapped. -/
inductive MapResult (s : MemState) (own : Label) (c v pa : Nat) (flags : Entry) : Int → MemState → Prop
  | refused (user : has flags pteUser = true) (high : userSpaceEnd ≤ v) : MapResult s own c v pa flags (-1) s
  | failed {s' own' p} (grow : Grow s own s' own' (treeRoot s c v) p flags) (path : p <+: tablePath v)
      (exhausted : Exhausted s') (short : s.pmm.clearCount < missing s.mem (treeRoot s c v) (tablePath v))
      (allowed : has flags pteUser = true → v < userSpaceEnd) : MapResult s own c v pa flags (-1) s'
  | mapped {s' own' pt} (grow : Grow s own s' own' (treeRoot s c v) (tablePath v) flags)
      (table : own' pt = some (treeRoot s c v, tablePath v)) (allowed : has flags pteUser = true → v < userSpaceEnd) :
      MapResult s own c v pa flags 0 { s' with
        mem := setEntry s'.mem pt (ptIdx v) (leafEntry pa flags)
        log := ⟨c, v / 4096, some flags⟩ :: s'.log }

theorem Grow.short {own₁ : Label} (g : Grow s own s₁ own₁ r p flags)
    (he : Exhausted s₁) (hw : walk (child s.mem) r (p ++ [i]) = none) :
    s.pmm.clearCount < missing s.mem r (p ++ [i] ++ q) := by
  have hmono : missing s.mem r (p ++ [i]) ≤ missing s.mem r (p ++ [i] ++ q) := by
    induction q using List.reverseRecOn with
    | nil => rw [List.append_nil]
    | append_singleton q j ih =>
      have hs := missing_snoc s.mem r (p ++ [i] ++ q) j
      rw [← List.append_assoc]
      omega
  have hcount := g.count
  rw [clearCount_eq_zero he] at hcount
  rw [missing_snoc, if_pos hw] at hmono
  omega

/-- What `vmm_map_page` does not refuse for user code is in the lower half. -/
theorem user_of_not_refused (href : ¬(has flags pteUser && decide (v ≥ userSpaceEnd)) = true) :
    has flags pteUser = true → v < userSpaceEnd := by
  intro hu
  by_contra hge
  exact href (Bool.and_eq_true_iff.2 ⟨hu, decide_eq_true (Nat.le_of_not_lt hge)⟩)

theorem map_spec {n : Int} (h : Trees s own) (hsh : SharedHalf s own) (hc : own c = some (c, []))
    (hok : vmmMapPage s c v pa flags = .ok (n, s')) : MapResult s own c v pa flags n s' := by
  unfold vmmMapPage at hok
  split at hok
  · rename_i href
    obtain ⟨h1, h2⟩ := Bool.and_eq_true_iff.1 href
    cases hok
    exact .refused h1 (of_decide_eq_true h2)
  · rename_i href
    have hv := user_of_not_refused href
    have hr := root_treeRoot (v := v) h hc
    have hin := inside_tablePath s c v
    split at hok
    · cases hok
    · -- no PDPT
      rename_i heq
      cases hok
      rcases first_table h hsh hc hv heq with ⟨-, rfl, he, hw⟩ | ⟨u, own', hres, -⟩
      · have g₀ : Grow s' own s' own (treeRoot s' c v) [] flags := .refl h
        exact .failed g₀ List.nil_prefix he (g₀.short (i := pml4Idx v) he hw) hv
      · cases hres
    · rename_i heq
      rcases first_table h hsh hc hv heq with ⟨hres, -⟩ | ⟨u, own₁, hres, g₁, ht₁⟩
      · cases hres
      cases hres
      split at hok
      · cases hok
      · -- no PD
        rename_i heq₂
        cases hok
        rcases next_table h hr hin.of_append (i := pdptIdx v) g₁ ht₁ heq₂ with ⟨-, rfl, he, hw⟩ | ⟨u, own', hres, -⟩
        · exact .failed g₁ ⟨_, rfl⟩ he (g₁.short he hw) hv
        · cases hres
      · rename_i heq₂
        rcases next_table h hr hin.of_append (i := pdptIdx v) g₁ ht₁ heq₂ with ⟨hres, -⟩ | ⟨u, own₂, hres, g₂, ht₂⟩
        · cases hres
        cases hres
        split at hok
        · cases hok
        · -- no PT
          rename_i heq₃
          cases hok
          rcases next_table h hr hin (i := pdIdx v) g₂ ht₂ heq₃ with ⟨-, rfl, he, hw⟩ | ⟨u, own', hres, -⟩
          · have hshort := g₂.short (q := []) he hw
            rw [List.append_nil] at hshort
            exact .failed g₂ ⟨_, rfl⟩ he hshort hv
          · cases hres
        · rename_i heq₃
          rcases next_table h hr hin (i := pdIdx v) g₂ ht₂ heq₃ with ⟨hres, -⟩ | ⟨u, own₃, hres, g₃, ht₃⟩
          · cases hres
          cases hres
          cases hok
          exact .mapped g₃ ht₃ hv

end Map

end ToastOS.Mmu
