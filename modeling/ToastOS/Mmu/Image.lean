import Mathlib.Tactic.Ring
import ToastOS.Mmu.Ownership

/-!
# Loading an image

`vmm_user_alloc` takes a frame for each page, fills it, and maps it, while tables are taken from the same pool. One round
(`PageLoaded`) writes to the new frame, to tables and to frames that were free, so what is in use and is not a table is left
alone (`IsData`); in particular a page that has been loaded keeps its contents in the rounds after it (`ImageLoaded`).
`user_alloc_loads_image` puts this together for a call on any context of a running system.
-/

namespace ToastOS.Mmu

open ToastOS.Lib

/-! ## The labels of the tables alone -/

def tableLabels (own : Label) : Label := fun f => (own f).filter fun l => l.2.length ≤ 3

section Labels

variable {s s' : MemState} {own : Label} {f r : Nat} {q : List Nat}

theorem tableLabels_iff : tableLabels own f = some (r, q) ↔ own f = some (r, q) ∧ q.length ≤ 3 := by
  rw [tableLabels, Option.filter_eq_some_iff, decide_eq_true_iff]

theorem Owned.sys (h : Owned s own) : Sys s (tableLabels own) := by
  have hroot : ∀ {c}, own c = some (c, []) → tableLabels own c = some (c, []) :=
    fun hc => tableLabels_iff.2 ⟨hc, Nat.zero_le 3⟩
  refine ⟨⟨h.trees.pmm, ?_, ?_, ?_, hroot h.trees.kernel, ⟨?_, ?_, ?_⟩, ?_⟩, ?_, ?_⟩
  · rintro f ⟨r, q⟩ hf
    exact h.trees.frame (tableLabels_iff.1 hf).1
  · exact fun hf => hroot (h.trees.root (tableLabels_iff.1 hf).1)
  · exact fun hf => h.trees.inTree (tableLabels_iff.1 hf).1
  · exact fun hu => h.trees.labelled.root (tableLabels_iff.1 hu).1
  · exact fun ht hin hc => tableLabels_iff.2 ⟨h.trees.labelled.slot (tableLabels_iff.1 ht).1 hin hc, hin.1⟩
  · intro u r p i hu hin
    obtain ⟨t, ht, hc⟩ := h.trees.labelled.linked (tableLabels_iff.1 hu).1 hin
    exact ⟨t, tableLabels_iff.2 ⟨ht, hin.of_append.1⟩, hc⟩
  · exact fun ht hin hhead hp => h.trees.noHuge (tableLabels_iff.1 ht).1 hin hhead hp
  · exact fun c hc i h1 h2 => h.shared c (tableLabels_iff.1 hc).1 i h1 h2
  · exact fun f r q hf => (tableLabels_iff.1 hf).2

theorem SameTables.tableLabels (h : SameTables s own s') : SameTables s (tableLabels own) s' :=
  fun t _ ht i hi => h t _ (tableLabels_iff.1 ht).1 i hi

end Labels

/-! ## One page -/

/-- The byte of the image at an offset: zero behind `init_len`, and everywhere without `init`. -/
def imageByte (init : Option (List (BitVec 8))) (initLen o : Nat) : BitVec 8 :=
  match init with
  | some bytes => if o < initLen then bytes.getD o 0 else 0
  | none => 0

/-- The frame `phys` was taken, filled and mapped at `v` in `c`, and nothing else has changed but tables. -/
structure PageLoaded (c v : Nat) (page : Nat → BitVec 8) (phys : Nat) (s : MemState) (own : Label) (s' : MemState)
    (own' : Label) : Prop where
  effect : Effect c s own s' own'
  frame : IsFrame phys
  pos : phys ≠ 0
  free : s.pmm.marked (phys / 4096) = false
  marks : ∀ n, s.pmm.marked n = true → s'.pmm.marked n = true
  bytes : ∀ o < 4096, s'.mem (phys + o) = page o ∧ IsData s' own' (phys + o)
  data : ∀ {x}, IsData s own x → s'.mem x = s.mem x ∧ IsData s' own' x
  maps : ∀ {c' x}, own c' = some (c', []) → Canonical x →
    vmmGetPhys s'.mem c' x = if SamePage c v c' x then phys + x % 4096 else vmmGetPhys s.mem c' x

section Page

variable {s s' : MemState} {own : Label} {c v phys i o initLen : Nat} {flags : Entry} {init : Option (List (BitVec 8))}

theorem getD_initBytes (ho : o < 4096) : (initBytes init initLen i).getD o 0 = imageByte init initLen (i * 4096 + o) := by
  unfold initBytes imageByte
  cases init with
  | none => rfl
  | some bytes =>
    simp only
    generalize i * 4096 = start
    by_cases hi : start < initLen
    · rw [if_pos hi, List.getD_eq_getElem?_getD, List.getElem?_take]
      by_cases hin : start + o < initLen
      · rw [if_pos (by omega), if_pos hin, List.getElem?_drop, List.getD_eq_getElem?_getD]
      · rw [if_neg (by omega), if_neg hin]
        rfl
    · rw [if_neg hi, if_neg (by omega)]
      rfl

theorem filled_page (m : Mem) {l : List (BitVec 8)} (ho : o < 4096) :
    copyIn (zeroFrame m phys) phys l (phys + o) = l.getD o 0 := by
  unfold copyIn
  by_cases hl : o < l.length
  · rw [if_pos ⟨by omega, by omega⟩, Nat.add_sub_cancel_left]
  · rw [if_neg (by omega), List.getD_eq_getElem?_getD, List.getElem?_eq_none (by omega)]
    exact if_pos ⟨by omega, by omega⟩

theorem page_loaded {l : List (BitVec 8)} {pm : Pmm} (ho : Owned s own) (hc : own c = some (c, [])) (hlow : v < userSpaceEnd)
    (hf : flags &&& pteFrameMask = 0) (hl : l.length ≤ 4096) (ha : pmmAlloc s.pmm = (phys, pm)) (hne : phys ≠ 0)
    (hok : vmmMapPage { s with mem := copyIn (zeroFrame s.mem phys) phys l, pmm := pm } c v phys flags = .ok (0, s')) :
    ∃ own', PageLoaded c v (fun o => l.getD o 0) phys s own s' own' := by
  have took := (took_of_alloc ho ha hne hl).2
  have h₁ := (took.effect ho c).owned
  have hfree := ho.trees.fresh took.unmarked
  have hmarked := (took.marks (phys / 4096)).2 (.inr rfl)
  have hcan : Canonical v := .inl hlow
  cases map_spec h₁.trees h₁.shared hc hok with
  | @mapped s₂ own₂ pt grow table =>
    rw [treeRoot_low hlow] at grow table
    have heff := took.mapped ho grow table (fun _ => hlow) hf (tracked_low hlow) (⟨c, v / 4096, some flags⟩ :: s₂.log)
    have hpt := grow.trees.aligned table
    -- a byte that is data keeps its value, and is data still
    have hdata : ∀ {x}, IsData { s with mem := copyIn (zeroFrame s.mem phys) phys l, pmm := pm } own x →
        setEntry s₂.mem pt (ptIdx v) (leafEntry phys flags) x = copyIn (zeroFrame s.mem phys) phys l x ∧
          ∀ r q, relabel own₂ (c, pagePath v) (some phys) (x / 4096 * 4096) = some (r, q) → 3 < q.length := by
      intro x hx
      have hx₂ := grow.isData hx
      refine ⟨(hx₂.setEntry table (Nat.le_refl 3) hpt (ptIdx_lt v) _).trans (grow.data hx), fun r q hq => ?_⟩
      rcases of_relabel hq with ⟨-, he⟩ | ⟨hq, -⟩
      · cases he
        exact show 3 < 4 by decide
      · exact hx₂.2 r q hq
    refine ⟨_, heff, took.frame, took.pos, took.unmarked, fun n hn => (grow.marks n).2 (.inl ((took.marks n).2 (.inl hn))),
      fun o ho => ?_, fun {x} hx => ?_, fun {c' x} hc' hx => ?_⟩
    · have hal := took.frame.1
      have hx : IsData { s with mem := copyIn (zeroFrame s.mem phys) phys l, pmm := pm } own (phys + o) := by
        refine ⟨?_, fun r q hq => ?_⟩
        · rw [show (phys + o) / 4096 = phys / 4096 by omega]
          exact hmarked
        · rw [show (phys + o) / 4096 * 4096 = phys by omega, hfree] at hq
          cases hq
      obtain ⟨h1, h2⟩ := hdata hx
      exact ⟨h1.trans (filled_page s.mem ho), (grow.isData hx).1, h2⟩
    · have hx₁ : IsData { s with mem := copyIn (zeroFrame s.mem phys) phys l, pmm := pm } own x :=
        ⟨(took.marks _).2 (.inl hx.1), hx.2⟩
      obtain ⟨h1, h2⟩ := hdata hx₁
      refine ⟨h1.trans ?_, (grow.isData hx₁).1, h2⟩
      rw [show copyIn (zeroFrame s.mem phys) phys l x = zeroFrame s.mem phys x from ?_,
        hx.zeroFrame took.frame.1 took.unmarked]
      refine sameOn_copyIn (n := 1) _ l ?_ x (Nat.le_refl x) (Nat.lt_succ_self x)
      by_contra hin
      have hframe : x / 4096 = phys / 4096 := by
        have := took.frame.1
        omega
      rw [IsData, hframe, took.unmarked] at hx
      cases hx.1
    · have hroot : ∀ {k}, own k = some (k, []) → tableLabels own k = some (k, []) :=
        fun hk => tableLabels_iff.2 ⟨hk, Nat.zero_le 3⟩
      rw [map_phys h₁.sys (hroot hc) (hroot hc') hcan hx took.frame hf hok,
        phys_keep ho.sys h₁.sys took.kernelCtx took.same.tableLabels (hroot hc')]
      simp only [true_and]

end Page

/-! ## All pages -/

/-- The pages `v + i * 4096` to `v + (i + n) * 4096` of `c` were loaded, page `i + k` into `frames k`. -/
structure ImageLoaded (c v i n : Nat) (image : Nat → BitVec 8) (frames : Nat → Nat) (s : MemState) (own : Label)
    (s' : MemState) (own' : Label) : Prop where
  effect : Effect c s own s' own'
  frame : ∀ k < n, IsFrame (frames k) ∧ frames k ≠ 0 ∧ s.pmm.marked (frames k / 4096) = false
  distinct : ∀ j < n, ∀ k < n, frames j = frames k → j = k
  bytes : ∀ k < n, ∀ o < 4096, s'.mem (frames k + o) = image ((i + k) * 4096 + o) ∧ IsData s' own' (frames k + o)
  data : ∀ {x}, IsData s own x → s'.mem x = s.mem x ∧ IsData s' own' x
  maps : ∀ {c' x}, own c' = some (c', []) → Canonical x → vmmGetPhys s'.mem c' x =
    if c' = c ∧ v + i * 4096 ≤ x ∧ x < v + (i + n) * 4096 then frames ((x - (v + i * 4096)) / 4096) + x % 4096
    else vmmGetPhys s.mem c' x

section Loop

variable {s s₁ s' : MemState} {own own₁ own' : Label} {c v i n phys : Nat} {flags : Entry} {image : Nat → BitVec 8}
  {frames : Nat → Nat}

theorem ImageLoaded.nil (ho : Owned s own) : ImageLoaded c v i 0 image frames s own s own where
  effect := .refl ho c
  frame _ hk := absurd hk (Nat.not_lt_zero _)
  distinct _ hj := absurd hj (Nat.not_lt_zero _)
  bytes _ hk := absurd hk (Nat.not_lt_zero _)
  data hx := ⟨rfl, hx⟩
  maps _ _ := by rw [if_neg (by omega)]

/-- The frames of the first page and of the others. -/
def consFrame (phys : Nat) (frames : Nat → Nat) : Nat → Nat
  | 0 => phys
  | k + 1 => frames k

theorem ImageLoaded.cons (hv : v % 4096 = 0) (hlow : v + i * 4096 < userSpaceEnd)
    (first : PageLoaded c (v + i * 4096) (fun o => image (i * 4096 + o)) phys s own s₁ own₁)
    (rest : ImageLoaded c v (i + 1) n image frames s₁ own₁ s' own') :
    ImageLoaded c v i (n + 1) image (consFrame phys frames) s own s' own' := by
  have hal := first.frame.1
  have hphys : s₁.pmm.marked (phys / 4096) = true := by
    have := (first.bytes 0 (by decide)).2.1
    rwa [Nat.add_zero] at this
  have hfree : ∀ k < n, s.pmm.marked (frames k / 4096) = false := by
    intro k hk
    rw [← Bool.not_eq_true]
    intro hm
    have := first.marks _ hm
    rw [(rest.frame k hk).2.2] at this
    cases this
  refine ⟨first.effect.trans rest.effect, ?_, ?_, ?_, ?_, ?_⟩
  · intro k hk
    cases k with
    | zero => exact ⟨first.frame, first.pos, first.free⟩
    | succ k => exact ⟨(rest.frame k (by omega)).1, (rest.frame k (by omega)).2.1, hfree k (by omega)⟩
  · -- the frames of the later pages were free when the first page had its own
    have hne : ∀ k < n, phys ≠ frames k := by
      rintro k hk rfl
      rw [(rest.frame k hk).2.2] at hphys
      cases hphys
    intro j hj k hk heq
    cases j with
    | zero =>
      cases k with
      | zero => rfl
      | succ k => exact absurd heq (hne k (by omega))
    | succ j =>
      cases k with
      | zero => exact absurd heq.symm (hne j (by omega))
      | succ k => rw [rest.distinct j (by omega) k (by omega) heq]
  · intro k hk o ho
    cases k with
    | zero =>
      obtain ⟨h1, h2⟩ := first.bytes o ho
      obtain ⟨h3, h4⟩ := rest.data h2
      exact ⟨h3.trans h1, h4⟩
    | succ k =>
      obtain ⟨h1, h2⟩ := rest.bytes k (by omega) o ho
      rw [show i + 1 + k = i + (k + 1) by omega] at h1
      exact ⟨h1, h2⟩
  · intro x hx
    obtain ⟨h1, h2⟩ := first.data hx
    obtain ⟨h3, h4⟩ := rest.data h2
    exact ⟨h3.trans h1, h4⟩
  · intro c' x hc' hx
    rw [rest.maps (first.effect.tables (Nat.zero_le 3) hc') hx, first.maps hc' hx]
    have hnext : v + (i + 1) * 4096 = v + i * 4096 + 4096 := by ring
    have htop : v + (i + 1 + n) * 4096 = v + i * 4096 + 4096 + n * 4096 := by ring
    have htop' : v + (i + (n + 1)) * 4096 = v + i * 4096 + 4096 + n * 4096 := by ring
    have hbase : (v + i * 4096) % 4096 = 0 := by omega
    rw [hnext, htop, htop']
    generalize v + i * 4096 = base at hlow hbase ⊢
    generalize n * 4096 = size
    by_cases hlater : c' = c ∧ base + 4096 ≤ x ∧ x < base + 4096 + size
    · rw [if_pos hlater, if_pos ⟨hlater.1, by omega, hlater.2.2⟩,
        show (x - base) / 4096 = (x - (base + 4096)) / 4096 + 1 by omega, consFrame]
    rw [if_neg hlater]
    by_cases hfirst : SamePage c base c' x
    · obtain ⟨hpage, hctx⟩ := id hfirst
      have hctx : c' = c := hctx.resolve_right (Nat.not_le.2 (page_low hpage hlow))
      rw [if_pos hfirst, if_pos ⟨hctx, by omega, by omega⟩, show (x - base) / 4096 = 0 by omega, consFrame]
    · rw [if_neg hfirst, if_neg]
      rintro ⟨rfl, h1, h2⟩
      exact hfirst ⟨by omega, .inl rfl⟩

theorem userAllocLoop_loads {init : Option (List (BitVec 8))} {initLen : Nat} (hv : v % 4096 = 0)
    (hf : flags &&& pteFrameMask = 0) : ∀ (n i : Nat) {s : MemState} {own : Label}, Owned s own → own c = some (c, []) →
      (∀ j < n, v + (i + j) * 4096 < userSpaceEnd) → userAllocLoop c v flags init initLen n i s = .ok (0, s') →
      ∃ frames own', ImageLoaded c v i n (imageByte init initLen) frames s own s' own' := by
  intro n
  induction n with
  | zero =>
    intro i s own ho hc hlow hok
    cases hok
    exact ⟨fun _ => 0, own, .nil ho⟩
  | succ n ih =>
    intro i s own ho hc hlow hok
    have hfirst : v + i * 4096 < userSpaceEnd := hlow 0 (Nat.succ_pos n)
    unfold userAllocLoop at hok
    simp only at hok
    split at hok
    · cases hok
    rename_i hne
    split at hok
    · cases hok
    rename_i res s₁ heq
    split at hok
    · cases hok
    rename_i hres
    rw [not_not] at hres
    subst hres
    obtain ⟨own₁, hpage⟩ := page_loaded ho hc hfirst (frame_or_user hf) (length_initBytes init initLen i) rfl hne heq
    obtain ⟨frames, own', hrest⟩ := ih (i + 1) hpage.effect.owned (hpage.effect.tables (Nat.zero_le 3) hc) (fun j hj => by
      have := hlow (j + 1) (Nat.succ_lt_succ hj)
      rwa [show i + (j + 1) = i + 1 + j by omega] at this) hok
    have hbytes : ∀ o < 4096, s₁.mem ((pmmAlloc s.pmm).1 + o) = imageByte init initLen (i * 4096 + o) ∧
        IsData s₁ own₁ ((pmmAlloc s.pmm).1 + o) := fun o ho => by
      obtain ⟨h1, h2⟩ := hpage.bytes o ho
      exact ⟨h1.trans (getD_initBytes ho), h2⟩
    exact ⟨_, own', .cons hv hfirst { hpage with bytes := hbytes } hrest⟩

end Loop

/-! ## The call -/

section Call

variable {mem : Mem} {pmm : Pmm} {cr3 : Entry} {nx : Bool} {s₀ t : MemState} {s : VmState} {c v len initLen : Nat}
  {flags : Entry} {init : Option (List (BitVec 8))}

theorem userAlloc_loads {own : Label} (ho : Owned s.sys own) (hc : own c = some (c, [])) (hf : flags &&& pteFrameMask = 0)
    (hok : vmmUserAlloc s.sys c v len flags init initLen = .ok (0, t)) :
    v % 4096 = 0 ∧ (len ≠ 0 → v + (len + 4095) / 4096 * 4096 ≤ userSpaceEnd) ∧
      ∃ frames own', ImageLoaded c v 0 ((len + 4095) / 4096) (imageByte init initLen) frames s.sys own t own' := by
  unfold vmmUserAlloc at hok
  split at hok
  · cases hok
  rename_i hal
  have hal : v % 4096 = 0 := not_not.1 hal
  refine ⟨hal, ?_⟩
  split at hok
  · rename_i hz
    cases hok
    rw [hz]
    exact ⟨fun h => absurd rfl h, fun _ => 0, own, .nil ho⟩
  split at hok
  · cases hok
  rename_i hlen hrange
  have hend : userSpaceEnd % 4096 = 0 := by decide
  split at hok
  · cases hok
  have hin : v + (len + 4095) / 4096 * 4096 ≤ userSpaceEnd := by omega
  refine ⟨fun _ => hin, userAllocLoop_loads hal hf _ 0 ho hc (fun j hj => ?_) hok⟩
  rw [Nat.zero_add]
  have hj : j < (len + 4095) / 4096 := hj
  omega

/-- The places of pages, of user code and of the heap. -/
def Place.IsPage : Place → Prop
  | .userPage _ _ | .heapPage _ => True
  | _ => False

/-- A frame with the label of a table is the frame of a table. -/
theorem owner_of_tableLabel {own : Label} {f r : Nat} {q : List Nat} (h : VmOwned s own) (hf : own f = some (r, q))
    (hq : q.length ≤ 3) : ∃ pl, Owner s pl f ∧ ¬ pl.IsPage := by
  have hroot := h.owned.trees.root hf
  have hin := h.owned.trees.inTree hf
  have hr : r ∈ s.ctxs := (h.roots r).1 hroot
  have hwalk := (h.owned.trees.walk_iff hroot ⟨hq, hin⟩).2 hf
  cases q with
  | nil => exact ⟨.pml4 r, ⟨hr, h.owned.trees.labelled.root hf⟩, id⟩
  | cons i q =>
    by_cases hi : i < 256
    · refine ⟨.userTable r (i :: q), ⟨hr, by simp, ⟨hq, hin.1, ?_⟩, hwalk⟩, id⟩
      rintro j ⟨⟩
      exact hi
    · refine ⟨.kernelTable (i :: q), ⟨by simp, ⟨hq, hin.1, ?_⟩, r, hr, hwalk⟩, id⟩
      rintro j ⟨⟩
      exact Nat.le_of_not_lt hi

theorem isData_of_place {own : Label} {x : Nat} (h : VmOwned s own) (hm : s.sys.pmm.marked (x / 4096) = true)
    (hplace : ∀ pl, Owner s pl (x / 4096 * 4096) → pl.IsPage) : IsData s.sys own x := by
  refine ⟨hm, fun r q hf => ?_⟩
  by_contra hq
  obtain ⟨pl, hown, hno⟩ := owner_of_tableLabel h hf (Nat.le_of_not_lt hq)
  exact hno (hplace pl hown)

theorem isData_of_owner {own : Label} {pl : Place} {f o : Nat} (h : VmOwned s own) (hown : Owner s pl f) (hpage : pl.IsPage)
    (hlt : o < 4096) : IsData s.sys own (f + o) := by
  have hlabel := label_of_owner h.owned (fun c hc => (h.roots c).2 hc) hown
  have hal := h.owned.trees.aligned hlabel
  have hlen : 3 < (pl.label s.sys.kernelCtx).2.length := by
    cases pl with
    | userPage ctx page => exact show 3 < 4 by decide
    | heapPage page => exact show 3 < 4 by decide
    | _ => exact hpage.elim
  refine ⟨?_, fun r q hf => ?_⟩
  · rw [show (f + o) / 4096 = f / 4096 by omega]
    exact (h.owned.trees.frame hlabel).2
  · rw [show (f + o) / 4096 * 4096 = f by omega, hlabel] at hf
    rw [Option.some.inj hf] at hlen
    exact hlen

/-- **Loading.** For every context of a running system: requests that are not aligned, or not empty and with more to copy than
to allocate or not in the user half, are refused and change nothing. When the call returns 0, each page of the range is mapped
to a frame of its own that was free, which holds the image and zeros behind it; no other address of any context is
translated differently; and what was in use, tables apart, is as before, the pages of the contexts and of the heap in
particular. -/
theorem user_alloc_loads_image (hl : LimineTables mem pmm cr3) (hw : WindowFree mem cr3)
    (hinit : initVmm mem pmm cr3 nx = .ok s₀)
    (hr : Reach vmStep SpaceCall ⟨initKheap s₀, [s₀.kernelCtx]⟩ s) (hc : c ∈ s.ctxs) (hf : flags &&& pteFrameMask = 0) :
    (v % 4096 ≠ 0 ∨ len ≠ 0 ∧ (len < initLen ∨ userSpaceEnd < v + len) →
      vmmUserAlloc s.sys c v len flags init initLen = .ok (-1, s.sys)) ∧
    (∀ t, vmmUserAlloc s.sys c v len flags init initLen = .ok (0, t) → ∃ frames : Nat → Nat,
      (∀ j < (len + 4095) / 4096, frames j % 4096 = 0 ∧ frames j ≠ 0 ∧ s.sys.pmm.marked (frames j / 4096) = false) ∧
      (∀ j < (len + 4095) / 4096, ∀ k < (len + 4095) / 4096, frames j = frames k → j = k) ∧
      (∀ o < (len + 4095) / 4096 * 4096, vmmGetPhys t.mem c (v + o) = frames (o / 4096) + o % 4096 ∧
        t.mem (vmmGetPhys t.mem c (v + o)) = imageByte init initLen o) ∧
      (∀ c' ∈ s.ctxs, ∀ x, Canonical x → ¬ (c' = c ∧ v ≤ x ∧ x < v + (len + 4095) / 4096 * 4096) →
        vmmGetPhys t.mem c' x = vmmGetPhys s.sys.mem c' x) ∧
      (∀ pl f, Owner s pl f → pl.IsPage → ∀ o < 4096, t.mem (f + o) = s.sys.mem (f + o)) ∧
      (∀ x, s.sys.pmm.marked (x / 4096) = true → (∀ pl, Owner s pl (x / 4096 * 4096) → pl.IsPage) →
        t.mem x = s.sys.mem x)) := by
  obtain ⟨own₀, h₀⟩ := vmOwned_boot hl hw hinit
  obtain ⟨own, hs, -⟩ := vmOwned_of_reach h₀ hr
  have hroot : ∀ {k}, k ∈ s.ctxs → own k = some (k, []) := fun hk => (hs.roots _).2 hk
  refine ⟨userAlloc_refused, fun t hok => ?_⟩
  obtain ⟨hal, hin, frames, own', him⟩ := userAlloc_loads hs.owned (hroot hc) hf hok
  have hmaps := fun {c' x} (hc' : c' ∈ s.ctxs) (hx : Canonical x) => him.maps (hroot hc') hx
  simp only [Nat.zero_mul, Nat.add_zero, Nat.zero_add] at hmaps
  refine ⟨frames, fun j hj => ?_, him.distinct, fun o ho => ?_, fun c' hc' x hx hout => ?_,
    fun pl f hown hpage o ho => (him.data (isData_of_owner hs hown hpage ho)).1,
    fun x hm hplace => (him.data (isData_of_place hs hm hplace)).1⟩
  · obtain ⟨h1, h2, h3⟩ := him.frame j hj
    exact ⟨h1.1, h2, h3⟩
  · have hlow : v + o < userSpaceEnd := Nat.lt_of_lt_of_le (Nat.add_lt_add_left ho v) (hin (by rintro rfl; simp at ho))
    have hk : o / 4096 < (len + 4095) / 4096 := by omega
    have hphys : vmmGetPhys t.mem c (v + o) = frames (o / 4096) + o % 4096 := by
      rw [hmaps hc (.inl hlow), if_pos ⟨rfl, Nat.le_add_right v o, Nat.add_lt_add_left ho v⟩, Nat.add_sub_cancel_left,
        show (v + o) % 4096 = o % 4096 by omega]
    refine ⟨hphys, ?_⟩
    rw [hphys, (him.bytes _ hk _ (Nat.mod_lt o (by decide))).1, Nat.zero_add, Nat.div_add_mod']
  · rw [hmaps hc' hx, if_neg hout]

/-- Three bytes in a page of five, in the machine of `boot_ok`. -/
theorem three_bytes_loaded : ∃ s₀ t, initVmm bootMem bootPmm 0x1000 true = .ok s₀ ∧
    vmmUserAlloc (initKheap s₀) s₀.kernelCtx 0x400000 5 vmmFlagsKernelRw (some [7, 8, 9]) 3 = .ok (0, t) ∧
    t.mem (vmmGetPhys t.mem s₀.kernelCtx 0x400002) = 9 ∧ t.mem (vmmGetPhys t.mem s₀.kernelCtx 0x400003) = 0 := by
  obtain ⟨s₀, own, hinit, hs, -, hfree⟩ := boot_state
  have hmem : s₀.kernelCtx ∈ [s₀.kernelCtx] := List.mem_singleton_self _
  obtain ⟨t, -, ht, -⟩ := userAlloc_ok (show vmmFlagsKernelRw &&& pteFrameMask = 0 by decide) (some [7, 8, 9]) hs.owned
    ((hs.roots _).2 hmem) (show 0x400000 % 4096 = 0 by decide) (show 0x400000 + 5 ≤ userSpaceEnd by decide) (by decide)
    (show 3 ≤ 5 by decide) (Nat.le_trans (by decide) hfree)
  obtain ⟨-, hload⟩ := user_alloc_loads_image limineTables_boot windowFree_boot hinit .refl hmem
    (show vmmFlagsKernelRw &&& pteFrameMask = 0 by decide)
  obtain ⟨frames, -, -, hbytes, -⟩ := hload t ht
  exact ⟨s₀, t, hinit, ht, (hbytes 2 (by decide)).2, (hbytes 3 (by decide)).2⟩

/-- An empty request succeeds whatever there is to copy. -/
theorem empty_request_granted : ∃ s₀, initVmm bootMem bootPmm 0x1000 true = .ok s₀ ∧
    vmmUserAlloc (initKheap s₀) s₀.kernelCtx 0x400000 0 vmmFlagsKernelRw (some [7]) 1 = .ok (0, initKheap s₀) := by
  obtain ⟨s₀, hinit⟩ := boot_ok true
  exact ⟨s₀, hinit, rfl⟩

end Call

end ToastOS.Mmu
