import ToastOS.Mmu.Moves

/-!
# `init_vmm`

Limine leaves a PML4 whose upper half leads to tables that are in use and at one place each (`LimineTables`). `init_vmm`
copies that half to a new PML4, which gives labels to the inherited tables (`Inherited`), and then fills its empty slots,
each of which is a step of `get_or_alloc_table`. From there on the invariant of the calls holds (`initVmm_spec`).
-/

namespace ToastOS.Mmu

open ToastOS.Lib

/-- A place for a table in the upper half. -/
def KernelPath (q : List Nat) : Prop := q.length ≤ 3 ∧ (∀ i ∈ q, i < 512) ∧ ∀ i ∈ q.head?, 256 ≤ i

/-- What Limine leaves: the manager is set up, no table of the upper half is free memory or frame 0, none is at two
places, and no entry of the PML4 there is huge. -/
structure LimineTables (mem : Mem) (pmm : Pmm) (cr3 : Entry) : Prop where
  manager : pmm.Ok
  used : ∀ q t, KernelPath q → walk (child mem) (frameOf cr3) q = some t → t ≠ 0 ∧ pmm.marked (t / 4096) = true
  once : ∀ q q' t, KernelPath q → KernelPath q' → walk (child mem) (frameOf cr3) q = some t →
    walk (child mem) (frameOf cr3) q' = some t → q = q'
  pml4 : ∀ i, 256 ≤ i → i < 512 → has (entry mem (frameOf cr3) i) ptePresent = true →
    has (entry mem (frameOf cr3) i) ptePs = false

/-- The labels right after the copy: the tables of Limine's upper half belong to the new PML4. -/
structure Inherited (mem : Mem) (cr3 : Entry) (s : MemState) (own : Label) : Prop where
  trees : Trees s own
  label : ∀ {f r q}, own f = some (r, q) → r = s.kernelCtx ∧ ((f = r ∧ q = []) ∨
    (q ≠ [] ∧ KernelPath q ∧ walk (child mem) (frameOf cr3) q = some f ∧ ∀ j < 512, entry s.mem f j = entry mem f j))
  low : ∀ i < 256, entry s.mem s.kernelCtx i = 0
  high : ∀ i, 256 ≤ i → i < 512 → entry s.mem s.kernelCtx i = entry mem (frameOf cr3) i
  log : s.log = []

theorem KernelPath.of_append {q p : List Nat} (h : KernelPath (q ++ p)) : KernelPath q := by
  obtain ⟨h1, h2, h3⟩ := h
  refine ⟨?_, fun i hi => h2 i (List.mem_append_left _ hi), fun i hi => h3 i ?_⟩
  · rw [List.length_append] at h1
    omega
  · cases q with
    | nil => cases hi
    | cons a q => exact hi

theorem isFrame_walk {m : Mem} {r t : Nat} (hr : IsFrame r) : ∀ (q : List Nat), walk (child m) r q = some t → IsFrame t := by
  intro q
  induction q generalizing r with
  | nil =>
    intro h
    cases h
    exact hr
  | cons i q ih =>
    intro h
    rw [walk, Option.bind_eq_some_iff] at h
    obtain ⟨u, hu, h⟩ := h
    refine ih ?_ h
    unfold child at hu
    split at hu
    · cases hu
      exact isFrame_frameOf _
    · cases hu

section Copy

variable {mem m : Mem} {pmm p : Pmm} {cr3 : Entry} {k : Nat} {nx : Bool}

/-- The labels that walking from Limine's PML4 gives, with the new PML4 `k` as the root. -/
noncomputable def inheritedLabel (mem : Mem) (cr3 : Entry) (k : Nat) : Label := fun f =>
  open Classical in
  if f = k then some (k, [])
  else if h : ∃ q, q ≠ [] ∧ KernelPath q ∧ walk (child mem) (frameOf cr3) q = some f then some (k, h.choose)
  else none

theorem inheritedLabel_self : inheritedLabel mem cr3 k k = some (k, []) := if_pos rfl

theorem inheritedLabel_walk (hl : LimineTables mem pmm cr3) {q : List Nat} {f : Nat} (hf : f ≠ k) (hq : q ≠ [])
    (hk : KernelPath q) (hw : walk (child mem) (frameOf cr3) q = some f) : inheritedLabel mem cr3 k f = some (k, q) := by
  have h : ∃ q, q ≠ [] ∧ KernelPath q ∧ walk (child mem) (frameOf cr3) q = some f := ⟨q, hq, hk, hw⟩
  rw [inheritedLabel, if_neg hf, dif_pos h]
  obtain ⟨-, h2, h3⟩ := h.choose_spec
  rw [hl.once _ _ f h2 hk h3 hw]

theorem of_inheritedLabel {f r : Nat} {q : List Nat} (h : inheritedLabel mem cr3 k f = some (r, q)) :
    r = k ∧ ((f = k ∧ q = []) ∨ (f ≠ k ∧ q ≠ [] ∧ KernelPath q ∧ walk (child mem) (frameOf cr3) q = some f)) := by
  unfold inheritedLabel at h
  split at h
  · rename_i hf
    cases h
    exact ⟨rfl, .inl ⟨hf, rfl⟩⟩
  · rename_i hf
    split at h
    · rename_i hex
      cases h
      exact ⟨rfl, .inr ⟨hf, hex.choose_spec⟩⟩
    · cases h

theorem KernelPath.snoc {q : List Nat} {i : Nat} (hin : Inside k k (q ++ [i])) (h1 : q = [] → 256 ≤ i)
    (h2 : q ≠ [] → KernelPath q) : KernelPath (q ++ [i]) := by
  refine ⟨hin.1, hin.2.1, ?_⟩
  cases q with
  | nil =>
    intro j hj
    cases hj
    exact h1 rfl
  | cons a q => exact (h2 (by simp)).2.2

/-- A slot of the copy leads to a table only in the upper half, and then where Limine's leads. -/
theorem walk_of_copy {i u : Nat} (hself : ∀ j < 512, entry m k j = if 256 ≤ j then entry mem (frameOf cr3) j else 0)
    (hi : i < 512) (hc : child m k i = some u) : 256 ≤ i ∧ walk (child mem) (frameOf cr3) [i] = some u := by
  by_cases h256 : 256 ≤ i
  · refine ⟨h256, ?_⟩
    rw [show [i] = [] ++ [i] from rfl, walk_snoc]
    show child mem (frameOf cr3) i = some u
    rw [← hc, child, child, hself i hi, if_pos h256]
  · rw [child, hself i hi, if_neg h256, zero_has] at hc
    cases hc

/-- The copy: a PML4 `k` that is none of Limine's tables gets the upper half. -/
theorem inherited_copy (hl : LimineTables mem pmm cr3) (hk : IsFrame k)
    (hnew : ∀ q t, KernelPath q → walk (child mem) (frameOf cr3) q = some t → t ≠ k) (hp : p.Ok)
    (hmarks : ∀ n, pmm.marked n = true ∨ n = k / 4096 → p.marked n = true)
    (hself : ∀ j < 512, entry m k j = if 256 ≤ j then entry mem (frameOf cr3) j else 0)
    (hother : ∀ t, t % 4096 = 0 → t ≠ k → ∀ j < 512, entry m t j = entry mem t j) :
    Inherited mem cr3 ⟨m, p, k, nx, frameOf cr3, none, []⟩ (inheritedLabel mem cr3 k) := by
  have hL : IsFrame (frameOf cr3) := isFrame_frameOf cr3
  have hsame : ∀ q t, KernelPath q → walk (child mem) (frameOf cr3) q = some t → ∀ j < 512, entry m t j = entry mem t j :=
    fun q t hq hw => hother t (isFrame_walk hL q hw).1 (hnew q t hq hw)
  refine ⟨⟨hp, ?_, ?_, ?_, inheritedLabel_self, ⟨?_, ?_, ?_⟩, ?_⟩, ?_, ?_, ?_, rfl⟩
  · rintro f ⟨r, q⟩ hf
    obtain ⟨-, ⟨rfl, -⟩ | ⟨-, -, hq, hw⟩⟩ := of_inheritedLabel hf
    · exact ⟨hk, hmarks _ (.inr rfl)⟩
    · exact ⟨isFrame_walk hL q hw, hmarks _ (.inl (hl.used q f hq hw).2)⟩
  · intro f r q hf
    rw [(of_inheritedLabel hf).1]
    exact inheritedLabel_self
  · intro f r q hf
    obtain ⟨rfl, ⟨-, rfl⟩ | ⟨-, -, hq, -⟩⟩ := of_inheritedLabel hf
    · exact ⟨fun i hi => absurd hi List.not_mem_nil, .inl rfl⟩
    · exact ⟨hq.2.1, .inl rfl⟩
  · intro u r hu
    obtain ⟨rfl, ⟨rfl, -⟩ | ⟨-, hq, -⟩⟩ := of_inheritedLabel hu
    · rfl
    · exact absurd rfl hq
  · intro t r q i u ht hin hc
    obtain ⟨rfl, ⟨rfl, rfl⟩ | ⟨-, hq, hkp, hw⟩⟩ := of_inheritedLabel ht
    · obtain ⟨h256, hw⟩ := walk_of_copy hself hin.slot_lt hc
      have hkp := KernelPath.snoc (q := []) hin (fun _ => h256) (fun h => absurd rfl h)
      exact inheritedLabel_walk hl (hnew _ _ hkp hw) (by simp) hkp hw
    · have hkp' := KernelPath.snoc hin (fun h => absurd h hq) fun _ => hkp
      have hw' : walk (child mem) (frameOf cr3) (q ++ [i]) = some u := by
        rw [walk_snoc, hw, Option.bind_some, ← child_congr (hsame q t hkp hw i hin.slot_lt)]
        exact hc
      exact inheritedLabel_walk hl (hnew _ _ hkp' hw') (by simp) hkp' hw'
  · intro u r q i hu hin
    obtain ⟨rfl, ⟨-, h⟩ | ⟨-, -, hkp, hw⟩⟩ := of_inheritedLabel hu
    · exact absurd h (by simp)
    by_cases hq : q = []
    · subst hq
      refine ⟨r, inheritedLabel_self, ?_⟩
      have h256 : 256 ≤ i := hkp.2.2 i rfl
      rw [show [] ++ [i] = [i] from rfl, walk, Option.bind_eq_some_iff] at hw
      obtain ⟨w, hc, hw⟩ := hw
      cases hw
      show child m r i = some u
      rw [← hc, child, child, hself i hin.slot_lt, if_pos h256]
    · rw [walk_snoc, Option.bind_eq_some_iff] at hw
      obtain ⟨t, hw, hc⟩ := hw
      refine ⟨t, inheritedLabel_walk hl (hnew _ _ hkp.of_append hw) hq hkp.of_append hw, ?_⟩
      show child m t i = some u
      rw [child_congr (hsame q t hkp.of_append hw i hin.slot_lt)]
      exact hc
  · intro t r q i ht hin hhead hpres
    obtain ⟨rfl, ⟨rfl, rfl⟩ | ⟨-, hq, hkp, -⟩⟩ := of_inheritedLabel ht
    · have hlt : i < 256 := hhead i rfl
      rw [show entry m t i = 0 by rw [hself i hin.slot_lt, if_neg (by omega)], zero_has] at hpres
      cases hpres
    · cases q with
      | nil => exact absurd rfl hq
      | cons a q =>
        have h1 := hhead a rfl
        have h2 := hkp.2.2 a rfl
        omega
  · intro f r q hf
    obtain ⟨rfl, ⟨rfl, rfl⟩ | ⟨-, hq, hkp, hw⟩⟩ := of_inheritedLabel hf
    · exact ⟨rfl, .inl ⟨rfl, rfl⟩⟩
    · exact ⟨rfl, .inr ⟨hq, hkp, hw, hsame q f hkp hw⟩⟩
  · intro i hi
    show entry m k i = 0
    rw [hself i (by omega), if_neg (by omega)]
  · intro i h1 h2
    show entry m k i = _
    rw [hself i h2, if_pos h1]

end Copy

section Populate

variable {P : Nat → Option Entry → Prop} {mem : Mem} {pmm : Pmm} {cr3 : Entry} {k : Nat} {nx : Bool} {s s' : MemState}

/-- A slot of the upper half is filled as `get_or_alloc_table` fills it. -/
theorem prePopulate_slot {own : Label} {i : Nat} (h : Trees s own) (h1 : 256 ≤ i) (h2 : i < 512) {res : Option Nat}
    (hok : getOrAllocTable s s.kernelCtx i 0 (i * 2 ^ 39) .pdpt = .ok (res, s')) (hres : res ≠ none) :
    ∃ own', Move P s own s' own' ∧ Trees s' own' ∧ (∃ u, own' u = some (s.kernelCtx, [i])) ∧
      (∀ f c q, own' f = some (c, q) → own f = some (c, q) ∨ q.length ≤ 1) ∧
      ∀ j < 512, entry s'.mem s.kernelCtx j = entry s.mem s.kernelCtx j ∨
        has (entry s'.mem s.kernelCtx j) ptePs = false := by
  have hidx : pml4Idx (i * 2 ^ 39) = i := by
    unfold pml4Idx
    omega
  have hroot : treeRoot s s.kernelCtx (i * 2 ^ 39) = s.kernelCtx := by
    unfold treeRoot
    split <;> rfl
  have hin : Inside s.kernelCtx s.kernelCtx ([] ++ [i]) := by
    have := (inside_tablePath s s.kernelCtx (i * 2 ^ 39)).of_append (p := [] ++ [pml4Idx (i * 2 ^ 39)])
      (q := [pdptIdx (i * 2 ^ 39), pdIdx (i * 2 ^ 39)])
    rwa [hroot, hidx] at this
  rcases getOrAllocTable_spec h h.kernel hin hok with ⟨hnone, -⟩ | ⟨u, own', -, l⟩
  · exact absurd hnone hres
  have g : Grow s own s' own' s.kernelCtx ([] ++ [i]) 0 := (Grow.refl h).snoc hin h.kernel l h h.kernel
  refine ⟨own', .grow (v := i * 2 ^ 39) h.kernel (fun hu => ?_) ?_ (by rw [hroot]; exact g), g.trees, ⟨u, l.there⟩, ?_, ?_⟩
  · rw [zero_has] at hu; cases hu
  · rw [tablePath, hidx]
    exact ⟨_, rfl⟩
  · intro f c q hf
    exact (g.added hf).imp_right fun h => h.2.2.2.2.length_le
  · intro j hj
    rcases g.entries h.kernel hj with he | ⟨-, -, ⟨-, hu, -⟩ | ⟨-, n, hn, he⟩⟩
    · exact .inl he
    · rw [zero_has] at hu; cases hu
    · exact .inr (by rw [he]; exact ps_linkEntry hn)

theorem linkEntry_zero (n : Nat) : linkEntry n 0 = BitVec.ofNat 64 n ||| ptePresent ||| pteWrite := by
  rw [linkEntry, show (0 : Entry) &&& pteUser = 0#64 by decide, BitVec.or_zero]

theorem prePopulate_cons {i : Nat} {l : List Nat} (hok : prePopulate s.kernelCtx (i :: l) s = .ok s')
    (hps : has (entry s.mem s.kernelCtx i) ptePresent = true → has (entry s.mem s.kernelCtx i) ptePs = false) :
    ∃ res s₁, getOrAllocTable s s.kernelCtx i 0 (i * 2 ^ 39) .pdpt = .ok (res, s₁) ∧ res ≠ none ∧
      prePopulate s.kernelCtx l s₁ = .ok s' := by
  unfold prePopulate at hok
  unfold getOrAllocTable
  by_cases hp : has (entry s.mem s.kernelCtx i) ptePresent = true
  · rw [if_pos hp] at hok
    refine ⟨some (frameOf (entry s.mem s.kernelCtx i)), s, ?_, by simp, hok⟩
    simp only [hp, hps hp, if_true, zero_has, Bool.false_and, Bool.false_eq_true, if_false]
  · rw [if_neg hp] at hok
    simp only [hp, if_false, Bool.false_eq_true]
    split at hok
    rename_i phys p heq
    rw [heq]
    simp only at hok ⊢
    split at hok
    · cases hok
    · rename_i hphys
      rw [if_neg hphys]
      refine ⟨some phys, _, rfl, by simp, ?_⟩
      show prePopulate s.kernelCtx l
        { s with mem := setEntry (zeroFrame s.mem phys) s.kernelCtx i (linkEntry phys 0), pmm := p } = .ok s'
      rw [linkEntry_zero]
      exact hok

theorem prePopulate_moves : ∀ (l : List Nat) {s : MemState} {own : Label}, Trees s own →
    (∀ i ∈ l, 256 ≤ i ∧ i < 512) →
    (∀ i < 512, 256 ≤ i → has (entry s.mem s.kernelCtx i) ptePresent = true → has (entry s.mem s.kernelCtx i) ptePs = false) →
    prePopulate s.kernelCtx l s = .ok s' →
    ∃ own', Moves P s own s' own' ∧ Trees s' own' ∧ (∀ i ∈ l, ∃ u, own' u = some (s.kernelCtx, [i])) ∧
      ∀ f c q, own' f = some (c, q) → own f = some (c, q) ∨ q.length ≤ 1 := by
  intro l
  induction l with
  | nil =>
    intro s own h hl hps hok
    cases hok
    exact ⟨own, .refl, h, fun i hi => absurd hi List.not_mem_nil, fun _ _ _ => .inl⟩
  | cons i l ih =>
    intro s own h hl hps hok
    obtain ⟨h1, h2⟩ := hl i List.mem_cons_self
    obtain ⟨res, s₁, hget, hres, hok⟩ := prePopulate_cons hok (hps i h2 h1)
    obtain ⟨own₁, hm, h₁, ⟨u, hu⟩, hadded, hentries⟩ := prePopulate_slot (P := P) h h1 h2 hget hres
    have hk : s₁.kernelCtx = s.kernelCtx := hm.kept.kernelCtx
    rw [← hk] at hok
    obtain ⟨own', hms, h', hall, hrest⟩ := ih h₁ (fun j hj => hl j (List.mem_cons_of_mem i hj)) (by
      intro j hj h256 hpres
      rw [hk] at hpres ⊢
      rcases hentries j hj with he | he
      · rw [he] at hpres ⊢
        exact hps j hj h256 hpres
      · exact he) hok
    refine ⟨own', hm.single.trans hms, h', ?_, ?_⟩
    · intro j hj
      rcases List.mem_cons.1 hj with rfl | hj
      · exact ⟨u, hms.kept.labels hu⟩
      · rw [← hk]
        exact hall j hj
    · intro f c q hf
      rcases hrest f c q hf with hf | hq
      · exact hadded f c q hf
      · exact .inr hq

/-- With a table behind each slot of the upper half, the kernel's PML4 can be shared. -/
theorem shared_of_populated {own : Label} (h : Trees s own) (hroots : ∀ c, own c = some (c, []) → c = s.kernelCtx)
    (hall : ∀ i, 256 ≤ i → i < 512 → ∃ u, own u = some (s.kernelCtx, [i])) : SharedHalf s own := by
  intro c hc i h1 h2
  obtain ⟨u, hu⟩ := hall i h1 h2
  have hin : Inside s.kernelCtx s.kernelCtx ([] ++ [i]) := by
    refine ⟨by simp, ?_, .inl rfl⟩
    intro j hj
    rw [List.mem_singleton.1 hj]
    exact h2
  obtain ⟨t, ht, hchild⟩ := h.labelled.linked hu hin
  rw [h.labelled.root ht] at hchild
  obtain ⟨hp, hps, -⟩ := present_of_child hchild
  rw [hroots c hc]
  exact ⟨rfl, hp, hps⟩

/-- `init_vmm` by its parts. The list of slots is a variable here, or Lean goes through all 256 rounds. -/
theorem initVmm_inv (hok : initVmm mem pmm cr3 nx = .ok s) : ∃ s₁ l, l = (List.range 256).map (256 + ·) ∧
    prePopulate (pmmAlloc pmm).1 l ⟨copyKernelHalf (zeroFrame mem (pmmAlloc pmm).1) (frameOf cr3) (pmmAlloc pmm).1,
      (pmmAlloc pmm).2, (pmmAlloc pmm).1, nx, frameOf cr3, none, []⟩ = .ok s₁ ∧ s = vmmSwitchContext s₁ (pmmAlloc pmm).1 := by
  rw [initVmm] at hok
  generalize (List.range 256).map (256 + ·) = l at hok ⊢
  simp only at hok
  split at hok
  · cases hok
  · rename_i s₁ hpop
    cases hok
    exact ⟨s₁, l, rfl, hpop, rfl⟩

theorem mem_upperSlots {l : List Nat} (hl : l = (List.range 256).map (256 + ·)) {i : Nat} : i ∈ l ↔ 256 ≤ i ∧ i < 512 := by
  rw [hl, List.mem_map]
  constructor
  · rintro ⟨j, hj, rfl⟩
    have := List.mem_range.1 hj
    omega
  · rintro ⟨h1, h2⟩
    exact ⟨i - 256, List.mem_range.2 (by omega), by omega⟩

/-- After `init_vmm` the invariant of the calls holds, with the kernel's context only; the tables have come from Limine's by
moves that write no leaf entry, and the new ones are PDPTs. -/
theorem initVmm_spec (hl : LimineTables mem pmm cr3) (hok : initVmm mem pmm cr3 nx = .ok s) :
    ∃ s₀ own₀ own, Inherited mem cr3 s₀ own₀ ∧ Moves P s₀ own₀ s own ∧ VmInv ⟨s, [s.kernelCtx]⟩ own ∧
      ∀ f c q, own f = some (c, q) → own₀ f = some (c, q) ∨ q.length ≤ 1 := by
  -- the new PML4 is not a table of Limine's, also when there was no frame for it
  have hcopy : ∃ p, (∀ q t, KernelPath q → walk (child mem) (frameOf cr3) q = some t → t ≠ (pmmAlloc pmm).1) ∧
      IsFrame (pmmAlloc pmm).1 ∧ (pmmAlloc pmm).2 = p ∧ p.Ok ∧
      ∀ n, pmm.marked n = true ∨ n = (pmmAlloc pmm).1 / 4096 → p.marked n = true := by
    rcases pmmAlloc_frame hl.manager with ⟨ha, -⟩ | ⟨n, hn, hpos, hm, ha, -⟩
    · rw [ha]
      refine ⟨pmm, fun q t hq hw => (hl.used q t hq hw).1, ⟨rfl, Nat.two_pow_pos 52⟩, rfl, hl.manager, ?_⟩
      rintro n (h | h)
      · exact h
      · rw [show n = 0 by simpa using h]
        exact hl.manager.zero
    · rw [ha]
      refine ⟨_, fun q t hq hw => ?_, hn, rfl, hl.manager.allocFrame n, ?_⟩
      · rintro rfl
        rw [(hl.used q t hq hw).2] at hm
        cases hm
      · intro f hf
        rw [marked_allocFrame, Bool.or_eq_true, decide_eq_true_iff]
        exact hf
  obtain ⟨p, hnew, hk, hp, hpok, hmarks⟩ := hcopy
  obtain ⟨s₁, l, hslots, hpop, rfl⟩ := initVmm_inv hok
  rw [hp] at hpop
  generalize (pmmAlloc pmm).1 = k at hpop hnew hk hmarks
  have hL : k ≠ frameOf cr3 := fun h => hnew [] _ ⟨by simp, by simp, by simp⟩ rfl h.symm
  obtain ⟨hself, hother⟩ := entry_copyKernelHalf (m := zeroFrame mem k) hk.1 (isFrame_frameOf cr3).1 hL
  generalize copyKernelHalf (zeroFrame mem k) (frameOf cr3) k = m at hpop hself hother
  have hinh : Inherited mem cr3 ⟨m, p, k, nx, frameOf cr3, none, []⟩ (inheritedLabel mem cr3 k) := by
    refine inherited_copy hl hk hnew hpok hmarks ?_ ?_
    · intro j hj
      rw [hself j hj]
      split
      · rw [entry_zeroFrame hk.1 (isFrame_frameOf cr3).1 hL hj]
      · rw [entry_zeroFrame_same hj]
    · intro t ht hne j hj
      rw [hother t ht hne j hj, entry_zeroFrame hk.1 ht (Ne.symm hne) hj]
  obtain ⟨own, hms, h₁, hall, hadded⟩ := prePopulate_moves (P := P) l hinh.trees (fun i => (mem_upperSlots hslots).1) (by
    intro i hi h256 hpres
    rw [hinh.high i h256 hi] at hpres ⊢
    exact hl.pml4 i h256 hi hpres) hpop
  have hkept := hms.kept
  have hkernel : s₁.kernelCtx = k := hkept.kernelCtx
  have hroots : ∀ c, own c = some (c, []) → c = s₁.kernelCtx := by
    intro c hc
    rw [hkernel]
    exact (hinh.label (hkept.roots hc)).1
  have hkeep : Move P s₁ own (vmmSwitchContext s₁ k) own :=
    .keep (fun _ _ _ _ _ => rfl) rfl rfl h₁.pmm fun f pl hf => (h₁.frame hf).2
  have hshared : SharedHalf s₁ own := by
    refine shared_of_populated h₁ hroots fun i h1 h2 => ?_
    rw [hkernel]
    exact hall i ((mem_upperSlots hslots).2 ⟨h1, h2⟩)
  have htables : AllTables own := by
    refine hms.tables ?_
    intro f r q hf
    obtain ⟨-, ⟨-, rfl⟩ | ⟨-, hq, -⟩⟩ := hinh.label hf
    · exact Nat.zero_le _
    · exact hq.1
  have hsys : Sys s₁ own := ⟨h₁, hshared, htables⟩
  refine ⟨_, _, own, hinh, .tail hms hkeep, ⟨hsys.move hkeep, fun c => ?_⟩, hadded⟩
  rw [List.mem_singleton]
  refine ⟨hroots c, ?_⟩
  rintro rfl
  exact h₁.kernel

theorem vmInv_boot {t : VmState} (hl : LimineTables mem pmm cr3) (hok : initVmm mem pmm cr3 nx = .ok s)
    (h : Reach vmStep (TableCall P) ⟨s, [s.kernelCtx]⟩ t) : ∃ own, VmInv t own := by
  obtain ⟨_, _, own₀, -, -, hinv, -⟩ := initVmm_spec (P := P) hl hok
  obtain ⟨own, hinv, -⟩ := vmInv_of_reach (I := fun _ _ => True) hinv trivial (fun _ _ _ => trivial) (fun _ _ _ => trivial) h
  exact ⟨own, hinv⟩

theorem prePopulate_count (k : Nat) : ∀ (l : List Nat) {s : MemState}, s.pmm.Ok → prePopulate k l s = .ok s' →
    Balanced s.pmm s'.pmm ∧ s.pmm.clearCount ≤ s'.pmm.clearCount + l.length := by
  intro l
  induction l with
  | nil =>
    intro s _ hok
    cases hok
    exact ⟨.refl _, Nat.le_refl _⟩
  | cons i l ih =>
    intro s hp hok
    unfold prePopulate at hok
    rw [List.length_cons]
    split at hok
    · obtain ⟨hb, hc⟩ := ih hp hok
      exact ⟨hb, by omega⟩
    · rcases pmmAlloc_frame hp with ⟨ha, -⟩ | ⟨n, -, hpos, -, ha, hcount⟩
      · rw [ha] at hok
        cases hok
      · have hbal := pmmAlloc_balanced hp ha
        rw [ha] at hok
        simp only [hpos, if_false] at hok
        obtain ⟨hb, hc⟩ := ih (hp.allocFrame n) hok
        refine ⟨hbal.trans hb, ?_⟩
        have hc : (allocFrame s.pmm n).clearCount ≤ s'.pmm.clearCount + l.length := hc
        omega

theorem initVmm_count (hp : pmm.Ok) (hok : initVmm mem pmm cr3 nx = .ok s) :
    Balanced pmm s.pmm ∧ pmm.clearCount ≤ s.pmm.clearCount + 257 := by
  obtain ⟨s₁, l, hslots, hpop, rfl⟩ := initVmm_inv hok
  have hfirst : Balanced pmm (pmmAlloc pmm).2 ∧ (pmmAlloc pmm).2.Ok ∧ pmm.clearCount ≤ (pmmAlloc pmm).2.clearCount + 1 := by
    refine ⟨pmmAlloc_balanced hp rfl, ?_⟩
    rcases pmmAlloc_frame hp with ⟨ha, -⟩ | ⟨n, -, -, -, ha, hcount⟩
    · rw [ha]
      exact ⟨hp, Nat.le_succ _⟩
    · rw [ha]
      exact ⟨hp.allocFrame n, Nat.le_of_eq hcount⟩
  obtain ⟨hbal, hok₁, hcount⟩ := hfirst
  obtain ⟨hb, hc⟩ := prePopulate_count _ _ hok₁ hpop
  refine ⟨hbal.trans hb, ?_⟩
  rw [hslots, List.length_map, List.length_range] at hc
  have hc : (pmmAlloc pmm).2.clearCount ≤ s₁.pmm.clearCount + 256 := hc
  show pmm.clearCount ≤ s₁.pmm.clearCount + 257
  omega

/-- With a frame for each empty slot the loop gets to its end. -/
theorem prePopulate_ok (k : Nat) : ∀ (l : List Nat) {s : MemState}, s.pmm.Ok → l.length ≤ s.pmm.clearCount →
    ∃ s', prePopulate k l s = .ok s' := by
  intro l
  induction l with
  | nil => exact fun {s} _ _ => ⟨s, rfl⟩
  | cons i l ih =>
    intro s hok hcount
    rw [List.length_cons] at hcount
    unfold prePopulate
    split
    · exact ih hok (by omega)
    · rcases pmmAlloc_frame hok with ⟨-, hfull⟩ | ⟨n, -, hpos, -, ha, hc⟩
      · rw [clearCount_eq_zero hfull] at hcount
        omega
      · rw [ha]
        simp only [hpos, if_false]
        refine ih (hok.allocFrame n) ?_
        show l.length ≤ (allocFrame s.pmm n).clearCount
        omega

theorem initVmm_ok (hp : pmm.Ok) (hcount : 257 ≤ pmm.clearCount) : ∃ s, initVmm mem pmm cr3 nx = .ok s := by
  rcases pmmAlloc_frame hp with ⟨-, hfull⟩ | ⟨n, -, -, -, ha, hc⟩
  · rw [clearCount_eq_zero hfull] at hcount
    omega
  · have hlen : ((List.range 256).map (256 + ·)).length = 256 := by rw [List.length_map, List.length_range]
    rw [initVmm]
    simp only [ha]
    generalize copyKernelHalf (zeroFrame mem n) (frameOf cr3) n = m
    generalize (List.range 256).map (256 + ·) = l at hlen ⊢
    obtain ⟨s, hs⟩ := prePopulate_ok n l (s := ⟨m, allocFrame pmm n, n, nx, frameOf cr3, none, []⟩) (hp.allocFrame n)
      (show l.length ≤ (allocFrame pmm n).clearCount by omega)
    rw [hs]
    exact ⟨_, rfl⟩

end Populate

/-! ## A machine to start from -/

/-- 512 frames, of which the first six are in use. -/
def bootPmm : Pmm := ⟨0, 0, 0, 0, 0, 64, 0, 512, 506, fun i => if i = 0 then 0x3F else 0, []⟩

/-- Limine's tables are in the frames 1 to 4, and map one page, `0xFFFFFFFF80000000`, to frame 5. -/
def bootMem : Mem :=
  setEntry (setEntry (setEntry (setEntry (fun _ => 0) 0x1000 511 0x2003) 0x2000 510 0x3003) 0x3000 0 0x4003) 0x4000 0 0x5003

theorem bootPmm_ok : bootPmm.Ok := ⟨by decide, by decide⟩

theorem entry_zero (t i : Nat) : entry (fun _ => 0) t i = 0 := by
  have hbytes : ∀ n a, readBytes (fun _ => 0) a n = 0 := by
    intro n
    induction n with
    | zero => exact fun _ => rfl
    | succ n ih =>
      intro a
      rw [readBytes, ih]
      rfl
  rw [entry, read64, hbytes]
  rfl

theorem entry_boot {t i : Nat} (ht : t % 4096 = 0) (hi : i < 512) : entry bootMem t i =
    if t = 0x4000 ∧ i = 0 then 0x5003 else if t = 0x3000 ∧ i = 0 then 0x4003 else
      if t = 0x2000 ∧ i = 510 then 0x3003 else if t = 0x1000 ∧ i = 511 then 0x2003 else 0 := by
  have hset : ∀ {m u j e}, u % 4096 = 0 → j < 512 →
      entry (setEntry m u j e) t i = if t = u ∧ i = j then e else entry m t i := by
    intro m u j e hu hj
    split
    · rename_i h
      rw [h.1, h.2, entry_setEntry_same]
    · rename_i h
      by_cases htu : t = u
      · subst htu
        exact entry_setEntry_slot fun h' => h ⟨rfl, h'.symm⟩
      · exact entry_setEntry_table hu ht (Ne.symm htu) hj hi
  unfold bootMem
  rw [hset (by decide) (by decide), hset (by decide) (by decide), hset (by decide) (by decide), hset (by decide) (by decide),
    entry_zero]

theorem child_boot {n i : Nat} (hn : n < 4) (hi : i < 512) : child bootMem (0x1000 * (n + 1)) i =
    if i = [511, 510, 0, 0].getD n 0 then some (0x1000 * (n + 2)) else none := by
  rw [child, entry_boot (by omega) hi]
  have hcases : n = 0 ∨ n = 1 ∨ n = 2 ∨ n = 3 := by omega
  rcases hcases with rfl | rfl | rfl | rfl <;> simp <;> split <;> rfl

theorem walk_boot : ∀ (q : List Nat) {n t : Nat}, n + q.length ≤ 3 → (∀ i ∈ q, i < 512) →
    walk (child bootMem) (0x1000 * (n + 1)) q = some t →
    q = ([511, 510, 0].drop n).take q.length ∧ t = 0x1000 * (n + q.length + 1) := by
  intro q
  induction q with
  | nil =>
    intro n t _ _ hw
    cases hw
    exact ⟨rfl, rfl⟩
  | cons i q ih =>
    intro n t hlen hlt hw
    rw [List.length_cons] at hlen ⊢
    rw [walk, child_boot (by omega) (hlt i List.mem_cons_self)] at hw
    split at hw
    · rename_i hi
      obtain ⟨hq, ht⟩ := ih (n := n + 1) (by omega) (fun j hj => hlt j (List.mem_cons_of_mem _ hj)) hw
      have hcases : n = 0 ∨ n = 1 ∨ n = 2 := by omega
      refine ⟨?_, by omega⟩
      rcases hcases with rfl | rfl | rfl <;> exact congrArg₂ List.cons hi hq
    · cases hw

theorem limineTables_boot : LimineTables bootMem bootPmm 0x1000 := by
  have hwalk : ∀ {q t}, KernelPath q → walk (child bootMem) (frameOf 0x1000) q = some t →
      q = [511, 510, 0].take q.length ∧ t = 0x1000 * (q.length + 1) ∧ q.length ≤ 3 := by
    intro q t hq hw
    obtain ⟨h1, h2⟩ := walk_boot q (n := 0) (by have := hq.1; omega) hq.2.1 hw
    exact ⟨h1, by omega, hq.1⟩
  refine ⟨bootPmm_ok, fun q t hq hw => ?_, fun q q' t hq hq' hw hw' => ?_, fun i h1 h2 _ => ?_⟩
  · obtain ⟨-, rfl, hlen⟩ := hwalk hq hw
    have hcases : q.length = 0 ∨ q.length = 1 ∨ q.length = 2 ∨ q.length = 3 := by omega
    rcases hcases with h | h | h | h <;> rw [h] <;> decide
  · obtain ⟨h1, h2, -⟩ := hwalk hq hw
    obtain ⟨h1', h2', -⟩ := hwalk hq' hw'
    rw [h1, h1', show q.length = q'.length by omega]
  · rw [entry_boot (by decide) h2]
    split_ifs <;> decide

theorem boot_ok (nx : Bool) : ∃ s, initVmm bootMem bootPmm 0x1000 nx = .ok s :=
  initVmm_ok bootPmm_ok (by decide +kernel)

theorem boot_free {nx : Bool} {s : MemState} (h : initVmm bootMem bootPmm 0x1000 nx = .ok s) : 249 ≤ s.pmm.clearCount := by
  have hcount := (initVmm_count bootPmm_ok h).2
  have hboot : bootPmm.clearCount = 506 := by decide +kernel
  omega

/-- No walk from the kernel's PML4 meets a huge page. -/
def NoHuge (s : MemState) (own : Label) : Prop := ∀ v, NotHuge s own s.kernelCtx v

section NoHuge

variable {P : Nat → Option Entry → Prop} {s s' : MemState} {own own' : Label} {c v n : Nat}

theorem NoHuge.move (h : NoHuge s own) (ht : Trees s own) (hm : Move P s own s' own') : NoHuge s' own' := by
  intro v
  rw [hm.kept.kernelCtx]
  exact (h v).move ht hm

theorem NoHuge.created (h : NoHuge s own) (ht : Trees s own) (hn : Created s own n s') :
    NoHuge s' (Function.update own n (some (n, []))) := by
  intro v
  rw [hn.rest.kernelCtx]
  refine (h v).created hn ?_
  rintro rfl
  cases ht.kernel.symm.trans hn.unused

theorem NoHuge.root (h : NoHuge s own) (ht : Trees s own) : NotHuge s own (treeRoot s c v) v := by
  by_cases hv : pml4Idx v < 256
  · exact notHuge_low ht hv
  · rw [treeRoot, if_neg hv]
    exact h v

theorem noHuge_inherited_boot (h : Inherited bootMem 0x1000 s own) : NoHuge s own := by
  have hps : ∀ {t i}, t % 4096 = 0 → i < 512 → has (entry bootMem t i) ptePs = false := by
    intro t i ht hi
    rw [entry_boot ht hi]
    split_ifs <;> decide
  intro v t q i ht hpre _
  have hi := slot_lt_of_path hpre
  obtain ⟨-, ⟨rfl, rfl⟩ | ⟨-, -, -, hsame⟩⟩ := h.label ht
  · by_cases h256 : 256 ≤ i
    · rw [h.high i h256 hi]
      exact hps (by decide) hi
    · rw [h.low i (by omega), zero_has]
  · rw [hsame i hi]
    exact hps (h.trees.aligned ht) hi

/-- In this machine a context can be created, a page can be mapped in it, and unmapped again in any of the two. -/
theorem boot_calls (pa : Nat) (flags : Entry) (hP : ∀ fl, P v fl) (hv : has flags pteUser = true → v < userSpaceEnd) :
    ∃ s₀ c s₁ t, initVmm bootMem bootPmm 0x1000 true = .ok s₀ ∧ vmmCreateContext s₀ true = (some c, s₁) ∧
      vmmMapPage s₁ c v pa flags = .ok (0, t) ∧
      Reach vmStep (TableCall P) ⟨s₀, [s₀.kernelCtx]⟩ ⟨s₁, [c, s₀.kernelCtx]⟩ ∧
      Reach vmStep (TableCall P) ⟨s₀, [s₀.kernelCtx]⟩ ⟨t, [c, s₀.kernelCtx]⟩ ∧
      ∀ d ∈ [c, s₀.kernelCtx], ∃ u, vmmUnmapPage t d v = .ok u ∧
        Reach vmStep (TableCall P) ⟨s₀, [s₀.kernelCtx]⟩ ⟨u, [c, s₀.kernelCtx]⟩ := by
  obtain ⟨s₀, hinit⟩ := boot_ok true
  have hfree := boot_free hinit
  obtain ⟨_, _, own₀, hinh, hms, hinv₀, -⟩ := initVmm_spec (P := P) limineTables_boot hinit
  have hhuge₀ : Trees s₀ own₀ ∧ NoHuge s₀ own₀ :=
    hms.invariant (I := fun s own => Trees s own ∧ NoHuge s own) ⟨hinh.trees, noHuge_inherited_boot hinh⟩
      fun h hm => ⟨h.1.move hm, h.2.move h.1 hm⟩
  have hinv : ∀ {s}, Reach vmStep (TableCall P) ⟨s₀, [s₀.kernelCtx]⟩ s → ∃ own, VmInv s own ∧ NoHuge s.sys own := fun h =>
    vmInv_of_reach hinv₀ hhuge₀.2 (fun hs h hm => h.move hs.trees hm) (fun hs h hn => h.created hs.trees hn) h
  obtain ⟨c, s₁, hcreate, hcount⟩ := create_ok (s := s₀) hinv₀.sys.trees.pmm (by omega)
  have hr₁ : Reach vmStep (TableCall P) ⟨s₀, [s₀.kernelCtx]⟩ ⟨s₁, [c, s₀.kernelCtx]⟩ :=
    .tail (a := .create true) .refl trivial (by simp only [vmStep, hcreate])
  obtain ⟨own₁, hinv₁, hhuge₁⟩ := hinv hr₁
  have hs₁ := hinv₁.sys
  obtain ⟨t, hmap, -⟩ := map_ok (v := v) pa flags hs₁.trees hs₁.shared ((hinv₁.roots c).2 List.mem_cons_self)
    (hhuge₁.root hs₁.trees) hv (show 3 ≤ s₁.pmm.clearCount by omega)
  have hr₂ : Reach vmStep (TableCall P) ⟨s₀, [s₀.kernelCtx]⟩ ⟨t, [c, s₀.kernelCtx]⟩ :=
    .tail (a := .map c v pa flags) hr₁ ⟨List.mem_cons_self, hP _⟩ (by simp only [vmStep, hmap])
  obtain ⟨own₂, hinv₂, hhuge₂⟩ := hinv hr₂
  have hs₂ := hinv₂.sys
  refine ⟨s₀, c, s₁, t, hinit, hcreate, hmap, hr₁, hr₂, fun d hd => ?_⟩
  obtain ⟨u, hu⟩ := unmap_returns (v := v) hs₂.trees hs₂.shared ((hinv₂.roots d).2 hd) (hhuge₂.root hs₂.trees)
  exact ⟨u, hu, .tail (a := .unmap d v) hr₂ ⟨hd, hP none⟩ (by simp only [vmStep, hu])⟩

end NoHuge

end ToastOS.Mmu
