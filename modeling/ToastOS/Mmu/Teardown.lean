import Mathlib.Data.List.Nodup
import ToastOS.Mmu.Heap

/-!
# `vmm_destroy_context`

The frames that `free_table` frees, as a list (`tableFrames`). For a labelled table they are the frames whose label starts
with the table's own (`mem_tableFrames`), each once (`nodup_tableFrames`); so destroying a context frees what has a label
in its tree and nothing else (`destroy_spec`).
-/

namespace ToastOS.Mmu

open ToastOS.Lib

/-- The frames that one round of the loop in `free_table` frees. -/
def slotFrames (leaf : Bool) (rest : Nat → List Nat) (e : Entry) : List Nat :=
  if !has e ptePresent then []
  else if leaf then [frameOf e]
  else if !has e ptePs then rest (frameOf e)
  else []

/-- The frames that `free_table` frees, in its order. -/
def tableFrames (m : Mem) : Nat → Nat → List Nat
  | 0, _ => []
  | level + 1, table =>
    (List.range 512).flatMap (fun i => slotFrames (level == 0) (tableFrames m level) (entry m table i)) ++ [table]

/-- The frames that `vmm_destroy_context` frees. -/
def contextFrames (m : Mem) (ctx : Nat) : List Nat :=
  (List.range 256).flatMap (fun i =>
    let e := entry m ctx i
    if has e ptePresent then tableFrames m 3 (frameOf e) else []) ++ [ctx]

theorem freeTable_eq (m : Mem) (level : Nat) : ∀ (t : Nat) (p : Pmm),
    freeTable m level t p = (tableFrames m level t).foldl pmmFree p := by
  induction level with
  | zero => exact fun _ _ => rfl
  | succ level ih =>
    intro t p
    rw [freeTable, tableFrames, List.foldl_append, List.foldl_flatMap]
    show pmmFree _ t = pmmFree _ t
    congr 2
    funext q i
    unfold slotFrames
    simp only [beq_iff_eq]
    split
    · rfl
    split
    · rfl
    split
    · exact ih _ q
    · rfl

theorem destroy_pmm (s : MemState) {c : Nat} (hc : c ≠ s.kernelCtx) :
    (vmmDestroyContext s c).pmm = (contextFrames s.mem c).foldl pmmFree s.pmm := by
  have hloop : ∀ (m : Mem) (p : Pmm), (List.range 256).foldl (fun p i =>
      let e := entry m c i
      if has e ptePresent then freeTable m 3 (frameOf e) p else p) p =
      ((List.range 256).flatMap fun i =>
        let e := entry m c i
        if has e ptePresent then tableFrames m 3 (frameOf e) else []).foldl pmmFree p := by
    intro m p
    rw [List.foldl_flatMap]
    congr 1
    funext q i
    simp only
    split
    · exact freeTable_eq m 3 _ q
    · rfl
  unfold vmmDestroyContext
  rw [if_neg hc, contextFrames, List.foldl_append, ← hloop]
  simp only
  split <;> rfl

theorem destroy_mem (s : MemState) (c : Nat) : (vmmDestroyContext s c).mem = s.mem := by
  unfold vmmDestroyContext
  split
  · rfl
  · simp only
    split <;> rfl

theorem destroy_rest (s : MemState) (c : Nat) :
    (vmmDestroyContext s c).kernelCtx = s.kernelCtx ∧ (vmmDestroyContext s c).heap = s.heap := by
  unfold vmmDestroyContext
  split
  · exact ⟨rfl, rfl⟩
  · simp only
    split <;> exact ⟨rfl, rfl⟩

/-! ## Up and down a labelled tree -/

section Labels

variable {s : MemState} {own : Label} {t u f c i : Nat} {q q' : List Nat}

theorem Owned.below (ho : Owned s own) (ht : own t = some (c, q)) (hq : q.length ≤ 3) (hi : i < 512)
    (hlow : ∀ j ∈ (q ++ [i]).head?, j < 256) (hp : has (entry s.mem t i) ptePresent = true) :
    own (frameOf (entry s.mem t i)) = some (c, q ++ [i]) ∧ (q.length < 3 → has (entry s.mem t i) ptePs = false) := by
  rcases Nat.lt_or_ge q.length 3 with hlt | hge
  · have hin : Inside s.kernelCtx c (q ++ [i]) := by
      refine ⟨by rw [List.length_append, List.length_singleton]; omega, ?_, .inr hlow⟩
      intro j hj
      rcases List.mem_append.1 hj with hj | hj
      · exact (ho.trees.inTree ht).1 j hj
      · rw [List.mem_singleton.1 hj]
        exact hi
    have hps := ho.trees.noHuge ht hin hlow hp
    exact ⟨ho.trees.labelled.slot ht hin (child_eq_some hp hps), fun _ => hps⟩
  · exact ⟨ho.pages.entry ht (by omega) hi (.inl hlow) hp, fun hlt => absurd hlt (by omega)⟩

theorem Owned.above (ho : Owned s own) (hu : own u = some (c, q ++ [i])) :
    ∃ t, own t = some (c, q) ∧ has (entry s.mem t i) ptePresent = true ∧ frameOf (entry s.mem t i) = u := by
  have hlen := ho.pages.short hu
  rw [List.length_append, List.length_singleton] at hlen
  rcases Nat.lt_or_ge q.length 3 with hlt | hge
  · obtain ⟨t, ht, hc⟩ := ho.trees.labelled.linked hu
      ⟨by rw [List.length_append, List.length_singleton]; omega, ho.trees.inTree hu⟩
    obtain ⟨hp, -, hf⟩ := present_of_child hc
    exact ⟨t, ht, hp, hf⟩
  · obtain ⟨-, t, ht, hp, hf⟩ := ho.pages.page hu (by omega)
    exact ⟨t, ht, hp, hf⟩

theorem Owned.ancestor (ho : Owned s own) (q' : List Nat) : ∀ {f}, own f = some (c, q ++ q') → ∃ u, own u = some (c, q) := by
  induction q' using List.reverseRecOn with
  | nil =>
    intro f hf
    rw [List.append_nil] at hf
    exact ⟨f, hf⟩
  | append_singleton q' j ih =>
    intro f hf
    rw [← List.append_assoc] at hf
    obtain ⟨t, ht, -⟩ := ho.above hf
    exact ih ht

theorem Owned.slot_of (ho : Owned s own) (ht : own t = some (c, q)) (hf : own f = some (c, q ++ i :: q')) :
    i < 512 ∧ has (entry s.mem t i) ptePresent = true ∧ own (frameOf (entry s.mem t i)) = some (c, q ++ [i]) := by
  rw [show q ++ i :: q' = q ++ [i] ++ q' by simp] at hf
  obtain ⟨u, hu⟩ := ho.ancestor q' hf
  obtain ⟨t', ht', hp, rfl⟩ := ho.above hu
  have hlen := ho.pages.short hu
  rw [List.length_append, List.length_singleton] at hlen
  have heq := ho.trees.unique ⟨by omega, ho.trees.inTree ht⟩ ht ht'
  subst heq
  exact ⟨(ho.trees.inTree hu).1 i (List.mem_append_right _ List.mem_cons_self), hp, hu⟩

/-- The frames below a table, slot by slot: what is behind slot `i` has a label that goes on with `i`. -/
theorem mem_of_slots (ho : Owned s own) (ht : own t = some (c, q)) (hq : q.length ≤ 3) {n : Nat} {slots : Nat → List Nat}
    (hn : ∀ i q' u, own u = some (c, q ++ i :: q') → i < n)
    (hslots : ∀ i < n, ∀ f, f ∈ slots i ↔ ∃ q', own f = some (c, q ++ i :: q')) :
    f ∈ (List.range n).flatMap slots ++ [t] ↔ ∃ q', own f = some (c, q ++ q') := by
  rw [List.mem_append, List.mem_singleton, List.mem_flatMap]
  constructor
  · rintro (⟨i, hi, hf⟩ | rfl)
    · obtain ⟨q', hf⟩ := (hslots i (List.mem_range.1 hi) f).1 hf
      exact ⟨i :: q', hf⟩
    · exact ⟨[], by rw [List.append_nil]; exact ht⟩
  · rintro ⟨q', hf⟩
    cases q' with
    | nil =>
      rw [List.append_nil] at hf
      exact .inr (ho.trees.unique ⟨hq, ho.trees.inTree ht⟩ hf ht)
    | cons i q' =>
      have hi := hn i q' f hf
      exact .inl ⟨i, List.mem_range.2 hi, (hslots i hi f).2 ⟨q', hf⟩⟩

/-- No frame is behind two slots, because it has one label. -/
theorem nodup_of_slots (ht : own t = some (c, q)) {n : Nat} {slots : Nat → List Nat}
    (hslots : ∀ i < n, ∀ f ∈ slots i, ∃ q', own f = some (c, q ++ i :: q')) (hnd : ∀ i < n, (slots i).Nodup) :
    ((List.range n).flatMap slots ++ [t]).Nodup := by
  rw [List.nodup_append, List.nodup_flatMap]
  refine ⟨⟨fun i hi => hnd i (List.mem_range.1 hi), ?_⟩, List.nodup_singleton t, ?_⟩
  · refine List.Pairwise.imp_of_mem ?_ List.nodup_range
    intro i j hi hj hne f hfi hfj
    obtain ⟨q₁, h₁⟩ := hslots i (List.mem_range.1 hi) f hfi
    obtain ⟨q₂, h₂⟩ := hslots j (List.mem_range.1 hj) f hfj
    rw [h₁] at h₂
    have hpath := List.append_cancel_left (Prod.mk.inj (Option.some.inj h₂)).2
    exact hne (List.cons.inj hpath).1
  · intro f hf u hu heq
    rw [List.mem_singleton.1 hu] at heq
    subst heq
    obtain ⟨i, hi, hf⟩ := List.mem_flatMap.1 hf
    obtain ⟨q', hf⟩ := hslots i (List.mem_range.1 hi) f hf
    rw [ht] at hf
    have hlen := congrArg List.length (Prod.mk.inj (Option.some.inj hf)).2
    rw [List.length_append, List.length_cons] at hlen
    omega

/-- What is behind one slot, for the last level (`rest` is not used) and the others. -/
theorem mem_slotFrames (ho : Owned s own) (ht : own t = some (c, q)) (hq : q.length ≤ 3) (hi : i < 512)
    (hlow : ∀ j ∈ (q ++ [i]).head?, j < 256) {leaf : Bool} (hleaf : leaf = true ↔ q.length = 3) {rest : Nat → List Nat}
    (hrest : ∀ u, own u = some (c, q ++ [i]) → q.length < 3 → (f ∈ rest u ↔ ∃ q', own f = some (c, q ++ [i] ++ q'))) :
    f ∈ slotFrames leaf rest (entry s.mem t i) ↔ ∃ q', own f = some (c, q ++ i :: q') := by
  unfold slotFrames
  by_cases hp : has (entry s.mem t i) ptePresent = true
  · obtain ⟨hu, hps⟩ := ho.below ht hq hi hlow hp
    rw [hp]
    by_cases hl : q.length = 3
    · rw [hleaf.2 hl]
      simp only [Bool.not_true, Bool.false_eq_true, if_false, if_true, List.mem_singleton]
      constructor
      · rintro rfl
        exact ⟨[], hu⟩
      · rintro ⟨q', hf⟩
        -- a label has four slots at most
        have hshort := ho.pages.short hf
        rw [List.length_append, List.length_cons] at hshort
        obtain rfl : q' = [] := List.length_eq_zero_iff.1 (by omega)
        obtain ⟨t', ht', -, rfl⟩ := ho.above hf
        rw [ho.trees.unique ⟨hq, ho.trees.inTree ht⟩ ht ht']
    · have hfalse : leaf = false := by
        rw [← Bool.not_eq_true, hleaf]
        exact hl
      rw [hps (by omega), hfalse]
      simp only [Bool.not_true, Bool.false_eq_true, if_false, Bool.not_false, if_true]
      rw [hrest _ hu (by omega)]
      simp only [List.append_assoc, List.singleton_append]
  · rw [Bool.not_eq_true] at hp
    simp only [hp, Bool.not_false, if_true, List.not_mem_nil, false_iff, not_exists]
    intro q' hf
    rw [(ho.slot_of ht hf).2.1] at hp
    cases hp

theorem head_snoc (hne : q ≠ []) (hlow : ∀ j ∈ q.head?, j < 256) : ∀ j ∈ (q ++ [i]).head?, j < 256 := by
  intro j hj
  rw [List.head?_append_of_ne_nil _ hne] at hj
  exact hlow j hj

theorem mem_tableFrames (ho : Owned s own) (level : Nat) : ∀ {t q f}, own t = some (c, q) → q.length + level = 3 → q ≠ [] →
    (∀ j ∈ q.head?, j < 256) → (f ∈ tableFrames s.mem (level + 1) t ↔ ∃ q', own f = some (c, q ++ q')) := by
  induction level with
  | zero =>
    intro t q f ht hlen hne hlow
    refine mem_of_slots ho ht (by omega) (fun i q' u hu => (ho.slot_of ht hu).1) fun i hi f => ?_
    exact mem_slotFrames ho ht (by omega) hi (head_snoc hne hlow) (by simpa using hlen) fun u _ hlt => absurd hlt (by omega)
  | succ level ih =>
    intro t q f ht hlen hne hlow
    refine mem_of_slots ho ht (by omega) (fun i q' u hu => (ho.slot_of ht hu).1) fun i hi f => ?_
    refine mem_slotFrames ho ht (by omega) hi (head_snoc hne hlow) ?_ fun u hu _ => ?_
    · rw [beq_iff_eq]
      omega
    · exact ih hu (by rw [List.length_append, List.length_singleton]; omega) (by simp) (head_snoc hne hlow)

theorem nodup_slotFrames {leaf : Bool} {rest : Nat → List Nat} {e : Entry}
    (hrest : has e ptePresent = true → has e ptePs = false → leaf = false → (rest (frameOf e)).Nodup) :
    (slotFrames leaf rest e).Nodup := by
  unfold slotFrames
  split
  · exact List.nodup_nil
  rename_i hp
  split
  · exact List.nodup_singleton _
  rename_i hl
  split
  · rename_i hps
    exact hrest (by simpa using hp) (by simpa using hps) (by simpa using hl)
  · exact List.nodup_nil

theorem nodup_tableFrames (ho : Owned s own) (level : Nat) : ∀ {t q}, own t = some (c, q) → q.length + level = 3 → q ≠ [] →
    (∀ j ∈ q.head?, j < 256) → (tableFrames s.mem (level + 1) t).Nodup := by
  induction level with
  | zero =>
    intro t q ht hlen hne hlow
    refine nodup_of_slots ht (fun i hi f hf => ?_) fun i hi => nodup_slotFrames fun _ _ hl => by cases hl
    exact (mem_slotFrames ho ht (by omega) hi (head_snoc hne hlow) (by simpa using hlen)
      fun u _ hlt => absurd hlt (by omega)).1 hf
  | succ level ih =>
    intro t q ht hlen hne hlow
    have hsnoc : ∀ i, (q ++ [i]).length + level = 3 := by
      intro i
      rw [List.length_append, List.length_singleton]
      omega
    refine nodup_of_slots ht (fun i hi f hf => ?_) fun i hi => nodup_slotFrames fun hp _ _ => ?_
    · refine (mem_slotFrames ho ht (by omega) hi (head_snoc hne hlow) ?_ fun u hu _ => ?_).1 hf
      · rw [beq_iff_eq]
        omega
      · exact mem_tableFrames ho level hu (hsnoc i) (by simp) (head_snoc hne hlow)
    · exact ih (ho.below ht (by omega) hi (head_snoc hne hlow) hp).1 (hsnoc i) (by simp) (head_snoc hne hlow)

/-! ## A whole context -/

/-- A context other than the kernel's has labels in the user half only. -/
theorem Owned.first_slot (ho : Owned s own) (hc : c ≠ s.kernelCtx) (hf : own f = some (c, i :: q)) : i < 256 :=
  ((ho.trees.inTree hf).2.resolve_left hc) i rfl

theorem contextFrames_eq (m : Mem) (c : Nat) :
    contextFrames m c = (List.range 256).flatMap (fun i =>
      if has (entry m c i) ptePresent then tableFrames m 3 (frameOf (entry m c i)) else []) ++ [c] := rfl

theorem mem_userSlot (ho : Owned s own) (hc : own c = some (c, [])) (hi : i < 256) :
    f ∈ (if has (entry s.mem c i) ptePresent then tableFrames s.mem 3 (frameOf (entry s.mem c i)) else []) ↔
      ∃ q', own f = some (c, [] ++ i :: q') := by
  have hlow : ∀ j ∈ ([] ++ [i]).head?, j < 256 := by
    intro j hj
    cases hj
    exact hi
  split
  · rename_i hp
    obtain ⟨hu, -⟩ := ho.below hc (by simp) (by omega) hlow hp
    exact mem_tableFrames ho 2 hu rfl (by simp) hlow
  · rename_i hp
    simp only [List.not_mem_nil, false_iff, not_exists]
    intro q' hf
    exact hp (ho.slot_of hc hf).2.1

theorem mem_contextFrames (ho : Owned s own) (hc : own c = some (c, [])) (hne : c ≠ s.kernelCtx) :
    f ∈ contextFrames s.mem c ↔ ∃ q, own f = some (c, q) := by
  rw [contextFrames_eq]
  exact mem_of_slots ho hc (by simp) (fun i q' u hu => ho.first_slot hne hu) fun i hi f => mem_userSlot ho hc hi

theorem nodup_contextFrames (ho : Owned s own) (hc : own c = some (c, [])) : (contextFrames s.mem c).Nodup := by
  rw [contextFrames_eq]
  refine nodup_of_slots hc (fun i hi f hf => (mem_userSlot ho hc hi).1 hf) fun i hi => ?_
  split
  · rename_i hp
    have hlow : ∀ j ∈ ([] ++ [i]).head?, j < 256 := by
      intro j hj
      cases hj
      exact hi
    obtain ⟨hu, -⟩ := ho.below hc (by simp) (by omega) hlow hp
    exact nodup_tableFrames ho 2 hu rfl (by simp) hlow
  · exact List.nodup_nil

/-- What destroying a context does to the manager. -/
structure Destroyed (s : MemState) (own : Label) (c : Nat) (s' : MemState) : Prop where
  owned : Owned s' (drop own c)
  marks : ∀ n, s'.pmm.marked n = true ↔ s.pmm.marked n = true ∧ ∀ q, own (4096 * n) ≠ some (c, q)
  mem : s'.mem = s.mem
  kernelCtx : s'.kernelCtx = s.kernelCtx
  heap : s'.heap = s.heap
  bytes : s'.pmm.bitmapBytes = s.pmm.bitmapBytes
  frees : ∀ g ∈ s'.pmm.frees, g ∈ s.pmm.frees ∨ g.2 = true
  logged : ∀ f q, own f = some (c, q) → ∃ b, (f / 4096, b) ∈ s'.pmm.frees
  balanced : Balanced s.pmm s'.pmm

theorem destroy_spec (ho : Owned s own) (hc : own c = some (c, [])) (hne : c ≠ s.kernelCtx) :
    Destroyed s own c (vmmDestroyContext s c) := by
  have hfreed := freed_foldl (contextFrames s.mem c) s.pmm
  rw [show (contextFrames s.mem c).foldl freeFrame s.pmm = (vmmDestroyContext s c).pmm from (destroy_pmm s hne).symm]
    at hfreed
  have hmem : ∀ {f}, f ∈ contextFrames s.mem c ↔ ∃ q, own f = some (c, q) := mem_contextFrames ho hc hne
  have hal : ∀ f ∈ contextFrames s.mem c, 4096 * (f / 4096) = f := by
    intro f hf
    obtain ⟨q, hf⟩ := hmem.1 hf
    exact Nat.mul_div_cancel' (Nat.dvd_of_mod_eq_zero (ho.trees.aligned hf))
  have hlist : ∀ n, n ∈ (contextFrames s.mem c).map (· / 4096) ↔ ∃ q, own (4096 * n) = some (c, q) := by
    intro n
    rw [List.mem_map]
    constructor
    · rintro ⟨f, hf, rfl⟩
      rw [hal f hf]
      exact hmem.1 hf
    · intro h
      exact ⟨4096 * n, hmem.2 h, Nat.mul_div_cancel_left n (by decide)⟩
  have hnd : ((contextFrames s.mem c).map (· / 4096)).Nodup := by
    refine List.Nodup.map_on ?_ (nodup_contextFrames ho hc)
    intro f hf g hg heq
    rw [← hal f hf, ← hal g hg, heq]
  have hin : ∀ n ∈ (contextFrames s.mem c).map (· / 4096), s.pmm.marked n = true ∧ n < 8 * s.pmm.bitmapBytes := by
    intro n hn
    obtain ⟨q, hf⟩ := (hlist n).1 hn
    have hm := (ho.trees.frame hf).2
    have ht := (ho.pages.taken hf (.inl hne)).2
    rw [Nat.mul_div_cancel_left n (by decide)] at hm ht
    exact ⟨hm, ht⟩
  have hmarks : ∀ n, (vmmDestroyContext s c).pmm.marked n = true ↔ s.pmm.marked n = true ∧
    ∀ q, own (4096 * n) ≠ some (c, q) := by
    intro n
    rw [hfreed.marked, Bool.and_eq_true, decide_eq_true_iff, hlist, not_exists]
  obtain ⟨hk, hheap⟩ := destroy_rest s c
  refine ⟨?_, hmarks, destroy_mem s c, hk, hheap, hfreed.bytes, hfreed.once hnd fun n hn => (hin n hn).1, ?_,
    hfreed.balanced hnd hin⟩
  · refine ho.drop hne (destroy_mem s c) hk hfreed.bytes ⟨?_, ?_⟩ ?_
    · rw [hfreed.bytes]
      exact ho.trees.pmm.size
    · refine (hmarks 0).2 ⟨ho.trees.pmm.zero, fun q hf => ?_⟩
      exact (ho.pages.taken hf (.inl hne)).1 rfl
    · intro f r q hf hr
      refine (hmarks _).2 ⟨(ho.trees.frame hf).2, fun q' hf' => hr ?_⟩
      rw [Nat.mul_div_cancel' (Nat.dvd_of_mod_eq_zero (ho.trees.aligned hf)), hf] at hf'
      exact (Prod.mk.inj (Option.some.inj hf')).1
  · intro f q hf
    exact hfreed.logged _ (List.mem_map.2 ⟨f, hmem.2 ⟨q, hf⟩, rfl⟩)

end Labels

end ToastOS.Mmu
