import ToastOS.Mmu.Hardware
import ToastOS.Mmu.UserAccess

/-!
# The check of user pointers

`vmm_user_range_ok` looks at one address of each page of a range. Since the entries on the path are the same for all bytes of
a page (`pathEntries_page`) and the pages it looks at are those of the bytes of the range (`mem_userPages`), it decides
`UserByte` for every byte (`vmmUserRangeOk_iff`). `userRangeOk64` is the same function in 64-bit arithmetic, wrap-around
included; past the test of the bounds nothing wraps (`userRangeOk64_eq`).
-/

namespace ToastOS.Mmu

open ToastOS.Lib

/-- The entries on the path of `v`, from the PML4 to the page table. -/
def pathEntries (m : Mem) (ctx v : Nat) : List Entry :=
  let pml4e := entry m ctx (pml4Idx v)
  let pdpte := entry m (frameOf pml4e) (pdptIdx v)
  let pde := entry m (frameOf pdpte) (pdIdx v)
  [pml4e, pdpte, pde, entry m (frameOf pde) (ptIdx v)]

/-- The byte at `v` is in a page that is present and open to user code at all four levels, and to writes if asked, with no
huge page on the path. -/
structure UserByte (m : Mem) (ctx : Nat) (needWrite : Bool) (v : Nat) : Prop where
  present : ∀ e ∈ pathEntries m ctx v, has e ptePresent = true
  user : ∀ e ∈ pathEntries m ctx v, has e pteUser = true
  small : ∀ e ∈ (pathEntries m ctx v).take 3, has e ptePs = false
  write : needWrite = true → ∀ e ∈ pathEntries m ctx v, has e pteWrite = true

/-- The pages of the `len` bytes from `vAddr`, as `vmm_user_range_ok` counts them. -/
def userPages (vAddr len : Nat) : List Nat :=
  (List.range (((vAddr + len + 4096 - 1) / 4096 * 4096 - vAddr / 4096 * 4096) / 4096)).map
    fun i => vAddr / 4096 * 4096 + 4096 * i

/-- The loop of `vmm_user_range_ok` with `page` as a 64-bit counter; `none` when the fuel runs out. -/
def userRangeLoop (m : Mem) (ctx stop : Nat) (needWrite : Bool) : Nat → Nat → Option Bool
  | 0, _ => none
  | fuel + 1, page =>
    if page < stop then
      match walkUser m ctx page with
      | none => some false
      | some writable =>
        if needWrite && !writable then some false else userRangeLoop m ctx stop needWrite fuel (u64 (page + 4096))
    else some true

/-- `vmm_user_range_ok` in 64-bit arithmetic. -/
def userRangeOk64 (m : Mem) (ctx vAddr len : Nat) (needWrite : Bool) (fuel : Nat) : Option Bool :=
  if len = 0 then some true
  else if vAddr ≥ userSpaceEnd ∨ len > u64 (2 ^ 64 + userSpaceEnd - vAddr) then some false
  else
    let start := vAddr / 4096 * 4096
    let stop := u64 (2 ^ 64 + u64 (u64 (vAddr + len) + 4096) - 1) / 4096 * 4096
    userRangeLoop m ctx stop needWrite fuel start

section Range

variable {m : Mem} {ctx v len : Nat} {needWrite w : Bool}

theorem pathEntries_page (m : Mem) (ctx : Nat) {u : Nat} (h : u / 4096 = v / 4096) :
    pathEntries m ctx u = pathEntries m ctx v := by
  have h₁ : pml4Idx u = pml4Idx v := by unfold pml4Idx; omega
  have h₂ : pdptIdx u = pdptIdx v := by unfold pdptIdx; omega
  have h₃ : pdIdx u = pdIdx v := by unfold pdIdx; omega
  have h₄ : ptIdx u = ptIdx v := by unfold ptIdx; omega
  rw [pathEntries, pathEntries, h₁, h₂, h₃, h₄]

theorem UserByte.page {u : Nat} (hb : UserByte m ctx needWrite v) (h : u / 4096 = v / 4096) : UserByte m ctx needWrite u := by
  have he := pathEntries_page m ctx h
  obtain ⟨h1, h2, h3, h4⟩ := hb
  rw [← he] at h1 h2 h3 h4
  exact ⟨h1, h2, h3, h4⟩

theorem UserByte.read (hb : UserByte m ctx needWrite v) : UserByte m ctx false v :=
  ⟨hb.present, hb.user, hb.small, fun h => by cases h⟩

theorem walkUser_some_iff : walkUser m ctx v = some w ↔
    UserByte m ctx false v ∧ w = (pathEntries m ctx v).all fun e => has e pteWrite := by
  unfold walkUser
  rw [walkUserLoop_slot (by simp), walkUserLoop_slot (by simp), walkUserLoop_slot (by simp), walkUserLoop_leaf]
  constructor
  · rintro ⟨⟨p₁, s₁⟩, u₁, ⟨p₂, s₂⟩, u₂, ⟨p₃, s₃⟩, u₃, p₄, u₄, rfl⟩
    refine ⟨⟨?_, ?_, ?_, fun h => by cases h⟩, ?_⟩
    · simp [pathEntries, p₁, p₂, p₃, p₄]
    · simp [pathEntries, u₁, u₂, u₃, u₄]
    · simp [pathEntries, s₁, s₂, s₃]
    · simp [pathEntries, Bool.and_assoc]
  · rintro ⟨⟨hp, hu, hs, -⟩, rfl⟩
    simp only [pathEntries, List.take, List.mem_cons, List.not_mem_nil, or_false, forall_eq_or_imp, forall_eq] at hp hu hs
    refine ⟨⟨hp.1, hs.1⟩, hu.1, ⟨hp.2.1, hs.2.1⟩, hu.2.1, ⟨hp.2.2.1, hs.2.2⟩, hu.2.2.1, hp.2.2.2, hu.2.2.2, ?_⟩
    simp [pathEntries, Bool.and_assoc]

def pageOk (m : Mem) (ctx : Nat) (needWrite : Bool) (page : Nat) : Bool :=
  match walkUser m ctx page with
  | none => false
  | some writable => !(needWrite && !writable)

theorem pageOk_iff : pageOk m ctx needWrite v = true ↔ UserByte m ctx needWrite v := by
  unfold pageOk
  cases hw : walkUser m ctx v with
  | none =>
    refine ⟨fun h => (by cases h), fun hb => ?_⟩
    rw [walkUser_some_iff.2 ⟨hb.read, rfl⟩] at hw
    cases hw
  | some writable =>
    obtain ⟨hb, rfl⟩ := walkUser_some_iff.1 hw
    have hwrite : (!(needWrite && !(pathEntries m ctx v).all fun e => has e pteWrite)) = true ↔
        (needWrite = true → ∀ e ∈ pathEntries m ctx v, has e pteWrite = true) := by
      rw [← List.all_eq_true]
      cases needWrite <;> simp
    exact ⟨fun h => ⟨hb.present, hb.user, hb.small, hwrite.1 h⟩, fun h => hwrite.2 h.write⟩

theorem mem_userPages (hlen : len ≠ 0) {p : Nat} : p ∈ userPages v len ↔ ∃ a, v ≤ a ∧ a < v + len ∧ p = a / 4096 * 4096 := by
  simp only [userPages, List.mem_map, List.mem_range]
  constructor
  · rintro ⟨i, hi, rfl⟩
    refine ⟨max v (v / 4096 * 4096 + 4096 * i), by omega, by omega, ?_⟩
    omega
  · rintro ⟨a, h1, h2, rfl⟩
    exact ⟨a / 4096 - v / 4096, by omega, by omega⟩

theorem vmmUserRangeOk_eq (m : Mem) (ctx v len : Nat) (needWrite : Bool) : vmmUserRangeOk m ctx v len needWrite =
    if len = 0 then true else if v ≥ userSpaceEnd ∨ len > userSpaceEnd - v then false
      else (userPages v len).all (pageOk m ctx needWrite) := by
  rw [userPages, List.all_map]
  rfl

theorem vmmUserRangeOk_iff : vmmUserRangeOk m ctx v len needWrite = true ↔ len = 0 ∨
    (v + len ≤ userSpaceEnd ∧ v < userSpaceEnd ∧ ∀ a, v ≤ a → a < v + len → UserByte m ctx needWrite a) := by
  rw [vmmUserRangeOk_eq]
  split
  · rename_i hz
    simp [hz]
  rename_i hz
  split
  · rename_i hout
    refine ⟨fun h => (by cases h), ?_⟩
    rintro (h | ⟨h1, h2, -⟩)
    · exact absurd h hz
    · omega
  · rename_i hin
    rw [List.all_eq_true]
    constructor
    · intro h
      refine .inr ⟨by omega, by omega, fun a h1 h2 => ?_⟩
      exact (pageOk_iff.1 (h _ ((mem_userPages hz).2 ⟨a, h1, h2, rfl⟩))).page (by omega)
    · rintro (h | ⟨-, -, h⟩) p hp
      · exact absurd h hz
      · obtain ⟨a, h1, h2, rfl⟩ := (mem_userPages hz).1 hp
        exact pageOk_iff.2 ((h a h1 h2).page (by omega))

theorem userRangeLoop_succ (m : Mem) (ctx stop : Nat) (needWrite : Bool) (fuel page : Nat) :
    userRangeLoop m ctx stop needWrite (fuel + 1) page =
      if page < stop then
        if pageOk m ctx needWrite page then userRangeLoop m ctx stop needWrite fuel (u64 (page + 4096)) else some false
      else some true := by
  rw [userRangeLoop, pageOk]
  cases walkUser m ctx page with
  | none => rfl
  | some writable => cases hw : (needWrite && !writable) <;> simp [hw]

theorem map_pages_succ (page n : Nat) : (List.range (n + 1)).map (fun i => page + 4096 * i) =
    page :: (List.range n).map fun i => page + 4096 + 4096 * i := by
  rw [List.range_succ_eq_map, List.map_cons, List.map_map]
  refine congrArg₂ List.cons (Nat.add_zero page) (List.map_congr_left fun i _ => ?_)
  simp only [Function.comp_apply, Nat.succ_eq_add_one]
  omega

/-- The loop from `page` on, with `n` pages to go and no wrap. -/
theorem userRangeLoop_eq {stop : Nat} (hstop : stop + 4096 < 2 ^ 64) : ∀ (n fuel page : Nat), n < fuel →
    page + 4096 * n = stop → userRangeLoop m ctx stop needWrite fuel page =
      some (((List.range n).map fun i => page + 4096 * i).all (pageOk m ctx needWrite)) := by
  intro n
  induction n with
  | zero =>
    intro fuel page hf hp
    obtain ⟨fuel, rfl⟩ : ∃ f, fuel = f + 1 := ⟨fuel - 1, by omega⟩
    rw [userRangeLoop_succ, if_neg (by omega)]
    rfl
  | succ n ih =>
    intro fuel page hf hp
    obtain ⟨fuel, rfl⟩ : ∃ f, fuel = f + 1 := ⟨fuel - 1, by omega⟩
    have hwrap : u64 (page + 4096) = page + 4096 := u64_of_lt (by omega)
    rw [userRangeLoop_succ, if_pos (by omega), hwrap, map_pages_succ, List.all_cons]
    cases pageOk m ctx needWrite page with
    | false => rfl
    | true =>
      rw [if_pos rfl, ih fuel (page + 4096) (by omega) (by omega), Bool.true_and]

/-- Nothing wraps: the function in 64-bit arithmetic comes to an end, with the result of the one over the naturals. -/
theorem userRangeOk64_eq (hv : v < 2 ^ 64) {fuel : Nat} (hf : 2 ^ 35 < fuel) :
    userRangeOk64 m ctx v len needWrite fuel = some (vmmUserRangeOk m ctx v len needWrite) := by
  obtain ⟨top, htop, hend⟩ : ∃ n, userSpaceEnd = n ∧ n = 2 ^ 47 := ⟨_, rfl, by decide⟩
  rw [vmmUserRangeOk_eq, userRangeOk64, htop]
  split
  · rfl
  rename_i hz
  have hsub : (v ≥ top ∨ len > u64 (2 ^ 64 + top - v)) ↔ (v ≥ top ∨ len > top - v) := by
    unfold u64
    omega
  simp only [hsub]
  split
  · rfl
  rename_i hin
  have hstop : u64 (2 ^ 64 + u64 (u64 (v + len) + 4096) - 1) / 4096 * 4096 = (v + len + 4096 - 1) / 4096 * 4096 := by
    unfold u64
    omega
  have hpages : ((v + len + 4096 - 1) / 4096 * 4096 - v / 4096 * 4096) / 4096 < fuel := by omega
  rw [hstop, userPages]
  refine userRangeLoop_eq (by omega) _ _ _ hpages ?_
  rw [← Nat.sub_mul, Nat.mul_div_cancel _ (by decide), Nat.mul_comm 4096, ← Nat.add_mul]
  congr 1
  omega

/-- Where user code may read, the processor's walk ends at the page. -/
theorem UserByte.walk (hb : UserByte m ctx needWrite v) : ∃ p, hardwareWalk m ctx v = some p := by
  obtain ⟨hp, -, hs, -⟩ := hb
  simp only [pathEntries, List.take, List.mem_cons, List.not_mem_nil, or_false, forall_eq_or_imp, forall_eq] at hp hs
  obtain ⟨p₁, p₂, p₃, p₄⟩ := hp
  obtain ⟨-, s₂, s₃⟩ := hs
  rw [hardwareWalk, hardwareLeaf_next p₁ (.inl rfl) (by simp), ← pml4Idx, hardwareLeaf_next p₂ (.inr s₂) (by simp), ← pdptIdx,
    hardwareLeaf_next p₃ (.inr s₃) (by simp), ← pdIdx, hardwareLeaf_leaf p₄ (.inl rfl)]
  exact ⟨_, rfl⟩

end Range

end ToastOS.Mmu
