import ToastOS.Task.Pid
import Mathlib.Data.List.GetD

/-!
# The slots of `taskTable.c`, access by access

The functions of `taskTable.c` once more, now with every access checked: a slot outside the block ends the run
(`none`), and the contents of a block fresh from `kmalloc` are anything.

* `SlotMap` : what the table is for, a partial map with a capacity;
* `set_checked`, `realloc_checked` : where no access is outside, these are the functions of the registry;
* `table_iff` : the runs in which the table is that map, with every access inside.
-/

namespace ToastOS.Task

open Function

/-- The pointers of one block; NULL is `none`. -/
abbrev Slots := List (Option Tid)

/-- The block of `kmalloc(sizeof(void*) * cap)`, with whatever was there before. -/
def freshSlots (old : Nat → Option Tid) (cap : Nat) : Slots := (List.range (blockSlots cap)).map old

/-- `slots[i] = v`. -/
def writeSlot (slots : Slots) (i : Nat) (v : Option Tid) : Option Slots :=
  if i < slots.length then some (slots.set i v) else none

/-- `for (; i < i + n; i++) slots[i] = src(i)`, `n` times. -/
def storeLoop (src : Nat → Option (Option Tid)) : Nat → Nat → Slots → Option Slots
  | 0, _, slots => some slots
  | n + 1, i, slots => (src i).bind fun v => (writeSlot slots i v).bind (storeLoop src n (i + 1))

/-- `slots[i] = NULL`. -/
def nullSlot (_ : Nat) : Option (Option Tid) := some none

/-- `init_cap`, or `INIT_CAP`. -/
def initialCap (initCap : Nat) : Nat := if initCap = 0 then 4 else initCap

/-- `task_table_init`; the inner `none` is NULL. -/
def taskTableInitChecked (initCap : Nat) (tableOk : Bool) (block : Option (Nat → Option Tid)) : Option (Option TaskTable) :=
  if tableOk then
    match block with
    | none => some none
    | some old =>
      (storeLoop nullSlot (initialCap initCap) 0 (freshSlots old (initialCap initCap))).map fun slots =>
        some ⟨slots, initialCap initCap⟩
  else some none

def taskTableReallocChecked (table : TaskTable) (minCap : Nat) (block : Option (Nat → Option Tid)) :
    Option (Int × TaskTable) :=
  match block with
  | none => some (-1, table)
  | some old =>
    (storeLoop (fun i => table.slots[i]?) table.cap 0 (freshSlots old (newCap table minCap))).bind fun slots =>
      (storeLoop nullSlot (newCap table minCap - table.cap) table.cap slots).map fun slots =>
        (0, ⟨slots, newCap table minCap⟩)

/-- The end of `task_table_set`: a slot that is not NULL is left as it is. -/
def fillSlot (table : TaskTable) (tid : Nat) (value : Option Tid) : Option (Int × TaskTable) :=
  table.slots[tid]?.bind fun slot =>
    if slot.isSome then some (-1, table)
    else (writeSlot table.slots tid value).map fun slots => (0, { table with slots := slots })

def taskTableSetChecked (table : TaskTable) (tid : Nat) (value : Option Tid) (block : Option (Nat → Option Tid)) :
    Option (Int × TaskTable) :=
  (if tid ≥ table.cap then taskTableReallocChecked table (u64 (tid + 1)) block else some (0, table)).bind fun grown =>
    if grown.1 ≠ 0 then some (-1, grown.2) else fillSlot grown.2 tid value

def taskTableGetChecked (table : TaskTable) (tid : Nat) : Option (Option Tid) :=
  if tid < table.cap then table.slots[tid]? else some none

def taskTableClearChecked (table : TaskTable) (tid : Nat) : Option (Int × TaskTable) :=
  if tid < table.cap then (writeSlot table.slots tid none).map fun slots => (0, { table with slots := slots })
  else some (-1, table)

/-! ## The loops -/

section Loops

variable {src : Nat → Option (Option Tid)}

theorem storeLoop_get : ∀ {n i : Nat} {slots slots' : Slots}, storeLoop src n i slots = some slots' →
    slots'.length = slots.length ∧
      ∀ j, slots'[j]? = if i ≤ j ∧ j < i + n then src j else slots[j]?
  | 0, i, slots, slots', h => by
    cases h
    refine ⟨rfl, fun j => ?_⟩
    rw [if_neg (by omega)]
  | n + 1, i, slots, slots', h => by
    obtain ⟨v, hv, h⟩ := Option.bind_eq_some_iff.1 h
    obtain ⟨b, hb, h⟩ := Option.bind_eq_some_iff.1 h
    unfold writeSlot at hb
    split at hb
    · rename_i hi
      cases hb
      obtain ⟨hlen, hget⟩ := storeLoop_get h
      refine ⟨by rw [hlen, List.length_set], fun j => ?_⟩
      rw [hget j]
      by_cases hj : i + 1 ≤ j ∧ j < i + 1 + n
      · rw [if_pos hj, if_pos (by omega)]
      · rw [if_neg hj]
        by_cases hij : j = i
        · subst hij
          rw [if_pos (by omega), List.getElem?_set_self hi, hv]
        · rw [if_neg (by omega), List.getElem?_set_ne (Ne.symm hij)]
    · cases hb

theorem storeLoop_returns : ∀ {n i : Nat} {slots : Slots}, (∀ j, i ≤ j → j < i + n → (src j).isSome) →
    i + n ≤ slots.length → ∃ slots', storeLoop src n i slots = some slots'
  | 0, i, slots, _, _ => ⟨slots, rfl⟩
  | n + 1, i, slots, hsrc, hlen => by
    obtain ⟨v, hv⟩ := Option.isSome_iff_exists.1 (hsrc i (by omega) (by omega))
    obtain ⟨slots', h⟩ : ∃ slots', storeLoop src n (i + 1) (slots.set i v) = some slots' :=
      storeLoop_returns (fun j hj hjn => hsrc j (by omega) (by omega)) (by rw [List.length_set]; omega)
    refine ⟨slots', ?_⟩
    rw [storeLoop, hv, Option.bind_some, writeSlot, if_pos (by omega), Option.bind_some, h]

/-- A loop with more stores than the block has slots leaves the block. -/
theorem storeLoop_outside : ∀ {n i : Nat} {slots : Slots}, i ≤ slots.length → slots.length < i + n →
    storeLoop src n i slots = none
  | 0, i, slots, hi, hlen => by omega
  | n + 1, i, slots, hi, hlen => by
    rw [storeLoop]
    cases src i with
    | none => rfl
    | some v =>
      rw [Option.bind_some, writeSlot]
      by_cases h : i < slots.length
      · rw [if_pos h, Option.bind_some]
        exact storeLoop_outside (by rw [List.length_set]; omega) (by rw [List.length_set]; omega)
      · rw [if_neg h, Option.bind_none]

end Loops

@[simp] theorem length_freshSlots (old : Nat → Option Tid) (cap : Nat) : (freshSlots old cap).length = blockSlots cap := by
  simp [freshSlots]

theorem blockSlots_lt (cap : Nat) : blockSlots cap < 2 ^ 61 := by
  have h : u64 (8 * cap) < 2 ^ 64 := Nat.mod_lt _ (by decide)
  unfold blockSlots
  omega

theorem blockSlots_le (cap : Nat) : blockSlots cap ≤ cap := by
  have h : u64 (8 * cap) ≤ 8 * cap := Nat.mod_le _ _
  unfold blockSlots
  omega

/-! ## The registry's functions -/

section Registry

variable {t t' : TaskTable} {tid minCap : Nat} {v : Tid} {old : Nat → Option Tid} {r : Int}

theorem realloc_checked (h : taskTableReallocChecked t minCap (some old) = some (r, t')) :
    r = 0 ∧ taskTableRealloc t minCap true = some t' := by
  obtain ⟨copied, hcopy, h⟩ := Option.bind_eq_some_iff.1 h
  obtain ⟨slots, hfill, h⟩ := Option.map_eq_some_iff.1 h
  cases h
  obtain ⟨hlen, hget⟩ := storeLoop_get hcopy
  obtain ⟨hlen', hget'⟩ := storeLoop_get hfill
  rw [length_freshSlots] at hlen
  have hle := blockSlots_le (newCap t minCap)
  have hslots : slots = (List.range (blockSlots (newCap t minCap))).map fun i =>
      if i < t.cap then t.slots.getD i none else none := by
    refine List.ext_getElem? fun j => ?_
    by_cases hj : j < blockSlots (newCap t minCap)
    · rw [List.getElem?_map, List.getElem?_range hj, Option.map_some, hget' j]
      by_cases hc : j < t.cap
      · -- the slot was copied, so it was there
        rw [if_neg (by omega), if_pos hc, List.getD_eq_getElem?_getD]
        have hcj := hget j
        rw [if_pos (by omega), List.getElem?_eq_getElem (by omega)] at hcj
        rw [List.getElem?_eq_getElem (by omega), hcj, ← hcj, Option.getD_some]
      · rw [if_pos (by omega), if_neg hc]
        rfl
    · rw [List.getElem?_eq_none (by omega), List.getElem?_eq_none (by simpa using hj)]
  exact ⟨rfl, by rw [taskTableRealloc, if_pos rfl, hslots]⟩

/-- `task_table_set` of a task, where no access leaves the block. -/
theorem set_checked {block : Option (Nat → Option Tid)} {result : Int × TaskTable}
    (h : taskTableSetChecked t tid (some v) block = some result) : taskTableSet t tid v block.isSome = result := by
  obtain ⟨grown, hgrow, h⟩ := Option.bind_eq_some_iff.1 h
  have hreg : (grown = (-1, t) ∧
        (if tid ≥ t.cap then taskTableRealloc t (u64 (tid + 1)) block.isSome else some t) = none) ∨
      (grown.1 = 0 ∧
        (if tid ≥ t.cap then taskTableRealloc t (u64 (tid + 1)) block.isSome else some t) = some grown.2) := by
    split at hgrow
    · rename_i hge
      rw [if_pos hge]
      cases block with
      | none => exact .inl ⟨(Option.some.inj hgrow).symm, rfl⟩
      | some old => exact .inr (realloc_checked hgrow)
    · rename_i hge
      rw [if_neg hge]
      cases hgrow
      exact .inr ⟨rfl, rfl⟩
  rw [taskTableSet]
  rcases hreg with ⟨rfl, hreg⟩ | ⟨hr, hreg⟩
  · rw [hreg]
    exact Option.some.inj h
  · rw [hreg]
    rw [if_neg (not_not.2 hr)] at h
    obtain ⟨slot, hslot, h⟩ := Option.bind_eq_some_iff.1 h
    have hget : grown.2.slots.getD tid none = slot := by rw [List.getD_eq_getElem?_getD, hslot, Option.getD_some]
    simp only [hget]
    split at h
    · rename_i hs
      rw [if_pos hs]
      exact Option.some.inj h
    · rename_i hs
      rw [if_neg hs]
      rw [writeSlot, if_pos (List.getElem?_eq_some_iff.1 hslot).1] at h
      exact Option.some.inj h

end Registry

/-! ## The map -/

/-- What a call gives back. -/
inductive TableResult
  | code (r : Int)
  | value (v : Option Tid)

/-- A call, with what `kmalloc` returns should the table have to grow. -/
inductive TableCall
  | set (tid : BitVec 64) (value : Option Tid) (block : Option (Nat → Option Tid))
  | get (tid : BitVec 64)
  | clear (tid : BitVec 64)

def TaskTable.call (t : TaskTable) : TableCall → Option (TableResult × TaskTable)
  | .set tid value block => (taskTableSetChecked t tid.toNat value block).map fun r => (.code r.1, r.2)
  | .get tid => (taskTableGetChecked t tid.toNat).map fun v => (.value v, t)
  | .clear tid => (taskTableClearChecked t tid.toNat).map fun r => (.code r.1, r.2)

/-- A partial map from ids to values, with room for the ids below `cap`. -/
structure SlotMap where
  cap : Nat
  map : Nat → Option Tid

def SlotMap.empty (cap : Nat) : SlotMap := ⟨cap, fun _ => none⟩

/-- An occupied id, or an id for which there is no room, is not set. -/
def SlotMap.set (m : SlotMap) (tid : Nat) (value : Option Tid) (grows : Bool) : Int × SlotMap :=
  if tid < m.cap then
    if (m.map tid).isSome then (-1, m) else (0, { m with map := update m.map tid value })
  else if grows then (0, ⟨max (2 * m.cap) (tid + 1), update m.map tid value⟩)
  else (-1, m)

def SlotMap.call (m : SlotMap) : TableCall → TableResult × SlotMap
  | .set tid value block =>
    (.code (m.set tid.toNat value block.isSome).1, (m.set tid.toNat value block.isSome).2)
  | .get tid => (.value (m.map tid.toNat), m)
  | .clear tid =>
    if tid.toNat < m.cap then (.code 0, { m with map := update m.map tid.toNat none }) else (.code (-1), m)

/-- The block holds `cap` pointers, those of the map. -/
structure Agrees (t : TaskTable) (m : SlotMap) : Prop where
  full : t.slots.length = t.cap
  cap : t.cap = m.cap
  get : ∀ i, t.slots.getD i none = m.map i

/-- Along the calls the table is the map, and no access is outside the block. -/
def Refines : TaskTable → SlotMap → List TableCall → Prop
  | t, m, [] => Agrees t m
  | t, m, c :: calls => Agrees t m ∧ ∃ t', t.call c = some ((m.call c).1, t') ∧ Refines t' (m.call c).2 calls

/-- A call that makes the table grow finds room below `2^61` pointers. -/
def SlotMap.FitsCall (m : SlotMap) : TableCall → Prop
  | .set tid _ block => block.isSome → m.cap ≤ tid.toNat → 2 * m.cap < 2 ^ 61 ∧ tid.toNat + 1 < 2 ^ 61
  | .get _ | .clear _ => True

def SlotMap.Fits : SlotMap → List TableCall → Prop
  | _, [] => True
  | m, c :: calls => m.FitsCall c ∧ (m.call c).2.Fits calls

section Steps

variable {t : TaskTable} {m : SlotMap}

theorem Agrees.slot (h : Agrees t m) {i : Nat} (hi : i < m.cap) : t.slots[i]? = some (m.map i) := by
  have hlt : i < t.slots.length := by rw [h.full, h.cap]; exact hi
  rw [← h.get i, List.getD_eq_getElem?_getD, List.getElem?_eq_getElem hlt, Option.getD_some]

theorem Agrees.map_outside (h : Agrees t m) {i : Nat} (hi : m.cap ≤ i) : m.map i = none := by
  rw [← h.get i, List.getD_eq_default _ _ (by rw [h.full, h.cap]; exact hi)]

theorem Agrees.write (h : Agrees t m) {i : Nat} (hi : i < m.cap) (v : Option Tid) :
    writeSlot t.slots i v = some (t.slots.set i v) ∧
      Agrees { t with slots := t.slots.set i v } { m with map := update m.map i v } := by
  have hlt : i < t.slots.length := by rw [h.full, h.cap]; exact hi
  refine ⟨if_pos hlt, ⟨(List.length_set).trans h.full, h.cap, fun j => ?_⟩⟩
  rw [List.getD_eq_getElem?_getD]
  dsimp only
  by_cases hj : j = i
  · subst hj
    rw [List.getElem?_set_self hlt, Option.getD_some, update_self]
  · rw [List.getElem?_set_ne (Ne.symm hj), update_of_ne hj, ← h.get j, List.getD_eq_getElem?_getD]

theorem newCap_eq (hcap : t.cap < 2 ^ 61) (minCap : Nat) : newCap t minCap = max (2 * t.cap) minCap := by
  rw [newCap, u64_of_lt (by omega)]
  split <;> omega

theorem Agrees.realloc (h : Agrees t m) {minCap : Nat} (old : Nat → Option Tid) (hle : m.cap ≤ newCap t minCap)
    (hlt : newCap t minCap < 2 ^ 61) :
    ∃ t', taskTableReallocChecked t minCap (some old) = some (0, t') ∧ Agrees t' ⟨newCap t minCap, m.map⟩ := by
  have hblock : blockSlots (newCap t minCap) = newCap t minCap := blockSlots_of_lt (by omega)
  have hcap := h.cap
  obtain ⟨copied, hcopy⟩ : ∃ copied, storeLoop (fun i => t.slots[i]?) t.cap 0 (freshSlots old (newCap t minCap)) =
      some copied := by
    refine storeLoop_returns (fun j _ hj => ?_) (by rw [length_freshSlots]; omega)
    rw [h.slot (by omega)]
    rfl
  obtain ⟨hlen, hget⟩ := storeLoop_get hcopy
  rw [length_freshSlots, hblock] at hlen
  obtain ⟨slots, hfill⟩ : ∃ slots, storeLoop nullSlot (newCap t minCap - t.cap) t.cap copied = some slots :=
    storeLoop_returns (fun _ _ _ => rfl) (by omega)
  obtain ⟨hlen', hget'⟩ := storeLoop_get hfill
  refine ⟨⟨slots, newCap t minCap⟩, ?_, ⟨hlen'.trans hlen, rfl, fun i => ?_⟩⟩
  · rw [taskTableReallocChecked, hcopy, Option.bind_some, hfill, Option.map_some]
  · rw [List.getD_eq_getElem?_getD, hget' i]
    by_cases hi : i < m.cap
    · rw [if_neg (by omega), hget i, if_pos (by omega), h.slot hi, Option.getD_some]
    · rw [h.map_outside (by omega)]
      by_cases hin : i < newCap t minCap
      · rw [if_pos (by omega)]
        rfl
      · rw [if_neg (by omega), List.getElem?_eq_none (by omega), Option.getD_none]

/-- The size of the block wraps around, and the loops run past its end. -/
theorem Agrees.realloc_outside (h : Agrees t m) {minCap : Nat} (old : Nat → Option Tid) (hle : m.cap ≤ newCap t minCap)
    (hge : 2 ^ 61 ≤ newCap t minCap) : taskTableReallocChecked t minCap (some old) = none := by
  have hblock := blockSlots_lt (newCap t minCap)
  have hcap := h.cap
  rw [taskTableReallocChecked]
  cases hcopy : storeLoop (fun i => t.slots[i]?) t.cap 0 (freshSlots old (newCap t minCap)) with
  | none => rfl
  | some copied =>
    have hlen := (storeLoop_get hcopy).1
    rw [length_freshSlots] at hlen
    -- the copying stayed inside, so the block has room for the old slots
    have hroom : t.cap ≤ copied.length := by
      by_contra hno
      rw [storeLoop_outside (Nat.zero_le _) (by rw [length_freshSlots]; omega)] at hcopy
      cases hcopy
    rw [Option.bind_some, storeLoop_outside hroom (by omega), Option.map_none]

theorem Agrees.fill (h : Agrees t m) {tid : Nat} (hlt : tid < m.cap) (value : Option Tid) (grows : Bool) :
    ∃ t', fillSlot t tid value = some ((m.set tid value grows).1, t') ∧ Agrees t' (m.set tid value grows).2 := by
  rw [fillSlot, h.slot hlt, Option.bind_some, SlotMap.set, if_pos hlt]
  by_cases hs : (m.map tid).isSome
  · simp only [if_pos hs]
    exact ⟨t, rfl, h⟩
  · simp only [if_neg hs]
    obtain ⟨hw, hagrees⟩ := h.write hlt value
    exact ⟨_, by rw [hw, Option.map_some], hagrees⟩

theorem Agrees.set (h : Agrees t m) (hcap : m.cap < 2 ^ 61) {tid : Nat} (value : Option Tid)
    (block : Option (Nat → Option Tid))
    (hfit : block.isSome → m.cap ≤ tid → 2 * m.cap < 2 ^ 61 ∧ tid + 1 < 2 ^ 61) :
    ∃ t', taskTableSetChecked t tid value block = some ((m.set tid value block.isSome).1, t') ∧
      Agrees t' (m.set tid value block.isSome).2 ∧ (m.set tid value block.isSome).2.cap < 2 ^ 61 := by
  have hc := h.cap
  rw [taskTableSetChecked]
  by_cases hlt : tid < m.cap
  · obtain ⟨t', hfill, hagrees⟩ := h.fill hlt value block.isSome
    refine ⟨t', ?_, hagrees, ?_⟩
    · rw [if_neg (by omega), Option.bind_some, if_neg (by simp), hfill]
    · rw [SlotMap.set, if_pos hlt]
      split <;> exact hcap
  · rw [if_pos (by omega), SlotMap.set, if_neg hlt]
    cases block with
    | none => exact ⟨t, rfl, h, hcap⟩
    | some old =>
      obtain ⟨h2, ht⟩ := hfit rfl (by omega)
      have hnew : newCap t (u64 (tid + 1)) = max (2 * m.cap) (tid + 1) := by
        rw [newCap_eq (by omega), u64_of_lt (by omega), hc]
      obtain ⟨g, hgrow, hg⟩ := h.realloc old (by omega : m.cap ≤ newCap t (u64 (tid + 1))) (by omega)
      rw [hnew] at hg
      obtain ⟨t', hfill, hagrees⟩ := hg.fill (show tid < max (2 * m.cap) (tid + 1) by omega) value true
      have hempty : ¬ (m.map tid).isSome := by rw [h.map_outside (by omega)]; simp
      rw [SlotMap.set, if_pos (show tid < max (2 * m.cap) (tid + 1) by omega), if_neg hempty] at hfill hagrees
      refine ⟨t', ?_, hagrees, ?_⟩
      · rw [hgrow, Option.bind_some, if_neg (by simp), hfill]
        rfl
      · show max (2 * m.cap) (tid + 1) < 2 ^ 61
        omega

/-- A table that would have to grow beyond `2^61` pointers: the block is too small, or the id wraps around and stays
outside. -/
theorem Agrees.set_outside (h : Agrees t m) (hcap : m.cap < 2 ^ 61) {tid : Nat} (htid : tid < 2 ^ 64) (value : Option Tid)
    (old : Nat → Option Tid) (hge : m.cap ≤ tid) (hbig : 2 ^ 61 ≤ 2 * m.cap ∨ 2 ^ 61 ≤ tid + 1) :
    taskTableSetChecked t tid value (some old) = none := by
  have hc := h.cap
  have hnew := newCap_eq (t := t) (by omega) (u64 (tid + 1))
  rw [taskTableSetChecked, if_pos (by omega)]
  by_cases hout : 2 ^ 61 ≤ newCap t (u64 (tid + 1))
  · rw [h.realloc_outside old (by omega) hout, Option.bind_none]
  · -- `tid + 1` is 0, and the id is outside the grown table
    have hwrap : tid + 1 = 2 ^ 64 := by
      by_contra hne
      rw [u64_of_lt (by omega)] at hnew hout
      omega
    obtain ⟨g, hgrow, hg⟩ := h.realloc old (by omega : m.cap ≤ newCap t (u64 (tid + 1))) (by omega)
    have hlen : g.slots.length ≤ tid := by
      rw [hg.full, hg.cap]
      show newCap t (u64 (tid + 1)) ≤ tid
      omega
    rw [hgrow, Option.bind_some, if_neg (by simp), fillSlot, List.getElem?_eq_none hlen, Option.bind_none]

theorem call_fits (h : Agrees t m) (hcap : m.cap < 2 ^ 61) {c : TableCall} (hfit : m.FitsCall c) :
    ∃ t', t.call c = some ((m.call c).1, t') ∧ Agrees t' (m.call c).2 ∧ (m.call c).2.cap < 2 ^ 61 := by
  have hc := h.cap
  cases c with
  | set tid value block =>
    obtain ⟨t', hset, hagrees, hcap'⟩ := h.set hcap value block hfit
    exact ⟨t', by rw [TaskTable.call, hset, Option.map_some]; rfl, hagrees, hcap'⟩
  | get tid =>
    refine ⟨t, ?_, h, hcap⟩
    rw [TaskTable.call, taskTableGetChecked]
    by_cases hlt : tid.toNat < t.cap
    · rw [if_pos hlt, h.slot (by omega)]
      rfl
    · rw [if_neg hlt, SlotMap.call, h.map_outside (by omega)]
      rfl
  | clear tid =>
    rw [TaskTable.call, taskTableClearChecked, SlotMap.call]
    by_cases hlt : tid.toNat < t.cap
    · obtain ⟨hw, hagrees⟩ := h.write (hc ▸ hlt) none
      rw [if_pos hlt, if_pos (hc ▸ hlt), hw]
      exact ⟨_, rfl, hagrees, hcap⟩
    · rw [if_neg hlt, if_neg (hc ▸ hlt)]
      exact ⟨t, rfl, h, hcap⟩

theorem call_unfit (h : Agrees t m) (hcap : m.cap < 2 ^ 61) {c : TableCall} (hfit : ¬ m.FitsCall c) : t.call c = none := by
  cases c with
  | set tid value block =>
    simp only [SlotMap.FitsCall, Classical.not_imp, not_and_or, Nat.not_lt] at hfit
    obtain ⟨hsome, hge, hbig⟩ := hfit
    obtain ⟨old, rfl⟩ := Option.isSome_iff_exists.1 hsome
    rw [TaskTable.call, h.set_outside hcap tid.isLt value old hge hbig, Option.map_none]
  | get tid => exact absurd trivial hfit
  | clear tid => exact absurd trivial hfit

/-- The runs of an agreeing table that stay inside their blocks. -/
theorem refines_iff : ∀ {calls : List TableCall} {t : TaskTable} {m : SlotMap}, Agrees t m → m.cap < 2 ^ 61 →
    (Refines t m calls ↔ m.Fits calls)
  | [], t, m, h, hcap => ⟨fun _ => trivial, fun _ => h⟩
  | c :: calls, t, m, h, hcap => by
    constructor
    · rintro ⟨-, t', hcall, hrest⟩
      by_cases hfit : m.FitsCall c
      · obtain ⟨t'', hcall', hagrees, hcap'⟩ := call_fits h hcap hfit
        cases hcall.symm.trans hcall'
        exact ⟨hfit, (refines_iff hagrees hcap').1 hrest⟩
      · cases hcall.symm.trans (call_unfit h hcap hfit)
    · rintro ⟨hfit, hrest⟩
      obtain ⟨t', hcall, hagrees, hcap'⟩ := call_fits h hcap hfit
      exact ⟨h, t', hcall, (refines_iff hagrees hcap').2 hrest⟩

end Steps

/-- `task_table_init` and the calls on the table it makes: NULL only without memory, else the empty map. -/
def TableInBounds (initCap : BitVec 64) (tableOk : Bool) (block : Option (Nat → Option Tid)) (calls : List TableCall) :
    Prop :=
  ∃ made, taskTableInitChecked initCap.toNat tableOk block = some made ∧
    if tableOk && block.isSome then ∃ t, made = some t ∧ Refines t (.empty (initialCap initCap.toNat)) calls
    else made = none

theorem init_empty (cap : Nat) (old : Nat → Option Tid) (hcap : initialCap cap < 2 ^ 61) :
    ∃ t, taskTableInitChecked cap true (some old) = some (some t) ∧ Agrees t (.empty (initialCap cap)) := by
  have hblock : blockSlots (initialCap cap) = initialCap cap := blockSlots_of_lt (by omega)
  obtain ⟨slots, hfill⟩ : ∃ slots, storeLoop nullSlot (initialCap cap) 0 (freshSlots old (initialCap cap)) = some slots :=
    storeLoop_returns (fun _ _ _ => rfl) (by rw [length_freshSlots]; omega)
  obtain ⟨hlen, hget⟩ := storeLoop_get hfill
  rw [length_freshSlots, hblock] at hlen
  refine ⟨⟨slots, initialCap cap⟩, ?_, ⟨hlen, rfl, fun i => ?_⟩⟩
  · rw [taskTableInitChecked, if_pos rfl, hfill]
    rfl
  · rw [List.getD_eq_getElem?_getD, hget i]
    by_cases hi : i < initialCap cap
    · rw [if_pos (by omega)]
      rfl
    · rw [if_neg (by omega), List.getElem?_eq_none (by rw [length_freshSlots]; omega)]
      rfl

/-- The runs that stay inside the blocks they allocate and behave as the map: no table is asked to hold `2^61` pointers. -/
theorem table_iff (initCap : BitVec 64) (tableOk : Bool) (block : Option (Nat → Option Tid)) (calls : List TableCall) :
    TableInBounds initCap tableOk block calls ↔
      (tableOk = true → block.isSome →
        initialCap initCap.toNat < 2 ^ 61 ∧ (SlotMap.empty (initialCap initCap.toNat)).Fits calls) := by
  unfold TableInBounds
  cases tableOk with
  | false => exact ⟨fun _ h => absurd h (by decide), fun _ => ⟨none, rfl, rfl⟩⟩
  | true =>
    cases block with
    | none => exact ⟨fun _ _ h => absurd h (by decide), fun _ => ⟨none, rfl, rfl⟩⟩
    | some old =>
      constructor
      · rintro ⟨made, hmade, hrun⟩ - -
        obtain ⟨t, rfl, hrun⟩ := hrun
        have hcap : initialCap initCap.toNat < 2 ^ 61 := by
          by_contra hbig
          rw [taskTableInitChecked, if_pos rfl, storeLoop_outside (Nat.zero_le _)] at hmade
          · cases hmade
          · rw [length_freshSlots]
            have := blockSlots_lt (initialCap initCap.toNat)
            omega
        obtain ⟨t', hmade', hagrees⟩ := init_empty _ old hcap
        cases hmade.symm.trans hmade'
        exact ⟨hcap, (refines_iff hagrees hcap).1 hrun⟩
      · intro h
        obtain ⟨hcap, hfits⟩ := h rfl rfl
        obtain ⟨t, hmade, hagrees⟩ := init_empty _ old hcap
        exact ⟨some t, hmade, t, rfl, (refines_iff hagrees hcap).2 hfits⟩

/-- `tid + 1` wraps around to 0: a table for 4 ids grows to 8 and is then read at the last 64-bit id. -/
theorem set_lastId_outside :
    ¬ TableInBounds 0 true (some fun _ => none) [.set (BitVec.allOnes 64) (some 1) (some fun _ => none)] := by
  rintro ⟨made, hmade, t, rfl, -, t', hcall, -⟩
  obtain ⟨t'', hmade', hagrees⟩ := init_empty 0 (fun _ => none) (by decide)
  cases hmade.symm.trans hmade'
  have hout := hagrees.set_outside (by decide) (show 2 ^ 64 - 1 < 2 ^ 64 by decide) (some 1) (fun _ => none) (by decide)
    (by decide)
  rw [TaskTable.call, show (BitVec.allOnes 64).toNat = 2 ^ 64 - 1 by decide, hout] at hcall
  cases hcall

end ToastOS.Task
