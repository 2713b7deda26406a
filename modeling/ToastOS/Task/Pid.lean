import ToastOS.Lib.Memory
import Mathlib.Data.List.Basic

/-!
# The pid registry: `taskTable.c` and `pidTable.c`

A task is named by the address of its TCB (`Tid`, NULL is `none`). The registry is a growable slot array
(`TaskTable`), a LIFO list of released pids and a high-water mark. Arithmetic is that of `uint64_t` (`u64`);
every `kmalloc` takes its outcome as an argument.

The block behind `slots` holds `slots.length` pointers, while `cap` is what the code believes; reads past the
block give NULL and writes past it are dropped.
-/

namespace ToastOS.Task

variable {ok : Bool} {i p : Nat}

/-- The address of a TCB. -/
abbrev Tid := Nat

/-- `task_table_t`: the block of pointers and the capacity the code keeps for it. -/
structure TaskTable where
  slots : List (Option Tid)
  cap : Nat
  deriving DecidableEq

/-- How many pointers fit into the block that `kmalloc(sizeof(void*) * cap)` returns. -/
def blockSlots (cap : Nat) : Nat := u64 (8 * cap) / 8

/-- `task_table_init`: the capacity defaults to 4. -/
def taskTableInit (initCap : Nat) (tableOk slotsOk : Bool) : Option TaskTable :=
  let cap := if initCap = 0 then 4 else initCap
  if tableOk && slotsOk then some ⟨List.replicate (blockSlots cap) none, cap⟩ else none

/-- `new_cap` of `task_table_realloc`: at least double. -/
def newCap (table : TaskTable) (minCap : Nat) : Nat :=
  if u64 (table.cap * 2) < minCap then minCap else u64 (table.cap * 2)

/-- `task_table_realloc`: copy the old slots, clear the rest; `none` is -1. -/
def taskTableRealloc (table : TaskTable) (minCap : Nat) (ok : Bool) : Option TaskTable :=
  if ok then
    some ⟨(List.range (blockSlots (newCap table minCap))).map fun i =>
      if i < table.cap then table.slots.getD i none else none, newCap table minCap⟩
  else none

/-- `task_table_set`: grow when the id is past the end, refuse an occupied slot. -/
def taskTableSet (table : TaskTable) (tid : Nat) (value : Tid) (ok : Bool) : Int × TaskTable :=
  match if tid ≥ table.cap then taskTableRealloc table (u64 (tid + 1)) ok else some table with
  | none => (-1, table)
  | some table =>
    if (table.slots.getD tid none).isSome then (-1, table)
    else (0, { table with slots := table.slots.set tid (some value) })

def taskTableGet (table : TaskTable) (tid : Nat) : Option Tid :=
  if tid < table.cap then table.slots.getD tid none else none

def taskTableClear (table : TaskTable) (tid : Nat) : Int × TaskTable :=
  if tid < table.cap then (0, { table with slots := table.slots.set tid none }) else (-1, table)

/-- `g_pid_table`, `free_pid_list` (most recently released first) and `next_greatest_pid`. -/
structure PidReg where
  table : TaskTable
  freePids : List Nat
  nextPid : Nat
  deriving DecidableEq

def pidTableLookup (r : PidReg) (pid : Nat) : Option Tid := taskTableGet r.table pid

/-- `pid_table_insert`: 0 on success, -1 on failure. -/
def pidTableInsert (r : PidReg) (pid : Nat) (task : Tid) (ok : Bool) : Int × PidReg :=
  ((taskTableSet r.table pid task ok).1, { r with table := (taskTableSet r.table pid task ok).2 })

def pidTableRemove (r : PidReg) (pid : Nat) : PidReg :=
  { r with table := (taskTableClear r.table pid).2 }

/-- `pid_alloc`: reuse the pid released last, else take the next new one. -/
def pidAlloc (r : PidReg) : Nat × PidReg :=
  match r.freePids with
  | p :: ps => (p, { r with freePids := ps })
  | [] => (r.nextPid, { r with nextPid := u64 (r.nextPid + 1) })

/-- `pid_release`: without a list node the pid is given up for good. -/
def pidRelease (r : PidReg) (pid : Nat) (ok : Bool) : PidReg :=
  if ok then { r with freePids := pid :: r.freePids } else r

/-! ## What the table functions do to a lookup -/

/-- The block behind `slots` really holds `cap` pointers. -/
def TaskTable.Full (t : TaskTable) : Prop := t.slots.length = t.cap

theorem blockSlots_of_lt {cap : Nat} (h : 8 * cap < 2 ^ 64) : blockSlots cap = cap := by
  rw [blockSlots, u64_of_lt h]
  omega

theorem getD_copied (t : TaskTable) (n i : Nat) :
    ((List.range n).map fun i => if i < t.cap then t.slots.getD i none else none).getD i none =
      if i < n then taskTableGet t i else none := by
  rw [List.getD_eq_getElem?_getD, List.getElem?_map]
  by_cases hi : i < n
  · rw [List.getElem?_range hi, if_pos hi]
    rfl
  · rw [List.getElem?_eq_none (by simpa using hi), if_neg hi]
    rfl

variable {t : TaskTable} {x : Tid}

theorem get_realloc {t' : TaskTable} {m : Nat} (h : taskTableRealloc t m ok = some t')
    (hx : t'.slots.getD i none = some x) : taskTableGet t i = some x := by
  unfold taskTableRealloc at h
  split at h
  · cases h
    rw [getD_copied] at hx
    split at hx
    · exact hx
    · cases hx
  · cases h

theorem get_clear : taskTableGet (taskTableClear t p).2 i = if i = p then none else taskTableGet t i := by
  unfold taskTableClear
  by_cases hp : p < t.cap
  · simp only [if_pos hp, taskTableGet]
    by_cases hi : i = p
    · subst hi
      by_cases hl : i < t.slots.length <;> simp [List.getD_eq_getElem?_getD, hl]
    · simp [List.getD_eq_getElem?_getD, hi, Ne.symm hi]
  · simp only [if_neg hp, taskTableGet]
    by_cases hi : i = p
    · subst hi
      simp [hp]
    · simp [hi]

/-- The table a successful growth leaves: nothing lost, the new slots empty. -/
theorem realloc_full {t' : TaskTable} {m : Nat}
    (h : taskTableRealloc t m ok = some t') (hm : 8 * m < 2 ^ 64) (hc : 16 * t.cap < 2 ^ 64) :
    t'.Full ∧ m ≤ t'.cap ∧ 2 * t.cap ≤ t'.cap ∧ (t'.cap = m ∨ t'.cap = 2 * t.cap) ∧
      ∀ i, taskTableGet t' i = taskTableGet t i := by
  have hcap : newCap t m = if t.cap * 2 < m then m else t.cap * 2 := by
    rw [newCap, u64_of_lt (show t.cap * 2 < 2 ^ 64 by omega)]
  have hnew : 8 * newCap t m < 2 ^ 64 := by
    rw [hcap]
    split <;> omega
  unfold taskTableRealloc at h
  split at h
  · cases h
    refine ⟨?_, ?_, ?_, ?_, fun i => ?_⟩
    · simp [TaskTable.Full, blockSlots_of_lt hnew]
    · simp only [hcap]
      split <;> omega
    · simp only [hcap]
      split <;> omega
    · simp only [hcap]
      split <;> omega
    · have hle : t.cap ≤ newCap t m := by
        rw [hcap]
        split <;> omega
      simp only [taskTableGet]
      rw [getD_copied, blockSlots_of_lt hnew, taskTableGet]
      by_cases hi : i < newCap t m
      · simp [hi]
      · simp [hi, show ¬ i < t.cap by omega]
  · cases h

/-- Registering a task never changes what another id maps to, and maps its own id to the task or, past the
block, to nothing. -/
theorem get_set {y : Tid}
    (h : taskTableGet (taskTableSet t p x ok).2 i = some y) :
    taskTableGet t i = some y ∨ i = p ∧ y = x ∧ (taskTableSet t p x ok).1 = 0 := by
  unfold taskTableSet at h ⊢
  split at h
  · exact .inl h
  · rename_i t' ht'
    have hold : ∀ j z, taskTableGet t' j = some z → taskTableGet t j = some z := by
      intro j z hz
      split at ht'
      · unfold taskTableGet at hz
        split at hz
        · exact get_realloc ht' hz
        · cases hz
      · cases ht'
        exact hz
    split at h
    · exact .inl (hold i y h)
    · rename_i hs
      simp only [taskTableGet] at h
      split at h
      · rename_i hi
        by_cases hip : i = p
        · subst hip
          refine .inr ⟨rfl, ?_, by rw [if_neg hs]⟩
          by_cases hl : i < t'.slots.length
          · simpa [List.getD_eq_getElem?_getD, hl, eq_comm] using h
          · simp [List.getD_eq_getElem?_getD, hl] at h
        · refine .inl (hold i y ?_)
          simpa [taskTableGet, hi, List.getD_eq_getElem?_getD, Ne.symm hip] using h
      · cases h

/-- What registering does to a table whose size is in range: the task is entered at its own id, or nothing changes because
the id is taken or there is no memory to grow. -/
theorem set_spec (ok : Bool) (hf : t.Full) (hc : 16 * t.cap < 2 ^ 64)
    (hp : p < 2 ^ 59) :
    (taskTableSet t p x ok).2.Full ∧ 16 * (taskTableSet t p x ok).2.cap < 2 ^ 64 ∧
      (((taskTableSet t p x ok).1 = 0 ∧ taskTableGet t p = none ∧
          ∀ i, taskTableGet (taskTableSet t p x ok).2 i = if i = p then some x else taskTableGet t i) ∨
        ((taskTableSet t p x ok).1 = -1 ∧ (taskTableGet t p ≠ none ∨ t.cap ≤ p ∧ ok = false) ∧
          ∀ i, taskTableGet (taskTableSet t p x ok).2 i = taskTableGet t i)) := by
  unfold taskTableSet
  split
  · -- no memory to grow
    rename_i hnone
    refine ⟨hf, hc, .inr ⟨rfl, .inr ?_, fun i => rfl⟩⟩
    split at hnone
    · rename_i hge
      refine ⟨hge, ?_⟩
      unfold taskTableRealloc at hnone
      split at hnone
      · cases hnone
      · rename_i hok
        simpa using hok
    · cases hnone
  · rename_i t' ht'
    -- the table that is written to: full, in range, with the old entries and room for the id
    have hroom : t'.Full ∧ 16 * t'.cap < 2 ^ 64 ∧ p < t'.cap ∧ ∀ i, taskTableGet t' i = taskTableGet t i := by
      split at ht'
      · rename_i hge
        have hu : u64 (p + 1) = p + 1 := u64_of_lt (by omega)
        rw [hu] at ht'
        obtain ⟨h1, h2, h3, h4, h5⟩ := realloc_full ht' (by omega) hc
        refine ⟨h1, ?_, by omega, h5⟩
        rcases h4 with h4 | h4 <;> omega
      · cases ht'
        exact ⟨hf, hc, by omega, fun i => rfl⟩
    obtain ⟨hf', hc', hp', hget⟩ := hroom
    have hslot : taskTableGet t p = t'.slots.getD p none := by
      rw [← hget p, taskTableGet, if_pos hp']
    split
    · rename_i hs
      refine ⟨hf', hc', .inr ⟨rfl, .inl ?_, hget⟩⟩
      rw [hslot]
      exact Option.isSome_iff_ne_none.1 hs
    · rename_i hs
      refine ⟨?_, hc', .inl ⟨rfl, ?_, fun i => ?_⟩⟩
      · show (t'.slots.set p (some x)).length = t'.cap
        rw [List.length_set]; exact hf'
      · rw [hslot]
        exact Option.not_isSome_iff_eq_none.1 hs
      · show (if i < t'.cap then (t'.slots.set p (some x)).getD i none else none) = _
        by_cases hi : i = p
        · subst hi
          have hl : i < t'.slots.length := by rw [show t'.slots.length = t'.cap from hf']; exact hp'
          rw [if_pos hp', if_pos rfl]
          simp [List.getD_eq_getElem?_getD, hl]
        · rw [if_neg hi, ← hget i, taskTableGet]
          simp [List.getD_eq_getElem?_getD, Ne.symm hi]

end ToastOS.Task
