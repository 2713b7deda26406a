import Mathlib.Logic.Function.Basic
import Mathlib.Data.List.Basic

/-!
# Intrusive queues: lists threaded through one `next` field

Nodes of a type `α` carry one link `next : α → Option α`, shared by every list a node may be on; a queue is
a pair of pointers `first`, `last`.

* `Seg next h l e` : from the pointer `h` the links run through the nodes `l` and arrive at the pointer `e`;
  `Seg.congr` (only the links of `l` matter), `Seg.append`, `Seg.unique`;
* `Queue.Holds next q l` : `q` is the well-formed queue of the nodes `l` (`last` is NULL iff `l` is empty);
* `Queue.push`, `Queue.pop`, `Queue.remove`, `Queue.insertBy` : append, take the head, remove any node, insert
  by key behind the nodes of at most that key. Each comes with what it does to the queue it works on and
  which links it may write (`push_next`, `pop_next`; within `remove_mem` and `insertBy_spec`);
* `pairwise_insertKey` : inserting by key keeps the nodes in order, those of one key in order of arrival.

The two loops that walk the links take fuel; a walk that runs out of it is going round a cycle and yields
`none`. On a well-formed queue the length of the list is enough fuel.
-/

namespace ToastOS.Lib

open Function

variable {α : Type}

/-! ## Segments -/

/-- From the pointer `h`, the links run through `l` and arrive at `e`. -/
def Seg (next : α → Option α) : Option α → List α → Option α → Prop
  | h, [], e => h = e
  | h, a :: l, e => h = some a ∧ Seg next (next a) l e

variable {next : α → Option α} {l l₂ : List α} {a x : α} {fuel : Nat}

theorem Seg.congr {next' : α → Option α} :
    ∀ {l : List α} {h e : Option α}, Seg next h l e → (∀ x ∈ l, next' x = next x) → Seg next' h l e
  | [], _, _, hs, _ => hs
  | a :: l, h, e, hs, hn => by
    refine ⟨hs.1, ?_⟩
    rw [hn a (by simp)]
    exact Seg.congr hs.2 (fun x hx => hn x (List.mem_cons_of_mem a hx))

theorem Seg.append :
    ∀ {l₁ l₂ : List α} {h e : Option α},
      Seg next h (l₁ ++ l₂) e ↔ ∃ m, Seg next h l₁ m ∧ Seg next m l₂ e
  | [], l₂, h, e => by simp [Seg]
  | a :: l₁, l₂, h, e => by
    constructor
    · rintro ⟨ha, hs⟩
      obtain ⟨m, h1, h2⟩ := Seg.append.mp hs
      exact ⟨m, ⟨ha, h1⟩, h2⟩
    · rintro ⟨m, ⟨ha, h1⟩, h2⟩
      exact ⟨ha, Seg.append.mpr ⟨m, h1, h2⟩⟩

theorem Seg.head {h : Option α} (hs : Seg next h l none) : h = l.head? := by
  cases l with
  | nil => exact hs
  | cons a l => exact hs.1

theorem Seg.next_of_split {l₁ : List α} {h e : Option α}
    (hs : Seg next h (l₁ ++ a :: l₂) e) : Seg next h l₁ (some a) ∧ Seg next (next a) l₂ e := by
  obtain ⟨m, h1, h2, h3⟩ := Seg.append.mp hs
  exact ⟨h2 ▸ h1, h3⟩

theorem Seg.insertAfter [DecidableEq α] {l₁ : List α} {t : α} {h e : Option α}
    (hs : Seg next h (l₁ ++ t :: l₂) e) (hn : (l₁ ++ t :: l₂).Nodup) (ha : a ∉ l₁ ++ t :: l₂) :
    Seg (update (update next a (next t)) t (some a)) h (l₁ ++ t :: a :: l₂) e := by
  obtain ⟨hs1, hs2⟩ := hs.next_of_split
  obtain ⟨-, hn2, hdis⟩ := List.nodup_append.1 hn
  have ht1 : t ∉ l₁ := fun hm => hdis t hm t List.mem_cons_self rfl
  have ht2 : t ∉ l₂ := (List.nodup_cons.1 hn2).1
  have hta : t ≠ a := fun he => ha (by simp [he])
  have hkeep : ∀ x, x ∈ l₁ ∨ x ∈ l₂ → update (update next a (next t)) t (some a) x = next x := by
    intro x hx
    have hxt : x ≠ t := by
      rintro rfl
      exact hx.elim ht1 ht2
    have hxa : x ≠ a := by
      rintro rfl
      exact ha (List.mem_append.2 (hx.imp_right (List.mem_cons_of_mem t)))
    rw [update_of_ne hxt, update_of_ne hxa]
  refine Seg.append.2 ⟨some t, hs1.congr fun x hx => hkeep x (.inl hx), rfl, ?_⟩
  rw [update_self]
  refine ⟨rfl, ?_⟩
  rw [update_of_ne hta.symm, update_self]
  exact hs2.congr fun x hx => hkeep x (.inr hx)

/-! ## Queues -/

/-- The two pointers of a queue. -/
structure Queue (α : Type) where
  first : Option α
  last : Option α
  deriving DecidableEq

/-- `q` is the queue of the nodes `l`, in order. -/
structure Queue.Holds (next : α → Option α) (q : Queue α) (l : List α) : Prop where
  seg : Seg next q.first l none
  last : q.last = l.getLast?

variable {q : Queue α}

theorem Queue.Holds.congr {next' : α → Option α}
    (h : Queue.Holds next q l) (hn : ∀ x ∈ l, next' x = next x) : Queue.Holds next' q l :=
  ⟨h.seg.congr hn, h.last⟩

variable [DecidableEq α]

/-- Append a node: its link is cleared, the old tail (if any) is linked to it. -/
def Queue.push (next : α → Option α) (q : Queue α) (a : α) : (α → Option α) × Queue α :=
  let next := update next a none
  match q.last with
  | some l => (update next l (some a), ⟨q.first, some a⟩)
  | none => (next, ⟨some a, some a⟩)

/-- Take the head off; its link is cleared. -/
def Queue.pop (next : α → Option α) (q : Queue α) : Option α × (α → Option α) × Queue α :=
  match q.first with
  | none => (none, next, q)
  | some a =>
    (some a, update next a none, ⟨next a, if (next a).isNone then none else q.last⟩)

/-- The walk `while (tracker && tracker->next != a) tracker = tracker->next`. -/
def findPrev (next : α → Option α) (a : α) : Nat → Option α → Option (Option α)
  | 0, _ => none
  | _ + 1, none => some none
  | n + 1, some t => if next t = some a then some (some t) else findPrev next a n (next t)

/-- Remove `a`, wherever it is; a node that is not on the queue is left alone. -/
def Queue.remove (fuel : Nat) (next : α → Option α) (q : Queue α) (a : α) :
    Option ((α → Option α) × Queue α) :=
  if q.first = some a then some (Queue.pop next q).2
  else match findPrev next a fuel q.first with
    | none => none
    | some none => some (next, q)
    | some (some t) =>
      some (update (update next t (next a)) a none,
        ⟨q.first, if q.last = some a then some t else q.last⟩)

/-- The walk `while (tracker->next && p(tracker->next)) tracker = tracker->next`. -/
def findSlot (next : α → Option α) (p : α → Bool) : Nat → α → Option α
  | 0, _ => none
  | n + 1, t =>
    match next t with
    | none => some t
    | some u => if p u then findSlot next p n u else some t

/-- Insert `a` behind the leading nodes whose key is at most its own. -/
def Queue.insertBy (fuel : Nat) (key : α → Nat) (next : α → Option α) (q : Queue α) (a : α) :
    Option ((α → Option α) × Queue α) :=
  let next := update next a none
  match q.first with
  | none => some (next, ⟨some a, if q.last.isNone then some a else q.last⟩)
  | some f =>
    if key a < key f then
      some (update next a (some f), ⟨some a, if q.last.isNone then some a else q.last⟩)
    else match findSlot next (fun u => decide (key u ≤ key a)) fuel f with
      | none => none
      | some t =>
        some (update (update next a (next t)) t (some a),
          ⟨q.first, if (next t).isNone then some a else q.last⟩)

/-! ## Append -/

theorem push_next (h : q.Holds next l) (a : α) (hxa : x ≠ a) (hx : x ∉ l) : (q.push next a).1 x = next x := by
  unfold Queue.push
  cases hl : q.last with
  | none => simp only [update_of_ne hxa]
  | some b =>
    have hb : b ∈ l := List.mem_of_getLast? (h.last.symm.trans hl)
    have hxb : x ≠ b := fun he => hx (he ▸ hb)
    simp only [update_of_ne hxb, update_of_ne hxa]

theorem push_holds (h : q.Holds next l)
    (hn : l.Nodup) (ha : a ∉ l) : (q.push next a).2.Holds (q.push next a).1 (l ++ [a]) := by
  rcases List.eq_nil_or_concat l with rfl | ⟨l', b, rfl⟩
  · have hlast : q.last = none := h.last
    simp only [Queue.push, hlast]
    exact ⟨⟨rfl, by simp [Seg]⟩, rfl⟩
  · rw [List.concat_eq_append] at h hn ha ⊢
    have hlast : q.last = some b := by simpa using h.last
    have hba : b ≠ a := fun he => ha (by simp [he])
    have hb : b ∉ l' := by
      intro hmem
      exact (List.nodup_append.mp hn).2.2 b hmem b (by simp) rfl
    simp only [Queue.push, hlast]
    refine ⟨?_, by simp⟩
    obtain ⟨h1, -⟩ := h.seg.next_of_split
    rw [List.append_assoc]
    refine Seg.append.mpr ⟨some b, h1.congr fun x hx => ?_, rfl, ?_⟩
    · have hxb : x ≠ b := fun he => hb (he ▸ hx)
      have hxa : x ≠ a := fun he => ha (by simp [← he, hx])
      rw [update_of_ne hxb, update_of_ne hxa]
    · rw [update_self]
      refine ⟨rfl, ?_⟩
      rw [update_of_ne hba.symm, update_self]
      rfl

/-! ## Take the head -/

theorem pop_next (h : q.Holds next l) (hx : x ∉ l) : (q.pop next).2.1 x = next x := by
  unfold Queue.pop
  cases hf : q.first with
  | none => rfl
  | some a =>
    have ha : a ∈ l := by
      rw [h.seg.head] at hf
      exact List.mem_of_head? hf
    exact update_of_ne (fun he => hx (by rw [he]; exact ha)) _ _

theorem pop_nil (h : q.Holds next []) : q.pop next = (none, next, q) := by
  have hf : q.first = none := h.seg
  simp [Queue.pop, hf]

theorem pop_cons
    (h : q.Holds next (a :: l)) (hn : (a :: l).Nodup) :
    (q.pop next).1 = some a ∧ (q.pop next).2.2.Holds (q.pop next).2.1 l ∧
      (q.pop next).2.1 a = none := by
  have hf : q.first = some a := h.seg.1
  have hal : a ∉ l := (List.nodup_cons.mp hn).1
  simp only [Queue.pop, hf]
  refine ⟨trivial, ⟨h.seg.2.congr fun x hx => ?_, ?_⟩, update_self _ _ _⟩
  · exact update_of_ne (fun he => hal (by rw [← he]; exact hx)) _ _
  · rw [h.seg.2.head, h.last]
    cases l <;> simp

/-! ## Remove anywhere -/

theorem findPrev_absent :
    ∀ {l : List α} {h : Option α} {fuel : Nat}, Seg next h l none → h ≠ some a → a ∉ l →
      l.length < fuel → findPrev next a fuel h = some none
  | [], h, fuel + 1, hs, _, _, _ => by
    rw [show h = none from hs]
    rfl
  | b :: l, h, fuel + 1, hs, _, ha, hf => by
    rw [hs.1]
    have hb : next b ≠ some a := by
      intro he
      have hseg := hs.2
      rw [he] at hseg
      cases l with
      | nil => cases hseg
      | cons c l => exact ha (by simp [Option.some.inj hseg.1])
    simp only [findPrev, if_neg hb]
    exact findPrev_absent hs.2 hb (fun hm => ha (List.mem_cons_of_mem b hm))
      (by simpa using hf)

theorem findPrev_split {b : α} :
    ∀ {l₁ : List α} {h : Option α} {fuel : Nat}, Seg next h (l₁ ++ b :: a :: l₂) none →
      (l₁ ++ b :: a :: l₂).Nodup → l₁.length < fuel → findPrev next a fuel h = some (some b)
  | [], h, fuel + 1, hs, _, _ => by
    obtain ⟨hh, hb, -⟩ := hs
    rw [hh]
    simp only [findPrev, if_pos hb]
  | c :: l₁, h, fuel + 1, hs, hn, hf => by
    obtain ⟨hh, hs⟩ := hs
    rw [hh]
    have hc : next c ≠ some a := by
      -- the node after `c` comes before `a`, and no node occurs twice
      intro he
      cases l₁ with
      | nil =>
        have : b = a := Option.some.inj (hs.1.symm.trans he)
        simp [this] at hn
      | cons d l₁ =>
        have : d = a := Option.some.inj (hs.1.symm.trans he)
        simp [this] at hn
    simp only [findPrev, if_neg hc]
    exact findPrev_split hs (List.nodup_cons.mp hn).2 (by simpa using hf)

theorem remove_absent
    (h : q.Holds next l) (ha : a ∉ l) (hf : l.length < fuel) :
    q.remove fuel next a = some (next, q) := by
  have hne : q.first ≠ some a := by
    intro he
    rw [h.seg.head] at he
    exact ha (List.mem_of_head? he)
  simp only [Queue.remove, if_neg hne, findPrev_absent h.seg hne ha hf]

/-- Removing a node of the queue: the rest keeps its order, the removed node's link is cleared and only
links of the queue's own nodes are written. -/
theorem remove_mem
    (h : q.Holds next l) (hn : l.Nodup) (ha : a ∈ l) (hf : l.length < fuel) :
    ∃ next' q', q.remove fuel next a = some (next', q') ∧ q'.Holds next' (l.erase a) ∧
      next' a = none ∧ ∀ x, x ∉ l → next' x = next x := by
  by_cases hfirst : q.first = some a
  · -- `a` is the head
    obtain ⟨l', rfl⟩ : ∃ l', l = a :: l' := by
      rw [h.seg.head] at hfirst
      cases l with
      | nil => cases hfirst
      | cons b l' => exact ⟨l', by rw [Option.some.inj hfirst]⟩
    obtain ⟨-, h2, h3⟩ := pop_cons h hn
    refine ⟨(q.pop next).2.1, (q.pop next).2.2, by simp only [Queue.remove, if_pos hfirst], ?_, h3,
      fun x hx => pop_next h hx⟩
    rw [List.erase_cons_head]
    exact h2
  · -- `a` has a predecessor `b`
    obtain ⟨l₁, l₂, b, rfl⟩ : ∃ l₁ l₂ b, l = l₁ ++ b :: a :: l₂ := by
      obtain ⟨m, l₂, rfl⟩ := List.append_of_mem ha
      rcases List.eq_nil_or_concat m with rfl | ⟨l₁, b, rfl⟩
      · exact absurd h.seg.1 hfirst
      · exact ⟨l₁, l₂, b, by simp⟩
    have hlen : l₁.length < fuel := by
      simp at hf
      omega
    have hprev := findPrev_split h.seg hn hlen
    refine ⟨_, _, by simp only [Queue.remove, if_neg hfirst, hprev]; rfl, ?_,
      update_self _ _ _, fun x hx => ?_⟩
    · have hnd := hn
      rw [List.nodup_append] at hnd
      obtain ⟨-, hn2, hdis⟩ := hnd
      have ha1 : a ∉ l₁ := fun hm => hdis a hm a (by simp) rfl
      have hb1 : b ∉ l₁ := fun hm => hdis b hm b (by simp) rfl
      have hba : b ≠ a := fun he => by simp [he] at hn2
      have ha2 : a ∉ l₂ := fun hm => by simp [hm] at hn2
      have hb2 : b ∉ l₂ := fun hm => by simp [hm] at hn2
      rw [List.erase_append_right _ ha1, List.erase_cons_tail (by simpa using hba),
        List.erase_cons_head]
      obtain ⟨hs1, hs2⟩ := h.seg.next_of_split
      refine ⟨Seg.append.mpr ⟨some b, hs1.congr fun x hx => ?_, rfl, ?_⟩, ?_⟩
      · rw [update_of_ne (ne_of_mem_of_not_mem hx ha1),
          update_of_ne (ne_of_mem_of_not_mem hx hb1)]
      · rw [update_of_ne hba, update_self]
        exact hs2.2.congr fun x hx => by
          rw [update_of_ne (ne_of_mem_of_not_mem hx ha2),
            update_of_ne (ne_of_mem_of_not_mem hx hb2)]
      · rw [h.last]
        cases l₂ with
        | nil => simp
        | cons c l₃ =>
          have hlast : (c :: l₃).getLast? ≠ some a := fun he => ha2 (List.mem_of_getLast? he)
          simp only [List.getLast?_append, List.getLast?_cons_cons] at hlast ⊢
          rw [if_neg]
          rwa [List.getLast?_eq_some_getLast (by simp), Option.some_or,
            ← List.getLast?_eq_some_getLast]
    · have hxa : x ≠ a := fun he => hx (by simp [he])
      have hxb : x ≠ b := fun he => hx (by simp [he])
      rw [update_of_ne hxa, update_of_ne hxb]

/-! ## Insert by key -/

omit [DecidableEq α] in
/-- Where the insertion walk stops: behind the leading nodes that satisfy `p`. -/
theorem findSlot_spec {p : α → Bool} :
    ∀ {l : List α} {t : α} {fuel : Nat}, Seg next (next t) l none → l.length < fuel →
      ∃ u, findSlot next p fuel t = some u ∧ next u = (l.dropWhile p).head? ∧
        (t :: l.takeWhile p).getLast? = some u
  | [], t, fuel + 1, hs, _ => by
    have hnt : next t = none := hs
    exact ⟨t, by simp [findSlot, hnt], by simp [hnt], by simp⟩
  | b :: l, t, fuel + 1, hs, hf => by
    obtain ⟨hb, hs⟩ := hs
    by_cases hp : p b
    · obtain ⟨u, h1, h2, h3⟩ := findSlot_spec (p := p) hs (by simpa using hf : l.length < fuel)
      refine ⟨u, by simp [findSlot, hb, hp, h1], by simpa [hp] using h2, ?_⟩
      simpa [hp] using h3
    · exact ⟨t, by simp [findSlot, hb, hp], by simp [hb, hp], by simp [hp]⟩

/-- The list with `a` inserted behind the leading nodes of at most its key. -/
def insertKey (key : α → Nat) (a : α) (l : List α) : List α :=
  l.takeWhile (fun u => decide (key u ≤ key a)) ++ a :: l.dropWhile (fun u => decide (key u ≤ key a))

variable {key : α → Nat}

omit [DecidableEq α] in
theorem insertKey_of_lt {f : α} (l : List α) (h : key a < key f) : insertKey key a (f :: l) = a :: f :: l := by
  simp [insertKey, Nat.not_le.2 h]

omit [DecidableEq α] in
/-- Behind the head: the list is cut behind `t`, the last of the leading nodes of at most this key. -/
theorem insertKey_split {f t : α} (h : key f ≤ key a)
    (ht : (f :: l.takeWhile fun u => decide (key u ≤ key a)).getLast? = some t) :
    ∃ pre, f :: l = pre ++ t :: l.dropWhile (fun u => decide (key u ≤ key a)) ∧
      insertKey key a (f :: l) = pre ++ t :: a :: l.dropWhile (fun u => decide (key u ≤ key a)) := by
  obtain ⟨pre, hpre⟩ := List.getLast?_eq_some_iff.1 ht
  refine ⟨pre, ?_, ?_⟩
  · calc
      f :: l = f :: (l.takeWhile _ ++ l.dropWhile fun u => decide (key u ≤ key a)) := by
        rw [List.takeWhile_append_dropWhile]
      _ = pre ++ t :: l.dropWhile _ := by rw [← List.cons_append, hpre, List.append_assoc, List.singleton_append]
  · rw [insertKey, List.takeWhile_cons_of_pos (by simpa using h), List.dropWhile_cons_of_pos (by simpa using h), hpre,
      List.append_assoc, List.singleton_append]

theorem mem_insertKey : x ∈ insertKey key a l ↔ x = a ∨ x ∈ l := by
  have h := List.takeWhile_append_dropWhile (p := fun u => decide (key u ≤ key a)) (l := l)
  have hx : x ∈ l ↔ x ∈ l.takeWhile (fun u => decide (key u ≤ key a)) ∨
      x ∈ l.dropWhile (fun u => decide (key u ≤ key a)) := by
    rw [← List.mem_append, h]
  rw [insertKey, List.mem_append, List.mem_cons, hx]
  tauto

omit [DecidableEq α] in
theorem nodup_insertKey (hn : l.Nodup) (ha : a ∉ l) : (insertKey key a l).Nodup := by
  have h : (insertKey key a l).Perm (a :: l) := by
    refine List.perm_middle.trans ?_
    rw [List.takeWhile_append_dropWhile]
  rw [h.nodup_iff]
  exact List.nodup_cons.mpr ⟨ha, hn⟩

section Sorted

variable {p : α → Bool}

omit [DecidableEq α] in
/-- A property that holds of no node behind one without it holds of a first part of the list. -/
theorem takeWhile_eq_filter (h : l.Pairwise fun x y => p y = true → p x = true) : l.takeWhile p = l.filter p := by
  induction l with
  | nil => rfl
  | cons a l ih =>
    obtain ⟨ha, hl⟩ := List.pairwise_cons.1 h
    by_cases hp : p a = true
    · rw [List.takeWhile_cons_of_pos hp, List.filter_cons_of_pos hp, ih hl]
    · rw [List.takeWhile_cons_of_neg hp, List.filter_cons_of_neg hp, eq_comm, List.filter_eq_nil_iff]
      exact fun x hx hpx => hp (ha x hx hpx)

omit [DecidableEq α] in
theorem dropWhile_eq_filter (h : l.Pairwise fun x y => p y = true → p x = true) :
    l.dropWhile p = l.filter fun x => !p x := by
  induction l with
  | nil => rfl
  | cons a l ih =>
    obtain ⟨ha, hl⟩ := List.pairwise_cons.1 h
    by_cases hp : p a = true
    · rw [List.dropWhile_cons_of_pos hp, List.filter_cons_of_neg (by simpa using hp), ih hl]
    · rw [List.dropWhile_cons_of_neg hp, eq_comm, List.filter_eq_self]
      intro x hx
      rcases List.mem_cons.1 hx with rfl | hx
      · simpa using hp
      · simpa using fun hpx => hp (ha x hx hpx)

omit [DecidableEq α] in
/-- Inserting by key keeps an order that refines the keys, with the new node behind those of its own key. -/
theorem pairwise_insertKey {r : α → α → Prop} (h : l.Pairwise r)
    (hkey : ∀ x ∈ l, ∀ y ∈ l, r x y → key x ≤ key y) (hbefore : ∀ x ∈ l, key x ≤ key a → r x a)
    (hafter : ∀ x ∈ l, key a < key x → r a x) : (insertKey key a l).Pairwise r := by
  have hmono : l.Pairwise fun x y => decide (key y ≤ key a) = true → decide (key x ≤ key a) = true := by
    refine h.imp_of_mem fun {x y} hx hy hr hy' => ?_
    exact decide_eq_true (Nat.le_trans (hkey x hx y hy hr) (of_decide_eq_true hy'))
  have hdrop : ∀ x ∈ l.dropWhile (fun u => decide (key u ≤ key a)), x ∈ l ∧ key a < key x := by
    intro x hx
    rw [dropWhile_eq_filter hmono, List.mem_filter] at hx
    exact ⟨hx.1, by simpa using hx.2⟩
  have htake : ∀ x ∈ l.takeWhile (fun u => decide (key u ≤ key a)), x ∈ l ∧ key x ≤ key a := by
    intro x hx
    rw [takeWhile_eq_filter hmono, List.mem_filter] at hx
    exact ⟨hx.1, by simpa using hx.2⟩
  rw [← List.takeWhile_append_dropWhile (p := fun u => decide (key u ≤ key a)) (l := l), List.pairwise_append] at h
  obtain ⟨h1, h2, h12⟩ := h
  refine List.pairwise_append.2 ⟨h1, List.pairwise_cons.2 ⟨fun x hx => ?_, h2⟩, fun x hx y hy => ?_⟩
  · exact hafter x (hdrop x hx).1 (hdrop x hx).2
  · rcases List.mem_cons.1 hy with rfl | hy
    · exact hbefore x (htake x hx).1 (htake x hx).2
    · exact h12 x hx y hy

end Sorted

theorem insertBy_spec (key : α → Nat)
    (h : q.Holds next l) (hn : l.Nodup) (ha : a ∉ l) (hf : l.length < fuel) :
    ∃ next' q', q.insertBy fuel key next a = some (next', q') ∧ q'.Holds next' (insertKey key a l) ∧
      ∀ x, x ≠ a → x ∉ l → next' x = next x := by
  have hclear : ∀ x ∈ l, update next a none x = next x := fun x hx =>
    update_of_ne (ne_of_mem_of_not_mem hx ha) _ _
  have hq := h.congr hclear
  cases l with
  | nil =>
    have h1 : q.first = none := h.seg
    have h2 : q.last = none := h.last
    refine ⟨update next a none, ⟨some a, some a⟩, by simp [Queue.insertBy, h1, h2],
      ⟨⟨rfl, by simp [Seg]⟩, rfl⟩, fun x hx _ => update_of_ne hx _ _⟩
  | cons f l =>
    have h1 : q.first = some f := h.seg.1
    by_cases hk : key a < key f
    · -- a new head
      have hlast : q.last.isNone = false := by
        rw [h.last, List.getLast?_cons]
        rfl
      refine ⟨update (update next a none) a (some f), ⟨some a, q.last⟩,
        by simp [Queue.insertBy, h1, hk, hlast], ?_, fun x hx _ => ?_⟩
      · rw [insertKey_of_lt l hk]
        refine ⟨⟨rfl, ?_⟩, ?_⟩
        · rw [update_self, ← h1]
          exact hq.seg.congr fun x hx => update_of_ne (ne_of_mem_of_not_mem hx ha) _ _
        · rw [h.last]
          simp
      · rw [update_of_ne hx, update_of_ne hx]
    · -- the walk stops at `t`
      obtain ⟨t, ht1, ht2, ht3⟩ := findSlot_spec (p := fun u => decide (key u ≤ key a)) hq.seg.2
        (by simp at hf; omega : l.length < fuel)
      obtain ⟨pre, hsplit, hins⟩ := insertKey_split (Nat.not_lt.1 hk) ht3
      have htmem : t ∈ f :: l := by
        rw [hsplit]
        simp
      refine ⟨_, _, by simp only [Queue.insertBy, h1, if_neg hk, ht1]; rfl, ?_, fun x hx hxl => ?_⟩
      · have hseg := hq.seg
        rw [hsplit] at hseg hn ha
        rw [hins]
        refine ⟨h1 ▸ hseg.insertAfter hn ha, ?_⟩
        simp only [ht2, h.last, hsplit]
        cases l.dropWhile fun u => decide (key u ≤ key a) with
        | nil => simp
        | cons c d => simp
      · rw [update_of_ne (ne_of_mem_of_not_mem htmem hxl).symm, update_of_ne hx, update_of_ne hx]

end ToastOS.Lib
