import ToastOS.Shell.History

/-!
# The arrow keys

The shell goes through its history by one row index, `prev_command_index`. The reference is a cursor: 0 is the empty line, `k`
the `k`-th most recent of the recorded lines, and both ends clamp it. `At` says which index belongs to which cursor, and the
lemmas on indices (`At.step`, `At.miss`) come before those on texts.

* `navigation_iff` : the buffer follows the cursor for all recorded lines, exactly if the presses are `Navigable`;
* `up_down_up` : with two lines, Up, Down and Up end on the oldest one.
-/

namespace ToastOS.Shell

open ToastOS.Stdlib

inductive Arrow
  | up
  | down
  deriving DecidableEq

def press (s : Tsh) : Arrow → Option Tsh
  | .up => getPrevCmd s
  | .down => getNextCmd s

/-- The contents of `buf` after each of the presses. -/
def buffers (s : Tsh) : List Arrow → Option (List (List Byte))
  | [] => some []
  | a :: keys => do
    let s ← press s a
    return s.buf :: (← buffers s keys)

/-! ## The reference -/

/-- The cursor after a press, with `n` lines recorded. -/
def move (n c : Nat) : Arrow → Nat
  | .up => min (c + 1) (min n historyMax)
  | .down => c - 1

def shown (lines : List Line) : Nat → List Byte
  | 0 => []
  | k + 1 => (lines.reverse[k]?.map Line.text).getD []

/-- The buffers after each of the presses, from the cursor `c` on. -/
def reference (lines : List Line) : Nat → List Arrow → List (List Byte)
  | _, [] => []
  | c, a :: keys => padded (shown lines (move lines.length c a)) :: reference lines (move lines.length c a) keys

/-- Whether the code follows the next press; `back` says that an earlier Down went from the last line to the empty one. -/
def Allowed (n c : Nat) (back : Bool) : Arrow → Prop
  | .up => n ≤ 1 ∨ n < historyMax ∧ back = false ∨ historyMax ≤ n ∧ c < historyMax
  | .down => n ≤ 1 ∨ n + 1 < historyMax ∨ n + 1 = historyMax ∧ (0 < c ∨ back = true) ∨ historyMax ≤ n ∧ 2 ≤ c

def cameBack (c : Nat) (back : Bool) (a : Arrow) : Bool := back || (decide (a = .down) && decide (c = 1))

/-- With `n` lines recorded, every press from the cursor `c` on is allowed. -/
def Navigable (n : Nat) : Nat → Bool → List Arrow → Prop
  | _, _, [] => True
  | c, back, a :: keys => Allowed n c back a ∧ Navigable n (move n c a) (cameBack c back a) keys

/-! ## Indices -/

/-- The row that is shown after a press, if the rows below `n` are filled. -/
def shownRow (n p : Nat) : Arrow → Nat
  | .up => if n ≤ (p + historyMax - 1) % historyMax then p else (p + historyMax - 1) % historyMax
  | .down => (p + 1) % historyMax

def nextIndex (n p : Nat) : Arrow → Nat
  | .up => shownRow n p .up
  | .down => if n ≤ (p + 1) % historyMax then p else (p + 1) % historyMax

/-- The row of the `k`-th most recent line. -/
def rowOf (n k : Nat) : Nat := (n + historyMax - k) % historyMax

/-- The index that belongs to the cursor: without lines, with one, with up to seven before and after the way back, and with a
full ring. -/
inductive At (n c : Nat) (back : Bool) (p : Nat) : Prop
  | none (hn : n = 0) (hc : c = 0) (hp : p = 0)
  | fresh (hn : n = 1) (hc : c = 0) (hp : p = 1)
  | single (hn : n = 1) (hc : c ≤ 1) (hp : p = 0)
  | part (hn : 2 ≤ n) (hlt : n < historyMax) (hb : back = false) (hc : c ≤ n) (hp : p = n - c)
  | back (hn : 2 ≤ n) (hlt : n < historyMax) (hb : back = true) (hc : c = 0) (hp : p = n - 1)
  | full (hn : historyMax ≤ n) (hc : c ≤ historyMax) (hp : p = rowOf n c)

/-- The row `i` has the text at the cursor. -/
def Shows (n c i : Nat) : Prop := c = 0 ∧ n ≤ i ∨ 1 ≤ c ∧ c ≤ min n historyMax ∧ i = rowOf n c

/-- The row `i` has another line than the one at the cursor. -/
def Misses (n c i : Nat) : Prop :=
  i < historyMax ∧ i < n ∧ (c = 0 ∨ 1 ≤ c ∧ c ≤ min n historyMax ∧ i ≠ rowOf n c)

section Indices

variable {n c p : Nat} {back : Bool} {a : Arrow}

theorem At.start (n : Nat) : At n 0 false (n % historyMax) := by
  rcases Nat.lt_or_ge n historyMax with hlt | hge
  · rw [Nat.mod_eq_of_lt hlt]
    obtain rfl | rfl | h2 : n = 0 ∨ n = 1 ∨ 2 ≤ n := by omega
    · exact .none rfl rfl rfl
    · exact .fresh rfl rfl rfl
    · exact .part h2 hlt rfl (Nat.zero_le n) rfl
  · exact .full hge (by decide) (by rw [rowOf, Nat.sub_zero, Nat.add_mod_right])

theorem shownRow_up (n p : Nat) :
    n ≤ (p + 7) % 8 ∧ shownRow n p .up = p ∨ (p + 7) % 8 < n ∧ shownRow n p .up = (p + 7) % 8 := by
  rcases Nat.lt_or_ge ((p + 7) % 8) n with h | h
  · exact .inr ⟨h, if_neg (Nat.not_le.2 h)⟩
  · exact .inl ⟨h, if_pos h⟩

theorem nextIndex_down (n p : Nat) :
    n ≤ (p + 1) % 8 ∧ nextIndex n p .down = p ∨ (p + 1) % 8 < n ∧ nextIndex n p .down = (p + 1) % 8 := by
  rcases Nat.lt_or_ge ((p + 1) % 8) n with h | h
  · exact .inr ⟨h, if_neg (Nat.not_le.2 h)⟩
  · exact .inl ⟨h, if_pos h⟩

theorem At.step_up (h : At n c back p) (ha : Allowed n c back .up) :
    At n (move n c .up) back (shownRow n p .up) ∧ Shows n (move n c .up) (shownRow n p .up) := by
  have hrow := shownRow_up n p
  generalize shownRow n p .up = r at hrow ⊢
  simp only [Allowed, Shows, move, rowOf, historyMax] at ha ⊢
  cases h with
  | none hn hc hp => exact ⟨.none hn (by omega) (by omega), by omega⟩
  | fresh hn hc hp => exact ⟨.single hn (by omega) (by omega), by omega⟩
  | single hn hc hp => exact ⟨.single hn (by omega) (by omega), by omega⟩
  | part hn hlt hb hc hp =>
    simp only [historyMax] at hlt
    exact ⟨.part hn hlt hb (by omega) (by omega), by omega⟩
  | back hn hlt hb hc hp =>
    simp only [historyMax] at hlt
    rw [hb] at ha
    simp only [reduceCtorEq, and_false, false_or] at ha
    omega
  | full hn hc hp =>
    simp only [historyMax, rowOf] at hn hc hp
    exact ⟨.full hn (by simp only [historyMax]; omega) (by simp only [historyMax, rowOf]; omega), by omega⟩

theorem At.step_down (h : At n c back p) (ha : Allowed n c back .down) :
    At n (move n c .down) (cameBack c back .down) (nextIndex n p .down) ∧ Shows n (move n c .down) (shownRow n p .down) := by
  have hrow := nextIndex_down n p
  generalize nextIndex n p .down = r at hrow ⊢
  simp only [Allowed, Shows, move, shownRow, rowOf, historyMax] at ha ⊢
  cases h with
  | none hn hc hp => exact ⟨.none hn (by omega) (by omega), by omega⟩
  | fresh hn hc hp => exact ⟨.fresh hn (by omega) (by omega), by omega⟩
  | single hn hc hp => exact ⟨.single hn (by omega) (by omega), by omega⟩
  | part hn hlt hb hc hp =>
    simp only [historyMax] at hlt
    subst hb
    simp only [reduceCtorEq, or_false] at ha
    by_cases h1 : c = 1
    · exact ⟨.back hn hlt (by simp [cameBack, h1]) (by omega) (by omega), by omega⟩
    · exact ⟨.part hn hlt (by simp [cameBack, h1]) (by omega) (by omega), by omega⟩
  | back hn hlt hb hc hp =>
    simp only [historyMax] at hlt
    exact ⟨.back hn hlt (by simp [cameBack, hb]) (by omega) (by omega), by omega⟩
  | full hn hc hp =>
    simp only [historyMax, rowOf] at hn hc hp
    exact ⟨.full hn (by simp only [historyMax]; omega) (by simp only [historyMax, rowOf]; omega), by omega⟩

theorem At.step (h : At n c back p) (ha : Allowed n c back a) :
    At n (move n c a) (cameBack c back a) (nextIndex n p a) ∧ Shows n (move n c a) (shownRow n p a) := by
  cases a with
  | up =>
    rw [show cameBack c back .up = back by simp [cameBack]]
    exact h.step_up ha
  | down => exact h.step_down ha

theorem At.miss (h : At n c back p) (ha : ¬ Allowed n c back a) : Misses n (move n c a) (shownRow n p a) := by
  have hrow := shownRow_up n p
  cases h with
  | none hn hc hp => cases a <;> exact absurd (.inl (by omega)) ha
  | fresh hn hc hp => cases a <;> exact absurd (.inl (by omega)) ha
  | single hn hc hp => cases a <;> exact absurd (.inl (by omega)) ha
  | part hn hlt hb hc hp =>
    cases a with
    | up => exact absurd (.inr (.inl ⟨hlt, hb⟩)) ha
    | down =>
      simp only [Allowed, Misses, move, shownRow, rowOf, historyMax, hb, reduceCtorEq, or_false] at hlt ha ⊢
      omega
  | back hn hlt hb hc hp =>
    cases a with
    | up =>
      simp only [Misses, move, rowOf, historyMax] at hlt ⊢
      omega
    | down =>
      simp only [Allowed, historyMax, hb, or_true, and_true] at hlt ha
      omega
  | full hn hc hp =>
    cases a <;> simp only [Allowed, Misses, move, rowOf, historyMax] at hn hc hp ha ⊢
    · omega
    · simp only [shownRow, historyMax]
      omega

end Indices

/-! ## Texts -/

/-- The lines stand in the rows of a sound history. -/
structure Holds (lines : List Line) (s : Tsh) : Prop where
  sound : Sound s
  filled : ∀ k, 1 ≤ k → k ≤ min lines.length historyMax → entry s (rowOf lines.length k) = shown lines k
  blank : ∀ i, lines.length ≤ i → entry s i = []

section Texts

variable {lines : List Line} {s : Tsh} {c i p : Nat} {back : Bool} {a : Arrow} {keys : List Arrow}

theorem exists_shown {k : Nat} (h1 : 1 ≤ k) (hk : k ≤ lines.length) :
    ∃ l, lines[lines.length - k]? = some l ∧ shown lines k = l.text := by
  obtain ⟨j, rfl⟩ : ∃ j, k = j + 1 := ⟨k - 1, by omega⟩
  have hlt : lines.length - (j + 1) < lines.length := by omega
  refine ⟨lines[lines.length - (j + 1)], List.getElem?_eq_getElem hlt, ?_⟩
  rw [shown, List.getElem?_reverse (by omega), show lines.length - 1 - j = lines.length - (j + 1) by omega,
    List.getElem?_eq_getElem hlt]
  rfl

theorem Recorded.holds (h : Recorded lines s) : Holds lines s := by
  refine ⟨h.sound, fun k h1 hk => ?_, h.blank⟩
  simp only [historyMax] at hk
  obtain ⟨l, hl, hshown⟩ := exists_shown h1 (show k ≤ lines.length by omega)
  have hfilled := h.filled _ l hl (by simp only [historyMax]; omega)
  rw [hshown, ← hfilled, rowOf]
  congr 1
  simp only [historyMax]
  omega

theorem exists_rowOf {n : Nat} (hi : i < historyMax) (hn : i < n) : ∃ k, 1 ≤ k ∧ k ≤ min n historyMax ∧ i = rowOf n k := by
  simp only [rowOf, historyMax] at hi ⊢
  exact ⟨(n + 7 - i) % 8 + 1, by omega, by omega, by omega⟩

theorem Holds.entry_eq_nil_iff (h : Holds lines s) (hi : i < historyMax) : entry s i = [] ↔ lines.length ≤ i := by
  refine ⟨fun hnil => ?_, h.blank i⟩
  by_contra hlt
  obtain ⟨k, h1, hk, rfl⟩ := exists_rowOf hi (Nat.not_le.1 hlt)
  obtain ⟨l, -, hl⟩ := exists_shown h1 (hk.trans (Nat.min_le_left ..))
  rw [h.filled k h1 hk, hl] at hnil
  exact l.ne_nil hnil

theorem Holds.press (h : Holds lines s) (a : Arrow) : ∃ s', press s a = some s' ∧ Holds lines s' ∧
    s'.prevCommandIndex = nextIndex lines.length s.prevCommandIndex a ∧
    s'.buf = padded (entry s (shownRow lines.length s.prevCommandIndex a)) := by
  have hkeep (p : Nat) (buf : List Byte) (k : Nat) (hp : p < historyMax) :
      Holds lines { s with prevCommandIndex := p, buf := buf, bufIndex := k } :=
    ⟨⟨h.sound.rows, h.sound.size, h.sound.ended, h.sound.count, hp⟩, h.filled, h.blank⟩
  have hlt (m : Nat) : m % historyMax < historyMax := Nat.mod_lt _ (by decide)
  cases a with
  | up =>
    have htarget : prevTarget s = shownRow lines.length s.prevCommandIndex .up := by
      simp only [prevTarget, shownRow, h.entry_eq_nil_iff (hlt _)]
    refine ⟨_, getPrevCmd_eq h.sound, hkeep _ _ _ h.sound.prevTarget_lt, htarget, ?_⟩
    rw [← htarget]
  | down =>
    refine ⟨_, getNextCmd_eq h.sound, hkeep _ _ _ ?_, ?_, rfl⟩
    · split
      · exact h.sound.index
      · exact hlt _
    · simp only [nextIndex, h.entry_eq_nil_iff (hlt _)]

theorem Holds.entry_of_shows (h : Holds lines s) (hs : Shows lines.length c i) : entry s i = shown lines c := by
  rcases hs with ⟨rfl, hi⟩ | ⟨h1, hc, rfl⟩
  · exact h.blank i hi
  · exact h.filled c h1 hc

/-- The recent lines have different texts. -/
def Distinct (lines : List Line) : Prop :=
  ∀ k k', 1 ≤ k → k ≤ min lines.length historyMax → 1 ≤ k' → k' ≤ min lines.length historyMax →
    shown lines k = shown lines k' → k = k'

theorem Holds.entry_of_misses (h : Holds lines s) (hd : Distinct lines) (hm : Misses lines.length c i) :
    entry s i ≠ shown lines c := by
  obtain ⟨hi, hn, hcase⟩ := hm
  rcases hcase with rfl | ⟨h1, hc, hne⟩
  · exact fun hnil => absurd ((h.entry_eq_nil_iff hi).1 hnil) (Nat.not_le.2 hn)
  · obtain ⟨k, hk1, hk, rfl⟩ := exists_rowOf hi hn
    rw [h.filled k hk1 hk]
    exact fun heq => hne (by rw [hd k c hk1 hk h1 hc heq])

theorem shown_ok (lines : List Line) (c : Nat) : 0 ∉ shown lines c ∧ (shown lines c).length < lineSize := by
  cases c with
  | zero => exact ⟨List.not_mem_nil, show 0 < lineSize by decide⟩
  | succ k =>
    rw [shown]
    cases lines.reverse[k]? with
    | none => exact ⟨List.not_mem_nil, by decide⟩
    | some l => exact ⟨l.no_zero, l.fits⟩

theorem padded_shown_inj (h : Holds lines s) (hi : i < historyMax) (heq : padded (entry s i) = padded (shown lines c)) :
    entry s i = shown lines c := by
  obtain ⟨h0, hlt⟩ := shown_ok lines c
  rw [← cString_padded (zero_not_mem_entry s i) (h.sound.row hi).1, heq, cString_padded h0 hlt]

theorem buffers_eq (h : Holds lines s) (hat : At lines.length c back s.prevCommandIndex)
    (hnav : Navigable lines.length c back keys) : buffers s keys = some (reference lines c keys) := by
  induction keys generalizing s c back with
  | nil => rfl
  | cons a keys ih =>
    obtain ⟨s', hs', hholds, hindex, hbuf⟩ := h.press a
    obtain ⟨hat', hshows⟩ := hat.step hnav.1
    rw [h.entry_of_shows hshows] at hbuf
    have htail := ih hholds (hindex ▸ hat') hnav.2
    rw [buffers, hs', Option.bind_eq_bind, Option.bind_some, htail, hbuf]
    rfl

/-- The first press that is not allowed shows another line, if the lines differ. -/
theorem navigable_of_buffers (hd : Distinct lines) (h : Holds lines s) (hat : At lines.length c back s.prevCommandIndex)
    (heq : buffers s keys = some (reference lines c keys)) : Navigable lines.length c back keys := by
  induction keys generalizing s c back with
  | nil => trivial
  | cons a keys ih =>
    obtain ⟨s', hs', hholds, hindex, hbuf⟩ := h.press a
    rw [buffers, hs', Option.bind_eq_bind, Option.bind_some] at heq
    obtain ⟨rest, hrest, hcons⟩ := Option.bind_eq_some_iff.1 heq
    obtain ⟨hhead, htail⟩ := List.cons_eq_cons.1 (Option.some_inj.1 hcons)
    have hallowed : Allowed lines.length c back a := by
      by_contra ha
      have hmiss := hat.miss ha
      exact h.entry_of_misses hd hmiss (padded_shown_inj h hmiss.1 (hbuf.symm.trans hhead))
    obtain ⟨hat', -⟩ := hat.step hallowed
    exact ⟨hallowed, ih hholds (hindex ▸ hat') (hrest.trans (congrArg some htail))⟩

end Texts

/-- A line with a text of its own among any eight. -/
def numberedLine (j : Nat) : Line where
  text := [BitVec.ofNat 8 (j % historyMax + 1)]
  ne_nil := List.cons_ne_nil _ _
  no_zero h := by
    have hz : 0 = (j % 8 + 1) % 2 ^ 8 := congrArg BitVec.toNat (List.mem_singleton.1 h)
    omega
  fits := by simp [lineSize]

theorem numberedLines_distinct (n : Nat) : Distinct ((List.range n).map numberedLine) := by
  intro k k' h1 hk h1' hk' heq
  have hlen : ((List.range n).map numberedLine).length = n := by rw [List.length_map, List.length_range]
  rw [hlen] at hk hk'
  have htext (k : Nat) (h1 : 1 ≤ k) (hk : k ≤ min n historyMax) :
      shown ((List.range n).map numberedLine) k = [BitVec.ofNat 8 ((n - k) % historyMax + 1)] := by
    obtain ⟨l, hl, hshown⟩ := exists_shown h1 (show k ≤ ((List.range n).map numberedLine).length by omega)
    rw [hlen, List.getElem?_map, List.getElem?_range (by omega), Option.map_some, Option.some_inj] at hl
    rw [hshown, ← hl]
    rfl
  rw [htext k h1 hk, htext k' h1' hk', List.singleton_inj] at heq
  have hnat := congrArg BitVec.toNat heq
  rw [BitVec.toNat_ofNat, BitVec.toNat_ofNat] at hnat
  simp only [historyMax] at hk hk' hnat
  omega

/-- The buffer follows the cursor for all recorded lines, exactly if every press is allowed. -/
theorem navigation_iff (n : Nat) (keys : List Arrow) :
    (∀ lines : List Line, lines.length = n →
      (recordAll lines).bind (buffers · keys) = some (reference lines 0 keys)) ↔ Navigable n 0 false keys := by
  have hat {lines : List Line} {s : Tsh} (h : Recorded lines s) : At lines.length 0 false s.prevCommandIndex :=
    h.index ▸ .start _
  constructor
  · intro h
    have hlen : ((List.range n).map numberedLine).length = n := by rw [List.length_map, List.length_range]
    obtain ⟨s, hs, hrec⟩ := recordAll_recorded ((List.range n).map numberedLine)
    have hbuf := h _ hlen
    rw [hs, Option.bind_some] at hbuf
    have hnav := navigable_of_buffers (numberedLines_distinct n) hrec.holds (hat hrec) hbuf
    rwa [hlen] at hnav
  · rintro hnav lines rfl
    obtain ⟨s, hs, hrec⟩ := recordAll_recorded lines
    rw [hs, Option.bind_some]
    exact buffers_eq hrec.holds (hat hrec) hnav

/-- With the lines `ls` and `ps`, the presses Up, Down and Up show `ps`, the empty line and `ls`; the cursor is at `ps`. -/
theorem up_down_up : let lines : List Line :=
      [⟨literal "ls", by decide, by decide, by decide⟩, ⟨literal "ps", by decide, by decide, by decide⟩]
    (recordAll lines).bind (buffers · [.up, .down, .up]) = some [padded (literal "ps"), zeros, padded (literal "ls")] ∧
      reference lines 0 [.up, .down, .up] = [padded (literal "ps"), zeros, padded (literal "ps")] := by
  decide +kernel

end ToastOS.Shell
