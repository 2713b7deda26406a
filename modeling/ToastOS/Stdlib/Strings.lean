import Mathlib.Data.List.GetD
import Mathlib.Data.List.TakeWhile
import ToastOS.Stdlib.Printf

/-!
# C strings: `string.c`

A pointer is given by the bytes from it to the end of the object it points into; `none` stands for an access behind that end.

* `strlen_eq`, `strcpy_eq`, `strcmp_spec` : what the functions do on strings that are terminated;
* `strncmp_exhausted`, `strncmp_last`, `strncmp_early` : `strncmp`, by where the strings first differ;
* `strncmp_iff` : when it compares at most `n` characters;
* `strncmp_misses_last` : where it does not.
-/

namespace ToastOS.Stdlib

def strlen : List Byte → Option Nat
  | [] => none
  | c :: s => if c = 0 then some 0 else (strlen s).map (· + 1)

/-- The destination after the copy, its zero included. -/
def strcpy : List Byte → List Byte → Option (List Byte)
  | _ :: dst, c :: src => if c = 0 then some (0 :: dst) else (strcpy dst src).map (c :: ·)
  | _, _ => none

def strcmp : List Byte → List Byte → Option Int
  | a :: s, b :: t => if a ≠ 0 ∧ a = b then strcmp s t else some (a.toNat - b.toNat)
  | _, _ => none

/-- What the loop of `strncmp` leaves: the pointers and the counter, the position of the pointers, and a bound above
the positions that were read. -/
structure Scan where
  a : List Byte
  b : List Byte
  n : BitVec 64
  i : Nat
  reach : Nat

/-- `while (n-- && *a && *a == *b)`, from position `i` on. -/
def strncmpLoop : List Byte → List Byte → BitVec 64 → Nat → Nat → Option Scan
  | [], b, n, i, reach => if n = 0 then some ⟨[], b, n - 1, i, reach⟩ else none
  | a :: s, b, n, i, reach =>
    if n = 0 then some ⟨a :: s, b, n - 1, i, reach⟩
    else if a = 0 then some ⟨a :: s, b, n - 1, i, i + 1⟩
    else
      match b with
      | [] => none
      | b :: t => if a = b then strncmpLoop s t (n - 1) (i + 1) (i + 1) else some ⟨a :: s, b :: t, n - 1, i, i + 1⟩

/-- What is returned, and a bound above the positions that were read. -/
def strncmp (a b : List Byte) (n : BitVec 64) : Option (Int × Nat) :=
  (strncmpLoop a b n 0 0).bind fun scan =>
    if scan.n = 0 then some (0, scan.reach)
    else
      match scan.a, scan.b with
      | a :: _, b :: _ => some (a.toNat - b.toNat, max scan.reach (scan.i + 1))
      | _, _ => none

def cString (l : List Byte) : List Byte := l.takeWhile (· ≠ 0)

section Strings

variable {s t l : List Byte}

theorem cString_append (h0 : 0 ∉ s) (l : List Byte) : cString (s ++ 0 :: l) = s := by
  have hs : ∀ c ∈ s, decide (c ≠ 0) = true := fun c hc => by
    simpa using ne_of_mem_of_not_mem hc h0
  rw [cString, List.takeWhile_append_of_pos hs, List.takeWhile_cons_of_neg (by simp), List.append_nil]

theorem zero_not_mem_cString (l : List Byte) : 0 ∉ cString l := fun h => by
  simpa using List.mem_takeWhile_imp h

theorem exists_cString (h : 0 ∈ l) : ∃ behind, l = cString l ++ 0 :: behind := by
  obtain ⟨s, behind, rfl, h0⟩ := List.eq_append_cons_of_mem h
  exact ⟨behind, by rw [cString_append h0]⟩

theorem strlen_eq (h0 : 0 ∉ s) (l : List Byte) : strlen (s ++ 0 :: l) = some s.length := by
  induction s with
  | nil => rfl
  | cons c s ih =>
    obtain ⟨hc, hs⟩ := not_or.1 (mt List.mem_cons.2 h0)
    rw [List.cons_append, strlen, if_neg (Ne.symm hc), ih hs]
    rfl

theorem strcpy_eq (h0 : 0 ∉ s) (l : List Byte) {dst : List Byte} (hfit : s.length < dst.length) :
    strcpy dst (s ++ 0 :: l) = some (s ++ 0 :: dst.drop (s.length + 1)) := by
  induction s generalizing dst with
  | nil =>
    cases dst with
    | nil => cases hfit
    | cons d dst => rfl
  | cons c s ih =>
    obtain ⟨hc, hs⟩ := not_or.1 (mt List.mem_cons.2 h0)
    cases dst with
    | nil => cases hfit
    | cons d dst =>
      rw [List.cons_append, strcpy, if_neg (Ne.symm hc), ih hs (Nat.lt_of_succ_lt_succ hfit)]
      rfl

/-! ### The first difference -/

/-- Where two strings first differ; their length if they are the same. -/
def firstStop : List Byte → List Byte → Nat
  | [], _ => 0
  | _ :: _, [] => 0
  | a :: s, b :: t => if a = b then firstStop s t + 1 else 0

/-- The difference of the characters at a position, as unsigned characters; the end counts as a zero. -/
def charDiff (s t : List Byte) (i : Nat) : Int := (s.getD i 0).toNat - (t.getD i 0).toNat

theorem firstStop_le : ∀ s t : List Byte, firstStop s t ≤ s.length ∧ firstStop s t ≤ t.length
  | [], _ => ⟨Nat.zero_le _, Nat.zero_le _⟩
  | _ :: _, [] => ⟨Nat.zero_le _, Nat.zero_le _⟩
  | a :: s, b :: t => by
    have ih := firstStop_le s t
    simp only [firstStop, List.length_cons]
    split_ifs <;> omega

theorem firstStop_self : ∀ s : List Byte, firstStop s s = s.length
  | [] => rfl
  | a :: s => by rw [firstStop, if_pos rfl, firstStop_self s, List.length_cons]

theorem take_firstStop : ∀ s t : List Byte, s.take (firstStop s t) = t.take (firstStop s t)
  | [], _ => by simp [firstStop]
  | _ :: _, [] => by simp [firstStop]
  | a :: s, b :: t => by
    rw [firstStop]
    split_ifs with h
    · rw [List.take_succ_cons, List.take_succ_cons, h, take_firstStop s t]
    · rfl

/-- There the strings differ, if a zero behind each counts; so equal characters mean equal strings. -/
theorem getD_firstStop : ∀ {s t : List Byte}, 0 ∉ s → 0 ∉ t → (s.getD (firstStop s t) 0 = t.getD (firstStop s t) 0 ↔ s = t)
  | [], [], _, _ => by simp [firstStop]
  | [], b :: t, _, ht => by
    simp only [firstStop, List.getD_nil, List.getD_cons_zero, List.nil_eq, reduceCtorEq, iff_false]
    exact fun h => ht (h ▸ List.mem_cons_self)
  | a :: s, [], hs, _ => by
    simp only [firstStop, List.getD_nil, List.getD_cons_zero, reduceCtorEq, iff_false]
    exact fun h => hs (h ▸ List.mem_cons_self)
  | a :: s, b :: t, hs, ht => by
    rw [firstStop]
    split_ifs with h
    · rw [List.getD_cons_succ, List.getD_cons_succ, h, List.cons_inj_right]
      exact getD_firstStop (mt (List.mem_cons_of_mem a) hs) (mt (List.mem_cons_of_mem b) ht)
    · simp [h]

theorem eq_firstStop : ∀ {s t : List Byte} {i : Nat}, s.take i = t.take i → s.getD i 0 ≠ t.getD i 0 → i = firstStop s t
  | [], [], _, _, hne => absurd rfl hne
  | [], _ :: _, 0, _, _ => rfl
  | [], _ :: _, i + 1, htake, _ => by cases htake
  | _ :: _, [], 0, _, _ => rfl
  | _ :: _, [], i + 1, htake, _ => by cases htake
  | a :: s, b :: t, 0, _, hne => by rw [firstStop, if_neg (by simpa using hne)]
  | a :: s, b :: t, i + 1, htake, hne => by
    rw [List.take_succ_cons, List.take_succ_cons, List.cons.injEq] at htake
    rw [firstStop, if_pos htake.1, eq_firstStop htake.2 (by simpa using hne)]

theorem strcmp_eq : ∀ {s t : List Byte}, 0 ∉ s → 0 ∉ t → ∀ l l' : List Byte,
    strcmp (s ++ 0 :: l) (t ++ 0 :: l') = some (charDiff s t (firstStop s t))
  | [], [], _, _, l, l' => by simp [strcmp, firstStop, charDiff]
  | [], b :: t, _, ht, l, l' => by simp [strcmp, firstStop, charDiff]
  | a :: s, [], hs, _, l, l' => by simp [strcmp, firstStop, charDiff]
  | a :: s, b :: t, hs, ht, l, l' => by
    have ha : a ≠ 0 := fun h => hs (h ▸ List.mem_cons_self)
    rw [List.cons_append, List.cons_append, strcmp, firstStop]
    by_cases hab : a = b
    · rw [if_pos ⟨ha, hab⟩, if_pos hab, charDiff, List.getD_cons_succ, List.getD_cons_succ]
      exact strcmp_eq (mt (List.mem_cons_of_mem a) hs) (mt (List.mem_cons_of_mem b) ht) l l'
    · rw [if_neg (fun h => hab h.2), if_neg hab]
      rfl

theorem charDiff_eq_zero {i : Nat} : charDiff s t i = 0 ↔ s.getD i 0 = t.getD i 0 := by
  rw [charDiff, ← BitVec.toNat_inj]
  omega

theorem strcmp_spec (hs : 0 ∉ s) (ht : 0 ∉ t) (l l' : List Byte) :
    ∃ d, strcmp (s ++ 0 :: l) (t ++ 0 :: l') = some d ∧ (d = 0 ↔ s = t) :=
  ⟨_, strcmp_eq hs ht l l', charDiff_eq_zero.trans (getD_firstStop hs ht)⟩

/-! ### `strncmp` -/

theorem toNat_pred {n : BitVec 64} (h : n ≠ 0) : (n - 1).toNat + 1 = n.toNat := by
  have hpos : 1 ≤ n.toNat := Nat.pos_of_ne_zero fun hz => h (BitVec.eq_of_toNat_eq hz)
  rw [BitVec.toNat_sub_of_le hpos]
  exact Nat.sub_add_cancel hpos

/-- The counter is used up at or before the first difference, and has wrapped. -/
theorem strncmpLoop_exhausted : ∀ {s t : List Byte} {n : BitVec 64}, 0 ∉ s → n.toNat ≤ firstStop s t →
    ∀ (l l' : List Byte) (i : Nat), strncmpLoop (s ++ 0 :: l) (t ++ 0 :: l') n i i =
      some ⟨(s ++ 0 :: l).drop n.toNat, (t ++ 0 :: l').drop n.toNat, -1, i + n.toNat, i + n.toNat⟩
  | s, t, n, hs, hle, l, l', i => by
    by_cases hn : n = 0
    · subst hn
      cases s <;> simp [strncmpLoop]
    · match s, t, hle with
      | a :: s, b :: t, hle =>
        have ha : a ≠ 0 := fun h => hs (h ▸ List.mem_cons_self)
        have hpred := toNat_pred hn
        have hab : a = b := by
          by_contra hab
          rw [firstStop, if_neg hab] at hle
          omega
        rw [firstStop, if_pos hab] at hle
        rw [List.cons_append, List.cons_append, strncmpLoop, if_neg hn, if_neg ha, if_pos hab, strncmpLoop_exhausted
          (mt (List.mem_cons_of_mem a) hs) (by omega), ← hpred, List.drop_succ_cons, List.drop_succ_cons, Nat.add_right_comm,
          Nat.add_assoc]
      | [], _, hle => exact absurd (BitVec.eq_of_toNat_eq (Nat.le_zero.1 hle)) hn
      | _ :: _, [], hle => exact absurd (BitVec.eq_of_toNat_eq (Nat.le_zero.1 hle)) hn

/-- The loop stops at the first difference, or at the common end. -/
theorem strncmpLoop_stops : ∀ {s t : List Byte} {n : BitVec 64}, 0 ∉ s → 0 ∉ t → firstStop s t < n.toNat →
    ∀ (l l' : List Byte) (i reach : Nat), ∃ n', n'.toNat + (firstStop s t + 1) = n.toNat ∧
      strncmpLoop (s ++ 0 :: l) (t ++ 0 :: l') n i reach =
        some ⟨(s ++ 0 :: l).drop (firstStop s t), (t ++ 0 :: l').drop (firstStop s t), n', i + firstStop s t,
        i + firstStop s t + 1⟩
  | s, t, n, hs, ht, hlt, l, l', i, reach => by
    have hn : n ≠ 0 := fun h => Nat.not_lt_zero _ (h ▸ hlt)
    have hpred := toNat_pred hn
    match s, t, hs, ht, hlt with
    | [], t, _, _, _ =>
      refine ⟨n - 1, hpred, ?_⟩
      rw [List.nil_append, strncmpLoop.eq_def]
      dsimp only
      rw [if_neg hn, if_pos rfl]
      rfl
    | a :: s, [], hs, _, _ =>
      have ha : a ≠ 0 := fun h => hs (h ▸ List.mem_cons_self)
      refine ⟨n - 1, hpred, ?_⟩
      rw [List.nil_append, List.cons_append, strncmpLoop, if_neg hn, if_neg ha, if_neg ha]
      rfl
    | a :: s, b :: t, hs, ht, hlt =>
      have ha : a ≠ 0 := fun h => hs (h ▸ List.mem_cons_self)
      rw [List.cons_append, List.cons_append, strncmpLoop, if_neg hn, if_neg ha]
      by_cases hab : a = b
      · rw [firstStop, if_pos hab] at hlt ⊢
        obtain ⟨n', hn', hloop⟩ := strncmpLoop_stops (mt (List.mem_cons_of_mem a) hs) (mt (List.mem_cons_of_mem b) ht)
          (show firstStop s t < (n - 1).toNat by omega) l l' (i + 1) (i + 1)
        refine ⟨n', by omega, ?_⟩
        rw [if_pos hab, hloop, List.drop_succ_cons, List.drop_succ_cons, Nat.add_right_comm, Nat.add_assoc i]
      · rw [firstStop, if_neg hab]
        exact ⟨n - 1, hpred, if_neg hab⟩

theorem drop_terminated {s : List Byte} {k : Nat} (hk : k ≤ s.length) (l : List Byte) :
    ∃ rest, (s ++ 0 :: l).drop k = s.getD k 0 :: rest := by
  induction s generalizing k with
  | nil =>
    obtain rfl : k = 0 := Nat.le_zero.1 hk
    exact ⟨l, rfl⟩
  | cons c s ih =>
    cases k with
    | zero => exact ⟨s ++ 0 :: l, rfl⟩
    | succ k => exact ih (Nat.le_of_succ_le_succ hk)

/-- A counter that is used up does not stop the comparison: it goes on to the character behind. -/
theorem strncmp_exhausted {n : BitVec 64} (hs : 0 ∉ s) (h : n.toNat ≤ firstStop s t) (l l' : List Byte) :
    strncmp (s ++ 0 :: l) (t ++ 0 :: l') n = some (charDiff s t n.toNat, n.toNat + 1) := by
  have hle := firstStop_le s t
  obtain ⟨u, hu⟩ := drop_terminated (k := n.toNat) (Nat.le_trans h hle.1) l
  obtain ⟨v, hv⟩ := drop_terminated (k := n.toNat) (Nat.le_trans h hle.2) l'
  rw [strncmp, strncmpLoop_exhausted hs h, Option.bind_some, hu, hv]
  simp [charDiff]

/-- A difference at the last position that may be read is not seen. -/
theorem strncmp_last {n : BitVec 64} (hs : 0 ∉ s) (ht : 0 ∉ t) (h : n.toNat = firstStop s t + 1) (l l' : List Byte) :
    strncmp (s ++ 0 :: l) (t ++ 0 :: l') n = some (0, n.toNat) := by
  obtain ⟨n', hn', hloop⟩ := strncmpLoop_stops hs ht (show firstStop s t < n.toNat by omega) l l' 0 0
  have hz : n' = 0 := BitVec.eq_of_toNat_eq (show n'.toNat = 0 by omega)
  rw [strncmp, hloop, Option.bind_some, if_pos hz, Nat.zero_add, h]

theorem strncmp_early {n : BitVec 64} (hs : 0 ∉ s) (ht : 0 ∉ t) (h : firstStop s t + 1 < n.toNat) (l l' : List Byte) :
    strncmp (s ++ 0 :: l) (t ++ 0 :: l') n = some (charDiff s t (firstStop s t), firstStop s t + 1) := by
  obtain ⟨n', hn', hloop⟩ := strncmpLoop_stops hs ht (show firstStop s t < n.toNat by omega) l l' 0 0
  have hz : n' ≠ 0 := fun h0 => by
    have : n'.toNat = 0 := congrArg BitVec.toNat h0
    omega
  have hle := firstStop_le s t
  obtain ⟨u, hu⟩ := drop_terminated hle.1 l
  obtain ⟨v, hv⟩ := drop_terminated hle.2 l'
  rw [strncmp, hloop, Option.bind_some, if_neg hz, hu, hv]
  simp [charDiff]

theorem take_eq_of_le {n : Nat} (h : n ≤ firstStop s t) : s.take n = t.take n := by
  have htake := congrArg (List.take n) (take_firstStop s t)
  rwa [List.take_take, List.take_take, Nat.min_eq_left h] at htake

/-- The first characters of a string, its end included if it is among them. -/
def firstChars (s : List Byte) (n : Nat) : List Byte := (s ++ [0]).take n

theorem getD_firstChars (s : List Byte) {i n : Nat} (h : i < n) : (firstChars s n).getD i 0 = s.getD i 0 := by
  rw [firstChars, List.getD_eq_getElem?_getD, List.getElem?_take_of_lt h, ← List.getD_eq_getElem?_getD]
  rcases Nat.lt_or_ge i s.length with hi | hi
  · rw [List.getD_append _ _ _ _ hi]
  · rw [List.getD_append_right _ _ _ _ hi, List.getD_eq_default s 0 hi]
    cases i - s.length <;> rfl

theorem firstChars_eq_iff (hs : 0 ∉ s) (ht : 0 ∉ t) {n : Nat} : firstChars s n = firstChars t n ↔
    s = t ∨ n ≤ firstStop s t := by
  have hle := firstStop_le s t
  constructor
  · intro h
    by_contra hnot
    obtain ⟨hne, hlt⟩ := not_or.1 hnot
    have hchar := congrArg (fun l : List Byte => l.getD (firstStop s t) 0) h
    simp only [getD_firstChars _ (Nat.lt_of_not_le hlt)] at hchar
    exact hne ((getD_firstStop hs ht).1 hchar)
  · rintro (rfl | hn)
    · rfl
    · rw [firstChars, firstChars, List.take_append_of_le_length (Nat.le_trans hn hle.1),
        List.take_append_of_le_length (Nat.le_trans hn hle.2), take_eq_of_le hn]

end Strings

/-- What `strncmp` should give for `n`: `v`, with no position from `n` on read. -/
structure ComparesUpTo (a b : List Byte) (n : Nat) (v : Int) (reach : Nat) : Prop where
  zero : v = 0 ↔ firstChars (cString a) n = firstChars (cString b) n
  sign : ∀ i < n, firstChars (cString a) i = firstChars (cString b) i → (cString a).getD i 0 ≠ (cString b).getD i 0 →
    v.sign = (charDiff (cString a) (cString b) i).sign
  reads : reach ≤ n
  strcmp : (cString a).length < n → (cString b).length < n → Stdlib.strcmp a b = some v

/-- `strncmp` of two terminated strings does what it should exactly if they are the same and end before `n`, or differ
first at a position before the last of the `n`. -/
theorem strncmp_iff (a b : List Byte) (n : BitVec 64) (ha : 0 ∈ a) (hb : 0 ∈ b) :
    (∃ v reach, strncmp a b n = some (v, reach) ∧ ComparesUpTo a b n.toNat v reach) ↔
      cString a = cString b ∧ (cString a).length < n.toNat ∨
        ∃ i, i + 1 < n.toNat ∧ (cString a).take i = (cString b).take i ∧ (cString a).getD i 0 ≠ (cString b).getD i 0 := by
  obtain ⟨l, hl⟩ := exists_cString ha
  obtain ⟨l', hl'⟩ := exists_cString hb
  have hs := zero_not_mem_cString a
  have ht := zero_not_mem_cString b
  have hcmp := strcmp_eq hs ht l l'
  have hchars := @firstChars_eq_iff _ _ hs ht
  have hend := getD_firstStop hs ht
  have hlast := fun h => strncmp_last (n := n) hs ht h l l'
  have hearly := fun h => strncmp_early (n := n) hs ht h l l'
  have hover := fun h => strncmp_exhausted (n := n) (t := cString b) hs h l l'
  rw [← hl, ← hl'] at hcmp hlast hearly hover
  -- a difference under the condition is the first one
  have hfirst : ∀ i, (cString a).take i = (cString b).take i → (cString a).getD i 0 ≠ (cString b).getD i 0 →
      i = firstStop (cString a) (cString b) := fun i => eq_firstStop
  have hself : cString a = cString b → firstStop (cString a) (cString b) = (cString a).length := fun h => by
    rw [← h, firstStop_self]
  rcases Nat.lt_trichotomy n.toNat (firstStop (cString a) (cString b) + 1) with hn | hn | hn
  · constructor
    · rintro ⟨v, reach, hv, h⟩
      rw [hover (Nat.le_of_lt_succ hn)] at hv
      cases hv
      exact absurd h.reads (Nat.not_succ_le_self _)
    · rintro (⟨heq, hlen⟩ | ⟨i, hi, htake, hne⟩)
      · have := hself heq
        omega
      · have := hfirst i htake hne
        omega
  · constructor
    · rintro ⟨v, reach, hv, h⟩
      rw [hlast hn] at hv
      cases hv
      have heq : cString a = cString b := (hchars.1 (h.zero.1 rfl)).resolve_right (by omega)
      exact .inl ⟨heq, by rw [← hself heq]; omega⟩
    · rintro (⟨heq, -⟩ | ⟨i, hi, htake, hne⟩)
      · refine ⟨0, n.toNat, hlast hn, ⟨by simp [heq], fun i _ _ hne => absurd (by rw [heq]) hne, Nat.le_refl _,
          fun _ _ => ?_⟩⟩
        rw [hcmp, charDiff_eq_zero.2 (hend.2 heq)]
      · have := hfirst i htake hne
        omega
  · constructor
    · intro _
      by_cases heq : cString a = cString b
      · exact .inl ⟨heq, by rw [← hself heq]; omega⟩
      · exact .inr ⟨_, hn, take_firstStop _ _, fun h => heq (hend.1 h)⟩
    · intro _
      refine ⟨_, _, hearly hn, ⟨?_, fun i hi hsame hne => ?_, Nat.le_of_lt hn, fun _ _ => hcmp⟩⟩
      · rw [charDiff_eq_zero, hend, hchars]
        exact ⟨.inl, fun h => h.resolve_right (by omega)⟩
      · have hle : i ≤ firstStop (cString a) (cString b) := (hchars.1 hsame).resolve_left fun h => hne (by rw [h])
        rw [hfirst i (take_eq_of_le hle) hne]

/-- Strings that differ in the first of five characters. -/
theorem strncmp_first : ∃ v reach, strncmp (literal "kill" ++ [0]) (literal "mill" ++ [0]) 5 = some (v, reach) ∧
    ComparesUpTo (literal "kill" ++ [0]) (literal "mill" ++ [0]) 5 v reach :=
  (strncmp_iff _ _ 5 (by decide) (by decide)).2 (.inr ⟨0, by decide, by decide, by decide⟩)

/-- `ab` and `ac` compare as equal in two characters; in one they compare as different, by the second one. -/
theorem strncmp_misses_last :
    (strncmp (literal "ab" ++ [0]) (literal "ac" ++ [0]) 2 = some (0, 2) ∧
        ¬ ComparesUpTo (literal "ab" ++ [0]) (literal "ac" ++ [0]) 2 0 2) ∧
      strncmp (literal "ab" ++ [0]) (literal "ac" ++ [0]) 1 = some (-1, 2) ∧
        ¬ ComparesUpTo (literal "ab" ++ [0]) (literal "ac" ++ [0]) 1 (-1) 2 := by
  refine ⟨⟨by decide, fun h => ?_⟩, by decide, fun h => ?_⟩
  · exact absurd (h.zero.1 rfl) (by decide)
  · exact absurd h.reads (by decide)

end ToastOS.Stdlib
