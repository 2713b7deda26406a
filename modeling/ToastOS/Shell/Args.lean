import Mathlib.Data.List.Basic
import ToastOS.Stdlib.Strings

/-!
# `parse_args`

The line is the object that holds the string and its zero, and nothing else: a read behind it, or an entry of `argv` behind
`max_args`, is `none`. A token is a position in the line.

* `words` : the maximal runs of non-blanks of a line;
* `Parsed n pos s argv l` : `argv` and the line `l` are what a tokenizer of `s` with room for `n` words should leave;
* `parse_args_correct` : `parse_args` never leaves its objects, and leaves that.
-/

namespace ToastOS.Shell

open ToastOS.Stdlib

/-- `while (*line && *line != ' ') line++`: what it passes, and the line from there on. -/
def skipWord : List Byte → Option (List Byte × List Byte)
  | [] => none
  | c :: l => if c ≠ 0 ∧ c ≠ chr ' ' then (skipWord l).map fun r => (c :: r.1, r.2) else some ([], c :: l)

theorem skipWord_length : ∀ {l t r : List Byte}, skipWord l = some (t, r) → t.length + r.length = l.length
  | [], _, _, h => by cases h
  | c :: l, t, r, h => by
    rw [skipWord] at h
    split at h
    · obtain ⟨⟨t', r'⟩, hr, he⟩ := Option.map_eq_some_iff.1 h
      cases he
      have := skipWord_length hr
      simp only [List.length_cons]
      omega
    · cases h
      simp

theorem skipWord_pos {c : Byte} {l t r : List Byte} (hc : c ≠ 0 ∧ c ≠ chr ' ') (h : skipWord (c :: l) = some (t, r)) :
    0 < t.length := by
  rw [skipWord, if_pos hc] at h
  obtain ⟨r', -, he⟩ := Option.map_eq_some_iff.1 h
  cases he
  exact Nat.succ_pos _

/-- The loop of `parse_args`, with the tokens so far, at position `pos` of the line, of which `l` is left. It yields
the tokens, and what the rest of the line has become. -/
def parseLoop (maxArgs : Nat) (argv : List Nat) (pos : Nat) (l : List Byte) : Option (List Nat × List Byte) :=
  match l with
  | [] => none
  | c :: l =>
    if c = chr ' ' then (parseLoop maxArgs argv (pos + 1) l).map fun r => (r.1, c :: r.2)
    else if _hc : c = 0 then some (argv, c :: l)
    else if argv.length < maxArgs then
      match _h : skipWord (c :: l) with
      | none => none
      | some (_, []) => none
      | some (t, d :: rest) =>
        if d ≠ 0 then
          if (argv ++ [pos]).length = maxArgs then some (argv ++ [pos], t ++ 0 :: rest)
          else (parseLoop maxArgs (argv ++ [pos]) (pos + t.length + 1) rest).map fun r => (r.1, t ++ 0 :: r.2)
        else
          if (argv ++ [pos]).length = maxArgs then some (argv ++ [pos], t ++ d :: rest)
          else (parseLoop maxArgs (argv ++ [pos]) (pos + t.length) (d :: rest)).map fun r => (r.1, t ++ r.2)
    else none
termination_by l.length
decreasing_by
  all_goals simp only [List.length_cons]
  all_goals try omega
  all_goals
    have h1 := skipWord_length _h
    have h2 := skipWord_pos ⟨_hc, ‹_›⟩ _h
    simp only [List.length_cons] at h1
    omega

/-- `parse_args`; `argc` is the length of `argv`. -/
def parseArgs (line : List Byte) (maxArgs : Nat) : Option (List Nat × List Byte) := parseLoop maxArgs [] 0 line

/-- The maximal runs of non-blanks. -/
def words (s : List Byte) : List (List Byte) := (s.splitOn (chr ' ')).filter (· ≠ [])

/-- `argv` and the line `l`, with `s` at position `pos` and room for `n` words. -/
structure Parsed (n pos : Nat) (s : List Byte) (argv : List Nat) (l : List Byte) : Prop where
  /-- There is a token for each word for which there is room. -/
  count : argv.length = min n (words s).length
  length : l.length = s.length + 1
  /-- Read as a string, each token is its word. -/
  token : ∀ i a : Nat, argv[i]? = some a → ∃ o w, a = pos + o ∧ (words s)[i]? = some w ∧ cString (l.drop o) = w
  /-- Only the blanks directly behind these words were changed. -/
  changed : ∀ j : Nat, l[j]? ≠ (s ++ [0])[j]? → s[j]? = some (chr ' ') ∧ l[j]? = some 0 ∧
    ∃ (i o : Nat) (w : List Byte), argv[i]? = some (pos + o) ∧ (words s)[i]? = some w ∧ j = o + w.length

section Words

variable {s t : List Byte}

theorem words_nil : words [] = [] := by
  simp [words, List.splitOn]

theorem words_blank (s : List Byte) : words (chr ' ' :: s) = words s := by
  have h := @List.splitOnP_append_cons Byte (· == chr ' ') [] s (chr ' ') (by simp)
  rw [List.nil_append] at h
  rw [words, List.splitOn, h]
  simp [words, List.splitOn]

theorem words_word (ht : t ≠ []) (hb : chr ' ' ∉ t) (s : List Byte) : words (t ++ chr ' ' :: s) = t :: words s := by
  have hall : ∀ c ∈ t, (c == chr ' ') = false := fun c hc => by
    simpa using ne_of_mem_of_not_mem hc hb
  rw [words, List.splitOn, List.splitOnP_append_cons_of_forall_mem hall (chr ' ') (by simp)]
  simp [words, List.splitOn, ht]

theorem words_last (ht : t ≠ []) (hb : chr ' ' ∉ t) : words t = [t] := by
  have hall : ∀ c ∈ t, (c == chr ' ') = false := fun c hc => by
    simpa using ne_of_mem_of_not_mem hc hb
  rw [words, List.splitOn, List.splitOnP_eq_singleton hall]
  simp [ht]

end Words

/-! ## One word after the other -/

section Parsed

variable {n pos : Nat} {s t l : List Byte} {argv : List Nat}

theorem Parsed.none (pos : Nat) (s : List Byte) : Parsed 0 pos s [] (s ++ [0]) :=
  ⟨by simp, by simp, fun i a h => by simp at h, fun j h => absurd rfl h⟩

theorem Parsed.nil (n pos : Nat) : Parsed n pos [] [] [0] :=
  ⟨by simp [words_nil], rfl, fun i a h => by simp at h, fun j h => absurd rfl h⟩

theorem Parsed.blank (h : Parsed n (pos + 1) s argv l) : Parsed n pos (chr ' ' :: s) argv (chr ' ' :: l) := by
  refine ⟨by rw [words_blank]; exact h.count, by simp [h.length], fun i a ha => ?_, fun j hj => ?_⟩
  · obtain ⟨o, w, rfl, hw, hl⟩ := h.token i a ha
    exact ⟨o + 1, w, by omega, by rw [words_blank]; exact hw, hl⟩
  · cases j with
    | zero => exact absurd rfl hj
    | succ j =>
      obtain ⟨hs, hl, i, o, w, ha, hw, rfl⟩ := h.changed j hj
      exact ⟨hs, hl, i, o + 1, w, by rw [ha]; congr 1; omega, by rw [words_blank]; exact hw, by omega⟩

theorem Parsed.word (ht : t ≠ []) (hb : chr ' ' ∉ t) (h0 : 0 ∉ t) (h : Parsed n (pos + t.length + 1) s argv l) :
    Parsed (n + 1) pos (t ++ chr ' ' :: s) (pos :: argv) (t ++ 0 :: l) := by
  have hdrop (o : Nat) : (t ++ 0 :: l).drop (t.length + 1 + o) = l.drop o := by
    rw [Nat.add_assoc, ← List.drop_drop, List.drop_left, Nat.add_comm 1 o]
    rfl
  have hwords := words_word ht hb s
  refine ⟨?_, by simp [h.length]; omega, fun i a ha => ?_, fun j hj => ?_⟩
  · rw [hwords, List.length_cons, List.length_cons, h.count]
    omega
  · rw [hwords]
    cases i with
    | zero =>
      cases ha
      exact ⟨0, t, rfl, rfl, cString_append h0 l⟩
    | succ i =>
      obtain ⟨o, w, rfl, hw, hl⟩ := h.token i a ha
      exact ⟨t.length + 1 + o, w, by omega, hw, by rw [hdrop]; exact hl⟩
  · rw [List.append_assoc, List.cons_append] at hj
    rw [hwords]
    rcases Nat.lt_trichotomy j t.length with hlt | rfl | hgt
    · rw [List.getElem?_append_left hlt, List.getElem?_append_left hlt] at hj
      exact absurd rfl hj
    · exact ⟨by simp, by simp, 0, 0, t, rfl, rfl, by omega⟩
    · obtain ⟨k, rfl⟩ := Nat.exists_eq_add_of_lt hgt
      have hk (c : Byte) (r : List Byte) : (t ++ c :: r)[t.length + k + 1]? = r[k]? := by
        rw [List.getElem?_append_right (by omega), show t.length + k + 1 - t.length = k + 1 by omega, List.getElem?_cons_succ]
      rw [hk, hk] at hj
      obtain ⟨hs, hl, i, o, w, ha, hw, rfl⟩ := h.changed k hj
      refine ⟨by rw [hk]; exact hs, by rw [hk]; exact hl, i + 1, t.length + 1 + o, w, ?_, hw, by omega⟩
      rw [List.getElem?_cons_succ, ha]
      congr 1
      omega

theorem Parsed.last (ht : t ≠ []) (hb : chr ' ' ∉ t) (h0 : 0 ∉ t) (hn : 0 < n) (pos : Nat) :
    Parsed n pos t [pos] (t ++ [0]) := by
  have hwords := words_last ht hb
  refine ⟨by simp [hwords]; omega, by simp, fun i a ha => ?_, fun j hj => absurd rfl hj⟩
  cases i with
  | zero =>
    cases ha
    exact ⟨0, t, rfl, by rw [hwords]; rfl, cString_append h0 []⟩
  | succ i => simp at ha

theorem mem_words (h : t ∈ words s) : t ≠ [] := by
  simpa using (List.mem_filter.1 h).2

theorem Parsed.token_eq (h : Parsed n 0 s argv l) {i a : Nat} (ha : argv[i]? = some a) :
    ∃ w behind, (words s)[i]? = some w ∧ 0 ∉ w ∧ l.drop a = w ++ 0 :: behind := by
  obtain ⟨o, w, rfl, hw, hl⟩ := h.token i a ha
  rw [Nat.zero_add]
  -- the last byte was not changed, because it was no blank
  have hlast : l[s.length]? = some 0 := by
    by_contra hne
    have := (h.changed s.length (by simpa using hne)).1
    simp at this
  have hlt : o < l.length := by
    by_contra hge
    rw [List.drop_eq_nil_of_le (Nat.not_lt.1 hge)] at hl
    exact mem_words (List.mem_of_getElem? hw) hl.symm
  have hmem : 0 ∈ l.drop o := by
    have hle : o ≤ s.length := by
      have := h.length
      omega
    refine List.mem_of_getElem? (i := s.length - o) ?_
    rw [List.getElem?_drop, Nat.add_sub_cancel' hle]
    exact hlast
  obtain ⟨behind, hb⟩ := exists_cString hmem
  rw [hl] at hb
  exact ⟨w, behind, hw, hl ▸ zero_not_mem_cString _, hb⟩

end Parsed

section Loop

variable {maxArgs : Nat}

theorem skipWord_eq {t : List Byte} (hb : chr ' ' ∉ t) (h0 : 0 ∉ t) {d : Byte} (hd : d = 0 ∨ d = chr ' ') (r : List Byte) :
    skipWord (t ++ d :: r) = some (t, d :: r) := by
  induction t with
  | nil =>
    rw [List.nil_append, skipWord, if_neg]
    rintro ⟨h1, h2⟩
    exact hd.elim h1 h2
  | cons c t ih =>
    obtain ⟨hc0, ht0⟩ := not_or.1 (mt List.mem_cons.2 h0)
    obtain ⟨hcb, htb⟩ := not_or.1 (mt List.mem_cons.2 hb)
    rw [List.cons_append, skipWord, if_pos ⟨Ne.symm hc0, Ne.symm hcb⟩, ih htb ht0]
    rfl

theorem parseLoop_blank (argv : List Nat) (pos : Nat) (l : List Byte) :
    parseLoop maxArgs argv pos (chr ' ' :: l) = (parseLoop maxArgs argv (pos + 1) l).map fun r => (r.1, chr ' ' :: r.2) := by
  rw [parseLoop, if_pos rfl]

theorem parseLoop_zero (argv : List Nat) (pos : Nat) (l : List Byte) :
    parseLoop maxArgs argv pos (0 :: l) = some (argv, 0 :: l) := by
  rw [parseLoop, if_neg (by decide), dif_pos rfl]

theorem parseLoop_word {t : List Byte} (ht : t ≠ []) (hb : chr ' ' ∉ t) (h0 : 0 ∉ t) {d : Byte} (hd : d = 0 ∨ d = chr ' ')
    (argv : List Nat) (hroom : argv.length < maxArgs) (pos : Nat) (r : List Byte) :
    parseLoop maxArgs argv pos (t ++ d :: r) =
      if d ≠ 0 then
        if (argv ++ [pos]).length = maxArgs then some (argv ++ [pos], t ++ 0 :: r)
        else (parseLoop maxArgs (argv ++ [pos]) (pos + t.length + 1) r).map fun x => (x.1, t ++ 0 :: x.2)
      else
        if (argv ++ [pos]).length = maxArgs then some (argv ++ [pos], t ++ d :: r)
        else (parseLoop maxArgs (argv ++ [pos]) (pos + t.length) (d :: r)).map fun x => (x.1, t ++ x.2) := by
  have hskip := skipWord_eq hb h0 hd r
  obtain ⟨c, t, rfl⟩ := List.exists_cons_of_ne_nil ht
  obtain ⟨hc0, -⟩ := not_or.1 (mt List.mem_cons.2 h0)
  obtain ⟨hcb, -⟩ := not_or.1 (mt List.mem_cons.2 hb)
  rw [List.cons_append] at hskip ⊢
  rw [parseLoop, if_neg (Ne.symm hcb), dif_neg (Ne.symm hc0), if_pos hroom]
  split
  · rename_i h
    rw [hskip] at h
    cases h
  · rename_i h
    rw [hskip] at h
    cases h
  · rename_i h
    rw [hskip] at h
    cases h
    rfl

theorem parseLoop_parsed (s : List Byte) (h0 : 0 ∉ s) (argv : List Nat) (pos n : Nat) (hn : argv.length + n = maxArgs)
    (hpos : 0 < n) :
    ∃ argv' l, parseLoop maxArgs argv pos (s ++ [0]) = some (argv ++ argv', l) ∧ Parsed n pos s argv' l := by
  induction hk : s.length using Nat.strong_induction_on generalizing s argv pos n with
  | _ k ih =>
    subst hk
    match s, h0 with
    | [], _ =>
      refine ⟨[], [0], ?_, Parsed.nil n pos⟩
      rw [List.nil_append, parseLoop_zero, List.append_nil]
    | c :: s, h0 =>
      by_cases hc : c = chr ' '
      · subst hc
        have hs : 0 ∉ s := fun h => h0 (List.mem_cons_of_mem _ h)
        obtain ⟨argv', l, hl, hp⟩ := ih s.length (Nat.lt_succ_self _) s hs argv (pos + 1) n hn hpos rfl
        refine ⟨argv', chr ' ' :: l, ?_, hp.blank⟩
        rw [List.cons_append, parseLoop_blank, hl]
        rfl
      · by_cases hb : chr ' ' ∈ c :: s
        · -- the word goes up to the first blank
          obtain ⟨t, r, ht, htb⟩ := List.eq_append_cons_of_mem hb
          have htne : t ≠ [] := fun h => by
            rw [h] at ht
            exact hc (List.head_eq_of_cons_eq ht)
          rw [ht] at h0 ih ⊢
          have ht0 : 0 ∉ t := fun h => h0 (List.mem_append_left _ h)
          have hr0 : 0 ∉ r := fun h => h0 (List.mem_append_right _ (List.mem_cons_of_mem _ h))
          rw [List.append_assoc, List.cons_append, parseLoop_word htne htb ht0 (.inr rfl) argv (by omega) pos,
            if_pos (by decide), List.length_append, List.length_singleton]
          obtain ⟨m, rfl⟩ := Nat.exists_eq_succ_of_ne_zero (Nat.pos_iff_ne_zero.1 hpos)
          by_cases hfull : argv.length + 1 = maxArgs
          · obtain rfl : m = 0 := by omega
            rw [if_pos hfull]
            exact ⟨[pos], _, rfl, Parsed.word htne htb ht0 (Parsed.none _ r)⟩
          · rw [if_neg hfull]
            have hlt : r.length < (t ++ chr ' ' :: r).length := by simp; omega
            obtain ⟨argv', l, hl, hp⟩ := ih r.length hlt r hr0 (argv ++ [pos]) (pos + t.length + 1) m (by simp; omega)
              (by omega) rfl
            refine ⟨pos :: argv', t ++ 0 :: l, ?_, hp.word htne htb ht0⟩
            rw [hl, Option.map_some, List.append_assoc]
            rfl
        · have hlast := Parsed.last (List.cons_ne_nil c s) hb h0 hpos pos
          refine ⟨[pos], c :: s ++ [0], ?_, hlast⟩
          rw [parseLoop_word (List.cons_ne_nil c s) hb h0 (.inl rfl) argv (by omega) pos, if_neg (by decide)]
          split
          · rfl
          · rw [parseLoop_zero]
            rfl

theorem parseArgs_parsed {s : List Byte} (h0 : 0 ∉ s) (hmax : 1 ≤ maxArgs) :
    ∃ argv l, parseArgs (s ++ [0]) maxArgs = some (argv, l) ∧ Parsed maxArgs 0 s argv l :=
  parseLoop_parsed s h0 [] 0 maxArgs (Nat.zero_add _) hmax

end Loop

/-- `parse_args` on every line: it reads and writes nothing but the string and its zero and `max_args` entries of
`argv`; there is a token for each of the first `max_args` words, which is that word; and only blanks directly behind
these words were changed. -/
theorem parse_args_correct (s : List Byte) (h0 : 0 ∉ s) (maxArgs : Nat) (hmax : 1 ≤ maxArgs) :
    ∃ argv l, parseArgs (s ++ [0]) maxArgs = some (argv, l) ∧ argv.length = min maxArgs (words s).length ∧
      l.length = (s ++ [0]).length ∧
      (∀ i a : Nat, argv[i]? = some a → (words s)[i]? = some (cString (l.drop a))) ∧
      ∀ j : Nat, l[j]? ≠ (s ++ [0])[j]? → s[j]? = some (chr ' ') ∧ l[j]? = some 0 ∧
        ∃ (i a : Nat) (w : List Byte), argv[i]? = some a ∧ (words s)[i]? = some w ∧ j = a + w.length := by
  obtain ⟨argv, l, hl, hp⟩ := parseArgs_parsed h0 hmax
  refine ⟨argv, l, hl, hp.count, by rw [hp.length, List.length_append, List.length_singleton], fun i a ha => ?_,
    fun j hj => ?_⟩
  · obtain ⟨o, w, rfl, hw, hcs⟩ := hp.token i a ha
    rw [hw, ← hcs, Nat.zero_add]
  · obtain ⟨hs, hl, i, o, w, ha, hw, rfl⟩ := hp.changed j hj
    exact ⟨hs, hl, i, o, w, by rw [ha, Nat.zero_add], hw, rfl⟩

theorem two_words_parsed : ∃ argv l, parseArgs (literal "  kill 7 " ++ [0]) 16 = some (argv, l) ∧ argv.length = 2 := by
  obtain ⟨argv, l, hl, hcount, -⟩ := parse_args_correct (literal "  kill 7 ") (by decide) 16 (by decide)
  exact ⟨argv, l, hl, hcount.trans (by decide)⟩

end ToastOS.Shell
