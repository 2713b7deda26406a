import ToastOS.Stdlib.Format
import ToastOS.Stdlib.Strings

/-!
# The command history of `tsh.c`

The shell's globals with `update_history`, `get_prev_cmd`, `get_next_cmd`, `shell_clear` and `cmd_lsh`. `none` stands for an
access outside the row or the buffer it is made in. A row of the history is looked at through the string in it (`entry`).

* `updateHistory_spec`, `getPrevCmd_eq`, `getNextCmd_eq` : what the functions do to a sound history;
* `recordAll_recorded` : after any lines, the last eight stand in the rows by their number modulo 8;
* `lsh_iff` : `lsh` prints the most recent lines, exactly if fewer than eight were recorded;
* `lsh_empty_after_eight` : after eight lines it prints none.
-/

namespace ToastOS.Shell

open ToastOS.Stdlib

variable {t : List Byte}

/-- `KB_BUF_SIZE` of `tsh.c`. -/
def lineSize : Nat := 256

def historyMax : Nat := 8

def zeros : List Byte := List.replicate lineSize 0

/-- The globals of `tsh.c`. -/
structure Tsh where
  historyCount : Nat
  prevCommandIndex : Nat
  cmdHistory : List (List Byte)
  buf : List Byte
  bufIndex : Nat
  deriving DecidableEq

def Tsh.boot : Tsh := ⟨0, 0, List.replicate historyMax zeros, zeros, 0⟩

def updateHistory (s : Tsh) (line : List Byte) : Option Tsh := do
  if (← line.head?) = 0 then return s
  let slot := s.historyCount % historyMax
  let row ← strcpy (← s.cmdHistory[slot]?) line
  let count := s.historyCount + 1
  return { s with
    cmdHistory := s.cmdHistory.set slot row
    prevCommandIndex := count % historyMax
    historyCount := if count % historyMax = 0 then 0 else count }

def getPrevCmd (s : Tsh) : Option Tsh := do
  let prevIdx := (s.prevCommandIndex + historyMax - 1) % historyMax
  let len ← strlen (← s.cmdHistory[prevIdx]?)
  let index := if 1 ≤ len then prevIdx else s.prevCommandIndex
  let buf ← strcpy zeros (← s.cmdHistory[index]?)
  return { s with prevCommandIndex := index, buf := buf, bufIndex := ← strlen buf }

def getNextCmd (s : Tsh) : Option Tsh := do
  let nextIdx := (s.prevCommandIndex + 1) % historyMax
  let row ← s.cmdHistory[nextIdx]?
  if 1 ≤ (← strlen row) then
    let buf ← strcpy zeros row
    return { s with prevCommandIndex := nextIdx, buf := buf, bufIndex := ← strlen buf }
  else return { s with buf := zeros, bufIndex := ← strlen zeros }

/-- `shell_clear`; the index stays. -/
def shellClear (s : Tsh) : Tsh := { s with buf := zeros }

/-- What `cmd_lsh` prints. -/
def cmdLsh (s : Tsh) : Option (List Byte) := do
  let count := s.historyCount % historyMax
  let count := if count = 0 ∧ 0 < s.historyCount then historyMax else count
  let rows ← (List.range count).mapM fun i => do
    vprintfCore (literal "  %d : %s\n") [.word (BitVec.ofNat 64 i), .str (← s.cmdHistory[i]?)]
  return rows.flatten

/-! ## Strings in rows and in the buffer -/

def entry (s : Tsh) (i : Nat) : List Byte := cString (s.cmdHistory.getD i [])

def padded (t : List Byte) : List Byte := t ++ List.replicate (lineSize - t.length) 0

theorem padded_eq (h : t.length < lineSize) :
    padded t = t ++ 0 :: List.replicate (lineSize - (t.length + 1)) 0 := by
  rw [padded, ← List.replicate_succ]
  congr 2
  omega

theorem padded_nil : padded [] = zeros := rfl

theorem strlen_padded (h0 : 0 ∉ t) (h : t.length < lineSize) : strlen (padded t) = some t.length := by
  rw [padded_eq h, strlen_eq h0]

theorem cString_padded (h0 : 0 ∉ t) (h : t.length < lineSize) : cString (padded t) = t := by
  rw [padded_eq h, cString_append h0]

theorem strcpy_zeros (h0 : 0 ∉ t) (h : t.length < lineSize) (l : List Byte) :
    strcpy zeros (t ++ 0 :: l) = some (padded t) := by
  have hfit : t.length < zeros.length := by rwa [zeros, List.length_replicate]
  rw [strcpy_eq h0 l hfit, padded_eq h, zeros, List.drop_replicate]

/-- Eight rows of 256 bytes with a string in each, and indices of rows. -/
structure Sound (s : Tsh) : Prop where
  rows : s.cmdHistory.length = historyMax
  size : ∀ row ∈ s.cmdHistory, row.length = lineSize
  ended : ∀ row ∈ s.cmdHistory, (0 : Byte) ∈ row
  count : s.historyCount < historyMax
  index : s.prevCommandIndex < historyMax

theorem Sound.boot : Sound .boot := by
  refine ⟨rfl, fun row h => ?_, fun row h => ?_, by decide, by decide⟩ <;> rw [List.eq_of_mem_replicate h]
  · exact List.length_replicate
  · exact List.mem_replicate.2 ⟨by decide, rfl⟩

theorem zero_not_mem_entry (s : Tsh) (i : Nat) : 0 ∉ entry s i := zero_not_mem_cString _

section Entries

variable {s : Tsh} {i : Nat}

theorem Sound.row (h : Sound s) (hi : i < historyMax) :
    (entry s i).length < lineSize ∧ ∃ behind, s.cmdHistory[i]? = some (entry s i ++ 0 :: behind) := by
  have hlt : i < s.cmdHistory.length := h.rows ▸ hi
  have hmem := List.getElem_mem hlt
  have hentry : entry s i = cString s.cmdHistory[i] := by
    rw [entry, List.getD_eq_getElem?_getD, List.getElem?_eq_getElem hlt]
    rfl
  obtain ⟨behind, hrow⟩ := exists_cString (h.ended _ hmem)
  have hsize := h.size _ hmem
  rw [hrow, List.length_append, List.length_cons] at hsize
  rw [hentry, List.getElem?_eq_getElem hlt]
  exact ⟨by omega, behind, congrArg some hrow⟩

/-- The row that `get_prev_cmd` goes to. -/
def prevTarget (s : Tsh) : Nat :=
  if entry s ((s.prevCommandIndex + historyMax - 1) % historyMax) = [] then s.prevCommandIndex
  else (s.prevCommandIndex + historyMax - 1) % historyMax

theorem Sound.prevTarget_lt (h : Sound s) : prevTarget s < historyMax := by
  rw [prevTarget]
  split
  · exact h.index
  · exact Nat.mod_lt _ (by decide)

theorem one_le_length_iff : 1 ≤ t.length ↔ t ≠ [] := List.length_pos_iff

theorem getPrevCmd_eq (h : Sound s) : getPrevCmd s = some { s with
    prevCommandIndex := prevTarget s
    buf := padded (entry s (prevTarget s))
    bufIndex := (entry s (prevTarget s)).length } := by
  obtain ⟨-, behind, hprev⟩ := h.row (Nat.mod_lt (s.prevCommandIndex + historyMax - 1) (show 0 < historyMax by decide))
  obtain ⟨hlt, behind', htarget⟩ := h.row h.prevTarget_lt
  have hindex : (if 1 ≤ (entry s ((s.prevCommandIndex + historyMax - 1) % historyMax)).length then
      (s.prevCommandIndex + historyMax - 1) % historyMax else s.prevCommandIndex) = prevTarget s := by
    rw [prevTarget]
    simp only [one_le_length_iff, ite_not]
  simp only [getPrevCmd, hprev, Option.bind_eq_bind, Option.bind_some, strlen_eq (zero_not_mem_entry s _), hindex, htarget,
    strcpy_zeros (zero_not_mem_entry s _) hlt, strlen_padded (zero_not_mem_entry s _) hlt]
  rfl

theorem getNextCmd_eq (h : Sound s) : getNextCmd s =
    let next := (s.prevCommandIndex + 1) % historyMax
    some { s with
      prevCommandIndex := if entry s next = [] then s.prevCommandIndex else next
      buf := padded (entry s next)
      bufIndex := (entry s next).length } := by
  obtain ⟨hlt, behind, hnext⟩ := h.row (Nat.mod_lt (s.prevCommandIndex + 1) (show 0 < historyMax by decide))
  have h0 := zero_not_mem_entry s ((s.prevCommandIndex + 1) % historyMax)
  simp only [getNextCmd, hnext, Option.bind_eq_bind, Option.bind_some, strlen_eq h0, one_le_length_iff]
  by_cases hnil : entry s ((s.prevCommandIndex + 1) % historyMax) = []
  · rw [if_neg (not_not.2 hnil), if_pos hnil, hnil, ← padded_nil, strlen_padded List.not_mem_nil (by decide)]
    rfl
  · rw [if_pos hnil, if_neg hnil, strcpy_zeros h0 hlt, Option.bind_some, strlen_padded h0 hlt]
    rfl

end Entries

/-! ## Recording lines -/

/-- A line that can be recorded: not empty, and shorter than the buffer. -/
structure Line where
  text : List Byte
  ne_nil : text ≠ []
  no_zero : 0 ∉ text
  fits : text.length < lineSize

variable {s s' : Tsh} {i : Nat}

/-- The line goes to the row of the count, and the other rows stay. -/
structure Records (s : Tsh) (l : Line) (s' : Tsh) : Prop where
  sound : Sound s'
  count : s'.historyCount = (s.historyCount + 1) % historyMax
  index : s'.prevCommandIndex = (s.historyCount + 1) % historyMax
  slot : entry s' s.historyCount = l.text
  other : ∀ i, i ≠ s.historyCount → entry s' i = entry s i

theorem updateHistory_spec (h : Sound s) (l : Line) : ∃ s', updateHistory s (padded l.text) = some s' ∧ Records s l s' := by
  have hslot : s.historyCount % historyMax = s.historyCount := Nat.mod_eq_of_lt h.count
  obtain ⟨-, behind, hrow⟩ := h.row h.count
  have hsize := h.size _ (List.mem_of_getElem? hrow)
  obtain ⟨c, t, ht⟩ : ∃ c t, l.text = c :: t := List.exists_cons_of_ne_nil l.ne_nil
  have hc : c ≠ 0 := fun hc => l.no_zero (by rw [ht, hc]; exact List.mem_cons_self)
  have hhead : (padded l.text).head? = some c := by rw [padded, ht]; rfl
  have hcopy := strcpy_eq l.no_zero (List.replicate (lineSize - (l.text.length + 1)) 0) (l.fits.trans_eq hsize.symm)
  rw [← padded_eq l.fits] at hcopy
  have hlen : s.historyCount < s.cmdHistory.length := h.rows ▸ h.count
  -- the new row is a string of the same size
  generalize hnew : l.text ++ 0 :: (entry s s.historyCount ++ 0 :: behind).drop (l.text.length + 1) = new at hcopy
  have hnewsize : new.length = lineSize := by
    have := l.fits
    rw [← hnew, List.length_append, List.length_cons, List.length_drop, hsize]
    omega
  have hmem : ∀ row ∈ s.cmdHistory.set s.historyCount new, row ∈ s.cmdHistory ∨ row = new :=
    fun row hm => List.mem_or_eq_of_mem_set hm
  have hcount : (if (s.historyCount + 1) % historyMax = 0 then 0 else s.historyCount + 1) =
      (s.historyCount + 1) % historyMax := by
    by_cases hz : (s.historyCount + 1) % historyMax = 0
    · rw [if_pos hz, hz]
    · have := h.count
      rw [if_neg hz]
      simp only [historyMax] at this hz ⊢
      omega
  refine ⟨{ s with
      cmdHistory := s.cmdHistory.set s.historyCount new
      prevCommandIndex := (s.historyCount + 1) % historyMax
      historyCount := (s.historyCount + 1) % historyMax }, ?_,
    ⟨⟨?_, fun row hm => ?_, fun row hm => ?_, ?_, ?_⟩, rfl, rfl, ?_, fun i hi => ?_⟩⟩
  · simp only [updateHistory, hhead, Option.bind_eq_bind, Option.bind_some, if_neg hc, hslot, hrow, hcopy, hcount]
    rfl
  · exact (List.length_set).trans h.rows
  · rcases hmem row hm with hm | rfl
    · exact h.size row hm
    · exact hnewsize
  · rcases hmem row hm with hm | rfl
    · exact h.ended row hm
    · rw [← hnew]
      simp
  · exact Nat.mod_lt _ (by decide)
  · exact Nat.mod_lt _ (by decide)
  · rw [entry, List.getD_eq_getElem?_getD, List.getElem?_set_self hlen, Option.getD_some, ← hnew, cString_append l.no_zero]
  · rw [entry, List.getD_eq_getElem?_getD, List.getElem?_set_ne (Ne.symm hi), ← List.getD_eq_getElem?_getD, entry]

/-- The lines recorded one after the other, from the buffer. -/
def recordAll (lines : List Line) : Option Tsh := lines.foldlM (fun s l => updateHistory s (padded l.text)) .boot

/-- The last eight lines stand in the rows, by their number modulo 8; the others are empty. -/
structure Recorded (lines : List Line) (s : Tsh) : Prop where
  sound : Sound s
  count : s.historyCount = lines.length % historyMax
  index : s.prevCommandIndex = lines.length % historyMax
  filled : ∀ j l, lines[j]? = some l → lines.length ≤ j + historyMax → entry s (j % historyMax) = l.text
  blank : ∀ i, lines.length ≤ i → entry s i = []

theorem Recorded.boot : Recorded [] .boot := by
  refine ⟨.boot, rfl, rfl, fun j l hj _ => (nomatch hj), fun i _ => ?_⟩
  by_cases hi : i < historyMax
  · rw [entry, Tsh.boot, List.getD_eq_getElem?_getD, List.getElem?_replicate, if_pos hi]
    rfl
  · rw [entry, Tsh.boot, List.getD_eq_getElem?_getD, List.getElem?_replicate, if_neg hi]
    rfl

variable {lines : List Line}

theorem Recorded.record {l : Line} (h : Recorded lines s) (hr : Records s l s') :
    Recorded (lines ++ [l]) s' := by
  have hcount : s'.historyCount = (lines ++ [l]).length % historyMax := by
    rw [hr.count, h.count, List.length_append, List.length_singleton, Nat.mod_add_mod]
  refine ⟨hr.sound, hcount, hr.index.trans (hr.count.symm.trans hcount), fun j k hj hlast => ?_, fun i hi => ?_⟩
  · rw [List.length_append, List.length_singleton] at hlast
    rcases Nat.lt_or_ge j lines.length with hlt | hge
    · -- an older line: its row is not the one of the count
      rw [List.getElem?_append_left hlt] at hj
      rw [hr.other _ (by rw [h.count]; simp only [historyMax] at hlast ⊢; omega)]
      exact h.filled j k hj (by omega)
    · obtain rfl : j = lines.length := by
        have hj := (List.getElem?_eq_some_iff.1 hj).1
        rw [List.length_append, List.length_singleton] at hj
        omega
      rw [List.getElem?_concat_length] at hj
      cases hj
      rw [← h.count, hr.slot]
  · rw [List.length_append, List.length_singleton] at hi
    have hne : i ≠ s.historyCount := by
      have := Nat.mod_le lines.length historyMax
      rw [h.count]
      omega
    rw [hr.other i hne, h.blank i (by omega)]

theorem recordAll_recorded (lines : List Line) : ∃ s, recordAll lines = some s ∧ Recorded lines s := by
  induction lines using List.reverseRecOn with
  | nil => exact ⟨.boot, rfl, .boot⟩
  | append_singleton lines l ih =>
    obtain ⟨s, hs, hrec⟩ := ih
    obtain ⟨s', hs', hr⟩ := updateHistory_spec hrec.sound l
    refine ⟨s', ?_, hrec.record hr⟩
    rw [recordAll, List.foldlM_append, ← recordAll, hs]
    simp [hs']

/-! ## `lsh` -/

/-- A row that `lsh` prints. -/
def lshRow (i : Nat) (l : Line) : List Byte :=
  literal "  " ++ (numeral 10 i ++ (literal " : " ++ (l.text ++ literal "\n")))

/-- What `lsh` prints for the given lines. -/
def lshText (lines : List Line) : List Byte := (lines.mapIdx lshRow).flatten

/-- The most recent lines, the last one first. -/
def recent (lines : List Line) : List Line := lines.reverse.take historyMax

/-- `"  %d : %s\n"`. -/
def lshFormat : List Item :=
  (literal "  ").map .text ++ .conversion ⟨0, [], .default, .d⟩ :: (literal " : ").map .text ++
    [.conversion ⟨0, [], .default, .s⟩, .text (chr '\n')]

theorem index_printed : ∀ i < historyMax, printed (signedArg .default (BitVec.ofNat 64 i)) 10 0 false = numeral 10 i := by
  decide +kernel

theorem printf_lshRow (hi : i < historyMax) (l : Line) (behind : List Byte) :
    vprintfCore (literal "  %d : %s\n") [.word (BitVec.ofNat 64 i), .str (l.text ++ 0 :: behind)] = some (lshRow i l) := by
  have hrender : (literal "  %d : %s\n").takeWhile (· ≠ 0) = render lshFormat := by decide
  have hstr : putstr (l.text ++ 0 :: behind) = l.text := by
    rw [putstr_append_zero, List.takeWhile_eq_self_iff]
    exact fun c hc => decide_eq_true (ne_of_mem_of_not_mem hc l.no_zero)
  have hemits : emits lshFormat [.word (BitVec.ofNat 64 i), .str (l.text ++ 0 :: behind)] = some (lshRow i l, []) := by
    rw [lshRow, ← index_printed i hi]
    generalize l.text ++ 0 :: behind = row at hstr ⊢
    rw [← hstr]
    rfl
  rw [vprintfCore_eq, vprintfEnd, hrender, run_items (by decide) (by decide) hemits []]
  rfl

theorem mapM_range {α β : Type} {f : Nat → Option β} {g : Nat → α → β} (l : List α)
    (h : ∀ i a, l[i]? = some a → f i = some (g i a)) : (List.range l.length).mapM f = some (l.mapIdx g) := by
  induction l using List.reverseRecOn with
  | nil => rfl
  | append_singleton l a ih =>
    have hlast := h l.length a List.getElem?_concat_length
    have hinit := ih fun i b hb => h i b (List.getElem?_append_left (List.getElem?_eq_some_iff.1 hb).1 ▸ hb)
    rw [List.length_append, List.length_singleton, List.range_succ, List.mapM_append, hinit, List.mapIdx_concat]
    simp [hlast]

theorem Recorded.cmdLsh_eq (h : Recorded lines s) :
    cmdLsh s = some (lshText (lines.drop (lines.length - lines.length % historyMax))) := by
  generalize htail : lines.drop (lines.length - lines.length % historyMax) = tail
  have hlen : tail.length = lines.length % historyMax := by
    have := Nat.mod_le lines.length historyMax
    rw [← htail, List.length_drop]
    omega
  have hcount : (if s.historyCount % historyMax = 0 ∧ 0 < s.historyCount then historyMax else s.historyCount % historyMax) =
      tail.length := by
    have hmod : s.historyCount % historyMax = s.historyCount := Nat.mod_eq_of_lt h.sound.count
    rw [if_neg (by omega), hmod, h.count, hlen]
  have hrows := mapM_range tail (g := lshRow)
    (f := fun i => do vprintfCore (literal "  %d : %s\n") [.word (BitVec.ofNat 64 i), .str (← s.cmdHistory[i]?)])
    fun i l hl => by
      have hi : i < historyMax := by
        have := (List.getElem?_eq_some_iff.1 hl).1
        have := Nat.mod_lt lines.length (show 0 < historyMax by decide)
        omega
      have hentry : entry s i = l.text := by
        rw [← htail, List.getElem?_drop] at hl
        have := h.filled _ l hl (by have := Nat.mod_lt lines.length (show 0 < historyMax by decide); omega)
        rwa [show (lines.length - lines.length % historyMax + i) % historyMax = i by
          simp only [historyMax] at hi ⊢; omega] at this
      obtain ⟨-, behind, hrow⟩ := h.sound.row hi
      rw [hrow, hentry, Option.bind_eq_bind, Option.bind_some, printf_lshRow hi]
  rw [cmdLsh]
  simp only [hcount, hrows]
  rfl

theorem length_lshRow : ∀ i < historyMax, ∀ l, (lshRow i l).length = l.text.length + 7 := by
  intro i hi l
  have hdigit : (numeral 10 i).length = 1 :=
    (by decide +kernel : ∀ i < historyMax, (numeral 10 i).length = 1) i hi
  rw [lshRow, List.length_append, List.length_append, hdigit, List.length_append, List.length_append]
  have h1 : (literal "  ").length = 2 := by decide
  have h2 : (literal " : ").length = 3 := by decide
  have h3 : (literal "\n").length = 1 := by decide
  omega

theorem length_lshText (h : lines.length ≤ historyMax) :
    (lshText lines).length = (lines.map fun l => l.text.length + 7).sum := by
  induction lines using List.reverseRecOn with
  | nil => rfl
  | append_singleton lines l ih =>
    rw [List.length_append, List.length_singleton] at h
    have hrow := length_lshRow lines.length h l
    have hinit := ih (by omega)
    rw [lshText] at hinit ⊢
    rw [List.mapIdx_concat, List.flatten_append, List.length_append, hinit, List.map_append, List.sum_append]
    simp [hrow]

theorem length_lshText_perm {a b : List Line} (hp : a.Perm b) (h : b.length ≤ historyMax) :
    (lshText a).length = (lshText b).length := by
  rw [length_lshText h, length_lshText (hp.length_eq.trans_le h), (hp.map _).sum_eq]

theorem length_lshText_drop (h : lines.length ≤ historyMax) {k : Nat} (hk : 0 < k) (hne : lines ≠ []) :
    (lshText (lines.drop k)).length < (lshText lines).length := by
  rw [length_lshText h, length_lshText (List.length_drop.trans_le (by omega))]
  obtain ⟨l, rest, rfl⟩ := List.exists_cons_of_ne_nil hne
  obtain ⟨k, rfl⟩ : ∃ j, k = j + 1 := ⟨k - 1, by omega⟩
  have hsplit : (rest.map fun l => l.text.length + 7).sum =
      ((rest.take k).map fun l => l.text.length + 7).sum + ((rest.drop k).map fun l => l.text.length + 7).sum := by
    rw [← List.sum_append, ← List.map_append, List.take_append_drop]
  rw [List.drop_succ_cons, List.map_cons, List.sum_cons, hsplit]
  omega

theorem recent_perm (lines : List Line) : (recent lines).Perm (lines.drop (lines.length - historyMax)) := by
  rw [recent, List.take_reverse]
  exact List.reverse_perm _

/-- `lsh` prints the most recent lines, in some order, exactly if fewer than eight were recorded. -/
theorem lsh_iff (lines : List Line) : ∃ s, recordAll lines = some s ∧
    ((∃ shown, shown.Perm (recent lines) ∧ cmdLsh s = some (lshText shown)) ↔ lines.length < historyMax) := by
  obtain ⟨s, hs, hrec⟩ := recordAll_recorded lines
  refine ⟨s, hs, ⟨fun ⟨shown, hperm, hshown⟩ => ?_, fun hlt => ?_⟩⟩
  · by_contra hge
    rw [hrec.cmdLsh_eq, Option.some_inj] at hshown
    have hmod := Nat.mod_lt lines.length (show 0 < historyMax by decide)
    have hlen : (lines.drop (lines.length - historyMax)).length = historyMax := by
      rw [List.length_drop]
      omega
    -- what is printed is the text of some of the last eight lines, and not of all
    have hsame := length_lshText_perm (hperm.trans (recent_perm lines)) hlen.le
    have hless := length_lshText_drop hlen.le (show 0 < historyMax - lines.length % historyMax by omega)
      (List.ne_nil_of_length_pos (by rw [hlen]; decide))
    rw [List.drop_drop, show lines.length - historyMax + (historyMax - lines.length % historyMax) =
      lines.length - lines.length % historyMax by omega, hshown, hsame] at hless
    exact lt_irrefl _ hless
  · have hall : lines.length - lines.length % historyMax = 0 := by rw [Nat.mod_eq_of_lt hlt, Nat.sub_self]
    refine ⟨lines, ?_, by rw [hrec.cmdLsh_eq, hall, List.drop_zero]⟩
    have hperm := recent_perm lines
    rw [Nat.sub_eq_zero_of_le hlt.le, List.drop_zero] at hperm
    exact hperm.symm

/-- The line `echo`. -/
def echoLine : Line := ⟨literal "echo", by decide, by decide, by decide⟩

/-- After eight lines `lsh` prints nothing. -/
theorem lsh_empty_after_eight :
    (recordAll (List.replicate 8 echoLine)).bind cmdLsh = some [] ∧
      ∀ shown, shown.Perm (recent (List.replicate 8 echoLine)) → lshText shown ≠ [] := by
  refine ⟨by decide +kernel, fun shown hperm hnil => ?_⟩
  have hlen := length_lshText_perm hperm (by decide)
  rw [hnil] at hlen
  revert hlen
  decide +kernel

end ToastOS.Shell
