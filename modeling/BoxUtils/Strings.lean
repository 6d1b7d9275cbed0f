import BoxUtils.Split
import Mathlib.Data.List.DropRight

/-!
`trim` and `replace_all` of string.cpp. Replacing edits the string that it searches and
goes on behind what it has put in, so the string is always a finished part and the rest
that has not been looked at. Trimming moves two iterators towards each other; the one
that comes from the end stays on a character that belongs to the result, and is then
taken for the end of the range.
-/
namespace BoxUtils.Strings

open Loops Occurrences Split

section Source

/-- The variables of the loop of `replace_all`, with `npos` as none. -/
structure Replacing where
  str : List UInt8
  first : ℕ
  pos : Option ℕ
  deriving DecidableEq, Repr

/-- `str.replace(pos, count, ne)`. -/
def replace (str : List UInt8) (pos count : ℕ) (ne : List UInt8) : List UInt8 :=
  str.take pos ++ ne ++ str.drop (pos + count)

/-- One turn of the loop of `replace_all`. -/
def replaceTurn (old ne : List UInt8) : Replacing → Turn Replacing (List UInt8)
  | ⟨str, _, none⟩ => .done str
  | ⟨str, _, some pos⟩ =>
    let str := replace str pos old.length ne
    let first := pos + ne.length
    .again ⟨str, first, find str old first⟩

/-- The start of the loop, on a copy of the string. -/
def replacing (s old : List UInt8) : Replacing := ⟨s, 0, find s old 0⟩

/-- `s.replace_all(old, ne)` returns the result. -/
def ReplaceAll (s old ne result : List UInt8) : Prop :=
  Yields (replaceTurn old ne) (replacing s old) result

/-- What is not defined for iterators of a string: reading at or behind the end, moving
before the beginning, and a range whose ends are the wrong way round. -/
inductive IteratorError
  | pastEnd
  | beforeBegin
  | reversed
  deriving DecidableEq, Repr

def blank : UInt8 := 32

def deref (s : List UInt8) (i : ℕ) : Except IteratorError UInt8 :=
  match s[i]? with
  | some c => .ok c
  | none => .error .pastEnd

/-- `-- i`. -/
def prev : ℕ → Except IteratorError ℕ
  | 0 => .error .beforeBegin
  | i + 1 => .ok i

/-- The loop that moves `i_begin`, on the characters from there on. At the end it reads
before it compares with the end. -/
def skipBlanks : List UInt8 → ℕ → Except IteratorError ℕ
  | [], _ => .error .pastEnd
  | c :: rest, iBegin => if c = blank then skipBlanks rest (iBegin + 1) else .ok iBegin

/-- The loop that moves `i_end`. -/
def skipBlanksBack (s : List UInt8) : ℕ → Except IteratorError ℕ
  | 0 => do
    let _ ← deref s 0
    .ok 0
  | iEnd + 1 => do
    let c ← deref s (iEnd + 1)
    if c = blank then skipBlanksBack s iEnd else .ok (iEnd + 1)

/-- The characters from `i_begin` up to `i_end`. -/
def range (s : List UInt8) (iBegin iEnd : ℕ) : Except IteratorError (List UInt8) :=
  if iBegin ≤ iEnd then .ok ((s.take iEnd).drop iBegin) else .error .reversed

def trim (s : List UInt8) : Except IteratorError (List UInt8) := do
  let iEnd ← prev s.length
  let iBegin ← skipBlanks s 0
  let iEnd ← skipBlanksBack s iEnd
  range s iBegin iEnd

end Source

section Replacement

variable {old rest : List UInt8} {ps : List (List UInt8)}

theorem replace_middle (front before old after ne : List UInt8) :
    replace (front ++ (before ++ old ++ after)) (front.length + before.length) old.length ne =
      front ++ before ++ ne ++ after := by
  have hsplit : front ++ (before ++ old ++ after) = (front ++ before) ++ (old ++ after) := by
    simp only [List.append_assoc]
  rw [replace, hsplit, ← List.length_append, List.take_left, ← List.drop_drop, List.drop_left,
    List.drop_left]

/-- From a finished part on, the loop replaces what stands between the pieces of the rest. -/
theorem replaceTurn_yields (hps : Pieces old rest ps) (ne front : List UInt8) :
    Yields (replaceTurn old ne) ⟨front ++ rest, front.length, find (front ++ rest) old front.length⟩
      (front ++ ne.intercalate ps) := by
  induction hps generalizing front with
  | @last s hnone =>
    rw [find_append_none front hnone, List.intercalate_singleton]
    exact Yields.done rfl
  | @next before after ps hfirst hrest ih =>
    have hfound := find_append front hfirst (by simp only [List.length_append]; omega)
    have hfront : (front ++ before ++ ne).length = front.length + before.length + ne.length := by
      simp only [List.length_append]
    have hresult : front ++ ne.intercalate (before :: ps) =
        front ++ before ++ ne ++ ne.intercalate ps := by
      rw [List.intercalate_cons_of_ne_nil hrest.ne_nil]
      simp only [List.append_assoc]
    have hnext := ih (front ++ before ++ ne)
    rw [hfront] at hnext
    rw [hfound, hresult]
    refine Yields.again ?_ hnext
    rw [replaceTurn, replace_middle]

/-- The result is the string with its leftmost occurrences that do not overlap replaced. -/
theorem replaceAll_replaces (hold : old ≠ []) (s ne : List UInt8) :
    ReplaceAll s old ne (ne.intercalate (pieces old s)) :=
  replaceTurn_yields (pieces_spec hold s) ne []

/-- The letter a in "banana" by "an". -/
theorem replaceAll_replaces_letter :
    ReplaceAll [98, 97, 110, 97, 110, 97] [97] [97, 110]
      [98, 97, 110, 110, 97, 110, 110, 97, 110] := by
  have hold : ([97] : List UInt8) ≠ [] := by decide
  have h := replaceAll_replaces hold [98, 97, 110, 97, 110, 97] [97, 110]
  have hpieces : pieces [97] [98, 97, 110, 97, 110, (97 : UInt8)] = [[98], [110], [110], []] := by
    decide
  rw [hpieces] at h
  exact h

end Replacement

section Termination

variable {s old delim : List UInt8}

/-- An empty pattern is found again right behind what was put in. -/
theorem not_ends_replace_nil (s ne : List UInt8) :
    ¬ Ends (replaceTurn [] ne) (replacing s []) := by
  let I : Replacing → Prop := fun r => r.pos = some r.first ∧ r.first ≤ r.str.length
  have hstart : I (replacing s []) := ⟨find_nil (Nat.zero_le _), Nat.zero_le _⟩
  refine not_ends_of_invariant ?_ hstart
  rintro ⟨str, first, pos⟩ ⟨hpos, hfirst⟩
  obtain rfl : pos = some first := hpos
  have hlen : first + ne.length ≤ (replace str first 0 ne).length := by
    have htake : (str.take first).length = first := List.length_take_of_le hfirst
    simp only [replace, List.length_append, htake]
    omega
  exact ⟨_, rfl, find_nil hlen, hlen⟩

/-- An empty delimiter is found at the same place in every turn. -/
theorem not_ends_split_nil (s : List UInt8) :
    ¬ Ends (splitTurn s []) ⟨0, find s [] 0, []⟩ := by
  let I : Splitting UInt8 → Prop := fun p => p.pos = some 0
  have hfound : find s [] 0 = some 0 := find_nil (Nat.zero_le _)
  refine not_ends_of_invariant (I := I) ?_ hfound
  rintro ⟨first, pos, out⟩ hpos
  obtain rfl : pos = some 0 := hpos
  exact ⟨_, rfl, hfound⟩

theorem ends_split (hdelim : delim ≠ []) (s : List UInt8) :
    Ends (splitTurn s delim) ⟨0, find s delim 0, []⟩ := by
  have hends : ∃ out, implSplit s delim = some out := implSplit_ends hdelim
  obtain ⟨out, hout⟩ := hends
  exact ⟨out, s.length + 1 + 1, (splitLoop_eq_loop _ 0 _ []).trans hout⟩

/-- Both loops end, whatever the string is, if and only if they do not search for nothing. -/
theorem search_loops_end_iff (s pattern ne : List UInt8) :
    (Ends (replaceTurn pattern ne) (replacing s pattern) ↔ pattern ≠ []) ∧
      (Ends (splitTurn s pattern) ⟨0, find s pattern 0, []⟩ ↔ pattern ≠ []) := by
  refine ⟨⟨?_, ?_⟩, ?_, ?_⟩
  · rintro hends rfl
    exact not_ends_replace_nil s ne hends
  · intro hpattern
    exact ⟨_, replaceAll_replaces hpattern s ne⟩
  · rintro hends rfl
    exact not_ends_split_nil s hends
  · intro hpattern
    exact ends_split hpattern s

/-- Replacing nothing, and splitting at nothing. -/
theorem empty_pattern_found_for_ever :
    ¬ (∀ s pattern ne : List UInt8, Ends (replaceTurn pattern ne) (replacing s pattern)) ∧
      ¬ ∀ s delim : List UInt8, Ends (splitTurn s delim) ⟨0, find s delim 0, []⟩ := by
  constructor
  · intro h
    exact not_ends_replace_nil [97] [120] (h [97] [] [120])
  · intro h
    exact not_ends_split_nil [97] (h [97] [])

end Termination

section Trimming

variable {s front back : List UInt8} {c d : UInt8}

def isBlank (c : UInt8) : Bool := c = blank

/-- The string without its longest prefix and its longest suffix of blanks. -/
def trimmed (s : List UInt8) : List UInt8 := (s.dropWhile isBlank).rdropWhile isBlank

def TrimsExactly (s : List UInt8) : Prop := trim s = .ok (trimmed s)

instance (s : List UInt8) : Decidable (TrimsExactly s) := inferInstanceAs (Decidable (_ = _))

theorem skipBlanks_front (hfront : ∀ b ∈ front, b = blank) (hc : c ≠ blank)
    (rest : List UInt8) (iBegin : ℕ) :
    skipBlanks (front ++ c :: rest) iBegin = .ok (iBegin + front.length) := by
  induction front generalizing iBegin with
  | nil => exact if_neg hc
  | cons b front ih =>
    have hb : b = blank := hfront b List.mem_cons_self
    have hrest := ih (fun x hx => hfront x (List.mem_cons_of_mem b hx)) (iBegin + 1)
    rw [List.cons_append, skipBlanks, if_pos hb, hrest, List.length_cons]
    congr 1
    omega

/-- A string of blanks is read at its end. -/
theorem skipBlanks_blank (hs : ∀ b ∈ s, b = blank) (iBegin : ℕ) :
    skipBlanks s iBegin = .error .pastEnd := by
  induction s generalizing iBegin with
  | nil => rfl
  | cons b s ih =>
    rw [skipBlanks, if_pos (hs b List.mem_cons_self)]
    exact ih (fun x hx => hs x (List.mem_cons_of_mem b hx)) (iBegin + 1)

theorem skipBlanksBack_back (hd : d ≠ blank) (hback : ∀ b ∈ back, b = blank) {k : ℕ}
    (hk : k ≤ back.length) :
    skipBlanksBack (front ++ d :: back) (front.length + k) = .ok front.length := by
  have hread : ∀ i, (front ++ d :: back)[front.length + i]? = (d :: back)[i]? := by
    intro i
    rw [List.getElem?_append_right (Nat.le_add_right _ _), Nat.add_sub_cancel_left]
  induction k with
  | zero =>
    have hfirst : deref (front ++ d :: back) front.length = .ok d := by
      have h := hread 0
      rw [Nat.add_zero] at h
      simp only [deref, h, List.getElem?_cons_zero]
    rw [Nat.add_zero]
    cases hlen : front.length with
    | zero =>
      rw [hlen] at hfirst
      simp only [skipBlanksBack, hfirst, bind, Except.bind]
    | succ n =>
      rw [hlen] at hfirst
      simp only [skipBlanksBack, hfirst, bind, Except.bind, if_neg hd]
  | succ k ih =>
    have hblank : back[k] = blank := hback _ (List.getElem_mem (by omega))
    have hget : (front ++ d :: back)[front.length + k + 1]? = some back[k] := by
      rw [Nat.add_assoc, hread, List.getElem?_cons_succ, List.getElem?_eq_getElem]
    have hlast : deref (front ++ d :: back) (front.length + k + 1) = .ok back[k] := by
      simp only [deref, hget]
    rw [← Nat.add_assoc, skipBlanksBack, hlast]
    simp only [bind, Except.bind, if_pos hblank]
    exact ih (by omega)

theorem isBlank_iff : isBlank c = true ↔ c = blank := decide_eq_true_iff

/-- The parts of a string that has other characters than blanks: blanks on both sides, and
between them what is left of it, with its first and its last character. -/
theorem exists_parts (hs : ∃ c ∈ s, c ≠ blank) :
    ∃ front core back first last tail, s = front ++ first :: tail ∧
      s = front ++ core ++ last :: back ∧ trimmed s = core ++ [last] ∧
      (∀ b ∈ front, b = blank) ∧ (∀ b ∈ back, b = blank) ∧ first ≠ blank ∧ last ≠ blank := by
  have hrest : s.dropWhile isBlank ≠ [] := by
    intro hnil
    obtain ⟨c, hc, hne⟩ := hs
    exact hne (isBlank_iff.mp (List.dropWhile_eq_nil_iff.mp hnil c hc))
  have hfirst := List.head_dropWhile_not isBlank hrest
  obtain ⟨first, tail, htail⟩ := List.exists_cons_of_ne_nil hrest
  simp only [htail, List.head_cons] at hfirst
  have hcore : trimmed s ≠ [] := by
    intro hnil
    have hblank := List.rdropWhile_eq_nil_iff.mp hnil first (htail ▸ List.mem_cons_self)
    exact of_decide_eq_false hfirst (isBlank_iff.mp hblank)
  have hlast := List.rdropWhile_last_not isBlank _ hcore
  have htrimmed := List.dropLast_append_getLast hcore
  have hsplit := List.takeWhile_append_dropWhile (p := isBlank) (l := s)
  refine ⟨s.takeWhile isBlank, (trimmed s).dropLast, (s.dropWhile isBlank).rtakeWhile isBlank,
    first, (trimmed s).getLast hcore, tail, ?_, ?_, htrimmed.symm, ?_, ?_,
    of_decide_eq_false hfirst, fun h => hlast (isBlank_iff.mpr h)⟩
  · rw [← htail, hsplit]
  · rw [List.append_assoc, List.append_cons, htrimmed, trimmed,
      List.rdropWhile_append_rtakeWhile, hsplit]
  · intro b hb
    exact isBlank_iff.mp (List.mem_takeWhile_imp hb)
  · intro b hb
    exact isBlank_iff.mp (List.mem_rtakeWhile_imp hb)

/-- A string with other characters than blanks: the last of them is lost. -/
theorem trim_eq (hs : ∃ c ∈ s, c ≠ blank) : trim s = .ok (trimmed s).dropLast := by
  obtain ⟨front, core, back, first, last, tail, hleft, hright, htrimmed, hfront, hback, hfirst,
    hlast⟩ := exists_parts hs
  have hbegin : skipBlanks s 0 = .ok front.length := by
    rw [hleft, skipBlanks_front hfront hfirst, Nat.zero_add]
  have hlen : s.length = (front ++ core).length + back.length + 1 := by
    rw [hright, List.length_append, List.length_cons, Nat.add_assoc]
  have hend : skipBlanksBack s ((front ++ core).length + back.length) =
      .ok (front ++ core).length := by
    rw [hright]
    exact skipBlanksBack_back hlast hback le_rfl
  have hrange : range s front.length (front ++ core).length = .ok core := by
    have hle : front.length ≤ (front ++ core).length := by
      rw [List.length_append]
      omega
    rw [range, if_pos hle, hright, List.take_left, List.drop_left]
  rw [htrimmed, List.dropLast_concat]
  simp only [trim, hlen, prev, bind, Except.bind, hbegin, hend, hrange]

/-- No string is trimmed exactly: one of blanks is read at its end, and any other loses
its last character that is not a blank. -/
theorem not_trimsExactly (s : List UInt8) : ¬ TrimsExactly s := by
  intro hexact
  by_cases hs : ∃ c ∈ s, c ≠ blank
  · obtain ⟨front, core, back, first, last, tail, -, -, htrimmed, -⟩ := exists_parts hs
    have hlost : (trimmed s).dropLast = trimmed s := Except.ok.inj ((trim_eq hs).symm.trans hexact)
    rw [htrimmed, List.dropLast_concat] at hlost
    exact List.cons_ne_nil last [] (List.self_eq_append_right.mp hlost)
  · push Not at hs
    have hread : ∃ e, trim s = .error e := by
      cases hlen : s.length with
      | zero => exact ⟨.beforeBegin, by simp only [trim, hlen, prev, bind, Except.bind]⟩
      | succ n =>
        refine ⟨.pastEnd, ?_⟩
        simp only [trim, hlen, prev, bind, Except.bind, skipBlanks_blank hs]
    obtain ⟨e, he⟩ := hread
    cases he.symm.trans hexact

/-- Of "a" nothing is left. -/
theorem last_character_lost : ¬ ∀ s : List UInt8, TrimsExactly s := by
  intro h
  exact absurd (h [97]) (by decide)

end Trimming

end BoxUtils.Strings
