import BoxUtils.CJsonMinify
import BoxUtils.CJsonRoundTrip

/-!
The tokens of a document beside those of the minified one: the reader goes through the text and
through what is left of it side by side. Only a string that ends with an escaped backslash is in
the way: its closing quote is taken for an escaped one.
-/
namespace BoxUtils.CJson

open CMemory MergePatch

section Strings

variable {s u v w : List UInt8} {c x : UInt8} {distance skipped left : ℕ}

mutual

/-- No string of the text ends with an escaped backslash. -/
def tidy : List UInt8 → Bool
  | [] => true
  | c :: rest => if c = quote then tidyString rest else tidy rest

/-- The same behind the opening quote of a string. -/
def tidyString : List UInt8 → Bool
  | [] => true
  | [_] => true
  | c :: d :: rest =>
    if c = quote then tidy (d :: rest)
    else if c = backslash then
      !(decide (d = backslash) && decide (rest.head? = some quote)) && tidyString rest
    else tidyString (d :: rest)

end

/-- A string as the reader finds it: minifying comes to the same end. -/
structure Splits (s u v : List UInt8) (distance skipped : ℕ) : Prop where
  append : s = u ++ v
  length : u.length = distance + 1
  split : splitString s = (u, v)
  tidy : tidy v = true
  found : ∀ w, stringEnd (u ++ w) = some (distance, skipped)

theorem splits_quote (h : tidyString (quote :: s) = true) : Splits (quote :: s) [quote] s 0 0 where
  append := rfl
  length := rfl
  split := splitString_quote s
  tidy := by
    cases s with
    | nil => rfl
    | cons d rest => simpa [tidyString] using h
  found w := by rw [List.singleton_append, stringEnd.eq_def]; rfl

theorem Splits.other (h : Splits s u v distance skipped) (hquote : c ≠ quote)
    (hescape : c ≠ backslash) : Splits (c :: s) (c :: u) v (distance + 1) skipped where
  append := by rw [h.append, List.cons_append]
  length := by rw [List.length_cons, h.length]
  split := by rw [splitString_other hquote fun hc => hescape hc.1, h.split]
  tidy := h.tidy
  found w := by
    rw [List.cons_append, stringEnd.eq_def]
    simp only [if_neg hquote, if_neg hescape, h.found, Option.map_some]

theorem Splits.escape (h : Splits s u v distance skipped)
    (hx : ¬ (x = backslash ∧ s.head? = some quote)) :
    Splits (backslash :: x :: s) (backslash :: x :: u) v (distance + 2) (skipped + 1) where
  append := by rw [h.append, List.cons_append, List.cons_append]
  length := by rw [List.length_cons, List.length_cons, h.length]
  split := by
    by_cases hquote : x = quote
    · rw [hquote, splitString_escape, h.split]
    · have hne : backslash ≠ quote := by decide
      rw [splitString_other hne (by simpa using hquote), splitString_other hquote hx, h.split]
  tidy := h.tidy
  found w := by
    have hne : backslash ≠ quote := by decide
    rw [List.cons_append, List.cons_append, stringEnd.eq_def]
    simp only [if_neg hne, if_true, h.found, Option.map_some]

/-- Where the reader finds a closing quote, there minifying finds it as well. -/
theorem exists_splits (htidy : tidyString s = true)
    (hend : stringEnd (s ++ [0]) = some (distance, skipped)) :
    ∃ u v, Splits s u v distance skipped := by
  induction hn : s.length using Nat.strong_induction_on generalizing s distance skipped with
  | _ n ih =>
    subst hn
    cases s with
    | nil => cases hend
    | cons c rest =>
      by_cases hquote : c = quote
      · subst c
        rw [List.cons_append, stringEnd.eq_def] at hend
        obtain ⟨rfl, rfl⟩ := Prod.mk.inj (Option.some.inj hend)
        exact ⟨_, _, splits_quote htidy⟩
      rw [List.cons_append, stringEnd.eq_def] at hend
      simp only [if_neg hquote] at hend
      by_cases hescape : c = backslash
      · subst c
        cases rest with
        | nil => cases hend
        | cons x rest =>
          simp only [if_true, List.cons_append] at hend
          obtain ⟨⟨d, k⟩, hfound, hpair⟩ := Option.map_eq_some_iff.mp hend
          obtain ⟨rfl, rfl⟩ := Prod.mk.inj hpair
          simp only [tidyString, if_neg hquote, if_true, Bool.and_eq_true, Bool.not_eq_true',
            Bool.and_eq_false_iff, decide_eq_false_iff_not] at htidy
          obtain ⟨u, v, h⟩ := ih rest.length (by simp only [List.length_cons]; omega) htidy.2
            hfound rfl
          exact ⟨_, _, h.escape fun hx => htidy.1.elim (fun hne => hne hx.1) (fun hne => hne hx.2)⟩
      · simp only [if_neg hescape] at hend
        obtain ⟨⟨d, k⟩, hfound, hpair⟩ := Option.map_eq_some_iff.mp hend
        obtain ⟨rfl, rfl⟩ := Prod.mk.inj hpair
        have hrest : tidyString rest = true := by
          cases rest with
          | nil => rfl
          | cons x rest => simpa [tidyString, hquote, hescape] using htidy
        obtain ⟨u, v, h⟩ := ih rest.length (by simp only [List.length_cons]; omega) hrest hfound rfl
        exact ⟨_, _, h.other hquote hescape⟩

theorem take_drop_congr {m n k : ℕ} (h : v.take k = w.take k) (hmn : m + n ≤ k) :
    (v.drop m).take n = (w.drop m).take n := by
  have hsame := congrArg (fun l : List UInt8 => (l.drop m).take n) h
  simpa only [List.drop_take, List.take_take, Nat.min_eq_left (show n ≤ k - m by omega)]
    using hsame

theorem parseHex4_congr (h : v.take 4 = w.take 4) : parseHex4 v = parseHex4 w := by
  rw [parseHex4, parseHex4, h]

/-- An escape is read from the bytes up to the closing quote. -/
theorem escapeSequence_congr (h : v.take (left + 1) = w.take (left + 1)) (hleft : 0 < left) :
    escapeSequence v left = escapeSequence w left := by
  have hsecond : v[1]? = w[1]? := by
    rw [← List.getElem?_take_of_lt (show 1 < left + 1 by omega), h,
      List.getElem?_take_of_lt (show 1 < left + 1 by omega)]
  have hliteral : utf16LiteralToUtf8 v left = utf16LiteralToUtf8 w left := by
    unfold utf16LiteralToUtf8
    split
    · rfl
    · rename_i hsix
      rw [parseHex4_congr (take_drop_congr h (show 2 + 4 ≤ left + 1 by omega))]
      by_cases htwelve : left - 6 < 6
      · simp only [if_pos htwelve]
      · have hmark := take_drop_congr h (show 6 + 2 ≤ left + 1 by omega)
        have hcode : parseHex4 ((v.drop 6).drop 2) = parseHex4 ((w.drop 6).drop 2) := by
          rw [List.drop_drop, List.drop_drop]
          exact parseHex4_congr (take_drop_congr h (by omega))
        simp only [hmark, hcode]
  unfold escapeSequence
  rw [hsecond, hliteral]

theorem unescape_congr (turns : ℕ) (h : left = 0 ∨ v.take (left + 1) = w.take (left + 1))
    (before : ℕ) (output : List UInt8) :
    unescape turns v left before output = unescape turns w left before output := by
  induction turns generalizing v w left before output with
  | zero => rfl
  | succ turns ih =>
    by_cases hleft : left = 0
    · rw [hleft, unescape_end, unescape_end]
    have h : v.take (left + 1) = w.take (left + 1) := h.resolve_left hleft
    have hsequence := escapeSequence_congr h (Nat.pos_of_ne_zero hleft)
    have hdrop : ∀ length, left - length = 0 ∨
        (v.drop length).take (left - length + 1) = (w.drop length).take (left - length + 1) := by
      intro length
      by_cases hlength : left ≤ length
      · exact Or.inl (Nat.sub_eq_zero_of_le hlength)
      · exact Or.inr (take_drop_congr h (by omega))
    rw [unescape.eq_def, unescape.eq_def (turns + 1) w]
    simp only [if_neg hleft]
    cases v with
    | nil =>
      cases w with
      | nil => rfl
      | cons c' w => cases h
    | cons c v =>
      cases w with
      | nil => cases h
      | cons c' w =>
        obtain rfl : c = c' := by
          rw [List.take_succ_cons, List.take_succ_cons] at h
          exact List.head_eq_of_cons_eq h
        dsimp only
        rw [hsequence]
        split
        · exact ih (hdrop 1) _ _
        · split
          · rfl
          · exact ih (hdrop _) _ _

end Strings

section Blanks

variable {s u w : List UInt8} {x : UInt8} {b : Buffer} {content : List UInt8} {depth : ℕ}

/-- What minifying copies outside of strings. -/
def Plain (x : UInt8) : Prop := 32 < x ∧ x ≠ 47 ∧ x ≠ quote

instance (x : UInt8) : Decidable (Plain x) :=
  inferInstanceAs (Decidable (32 < x ∧ x ≠ 47 ∧ x ≠ quote))

theorem plain_of_all {w : List UInt8} (h : (w.all fun x => decide (Plain x)) = true) :
    ∀ x ∈ w, Plain x :=
  fun x hx => of_decide_eq_true (List.all_eq_true.mp h x hx)

theorem minified_plain (hx : Plain x) : minified (x :: s) = x :: minified s := by
  have hblank : ¬ (x = 32 ∨ x = 9 ∨ x = 13 ∨ x = 10) := by
    rintro (rfl | rfl | rfl | rfl) <;> exact absurd hx.1 (by decide)
  rw [minified, if_neg hblank, if_neg hx.2.1, if_neg hx.2.2]

theorem minified_quote :
    minified (quote :: s) = quote :: ((splitString s).1 ++ minified (splitString s).2) := by
  rw [minified, if_neg (by decide), if_neg (by decide), if_pos rfl]

theorem minified_append (hw : ∀ x ∈ w, Plain x) : minified (w ++ s) = w ++ minified s := by
  induction w with
  | nil => rfl
  | cons x w ih =>
    obtain ⟨hx, hw⟩ := List.forall_mem_cons.mp hw
    rw [List.cons_append, minified_plain hx, ih hw, List.cons_append]

theorem tidy_append (hw : ∀ x ∈ w, x ≠ quote) : tidy (w ++ s) = tidy s := by
  induction w with
  | nil => rfl
  | cons x w ih =>
    obtain ⟨hx, hw⟩ := List.forall_mem_cons.mp hw
    rw [List.cons_append, tidy, if_neg hx, ih hw]

/-- The characters that are no blanks begin as before. -/
theorem minified_head (hx : 32 < x) (hslash : x ≠ 47) : ∃ w, minified (x :: s) = x :: w := by
  by_cases hquote : x = quote
  · subst x
    exact ⟨_, minified_quote⟩
  · exact ⟨_, minified_plain ⟨hx, hslash, hquote⟩⟩

theorem not_blank (hx : blank x = false) : 32 < x := by
  rw [blank, decide_eq_false_iff_not] at hx
  exact UInt8.not_le.mp hx

theorem blank_ne (hx : blank x = true) : x ≠ 47 ∧ x ≠ quote := by
  refine ⟨?_, ?_⟩ <;> rintro rfl <;> exact absurd hx (by decide)

/-- Of blanks, only blanks are left. -/
theorem minified_blanks (s : List UInt8) :
    ∃ u, (∀ x ∈ u, blank x = true) ∧ minified s = u ++ minified (s.dropWhile blank) := by
  induction s with
  | nil => exact ⟨[], fun x hx => absurd hx List.not_mem_nil, rfl⟩
  | cons x s ih =>
    cases hblank : blank x with
    | false =>
      rw [List.dropWhile_cons_of_neg (by rw [hblank]; exact Bool.false_ne_true)]
      exact ⟨[], fun x hx => absurd hx List.not_mem_nil, rfl⟩
    | true =>
      obtain ⟨u, hu, heq⟩ := ih
      rw [List.dropWhile_cons_of_pos hblank, minified]
      by_cases hdropped : x = 32 ∨ x = 9 ∨ x = 13 ∨ x = 10
      · exact ⟨u, hu, by rw [if_pos hdropped, heq]⟩
      · refine ⟨x :: u, List.forall_mem_cons.mpr ⟨hblank, hu⟩, ?_⟩
        rw [if_neg hdropped, if_neg (blank_ne hblank).1, if_neg (blank_ne hblank).2, heq,
          List.cons_append]

theorem tidy_dropWhile (s : List UInt8) : tidy (s.dropWhile blank) = tidy s := by
  have hsplit := congrArg tidy (List.takeWhile_append_dropWhile (p := blank) (l := s))
  rwa [tidy_append fun x hx => (blank_ne (List.mem_takeWhile_imp hx)).2] at hsplit

/-- The blanks that are in front are skipped, up to the NUL at the end if nothing else comes. -/
theorem At.skip_cases (h : At b (content ++ [0]) depth (s ++ [0])) :
    s.dropWhile blank = [] ∧ At b.skipWhitespace (content ++ [0]) depth [0] ∨
      ∃ x s', s.dropWhile blank = x :: s' ∧ 32 < x ∧
        At b.skipWhitespace (content ++ [0]) depth (x :: (s' ++ [0])) := by
  cases hs : s.dropWhile blank with
  | cons x s' =>
    refine Or.inr ⟨x, s', rfl, ?_, h.skip ?_⟩
    · have hhead := List.head?_dropWhile_not blank s
      rw [hs] at hhead
      exact not_blank (by simpa using hhead)
    · rw [List.dropWhile_append, hs]
      rfl
  | nil =>
    refine Or.inl ⟨rfl, ?_⟩
    have hall : ∀ y ∈ s ++ [0], blank y = true := by
      intro y hy
      rcases List.mem_append.mp hy with hy | hy
      · exact List.dropWhile_eq_nil_iff.mp hs y hy
      · rw [List.mem_singleton.mp hy]
        rfl
    have hblanks : Buffer.blanks (b.content.drop b.offset) = (s ++ [0]).length := by
      rw [h.rest, Buffer.blanks]
      exact congrArg List.length (List.takeWhile_eq_self_iff.mpr hall)
    have hlength := congrArg List.length h.rest
    rw [List.length_drop] at hlength
    have hpos : 0 < (s ++ [0]).length := by
      rw [List.length_append]
      exact Nat.succ_pos _
    rcases skipWhitespace_cases b with ⟨-, hend⟩ | ⟨heq, -⟩
    · omega
    · rw [heq]
      refine ⟨h.content, h.depth, ?_⟩
      dsimp only
      rw [h.content, List.length_append, List.length_singleton, Nat.add_sub_cancel, List.drop_left]

end Blanks

section Positions

variable {content content' s w : List UInt8} {depth n : ℕ} {b m b' : Buffer} {x : UInt8}

/-- The reader of a text, and the one of what is left of it, at the same point. -/
structure Beside (content content' : List UInt8) (depth : ℕ) (s : List UInt8) (b m : Buffer) :
    Prop where
  left : At b (content ++ [0]) depth (s ++ [0])
  right : At m (content' ++ [0]) depth (minified s ++ [0])
  tidy : tidy s = true

theorem Beside.advance (h : Beside content content' depth (w ++ s) b m) (hw : ∀ x ∈ w, Plain x) :
    Beside content content' depth s (b.advance w.length) (m.advance w.length) := by
  have hleft := h.left
  have hright := h.right
  have htidy := h.tidy
  rw [List.append_assoc] at hleft
  rw [minified_append hw, List.append_assoc] at hright
  rw [tidy_append fun x hx => (hw x hx).2.2] at htidy
  exact ⟨hleft.advance, hright.advance, htidy⟩

theorem Beside.skip (h : Beside content content' depth s b m)
    (hpeek : b.skipWhitespace.peek 0 = some x) (hx : x ∉ [0, 47]) :
    ∃ s', 32 < x ∧
      Beside content content' depth (x :: s') b.skipWhitespace m.skipWhitespace := by
  simp only [List.mem_cons, List.not_mem_nil, or_false, not_or] at hx
  rcases h.left.skip_cases with ⟨-, hnul⟩ | ⟨y, s', hs, hblank, hskip⟩
  · exact absurd (Option.some.inj (hpeek.symm.trans (hnul.peek 0))) hx.1
  · obtain rfl : x = y := Option.some.inj (hpeek.symm.trans (hskip.peek 0))
    obtain ⟨u, hu, hminified⟩ := minified_blanks s
    obtain ⟨w, hw⟩ := minified_head (s := s') hblank hx.2
    refine ⟨s', hblank, hskip, ?_, ?_⟩
    · rw [hw, List.cons_append]
      refine h.right.skip ?_
      rw [hminified, hs, hw, List.append_assoc, dropWhile_blanks hu, List.cons_append]
      exact dropWhile_head hblank _
    · rw [← hs, tidy_dropWhile, h.tidy]

theorem back_advance (hb : 0 < b.offset) :
    Buffer.advance { b with offset := b.offset - 1 } 1 = b := by
  rw [Buffer.advance]
  simp only [Nat.sub_add_cancel hb]

theorem At.skip_pos (h : At (b.advance 1) content depth (s ++ [0])) :
    0 < (b.advance 1).skipWhitespace.offset := by
  have hlt := h.lt (by simp)
  have hskip := ((le_offset_skipWhitespace (b.advance 1)).2 hlt).1
  rw [offset_advance] at hskip
  omega

theorem Beside.peek (h : Beside content content' depth (x :: s) b m) : b.peek 0 = some x :=
  h.left.peek 0

theorem Beside.peek_right (h : Beside content content' depth (x :: s) b m) (hx : 32 < x)
    (hslash : x ≠ 47) : m.peek 0 = some x := by
  obtain ⟨w, hw⟩ := minified_head (s := s) hx hslash
  have hright := h.right
  rw [hw] at hright
  exact hright.peek 0

end Positions

section Leaves

variable {content content' s w : List UInt8} {depth calls : ℕ} {b m b' : Buffer} {x : UInt8}
variable {strtod : List UInt8 → Double × ℕ} {string : Text} {l : Label} {f : Forest Label}

theorem Beside.readString (h : Beside content content' depth s b m)
    (hread : readString b = some (string, b')) :
    ∃ s' m', CJson.readString m = some (string, m') ∧ Beside content content' depth s' b' m' := by
  unfold CJson.readString at hread
  split at hread
  · cases hread
  rename_i literal hliteral
  obtain ⟨rfl, rfl⟩ := Prod.mk.inj (Option.some.inj hread)
  unfold parseLiteral at hliteral
  dsimp only at hliteral
  split at hliteral
  · cases hliteral
  rename_i hquote
  split at hliteral
  · cases hliteral
  rename_i distance skipped hend
  split at hliteral
  · cases hliteral
  rename_i output hunescape
  obtain rfl := Except.ok.inj hliteral
  obtain ⟨s, rfl⟩ : ∃ r, s = quote :: r := by
    have hpeek : (s ++ [0])[0]? = some quote := (h.left.peek 0).symm.trans (not_not.mp hquote)
    cases s with
    | nil => cases hpeek
    | cons x s => exact ⟨s, by rw [Option.some.inj hpeek]⟩
  have hleft : b.content.drop (b.offset + 1) = s ++ [0] := by
    rw [← List.drop_drop, h.left.rest, List.cons_append, List.drop_one, List.tail_cons]
  rw [hleft] at hend hunescape
  have htidy : tidyString s = true := by
    have htidy := h.tidy
    rwa [CJson.tidy, if_pos rfl] at htidy
  obtain ⟨u, v, hsplits⟩ := exists_splits htidy hend
  have hright : m.content.drop (m.offset + 1) = u ++ (minified v ++ [0]) := by
    rw [← List.drop_drop, h.right.rest, minified_quote, hsplits.split, List.cons_append,
      List.drop_one, List.tail_cons, List.append_assoc]
  have hpeek : m.content[m.offset]? = some quote := h.peek_right (by decide) (by decide)
  have hsame : unescape distance (u ++ (minified v ++ [0])) distance 0 [] = .ok output := by
    rw [← hunescape, hsplits.append, List.append_assoc]
    refine unescape_congr distance (Or.inr ?_) 0 []
    rw [← hsplits.length, List.take_left, List.take_left]
  refine ⟨v, m.advance (1 + u.length), ?_, ⟨h.left.content, h.left.depth, ?_⟩,
    ⟨h.right.content, h.right.depth, ?_⟩, hsplits.tidy⟩
  · simp only [CJson.readString, parseLiteral, hpeek, hright, hsplits.found, hsame, ne_eq,
      not_true_eq_false, if_false, Buffer.advance, hsplits.length, Nat.add_comm,
      Nat.add_left_comm]
  · rw [Nat.add_assoc, ← List.drop_drop, hleft, hsplits.append, List.append_assoc,
      ← hsplits.length, List.drop_left]
  · rw [content_advance, offset_advance, ← Nat.add_assoc, ← List.drop_drop, hright, List.drop_left]

/-- What can follow behind a value, apart from blanks. -/
def Stops (b : Buffer) : Prop := ∃ x ∈ [0, 44, 93, 125], b.skipWhitespace.peek 0 = some x

theorem numeric_plain (hx : numeric x = true) : Plain x ∧ x ∉ [0, 44, 93, 125] := by
  have h : ∀ n : Fin 256, numeric ⟨⟨n⟩⟩ = true → (32 < (⟨⟨n⟩⟩ : UInt8) ∧ (⟨⟨n⟩⟩ : UInt8) ≠ 47 ∧
      (⟨⟨n⟩⟩ : UInt8) ≠ quote) ∧ (⟨⟨n⟩⟩ : UInt8) ∉ [0, 44, 93, 125] := by
    decide +kernel
  exact h x.toBitVec.toFin hx

/-- No number goes on where a value ends, in either text. -/
theorem Stops.head (h : Stops b) (hb : At b (content ++ [0]) depth (s ++ [0])) :
    (∀ x ∈ s.head?, numeric x = false) ∧ ∀ x ∈ (minified s ++ [0]).head?, numeric x = false := by
  obtain ⟨y, hy, hpeek⟩ := h
  have hblank : ∀ {x : UInt8}, blank x = true → numeric x = false := by
    intro x hx
    by_contra hnumeric
    have hlarge := (numeric_plain (by simpa using hnumeric)).1.1
    rw [blank, decide_eq_true_eq] at hx
    exact absurd hlarge (UInt8.not_lt.mpr hx)
  have hstop : ∀ {x : UInt8}, x ∈ ([0, 44, 93, 125] : List UInt8) → numeric x = false := by
    intro x hx
    by_contra hnumeric
    exact (numeric_plain (by simpa using hnumeric)).2 hx
  have hfirst : s.dropWhile blank = [] ∨ ∃ s', s.dropWhile blank = y :: s' ∧ 32 < y := by
    rcases hb.skip_cases with ⟨hs, -⟩ | ⟨x, s', hs, hlarge, hskip⟩
    · exact Or.inl hs
    · obtain rfl : y = x := Option.some.inj (hpeek.symm.trans (hskip.peek 0))
      exact Or.inr ⟨s', hs, hlarge⟩
  constructor
  · intro x hx
    obtain ⟨r, rfl⟩ : ∃ r, s = x :: r := by
      cases s with
      | nil => cases hx
      | cons c r => exact ⟨r, by rw [Option.some.inj hx]⟩
    cases hxblank : blank x with
    | true => exact hblank hxblank
    | false =>
      rw [List.dropWhile_cons_of_neg (by rw [hxblank]; exact Bool.false_ne_true)] at hfirst
      rcases hfirst with hnil | ⟨s', hs, -⟩
      · cases hnil
      · rw [List.head_eq_of_cons_eq hs]
        exact hstop hy
  · obtain ⟨u, hu, hminified⟩ := minified_blanks s
    rw [hminified]
    cases u with
    | cons a u =>
      rintro x ⟨⟩
      exact hblank (hu _ List.mem_cons_self)
    | nil =>
      rcases hfirst with hs | ⟨s', hs, hlarge⟩
      · rw [hs, minified]
        rintro x ⟨⟩
        rfl
      · have hslash : y ≠ 47 := by
          rintro rfl
          exact absurd hy (by decide)
        obtain ⟨w, hw⟩ := minified_head (s := s') hlarge hslash
        rw [hs, hw]
        rintro x ⟨⟩
        exact hstop hy

theorem Beside.readNumber (hstrtod : ∀ v, (strtod v).2 ≤ v.length)
    (h : Beside content content' depth s b m) (hread : readNumber strtod b = some (l, f, b'))
    (hstops : Stops b') :
    ∃ s' m', CJson.readNumber strtod m = some (l, f, m') ∧
      Beside content content' depth s' b' m' := by
  set v := numberCString b with hv
  have hnumeric : ∀ x ∈ v, numeric x = true := by
    intro x hx
    rw [hv, numberCString] at hx
    exact List.mem_takeWhile_imp hx
  have hcopy : v = ((s ++ [0]).take 63).takeWhile numeric := by
    rw [hv, numberCString, h.left.rest]
  have hprefix : v <+: s ++ [0] := by
    rw [hcopy]
    exact (List.takeWhile_prefix _).trans (List.take_prefix _ _)
  -- the NUL is not a part of the number
  obtain ⟨r, rfl⟩ : v <+: s := by
    rcases List.prefix_concat_iff.mp hprefix with heq | hprefix
    · have hnul := hnumeric 0 (by rw [heq]; simp)
      cases hnul
    · exact hprefix
  have hlength : v.length ≤ 63 := by
    rw [hcopy]
    exact (List.takeWhile_prefix _).length_le.trans (List.length_take_le _ _)
  simp only [CJson.readNumber, ← hv] at hread
  split at hread
  · cases hread
  rename_i hpos
  obtain ⟨rfl, rfl, rfl⟩ : _ ∧ _ ∧ _ := by simpa using hread
  have hle := hstrtod v
  -- a part of the number that is left over would be found behind the value
  have hwhole : (strtod v).2 = v.length := by
    by_contra hne
    have hless : (strtod v).2 < v.length := Nat.lt_of_le_of_ne hle hne
    have hleft := h.left
    rw [← List.take_append_drop (strtod v).2 v, List.append_assoc, List.append_assoc] at hleft
    have hb' := hleft.advance
    rw [List.length_take_of_le hle, ← List.append_assoc] at hb'
    have hhead := (hstops.head hb').1 v[(strtod v).2] (by
      rw [List.drop_eq_getElem_cons hless]
      rfl)
    rw [hnumeric _ (List.getElem_mem hless)] at hhead
    cases hhead
  rw [hwhole] at hpos hstops ⊢
  have hbehind := h.advance fun x hx => (numeric_plain (hnumeric x hx)).1
  have hright := h.right
  rw [minified_append fun x hx => (numeric_plain (hnumeric x hx)).1, List.append_assoc] at hright
  have hsame : numberCString m = v :=
    numberCString_text hright hnumeric hlength (hstops.head hbehind.left).2
  refine ⟨r, m.advance v.length, ?_, hbehind⟩
  simp only [CJson.readNumber, hsame, if_neg hpos, hwhole]

theorem Beside.word (h : Beside content content' depth s b m) (hw : ∀ x ∈ w, Plain x)
    (hstarts : b.startsWith w = true) :
    ∃ s', At m (content' ++ [0]) depth (w ++ (minified s' ++ [0])) ∧
      Beside content content' depth s' (b.advance w.length) (m.advance w.length) := by
  rw [h.left.startsWith, decide_eq_true_eq] at hstarts
  have hprefix : w <+: s ++ [0] := by
    rw [← hstarts]
    exact List.take_prefix _ _
  obtain ⟨r, rfl⟩ : w <+: s := by
    rcases List.prefix_concat_iff.mp hprefix with rfl | hprefix
    · have hnul := (hw 0 (by simp)).1
      cases hnul
    · exact hprefix
  have hright := h.right
  rw [minified_append hw, List.append_assoc] at hright
  exact ⟨r, hright, h.advance hw⟩

theorem Beside.cons (h : Beside content content' depth s b m) (hpeek : b.peek 0 = some x)
    (hx : x ≠ 0) : ∃ r, s = x :: r := by
  have hhead : (s ++ [0])[0]? = some x := (h.left.peek 0).symm.trans hpeek
  cases s with
  | nil => exact absurd (Option.some.inj hhead).symm hx
  | cons c r => exact ⟨r, by rw [Option.some.inj hhead]⟩

end Leaves

end BoxUtils.CJson
