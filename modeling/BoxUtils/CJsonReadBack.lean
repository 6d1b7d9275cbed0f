import BoxUtils.CJsonFilling
import BoxUtils.CJsonText

/-!
What is printed is read back. A document is compared with what its text says: the names of
array elements are not written, numbers that are not finite become null, and the int of a
number is the one that goes with its double.
-/
namespace BoxUtils.CJson

open MergePatch

section Documents

def emptyText : Text := Json.cStr []

/-- What the printer and the parser use of the C library agrees on a number: both forms are
read as a whole, and the longer one as the same number. -/
structure Restores (stdio : Stdio) (strtod : List UInt8 → Double × ℕ) (value : ℚ) : Prop where
  numeric : ∀ p ∈ [15, 17], ∀ c ∈ (stdio.sprintf p value).1, numeric c = true
  starts : ∀ p ∈ [15, 17], ∃ c rest, (stdio.sprintf p value).1 = c :: rest ∧
    (c = 45 ∨ 48 ≤ c ∧ c ≤ 57)
  length : ∀ p ∈ [15, 17], (stdio.sprintf p value).1.length ≤ 25
  whole : ∀ p ∈ [15, 17],
    (strtod (stdio.sprintf p value).1).2 = (stdio.sprintf p value).1.length
  scans : stdio.sscanf (stdio.sprintf 15 value) = some (strtod (stdio.sprintf 15 value).1).1
  exact : (strtod (stdio.sprintf 17 value).1).1 = .finite value

/-- What the text of a value says. -/
def printedLabel (l : Label) (name : Option Text) : Label :=
  if l.kind = cJSONNumber then
    match l.valuedouble with
    | .finite value =>
      ⟨name, cJSONNumber, none, (Double.finite value).toInt, .finite value⟩
    | _ => (leaf cJSONNull).rename name
  else if l.kind = cJSONString then
    ⟨name, cJSONString, some (l.valuestring.getD emptyText), 0, .finite 0⟩
  else if l.kind = cJSONTrue then ⟨name, cJSONTrue, none, 1, .finite 0⟩
  else (leaf l.kind).rename name

def Container.printedName (container : Container) (name : Option Text) : Option Text :=
  match container with
  | array => none
  | object => some (name.getD emptyText)

/-- What is printed below a value, given what is printed for the elements. -/
def printedBelow (l : Label) (elements : Container → Forest Label) : Forest Label :=
  if l.kind = cJSONArray then elements .array
  else if l.kind = cJSONObject then elements .object
  else .nil

def printedElements (container : Container) : Forest Label → Forest Label
  | .nil => .nil
  | .node l c n =>
    .node (printedLabel l (container.printedName l.name))
      (printedBelow l fun inner => printedElements inner c) (printedElements container n)

/-- How deep containers are nested. -/
def nesting : Forest Label → ℕ
  | .nil => 0
  | .node l c n =>
    max (nesting c + if l.kind = cJSONArray ∨ l.kind = cJSONObject then 1 else 0) (nesting n)

/-- A raw value is any text, and the numbers have to be restored. -/
def Readable (stdio : Stdio) (strtod : List UInt8 → Double × ℕ) (l : Label) : Prop :=
  l.kind ≠ cJSONRaw ∧ (l.kind = cJSONNumber → ∀ value, l.valuedouble = .finite value →
    Restores stdio strtod value)

end Documents

section Positions

variable {b : Buffer} {content rest u : List UInt8} {depth n : ℕ} {x : UInt8}

def blank (c : UInt8) : Bool := decide (c ≤ 32)

/-- The rest of a buffer with this content. -/
structure At (b : Buffer) (content : List UInt8) (depth : ℕ) (rest : List UInt8) : Prop where
  content : b.content = content
  depth : b.depth = depth
  rest : b.content.drop b.offset = rest

theorem At.advance (h : At b content depth (u ++ rest)) :
    At (b.advance u.length) content depth rest := by
  refine ⟨h.content, h.depth, ?_⟩
  rw [content_advance, offset_advance, ← List.drop_drop, h.rest, List.drop_left]

theorem At.peek (h : At b content depth rest) (n : ℕ) : b.peek n = rest[n]? := by
  rw [Buffer.peek, ← h.rest, List.getElem?_drop]

theorem At.startsWith (h : At b content depth rest) (literal : List UInt8) :
    b.startsWith literal = decide (rest.take literal.length = literal) := by
  rw [Buffer.startsWith, h.rest]

/-- The next character that is no blank. -/
theorem At.skip (h : At b content depth rest) (hx : rest.dropWhile blank = x :: u) :
    At b.skipWhitespace content depth (x :: u) := by
  have hsplit : rest.takeWhile blank ++ x :: u = rest := by
    rw [← hx, List.takeWhile_append_dropWhile]
  have hblanks : Buffer.blanks (b.content.drop b.offset) = (rest.takeWhile blank).length := by
    rw [h.rest]
    rfl
  have hlength := congrArg List.length (h.rest.trans hsplit.symm)
  rw [List.length_drop, List.length_append, List.length_cons] at hlength
  rcases skipWhitespace_cases b with ⟨heq, -⟩ | ⟨-, hend⟩
  · rw [heq, hblanks]
    exact At.advance (by rwa [hsplit])
  · omega

theorem At.back (h : At b content depth (x :: u)) (hpos : 0 < b.offset) :
    At (Buffer.advance { b with offset := b.offset - 1 } 1) content depth (x :: u) := by
  have hsame : Buffer.advance { b with offset := b.offset - 1 } 1 = b := by
    rw [Buffer.advance]
    simp only [Nat.sub_add_cancel hpos]
  rwa [hsame]

end Positions

section Strings

/-- The two forms of what is written for a character. -/
theorem escape_cases (c : UInt8) : escape c = [c] ∧ c ≠ quote ∧ c ≠ backslash ∨
    ∃ e more, escape c = backslash :: e :: more ∧ ∀ x ∈ more, x ≠ quote ∧ x ≠ backslash := by
  have h : ∀ n : Fin 256, escape ⟨⟨n⟩⟩ = [⟨⟨n⟩⟩] ∧ (⟨⟨n⟩⟩ : UInt8) ≠ quote ∧
        (⟨⟨n⟩⟩ : UInt8) ≠ backslash ∨
      (escape ⟨⟨n⟩⟩).head? = some backslash ∧ 2 ≤ (escape ⟨⟨n⟩⟩).length ∧
        ∀ x ∈ (escape ⟨⟨n⟩⟩).drop 2, x ≠ quote ∧ x ≠ backslash := by
    decide +kernel
  rcases h c.toBitVec.toFin with hplain | ⟨hhead, hlength, hmore⟩
  · exact Or.inl hplain
  · right
    have hc : escape c = escape ⟨⟨c.toBitVec.toFin⟩⟩ := rfl
    rw [← hc] at hhead hlength hmore
    match hescape : escape c with
    | [] => rw [hescape] at hlength; simp at hlength
    | [y] => rw [hescape] at hlength; simp at hlength
    | y :: e :: more =>
      rw [hescape] at hhead hmore
      obtain rfl : y = backslash := by simpa using hhead
      exact ⟨e, more, rfl, by simpa using hmore⟩

/-- Characters that are neither quotes nor backslashes are passed over. -/
theorem stringEnd_plain {more rest : List UInt8} (hmore : ∀ x ∈ more, x ≠ quote ∧ x ≠ backslash)
    {distance skipped : ℕ} (h : stringEnd rest = some (distance, skipped)) :
    stringEnd (more ++ rest) = some (more.length + distance, skipped) := by
  induction more with
  | nil => simpa using h
  | cons x more ih =>
    obtain ⟨⟨hquote, hbackslash⟩, hmore⟩ := List.forall_mem_cons.mp hmore
    rw [List.cons_append, stringEnd.eq_def]
    simp only [if_neg hquote, if_neg hbackslash, ih hmore, Option.map_some, List.length_cons]
    rw [Nat.add_right_comm]

/-- The closing quote of what was written is found. -/
theorem stringEnd_escaped (s rest : List UInt8) :
    ∃ skipped, stringEnd (s.flatMap escape ++ quote :: rest) =
      some ((s.flatMap escape).length, skipped) := by
  induction s with
  | nil =>
    refine ⟨0, ?_⟩
    rw [List.flatMap_nil, List.nil_append, stringEnd.eq_def]
    rfl
  | cons c s ih =>
    obtain ⟨skipped, ih⟩ := ih
    rw [List.flatMap_cons, List.append_assoc]
    rcases escape_cases c with ⟨hescape, hquote, hbackslash⟩ | ⟨e, more, hescape, hmore⟩
    · refine ⟨skipped, ?_⟩
      rw [hescape, stringEnd_plain (by simpa using ⟨hquote, hbackslash⟩) ih, List.length_append]
    · refine ⟨skipped + 1, ?_⟩
      have hne : backslash ≠ quote := by decide
      rw [hescape, List.cons_append, List.cons_append, stringEnd.eq_def]
      simp only [if_neg hne, if_true, stringEnd_plain hmore ih, Option.map_some,
        List.length_append, List.length_cons]
      rw [Nat.add_right_comm]

theorem parseHex4_append {digits : List UInt8} (h : digits.length = 4) (rest : List UInt8) :
    parseHex4 (digits ++ rest) = parseHex4 digits := by
  rw [parseHex4, parseHex4, List.take_append_of_le_length (by omega)]

/-- An escape is read as its character; the long ones have to fit. -/
theorem escapeSequence_escape {c : UInt8} (hc : c ≠ 0) {e : UInt8} {more : List UInt8}
    (hescape : escape c = backslash :: e :: more) (rest : List UInt8) {left : ℕ}
    (hleft : (escape c).length ≤ left) :
    escapeSequence (escape c ++ rest) left = some ([c], (escape c).length) := by
  have h : ∀ n : Fin 256, (⟨⟨n⟩⟩ : UInt8) ≠ 0 → (escape ⟨⟨n⟩⟩).head? = some backslash →
      (escape ⟨⟨n⟩⟩).length = 2 ∧ escapeSequence (escape ⟨⟨n⟩⟩) 2 = some ([⟨⟨n⟩⟩], 2) ∧
          (escape ⟨⟨n⟩⟩)[1]? ≠ some 117 ∨
        (escape ⟨⟨n⟩⟩).length = 6 ∧ (escape ⟨⟨n⟩⟩)[1]? = some 117 ∧
          parseHex4 ((escape ⟨⟨n⟩⟩).drop 2) = n ∧ n.val < 32 ∧
          encodeUtf8 n = some [⟨⟨n⟩⟩] := by
    decide +kernel
  have hc' : escape c = escape ⟨⟨c.toBitVec.toFin⟩⟩ := rfl
  have hhead : (escape ⟨⟨c.toBitVec.toFin⟩⟩).head? = some backslash := by
    rw [← hc', hescape]
    rfl
  have hsecond : (escape c ++ rest)[1]? = (escape c)[1]? := by
    rw [List.getElem?_append_left (by rw [hescape]; simp)]
  rcases h c.toBitVec.toFin hc hhead with ⟨hlength, hread, hu⟩ | ⟨hlength, hu, hhex, hsmall, hutf⟩
  · rw [← hc'] at hlength hread hu
    rw [hlength]
    unfold escapeSequence at hread ⊢
    rw [hsecond]
    split at hread <;> simp_all
  · rw [← hc'] at hlength hu hhex
    rw [hlength] at hleft ⊢
    unfold escapeSequence
    rw [hsecond, hu]
    have hdrop : (escape c ++ rest).drop 2 = (escape c).drop 2 ++ rest :=
      List.drop_append_of_le_length (by omega)
    have hcode : parseHex4 ((escape c ++ rest).drop 2) = c.toBitVec.toFin.val := by
      rw [hdrop, parseHex4_append (by rw [List.length_drop, hlength]), hhex]
    simp only [utf16LiteralToUtf8, hcode]
    rw [if_neg (by omega), if_neg (by omega), if_neg (by omega), hutf]
    rfl

/-- What was written for a string is read as the string. -/
theorem unescape_escaped {s : List UInt8} (hs : 0 ∉ s) (rest : List UInt8) {turns : ℕ}
    (hturns : (s.flatMap escape).length ≤ turns) (before : ℕ) (output : List UInt8) :
    unescape turns (s.flatMap escape ++ rest) (s.flatMap escape).length before output =
      .ok (output ++ s) := by
  induction s generalizing turns before output with
  | nil => rw [List.append_nil, List.flatMap_nil, List.length_nil, unescape_end]
  | cons c s ih =>
    obtain ⟨hc, hs⟩ := not_or.mp (mt List.mem_cons.mpr hs)
    rw [List.flatMap_cons, List.length_append] at hturns ⊢
    have hpos : 0 < (escape c).length := by
      rw [length_escape]
      omega
    obtain ⟨turns, rfl⟩ : ∃ n, turns = n + 1 := ⟨turns - 1, by omega⟩
    rw [unescape.eq_def, List.append_assoc]
    dsimp only
    rw [if_neg (by omega)]
    rcases escape_cases c with ⟨hescape, -, hbackslash⟩ | ⟨e, more, hescape, -⟩
    · rw [hescape, List.length_singleton] at hturns ⊢
      simp only [List.singleton_append, if_pos hbackslash, Nat.add_sub_cancel_left]
      rw [ih hs (by omega), List.append_assoc, List.singleton_append]
    · have hsequence := escapeSequence_escape (Ne.symm hc) hescape (s.flatMap escape ++ rest)
        (Nat.le_add_right _ (s.flatMap escape).length)
      simp only [hescape, List.cons_append, ne_eq, not_true_eq_false, if_false] at hsequence ⊢
      rw [hsequence]
      dsimp only
      rw [← List.cons_append, ← List.cons_append, ← hescape, List.drop_left,
        Nat.add_sub_cancel_left, ih hs (by omega), List.append_assoc, List.singleton_append]

/-- A string is read back, and one that was missing as the empty one. -/
theorem readString_text {b : Buffer} {content rest : List UInt8} {depth : ℕ} (string : Option Text)
    (h : At b content depth (stringText string ++ rest)) :
    ∃ b', readString b = some (string.getD emptyText, b') ∧ At b' content depth rest := by
  set s := string.getD emptyText with hs
  have htext : stringText string = quote :: s.1.flatMap escape ++ [quote] := by
    cases string <;> rfl
  have hend : quote :: (s.1.flatMap escape ++ quote :: rest) = stringText string ++ rest := by
    rw [htext]
    simp
  have hquote : b.content[b.offset]? = some quote := by
    have := h.peek 0
    rwa [← hend] at this
  have hdrop : b.content.drop (b.offset + 1) = s.1.flatMap escape ++ quote :: rest := by
    rw [← List.drop_drop, h.rest, ← hend, List.drop_one, List.tail_cons]
  obtain ⟨skipped, hskipped⟩ := stringEnd_escaped s.1 rest
  have hread := unescape_escaped s.2 (quote :: rest) le_rfl 0 []
  refine ⟨b.advance (stringText string).length, ?_, h.advance⟩
  have hlength : (stringText string).length = 1 + (s.1.flatMap escape).length + 1 := by
    rw [htext]
    simp [Nat.add_comm]
  simp only [readString, parseLiteral, hquote, hdrop, hskipped, hread, ne_eq, not_true_eq_false,
    if_false, List.nil_append]
  rw [hlength, show Json.cStr s.1 = s from Subtype.ext (Json.cStr_eq s.2), Buffer.advance]
  simp only [Nat.add_assoc]

end Strings

section Leaves

variable {stdio : Stdio} {strtod : List UInt8 → Double × ℕ} {format : Bool} {calls : ℕ}
variable {b : Buffer} {content rest u v : List UInt8} {depth indent : ℕ} {x : UInt8} {l : Label}
variable {elements : Container → Option (List UInt8)} {r : Option Content}

/-- The form that is chosen for a number is read as the number, as a whole. -/
theorem Restores.number {value : ℚ} (h : Restores stdio strtod value) :
    ∃ p ∈ [15, 17], numberString stdio (.finite value) = (stdio.sprintf p value).1 ∧
      strtod (numberString stdio (.finite value)) =
        (.finite value, (numberString stdio (.finite value)).length) := by
  simp only [numberString]
  split
  · rename_i hscan
    refine ⟨15, by simp, rfl, Prod.ext ?_ (h.whole 15 (by simp))⟩
    exact Option.some.inj (h.scans.symm.trans hscan)
  · exact ⟨17, by simp, rfl, Prod.ext h.exact (h.whole 17 (by simp))⟩

/-- A number is copied as far as it was written. -/
theorem numberCString_text (h : At b content depth (v ++ rest)) (hv : ∀ c ∈ v, numeric c = true)
    (hlength : v.length ≤ 63) (hrest : ∀ c ∈ rest.head?, numeric c = false) :
    numberCString b = v := by
  rw [numberCString, h.rest, List.take_append, List.take_of_length_le hlength,
    List.takeWhile_append_of_pos hv]
  cases rest with
  | nil => rw [List.take_nil, List.takeWhile_nil, List.append_nil]
  | cons c rest =>
    cases hroom : 63 - v.length with
    | zero => rw [List.take_zero, List.takeWhile_nil, List.append_nil]
    | succ room =>
      rw [List.take_succ_cons, List.takeWhile_cons_of_neg (by simpa using hrest c rfl),
        List.append_nil]

theorem readNumber_text {value : ℚ} (hrestores : Restores stdio strtod value)
    (h : At b content depth (numberString stdio (.finite value) ++ rest))
    (hrest : ∀ c ∈ rest.head?, numeric c = false) :
    ∃ b', readNumber strtod b = some ({ leaf cJSONNumber with
        valuedouble := .finite value, valueint := (Double.finite value).toInt }, .nil, b') ∧
      At b' content depth rest := by
  obtain ⟨p, hp, hform, hread⟩ := hrestores.number
  have hnumeric := hrestores.numeric p hp
  have hlength := hrestores.length p hp
  obtain ⟨c, more, hstarts, -⟩ := hrestores.starts p hp
  rw [← hform] at hnumeric hlength hstarts
  have hcopy := numberCString_text h hnumeric (by omega) hrest
  have hsome : (numberString stdio (.finite value)).length ≠ 0 := by
    rw [hstarts]
    exact Nat.succ_ne_zero _
  refine ⟨_, ?_, h.advance⟩
  simp only [readNumber, hcopy, hread, if_neg hsome]

theorem At.startsWith_head (h : At b content depth (x :: u)) {y : UInt8} {literal : List UInt8}
    (hy : y ≠ x) : b.startsWith (y :: literal) = false := by
  rw [h.startsWith, List.length_cons, List.take_succ_cons, decide_eq_false_iff_not]
  exact fun heq => hy (List.head_eq_of_cons_eq heq).symm

/-- A value that is none of the three words goes by its first character. -/
theorem readValue_head (h : At b content depth (x :: u)) (hx : x ∉ [110, 102, 116]) :
    readValue strtod (calls + 1) b =
      if x = quote then
        some ((readString b).map fun (string, b) =>
          ({ leaf cJSONString with valuestring := some string }, .nil, b))
      else if x = 45 ∨ (48 ≤ x ∧ x ≤ 57) then some (readNumber strtod b)
      else if x = Container.array.opening then readContainer strtod .array calls b
      else if x = Container.object.opening then readContainer strtod .object calls b
      else some none := by
  simp only [List.mem_cons, List.not_mem_nil, or_false, not_or] at hx
  have hpeek : b.peek 0 = some x := h.peek 0
  rw [readValue, h.startsWith_head (Ne.symm hx.1), h.startsWith_head (Ne.symm hx.2.1),
    h.startsWith_head (Ne.symm hx.2.2)]
  simp only [Bool.false_eq_true, if_false, hpeek]

/-- A null, in place of a number as well. -/
theorem readValue_null (h : At b content depth ([110, 117, 108, 108] ++ rest)) :
    readValue strtod (calls + 1) b = some (some (leaf cJSONNull, .nil, b.advance 4)) := by
  have hnull : b.startsWith [110, 117, 108, 108] = true := by
    rw [h.startsWith]
    rfl
  rw [readValue, if_pos hnull]

theorem readValue_false (h : At b content depth ([102, 97, 108, 115, 101] ++ rest)) :
    readValue strtod (calls + 1) b = some (some (leaf cJSONFalse, .nil, b.advance 5)) := by
  have hfalse : b.startsWith [102, 97, 108, 115, 101] = true := by
    rw [h.startsWith]
    rfl
  rw [readValue, At.startsWith_head h (by decide), hfalse]
  rfl

theorem readValue_true (h : At b content depth ([116, 114, 117, 101] ++ rest)) :
    readValue strtod (calls + 1) b =
      some (some ({ leaf cJSONTrue with valueint := 1 }, .nil, b.advance 4)) := by
  have htrue : b.startsWith [116, 114, 117, 101] = true := by
    rw [h.startsWith]
    rfl
  rw [readValue, At.startsWith_head h (by decide), At.startsWith_head h (by decide), htrue]
  rfl

/-- What is written for a value, by its kind. -/
theorem valueText_cases (h : valueText stdio format indent l elements = some v)
    (hraw : l.kind ≠ cJSONRaw) :
    l.kind = cJSONNull ∧ v = [110, 117, 108, 108] ∨
    l.kind = cJSONFalse ∧ v = [102, 97, 108, 115, 101] ∨
    l.kind = cJSONTrue ∧ v = [116, 114, 117, 101] ∨
    l.kind = cJSONNumber ∧ v = numberString stdio l.valuedouble ∨
    l.kind = cJSONString ∧ v = stringText l.valuestring ∨
    ∃ container : Container, l.kind = container.type ∧
      containerText format container indent (elements container) = some v := by
  simp only [valueText, if_neg hraw] at h
  split at h
  · exact Or.inl ⟨‹_›, (Option.some.inj h).symm⟩
  split at h
  · exact Or.inr (Or.inl ⟨‹_›, (Option.some.inj h).symm⟩)
  split at h
  · exact Or.inr (Or.inr (Or.inl ⟨‹_›, (Option.some.inj h).symm⟩))
  split at h
  · rename_i hkind
    unfold numberBuffer at h
    split at h
    · exact Or.inr (Or.inr (Or.inr (Or.inl ⟨hkind, (Option.some.inj h).symm⟩)))
    · cases h
  split at h
  · exact Or.inr (Or.inr (Or.inr (Or.inr (Or.inl ⟨‹_›, (Option.some.inj h).symm⟩))))
  split at h
  · exact Or.inr (Or.inr (Or.inr (Or.inr (Or.inr ⟨.array, ‹_›, h⟩))))
  split at h
  · exact Or.inr (Or.inr (Or.inr (Or.inr (Or.inr ⟨.object, ‹_›, h⟩))))
  · cases h

/-- The first character of a number is no other value's. -/
theorem number_start (hx : x = 45 ∨ 48 ≤ x ∧ x ≤ 57) :
    x ∉ [110, 102, 116] ∧ x ≠ quote ∧ 32 < x ∧ x < 128 ∧ x ≠ 93 ∧ x ≠ 125 := by
  have h : ∀ n : Fin 256, (⟨⟨n⟩⟩ : UInt8) = 45 ∨ 48 ≤ (⟨⟨n⟩⟩ : UInt8) ∧ (⟨⟨n⟩⟩ : UInt8) ≤ 57 →
      (⟨⟨n⟩⟩ : UInt8) ∉ [110, 102, 116] ∧ (⟨⟨n⟩⟩ : UInt8) ≠ quote ∧ 32 < (⟨⟨n⟩⟩ : UInt8) ∧
        (⟨⟨n⟩⟩ : UInt8) < 128 ∧ (⟨⟨n⟩⟩ : UInt8) ≠ 93 ∧ (⟨⟨n⟩⟩ : UInt8) ≠ 125 := by
    decide +kernel
  exact h x.toBitVec.toFin hx

/-- The first character of a value is neither a blank, nor a closing bracket, nor a byte
order mark. -/
theorem valueText_head (h : valueText stdio format indent l elements = some v)
    (hreadable : Readable stdio strtod l) :
    ∃ x u, v = x :: u ∧ 32 < x ∧ x < 128 ∧ ∀ container : Container, x ≠ container.closing := by
  have hword : ∀ (x : UInt8) (u : List UInt8), 32 < x ∧ x < 128 ∧ x ≠ 93 ∧ x ≠ 125 →
      ∃ x' u', x :: u = x' :: u' ∧ 32 < x' ∧ x' < 128 ∧
        ∀ container : Container, x' ≠ container.closing := by
    intro x u hx
    refine ⟨x, u, rfl, hx.1, hx.2.1, fun container => ?_⟩
    cases container with
    | array => exact hx.2.2.1
    | object => exact hx.2.2.2
  rcases valueText_cases h hreadable.1 with ⟨-, rfl⟩ | ⟨-, rfl⟩ | ⟨-, rfl⟩ | ⟨hkind, rfl⟩ |
    ⟨-, rfl⟩ | ⟨container, -, h⟩
  · exact hword _ _ (by decide)
  · exact hword _ _ (by decide)
  · exact hword _ _ (by decide)
  · cases hvalue : l.valuedouble with
    | finite value =>
      obtain ⟨p, hp, hform, -⟩ := (hreadable.2 hkind value hvalue).number
      obtain ⟨c, more, hstarts, hc⟩ := (hreadable.2 hkind value hvalue).starts p hp
      rw [hform, hstarts]
      exact hword c more (number_start hc).2.2
    | nan => exact hword 110 _ (by decide)
    | infinite negative => exact hword 110 _ (by decide)
  · exact hword quote _ (by decide)
  · obtain ⟨v₁, v₂, hstart, -, rfl⟩ := joined_eq_some h
    obtain rfl := Option.some.inj hstart
    cases container with
    | array => exact hword 91 _ (by decide)
    | object => exact hword 123 _ (by decide)

end Leaves

section Containers

variable {stdio : Stdio} {strtod : List UInt8 → Double × ℕ} {format : Bool} {calls : ℕ}
variable {b : Buffer} {content ahead rest u v w : List UInt8} {depth indent : ℕ} {x : UInt8}
variable {container : Container} {l : Label} {f c n : Forest Label}

theorem blank_onlyFormatted (format : Bool) (hu : ∀ x ∈ u, blank x = true) :
    ∀ x ∈ onlyFormatted format u, blank x = true := by
  unfold onlyFormatted
  split
  · exact hu
  · exact nofun

theorem blank_tabs (n : ℕ) : ∀ x ∈ tabs n, blank x = true := by
  intro x hx
  rw [List.eq_of_mem_replicate hx]
  rfl

/-- Blanks do not count. -/
theorem dropWhile_blanks (hu : ∀ x ∈ u, blank x = true) (rest : List UInt8) :
    (u ++ rest).dropWhile blank = rest.dropWhile blank :=
  List.dropWhile_append_of_pos hu

theorem dropWhile_head (hx : 32 < x) (rest : List UInt8) :
    (x :: rest).dropWhile blank = x :: rest := by
  refine List.dropWhile_cons_of_neg ?_
  simpa [blank] using hx

/-- The bracket behind the last element, with what comes before it. -/
theorem dropWhile_stop (container : Container) (format : Bool) (indent : ℕ) (rest : List UInt8) :
    (container.stop format indent ++ rest).dropWhile blank = container.closing :: rest := by
  cases container with
  | array => exact dropWhile_head (by decide) rest
  | object =>
    rw [Container.stop, List.append_assoc,
      dropWhile_blanks (blank_onlyFormatted format (blank_tabs indent))]
    exact dropWhile_head (by decide) rest

/-- What comes before a value is read as its name. -/
theorem readName_text (name : Option Text) (h : At (b.advance 1) content depth ahead)
    (hahead : ahead.dropWhile blank =
      (container.before format indent name ++ x :: u).dropWhile blank) (hx : 32 < x) :
    ∃ b', readName container (b.advance 1).skipWhitespace =
        some (container.printedName name, b') ∧ At b' content depth (x :: u) := by
  cases container with
  | array =>
    rw [Container.before, List.nil_append, dropWhile_head hx] at hahead
    exact ⟨_, rfl, h.skip hahead⟩
  | object =>
    have htab : ∀ y ∈ onlyFormatted format [9], blank y = true :=
      blank_onlyFormatted format (by simp [blank])
    have hquote :
        (stringText name ++ ([58] ++ onlyFormatted format [9]) ++ x :: u).dropWhile blank =
          stringText name ++ 58 :: (onlyFormatted format [9] ++ x :: u) := by
      unfold stringText
      simp only [List.cons_append, List.append_assoc, List.nil_append]
      exact dropWhile_head (by decide) _
    rw [Container.before, List.append_assoc,
      dropWhile_blanks (blank_onlyFormatted format (blank_tabs indent)), hquote] at hahead
    have hstart : ∃ more, stringText name ++ 58 :: (onlyFormatted format [9] ++ x :: u) =
        quote :: more := ⟨_, rfl⟩
    obtain ⟨more, hmore⟩ := hstart
    obtain ⟨b₁, hread, h₁⟩ := readString_text name (hmore ▸ h.skip (hahead.trans hmore))
    have h₂ := h₁.skip (dropWhile_head (by decide) _)
    have hcolon : b₁.skipWhitespace.peek 0 = some 58 := h₂.peek 0
    have h₃ : At (b₁.skipWhitespace.advance 1) content depth (onlyFormatted format [9] ++ x :: u) :=
      At.advance (u := [58]) h₂
    refine ⟨_, ?_, h₃.skip (by rw [dropWhile_blanks htab, dropWhile_head hx])⟩
    simp only [readName, hread, hcolon, ne_eq, not_true_eq_false, if_false]
    rfl

/-- The elements from one on are read back, where the reader comes to an end. -/
def ElementsRead (stdio : Stdio) (strtod : List UInt8 → Double × ℕ) (format : Bool)
    (content : List UInt8) (f : Forest Label) : Prop :=
  ∀ {container indent depth calls b ahead w rest r}, f ≠ .nil →
    elementsText stdio format container indent f = some w →
    At (b.advance 1) content depth ahead →
    ahead.dropWhile blank = (w ++ (container.stop format (indent - 1) ++ rest)).dropWhile blank →
    depth + nesting f ≤ nestingLimit → readElements strtod container calls b = some r →
    ∃ b', r = some (printedElements container f, b') ∧
      At b' content depth (container.closing :: rest)

/-- What is written before the value of an element, the value, and the rest. -/
theorem elementsText_node {w : List UInt8}
    (h : elementsText stdio format container indent (.node l c n) = some w) :
    ∃ v tail, valueText stdio format indent l (fun inner =>
        elementsText stdio format inner (indent + 1) c) = some v ∧
      elementsText stdio format container indent n = some tail ∧
      w = container.before format indent l.name ++
        (v ++ (container.behind format (isLast n) ++ tail)) := by
  rw [elementsText] at h
  obtain ⟨v₁, w₁, hbefore, h₁, rfl⟩ := joined_eq_some h
  obtain ⟨v, w₂, hvalue, h₂, rfl⟩ := joined_eq_some h₁
  obtain ⟨v₂, tail, hbehind, htail, rfl⟩ := joined_eq_some h₂
  obtain rfl := Option.some.inj hbefore
  obtain rfl := Option.some.inj hbehind
  exact ⟨v, tail, hvalue, htail, rfl⟩

/-- The first character of the elements. -/
theorem elementsText_head (h : elementsText stdio format container indent (.node l c n) = some w)
    (hreadable : Readable stdio strtod l) (rest : List UInt8) :
    ∃ x u, (w ++ rest).dropWhile blank = x :: u ∧ 32 < x ∧ x ≠ container.closing := by
  obtain ⟨v, tail, hvalue, -, rfl⟩ := elementsText_node h
  obtain ⟨x, u, rfl, hx, -, hclosing⟩ := valueText_head hvalue hreadable
  cases container with
  | array => exact ⟨x, _, dropWhile_head hx _, hx, hclosing .array⟩
  | object =>
    rw [Container.before, List.append_assoc, List.append_assoc,
      dropWhile_blanks (blank_onlyFormatted format (blank_tabs indent))]
    exact ⟨quote, _, dropWhile_head (by decide) _, by decide, by decide⟩

theorem At.lt (h : At b content depth rest) (hrest : rest ≠ []) :
    b.offset < b.content.length := by
  by_contra hge
  exact hrest (h.rest.symm.trans (List.drop_eq_nil_of_le (Nat.not_lt.mp hge)))

theorem readContainer_text (ih : ElementsRead stdio strtod format content c)
    (hreadable : c.Everywhere fun l _ => Readable stdio strtod l) {r : Option Content}
    (htext : containerText format container indent
      (elementsText stdio format container (indent + 1) c) = some v)
    (h : At b content depth (v ++ rest)) (hdepth : depth + (nesting c + 1) ≤ nestingLimit)
    (hread : readContainer strtod container calls b = some r) :
    ∃ b', r = some (leaf container.type, printedElements container c, b') ∧
      At b' content depth rest := by
  cases calls with
  | zero => cases hread
  | succ calls =>
    obtain ⟨v₁, w₁, hstart, hrest, rfl⟩ := joined_eq_some htext
    obtain ⟨w, v₂, helements, hstop, rfl⟩ := joined_eq_some hrest
    obtain rfl := Option.some.inj hstart
    obtain rfl := Option.some.inj hstop
    have hline : ∃ u, container.start format = container.opening :: u ∧
        ∀ x ∈ u, blank x = true := by
      cases container with
      | array => exact ⟨[], rfl, fun x hx => absurd hx List.not_mem_nil⟩
      | object => exact ⟨_, rfl, blank_onlyFormatted format (by simp [blank])⟩
    obtain ⟨u, hopening, hblank⟩ := hline
    set b₁ : Buffer := { b with depth := b.depth + 1 } with hb₁
    have h₁ : At b₁ content (depth + 1) (container.opening :: (u ++
        (w ++ (container.stop format indent ++ rest)))) := by
      refine ⟨h.content, by rw [hb₁, h.depth], ?_⟩
      rw [hb₁, h.rest, hopening]
      simp only [List.cons_append, List.append_assoc]
    have hpeek : b₁.peek 0 = some container.opening := h₁.peek 0
    have h₂ : At (b₁.advance 1) content (depth + 1) (u ++
        (w ++ (container.stop format indent ++ rest))) := At.advance (u := [container.opening]) h₁
    have hlimit : ¬ nestingLimit ≤ b.depth := by
      rw [h.depth]
      omega
    rw [readContainer, if_neg hlimit] at hread
    dsimp only at hread
    rw [← hb₁, if_neg (not_not.mpr hpeek)] at hread
    cases c with
    | nil =>
      obtain rfl := Option.some.inj helements
      have h₃ := h₂.skip (by rw [dropWhile_blanks hblank, List.nil_append, dropWhile_stop])
      have hclosing : (b₁.advance 1).skipWhitespace.peek 0 = some container.closing := h₃.peek 0
      simp only [hclosing, if_true] at hread
      obtain rfl := Option.some.inj hread
      refine ⟨_, rfl, ⟨h₃.content, ?_, ?_⟩⟩
      · exact congrArg (· - 1) h₃.depth
      · simpa using (At.advance (u := [container.closing]) h₃).rest
    | node l d n =>
      obtain ⟨x, u', hhead, hlarge, hx⟩ := elementsText_head helements hreadable.1
        (container.stop format indent ++ rest)
      have h₃ := h₂.skip (by rw [dropWhile_blanks hblank, hhead])
      have hfirst : (b₁.advance 1).skipWhitespace.peek 0 = some x := h₃.peek 0
      simp only [hfirst, if_neg hx] at hread
      have hsome : u ++ (w ++ (container.stop format indent ++ rest)) ≠ [] := by
        intro hnil
        rw [← dropWhile_blanks hblank, hnil] at hhead
        cases hhead
      have hpos := ((le_offset_skipWhitespace (b₁.advance 1)).2 (h₂.lt hsome)).1
      rw [offset_advance] at hpos
      obtain ⟨elements, hread, hr⟩ := Option.bind_eq_some_iff.mp hread
      have hahead : (x :: u').dropWhile blank =
          (w ++ (container.stop format (indent + 1 - 1) ++ rest)).dropWhile blank := by
        rw [Nat.add_sub_cancel, hhead, dropWhile_head hlarge]
      obtain ⟨b₄, rfl, h₄⟩ := ih (by simp) helements (h₃.back (by omega)) hahead (by omega) hread
      obtain rfl := Option.some.inj hr
      refine ⟨_, rfl, ⟨h₄.content, ?_, ?_⟩⟩
      · exact congrArg (· - 1) h₄.depth
      · simpa using (At.advance (u := [container.closing]) h₄).rest

theorem printedLabel_leaf {kind : BitVec 32} (hkind : l.kind = kind)
    (h : kind ∉ [cJSONNumber, cJSONString, cJSONTrue]) (name : Option Text) :
    printedLabel l name = (leaf kind).rename name := by
  simp only [List.mem_cons, List.not_mem_nil, or_false, not_or] at h
  rw [printedLabel, hkind, if_neg h.1, if_neg h.2.1, if_neg h.2.2]

theorem rename_printedLabel (l : Label) (name : Option Text) :
    (printedLabel l none).rename name = printedLabel l name := by
  unfold printedLabel
  split
  · cases l.valuedouble <;> rfl
  split
  · rfl
  split <;> rfl

theorem printedBelow_leaf {kind : BitVec 32} (hkind : l.kind = kind)
    (h : kind ∉ [cJSONArray, cJSONObject]) (elements : Container → Forest Label) :
    printedBelow l elements = .nil := by
  simp only [List.mem_cons, List.not_mem_nil, or_false, not_or] at h
  rw [printedBelow, hkind, if_neg h.1, if_neg h.2]

theorem value_text (ih : ElementsRead stdio strtod format content c)
    (hreadable : Readable stdio strtod l) (hbelow : c.Everywhere fun l _ => Readable stdio strtod l)
    {r : Option Content}
    (htext : valueText stdio format indent l (fun inner =>
      elementsText stdio format inner (indent + 1) c) = some v)
    (h : At b content depth (v ++ rest)) (hrest : ∀ x ∈ rest.head?, numeric x = false)
    (hdepth : depth + nesting (.node l c .nil) ≤ nestingLimit)
    (hread : readValue strtod calls b = some r) :
    ∃ b', r = some (printedLabel l none,
        printedBelow l fun inner => printedElements inner c, b') ∧ At b' content depth rest := by
  cases calls with
  | zero => cases hread
  | succ calls =>
    rcases valueText_cases htext hreadable.1 with ⟨hkind, rfl⟩ | ⟨hkind, rfl⟩ | ⟨hkind, rfl⟩ |
      ⟨hkind, rfl⟩ | ⟨hkind, rfl⟩ | ⟨container, hkind, hcontainer⟩
    · obtain rfl := Option.some.inj ((readValue_null h).symm.trans hread)
      refine ⟨_, ?_, h.advance⟩
      rw [printedLabel_leaf hkind (by decide), printedBelow_leaf hkind (by decide)]
      rfl
    · obtain rfl := Option.some.inj ((readValue_false h).symm.trans hread)
      refine ⟨_, ?_, h.advance⟩
      rw [printedLabel_leaf hkind (by decide), printedBelow_leaf hkind (by decide)]
      rfl
    · obtain rfl := Option.some.inj ((readValue_true h).symm.trans hread)
      refine ⟨_, ?_, h.advance⟩
      rw [printedBelow_leaf hkind (by decide), printedLabel, hkind]
      rfl
    · rw [printedBelow_leaf hkind (by decide), printedLabel, if_pos hkind]
      cases hvalue : l.valuedouble with
      | finite value =>
        rw [hvalue] at h
        obtain ⟨b', hnumber, h'⟩ := readNumber_text (hreadable.2 hkind value hvalue) h hrest
        obtain ⟨p, hp, hform, -⟩ := (hreadable.2 hkind value hvalue).number
        obtain ⟨x, more, hstarts, hx⟩ := (hreadable.2 hkind value hvalue).starts p hp
        rw [hform, hstarts] at h
        have hplain := number_start hx
        rw [readValue_head h hplain.1, if_neg hplain.2.1, if_pos hx, hnumber] at hread
        exact ⟨b', (Option.some.inj hread).symm, h'⟩
      | nan =>
        rw [hvalue] at h
        obtain rfl := Option.some.inj ((readValue_null h).symm.trans hread)
        exact ⟨_, rfl, h.advance⟩
      | infinite negative =>
        rw [hvalue] at h
        obtain rfl := Option.some.inj ((readValue_null h).symm.trans hread)
        exact ⟨_, rfl, h.advance⟩
    · obtain ⟨b', hstring, h'⟩ := readString_text l.valuestring h
      have hhead : ∃ u, stringText l.valuestring ++ rest = quote :: u := ⟨_, rfl⟩
      obtain ⟨u, hu⟩ := hhead
      rw [hu] at h
      rw [readValue_head h (by decide), if_pos rfl, hstring] at hread
      refine ⟨b', (Option.some.inj hread).symm.trans ?_, h'⟩
      rw [printedBelow_leaf hkind (by decide), printedLabel, hkind]
      rfl
    · have hnesting : nesting (.node l c .nil) = nesting c + 1 := by
        simp only [nesting, hkind]
        cases container <;> rfl
      have hhead : ∃ u, v ++ rest = container.opening :: u := by
        obtain ⟨v₁, v₂, hstart, -, rfl⟩ := joined_eq_some hcontainer
        obtain rfl := Option.some.inj hstart
        cases container <;> exact ⟨_, rfl⟩
      obtain ⟨u, hu⟩ := hhead
      have hopening : readValue strtod (calls + 1) b = readContainer strtod container calls b := by
        rw [hu] at h
        cases container
        · exact readValue_head h (by decide)
        · exact readValue_head h (by decide)
      obtain ⟨b', rfl, h'⟩ := readContainer_text ih hbelow hcontainer h (hnesting ▸ hdepth)
        (hopening ▸ hread)
      refine ⟨b', ?_, h'⟩
      rw [printedLabel, printedBelow, hkind]
      cases container <;> rfl

/-- What is behind a value is no part of a number. -/
theorem numeric_behind (container : Container) (format last : Bool) (indent : ℕ)
    (tail : List UInt8) (htail : last = true → tail = []) (rest : List UInt8) :
    ∀ x ∈ (container.behind format last ++ (tail ++
      (container.stop format indent ++ rest))).head?, numeric x = false := by
  have hblank : ∀ x, blank x = true → numeric x = false := by
    have hall : ∀ n : Fin 256, blank ⟨⟨n⟩⟩ = true → numeric ⟨⟨n⟩⟩ = false := by decide +kernel
    exact fun x hx => hall x.toBitVec.toFin hx
  have hhead : ∀ (u : List UInt8) (y : UInt8) (more : List UInt8), (∀ x ∈ u, blank x = true) →
      numeric y = false → ∀ x ∈ (u ++ y :: more).head?, numeric x = false := by
    intro u y more hu hy x hx
    cases u with
    | nil => cases hx; exact hy
    | cons z u => cases hx; exact hblank _ (hu _ List.mem_cons_self)
  cases last with
  | false => cases container <;> exact hhead [] 44 _ nofun (by decide)
  | true =>
    rw [htail rfl, List.nil_append]
    cases container with
    | array => exact hhead [] 93 _ nofun (by decide)
    | object =>
      simp only [Container.behind, Container.stop, if_true, List.nil_append, ← List.append_assoc]
      rw [List.append_assoc]
      refine hhead _ 125 rest ?_ (by decide)
      intro x hx
      rcases List.mem_append.mp hx with hx | hx
      · exact blank_onlyFormatted format (by simp [blank]) x hx
      · exact blank_onlyFormatted format (blank_tabs indent) x hx

/-- Behind the last element is the closing bracket. -/
theorem behind_last (h : At b content depth (container.behind format true ++
      (container.stop format indent ++ rest))) :
    At b.skipWhitespace content depth (container.closing :: rest) := by
  have hblank : ∀ x ∈ container.behind format true, blank x = true := by
    cases container with
    | array => exact nofun
    | object => exact blank_onlyFormatted format (by simp [blank])
  exact h.skip (by rw [dropWhile_blanks hblank, dropWhile_stop])

/-- Behind any other element is a comma, and then the next one. -/
theorem behind_comma (h : At b content depth (container.behind format false ++ w)) :
    b.skipWhitespace.peek 0 = some 44 ∧ ∃ ahead,
      At (b.skipWhitespace.advance 1) content depth ahead ∧
      ahead.dropWhile blank = w.dropWhile blank := by
  have hcomma : ∃ u, container.behind format false = 44 :: u ∧ ∀ x ∈ u, blank x = true := by
    cases container with
    | array => exact ⟨_, rfl, blank_onlyFormatted format (by simp [blank])⟩
    | object => exact ⟨_, rfl, blank_onlyFormatted format (by simp [blank])⟩
  obtain ⟨u, hcomma, hblank⟩ := hcomma
  rw [hcomma] at h
  have hnext := h.skip (dropWhile_head (by decide) _)
  exact ⟨hnext.peek 0, u ++ w, At.advance (u := [44]) hnext, dropWhile_blanks hblank w⟩

/-- The elements of a container are read back, by induction on the document. -/
theorem elementsRead (f : Forest Label)
    (hreadable : f.Everywhere fun l _ => Readable stdio strtod l) :
    ElementsRead stdio strtod format content f := by
  induction f with
  | nil => exact fun hne => absurd rfl hne
  | node l c n ihc ihn =>
    intro container indent depth calls b ahead w rest r _ htext h hahead hdepth hread
    obtain ⟨hl, hc, hn⟩ := hreadable
    cases calls with
    | zero => cases hread
    | succ calls =>
      obtain ⟨v, tail, hvalue, htail, rfl⟩ := elementsText_node htext
      obtain ⟨x, u, hv, hx, -⟩ := valueText_head hvalue hl
      rw [List.append_assoc, List.append_assoc, List.append_assoc, hv, List.cons_append] at hahead
      obtain ⟨b₁, hname, h₁⟩ := readName_text l.name h hahead hx
      rw [← List.cons_append, ← hv] at h₁
      rw [readElements, hname] at hread
      dsimp only at hread
      obtain ⟨value, hread₁, hread⟩ := Option.bind_eq_some_iff.mp hread
      have hlast : isLast n = true → tail = [] := by
        intro hlast
        cases n with
        | nil => exact (Option.some.inj htail).symm
        | node => cases hlast
      have hdepth' : depth + nesting (.node l c .nil) ≤ nestingLimit ∧
          depth + nesting n ≤ nestingLimit := by
        simp only [nesting] at hdepth ⊢
        omega
      obtain ⟨b₂, rfl, h₂⟩ := value_text (ihc hc) hl hc hvalue h₁
        (numeric_behind container format (isLast n) (indent - 1) tail hlast rest) hdepth'.1 hread₁
      dsimp only at hread
      cases n with
      | nil =>
        obtain rfl := hlast rfl
        have h₃ := behind_last h₂
        have hclosing : b₂.skipWhitespace.peek 0 = some container.closing := h₃.peek 0
        have hcomma : some container.closing ≠ some (44 : UInt8) := by
          cases container <;> decide
        rw [hclosing, if_neg hcomma, if_pos rfl] at hread
        obtain rfl := Option.some.inj hread
        exact ⟨_, by rw [rename_printedLabel]; rfl, h₃⟩
      | node l' c' n' =>
        obtain ⟨hcomma, ahead', h₃, hahead'⟩ := behind_comma h₂
        rw [if_pos hcomma] at hread
        obtain ⟨elements, hread₃, hread⟩ := Option.bind_eq_some_iff.mp hread
        obtain ⟨b₃, rfl, h₄⟩ := ihn hn (by simp) htail h₃ hahead' hdepth'.2 hread₃
        obtain rfl := Option.some.inj hread
        exact ⟨b₃, by rw [Option.map_some, rename_printedLabel]; rfl, h₄⟩

end Containers

end BoxUtils.CJson
