import BoxUtils.JsonValues

/-!
The parser of cJSON. It walks through a buffer that ends with the NUL of the text, and
fills nodes as it goes: a failing call leaves its node as far as it got, and the node is
deleted further up. `none` stands for what the heap does not allow, and for more nested
calls than the given number.
-/
namespace BoxUtils.CJson

open LinkedShapes Json

section Strings

def quote : UInt8 := 34
def backslash : UInt8 := 92

def hexDigit (c : UInt8) : Option ℕ :=
  if 48 ≤ c ∧ c ≤ 57 then some (c.toNat - 48)
  else if 65 ≤ c ∧ c ≤ 70 then some (10 + c.toNat - 65)
  else if 97 ≤ c ∧ c ≤ 102 then some (10 + c.toNat - 97)
  else none

/-- `parse_hex4`, which is 0 for what is no number. -/
def parseHex4 (input : List UInt8) : ℕ :=
  match (input.take 4).mapM hexDigit with
  | some digits => digits.foldl (fun h digit => (h <<< 4) + digit) 0
  | none => 0

/-- The loop that encodes the bytes behind the first one, from the last one on. -/
def encodeRest : ℕ → ℕ → List UInt8 → ℕ × List UInt8
  | 0, codepoint, rest => (codepoint, rest)
  | position + 1, codepoint, rest =>
    encodeRest position (codepoint >>> 6) (UInt8.ofNat ((codepoint ||| 0x80) &&& 0xBF) :: rest)

def encodeMarked (length : ℕ) (firstByteMark codepoint : ℕ) : List UInt8 :=
  let (codepoint, rest) := encodeRest (length - 1) codepoint []
  UInt8.ofNat ((codepoint ||| firstByteMark) &&& 0xFF) :: rest

def encodeUtf8 (codepoint : ℕ) : Option (List UInt8) :=
  if codepoint < 0x80 then some [UInt8.ofNat (codepoint &&& 0x7F)]
  else if codepoint < 0x800 then some (encodeMarked 2 0xC0 codepoint)
  else if codepoint < 0x10000 then some (encodeMarked 3 0xE0 codepoint)
  else if codepoint ≤ 0x10FFFF then some (encodeMarked 4 0xF0 codepoint)
  else none

/-- What `utf16_literal_to_utf8` writes, and the length of the sequence it has read; `left`
is the number of bytes up to the closing quote. -/
def utf16LiteralToUtf8 (input : List UInt8) (left : ℕ) : Option (List UInt8 × ℕ) :=
  if left < 6 then none
  else
    let firstCode := parseHex4 (input.drop 2)
    if 0xDC00 ≤ firstCode ∧ firstCode ≤ 0xDFFF then none
    else if 0xD800 ≤ firstCode ∧ firstCode ≤ 0xDBFF then
      let secondSequence := input.drop 6
      if left - 6 < 6 then none
      else if secondSequence.take 2 ≠ [backslash, 117] then none
      else
        let secondCode := parseHex4 (secondSequence.drop 2)
        if secondCode < 0xDC00 ∨ 0xDFFF < secondCode then none
        else
          (encodeUtf8 (0x10000 + (((firstCode &&& 0x3FF) <<< 10) ||| (secondCode &&& 0x3FF)))).map
            (·, 12)
    else (encodeUtf8 firstCode).map (·, 6)

/-- What an escape sequence stands for, and how long it is. -/
def escapeSequence (input : List UInt8) (left : ℕ) : Option (List UInt8 × ℕ) :=
  match (input[1]? : Option UInt8) with
  | some 98 => some ([8], 2)
  | some 102 => some ([12], 2)
  | some 110 => some ([10], 2)
  | some 114 => some ([13], 2)
  | some 116 => some ([9], 2)
  | some 34 => some ([quote], 2)
  | some 92 => some ([backslash], 2)
  | some 47 => some ([47], 2)
  | some 117 => utf16LiteralToUtf8 input left
  | _ => none

/-- The loop through a string literal. It has as many turns as there are bytes up to the
closing quote at most; an error carries the number of bytes before it. -/
def unescape : ℕ → List UInt8 → ℕ → ℕ → List UInt8 → Except ℕ (List UInt8)
  | 0, _, _, _, output => .ok output
  | turns + 1, input, left, before, output =>
    if left = 0 then .ok output
    else
      match input with
      | [] => .error before
      | c :: rest =>
        if c ≠ backslash then unescape turns rest (left - 1) (before + 1) (output ++ [c])
        else
          match escapeSequence input left with
          | none => .error before
          | some (bytes, length) =>
            unescape turns (input.drop length) (left - length) (before + length) (output ++ bytes)

/-- The loop that looks for the closing quote: its distance, and the escapes before it. -/
def stringEnd : List UInt8 → Option (ℕ × ℕ)
  | [] => none
  | c :: rest =>
    if c = quote then some (0, 0)
    else if c = backslash then
      match rest with
      | [] => none
      | _ :: rest => (stringEnd rest).map fun (distance, skipped) => (distance + 2, skipped + 1)
    else (stringEnd rest).map fun (distance, skipped) => (distance + 1, skipped)

/-- A string literal: its bytes without the escapes, the size of the block they are written
to, and where the closing quote is. -/
structure Literal where
  output : List UInt8
  size : ℕ
  inputEnd : ℕ
deriving DecidableEq

/-- `parse_string` as far as the text goes, at the given offset; an error carries the offset
at which it gives up. -/
def parseLiteral (content : List UInt8) (offset : ℕ) : Except ℕ Literal :=
  let start := offset + 1
  if content[offset]? ≠ some quote then .error start
  else
    match stringEnd (content.drop start) with
    | none => .error start
    | some (distance, skipped) =>
      match unescape distance (content.drop start) distance 0 [] with
      | .error before => .error (start + before)
      | .ok output => .ok ⟨output, 1 + distance - skipped + 1, start + distance⟩

end Strings

section Sizes

variable {input rest : List UInt8} {left room : ℕ}

theorem hexDigit_lt {c : UInt8} {digit : ℕ} (h : hexDigit c = some digit) : digit < 16 := by
  unfold hexDigit at h
  simp only [UInt8.le_iff_toNat_le, UInt8.reduceToNat] at h
  split at h
  · obtain rfl := Option.some.inj h
    omega
  · split at h
    · obtain rfl := Option.some.inj h
      omega
    · split at h
      · obtain rfl := Option.some.inj h
        omega
      · cases h

theorem mapM_hexDigit {input : List UInt8} {digits : List ℕ}
    (h : input.mapM hexDigit = some digits) :
    digits.length = input.length ∧ ∀ digit ∈ digits, digit < 16 := by
  induction input generalizing digits with
  | nil =>
    obtain rfl : [] = digits := by simpa using h
    simp
  | cons c input ih =>
    rw [List.mapM_cons] at h
    obtain ⟨digit, hdigit, h⟩ := Option.bind_eq_some_iff.mp h
    obtain ⟨rest, hrest, h⟩ := Option.bind_eq_some_iff.mp h
    obtain rfl := Option.some.inj h
    obtain ⟨hlength, hlt⟩ := ih hrest
    exact ⟨by simp [hlength], List.forall_mem_cons.mpr ⟨hexDigit_lt hdigit, hlt⟩⟩

/-- Hexadecimal digits behind a number. -/
theorem foldl_digits_lt {digits : List ℕ} (hdigits : ∀ digit ∈ digits, digit < 16) (h n : ℕ)
    (hh : h < n) :
    digits.foldl (fun h digit => (h <<< 4) + digit) h < n * 16 ^ digits.length := by
  induction digits generalizing h n with
  | nil => simpa using hh
  | cons digit digits ih =>
    have hdigit := hdigits digit List.mem_cons_self
    have hnext : (h <<< 4) + digit < n * 16 := by
      rw [Nat.shiftLeft_eq]
      omega
    have hrest := ih (fun d hd => hdigits d (List.mem_cons_of_mem _ hd)) _ _ hnext
    rwa [Nat.mul_assoc, ← Nat.pow_succ'] at hrest

theorem parseHex4_lt (input : List UInt8) : parseHex4 input < 0x10000 := by
  unfold parseHex4
  split
  case h_1 digits hdigits =>
    obtain ⟨htake, hlt⟩ := mapM_hexDigit hdigits
    have hlength : digits.length ≤ 4 := htake ▸ List.length_take_le 4 input
    have hfold := foldl_digits_lt hlt 0 1 Nat.one_pos
    calc _ < 1 * 16 ^ digits.length := hfold
      _ ≤ 1 * 16 ^ 4 := Nat.mul_le_mul_left 1 (Nat.pow_le_pow_right (by omega) hlength)
  case h_2 => omega

theorem length_encodeRest (n codepoint : ℕ) (rest : List UInt8) :
    (encodeRest n codepoint rest).2.length = n + rest.length := by
  induction n generalizing codepoint rest with
  | zero => simp [encodeRest]
  | succ n ih =>
    rw [encodeRest, ih, List.length_cons]
    omega

theorem length_encodeMarked {n : ℕ} (hn : 0 < n) (mark codepoint : ℕ) :
    (encodeMarked n mark codepoint).length = n := by
  rw [encodeMarked, List.length_cons, length_encodeRest, List.length_nil]
  omega

/-- A code point takes four bytes at most, and three if it comes from one sequence. -/
theorem length_encodeUtf8 {codepoint : ℕ} {bytes : List UInt8}
    (h : encodeUtf8 codepoint = some bytes) :
    bytes.length ≤ 4 ∧ (codepoint < 0x10000 → bytes.length ≤ 3) := by
  unfold encodeUtf8 at h
  split at h
  · obtain rfl := Option.some.inj h
    simp
  · split at h
    · obtain rfl := Option.some.inj h
      simp [length_encodeMarked]
    · split at h
      · obtain rfl := Option.some.inj h
        simp [length_encodeMarked]
      · rename_i hlarge
        split at h
        · obtain rfl := Option.some.inj h
          exact ⟨by simp [length_encodeMarked], fun hsmall => absurd hsmall hlarge⟩
        · cases h

/-- A literal of UTF-16 is written in half of its length at most. -/
theorem length_utf16LiteralToUtf8 {bytes : List UInt8} {length : ℕ}
    (h : utf16LiteralToUtf8 input left = some (bytes, length)) :
    ∃ n, length = 2 * n ∧ length ≤ left ∧ bytes.length ≤ n := by
  unfold utf16LiteralToUtf8 at h
  split at h
  · cases h
  · rename_i hsix
    dsimp only at h
    split at h
    · cases h
    · split at h
      · split at h
        · cases h
        · split at h
          · cases h
          · split at h
            · cases h
            · obtain ⟨out, hout, hpair⟩ := Option.map_eq_some_iff.mp h
              obtain ⟨rfl, rfl⟩ := Prod.mk.inj hpair
              have hlength := (length_encodeUtf8 hout).1
              exact ⟨6, by omega⟩
      · obtain ⟨out, hout, hpair⟩ := Option.map_eq_some_iff.mp h
        obtain ⟨rfl, rfl⟩ := Prod.mk.inj hpair
        have hlength := (length_encodeUtf8 hout).2 (parseHex4_lt _)
        exact ⟨3, by omega⟩

/-- An escape sequence may take the closing quote for its second character. -/
theorem length_escapeSequence {bytes : List UInt8} {length : ℕ}
    (h : escapeSequence input left = some (bytes, length)) :
    ∃ n, length = 2 * n ∧ bytes.length ≤ n ∧ (length ≤ left ∨ n = 1) := by
  unfold escapeSequence at h
  split at h
  case h_9 =>
    obtain ⟨n, hn, hleft, hbytes⟩ := length_utf16LiteralToUtf8 h
    exact ⟨n, hn, hbytes, Or.inl hleft⟩
  case h_10 => cases h
  all_goals
    obtain ⟨rfl, rfl⟩ := Prod.mk.inj (Option.some.inj h)
    exact ⟨1, rfl, le_rfl, Or.inr rfl⟩

/-- One byte of a literal: it is a character, or it starts an escape. -/
theorem stringEnd_cons {c : UInt8} {distance skipped : ℕ}
    (h : stringEnd (c :: rest) = some (distance + 1, skipped)) :
    c ≠ backslash ∧ stringEnd rest = some (distance, skipped) ∨
      c = backslash ∧ ∃ x tail d k, rest = x :: tail ∧ stringEnd tail = some (d, k) ∧
        distance = d + 1 ∧ skipped = k + 1 := by
  rw [stringEnd.eq_def] at h
  dsimp only at h
  split at h
  · cases h
  · split at h
    · rename_i hescape
      cases rest with
      | nil => cases h
      | cons x tail =>
        obtain ⟨⟨d, k⟩, hend, hpair⟩ := Option.map_eq_some_iff.mp h
        obtain ⟨hd, hk⟩ := Prod.mk.inj hpair
        exact Or.inr ⟨hescape, x, tail, d, k, rfl, hend, by omega, hk.symm⟩
    · rename_i hescape
      obtain ⟨⟨d, k⟩, hend, hpair⟩ := Option.map_eq_some_iff.mp h
      obtain ⟨hd, hk⟩ := Prod.mk.inj hpair
      obtain rfl : d = distance := by omega
      obtain rfl : k = skipped := hk
      exact Or.inl ⟨hescape, hend⟩

/-- An escape has two bytes. -/
theorem skipped_le {distance skipped : ℕ} (h : stringEnd input = some (distance, skipped)) :
    2 * skipped ≤ distance := by
  induction input using stringEnd.induct generalizing distance skipped with
  | case1 => cases h
  | case2 rest =>
    rw [stringEnd.eq_def] at h
    simp only [if_pos] at h
    obtain ⟨rfl, rfl⟩ := Prod.mk.inj (Option.some.inj h)
    exact le_rfl
  | case3 => cases h
  | case4 hquote x rest ih =>
    obtain ⟨⟨d, k⟩, hend, hpair⟩ := Option.map_eq_some_iff.mp h
    obtain ⟨rfl, rfl⟩ := Prod.mk.inj hpair
    have hrest := ih hend
    omega
  | case5 c rest hquote hescape ih =>
    rw [stringEnd.eq_def] at h
    simp only [if_neg hquote, if_neg hescape] at h
    obtain ⟨⟨d, k⟩, hend, hpair⟩ := Option.map_eq_some_iff.mp h
    obtain ⟨rfl, rfl⟩ := Prod.mk.inj hpair
    have hrest := ih hend
    omega

/-- The room that is left in the block for the rest of a literal. The loop may be in the
middle of what `stringEnd` has taken for an escape. -/
inductive Room : List UInt8 → ℕ → ℕ → Prop
  | before {input : List UInt8} {left skipped room : ℕ}
      (h : stringEnd input = some (left, skipped)) (hroom : room + skipped = left) :
      Room input left room
  | inside {c : UInt8} {rest : List UInt8} {left skipped room : ℕ}
      (h : stringEnd rest = some (left, skipped)) (hroom : room + skipped = left + 1) :
      Room (c :: rest) (left + 1) room

theorem Room.drop_one {left skipped : ℕ} (h : stringEnd input = some (left + 1, skipped)) :
    ∃ more, Room (input.drop 1) left more ∧ more + skipped ≤ left + 1 := by
  cases input with
  | nil => cases h
  | cons c rest =>
    rcases stringEnd_cons h with ⟨-, hend⟩ | ⟨-, x, tail, d, k, rfl, hend, rfl, rfl⟩
    · have hle := skipped_le hend
      exact ⟨left - skipped, .before hend (by omega), by omega⟩
    · have hle := skipped_le hend
      exact ⟨d + 1 - k, .inside hend (by omega), by omega⟩

/-- Two bytes make room for one at least. -/
theorem Room.drop_two (h : Room input (left + 2) room) :
    ∃ more, Room (input.drop 2) left more ∧ more + 1 ≤ room := by
  cases h with
  | before h hroom =>
    cases input with
    | nil => cases h
    | cons c rest =>
      rcases stringEnd_cons h with ⟨-, hend⟩ | ⟨-, x, tail, d, k, rfl, hend, hd, rfl⟩
      · obtain ⟨more, hmore, hle⟩ := Room.drop_one hend
        exact ⟨more, by simpa using hmore, by omega⟩
      · obtain rfl : left = d := by omega
        have hle := skipped_le hend
        exact ⟨left - k, .before hend (by omega), by omega⟩
  | inside h hroom =>
    obtain ⟨more, hmore, hle⟩ := Room.drop_one h
    exact ⟨more, by simpa using hmore, by omega⟩

theorem Room.drop {n : ℕ} (h : Room input left room) (hn : 2 * n ≤ left) :
    ∃ more, Room (input.drop (2 * n)) (left - 2 * n) more ∧ more + n ≤ room := by
  induction n with
  | zero => exact ⟨room, h, le_rfl⟩
  | succ n ih =>
    obtain ⟨more, hmore, hle⟩ := ih (by omega)
    obtain ⟨k, hk⟩ : ∃ k, left - 2 * n = k + 2 := ⟨left - 2 * n - 2, by omega⟩
    rw [hk] at hmore
    obtain ⟨next, hnext, hle'⟩ := hmore.drop_two
    refine ⟨next, ?_, by omega⟩
    rwa [List.drop_drop, show k = left - 2 * (n + 1) by omega] at hnext

/-- A character that is copied has room. -/
theorem Room.character {c : UInt8} (h : Room (c :: rest) (left + 1) room) (hc : c ≠ backslash) :
    ∃ more, Room rest left more ∧ more + 1 ≤ room := by
  cases h with
  | @before _ _ skipped _ h hroom =>
    rcases stringEnd_cons h with ⟨-, hend⟩ | ⟨hescape, -⟩
    · have hle := skipped_le hend
      exact ⟨left - skipped, .before hend (by omega), by omega⟩
    · exact absurd hescape hc
  | @inside _ _ _ skipped _ h hroom =>
    have hle := skipped_le h
    exact ⟨left - skipped, .before h (by omega), by omega⟩

theorem Room.pos (h : Room input (left + 1) room) : 0 < room := by
  cases h with
  | before h hroom =>
    have hle := skipped_le h
    omega
  | inside h hroom =>
    have hle := skipped_le h
    omega

theorem unescape_end (turns : ℕ) (input : List UInt8) (before : ℕ) (output : List UInt8) :
    unescape turns input 0 before output = .ok output := by
  cases turns <;> simp [unescape]

/-- The loop stays within the block that was allocated for the literal. -/
theorem length_unescape {turns before : ℕ} {output result : List UInt8}
    (h : unescape turns input left before output = .ok result) (hroom : Room input left room) :
    result.length ≤ output.length + room := by
  induction turns generalizing input left before output room with
  | zero =>
    obtain rfl : output = result := Except.ok.inj h
    omega
  | succ turns ih =>
    rw [unescape.eq_def] at h
    dsimp only at h
    split at h
    · obtain rfl : output = result := Except.ok.inj h
      omega
    · rename_i hleft
      obtain ⟨left, rfl⟩ := Nat.exists_eq_add_one_of_ne_zero hleft
      cases input with
      | nil => cases h
      | cons c rest =>
        dsimp only at h
        split at h
        · rename_i hc
          obtain ⟨more, hmore, hle⟩ := hroom.character hc
          have hrest := ih h hmore
          rw [List.length_append, List.length_singleton] at hrest
          omega
        · split at h
          · cases h
          · rename_i bytes length hescape
            obtain ⟨n, rfl, hbytes, hlength⟩ := length_escapeSequence hescape
            by_cases hle : 2 * n ≤ left + 1
            · obtain ⟨more, hmore, hmle⟩ := hroom.drop hle
              have hrest := ih h hmore
              rw [List.length_append] at hrest
              omega
            · -- the closing quote was the second character
              obtain rfl := hlength.resolve_left hle
              obtain rfl : left = 0 := by omega
              have hpos := hroom.pos
              obtain rfl := Except.ok.inj ((unescape_end ..).symm.trans h)
              rw [List.length_append]
              omega

/-- What `parse_string` writes fits in the block, together with the NUL behind it. -/
theorem parseLiteral_fits {content : List UInt8} {offset : ℕ} {literal : Literal}
    (h : parseLiteral content offset = .ok literal) : literal.output.length < literal.size := by
  unfold parseLiteral at h
  dsimp only at h
  split at h
  · cases h
  · split at h
    · cases h
    · rename_i distance skipped hend
      split at h
      · cases h
      · rename_i output houtput
        obtain rfl := Except.ok.inj h
        have hle := skipped_le hend
        have hroom : Room (content.drop (offset + 1)) distance (distance - skipped) :=
          .before hend (by omega)
        have hlength := length_unescape houtput hroom
        rw [List.length_nil] at hlength
        show output.length < 1 + distance - skipped + 1
        omega

end Sizes

/-- `parse_buffer`; the length is that of the content, the NUL included. -/
structure Buffer where
  content : List UInt8
  offset : ℕ
  depth : ℕ
deriving DecidableEq

namespace Buffer

/-- The byte at an index from the offset on, where the buffer can be accessed. -/
def peek (b : Buffer) (index : ℕ) : Option UInt8 := b.content[b.offset + index]?

def advance (b : Buffer) (n : ℕ) : Buffer := { b with offset := b.offset + n }

/-- `can_read` and `strncmp`, for a literal. -/
def startsWith (b : Buffer) (literal : List UInt8) : Bool :=
  decide ((b.content.drop b.offset).take literal.length = literal)

/-- The loop of `buffer_skip_whitespace`, over what is left of the buffer. -/
def blanks (rest : List UInt8) : ℕ := (rest.takeWhile fun c => decide (c ≤ 32)).length

def skipWhitespace (b : Buffer) : Buffer :=
  let b := b.advance (blanks (b.content.drop b.offset))
  if b.offset = b.content.length then { b with offset := b.offset - 1 } else b

def skipUtf8Bom (b : Buffer) : Buffer :=
  if b.peek 4 ≠ none ∧ b.startsWith [0xEF, 0xBB, 0xBF] then b.advance 3 else b

end Buffer

def nestingLimit : ℕ := 1000

/-- What a parse function leaves: the nodes, the buffer, and whether it succeeded. -/
abbrev Parsed := Nodes × Buffer × Bool

section Values

-- the number at the beginning of a string, and how many characters it has
variable (strtod : List UInt8 → Double × ℕ)

def numeric (c : UInt8) : Bool :=
  decide ((48 ≤ c ∧ c ≤ 57) ∨ c = 43 ∨ c = 45 ∨ c = 101 ∨ c = 69 ∨ c = 46)

/-- What is copied to the buffer of 64 characters, in the "C" locale. -/
def numberCString (b : Buffer) : List UInt8 :=
  ((b.content.drop b.offset).take 63).takeWhile numeric

def parseNumber (H : Nodes) (item : ℕ) (b : Buffer) : Option Parsed :=
  let (number, length) := strtod (numberCString b)
  if length = 0 then some (H, b, false)
  else do
    let H ← H.modify item fun c =>
      { c with valuedouble := number, valueint := number.toInt, type := cJSONNumber }
    some (H, b.advance length, true)

def parseString (H : Nodes) (item : ℕ) (b : Buffer) : Option Parsed :=
  match parseLiteral b.content b.offset with
  | .error offset => some (H, { b with offset := offset }, false)
  | .ok literal => do
    let H ← H.modify item fun c =>
      { c with type := cJSONString, valuestring := some (cStr literal.output) }
    some (H, { b with offset := literal.inputEnd + 1 }, true)

/-- The part of the loop of `parse_object` that comes before the value. -/
def parseName (H : Nodes) (item : ℕ) (b : Buffer) : Option Parsed := do
  let (H, b, ok) ← parseString H item b
  if ok = false then some (H, b, false)
  else do
    let b := b.skipWhitespace
    -- the name was parsed as if it were the value
    let H ← H.modify item fun c => { c with string := c.valuestring, valuestring := none }
    if b.peek 0 ≠ some 58 then some (H, b, false)
    else some (H, (b.advance 1).skipWhitespace, true)

/-- What `parse_array` and `parse_object` differ in. -/
inductive Container where
  | array
  | object
deriving DecidableEq

namespace Container

def opening : Container → UInt8
  | array => 91
  | object => 123

def closing : Container → UInt8
  | array => 93
  | object => 125

def type : Container → BitVec 32
  | array => cJSONArray
  | object => cJSONObject

end Container

/-- How the parser links a new item behind the current one. -/
def attachNext (H : Nodes) (current : Option ℕ) (newItem : ℕ) : Option Nodes :=
  match current with
  | none => some H
  | some current => suffixObject H (some current) newItem

/-- The end of a container that was parsed. -/
def closeContainer (container : Container) (H : Nodes) (item : ℕ) (head : Option ℕ) (b : Buffer) :
    Option Parsed := do
  let H ← H.modify item fun c => { c with type := container.type, child := head }
  some (H, { b with depth := b.depth - 1, offset := b.offset + 1 }, true)

mutual

def parseValue : ℕ → Nodes → ℕ → Buffer → Option Parsed
  | 0, _, _, _ => none
  | calls + 1, H, item, b =>
    if b.startsWith [110, 117, 108, 108] then do
      let H ← H.modify item fun c => { c with type := cJSONNull }
      some (H, b.advance 4, true)
    else if b.startsWith [102, 97, 108, 115, 101] then do
      let H ← H.modify item fun c => { c with type := cJSONFalse }
      some (H, b.advance 5, true)
    else if b.startsWith [116, 114, 117, 101] then do
      let H ← H.modify item fun c => { c with type := cJSONTrue, valueint := 1 }
      some (H, b.advance 4, true)
    else
      match b.peek 0 with
      | none => some (H, b, false)
      | some c =>
        if c = quote then parseString H item b
        else if c = 45 ∨ (48 ≤ c ∧ c ≤ 57) then parseNumber strtod H item b
        else if c = Container.array.opening then parseContainer .array calls H item b
        else if c = Container.object.opening then parseContainer .object calls H item b
        else some (H, b, false)

/-- `parse_array` and `parse_object`. -/
def parseContainer (container : Container) : ℕ → Nodes → ℕ → Buffer → Option Parsed
  | 0, _, _, _ => none
  | calls + 1, H, item, b =>
    if nestingLimit ≤ b.depth then some (H, b, false)
    else
      let b := { b with depth := b.depth + 1 }
      if b.peek 0 ≠ some container.opening then some (H, b, false)
      else
        let b := (b.advance 1).skipWhitespace
        match b.peek 0 with
        | none => some (H, { b with offset := b.offset - 1 }, false)
        | some c =>
          if c = container.closing then closeContainer container H item none b
          else do
            -- the offset is on the character in front of the first element
            let (H, head, b, ok) ←
              parseElements container calls H none none { b with offset := b.offset - 1 }
            if ok then closeContainer container H item head b
            else do
              let H ← delete H.fresh H head
              some (H, b, false)

/-- The loop over the elements, the last one being current; it stops at the closing
bracket. -/
def parseElements (container : Container) :
    ℕ → Nodes → Option ℕ → Option ℕ → Buffer → Option (Nodes × Option ℕ × Buffer × Bool)
  | 0, _, _, _, _ => none
  | calls + 1, H, head, current, b => do
    let (H, newItem) := newItem H {}
    let H ← attachNext H current newItem
    let head := head.getD newItem
    let b := (b.advance 1).skipWhitespace
    let (H, b, ok) ← (match container with
      | .array => some (H, b, true)
      | .object => parseName H newItem b : Option Parsed)
    if ok = false then some (H, some head, b, false)
    else do
      let (H, b, ok) ← parseValue calls H newItem b
      if ok = false then some (H, some head, b, false)
      else
        let b := b.skipWhitespace
        if b.peek 0 = some 44 then parseElements container calls H (some head) (some newItem) b
        else some (H, some head, b, decide (b.peek 0 = some container.closing))

end

/-- `cJSON_Parse`. -/
def parse (calls : ℕ) (H : Nodes) (value : Text) : Option (Nodes × Option ℕ) := do
  let buffer : Buffer := ⟨value.1 ++ [0], 0, 0⟩
  let (H, item) := newItem H {}
  let (H, _, ok) ← parseValue strtod calls H item buffer.skipUtf8Bom.skipWhitespace
  if ok then some (H, some item)
  else do
    let H ← delete H.fresh H (some item)
    some (H, none)

end Values

end BoxUtils.CJson
