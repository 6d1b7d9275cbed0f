import BoxUtils.CJsonLabels
import BoxUtils.CJsonParse

/-!
What a text says: the labels of the document that the parser reads from it, without the
nodes. The reader goes through the buffer as the parser does, with the same number of nested
calls, and comes to an end for every text.
-/
namespace BoxUtils.CJson

open MergePatch

/-- A value that was read: its label without a name, what is below it, and the buffer behind. -/
abbrev Content := Label × Forest Label × Buffer

section Reading

variable (strtod : List UInt8 → Double × ℕ)

def leaf (kind : BitVec 32) : Label := ⟨none, kind, none, 0, .finite 0⟩

def readNumber (b : Buffer) : Option Content :=
  let (number, length) := strtod (numberCString b)
  if length = 0 then none
  else some ({ leaf cJSONNumber with valuedouble := number, valueint := number.toInt }, .nil,
    b.advance length)

def readString (b : Buffer) : Option (Text × Buffer) :=
  match parseLiteral b.content b.offset with
  | .error _ => none
  | .ok literal => some (Json.cStr literal.output, { b with offset := literal.inputEnd + 1 })

/-- The name of an element, with the colon behind it; the elements of an array have none. -/
def readName (container : Container) (b : Buffer) : Option (Option Text × Buffer) :=
  match container with
  | .array => some (none, b)
  | .object =>
    match readString b with
    | none => none
    | some (name, b) =>
      let b := b.skipWhitespace
      if b.peek 0 ≠ some 58 then none else some (some name, (b.advance 1).skipWhitespace)

def closed (container : Container) (f : Forest Label) (b : Buffer) : Content :=
  (leaf container.type, f, { b with depth := b.depth - 1, offset := b.offset + 1 })

mutual

/-- `none` is for more nested calls than the number allows, `some none` for an error. -/
def readValue : ℕ → Buffer → Option (Option Content)
  | 0, _ => none
  | calls + 1, b =>
    if b.startsWith [110, 117, 108, 108] then some (some (leaf cJSONNull, .nil, b.advance 4))
    else if b.startsWith [102, 97, 108, 115, 101] then
      some (some (leaf cJSONFalse, .nil, b.advance 5))
    else if b.startsWith [116, 114, 117, 101] then
      some (some ({ leaf cJSONTrue with valueint := 1 }, .nil, b.advance 4))
    else
      match b.peek 0 with
      | none => some none
      | some c =>
        if c = quote then
          some ((readString b).map fun (string, b) =>
            ({ leaf cJSONString with valuestring := some string }, .nil, b))
        else if c = 45 ∨ (48 ≤ c ∧ c ≤ 57) then some (readNumber strtod b)
        else if c = Container.array.opening then readContainer .array calls b
        else if c = Container.object.opening then readContainer .object calls b
        else some none

def readContainer (container : Container) : ℕ → Buffer → Option (Option Content)
  | 0, _ => none
  | calls + 1, b =>
    if nestingLimit ≤ b.depth then some none
    else
      let b := { b with depth := b.depth + 1 }
      if b.peek 0 ≠ some container.opening then some none
      else
        let b := (b.advance 1).skipWhitespace
        match b.peek 0 with
        | none => some none
        | some c =>
          if c = container.closing then some (some (closed container .nil b))
          else do
            let elements ← readElements container calls { b with offset := b.offset - 1 }
            some (elements.map fun (f, b) => closed container f b)

/-- The elements from one on, whose text begins behind the current character. -/
def readElements (container : Container) :
    ℕ → Buffer → Option (Option (Forest Label × Buffer))
  | 0, _ => none
  | calls + 1, b =>
    match readName container (b.advance 1).skipWhitespace with
    | none => some none
    | some (name, b) => do
      match ← readValue calls b with
      | none => some none
      | some (l, f, b) =>
        let b := b.skipWhitespace
        if b.peek 0 = some 44 then do
          let rest ← readElements container calls b
          some (rest.map fun (g, b) => (.node (l.rename name) f g, b))
        else if b.peek 0 = some container.closing then
          some (some (.node (l.rename name) f .nil, b))
        else some none

end

/-- What the text of `cJSON_Parse` says. -/
def readDocument (calls : ℕ) (value : Text) : Option (Option Content) :=
  readValue strtod calls (Buffer.mk (value.1 ++ [0]) 0 0).skipUtf8Bom.skipWhitespace

end Reading

section Buffers

variable {b b' : Buffer} {c : UInt8} {value : List UInt8} {n : ℕ}

theorem blanks_le (rest : List UInt8) : Buffer.blanks rest ≤ rest.length :=
  (List.takeWhile_prefix _).length_le

/-- The two ways in which the loop over the blanks ends. -/
theorem skipWhitespace_cases (b : Buffer) :
    b.skipWhitespace = b.advance (Buffer.blanks (b.content.drop b.offset)) ∧
        b.offset + Buffer.blanks (b.content.drop b.offset) ≠ b.content.length ∨
      b.skipWhitespace = { b with offset := b.content.length - 1 } ∧
        b.offset + Buffer.blanks (b.content.drop b.offset) = b.content.length := by
  by_cases hend : b.offset + Buffer.blanks (b.content.drop b.offset) = b.content.length
  · have heq : b.skipWhitespace =
        { b with offset := b.offset + Buffer.blanks (b.content.drop b.offset) - 1 } := if_pos hend
    exact Or.inr ⟨by rw [heq, hend], hend⟩
  · exact Or.inl ⟨if_neg hend, hend⟩

@[simp] theorem content_skipWhitespace (b : Buffer) : b.skipWhitespace.content = b.content := by
  rcases skipWhitespace_cases b with ⟨h, -⟩ | ⟨h, -⟩
  · rw [h, Buffer.advance]
  · rw [h]

@[simp] theorem depth_skipWhitespace (b : Buffer) : b.skipWhitespace.depth = b.depth := by
  rcases skipWhitespace_cases b with ⟨h, -⟩ | ⟨h, -⟩
  · rw [h, Buffer.advance]
  · rw [h]

@[simp] theorem content_advance (b : Buffer) (n : ℕ) : (b.advance n).content = b.content := rfl

@[simp] theorem depth_advance (b : Buffer) (n : ℕ) : (b.advance n).depth = b.depth := rfl

@[simp] theorem offset_advance (b : Buffer) (n : ℕ) : (b.advance n).offset = b.offset + n := rfl

/-- The offset moves forward, unless it is at the end already. -/
theorem le_offset_skipWhitespace (b : Buffer) :
    b.offset ≤ b.skipWhitespace.offset + 1 ∧
      (b.offset < b.content.length →
        b.offset ≤ b.skipWhitespace.offset ∧ b.skipWhitespace.offset < b.content.length) := by
  have hle := blanks_le (b.content.drop b.offset)
  rw [List.length_drop] at hle
  rcases skipWhitespace_cases b with ⟨h, hend⟩ | ⟨h, hend⟩
  · rw [h, offset_advance]
    omega
  · rw [h]
    dsimp only
    omega

theorem peek_lt (h : b.peek n = some c) : b.offset + n < b.content.length :=
  (List.getElem?_eq_some_iff.mp h).1

/-- Behind a character there is the NUL at least. -/
theorem peek_before_end (hcontent : b.content = value ++ [0]) (h : b.peek 0 = some c) (hc : c ≠ 0) :
    b.offset + 1 < b.content.length := by
  have hlt := peek_lt h
  by_contra hge
  have hlast : b.offset + 0 = value.length := by
    rw [hcontent, List.length_append, List.length_singleton] at hlt hge
    omega
  rw [Buffer.peek, hlast, hcontent, List.getElem?_concat_length] at h
  exact hc (Option.some.inj h).symm

/-- What a read consumes: the rest lies behind it in the same buffer. -/
structure Consumes (b b' : Buffer) : Prop where
  content : b'.content = b.content
  depth : b'.depth = b.depth
  offset : b.offset < b'.offset

theorem consumes_advance (b : Buffer) (hn : 0 < n) : Consumes b (b.advance n) :=
  ⟨rfl, rfl, by rw [offset_advance]; omega⟩

end Buffers

section Consumption

variable {strtod : List UInt8 → Double × ℕ} {calls : ℕ} {b b' : Buffer} {l : Label}
variable {f : Forest Label} {value : List UInt8} {string : Text} {name : Option Text}
variable {container : Container}

theorem readString_consumes (h : readString b = some (string, b')) : Consumes b b' := by
  unfold readString at h
  split at h
  · cases h
  · rename_i literal hliteral
    obtain ⟨-, rfl⟩ := Prod.mk.inj (Option.some.inj h)
    unfold parseLiteral at hliteral
    dsimp only at hliteral
    split at hliteral
    · cases hliteral
    · split at hliteral
      · cases hliteral
      · split at hliteral
        · cases hliteral
        · obtain rfl := Except.ok.inj hliteral
          exact ⟨rfl, rfl, by dsimp only; omega⟩

theorem readName_consumes (value : List UInt8) (h : readName container b = some (name, b')) :
    b'.content = b.content ∧ b'.depth = b.depth ∧ (b.content = value ++ [0] →
      b.offset ≤ b'.offset) := by
  cases container with
  | array =>
    obtain ⟨-, rfl⟩ := Prod.mk.inj (Option.some.inj h)
    exact ⟨rfl, rfl, fun _ => le_rfl⟩
  | object =>
    rw [readName] at h
    split at h
    · cases h
    · rename_i string b₁ hstring
      have h₁ := readString_consumes hstring
      dsimp only at h
      split at h
      · cases h
      · rename_i hcolon
        obtain ⟨-, rfl⟩ := Prod.mk.inj (Option.some.inj h)
        refine ⟨by simp [h₁.content], by simp [h₁.depth], fun hcontent => ?_⟩
        have hlt := peek_before_end (b := b₁.skipWhitespace)
          (by rw [content_skipWhitespace, h₁.content, hcontent]) (not_not.mp hcolon) (by decide)
        have hfirst := (le_offset_skipWhitespace b₁).1
        have hsecond := (le_offset_skipWhitespace (b₁.skipWhitespace.advance 1)).2 hlt
        have := h₁.offset
        rw [offset_advance] at hsecond
        omega

/-- A value takes up a part of the buffer. -/
def ValueConsumes (strtod : List UInt8 → Double × ℕ) (value : List UInt8) (calls : ℕ) : Prop :=
  ∀ {b l f b'}, b.content = value ++ [0] →
    readValue strtod calls b = some (some (l, f, b')) → Consumes b b'

def ContainerConsumes (strtod : List UInt8 → Double × ℕ) (value : List UInt8) (calls : ℕ) :
    Prop :=
  ∀ {container b l f b'}, b.content = value ++ [0] →
    readContainer strtod container calls b = some (some (l, f, b')) → Consumes b b'

def ElementsConsume (strtod : List UInt8 → Double × ℕ) (value : List UInt8) (calls : ℕ) : Prop :=
  ∀ {container b f b'}, b.content = value ++ [0] → b.offset + 1 < b.content.length →
    readElements strtod container calls b = some (some (f, b')) → Consumes b b'

theorem valueConsumes_succ (ih : ContainerConsumes strtod value calls) :
    ValueConsumes strtod value (calls + 1) := by
  intro b l f b' hcontent h
  have hword : ∀ {l₁ : Label} {n : ℕ}, 0 < n →
      some (some (l₁, Forest.nil, b.advance n)) = some (some (l, f, b')) → Consumes b b' := by
    rintro l₁ n hn ⟨⟩
    exact consumes_advance b hn
  rw [readValue] at h
  split at h
  · exact hword (by omega) h
  split at h
  · exact hword (by omega) h
  split at h
  · exact hword (by omega) h
  split at h
  · cases h
  split at h
  · obtain ⟨⟨string, b₁⟩, hstring, heq⟩ := Option.map_eq_some_iff.mp (Option.some.inj h)
    cases heq
    exact readString_consumes hstring
  split at h
  · have hnumber := Option.some.inj h
    simp only [readNumber] at hnumber
    split at hnumber
    · cases hnumber
    · rename_i hlength
      cases hnumber
      exact consumes_advance b (Nat.pos_of_ne_zero hlength)
  split at h
  · exact ih hcontent h
  split at h
  · exact ih hcontent h
  · cases h

theorem containerConsumes_succ (ih : ElementsConsume strtod value calls) :
    ContainerConsumes strtod value (calls + 1) := by
  intro container b l f b' hcontent h
  rw [readContainer] at h
  split at h
  · cases h
  dsimp only at h
  split at h
  · cases h
  rename_i hopening
  have hlt := peek_before_end (b := { b with depth := b.depth + 1 }) hcontent
    (not_not.mp hopening) (by cases container <;> decide)
  have hskip := (le_offset_skipWhitespace (Buffer.advance { b with depth := b.depth + 1 } 1)).2 hlt
  rw [offset_advance, content_advance] at hskip
  dsimp only at hskip hlt
  split at h
  · cases h
  split at h
  · cases h
    refine ⟨by simp, by simp, ?_⟩
    dsimp only
    omega
  · obtain ⟨elements, helements, h⟩ := Option.bind_eq_some_iff.mp h
    obtain ⟨⟨g, b₁⟩, rfl, heq⟩ := Option.map_eq_some_iff.mp (Option.some.inj h)
    cases heq
    have h₁ := ih (by simpa using hcontent)
      (by simp only [content_skipWhitespace, content_advance]; omega) helements
    have hoffset := h₁.offset
    refine ⟨by simpa using h₁.content, by simp [h₁.depth], ?_⟩
    dsimp only at hoffset ⊢
    omega

theorem elementsConsume_succ (ihvalue : ValueConsumes strtod value calls)
    (ih : ElementsConsume strtod value calls) : ElementsConsume strtod value (calls + 1) := by
  intro container b f b' hcontent hnext h
  have hskip := (le_offset_skipWhitespace (b.advance 1)).2 hnext
  rw [offset_advance] at hskip
  rw [readElements] at h
  split at h
  · cases h
  rename_i name b₁ hname
  obtain ⟨hcontent₁, hdepth₁, hoffset₁⟩ := readName_consumes value hname
  have hoffset₁ := hoffset₁ (by simpa using hcontent)
  simp only [content_skipWhitespace, content_advance, depth_skipWhitespace, depth_advance]
    at hcontent₁ hdepth₁
  obtain ⟨r, hvalue, h⟩ := Option.bind_eq_some_iff.mp h
  split at h
  · cases h
  rename_i l g b₂
  have h₂ := ihvalue (hcontent₁.trans hcontent) hvalue
  have hskip₂ := (le_offset_skipWhitespace b₂).1
  have hoffset₂ := h₂.offset
  dsimp only at h
  split at h
  · rename_i hcomma
    obtain ⟨rest, hrest, h⟩ := Option.bind_eq_some_iff.mp h
    obtain ⟨⟨g', b₃⟩, rfl, heq⟩ := Option.map_eq_some_iff.mp (Option.some.inj h)
    cases heq
    have hcontent₃ : b₂.skipWhitespace.content = value ++ [0] := by
      rw [content_skipWhitespace, h₂.content, hcontent₁, hcontent]
    have h₃ := ih hcontent₃ (peek_before_end hcontent₃ hcomma (by decide)) hrest
    have hoffset₃ := h₃.offset
    refine ⟨by rw [h₃.content, hcontent₃, hcontent], ?_, ?_⟩
    · rw [h₃.depth, depth_skipWhitespace, h₂.depth, hdepth₁]
    · dsimp only
      omega
  split at h
  · cases h
    exact ⟨by rw [content_skipWhitespace, h₂.content, hcontent₁], by
      rw [depth_skipWhitespace, h₂.depth, hdepth₁], by omega⟩
  · cases h

theorem reader_consumes (strtod : List UInt8 → Double × ℕ) (value : List UInt8) (calls : ℕ) :
    ValueConsumes strtod value calls ∧ ContainerConsumes strtod value calls ∧
      ElementsConsume strtod value calls := by
  induction calls with
  | zero =>
    refine ⟨?_, ?_, ?_⟩
    · intro b l f b' hcontent h
      cases h
    · intro container b l f b' hcontent h
      cases h
    · intro container b f b' hcontent hnext h
      cases h
  | succ calls ih =>
    exact ⟨valueConsumes_succ ih.2.1, containerConsumes_succ ih.2.2,
      elementsConsume_succ ih.1 ih.2.2⟩

theorem readContainer_name (h : readContainer strtod container calls b = some (some (l, f, b'))) :
    l.name = none := by
  cases calls with
  | zero => cases h
  | succ calls =>
    rw [readContainer] at h
    split at h
    · cases h
    dsimp only at h
    split at h
    · cases h
    split at h
    · cases h
    split at h
    · cases h
      rfl
    · obtain ⟨elements, -, h⟩ := Option.bind_eq_some_iff.mp h
      obtain ⟨⟨g, b₁⟩, rfl, heq⟩ := Option.map_eq_some_iff.mp (Option.some.inj h)
      cases heq
      rfl

/-- The name of a value comes before it. -/
theorem readValue_name (h : readValue strtod calls b = some (some (l, f, b'))) : l.name = none := by
  cases calls with
  | zero => cases h
  | succ calls =>
    rw [readValue] at h
    split at h
    · cases h
      rfl
    split at h
    · cases h
      rfl
    split at h
    · cases h
      rfl
    split at h
    · cases h
    split at h
    · obtain ⟨⟨string, b₁⟩, -, heq⟩ := Option.map_eq_some_iff.mp (Option.some.inj h)
      cases heq
      rfl
    split at h
    · have hnumber := Option.some.inj h
      simp only [readNumber] at hnumber
      split at hnumber
      · cases hnumber
      · cases hnumber
        rfl
    split at h
    · exact readContainer_name h
    split at h
    · exact readContainer_name h
    · cases h

end Consumption

section Totality

variable {strtod : List UInt8 → Double × ℕ} {value : List UInt8} {calls : ℕ}

/-- Three calls for every byte that is left are enough. -/
def ValueEnds (strtod : List UInt8 → Double × ℕ) (value : List UInt8) (calls : ℕ) : Prop :=
  ∀ {b}, b.content = value ++ [0] → 3 * (b.content.length - b.offset) + 1 ≤ calls →
    readValue strtod calls b ≠ none

def ContainerEnds (strtod : List UInt8 → Double × ℕ) (value : List UInt8) (calls : ℕ) : Prop :=
  ∀ {container b}, b.content = value ++ [0] → b.offset < b.content.length →
    3 * (b.content.length - b.offset) ≤ calls → readContainer strtod container calls b ≠ none

def ElementsEnd (strtod : List UInt8 → Double × ℕ) (value : List UInt8) (calls : ℕ) : Prop :=
  ∀ {container b}, b.content = value ++ [0] → b.offset + 1 < b.content.length →
    3 * (b.content.length - b.offset) ≤ calls + 1 →
    readElements strtod container calls b ≠ none

theorem valueEnds_succ (ih : ContainerEnds strtod value calls) :
    ValueEnds strtod value (calls + 1) := by
  intro b hcontent hcalls h
  rw [readValue] at h
  split at h
  · cases h
  split at h
  · cases h
  split at h
  · cases h
  split at h
  · cases h
  rename_i c hpeek
  have hlt := peek_lt hpeek
  split at h
  · cases h
  split at h
  · cases h
  split at h
  · exact ih hcontent hlt (by omega) h
  split at h
  · exact ih hcontent hlt (by omega) h
  · cases h

theorem containerEnds_succ (ih : ElementsEnd strtod value calls) :
    ContainerEnds strtod value (calls + 1) := by
  intro container b hcontent _ hcalls h
  rw [readContainer] at h
  split at h
  · cases h
  dsimp only at h
  split at h
  · cases h
  rename_i hopening
  have hlt := peek_before_end (b := { b with depth := b.depth + 1 }) hcontent
    (not_not.mp hopening) (by cases container <;> decide)
  have hskip := (le_offset_skipWhitespace (Buffer.advance { b with depth := b.depth + 1 } 1)).2 hlt
  rw [offset_advance, content_advance] at hskip
  dsimp only at hskip
  split at h
  · cases h
  split at h
  · cases h
  · cases helements : readElements strtod container calls { (Buffer.advance
        { b with depth := b.depth + 1 } 1).skipWhitespace with offset := (Buffer.advance
          { b with depth := b.depth + 1 } 1).skipWhitespace.offset - 1 } with
    | some elements =>
      rw [helements] at h
      cases h
    | none =>
      refine ih (by simpa using hcontent) ?_ ?_ helements
      · simp only [content_skipWhitespace, content_advance]
        omega
      · simp only [content_skipWhitespace, content_advance]
        omega

theorem elementsEnd_succ (ihvalue : ValueEnds strtod value calls)
    (ih : ElementsEnd strtod value calls) : ElementsEnd strtod value (calls + 1) := by
  intro container b hcontent hnext hcalls h
  have hskip := (le_offset_skipWhitespace (b.advance 1)).2 hnext
  rw [offset_advance] at hskip
  rw [readElements] at h
  split at h
  · cases h
  rename_i name b₁ hname
  obtain ⟨hcontent₁, -, hoffset₁⟩ := readName_consumes value hname
  have hoffset₁ := hoffset₁ (by simpa using hcontent)
  rw [content_skipWhitespace, content_advance] at hcontent₁
  cases hvalue : readValue strtod calls b₁ with
  | none => exact ihvalue (hcontent₁.trans hcontent) (by rw [hcontent₁]; omega) hvalue
  | some r =>
    rw [hvalue] at h
    cases r with
    | none => cases h
    | some r =>
      obtain ⟨l, g, b₂⟩ := r
      have h₂ := (reader_consumes strtod value calls).1 (hcontent₁.trans hcontent) hvalue
      have hskip₂ := (le_offset_skipWhitespace b₂).1
      have hoffset₂ := h₂.offset
      have hcontent₂ : b₂.skipWhitespace.content = b.content := by
        rw [content_skipWhitespace, h₂.content, hcontent₁]
      simp only [Option.bind_eq_bind, Option.bind_some] at h
      split at h
      · rename_i hcomma
        cases hrest : readElements strtod container calls b₂.skipWhitespace with
        | some rest =>
          rw [hrest] at h
          cases h
        | none =>
          refine ih (hcontent₂.trans hcontent)
            (peek_before_end (hcontent₂.trans hcontent) hcomma (by decide)) ?_ hrest
          rw [hcontent₂]
          omega
      split at h
      · cases h
      · cases h

theorem reader_ends (strtod : List UInt8 → Double × ℕ) (value : List UInt8) (calls : ℕ) :
    ValueEnds strtod value calls ∧ ContainerEnds strtod value calls ∧
      ElementsEnd strtod value calls := by
  induction calls with
  | zero =>
    refine ⟨?_, ?_, ?_⟩
    · intro b hcontent hcalls
      omega
    · intro container b hcontent hlt hcalls
      omega
    · intro container b hcontent hnext hcalls
      omega
  | succ calls ih =>
    exact ⟨valueEnds_succ ih.2.1, containerEnds_succ ih.2.2, elementsEnd_succ ih.1 ih.2.2⟩

/-- Where the reader starts in the buffer, it is the buffer of the text. -/
theorem content_start (value : List UInt8) :
    (Buffer.mk (value ++ [0]) 0 0).skipUtf8Bom.skipWhitespace.content = value ++ [0] := by
  rw [content_skipWhitespace, Buffer.skipUtf8Bom]
  split <;> rfl

/-- The reader comes to an end for every text. -/
theorem readDocument_ends (strtod : List UInt8 → Double × ℕ) (value : Text)
    (hcalls : 3 * value.1.length + 4 ≤ calls) : readDocument strtod calls value ≠ none := by
  refine (reader_ends strtod value.1 calls).1 (content_start value.1) ?_
  rw [content_start, List.length_append, List.length_singleton]
  omega

end Totality

end BoxUtils.CJson
