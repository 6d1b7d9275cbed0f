import BoxUtils.CJsonMinified

/-!
A document that was minified is read as before: its values, elements and members beside those
of the text.
-/
namespace BoxUtils.CJson

open CMemory MergePatch

section Runs

variable {content content' s : List UInt8} {depth calls : ℕ} {b m b' : Buffer} {x : UInt8}
variable {strtod : List UInt8 → Double × ℕ} {l : Label} {f : Forest Label}
variable {container : Container} {name : Option Text} {r : Content}

theorem startsWith_peek {word : List UInt8} (h : b.startsWith (x :: word) = true) :
    b.peek 0 = some x := by
  rw [Buffer.startsWith, decide_eq_true_eq, List.length_cons] at h
  rw [Buffer.peek, Nat.add_zero, ← List.head?_drop]
  cases hdrop : b.content.drop b.offset with
  | nil =>
    rw [hdrop] at h
    cases h
  | cons c rest =>
    rw [hdrop, List.take_succ_cons] at h
    rw [List.head_eq_of_cons_eq h, List.head?_cons]

/-- A value starts with a character that is not dropped, and with no byte order mark. -/
theorem readValue_starts (h : readValue strtod calls b = some (some r)) :
    ∃ x, b.peek 0 = some x ∧ x ∉ [0, 47] ∧ x < 128 := by
  cases calls with
  | zero => cases h
  | succ calls =>
    rw [readValue] at h
    split at h
    · exact ⟨110, startsWith_peek ‹_›, by decide⟩
    split at h
    · exact ⟨102, startsWith_peek ‹_›, by decide⟩
    split at h
    · exact ⟨116, startsWith_peek ‹_›, by decide⟩
    split at h
    · cases h
    rename_i c hpeek
    refine ⟨c, hpeek, ?_⟩
    split at h
    · rename_i hquote
      rw [hquote]
      decide
    split at h
    · rename_i hnumber
      obtain ⟨-, -, hlarge, hascii, -⟩ := number_start hnumber
      refine ⟨fun hc => ?_, hascii⟩
      simp only [List.mem_cons, List.not_mem_nil, or_false] at hc
      rcases hc with rfl | rfl
      · exact absurd hlarge (by decide)
      · exact absurd hnumber (by decide)
    split at h
    · rename_i harray
      rw [harray]
      decide
    split at h
    · rename_i hobject
      rw [hobject]
      decide
    · cases h

/-- A value is read from the minified text, if it can end where it does. -/
def ValueMinifies (strtod : List UInt8 → Double × ℕ) (content content' : List UInt8) (calls : ℕ) :
    Prop :=
  ∀ {depth s b m l f b'}, Beside content content' depth s b m →
    readValue strtod calls b = some (some (l, f, b')) → Stops b' →
    ∃ s' m', readValue strtod calls m = some (some (l, f, m')) ∧
      Beside content content' depth s' b' m'

def ContainerMinifies (strtod : List UInt8 → Double × ℕ) (content content' : List UInt8)
    (calls : ℕ) : Prop :=
  ∀ {container depth s b m l f b'}, Beside content content' depth s b m →
    readContainer strtod container calls b = some (some (l, f, b')) →
    ∃ s' m', readContainer strtod container calls m = some (some (l, f, m')) ∧
      Beside content content' depth s' b' m'

def ElementsMinify (strtod : List UInt8 → Double × ℕ) (content content' : List UInt8)
    (calls : ℕ) : Prop :=
  ∀ {container depth s b m f b'}, Beside content content' depth s (b.advance 1) (m.advance 1) →
    readElements strtod container calls b = some (some (f, b')) →
    ∃ s' m', readElements strtod container calls m = some (some (f, m')) ∧
      Beside content content' depth (container.closing :: s') b' m'

theorem valueMinifies_succ (hstrtod : ∀ v, (strtod v).2 ≤ v.length)
    (ih : ContainerMinifies strtod content content' calls) :
    ValueMinifies strtod content content' (calls + 1) := by
  intro depth s b m l f b' h hread hstops
  have hvalue := hread
  rw [readValue] at hread
  split at hread
  · obtain ⟨s', hright, hbehind⟩ := h.word (w := [110, 117, 108, 108]) (plain_of_all rfl) ‹_›
    cases hread
    exact ⟨s', _, readValue_null hright, hbehind⟩
  split at hread
  · obtain ⟨s', hright, hbehind⟩ := h.word (w := [102, 97, 108, 115, 101]) (plain_of_all rfl) ‹_›
    cases hread
    exact ⟨s', _, readValue_false hright, hbehind⟩
  split at hread
  · obtain ⟨s', hright, hbehind⟩ := h.word (w := [116, 114, 117, 101]) (plain_of_all rfl) ‹_›
    cases hread
    exact ⟨s', _, readValue_true hright, hbehind⟩
  split at hread
  · cases hread
  rename_i c hpeek
  -- the same branch is taken for the minified text
  have hsame : 32 < c ∧ c ≠ 47 → ∃ u, At m (content' ++ [0]) depth (c :: u) := by
    intro hc
    have hnul : c ≠ 0 := by
      rintro rfl
      exact absurd hc.1 (by decide)
    obtain ⟨r, rfl⟩ := h.cons hpeek hnul
    obtain ⟨w, hw⟩ := minified_head (s := r) hc.1 hc.2
    have hright := h.right
    rw [hw] at hright
    exact ⟨_, hright⟩
  split at hread
  · rename_i hquote
    obtain ⟨⟨string, b₁⟩, hstring, heq⟩ := Option.map_eq_some_iff.mp (Option.some.inj hread)
    cases heq
    obtain ⟨s', m', hm, hbehind⟩ := h.readString hstring
    obtain ⟨u, hu⟩ := hsame (by rw [hquote]; decide)
    refine ⟨s', m', ?_, hbehind⟩
    rw [readValue_head hu (by rw [hquote]; decide), if_pos hquote, hm]
    rfl
  rename_i hquote
  split at hread
  · rename_i hnumber
    obtain ⟨s', m', hm, hbehind⟩ := h.readNumber hstrtod (Option.some.inj hread) hstops
    obtain ⟨hother, -, hlarge, -⟩ := number_start hnumber
    have hslash : c ≠ 47 := by
      rintro rfl
      exact absurd hnumber (by decide)
    obtain ⟨u, hu⟩ := hsame ⟨hlarge, hslash⟩
    refine ⟨s', m', ?_, hbehind⟩
    rw [readValue_head hu hother, if_neg hquote, if_pos hnumber, hm]
  rename_i hnumber
  split at hread
  · rename_i harray
    obtain ⟨s', m', hm, hbehind⟩ := ih h hread
    obtain ⟨u, hu⟩ := hsame (by rw [harray]; decide)
    refine ⟨s', m', ?_, hbehind⟩
    rw [readValue_head hu (by rw [harray]; decide), if_neg hquote, if_neg hnumber, if_pos harray,
      hm]
  rename_i harray
  split at hread
  · rename_i hobject
    obtain ⟨s', m', hm, hbehind⟩ := ih h hread
    obtain ⟨u, hu⟩ := hsame (by rw [hobject]; decide)
    refine ⟨s', m', ?_, hbehind⟩
    rw [readValue_head hu (by rw [hobject]; decide), if_neg hquote, if_neg hnumber,
      if_neg harray, if_pos hobject, hm]
  · cases hread

/-- Skipping blanks once more changes nothing. -/
theorem peek_skip_skip (h : At b (content ++ [0]) depth (s ++ [0])) :
    b.skipWhitespace.skipWhitespace.peek 0 = b.skipWhitespace.peek 0 := by
  rcases h.skip_cases with ⟨-, hskip⟩ | ⟨x, s', -, hx, hskip⟩
  · rw [hskip.peek]
    rcases At.skip_cases (s := []) hskip with ⟨-, htwice⟩ | ⟨x, s', hnil, -⟩
    · rw [htwice.peek]
    · cases hnil
  · have htwice := hskip.skip (dropWhile_head hx _)
    rw [hskip.peek, htwice.peek]

theorem readString_starts {string : Text} (h : readString b = some (string, b')) :
    b.peek 0 = some quote := by
  unfold readString at h
  split at h
  · cases h
  rename_i literal hliteral
  unfold parseLiteral at hliteral
  dsimp only at hliteral
  split at hliteral
  · cases hliteral
  · exact not_not.mp ‹_›

theorem readElements_starts {r : Forest Label × Buffer}
    (h : readElements strtod container calls b = some (some r)) :
    ∃ x, (b.advance 1).skipWhitespace.peek 0 = some x ∧ x ∉ [0, 47] := by
  cases calls with
  | zero => cases h
  | succ calls =>
    rw [readElements] at h
    split at h
    · cases h
    rename_i name b₁ hname
    cases container with
    | array =>
      cases hname
      obtain ⟨r, hvalue, h⟩ := Option.bind_eq_some_iff.mp h
      cases r with
      | none => cases h
      | some r =>
        obtain ⟨x, hpeek, hx, -⟩ := readValue_starts hvalue
        exact ⟨x, hpeek, hx⟩
    | object =>
      simp only [readName] at hname
      split at hname
      · cases hname
      · exact ⟨quote, readString_starts ‹_›, by decide⟩

/-- The name of an element, with what comes before the value. -/
theorem Beside.readName (h : Beside content content' depth s (b.advance 1) (m.advance 1))
    (hname : readName container (b.advance 1).skipWhitespace = some (name, b'))
    (hpeek : b'.peek 0 = some x) (hx : x ∉ [0, 47]) :
    ∃ s' m', CJson.readName container (m.advance 1).skipWhitespace = some (name, m') ∧
      Beside content content' depth s' b' m' := by
  cases container with
  | array =>
    cases hname
    obtain ⟨s', -, hskip⟩ := h.skip hpeek hx
    exact ⟨_, _, rfl, hskip⟩
  | object =>
    simp only [CJson.readName] at hname ⊢
    split at hname
    · cases hname
    rename_i string b₁ hstring
    split at hname
    · cases hname
    rename_i hcolon
    cases hname
    obtain ⟨s₁, -, h₁⟩ := h.skip (readString_starts hstring) (by decide)
    obtain ⟨s₂, m₂, hstring', h₂⟩ := h₁.readString hstring
    obtain ⟨s₃, -, h₃⟩ := h₂.skip (not_not.mp hcolon) (by decide)
    have hcolon' : m₂.skipWhitespace.peek 0 = some 58 := h₃.peek_right (by decide) (by decide)
    obtain ⟨s₄, -, h₄⟩ := (h₃.advance (w := [58]) (plain_of_all rfl)).skip hpeek hx
    refine ⟨_, _, ?_, h₄⟩
    simp only [hstring', hcolon', ne_eq, not_true_eq_false, if_false]
    rfl

theorem closing_plain (container : Container) :
    Plain container.closing ∧ container.closing ∈ [0, 44, 93, 125] := by
  cases container <;> decide

theorem opening_plain (container : Container) : Plain container.opening := by
  cases container <;> decide

theorem elementsMinify_succ (ihvalue : ValueMinifies strtod content content' calls)
    (ih : ElementsMinify strtod content content' calls) :
    ElementsMinify strtod content content' (calls + 1) := by
  intro container depth s b m f b' h hread
  rw [readElements] at hread
  split at hread
  · cases hread
  rename_i name b₁ hname
  obtain ⟨r, hvalue, hread⟩ := Option.bind_eq_some_iff.mp hread
  split at hread
  · cases hread
  rename_i l g b₂
  obtain ⟨x, hpeek, hx, -⟩ := readValue_starts hvalue
  obtain ⟨s₁, m₁, hname', h₁⟩ := h.readName hname hpeek hx
  have hstops : b₂.skipWhitespace.peek 0 = some 44 ∨
      b₂.skipWhitespace.peek 0 = some container.closing := by
    by_contra hno
    rw [not_or] at hno
    simp only [if_neg hno.1, if_neg hno.2] at hread
    cases hread
  obtain ⟨s₂, m₂, hvalue', h₂⟩ := ihvalue h₁ hvalue (by
    rcases hstops with hcomma | hclosing
    · exact ⟨44, by decide, hcomma⟩
    · exact ⟨_, (closing_plain container).2, hclosing⟩)
  rw [readElements, hname']
  simp only [hvalue', Option.bind_eq_bind, Option.bind_some]
  dsimp only at hread
  split at hread
  · rename_i hcomma
    obtain ⟨rest, hrest, hread⟩ := Option.bind_eq_some_iff.mp hread
    obtain ⟨⟨g', b₃⟩, rfl, heq⟩ := Option.map_eq_some_iff.mp (Option.some.inj hread)
    cases heq
    obtain ⟨s₃, -, h₃⟩ := h₂.skip hcomma (by decide)
    have hcomma' : m₂.skipWhitespace.peek 0 = some 44 := h₃.peek_right (by decide) (by decide)
    obtain ⟨s₄, m₄, hrest', h₄⟩ := ih (h₃.advance (w := [44]) (plain_of_all rfl)) hrest
    refine ⟨s₄, m₄, ?_, h₄⟩
    rw [if_pos hcomma', hrest']
    rfl
  rename_i hcomma
  split at hread
  · rename_i hclosing
    cases hread
    have hplain := (closing_plain container).1
    obtain ⟨s₃, -, h₃⟩ := h₂.skip hclosing (by cases container <;> decide)
    have hclosing' : m₂.skipWhitespace.peek 0 = some container.closing :=
      h₃.peek_right hplain.1 hplain.2.1
    refine ⟨s₃, _, ?_, h₃⟩
    rw [if_neg (by rw [hclosing']; rw [hclosing] at hcomma; exact hcomma), if_pos hclosing']
  · cases hread

/-- The closing bracket ends a container. -/
theorem Beside.closed (h : Beside content content' (depth + 1) (x :: s) b m) (hx : Plain x) :
    Beside content content' depth s { b with depth := b.depth - 1, offset := b.offset + 1 }
      { m with depth := m.depth - 1, offset := m.offset + 1 } := by
  have hbehind := h.advance (w := [x]) (by simpa using hx)
  exact ⟨⟨hbehind.left.content, congrArg (· - 1) hbehind.left.depth, hbehind.left.rest⟩,
    ⟨hbehind.right.content, congrArg (· - 1) hbehind.right.depth, hbehind.right.rest⟩,
    hbehind.tidy⟩

theorem containerMinifies_succ (ih : ElementsMinify strtod content content' calls) :
    ContainerMinifies strtod content content' (calls + 1) := by
  intro container depth s b m l f b' h hread
  rw [readContainer] at hread
  split at hread
  · cases hread
  rename_i hlimit
  dsimp only at hread
  split at hread
  · cases hread
  rename_i hopening
  have hlimit' : ¬ nestingLimit ≤ m.depth := by rwa [h.right.depth, ← h.left.depth]
  set b₀ : Buffer := { b with depth := b.depth + 1 } with hb₀
  set m₀ : Buffer := { m with depth := m.depth + 1 } with hm₀
  have h₀ : Beside content content' (depth + 1) s b₀ m₀ :=
    ⟨⟨h.left.content, congrArg (· + 1) h.left.depth, h.left.rest⟩,
      ⟨h.right.content, congrArg (· + 1) h.right.depth, h.right.rest⟩, h.tidy⟩
  have hplain := opening_plain container
  obtain ⟨s, rfl⟩ := h₀.cons (not_not.mp hopening) (by cases container <;> decide)
  have hopening' : m₀.peek 0 = some container.opening := h₀.peek_right hplain.1 hplain.2.1
  have h₁ := h₀.advance (w := [container.opening]) (by simpa using hplain)
  rw [List.length_singleton] at h₁
  rw [readContainer, if_neg hlimit']
  dsimp only
  rw [← hm₀, if_neg (not_not.mpr hopening')]
  split at hread
  · cases hread
  rename_i c hpeek
  split at hread
  · rename_i hclosing
    subst c
    cases hread
    have hclosing := (closing_plain container).1
    obtain ⟨s₂, -, h₂⟩ := h₁.skip hpeek (by cases container <;> decide)
    have hpeek' := h₂.peek_right hclosing.1 hclosing.2.1
    refine ⟨s₂, _, ?_, h₂.closed hclosing⟩
    simp only [hpeek', if_true]
    rfl
  rename_i hclosing
  obtain ⟨elements, helements, hread⟩ := Option.bind_eq_some_iff.mp hread
  obtain ⟨⟨g, b₂⟩, rfl, heq⟩ := Option.map_eq_some_iff.mp (Option.some.inj hread)
  cases heq
  -- the first element is looked at once more
  have hb := h₁.left.skip_pos
  have hm := h₁.right.skip_pos
  obtain ⟨x, hstart, hx⟩ := readElements_starts helements
  rw [back_advance hb, peek_skip_skip h₁.left, hpeek] at hstart
  obtain rfl := Option.some.inj hstart
  obtain ⟨s₂, hlarge, h₂⟩ := h₁.skip hpeek hx
  have hpeek' : (m₀.advance 1).skipWhitespace.peek 0 = some c :=
    h₂.peek_right hlarge fun hslash => hx (by simp [hslash])
  have hback : Beside content content' (depth + 1) (c :: s₂)
      (Buffer.advance { (b₀.advance 1).skipWhitespace with
        offset := (b₀.advance 1).skipWhitespace.offset - 1 } 1)
      (Buffer.advance { (m₀.advance 1).skipWhitespace with
        offset := (m₀.advance 1).skipWhitespace.offset - 1 } 1) := by
    rwa [back_advance hb, back_advance hm]
  obtain ⟨s₃, m₃, helements', h₃⟩ := ih hback helements
  refine ⟨s₃, _, ?_, h₃.closed (closing_plain container).1⟩
  simp only [hpeek', if_neg hclosing, helements', Option.bind_eq_bind, Option.bind_some]
  rfl

theorem reader_minifies (hstrtod : ∀ v, (strtod v).2 ≤ v.length) (content content' : List UInt8)
    (calls : ℕ) :
    ValueMinifies strtod content content' calls ∧ ContainerMinifies strtod content content' calls ∧
      ElementsMinify strtod content content' calls := by
  induction calls with
  | zero =>
    refine ⟨?_, ?_, ?_⟩
    · intro depth s b m l f b' h hread
      cases hread
    · intro container depth s b m l f b' h hread
      cases hread
    · intro container depth s b m f b' h hread
      cases hread
  | succ calls ih =>
    exact ⟨valueMinifies_succ hstrtod ih.2.1, containerMinifies_succ ih.2.2,
      elementsMinify_succ ih.1 ih.2.2⟩

end Runs

section Documents

variable {strtod : List UInt8 → Double × ℕ} {calls turns : ℕ} {b m : Buffer} {l : Label}
variable {f : Forest Label} {t t' : Text} {content content' s : List UInt8} {depth : ℕ}
variable {r : Content}

/-- Blanks are all that comes before the NUL. -/
def AtEnd (b : Buffer) : Prop := b.skipWhitespace.peek 0 = some 0

theorem Beside.atEnd (h : Beside content content' depth s b m) (hend : AtEnd b) : AtEnd m := by
  rcases h.left.skip_cases with ⟨hs, -⟩ | ⟨x, s', -, hx, hskip⟩
  · obtain ⟨u, hu, hminified⟩ := minified_blanks s
    rw [hs, minified, List.append_nil] at hminified
    rcases h.right.skip_cases with ⟨-, hskip⟩ | ⟨x, s', hs', -, -⟩
    · exact hskip.peek 0
    · rw [hminified, List.dropWhile_eq_nil_iff.mpr hu] at hs'
      cases hs'
  · obtain rfl : x = 0 := Option.some.inj ((hskip.peek 0).symm.trans hend)
    cases hx

/-- A byte order mark stays where it is. -/
theorem Beside.start (h : Beside content content' depth s b m)
    (hread : readValue strtod calls b.skipUtf8Bom.skipWhitespace = some (some r)) :
    ∃ s', Beside content content' depth s' b.skipUtf8Bom.skipWhitespace
      m.skipUtf8Bom.skipWhitespace := by
  obtain ⟨x, hpeek, hx, hascii⟩ := readValue_starts hread
  have hnul : x ≠ 0 := fun h => hx (by simp [h])
  by_cases hbom : b.peek 4 ≠ none ∧ b.startsWith [0xEF, 0xBB, 0xBF] = true
  · have hleft : b.skipUtf8Bom = b.advance 3 := by rw [Buffer.skipUtf8Bom, if_pos hbom]
    rw [hleft] at hpeek ⊢
    obtain ⟨s₁, hright, h₁⟩ := h.word (w := [0xEF, 0xBB, 0xBF]) (plain_of_all rfl) hbom.2
    obtain ⟨s₂, hlarge, h₂⟩ := h₁.skip hpeek hx
    have hsome : minified s₁ ≠ [] := by
      intro hnil
      have hempty := h₁.right
      rw [hnil] at hempty
      have hpeek' := h₂.peek_right hlarge fun hslash => hx (by simp [hslash])
      rcases At.skip_cases (s := []) hempty with ⟨-, hskip⟩ | ⟨y, s', hs', -⟩
      · exact hnul (Option.some.inj (hpeek'.symm.trans (hskip.peek 0)))
      · cases hs'
    have hbom' : m.peek 4 ≠ none ∧ m.startsWith [0xEF, 0xBB, 0xBF] = true := by
      refine ⟨?_, ?_⟩
      · rw [hright.peek]
        cases hs₁ : minified s₁ with
        | nil => exact absurd hs₁ hsome
        | cons y u =>
          cases u <;> exact Option.some_ne_none _
      · rw [hright.startsWith]
        rfl
    refine ⟨x :: s₂, ?_⟩
    rw [Buffer.skipUtf8Bom, if_pos hbom']
    exact h₂
  · have hleft : b.skipUtf8Bom = b := by rw [Buffer.skipUtf8Bom, if_neg hbom]
    rw [hleft] at hpeek ⊢
    obtain ⟨s₁, hlarge, h₁⟩ := h.skip hpeek hx
    have hpeek' := h₁.peek_right hlarge fun hslash => hx (by simp [hslash])
    have hbom' : ¬ (m.peek 4 ≠ none ∧ m.startsWith [0xEF, 0xBB, 0xBF] = true) := by
      rintro ⟨-, hstarts⟩
      have hmark := startsWith_peek hstarts
      rw [h.right.peek] at hmark
      cases hs : minified s with
      | nil =>
        rw [hs] at hmark
        cases hmark
      | cons y u =>
        have hright := h.right
        rw [hs] at hmark hright
        obtain rfl := Option.some.inj hmark
        have hskip := hright.skip (dropWhile_head (by decide) _)
        obtain rfl := Option.some.inj (hpeek'.symm.trans (hskip.peek 0))
        exact absurd hascii (by decide)
    refine ⟨x :: s₁, ?_⟩
    rw [Buffer.skipUtf8Bom, if_neg hbom']
    exact h₁

/-- The minified text says what the text said. -/
theorem readDocument_minified (hstrtod : ∀ v, (strtod v).2 ≤ v.length)
    (ht' : t'.1 = minified t.1) (htidy : tidy t.1 = true)
    (hread : readDocument strtod calls t = some (some (l, f, b))) (hend : AtEnd b) :
    ∃ m, readDocument strtod calls t' = some (some (l, f, m)) ∧ AtEnd m := by
  have hstart : Beside t.1 t'.1 0 t.1 (Buffer.mk (t.1 ++ [0]) 0 0) (Buffer.mk (t'.1 ++ [0]) 0 0) :=
    ⟨⟨rfl, rfl, rfl⟩, ⟨rfl, rfl, by rw [ht']; rfl⟩, htidy⟩
  obtain ⟨s, h⟩ := hstart.start hread
  obtain ⟨s', m, hm, h'⟩ := (reader_minifies hstrtod t.1 t'.1 calls).1 h hread
    ⟨0, by decide, hend⟩
  exact ⟨m, hm, h'.atEnd hend⟩

/-- Minifying a document where it lies keeps what the parser makes of it, unless one of its
strings ends with an escaped backslash. -/
theorem minify_parse (hstrtod : ∀ v, (strtod v).2 ≤ v.length) (M : Memory) (p : Pointer)
    (ht : text M p = some t.1) (hturns : t.1.length < turns) (htidy : tidy t.1 = true)
    (hread : readDocument strtod calls t = some (some (l, f, b))) (hend : AtEnd b) :
    ∃ M' t', minify turns M (some p) = some M' ∧ text M' p = some t'.1 ∧
      t'.1.length ≤ t.1.length ∧ ∀ H, ∃ m, AtEnd m ∧
        ParsesDocument H (some (l, f, b)) (parse strtod calls H t) ∧
        ParsesDocument H (some (l, f, m)) (parse strtod calls H t') := by
  obtain ⟨M', hminify, htext, -⟩ := minify_text M p ht hturns
  have hsublist := minified_sublist t.1
  have hnul : 0 ∉ minified t.1 := fun hmem => t.2 (hsublist.subset hmem)
  have hsame : (⟨minified t.1, hnul⟩ : Text).1 = minified t.1 := rfl
  obtain ⟨m, hm, hend'⟩ := readDocument_minified hstrtod hsame htidy hread hend
  refine ⟨M', ⟨minified t.1, hnul⟩, hminify, htext, hsublist.length_le, fun H => ?_⟩
  exact ⟨m, hend', parse_of_read hread, parse_of_read hm⟩

/-- The text ` [5 ]`. -/
theorem minify_parse_five :
    ∃ M' t', minify 6 (Heap.empty.alloc ⟨true, [32, 91, 53, 32, 93, 0].map some⟩) (some ⟨0, 0⟩) =
        some M' ∧ text M' ⟨0, 0⟩ = some t'.1 ∧ t'.1.length ≤ 5 ∧ ∀ H, ∃ m, AtEnd m ∧
          ParsesDocument H (some (leaf cJSONArray, .node
              { leaf cJSONNumber with valuedouble := .finite 5, valueint := 5 } .nil .nil,
              ⟨[32, 91, 53, 32, 93, 0], 5, 0⟩))
            (parse (fun v => (.finite 5, min 1 v.length)) 19 H ⟨[32, 91, 53, 32, 93], by decide⟩) ∧
          ParsesDocument H (some (leaf cJSONArray, .node
              { leaf cJSONNumber with valuedouble := .finite 5, valueint := 5 } .nil .nil, m))
            (parse (fun v => (.finite 5, min 1 v.length)) 19 H t') := by
  have hread : readDocument (fun v => (.finite 5, min 1 v.length)) 19
      ⟨[32, 91, 53, 32, 93], by decide⟩ = some (some (leaf cJSONArray,
        .node { leaf cJSONNumber with valuedouble := .finite 5, valueint := 5 } .nil .nil,
        ⟨[32, 91, 53, 32, 93, 0], 5, 0⟩)) := by
    decide
  have hend : AtEnd ⟨[32, 91, 53, 32, 93, 0], 5, 0⟩ := by rfl
  exact minify_parse (fun v => Nat.min_le_right 1 v.length) _ _ rfl (by decide) (by decide)
    hread hend

end Documents

end BoxUtils.CJson
