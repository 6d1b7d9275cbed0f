import BoxUtils.CJsonPrintCalls
import BoxUtils.CJsonReadBack

/-!
Round trips between documents and their texts. What was printed is parsed as the document
that was printed and is printed in the same way again; a document that was parsed comes
through printing and parsing as it was.
-/
namespace BoxUtils.CJson

open CMemory LinkedShapes MergePatch

variable {stdio : Stdio} {strtod : List UInt8 → Double × ℕ} {format : Bool} {calls : ℕ}
variable {b : Buffer} {content w : List UInt8} {depth indent : ℕ} {container : Container}
variable {l : Label} {f c : Forest Label} {value : Text}

section Printed

/-- The text of a document is read as the document that was printed. -/
theorem readDocument_text (hreadable : Readable stdio strtod l)
    (hbelow : c.Everywhere fun l _ => Readable stdio strtod l)
    (hnesting : nesting (.node l c .nil) ≤ nestingLimit)
    (htext : documentText stdio format l c = some value.1)
    (hcalls : 3 * value.1.length + 4 ≤ calls) :
    ∃ b', readDocument strtod calls value = some (some (printedLabel l none,
      printedBelow l fun inner => printedElements inner c, b')) := by
  obtain ⟨r, hread⟩ := Option.ne_none_iff_exists'.mp (readDocument_ends strtod value hcalls)
  obtain ⟨x, u, hvalue, hblank, hascii, -⟩ := valueText_head htext hreadable
  have hnul : numeric 0 = false := rfl
  have hstart : At (Buffer.mk (value.1 ++ [0]) 0 0) (value.1 ++ [0]) 0 (value.1 ++ [0]) :=
    ⟨rfl, rfl, rfl⟩
  have hbom : (Buffer.mk (value.1 ++ [0]) 0 0).startsWith [0xEF, 0xBB, 0xBF] = false := by
    rw [hvalue] at hstart ⊢
    refine hstart.startsWith_head ?_
    rintro rfl
    exact absurd hascii (by decide)
  have hskip : (Buffer.mk (value.1 ++ [0]) 0 0).skipUtf8Bom = Buffer.mk (value.1 ++ [0]) 0 0 := by
    rw [Buffer.skipUtf8Bom, hbom, if_neg (by simp)]
  have h : At (Buffer.mk (value.1 ++ [0]) 0 0).skipUtf8Bom.skipWhitespace (value.1 ++ [0]) 0
      (value.1 ++ [0]) := by
    have hcons : value.1 ++ [0] = x :: (u ++ [0]) := by rw [hvalue, List.cons_append]
    have hhead := hstart.skip (by rw [hcons]; exact dropWhile_head hblank _)
    rwa [← hcons, ← hskip] at hhead
  have hrest : ∀ y ∈ ([0] : List UInt8).head?, numeric y = false := by
    rintro y ⟨⟩
    exact hnul
  obtain ⟨b', rfl, -⟩ := value_text (elementsRead c hbelow) hreadable hbelow htext h hrest
    (by omega) hread
  exact ⟨b', hread⟩

theorem numbersFit_readable (h : f.Everywhere fun l _ => Readable stdio strtod l) :
    NumbersFit stdio f := by
  refine h.mono fun l _ hl hkind => ?_
  have hlength : (numberString stdio l.valuedouble).length + 1 ≤ 26 := by
    cases hvalue : l.valuedouble with
    | finite value =>
      obtain ⟨p, hp, hform, -⟩ := (hl.2 hkind value hvalue).number
      have := (hl.2 hkind value hvalue).length p hp
      rw [hform]
      omega
    | nan => simp [numberString]
    | infinite negative => simp [numberString]
  rw [numberBuffer, if_pos hlength]
  exact Option.some_ne_none _

/-- A value that was read back has the text of the one that was printed. -/
theorem valueText_printed (hraw : l.kind ≠ cJSONRaw) (name : Option Text)
    {elements elements' : Container → Option (List UInt8)}
    (hel : ∀ container : Container, l.kind = container.type →
      elements' container = elements container) :
    valueText stdio format indent (printedLabel l name) elements' =
      valueText stdio format indent l elements := by
  by_cases hnumber : l.kind = cJSONNumber
  case pos =>
    rw [printedLabel, if_pos hnumber]
    simp only [valueText, hnumber]
    cases l.valuedouble <;> rfl
  by_cases hstring : l.kind = cJSONString
  case pos =>
    rw [printedLabel, if_neg hnumber, if_pos hstring]
    simp only [valueText, hstring]
    cases l.valuestring <;> rfl
  have hkind : (printedLabel l name).kind = l.kind := by
    rw [printedLabel, if_neg hnumber, if_neg hstring]
    split
    · exact Eq.symm ‹_›
    · rfl
  have hcontainer : ∀ container : Container, l.kind = container.type →
      containerText format container indent (elements' container) =
        containerText format container indent (elements container) :=
    fun container h => by rw [hel container h]
  simp only [valueText, hkind, if_neg hraw, if_neg hnumber, if_neg hstring]
  split
  · rfl
  split
  · rfl
  split
  · rfl
  split
  · exact hcontainer .array ‹_›
  split
  · exact hcontainer .object ‹_›
  · rfl

theorem elementsText_printed (hraw : f.Everywhere fun l _ => l.kind ≠ cJSONRaw)
    (container : Container) (indent : ℕ) :
    elementsText stdio format container indent (printedElements container f) =
      elementsText stdio format container indent f := by
  induction f generalizing container indent with
  | nil => rfl
  | node l c n ihc ihn =>
    have hbefore : container.before format indent (container.printedName l.name) =
        container.before format indent l.name := by
      cases container with
      | array => rfl
      | object => cases hname : l.name <;> rfl
    have hlast : isLast (printedElements container n) = isLast n := by cases n <;> rfl
    have hname : (printedLabel l (container.printedName l.name)).name =
        container.printedName l.name := by
      rw [← rename_printedLabel]
      rfl
    simp only [printedElements, elementsText, hname, hbefore, hlast, ihn hraw.2.2]
    rw [valueText_printed hraw.1]
    intro inner hkind
    rw [printedBelow, hkind]
    cases inner <;> exact ihc hraw.2.1 _ _

/-- Printing what was read back gives the same text, in either form. -/
theorem documentText_printed (hraw : l.kind ≠ cJSONRaw)
    (hbelow : c.Everywhere fun l _ => l.kind ≠ cJSONRaw) (format : Bool) :
    documentText stdio format (printedLabel l none)
        (printedBelow l fun inner => printedElements inner c) =
      documentText stdio format l c := by
  refine valueText_printed hraw none fun inner hkind => ?_
  rw [printedBelow, hkind]
  cases inner <;> exact elementsText_printed hbelow _ _

end Printed

section Accepted

/-- The labels of the values that there are, apart from their names. -/
def OfValue (l : Label) : Prop :=
  (l.kind ∈ [cJSONNull, cJSONFalse, cJSONArray, cJSONObject] ∧
      l = (leaf l.kind).rename l.name) ∨
    l = { leaf cJSONTrue with valueint := 1, name := l.name } ∨
    (∃ d : Double, l =
      { leaf cJSONNumber with valuedouble := d, valueint := d.toInt, name := l.name }) ∨
    ∃ s, l = { leaf cJSONString with valuestring := some s, name := l.name }

/-- Members have names and elements have none; there is something below the containers
only. -/
def WellFormed (container : Container) : Forest Label → Prop
  | .nil => True
  | .node l c n => OfValue l ∧ (l.name.isSome ↔ container = .object) ∧
      (∀ inner : Container, l.kind = inner.type → WellFormed inner c) ∧
      ((∀ inner : Container, l.kind ≠ inner.type) → c = .nil) ∧ WellFormed container n

/-- The same for a whole document. -/
structure Accepted (l : Label) (f : Forest Label) : Prop where
  value : OfValue l
  name : l.name = none
  below : ∀ inner : Container, l.kind = inner.type → WellFormed inner f
  leaf : (∀ inner : Container, l.kind ≠ inner.type) → f = .nil

/-- Numbers that did not overflow. -/
def Finite (l : Label) : Prop :=
  l.kind = cJSONNumber → ∃ value, l.valuedouble = .finite value

theorem kind_ofValue (h : OfValue l) :
    l.kind ∈ [cJSONNull, cJSONFalse, cJSONTrue, cJSONNumber, cJSONString, cJSONArray,
      cJSONObject] := by
  rcases h with ⟨hkind, -⟩ | h | ⟨d, h⟩ | ⟨s, h⟩
  · revert hkind
    simp only [List.mem_cons, List.not_mem_nil, or_false]
    tauto
  · rw [h]
    simp [leaf]
  · rw [h]
    simp [leaf]
  · rw [h]
    simp [leaf]

/-- A value that is finite is printed as it is. -/
theorem printedLabel_ofValue (h : OfValue l) (hfinite : Finite l) :
    printedLabel l l.name = l := by
  rcases h with ⟨hkind, h⟩ | h | ⟨d, h⟩ | ⟨s, h⟩
  · rw [printedLabel_leaf rfl, ← h]
    revert hkind
    generalize l.kind = k
    simp only [List.mem_cons, List.not_mem_nil, or_false]
    rintro (rfl | rfl | rfl | rfl) <;> decide
  · rw [h]
    rfl
  · obtain ⟨value, hvalue⟩ := hfinite (by rw [h]; rfl)
    have hd : d = .finite value := by
      rw [← hvalue]
      exact (congrArg Label.valuedouble h).symm
    rw [h, hd]
    rfl
  · rw [h]
    rfl

theorem printedBelow_eq
    (hbelow : ∀ inner : Container, l.kind = inner.type → printedElements inner c = c)
    (hleaf : (∀ inner : Container, l.kind ≠ inner.type) → c = .nil) :
    printedBelow l (fun inner => printedElements inner c) = c := by
  unfold printedBelow
  split
  · exact hbelow .array ‹_›
  split
  · exact hbelow .object ‹_›
  · refine (hleaf fun inner => ?_).symm
    cases inner <;> assumption

theorem printedElements_wellFormed (h : WellFormed container f)
    (hfinite : f.Everywhere fun l _ => Finite l) : printedElements container f = f := by
  induction f generalizing container with
  | nil => rfl
  | node l c n ihc ihn =>
    obtain ⟨hvalue, hname, hbelow, hleaf, hn⟩ := h
    have hprinted : container.printedName l.name = l.name := by
      cases container with
      | array =>
        cases hl : l.name with
        | none => rfl
        | some name => exact absurd (hname.mp (by rw [hl]; rfl)) (by decide)
      | object =>
        obtain ⟨name, hl⟩ := Option.isSome_iff_exists.mp (hname.mpr rfl)
        rw [hl]
        rfl
    have hprintedBelow := printedBelow_eq (fun inner h => ihc (hbelow inner h) hfinite.2.1) hleaf
    rw [printedElements, hprinted, printedLabel_ofValue hvalue hfinite.1, ihn hn hfinite.2.2,
      hprintedBelow]

/-- There are no raw values. -/
theorem raw_ofValue (h : OfValue l) : l.kind ≠ cJSONRaw := by
  intro hraw
  have hkind := kind_ofValue h
  rw [hraw] at hkind
  revert hkind
  decide

theorem everywhere_below {P : Label → Forest Label → Prop}
    (hbelow : ∀ inner : Container, l.kind = inner.type → c.Everywhere P)
    (hleaf : (∀ inner : Container, l.kind ≠ inner.type) → c = .nil) : c.Everywhere P := by
  by_cases hkind : ∃ inner : Container, l.kind = inner.type
  · obtain ⟨inner, hkind⟩ := hkind
    exact hbelow inner hkind
  · rw [hleaf fun inner h => hkind ⟨inner, h⟩]
    trivial

theorem raw_wellFormed (h : WellFormed container f) :
    f.Everywhere fun l _ => l.kind ≠ cJSONRaw := by
  induction f generalizing container with
  | nil => trivial
  | node l c n ihc ihn =>
    obtain ⟨hvalue, -, hbelow, hleaf, hn⟩ := h
    exact ⟨raw_ofValue hvalue, everywhere_below (fun inner hkind => ihc (hbelow inner hkind)) hleaf,
      ihn hn⟩

theorem Accepted.raw (h : Accepted l f) :
    (Forest.node l f .nil).Everywhere fun l _ => l.kind ≠ cJSONRaw :=
  ⟨raw_ofValue h.value, everywhere_below (fun inner hkind => raw_wellFormed (h.below inner hkind))
    h.leaf, trivial⟩

/-- The invariants of the reader, for values, containers and the elements from one on. -/
def ValueAccepted (strtod : List UInt8 → Double × ℕ) (value : List UInt8) (calls : ℕ) : Prop :=
  ∀ {b l f b'}, b.content = value ++ [0] → b.depth ≤ nestingLimit →
    readValue strtod calls b = some (some (l, f, b')) →
    Accepted l f ∧ b.depth + nesting (.node l f .nil) ≤ nestingLimit

def ContainerAccepted (strtod : List UInt8 → Double × ℕ) (value : List UInt8) (calls : ℕ) :
    Prop :=
  ∀ {container b l f b'}, b.content = value ++ [0] →
    readContainer strtod container calls b = some (some (l, f, b')) →
    l = leaf container.type ∧ WellFormed container f ∧ b.depth + (nesting f + 1) ≤ nestingLimit

def ElementsAccepted (strtod : List UInt8 → Double × ℕ) (value : List UInt8) (calls : ℕ) : Prop :=
  ∀ {container b f b'}, b.content = value ++ [0] → b.depth ≤ nestingLimit →
    readElements strtod container calls b = some (some (f, b')) →
    WellFormed container f ∧ b.depth + nesting f ≤ nestingLimit

theorem accepted_leaf (hvalue : OfValue l) (hname : l.name = none)
    (hkind : l.kind ∉ [cJSONArray, cJSONObject]) (hdepth : depth ≤ nestingLimit) :
    Accepted l .nil ∧ depth + nesting (.node l .nil .nil) ≤ nestingLimit := by
  simp only [List.mem_cons, List.not_mem_nil, or_false, not_or] at hkind
  refine ⟨⟨hvalue, hname, fun inner h => ?_, fun _ => rfl⟩, ?_⟩
  · cases inner with
    | array => exact absurd h hkind.1
    | object => exact absurd h hkind.2
  · simpa [nesting, hkind] using hdepth

theorem accepted_container (hf : WellFormed container f)
    (hdepth : depth + (nesting f + 1) ≤ nestingLimit) :
    Accepted (leaf container.type) f ∧
      depth + nesting (.node (leaf container.type) f .nil) ≤ nestingLimit := by
  refine ⟨⟨?_, rfl, fun inner h => ?_, fun h => absurd rfl (h container)⟩, ?_⟩
  · exact Or.inl ⟨by cases container <;> decide, rfl⟩
  · have hinner : inner = container := by
      revert h
      cases inner <;> cases container <;> decide
    exact hinner ▸ hf
  · have hnesting : nesting (.node (leaf container.type) f .nil) = nesting f + 1 := by
      cases container <;> rfl
    rwa [hnesting]

theorem valueAccepted_succ {value : List UInt8} (ih : ContainerAccepted strtod value calls) :
    ValueAccepted strtod value (calls + 1) := by
  intro b l f b' hcontent hdepth h
  have hcontainer : ∀ {container},
      readContainer strtod container calls b = some (some (l, f, b')) →
        Accepted l f ∧ b.depth + nesting (.node l f .nil) ≤ nestingLimit := by
    intro container h
    obtain ⟨rfl, hf, hlimit⟩ := ih hcontent h
    exact accepted_container hf hlimit
  rw [readValue] at h
  split at h
  · cases h
    exact accepted_leaf (Or.inl ⟨by decide, rfl⟩) rfl (by decide) hdepth
  split at h
  · cases h
    exact accepted_leaf (Or.inl ⟨by decide, rfl⟩) rfl (by decide) hdepth
  split at h
  · cases h
    exact accepted_leaf (Or.inr (Or.inl rfl)) rfl (by decide) hdepth
  split at h
  · cases h
  split at h
  · obtain ⟨⟨string, b₁⟩, -, heq⟩ := Option.map_eq_some_iff.mp (Option.some.inj h)
    cases heq
    exact accepted_leaf (Or.inr (Or.inr (Or.inr ⟨string, rfl⟩))) rfl (by simp [leaf]; decide) hdepth
  split at h
  · have hnumber := Option.some.inj h
    simp only [readNumber] at hnumber
    split at hnumber
    · cases hnumber
    · cases hnumber
      exact accepted_leaf (Or.inr (Or.inr (Or.inl ⟨_, rfl⟩))) rfl (by simp [leaf]; decide) hdepth
  split at h
  · exact hcontainer h
  split at h
  · exact hcontainer h
  · cases h

theorem containerAccepted_succ {value : List UInt8} (ih : ElementsAccepted strtod value calls) :
    ContainerAccepted strtod value (calls + 1) := by
  intro container b l f b' hcontent h
  rw [readContainer] at h
  split at h
  · cases h
  rename_i hdepth
  dsimp only at h
  split at h
  · cases h
  split at h
  · cases h
  split at h
  · cases h
    refine ⟨rfl, trivial, ?_⟩
    show b.depth + (0 + 1) ≤ nestingLimit
    omega
  · obtain ⟨elements, helements, h⟩ := Option.bind_eq_some_iff.mp h
    obtain ⟨⟨g, b₁⟩, rfl, heq⟩ := Option.map_eq_some_iff.mp (Option.some.inj h)
    cases heq
    obtain ⟨hf, hlimit⟩ := ih (by simpa using hcontent)
      (by simp only [depth_skipWhitespace, depth_advance]; omega) helements
    simp only [depth_skipWhitespace, depth_advance] at hlimit
    refine ⟨rfl, hf, ?_⟩
    dsimp only
    omega

theorem readName_named {b b' : Buffer} {name : Option Text}
    (h : readName container b = some (name, b')) : name.isSome ↔ container = .object := by
  cases container with
  | array =>
    obtain ⟨rfl, -⟩ := Prod.mk.inj (Option.some.inj h)
    decide
  | object =>
    rw [readName] at h
    split at h
    · cases h
    dsimp only at h
    split at h
    · cases h
    · obtain ⟨rfl, -⟩ := Prod.mk.inj (Option.some.inj h)
      simp

theorem ofValue_rename (h : OfValue l) (name : Option Text) : OfValue (l.rename name) := by
  rcases h with ⟨hkind, h⟩ | h | ⟨d, h⟩ | ⟨s, h⟩
  · refine Or.inl ⟨hkind, ?_⟩
    conv_lhs => rw [h]
    rfl
  · rw [h]
    exact Or.inr (Or.inl rfl)
  · rw [h]
    exact Or.inr (Or.inr (Or.inl ⟨d, rfl⟩))
  · rw [h]
    exact Or.inr (Or.inr (Or.inr ⟨s, rfl⟩))

/-- An element in front of others. -/
theorem Accepted.node {n : Forest Label} {name : Option Text} (h : Accepted l f)
    (hname : name.isSome ↔ container = .object) (hn : WellFormed container n)
    (hdepth : depth + nesting (.node l f .nil) ≤ nestingLimit)
    (hdepth' : depth + nesting n ≤ nestingLimit) :
    WellFormed container (.node (l.rename name) f n) ∧
      depth + nesting (.node (l.rename name) f n) ≤ nestingLimit := by
  refine ⟨⟨ofValue_rename h.value name, hname, h.below, h.leaf, hn⟩, ?_⟩
  have hkind : (l.rename name).kind = l.kind := rfl
  simp only [nesting, hkind] at hdepth ⊢
  omega

theorem elementsAccepted_succ {value : List UInt8} (ihvalue : ValueAccepted strtod value calls)
    (ih : ElementsAccepted strtod value calls) : ElementsAccepted strtod value (calls + 1) := by
  intro container b f b' hcontent hdepth h
  rw [readElements] at h
  split at h
  · cases h
  rename_i name b₁ hname
  obtain ⟨hcontent₁, hdepth₁, -⟩ := readName_consumes value hname
  simp only [content_skipWhitespace, content_advance, depth_skipWhitespace, depth_advance]
    at hcontent₁ hdepth₁
  have hnamed := readName_named hname
  obtain ⟨r, hvalue, h⟩ := Option.bind_eq_some_iff.mp h
  split at h
  · cases h
  rename_i l g b₂
  have h₂ := (reader_consumes strtod value calls).1 (hcontent₁.trans hcontent) hvalue
  obtain ⟨hl, hlimit⟩ := ihvalue (hcontent₁.trans hcontent) (hdepth₁ ▸ hdepth) hvalue
  rw [hdepth₁] at hlimit
  have hcontent₂ : b₂.skipWhitespace.content = value ++ [0] := by
    rw [content_skipWhitespace, h₂.content, hcontent₁, hcontent]
  have hdepth₂ : b₂.skipWhitespace.depth = b.depth := by
    rw [depth_skipWhitespace, h₂.depth, hdepth₁]
  dsimp only at h
  split at h
  · obtain ⟨rest, hrest, h⟩ := Option.bind_eq_some_iff.mp h
    obtain ⟨⟨g', b₃⟩, rfl, heq⟩ := Option.map_eq_some_iff.mp (Option.some.inj h)
    cases heq
    obtain ⟨hg, hlimit'⟩ := ih hcontent₂ (hdepth₂ ▸ hdepth) hrest
    exact hl.node hnamed hg hlimit (hdepth₂ ▸ hlimit')
  split at h
  · cases h
    exact hl.node hnamed trivial hlimit hdepth
  · cases h

theorem reader_accepted (strtod : List UInt8 → Double × ℕ) (value : List UInt8) (calls : ℕ) :
    ValueAccepted strtod value calls ∧ ContainerAccepted strtod value calls ∧
      ElementsAccepted strtod value calls := by
  induction calls with
  | zero =>
    refine ⟨?_, ?_, ?_⟩
    · intro b l f b' hcontent hdepth h
      cases h
    · intro container b l f b' hcontent h
      cases h
    · intro container b f b' hcontent hdepth h
      cases h
  | succ calls ih =>
    exact ⟨valueAccepted_succ ih.2.1, containerAccepted_succ ih.2.2,
      elementsAccepted_succ ih.1 ih.2.2⟩

/-- What is read from a text is well formed, and its nesting is limited. -/
theorem readDocument_accepted {b : Buffer}
    (h : readDocument strtod calls value = some (some (l, f, b))) :
    Accepted l f ∧ nesting (.node l f .nil) ≤ nestingLimit := by
  have hdepth : (Buffer.mk (value.1 ++ [0]) 0 0).skipUtf8Bom.skipWhitespace.depth = 0 := by
    rw [depth_skipWhitespace, Buffer.skipUtf8Bom]
    split <;> rfl
  have hread := (reader_accepted strtod value.1 calls).1 (content_start value.1)
    (by rw [hdepth]; exact Nat.zero_le _) h
  rwa [hdepth, Nat.zero_add] at hread

end Accepted

section RoundTrips

/-- Whichever allocator prints a tree, it comes to an end; and whatever text is handed out is
parsed as this document, in any heap. -/
def ComesBackAs (stdio : Stdio) (strtod : List UInt8 → Double × ℕ) (H : Nodes) (a : ℕ) (s : Shape)
    (l : Label) (f : Forest Label) : Prop :=
  ∀ (hooks : Hooks) (M : Memory) (format : Bool) (calls : ℕ), 3 * s.size + 2 ≤ calls →
    ∃ M' printed, print stdio hooks calls H (some a) format M = some (M', printed) ∧
      ∀ q, printed = some q → ∃ t : Text, text M' q = some t.1 ∧
        ∀ (H₁ : Nodes) (calls₁ : ℕ), 3 * t.1.length + 4 ≤ calls₁ →
          ∃ b, ParsesDocument H₁ (some (l, f, b)) (parse strtod calls₁ H₁ t)

variable {H : Nodes} {a : ℕ} {v : CJSON} {s : Shape}

theorem printed_comesBack (htree : Tree H a v s)
    (hreadable : (Forest.node v.label (s.read (labelOf H)) .nil).Everywhere
      fun l _ => Readable stdio strtod l)
    (hnesting : nesting (.node v.label (s.read (labelOf H)) .nil) ≤ nestingLimit) :
    ComesBackAs stdio strtod H a s (printedLabel v.label none)
      (printedBelow v.label fun inner => printedElements inner (s.read (labelOf H))) := by
  intro hooks M format calls hcalls
  rcases print_text stdio hooks M format htree (numbersFit_readable hreadable) hcalls with
    ⟨M', q, t, n, hprint, ht, -, hout, -⟩ | ⟨M', hprint, -, -⟩
  · refine ⟨M', some q, hprint, ?_⟩
    rintro q ⟨⟩
    have hnul := zero_notMem_documentText ht
    refine ⟨⟨t, hnul⟩, hout.reads hnul, fun H₁ calls₁ hcalls₁ => ?_⟩
    obtain ⟨b, hread⟩ := readDocument_text hreadable.1 hreadable.2.1 hnesting
      ht hcalls₁
    exact ⟨b, parse_of_read hread⟩
  · exact ⟨M', none, hprint, nofun⟩

/-- A document that was printed, formatted or not, is parsed as what its text says, and that
is printed as the same text again, byte for byte. -/
theorem print_parse_print (htree : Tree H a v s)
    (hreadable : (Forest.node v.label (s.read (labelOf H)) .nil).Everywhere
      fun l _ => Readable stdio strtod l)
    (hnesting : nesting (.node v.label (s.read (labelOf H)) .nil) ≤ nestingLimit) :
    ∃ l f, ComesBackAs stdio strtod H a s l f ∧ ∀ format, documentText stdio format l f =
      documentText stdio format v.label (s.read (labelOf H)) := by
  refine ⟨_, _, printed_comesBack htree hreadable hnesting, fun format => ?_⟩
  exact documentText_printed hreadable.1.1 (hreadable.2.1.mono fun l _ h => h.1) format

theorem restores_five : Restores fiveDigits (fun _ => (.finite 5, 1)) 5 where
  numeric _ _ := by simp [fiveDigits, numeric]
  starts _ _ := ⟨53, [], rfl, by decide⟩
  length _ _ := by simp [fiveDigits]
  whole _ _ := rfl
  scans := rfl
  exact := rfl

theorem print_parse_print_five :
    ∃ l f, ComesBackAs fiveDigits (fun _ => (.finite 5, 1)) five 0 (.node 1 .nil .nil) l f ∧
      ∀ format, documentText fiveDigits format l f = documentText fiveDigits format
        (CJSON.label { type := cJSONArray, child := some 1 })
        ((Shape.node 1 .nil .nil).read (labelOf five)) := by
  refine print_parse_print tree_five ⟨⟨by decide, nofun⟩, ⟨⟨by decide, ?_⟩, trivial, trivial⟩,
    trivial⟩ (by decide)
  rintro - value hvalue
  obtain rfl : (5 : ℚ) = value := Double.finite.inj hvalue
  exact restores_five

/-- A document that was parsed comes through printing and parsing as it was, unless one of
its numbers overflowed. -/
theorem parse_print_parse {b : Buffer}
    (hread : readDocument strtod calls value = some (some (l, f, b)))
    (hnumbers : (Forest.node l f .nil).Everywhere fun l _ => l.kind = cJSONNumber →
      ∃ value, l.valuedouble = .finite value ∧ Restores stdio strtod value) (H : Nodes) :
    ∃ H' v s, parse strtod calls H value = some (H', some H.fresh) ∧ Tree H' H.fresh v s ∧
      v.label = l ∧ s.read (labelOf H') = f ∧ ComesBackAs stdio strtod H' H.fresh s l f := by
  obtain ⟨haccepted, hnesting⟩ := readDocument_accepted hread
  obtain ⟨H', v, s, hparse, htree, -, -, rfl, rfl, -⟩ := parse_of_read (H := H) hread
  refine ⟨H', v, s, hparse, htree, rfl, rfl, ?_⟩
  have hreadable : (Forest.node v.label (s.read (labelOf H')) .nil).Everywhere
      fun l _ => Readable stdio strtod l := by
    refine (haccepted.raw.and hnumbers).mono fun l _ h => ⟨h.1, fun hkind value hvalue => ?_⟩
    obtain ⟨value', hvalue', hrestores⟩ := h.2 hkind
    obtain rfl := Double.finite.inj (hvalue.symm.trans hvalue')
    exact hrestores
  have hfinite := hnumbers.mono fun l _ h hkind => (h hkind).imp fun _ hvalue => hvalue.1
  have hback := printed_comesBack htree hreadable hnesting
  have hlabel := printedLabel_ofValue haccepted.value hfinite.1
  rw [haccepted.name] at hlabel
  rwa [hlabel, printedBelow_eq (fun inner hkind =>
    printedElements_wellFormed (haccepted.below inner hkind) hfinite.2.1) haccepted.leaf] at hback

/-- The text ` [5 ]`. -/
theorem parse_print_parse_five :
    ∃ H' v s, parse (fun _ => (.finite 5, 1)) 19 Heap.empty ⟨[32, 91, 53, 32, 93], by decide⟩ =
        some (H', some 0) ∧ Tree H' 0 v s ∧ v.label = leaf cJSONArray ∧
      s.read (labelOf H') = .node
        { leaf cJSONNumber with valuedouble := .finite 5, valueint := 5 } .nil .nil ∧
      ComesBackAs fiveDigits (fun _ => (.finite 5, 1)) H' 0 s (leaf cJSONArray)
        (.node { leaf cJSONNumber with valuedouble := .finite 5, valueint := 5 } .nil .nil) := by
  have hread : readDocument (fun _ => (.finite 5, 1)) 19 ⟨[32, 91, 53, 32, 93], by decide⟩ =
      some (some (leaf cJSONArray,
        .node { leaf cJSONNumber with valuedouble := .finite 5, valueint := 5 } .nil .nil,
        ⟨[32, 91, 53, 32, 93, 0], 5, 0⟩)) := by
    decide
  exact parse_print_parse hread ⟨nofun, ⟨fun _ => ⟨5, rfl, restores_five⟩, trivial, trivial⟩,
    trivial⟩ Heap.empty

end RoundTrips

end BoxUtils.CJson
