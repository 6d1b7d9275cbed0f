import BoxUtils.CJsonMinified

/-!
Minifying what was printed with blanks gives what is printed without them.
-/
namespace BoxUtils.CJson

open CMemory LinkedShapes MergePatch

section Pieces

variable {s u v w v' w' more rest : List UInt8} {c : UInt8} {name : Option Text}

/-- A piece of a text, wherever it comes outside of strings, and what is left of it. -/
def Minifies (v w : List UInt8) : Prop := ∀ rest, minified (v ++ rest) = w ++ minified rest

theorem Minifies.append (hv : Minifies v v') (hw : Minifies w w') :
    Minifies (v ++ w) (v' ++ w') := by
  intro rest
  rw [List.append_assoc, hv, hw, List.append_assoc]

theorem minifies_plain (hw : ∀ x ∈ w, Plain x) : Minifies w w := fun _ => minified_append hw

theorem blank_of_all (h : (w.all fun x => decide (x = 32 ∨ x = 9 ∨ x = 13 ∨ x = 10)) = true) :
    ∀ x ∈ w, x = 32 ∨ x = 9 ∨ x = 13 ∨ x = 10 :=
  fun x hx => of_decide_eq_true (List.all_eq_true.mp h x hx)

theorem minifies_blanks (hw : ∀ x ∈ w, x = 32 ∨ x = 9 ∨ x = 13 ∨ x = 10) : Minifies w [] := by
  intro rest
  induction w with
  | nil => rfl
  | cons x w ih =>
    obtain ⟨hx, hw⟩ := List.forall_mem_cons.mp hw
    rw [List.cons_append, minified, if_pos hx]
    exact ih hw

theorem splitString_plain (hmore : ∀ x ∈ more, x ≠ quote ∧ x ≠ backslash) (rest : List UInt8) :
    splitString (more ++ rest) = (more ++ (splitString rest).1, (splitString rest).2) := by
  induction more with
  | nil => rfl
  | cons x more ih =>
    obtain ⟨⟨hquote, hbackslash⟩, hmore⟩ := List.forall_mem_cons.mp hmore
    rw [List.cons_append, splitString_other hquote fun h => hbackslash h.1, ih hmore,
      List.cons_append]

/-- The backslash is the one character that is written as two backslashes. -/
theorem escape_backslash (h : escape c = backslash :: backslash :: more) :
    c = backslash ∧ more = [] := by
  have hall : ∀ n : Fin 256, (escape ⟨⟨n⟩⟩)[0]? = some backslash →
      (escape ⟨⟨n⟩⟩)[1]? = some backslash →
      (⟨⟨n⟩⟩ : UInt8) = backslash ∧ (escape ⟨⟨n⟩⟩).length = 2 := by
    decide +kernel
  have hc : escape c = escape ⟨⟨c.toBitVec.toFin⟩⟩ := rfl
  rw [hc] at h
  obtain ⟨hback, hlength⟩ := hall c.toBitVec.toFin (by rw [h]; rfl) (by rw [h]; rfl)
  rw [h, List.length_cons, List.length_cons] at hlength
  exact ⟨hback, List.eq_nil_of_length_eq_zero (by omega)⟩

theorem head_escaped (hs : s ≠ []) (rest : List UInt8) :
    (s.flatMap escape ++ rest).head? ≠ some quote := by
  cases s with
  | nil => exact absurd rfl hs
  | cons c s =>
    rw [List.flatMap_cons, List.append_assoc]
    rcases escape_cases c with ⟨hescape, hquote, -⟩ | ⟨e, more, hescape, -⟩
    · rw [hescape, List.singleton_append, List.head?_cons]
      exact fun heq => hquote (Option.some.inj heq)
    · rw [hescape, List.cons_append, List.head?_cons]
      exact fun heq => absurd (Option.some.inj heq) (by decide)

/-- The closing quote of what was written is found, if no backslash comes before it. -/
theorem splitString_escaped (hlast : s.getLast? ≠ some backslash) (rest : List UInt8) :
    splitString (s.flatMap escape ++ quote :: rest) = (s.flatMap escape ++ [quote], rest) := by
  induction s with
  | nil => exact splitString_quote rest
  | cons c s ih =>
    have hs : s.getLast? ≠ some backslash := by
      cases s with
      | nil => simp
      | cons d s => rwa [List.getLast?_cons_cons] at hlast
    have hsplit := ih hs
    rw [List.flatMap_cons, List.append_assoc]
    rcases escape_cases c with ⟨hescape, hquote, hbackslash⟩ | ⟨e, more, hescape, hmore⟩
    · rw [hescape, splitString_plain (by simpa using ⟨hquote, hbackslash⟩), hsplit,
        List.append_assoc]
    have hne : backslash ≠ quote := by decide
    have hbehind := splitString_plain hmore (s.flatMap escape ++ quote :: rest)
    rw [hsplit] at hbehind
    rw [hescape, List.cons_append, List.cons_append]
    by_cases hquote : e = quote
    · rw [hquote, splitString_escape, hbehind]
      simp only [List.cons_append, List.append_assoc]
    rw [splitString_other hne (by simpa using hquote), splitString_other hquote, hbehind]
    · simp only [List.cons_append, List.append_assoc]
    · rintro ⟨rfl, hhead⟩
      obtain ⟨rfl, rfl⟩ := escape_backslash hescape
      have hnil : s ≠ [] := by
        rintro rfl
        exact hlast rfl
      exact head_escaped hnil _ hhead

/-- A string that can be told from what follows it. -/
def TidyString (s : Option Text) : Prop := ∀ t, s = some t → t.1.getLast? ≠ some backslash

theorem minifies_string (h : TidyString name) : Minifies (stringText name) (stringText name) := by
  intro rest
  have hsplit : ∀ {s : List UInt8}, s.getLast? ≠ some backslash →
      minified (quote :: (s.flatMap escape ++ quote :: rest)) =
        quote :: (s.flatMap escape ++ [quote]) ++ minified rest := by
    intro s hs
    rw [minified_quote, splitString_escaped hs, List.cons_append]
  cases name with
  | none => exact hsplit (s := []) (by simp)
  | some t =>
    have hstring := hsplit (h t rfl)
    simpa [stringText] using hstring

end Pieces

section Printed

variable {stdio : Stdio} {indent : ℕ} {v w : List UInt8} {l : Label} {f c : Forest Label}
variable {container : Container} {elements elements' : Container → Option (List UInt8)}

theorem minifies_start (container : Container) :
    Minifies (container.start true) (container.start false) := by
  cases container with
  | array => exact minifies_plain (plain_of_all rfl)
  | object =>
    exact (minifies_plain (w := [123]) (plain_of_all rfl)).append
      (minifies_blanks (blank_of_all rfl))

theorem tabs_blank (n : ℕ) : ∀ x ∈ tabs n, x = 32 ∨ x = 9 ∨ x = 13 ∨ x = 10 :=
  fun _ hx => Or.inr (Or.inl (List.eq_of_mem_replicate hx))

theorem minifies_stop (container : Container) (indent : ℕ) :
    Minifies (container.stop true indent) (container.stop false indent) := by
  cases container with
  | array => exact minifies_plain (w := [93]) (plain_of_all rfl)
  | object =>
    exact (minifies_blanks (tabs_blank indent)).append
      (minifies_plain (w := [125]) (plain_of_all rfl))

theorem minifies_before {name : Option Text} (h : container = .object → TidyString name) :
    Minifies (container.before true indent name) (container.before false indent name) := by
  cases container with
  | array => exact minifies_plain (by simp [Container.before])
  | object =>
    exact (minifies_blanks (tabs_blank indent)).append ((minifies_string (h rfl)).append
      ((minifies_plain (w := [58]) (plain_of_all rfl)).append (minifies_blanks (blank_of_all rfl))))

theorem minifies_behind (container : Container) (last : Bool) :
    Minifies (container.behind true last) (container.behind false last) := by
  have hcomma : Minifies [44] [44] := minifies_plain (plain_of_all rfl)
  have hnone : Minifies [] [] := minifies_plain (by simp)
  cases container with
  | array =>
    cases last with
    | true => exact hnone
    | false => exact hcomma.append (minifies_blanks (blank_of_all rfl))
  | object =>
    cases last with
    | true => exact hnone.append (minifies_blanks (blank_of_all rfl))
    | false => exact hcomma.append (minifies_blanks (blank_of_all rfl))

/-- The values that minifying can pass over. -/
structure TidyValue (stdio : Stdio) (l : Label) : Prop where
  raw : l.kind ≠ cJSONRaw
  number : l.kind = cJSONNumber → ∀ x ∈ numberString stdio l.valuedouble, Plain x
  string : l.kind = cJSONString → TidyString l.valuestring

def TidyElements (stdio : Stdio) (container : Container) : Forest Label → Prop
  | .nil => True
  | .node l c n => TidyValue stdio l ∧ (container = .object → TidyString l.name) ∧
      (∀ inner : Container, l.kind = inner.type → TidyElements stdio inner c) ∧
      TidyElements stdio container n

/-- A text with blanks, and the one without them that it is minified to. -/
def MinifiesTo (v w : Option (List UInt8)) : Prop :=
  ∀ u, v = some u → ∃ u', w = some u' ∧ Minifies u u'

theorem MinifiesTo.joined {v v' w w' : Option (List UInt8)} (hv : MinifiesTo v v')
    (hw : MinifiesTo w w') : MinifiesTo (joined v w) (joined v' w') := by
  intro u hu
  obtain ⟨a, b, ha, hb, rfl⟩ := joined_eq_some hu
  obtain ⟨a', rfl, ha'⟩ := hv a ha
  obtain ⟨b', rfl, hb'⟩ := hw b hb
  exact ⟨a' ++ b', rfl, ha'.append hb'⟩

theorem minifiesTo_some (h : Minifies v w) : MinifiesTo (some v) (some w) := by
  rintro u ⟨⟩
  exact ⟨w, rfl, h⟩

theorem valueText_minifies (h : TidyValue stdio l)
    (hel : ∀ inner : Container,
      l.kind = inner.type → MinifiesTo (elements inner) (elements' inner)) :
    MinifiesTo (valueText stdio true indent l elements)
      (valueText stdio false indent l elements') := by
  have hcontainer : ∀ inner : Container, l.kind = inner.type →
      MinifiesTo (containerText true inner indent (elements inner))
        (containerText false inner indent (elements' inner)) := by
    intro inner hkind
    exact (minifiesTo_some (minifies_start inner)).joined ((hel inner hkind).joined
      (minifiesTo_some (minifies_stop inner indent)))
  unfold valueText
  split
  · exact minifiesTo_some (minifies_plain (plain_of_all rfl))
  split
  · exact minifiesTo_some (minifies_plain (plain_of_all rfl))
  split
  · exact minifiesTo_some (minifies_plain (plain_of_all rfl))
  split
  · unfold numberBuffer
    split
    · exact minifiesTo_some (minifies_plain (h.number ‹_›))
    · intro u hu
      cases hu
  split
  · exact absurd ‹_› h.raw
  split
  · exact minifiesTo_some (minifies_string (h.string ‹_›))
  split
  · exact hcontainer .array ‹_›
  split
  · exact hcontainer .object ‹_›
  · intro u hu
    cases hu

theorem elementsText_minifies (h : TidyElements stdio container f) (indent : ℕ) :
    MinifiesTo (elementsText stdio true container indent f)
      (elementsText stdio false container indent f) := by
  induction f generalizing container indent with
  | nil => exact minifiesTo_some (minifies_plain (by simp))
  | node l c n ihc ihn =>
    obtain ⟨hvalue, hname, hbelow, hn⟩ := h
    exact (minifiesTo_some (minifies_before hname)).joined
      ((valueText_minifies hvalue fun inner hkind => ihc (hbelow inner hkind) (indent + 1)).joined
        ((minifiesTo_some (minifies_behind container (isLast n))).joined (ihn hn indent)))

/-- What is left of the text of a document with blanks is the one without. -/
theorem documentText_minified (hvalue : TidyValue stdio l)
    (hbelow : ∀ inner : Container, l.kind = inner.type → TidyElements stdio inner c)
    {t : List UInt8}
    (ht : documentText stdio true l c = some t) :
    documentText stdio false l c = some (minified t) := by
  have hminifies : MinifiesTo (documentText stdio true l c) (documentText stdio false l c) :=
    valueText_minifies hvalue fun inner hkind => elementsText_minifies (hbelow inner hkind) 1
  obtain ⟨t', ht', h⟩ := hminifies t ht
  have hwhole := h []
  rw [List.append_nil, minified, List.append_nil] at hwhole
  rw [ht', hwhole]

/-- Printing with blanks and minifying gives, byte for byte, what is printed without them;
nothing but the block of the text is different. -/
theorem print_minify (stdio : Stdio) (hooks : Hooks) (M : Memory) {H : Nodes} {b : ℕ} {v : CJSON}
    {s : Shape} {calls : ℕ} (htree : Tree H b v s)
    (hfit : NumbersFit stdio (.node v.label (s.read (labelOf H)) .nil))
    (hcalls : 3 * s.size + 2 ≤ calls) (hvalue : TidyValue stdio v.label)
    (hbelow : ∀ inner : Container, v.label.kind = inner.type →
      TidyElements stdio inner (s.read (labelOf H))) :
    ∃ M₁ printed, cJSONPrint stdio hooks calls H (some b) M = some (M₁, printed) ∧
      ∀ p, printed = some p → ∃ n, ∀ turns, n ≤ turns → ∃ M₂,
        minify turns M₁ (some p) = some M₂ ∧ (∀ a, a ≠ p.block → M₂.cell a = M.cell a) ∧
        text M₂ p = documentText stdio false v.label (s.read (labelOf H)) ∧
        ∀ M₃ M₄ q, printUnformatted stdio hooks calls H (some b) M₃ = some (M₄, some q) →
          text M₄ q = text M₂ p := by
  have hunformatted : ∀ M₃ M₄ q, printUnformatted stdio hooks calls H (some b) M₃ =
      some (M₄, some q) → text M₄ q = documentText stdio false v.label (s.read (labelOf H)) := by
    intro M₃ M₄ q hprint
    rcases print_text stdio hooks M₃ false htree hfit hcalls with
      ⟨M', r, t, n, hprint', ht, -, hout, -⟩ | ⟨M', hprint', -⟩
    · obtain ⟨rfl, rfl⟩ : M' = M₄ ∧ r = q := by simpa using hprint'.symm.trans hprint
      rw [ht, hout.reads (zero_notMem_documentText ht)]
    · have hnone := hprint'.symm.trans hprint
      simp at hnone
  rcases print_text stdio hooks M true htree hfit hcalls with
    ⟨M₁, p, t, n, hprint, ht, -, hout, -⟩ | ⟨M₁, hprint, -⟩
  · refine ⟨M₁, some p, hprint, ?_⟩
    rintro p ⟨⟩
    refine ⟨t.length + 1, fun turns hturns => ?_⟩
    obtain ⟨M₂, hminify, htext, hwithin⟩ := minify_text M₁ p
      (hout.reads (zero_notMem_documentText ht)) hturns
    have hsame : text M₂ p = documentText stdio false v.label (s.read (labelOf H)) := by
      rw [htext, documentText_minified hvalue hbelow ht]
    refine ⟨M₂, hminify, fun a ha => ?_, hsame, fun M₃ M₄ q hq => ?_⟩
    · rw [hwithin.others a ha, hout.others a ha]
    · rw [hunformatted M₃ M₄ q hq, hsame]
  · exact ⟨M₁, none, hprint, nofun⟩

/-- The document `{"n":5,"s":"a b"}`. -/
def members : Nodes :=
  ((Heap.empty.alloc { type := cJSONObject, child := some 1 }).alloc
    { type := cJSONNumber, valueint := 5, valuedouble := .finite 5, next := some 2,
      string := some ⟨[110], by decide⟩ }).alloc
    { type := cJSONString, valuestring := some ⟨[97, 32, 98], by decide⟩, prev := some 1,
      string := some ⟨[115], by decide⟩ }

theorem tree_members :
    Tree members 0 { type := cJSONObject, child := some 1 }
      (.node 1 .nil (.node 2 .nil .nil)) where
  cell := rfl
  sound := nofun
  children := ⟨rfl, _, rfl, rfl, nofun, rfl, rfl, _, rfl, rfl, nofun, rfl, rfl⟩
  distinct y := by
    simp only [Shape.count_node, Shape.count_nil]
    split_ifs <;> omega

theorem numbersFit_members :
    NumbersFit fiveDigits (.node (CJSON.label { type := cJSONObject, child := some 1 })
      ((Shape.node 1 .nil (.node 2 .nil .nil)).read (labelOf members)) .nil) :=
  ⟨fun h => absurd h (by decide), ⟨fun _ => by decide, trivial,
    fun h => absurd h (by decide), trivial, trivial⟩, trivial⟩

theorem tidyElements_members :
    TidyElements fiveDigits .object
      ((Shape.node 1 .nil (.node 2 .nil .nil)).read (labelOf members)) := by
  refine ⟨⟨by decide, fun _ => plain_of_all rfl, fun h => absurd h (by decide)⟩, fun _ t ht => ?_,
    fun _ _ => trivial, ⟨by decide, fun h => absurd h (by decide), fun _ t ht => ?_⟩,
    fun _ t ht => ?_, fun _ _ => trivial, trivial⟩
  all_goals
    obtain rfl := Option.some.inj ht
    decide

theorem print_minify_members :
    ∃ M₁ printed, cJSONPrint fiveDigits ⟨fun _ _ => true, true⟩ 8 members (some 0) Heap.empty =
        some (M₁, printed) ∧
      ∀ p, printed = some p → ∃ n, ∀ turns, n ≤ turns → ∃ M₂,
        minify turns M₁ (some p) = some M₂ ∧ (∀ a, a ≠ p.block → M₂.cell a = none) ∧
        text M₂ p = some [123, 34, 110, 34, 58, 53, 44, 34, 115, 34, 58, 34, 97, 32, 98, 34, 125] ∧
        ∀ M₃ M₄ q, printUnformatted fiveDigits ⟨fun _ _ => true, true⟩ 8 members (some 0) M₃ =
          some (M₄, some q) → text M₄ q = text M₂ p :=
  print_minify fiveDigits ⟨fun _ _ => true, true⟩ Heap.empty tree_members numbersFit_members
    (by decide) ⟨by decide, fun h => absurd h (by decide), fun h => absurd h (by decide)⟩
    fun inner hkind => by
      cases inner with
      | array => exact absurd hkind (by decide)
      | object => exact tidyElements_members

end Printed

end BoxUtils.CJson
