import BoxUtils.CJsonLabels
import BoxUtils.CJsonPrintBuffer

/-!
The printer writes the text of the document, whatever buffer it is given. Each function is
followed along the shape of the nodes; the number of nested calls is three for a node.
-/
namespace BoxUtils.CJson

open CMemory LinkedShapes MergePatch

variable {stdio : Stdio} {hooks : Hooks} {M₀ M : Memory} {a : Area} {depth calls : ℕ}
variable {text tail v : List UInt8} {S : Printing} {H : Nodes} {q p : Option ℕ} {t : Shape}

section Steps

theorem joined_nil (x : Option (List UInt8)) : joined (some []) x = x := by
  cases x <;> rfl

/-- The step that puts nothing. -/
theorem puts_nothing {Q : List UInt8 → Printing → Prop} (h : Q [] S) :
    Puts hooks M₀ a text (some []) Q (some (S, true)) :=
  Or.inl ⟨S, [], rfl, rfl, h⟩

/-- A step behind which only the depth changes. -/
theorem puts_last {w : Option (List UInt8)} {Q R : List UInt8 → Printing → Prop}
    {r : Option (Printing × Bool)} {f : Printing → Printing} (h : Puts hooks M₀ a text w Q r)
    (hf : ∀ v S, Q v S → R v (f S)) :
    Puts hooks M₀ a text w R (proceed r fun S => some (f S, true)) := by
  rcases h with ⟨S, v, rfl, hw, hQ⟩ | ⟨S, rfl, hfail⟩
  · exact Or.inl ⟨f S, v, rfl, hw, hf v S hQ⟩
  · exact Or.inr ⟨S, rfl, hfail⟩

theorem Shows.deeper (h : Shows hooks M₀ a depth text tail S) :
    Shows hooks M₀ a (depth + 1) text tail (deeper S) := by
  obtain ⟨hformat, hnoalloc, hdepth, hoffset, hplace, hroom, hlimit, hlent⟩ := h
  exact ⟨hformat, hnoalloc, congrArg (· + 1) hdepth, hoffset, hplace, hroom, hlimit, hlent⟩

theorem Shows.shallower (h : Shows hooks M₀ a (depth + 1) text tail S) :
    Shows hooks M₀ a depth text tail (shallower S) := by
  obtain ⟨hformat, hnoalloc, hdepth, hoffset, hplace, hroom, hlimit, hlent⟩ := h
  exact ⟨hformat, hnoalloc, congrArg (· - 1) hdepth, hoffset, hplace, hroom, hlimit, hlent⟩

/-- The end of what a container holds is the end of the container. -/
theorem Ends.shallower {u w : List UInt8} (h : Ends hooks M₀ a (depth + 1) (text ++ u) w S) :
    Ends hooks M₀ a depth text (u ++ w) (shallower S) := by
  obtain ⟨⟨w₁, w₂, rfl, hshows⟩, hroom⟩ := h
  refine ⟨⟨u ++ w₁, w₂, (List.append_assoc ..).symm, ?_⟩, ?_⟩
  · rw [← List.append_assoc]
    exact hshows.shallower
  · rw [List.length_append] at hroom
    rw [List.length_append]
    exact Nat.le_trans (by omega) hroom

theorem formatted_eq (h : Shows hooks M₀ a depth text tail S) (bytes : List UInt8) :
    formatted S bytes = onlyFormatted a.format bytes := by
  rw [formatted, onlyFormatted, h.format]

/-- Bytes that end in a NUL over which the offset does not move. -/
theorem emit_terminated (h : Shows hooks M₀ a depth text tail S) (v : List UInt8) :
    Puts hooks M₀ a text (some v) (fun _ S' => Shows hooks M₀ a depth (text ++ v) [0] S')
      (emit hooks S (v.length + 1) (v ++ [0]) v.length) := by
  refine (emit_puts (v := v) h (by simp) (by simp) le_rfl).imp ?_
  rintro _ S' - ⟨hshows, -⟩
  rwa [List.take_left, List.drop_left] at hshows

/-- Bytes without a NUL. -/
theorem emit_open (h : Shows hooks M₀ a depth text tail S) (v : List UInt8) (needed : ℕ)
    (hneeded : v.length ≤ needed) (hle : needed ≤ v.length + 1) :
    Puts hooks M₀ a text (some v) (fun _ S' => Shows hooks M₀ a depth (text ++ v) [] S')
      (emit hooks S needed v v.length) := by
  refine (emit_puts (v := v) h hneeded le_rfl hle).imp ?_
  rintro _ S' - ⟨hshows, -⟩
  rwa [List.take_length, List.drop_length] at hshows

theorem printArrayComma_puts (h : Shows hooks M₀ a depth text tail S) {next : Option ℕ}
    {last : Bool} (hlast : next.isSome = !last) :
    Puts hooks M₀ a text (some (Container.array.behind a.format last))
      (fun v S' => ∃ tail', Shows hooks M₀ a depth (text ++ v) tail' S')
      (printArrayComma hooks next S) := by
  cases next with
  | none =>
    obtain rfl : last = true := by simpa using hlast
    exact puts_nothing ⟨tail, by rwa [List.append_nil]⟩
  | some next =>
    obtain rfl : last = false := by simpa using hlast
    have hlength : (if S.2.format then 2 else 1) =
        ([44] ++ onlyFormatted a.format [32]).length := by
      rw [h.format]
      cases a.format <;> rfl
    simp only [printArrayComma, hlength, formatted_eq h]
    refine (emit_terminated h ([44] ++ onlyFormatted a.format [32])).imp ?_
    rintro _ S' ⟨⟩ hshows
    exact ⟨[0], hshows⟩

theorem printObjectComma_puts (h : Shows hooks M₀ a depth text tail S) {next : Option ℕ}
    {last : Bool} (hlast : next.isSome = !last) :
    Puts hooks M₀ a text (some (Container.object.behind a.format last))
      (fun v S' => ∃ tail', Shows hooks M₀ a depth (text ++ v) tail' S')
      (printObjectComma hooks next S) := by
  have hbytes : (if next.isSome then [44] else []) ++ onlyFormatted a.format [10] =
      Container.object.behind a.format last := by
    rw [hlast]
    cases last <;> rfl
  have hlength : (if S.2.format then 1 else 0) + (if next.isSome then 1 else 0) =
      (Container.object.behind a.format last).length := by
    rw [← hbytes, h.format]
    cases a.format <;> cases next <;> rfl
  simp only [printObjectComma, hlength, formatted_eq h, hbytes]
  refine (emit_terminated h _).imp ?_
  rintro _ S' ⟨⟩ hshows
  exact ⟨[0], hshows⟩

theorem printKey_puts (h : Shows hooks M₀ a depth text tail S) (item : CJSON) :
    Puts hooks M₀ a text (some (Container.object.before a.format depth item.string))
      (fun v S' => ∃ tail', Shows hooks M₀ a depth (text ++ v) tail' S')
      (printKey hooks item S) := by
  have hindent : Puts hooks M₀ a text (some (onlyFormatted a.format (tabs depth)))
      (fun v S' => ∃ tail', Shows hooks M₀ a depth (text ++ v) tail' S')
      (if S.2.format then emit hooks S S.2.depth (tabs S.2.depth) S.2.depth
        else some (S, true)) := by
    rw [h.format, h.depth]
    cases a.format with
    | false => exact puts_nothing ⟨tail, by rwa [List.append_nil]⟩
    | true =>
      have htabs : (tabs depth).length = depth := List.length_replicate
      have hopen := emit_open h (tabs depth) depth (by omega) (by omega)
      rw [htabs] at hopen
      refine hopen.imp ?_
      rintro _ S' ⟨⟩ hshows
      exact ⟨[], hshows⟩
  have hbefore : some (Container.object.before a.format depth item.string) =
      joined (some (onlyFormatted a.format (tabs depth)))
        (joined (some (stringText item.string)) (some ([58] ++ onlyFormatted a.format [9]))) := rfl
  rw [hbefore, printKey]
  refine puts_proceed hindent ?_
  rintro _ S₁ ⟨⟩ ⟨tail₁, h₁⟩
  refine puts_proceed (printStringPtr_puts h₁ item.string) ?_
  rintro _ S₂ ⟨⟩ hends
  obtain ⟨S₃, hoffset, h₃, -, -⟩ := updateOffset_shows hends (zero_notMem_stringText item.string)
  have hlength : (if S₃.2.format then 2 else 1) = ([58] ++ onlyFormatted a.format [9]).length := by
    rw [h₃.format]
    cases a.format <;> rfl
  simp only [hoffset, Option.bind_eq_bind, Option.bind_some, hlength, formatted_eq h₃]
  refine (emit_open h₃ ([58] ++ onlyFormatted a.format [9]) _ le_rfl (by omega)).imp ?_
  rintro _ S' ⟨⟩ hshows
  exact ⟨[], by simpa only [List.append_assoc] using hshows⟩

end Steps

section Values

/-- The two loops over what is in a container. -/
def printElements (stdio : Stdio) (hooks : Hooks) (container : Container) :
    ℕ → Nodes → Option ℕ → Printing → Option (Printing × Bool) :=
  match container with
  | .array => printArrayElements stdio hooks
  | .object => printObjectMembers stdio hooks

/-- A loop puts the text of the elements. -/
def PutsElements (stdio : Stdio) (hooks : Hooks) (M₀ : Memory) (a : Area) (H : Nodes)
    (p : Option ℕ) (f : Forest Label) (calls : ℕ) : Prop :=
  ∀ container depth text tail S, Shows hooks M₀ a depth text tail S →
    Puts hooks M₀ a text (elementsText stdio a.format container depth f)
      (fun v S' => ∃ tail', Shows hooks M₀ a depth (text ++ v) tail' S')
      (printElements stdio hooks container calls H p S)

variable {c : CJSON} {f : Forest Label}

theorem printArray_puts (h : Shows hooks M₀ a depth text tail S)
    (hbelow : PutsElements stdio hooks M₀ a H c.child f calls) :
    Puts hooks M₀ a text
      (containerText a.format .array depth (elementsText stdio a.format .array (depth + 1) f))
      (Ends hooks M₀ a depth text) (printArray stdio hooks (calls + 1) H c S) := by
  rw [printArray, containerText]
  refine puts_proceed (emit_open h [91] 1 le_rfl (by simp)) ?_
  rintro _ S₁ ⟨⟩ h₁
  refine puts_proceed (hbelow .array (depth + 1) _ _ _ h₁.deeper) ?_
  rintro v S₂ - ⟨tail₂, h₂⟩
  refine puts_last (emit_ends (v := [93]) h₂ (Nat.zero_le _)) ?_
  intro w S₃ hends
  rw [List.append_assoc] at hends
  simpa only [List.append_assoc] using hends.shallower

theorem printObject_puts (h : Shows hooks M₀ a depth text tail S)
    (hbelow : PutsElements stdio hooks M₀ a H c.child f calls) :
    Puts hooks M₀ a text
      (containerText a.format .object depth (elementsText stdio a.format .object (depth + 1) f))
      (Ends hooks M₀ a depth text) (printObject stdio hooks (calls + 1) H c S) := by
  have hstart : [123] ++ formatted S [10] = Container.object.start a.format := by
    rw [formatted_eq h, Container.start]
  have hlength : (if S.2.format then 2 else 1) = (Container.object.start a.format).length := by
    rw [h.format]
    cases a.format <;> rfl
  rw [printObject, containerText]
  simp only [hstart, hlength]
  refine puts_proceed (emit_open h _ _ (Nat.le_succ _) le_rfl) ?_
  rintro _ S₁ ⟨⟩ h₁
  refine puts_proceed (hbelow .object (depth + 1) _ _ _ h₁.deeper) ?_
  rintro v S₂ - ⟨tail₂, h₂⟩
  have hstop : formatted S₂ (tabs (S₂.2.depth - 1)) ++ [125, 0] =
      Container.object.stop a.format depth ++ [0] := by
    rw [formatted_eq h₂, h₂.depth, Container.stop, Nat.add_sub_cancel]
    simp only [List.append_assoc, List.cons_append, List.nil_append]
  have hneeded : (if S₂.2.format then S₂.2.depth + 1 else 2) =
      (Container.object.stop a.format depth).length + 1 := by
    rw [h₂.format, h₂.depth]
    cases a.format <;> simp [Container.stop, onlyFormatted, tabs]
  rw [hstop, hneeded]
  refine puts_last (emit_ends h₂ (Nat.zero_le _)) ?_
  intro w S₃ hends
  rw [List.append_assoc] at hends
  simpa only [List.append_assoc] using hends.shallower

/-- A value is put as its text, if the elements of a container are. -/
theorem printValue_puts {b : ℕ} (hc : H.cell b = some c) (h : Shows hooks M₀ a depth text tail S)
    (hnumber : c.kind = cJSONNumber → numberBuffer stdio c.valuedouble ≠ none)
    (hbelow : PutsElements stdio hooks M₀ a H c.child f calls) :
    Puts hooks M₀ a text
      (valueText stdio a.format depth c.label fun inner =>
        elementsText stdio a.format inner (depth + 1) f)
      (Ends hooks M₀ a depth text) (printValue stdio hooks (calls + 2) H (some b) S) := by
  have hkind : c.label.kind = c.kind := rfl
  simp only [printValue, hc, Option.bind_eq_bind, Option.bind_some, valueText, hkind]
  by_cases hnull : c.kind = cJSONNull
  case pos =>
    simp only [if_pos hnull]
    exact emit_ends (v := [110, 117, 108, 108]) h (Nat.zero_le _)
  by_cases hfalse : c.kind = cJSONFalse
  case pos =>
    simp only [if_neg hnull, if_pos hfalse]
    exact emit_ends (v := [102, 97, 108, 115, 101]) h (Nat.zero_le _)
  by_cases htrue : c.kind = cJSONTrue
  case pos =>
    simp only [if_neg hnull, if_neg hfalse, if_pos htrue]
    exact emit_ends (v := [116, 114, 117, 101]) h (Nat.zero_le _)
  simp only [if_neg hnull, if_neg hfalse, if_neg htrue]
  by_cases hnum : c.kind = cJSONNumber
  case pos =>
    simp only [if_pos hnum]
    obtain ⟨number, hbuffer⟩ := Option.ne_none_iff_exists'.mp (hnumber hnum)
    have hlabel : numberBuffer stdio c.label.valuedouble = some number := hbuffer
    simp only [printNumber, hbuffer, hlabel, Option.bind_eq_bind, Option.bind_some]
    exact emit_ends h le_rfl
  by_cases hraw : c.kind = cJSONRaw
  case pos =>
    simp only [if_neg hnum, if_pos hraw]
    cases hstring : c.valuestring with
    | none =>
      have hlabel : c.label.valuestring = none := hstring
      rw [hlabel]
      exact Or.inr ⟨S, rfl, Or.inl ⟨_, _, _, h⟩, fun _ v hv => by cases hv⟩
    | some raw =>
      have hlabel : c.label.valuestring = some raw := hstring
      rw [hlabel]
      exact emit_ends h (Nat.zero_le _)
  simp only [if_neg hnum, if_neg hraw]
  by_cases hstring : c.kind = cJSONString
  case pos =>
    simp only [if_pos hstring]
    exact printStringPtr_puts h c.valuestring
  by_cases harray : c.kind = cJSONArray
  case pos =>
    simp only [if_neg hstring, if_pos harray]
    exact printArray_puts h hbelow
  by_cases hobject : c.kind = cJSONObject
  case pos =>
    simp only [if_neg hstring, if_neg harray, if_pos hobject]
    exact printObject_puts h hbelow
  · simp only [if_neg hstring, if_neg harray, if_neg hobject]
    exact Or.inr ⟨S, rfl, Or.inl ⟨_, _, _, h⟩, fun _ v hv => by cases hv⟩

/-- One turn of the loop, and then the others. -/
theorem putsElements_node {b : ℕ} {g : Forest Label} (hc : H.cell b = some c)
    (hvalue : ∀ depth text tail S, Shows hooks M₀ a depth text tail S →
      Puts hooks M₀ a text
        (valueText stdio a.format depth c.label fun inner =>
          elementsText stdio a.format inner (depth + 1) f)
        (Ends hooks M₀ a depth text) (printValue stdio hooks calls H (some b) S))
    (hlast : c.next.isSome = !isLast g)
    (hnext : PutsElements stdio hooks M₀ a H c.next g calls) :
    PutsElements stdio hooks M₀ a H (some b) (.node c.label f g) (calls + 1) := by
  intro container depth text tail S h
  have hnul : ∀ v, (valueText stdio a.format depth c.label fun inner =>
      elementsText stdio a.format inner (depth + 1) f) = some v → 0 ∉ v := fun v hv =>
    zero_notMem_valueText (fun inner u hu => zero_notMem_elementsText inner f hu) hv
  rw [elementsText]
  cases container with
  | array =>
    rw [Container.before, joined_nil, printElements, printArrayElements]
    refine puts_proceed (hvalue depth text tail S h) ?_
    intro v S₁ hv hends
    obtain ⟨S₂, hoffset, h₂, -, -⟩ := updateOffset_shows hends (hnul v hv)
    simp only [hoffset, hc, Option.bind_eq_bind, Option.bind_some]
    refine puts_proceed (printArrayComma_puts h₂ hlast) ?_
    rintro _ S₃ ⟨⟩ ⟨tail₃, h₃⟩
    refine (hnext .array depth _ _ _ h₃).imp ?_
    rintro u S₄ - ⟨tail₄, h₄⟩
    exact ⟨tail₄, by simpa only [List.append_assoc] using h₄⟩
  | object =>
    rw [printElements, printObjectMembers, hc]
    simp only [Option.bind_eq_bind, Option.bind_some]
    refine puts_proceed (printKey_puts h c) ?_
    rintro _ S₀ ⟨⟩ ⟨tail₀, h₀⟩
    refine puts_proceed (hvalue depth _ _ _ h₀) ?_
    intro v S₁ hv hends
    obtain ⟨S₂, hoffset, h₂, -, -⟩ := updateOffset_shows hends (hnul v hv)
    simp only [hoffset, Option.bind_some]
    refine puts_proceed (printObjectComma_puts h₂ hlast) ?_
    rintro _ S₃ ⟨⟩ ⟨tail₃, h₃⟩
    refine (hnext .object depth _ _ _ h₃).imp ?_
    rintro u S₄ - ⟨tail₄, h₄⟩
    exact ⟨tail₄, by simpa only [List.append_assoc] using h₄⟩

/-- The loops put the text of what they go through. -/
theorem putsElements (h : Holds H q p t none) (hfit : NumbersFit stdio (t.read (labelOf H)))
    (hcalls : 3 * t.size ≤ calls) :
    PutsElements stdio hooks M₀ a H p (t.read (labelOf H)) calls := by
  induction t generalizing q p calls with
  | nil =>
    obtain rfl : p = none := h
    intro container depth text tail S hshows
    have hresult : printElements stdio hooks container calls H none S = some (S, true) := by
      cases container
      · rw [printElements, printArrayElements]
      · rw [printElements, printObjectMembers]
    rw [hresult]
    exact puts_nothing ⟨tail, by rwa [List.append_nil]⟩
  | node b s n ihs ihn =>
    obtain ⟨rfl, v, hv, -, -, hs, hn⟩ := h
    obtain ⟨hnumber, hbelow, hbehind⟩ := hfit
    rw [labelOf_eq hv] at hnumber
    rw [Shape.size] at hcalls
    obtain ⟨calls, rfl⟩ : ∃ k, calls = k + 3 := ⟨calls - 3, by omega⟩
    have hlast : v.next.isSome = !isLast (n.read (labelOf H)) := by
      cases n with
      | nil =>
        have hnext : v.next = none := hn
        rw [hnext]
        rfl
      | node x s' n' =>
        obtain ⟨hnext, -⟩ := hn
        have hnext : v.next = some x := hnext
        rw [hnext]
        rfl
    rw [Shape.read, labelOf_eq hv]
    refine putsElements_node hv (fun depth text tail S hshows => ?_) hlast
      (ihn hn hbehind (by omega))
    exact printValue_puts hv hshows hnumber (ihs hs hbelow (by omega))

/-- The value of a whole tree. -/
theorem printValue_document {b : ℕ} {s : Shape} (htree : Tree H b c s)
    (hfit : NumbersFit stdio (.node c.label (s.read (labelOf H)) .nil))
    (hcalls : 3 * s.size + 2 ≤ calls) (hshows : Shows hooks M₀ a 0 text tail S) :
    Puts hooks M₀ a text (documentText stdio a.format c.label (s.read (labelOf H)))
      (Ends hooks M₀ a 0 text) (printValue stdio hooks calls H (some b) S) := by
  obtain ⟨calls, rfl⟩ : ∃ k, calls = k + 2 := ⟨calls - 2, by omega⟩
  exact printValue_puts htree.cell hshows hfit.1
    (putsElements htree.children hfit.2.1 (by omega))

end Values

end BoxUtils.CJson
