import BoxUtils.CJsonPrint
import BoxUtils.MergePatch

/-!
The text of a document: what the printer writes for the labels of its nodes, without the
buffer it writes to. There is no text for a node of no kind, and none for a raw node
without a string.
-/
namespace BoxUtils.CJson

open MergePatch

section Texts

/-- A string between quotes; one that is missing is written as the empty one. -/
def stringText (string : Option Text) : List UInt8 :=
  quote :: (match string with | none => [] | some s => s.1.flatMap escape) ++ [quote]

def onlyFormatted (format : Bool) (bytes : List UInt8) : List UInt8 := if format then bytes else []

namespace Container

def start (container : Container) (format : Bool) : List UInt8 :=
  match container with
  | array => [91]
  | object => [123] ++ onlyFormatted format [10]

def stop (container : Container) (format : Bool) (depth : ℕ) : List UInt8 :=
  match container with
  | array => [93]
  | object => onlyFormatted format (tabs depth) ++ [125]

/-- What comes before the value of an element. -/
def before (container : Container) (format : Bool) (depth : ℕ) (name : Option Text) :
    List UInt8 :=
  match container with
  | array => []
  | object => onlyFormatted format (tabs depth) ++
      (stringText name ++ ([58] ++ onlyFormatted format [9]))

def behind (container : Container) (format last : Bool) : List UInt8 :=
  match container with
  | array => if last then [] else [44] ++ onlyFormatted format [32]
  | object => (if last then [] else [44]) ++ onlyFormatted format [10]

end Container

/-- Two texts one after the other. -/
def joined : Option (List UInt8) → Option (List UInt8) → Option (List UInt8) :=
  Option.map₂ (· ++ ·)

def isLast {L : Type} : Forest L → Bool
  | .nil => true
  | .node _ _ _ => false

variable (stdio : Stdio) (format : Bool)

/-- A container at some depth, with the text of its elements. -/
def containerText (container : Container) (depth : ℕ) (elements : Option (List UInt8)) :
    Option (List UInt8) :=
  joined (some (container.start format)) (joined elements (some (container.stop format depth)))

/-- A value at some depth, if `elements` gives the text of what is in it. -/
def valueText (depth : ℕ) (l : Label) (elements : Container → Option (List UInt8)) :
    Option (List UInt8) :=
  if l.kind = cJSONNull then some [110, 117, 108, 108]
  else if l.kind = cJSONFalse then some [102, 97, 108, 115, 101]
  else if l.kind = cJSONTrue then some [116, 114, 117, 101]
  else if l.kind = cJSONNumber then numberBuffer stdio l.valuedouble
  else if l.kind = cJSONRaw then l.valuestring.map Subtype.val
  else if l.kind = cJSONString then some (stringText l.valuestring)
  else if l.kind = cJSONArray then containerText format .array depth (elements .array)
  else if l.kind = cJSONObject then containerText format .object depth (elements .object)
  else none

/-- The elements of a container, whose nesting is counted from 1 on. -/
def elementsText (container : Container) (depth : ℕ) : Forest Label → Option (List UInt8)
  | .nil => some []
  | .node l c n =>
    joined (some (container.before format depth l.name))
      (joined (valueText stdio format depth l fun inner => elementsText inner (depth + 1) c)
        (joined (some (container.behind format (isLast n))) (elementsText container depth n)))

/-- The text of a whole document. -/
def documentText (l : Label) (c : Forest Label) : Option (List UInt8) :=
  valueText stdio format 0 l fun container => elementsText stdio format container 1 c

/-- The numbers of a document have their places in the buffer of 26 bytes. -/
def NumbersFit (f : Forest Label) : Prop :=
  f.Everywhere fun l _ => l.kind = cJSONNumber → numberBuffer stdio l.valuedouble ≠ none

end Texts

section Escapes

theorem length_escape (c : UInt8) : (escape c).length = 1 + escapeCharacters c := by
  have h : ∀ n : Fin 256, (escape ⟨⟨n⟩⟩).length = 1 + escapeCharacters ⟨⟨n⟩⟩ := by decide +kernel
  exact h c.toBitVec.toFin

theorem zero_notMem_escape (c : UInt8) : 0 ∉ escape c := by
  have h : ∀ n : Fin 256, (0 : UInt8) ∉ escape ⟨⟨n⟩⟩ := by decide +kernel
  exact h c.toBitVec.toFin

/-- A character that is not escaped is copied. -/
theorem escape_eq (c : UInt8) (h : escapeCharacters c = 0) : escape c = [c] := by
  have hall : ∀ n : Fin 256, escapeCharacters ⟨⟨n⟩⟩ = 0 → escape ⟨⟨n⟩⟩ = [⟨⟨n⟩⟩] := by
    decide +kernel
  exact hall c.toBitVec.toFin h

theorem length_escaped (s : List UInt8) :
    (s.flatMap escape).length = s.length + (s.map escapeCharacters).sum := by
  induction s with
  | nil => rfl
  | cons c s ih =>
    rw [List.flatMap_cons, List.length_append, ih, length_escape, List.map_cons, List.sum_cons,
      List.length_cons]
    omega

/-- Where nothing is to be escaped, copying the string and escaping it are the same. -/
theorem escaped_eq_self {s : List UInt8} (h : (s.map escapeCharacters).sum = 0) :
    s.flatMap escape = s := by
  induction s with
  | nil => rfl
  | cons c s ih =>
    rw [List.map_cons, List.sum_cons] at h
    rw [List.flatMap_cons, ih (by omega), escape_eq c (by omega), List.singleton_append]

theorem zero_notMem_escaped (s : List UInt8) : 0 ∉ s.flatMap escape := by
  intro h
  obtain ⟨c, -, hc⟩ := List.mem_flatMap.mp h
  exact zero_notMem_escape c hc

end Escapes

section NoNul

variable {stdio : Stdio} {format : Bool} {depth : ℕ} {v w : List UInt8}

theorem joined_eq_some {x y : Option (List UInt8)} (h : joined x y = some w) :
    ∃ v₁ v₂, x = some v₁ ∧ y = some v₂ ∧ w = v₁ ++ v₂ := by
  obtain ⟨v₁, v₂, hx, hy, rfl⟩ := Option.map₂_eq_some_iff.mp h
  exact ⟨v₁, v₂, hx, hy, rfl⟩

theorem zero_notMem_tabs (n : ℕ) : (0 : UInt8) ∉ tabs n := by
  simp [tabs]

theorem zero_notMem_onlyFormatted (format : Bool) (h : 0 ∉ v) : 0 ∉ onlyFormatted format v := by
  unfold onlyFormatted
  split
  · exact h
  · exact List.not_mem_nil

theorem zero_notMem_stringText (string : Option Text) : 0 ∉ stringText string := by
  have hmiddle : ∀ s : List UInt8, (0 : UInt8) ∉ s → 0 ∉ quote :: s ++ [quote] := by
    intro s hs
    simp [hs, quote]
  cases string with
  | none => exact hmiddle [] List.not_mem_nil
  | some s => exact hmiddle _ (zero_notMem_escaped s.1)

theorem zero_notMem_start (container : Container) : 0 ∉ container.start format := by
  cases container with
  | array => simp [Container.start]
  | object =>
    have hline := zero_notMem_onlyFormatted format (v := [10]) (by simp)
    simp [Container.start, hline]

theorem zero_notMem_stop (container : Container) : 0 ∉ container.stop format depth := by
  cases container with
  | array => simp [Container.stop]
  | object =>
    have htabs := zero_notMem_onlyFormatted format (zero_notMem_tabs depth)
    simp [Container.stop, htabs]

theorem zero_notMem_before (container : Container) (name : Option Text) :
    0 ∉ container.before format depth name := by
  cases container with
  | array => exact List.not_mem_nil
  | object =>
    have htabs := zero_notMem_onlyFormatted format (zero_notMem_tabs depth)
    have htab := zero_notMem_onlyFormatted format (v := [9]) (by simp)
    have hname := zero_notMem_stringText name
    simp [Container.before, htabs, htab, hname]

theorem zero_notMem_behind (container : Container) (last : Bool) :
    0 ∉ container.behind format last := by
  cases container with
  | array =>
    have hblank := zero_notMem_onlyFormatted format (v := [32]) (by simp)
    cases last <;> simp [Container.behind, hblank]
  | object =>
    have hline := zero_notMem_onlyFormatted format (v := [10]) (by simp)
    cases last <;> simp [Container.behind, hline]

theorem zero_notMem_joined {x y : Option (List UInt8)} (hx : ∀ v, x = some v → 0 ∉ v)
    (hy : ∀ v, y = some v → 0 ∉ v) (h : joined x y = some w) : 0 ∉ w := by
  obtain ⟨v₁, v₂, h₁, h₂, rfl⟩ := joined_eq_some h
  rw [List.mem_append, not_or]
  exact ⟨hx v₁ h₁, hy v₂ h₂⟩

theorem zero_notMem_some {u : List UInt8} (hu : 0 ∉ u) : ∀ v, some u = some v → 0 ∉ v := by
  rintro v ⟨⟩
  exact hu

theorem zero_notMem_numberString (d : Double) : 0 ∉ numberString stdio d := by
  cases d with
  | finite value =>
    rw [numberString]
    split
    · exact (stdio.sprintf 15 value).2
    · exact (stdio.sprintf 17 value).2
  | nan => simp [numberString]
  | infinite negative => simp [numberString]

theorem zero_notMem_numberBuffer {d : Double} (h : numberBuffer stdio d = some v) : 0 ∉ v := by
  unfold numberBuffer at h
  split at h
  · exact zero_notMem_some (zero_notMem_numberString d) v h
  · cases h

theorem zero_notMem_valueText {l : Label} {elements : Container → Option (List UInt8)}
    (hel : ∀ container v, elements container = some v → 0 ∉ v)
    (h : valueText stdio format depth l elements = some w) : 0 ∉ w := by
  unfold valueText at h
  have hcontainer : ∀ container, containerText format container depth (elements container) =
      some w → 0 ∉ w := by
    intro container h
    exact zero_notMem_joined (zero_notMem_some (zero_notMem_start container))
      (fun v hv => zero_notMem_joined (hel container)
        (zero_notMem_some (zero_notMem_stop container)) hv) h
  split at h
  · exact zero_notMem_some (by simp) w h
  split at h
  · exact zero_notMem_some (by simp) w h
  split at h
  · exact zero_notMem_some (by simp) w h
  split at h
  · exact zero_notMem_numberBuffer h
  split at h
  · obtain ⟨raw, -, rfl⟩ := Option.map_eq_some_iff.mp h
    exact raw.2
  split at h
  · exact zero_notMem_some (zero_notMem_stringText l.valuestring) w h
  split at h
  · exact hcontainer .array h
  split at h
  · exact hcontainer .object h
  · cases h

/-- A text has no NUL. -/
theorem zero_notMem_elementsText (container : Container) (f : Forest Label)
    (h : elementsText stdio format container depth f = some w) : 0 ∉ w := by
  induction f generalizing container depth w with
  | nil => exact zero_notMem_some List.not_mem_nil w h
  | node l c n ihc ihn =>
    rw [elementsText] at h
    refine zero_notMem_joined (zero_notMem_some (zero_notMem_before container l.name))
      (fun v hv => ?_) h
    refine zero_notMem_joined (fun v hv => ?_) (fun v hv => ?_) hv
    · exact zero_notMem_valueText (fun inner u hu => ihc inner hu) hv
    · exact zero_notMem_joined (zero_notMem_some (zero_notMem_behind container (isLast n)))
        (fun u hu => ihn container hu) hv

theorem zero_notMem_documentText {l : Label} {c : Forest Label}
    (h : documentText stdio format l c = some w) : 0 ∉ w :=
  zero_notMem_valueText (fun container _ hv => zero_notMem_elementsText container c hv) h

end NoNul

end BoxUtils.CJson
