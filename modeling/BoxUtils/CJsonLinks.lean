import Mathlib.Data.List.Find
import BoxUtils.CJson

/-!
What the cJSON functions on one list of children do: the walks find the last
child, the child at an index and the first child with a name, and the changes of
links are those of putting a child behind the last one and of cutting one out.
-/
namespace BoxUtils.CJson

open LinkedShapes

variable {H H' : Nodes} {q p : Option ℕ} {l : List ℕ} {a b c o x : ℕ} {v w : CJSON}

section Walks

theorem lastSibling_eq {n : ℕ} (h : Chain H q (some a) l none) (hn : l.length ≤ n) :
    lastSibling H n a = l.getLast? := by
  induction l generalizing q a n with
  | nil => cases h
  | cons b l ih =>
    obtain ⟨heq, v, hv, -, hrest⟩ := h
    obtain rfl := Option.some.inj heq
    obtain ⟨n, rfl⟩ : ∃ k, n = k + 1 := ⟨n - 1, by simp at hn; omega⟩
    cases hnext : v.next with
    | none =>
      have hl : l = [] := by
        cases l with
        | nil => rfl
        | cons d l =>
          have := hrest.1
          rw [linked_next, hnext] at this
          cases this
      subst hl
      simp [lastSibling, hv, hnext]
    | some d =>
      rw [linked_next, hnext] at hrest
      cases l with
      | nil => cases hrest
      | cons e l =>
        rw [List.getLast?_cons_cons, ← ih hrest (by simpa using hn)]
        simp [lastSibling, hv, hnext]

theorem walk_eq (h : Chain H q p l none) (index : ℕ) : walk H index p = some l[index]? := by
  induction index generalizing q p l with
  | zero =>
    cases l with
    | nil =>
      obtain rfl : p = none := h
      rfl
    | cons a l =>
      obtain ⟨rfl, -⟩ := h
      rfl
  | succ index ih =>
    cases l with
    | nil =>
      obtain rfl : p = none := h
      rfl
    | cons a l =>
      obtain ⟨rfl, v, hv, -, hrest⟩ := h
      simp only [walk, hv, Option.bind_eq_bind, Option.bind_some, List.getElem?_cons_succ]
      exact ih hrest

theorem getArrayItem_eq (hv : H.cell a = some v) (h : Chain H none v.child l none) (index : ℕ) :
    getArrayItem H (some a) index = some l[index]? := by
  simp only [getArrayItem, hv, Option.bind_eq_bind, Option.bind_some]
  exact walk_eq h index

/-- The loop stops at the first node where the condition does not say to go on. -/
theorem seek_eq (goOn : CJSON → Option Bool) {n : ℕ} (h : Chain H q p l none)
    (hn : l.length ≤ n) :
    seek H goOn n p =
      match l.find? fun a => (H.cell a).bind goOn ≠ some true with
      | none => some none
      | some a => ((H.cell a).bind goOn).map fun _ => some a := by
  induction l generalizing q p n with
  | nil =>
    obtain rfl : p = none := h
    cases n <;> rfl
  | cons b l ih =>
    obtain ⟨rfl, v, hv, -, hrest⟩ := h
    obtain ⟨n, rfl⟩ : ∃ k, n = k + 1 := ⟨n - 1, by simp at hn; omega⟩
    have ih' := ih hrest (n := n) (by simpa using hn)
    simp only [seek, hv, Option.bind_eq_bind, Option.bind_some, List.find?_cons]
    cases hgo : goOn v with
    | none => simp [hv, hgo]
    | some go =>
      cases go with
      | false => simp [hv, hgo]
      | true => simpa [hgo] using ih'

end Walks

section Names

/-- The name of a node, if it has one. -/
def nameOf (H : Nodes) (a : ℕ) : Option Text := (H.cell a).bind CJSON.string

/-- Where the search for a name stops. -/
def stops (key : Text) (caseSensitive : Bool) (name : Option Text) : Bool :=
  if caseSensitive then name = none ∨ name = some key
  else caseInsensitiveStrcmp (some key) name = 0

theorem nameOf_eq (hv : H.cell a = some v) : nameOf H a = v.string := by
  simp [nameOf, hv]

theorem getObjectItem_eq (hv : H.cell o = some v) (h : Chain H none v.child l none)
    (key : Text) (caseSensitive : Bool) :
    getObjectItem H (some o) (some key) caseSensitive =
      some ((l.find? fun a => stops key caseSensitive (nameOf H a)).filter
        fun a => (nameOf H a).isSome) := by
  have hstop : ∀ a ∈ l,
      decide ((H.cell a).bind (fun c => some (searchOn key caseSensitive c)) ≠ some true) =
        stops key caseSensitive (nameOf H a) := by
    intro a ha
    obtain ⟨u, hu⟩ := h.live ha
    rw [nameOf_eq hu, hu, stops]
    cases caseSensitive <;> simp [searchOn, or_iff_not_imp_left]
  simp only [getObjectItem, hv, Option.bind_eq_bind, Option.bind_some]
  rw [seek_eq _ h h.length_le, List.find?_congr hstop]
  cases hfind : l.find? fun a => stops key caseSensitive (nameOf H a) with
  | none => rfl
  | some a =>
    obtain ⟨u, hu⟩ := h.live (List.mem_of_find?_eq_some hfind)
    simp only [hu, Option.bind_some, Option.map_some, Option.filter, nameOf_eq hu]
    cases u.string <;> rfl

end Names

section Changes

theorem suffixObject_attaches (ha : H.cell a ≠ none) (hb : H.cell b ≠ none) (c : ℕ) :
    ∃ H', suffixObject H (some a) b = some H' ∧ Attaches H H' b c (some a) ∧
      ∀ y, y ≠ a → y ≠ b → H'.cell y = H.cell y := by
  obtain ⟨H₁, h₁, hc₁⟩ := Heap.exists_modify ha fun c => { c with next := some b }
  obtain ⟨H₂, h₂, hc₂⟩ := Heap.exists_modify (h := H₁) (a := b) (by simp [hc₁, hb])
    fun c => { c with prev := some a }
  have hcell : ∀ y u, H.cell y = some u → H₂.cell y = some
      { u with
        next := if y = a then some b else u.next
        prev := if y = b then some a else u.prev } := by
    intro y u hu
    rw [hc₂, hc₁, hu]
    simp only [Option.map_some, Option.some.injEq]
    split_ifs <;> rfl
  refine ⟨H₂, by simp [suffixObject, h₁, h₂], ⟨fun y hy => ?_, fun y u hu => ?_⟩,
    fun y hya hyb => ?_⟩
  · rw [hc₂, hc₁, hy]
    rfl
  · exact ⟨_, hcell y u hu, by simp, by simp [eq_comm], by simp, id⟩
  · simp [hc₂, hc₁, hya, hyb]

/-- Only the first child of a node that is no reference is set. -/
theorem modify_child_attaches (hv : H.cell c = some v) (href : v.isReference = false) (b : ℕ) :
    ∃ H', (H.modify c fun d => { d with child := some b }) = some H' ∧
      Attaches H H' b c none ∧ ∀ y, y ≠ c → H'.cell y = H.cell y := by
  obtain ⟨H₁, h₁, hc₁⟩ := Heap.exists_modify (h := H) (a := c) (by simp [hv])
    fun d => { d with child := some b }
  refine ⟨H₁, h₁, ⟨fun y hy => by rw [hc₁, hy]; rfl, fun y u hu => ?_⟩,
    fun y hyc => by simp [hc₁, hyc]⟩
  refine ⟨_, by rw [hc₁, hu]; rfl, ?_⟩
  by_cases hy : y = c
  · subst y
    obtain rfl := Option.some.inj (hu.symm.trans hv)
    simp only [if_true, linked_sound]
    refine ⟨by simp, by simp, by simp, fun _ hif => ?_⟩
    exact absurd hif (by simp [CJSON.isReference] at href ⊢; exact href)
  · simp [hy]

theorem addItemToArray_attaches (hv : H.cell c = some v) (href : v.isReference = false)
    (hchain : Chain H none v.child l none) (hb : H.cell b ≠ none) :
    ∃ H', addItemToArray H (some c) (some b) = some (H', true) ∧
      Attaches H H' b c l.getLast? := by
  cases l with
  | nil =>
    have hnone : v.child = none := hchain
    obtain ⟨H', hmod, hattach, -⟩ := modify_child_attaches hv href b
    exact ⟨H', by simp [addItemToArray, hv, hnone, hmod], hattach⟩
  | cons a l =>
    have hchild : v.child = some a := hchain.1
    rw [hchild] at hchain
    have hlast := lastSibling_eq hchain hchain.length_le
    obtain ⟨last, hl⟩ : ∃ last, (a :: l).getLast? = some last := ⟨_, List.getLast?_cons⟩
    obtain ⟨u, hu⟩ := hchain.live (List.mem_of_getLast? hl)
    obtain ⟨H', hsuffix, hattach, -⟩ :=
      suffixObject_attaches (H := H) (a := last) (by simp [hu]) hb c
    rw [hl] at hlast ⊢
    exact ⟨H', by simp [addItemToArray, hv, hchild, hlast, hsuffix], hattach⟩

theorem suffixObject_gone (hb : H.cell b = none) (p : Option ℕ) : suffixObject H p b = none := by
  cases p with
  | none => rfl
  | some a =>
    cases ha : H.cell a with
    | none => simp [suffixObject, Heap.modify_dead ha]
    | some v =>
      obtain ⟨H₁, h₁, hc₁⟩ := Heap.exists_modify (h := H) (a := a) (by simp [ha])
        fun d => { d with next := some b }
      have hgone : H₁.cell b = none := by simp [hc₁, hb]
      simp [suffixObject, h₁, Heap.modify_dead hgone]

/-- Adding a node that is gone succeeds only as the first child. -/
theorem addItemToArray_gone (hv : H.cell c = some v) (href : v.isReference = false)
    (hb : H.cell b = none) :
    addItemToArray H (some c) (some b) = none ∨
      ∃ H', addItemToArray H (some c) (some b) = some (H', true) ∧ Attaches H H' b c none := by
  cases hchild : v.child with
  | none =>
    obtain ⟨H', hmod, hattach, -⟩ := modify_child_attaches hv href b
    exact Or.inr ⟨H', by simp [addItemToArray, hv, hchild, hmod], hattach⟩
  | some a =>
    refine Or.inl ?_
    simp [addItemToArray, hv, hchild, suffixObject_gone hb]

/-- A change through a pointer that may be null. -/
theorem exists_modify_pointer (hp : ∀ b, p = some b → H.cell b ≠ none) (f : CJSON → CJSON) :
    ∃ H', modifyPointer H p f = some H' ∧
      ∀ y, H'.cell y = (H.cell y).map fun v => if p = some y then f v else v := by
  cases p with
  | none => exact ⟨H, rfl, fun y => by simp⟩
  | some b =>
    obtain ⟨H', hmod, hcell⟩ := Heap.exists_modify (hp b rfl) f
    exact ⟨H', hmod, fun y => by simp [hcell, eq_comm]⟩

/-- The changes of links in `cJSON_DetachItemViaPointer`. -/
theorem detachItemViaPointer_detaches (ho : H.cell o ≠ none) (hw : H.cell x = some w)
    (hprev : ∀ b, w.prev = some b → H.cell b ≠ none)
    (hnext : ∀ b, w.next = some b → H.cell b ≠ none) :
    ∃ H', detachItemViaPointer H (some o) (some x) = some (H', some x) ∧
      Detaches H H' x o w := by
  obtain ⟨H₁, h₁, hc₁⟩ := exists_modify_pointer hprev fun d => { d with next := w.next }
  have hw₁ : H₁.cell x = some w := by
    rw [hc₁, hw]
    simp only [Option.map_some, Option.some.injEq]
    split_ifs <;> rfl
  obtain ⟨H₂, h₂, hc₂⟩ := exists_modify_pointer (H := H₁) (p := w.next)
    (fun b hb => by simp [hc₁, hnext b hb]) fun d => { d with prev := w.prev }
  have hw₂ : H₂.cell x = some w := by
    rw [hc₂, hw₁]
    simp only [Option.map_some, Option.some.injEq]
    split_ifs <;> rfl
  obtain ⟨H₃, h₃, hc₃⟩ := Heap.exists_modify (h := H₂) (a := o) (by simp [hc₂, hc₁, ho])
    fun d => if d.child = some x then { d with child := w.next } else d
  obtain ⟨H₄, h₄, hc₄⟩ := Heap.exists_modify (h := H₃) (a := x) (by simp [hc₃, hw₂])
    fun d => { d with prev := none, next := none }
  have hcell₂ : ∀ y u, H.cell y = some u → H₂.cell y = some
      { u with
        prev := if w.next = some y then w.prev else u.prev
        next := if w.prev = some y then w.next else u.next } := by
    intro y u hu
    rw [hc₂, hc₁, hu]
    simp only [Option.map_some, Option.some.injEq]
    split_ifs <;> rfl
  have hcell₃ : ∀ y u, H.cell y = some u → H₃.cell y = some
      { u with
        prev := if w.next = some y then w.prev else u.prev
        next := if w.prev = some y then w.next else u.next
        child := if y = o ∧ u.child = some x then w.next else u.child } := by
    intro y u hu
    rw [hc₃, hcell₂ y u hu, Option.map_some, ite_and]
    by_cases hyo : y = o
    · by_cases hchild : u.child = some x
      · simp only [if_pos hyo, if_pos hchild]
      · simp only [if_pos hyo, if_neg hchild]
    · simp only [if_neg hyo]
  have hcell : ∀ y u, H.cell y = some u → H₄.cell y = some
      { u with
        prev := if y = x then none else if w.next = some y then w.prev else u.prev
        next := if y = x then none else if w.prev = some y then w.next else u.next
        child := if y = o ∧ u.child = some x then w.next else u.child } := by
    intro y u hu
    rw [hc₄, hcell₃ y u hu, Option.map_some]
    by_cases hyx : y = x
    · simp only [if_pos hyx]
    · simp only [if_neg hyx]
  refine ⟨H₄, ?_, ⟨fun y hy => ?_, fun y u hu => ⟨_, hcell y u hu, rfl, rfl, rfl, ?_⟩⟩⟩
  · simp only [detachItemViaPointer, hw, Option.bind_eq_bind, Option.bind_some, h₁, hw₁, h₂, hw₂,
      h₃, h₄]
  · rw [hc₄, hc₃, hc₂, hc₁, hy]
    rfl
  · -- a reference has no child that could be cut out
    simp only [linked_sound]
    intro hsound href
    obtain ⟨hnone, hkind⟩ := hsound href
    exact ⟨by simp [hnone], hkind⟩

/-- The neighbours of a node of a list are there. -/
theorem neighbours_live (h : Chain H none p l none) (hx : x ∈ l) (hw : H.cell x = some w) :
    (∀ b, w.prev = some b → H.cell b ≠ none) ∧ ∀ b, w.next = some b → H.cell b ≠ none := by
  obtain ⟨l₁, l₂, rfl⟩ := List.append_of_mem hx
  obtain ⟨m, h₁, rfl, w', hw', hprev, h₂⟩ := Chain.append.mp h
  obtain rfl := Option.some.inj (hw.symm.trans hw')
  simp only [linked_prev, linked_next, Option.or_none] at hprev h₂
  constructor
  · intro b hb
    rw [hprev] at hb
    obtain ⟨v, hv⟩ := h.live (List.mem_append_left _ (List.mem_of_getLast? hb))
    simp [hv]
  · intro b hb
    rw [hb] at h₂
    cases l₂ with
    | nil => cases h₂
    | cons d l₂ =>
      obtain ⟨heq, v, hv, -⟩ := h₂
      obtain rfl := Option.some.inj heq
      simp [hv]

end Changes

end BoxUtils.CJson
