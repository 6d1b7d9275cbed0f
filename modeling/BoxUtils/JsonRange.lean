import BoxUtils.JsonIterator
import BoxUtils.Loops

/-!
The range-based loop over a Json. `begin` and `end` find their places independently: the
one at the first child, the other behind the last, to which it walks. Without a child there
is no place for either, and both throw.
-/
namespace BoxUtils.Json

open CJson LinkedShapes Shared Loops

/-- The operator `!=` of two iterators. -/
def notEqual (H : Holders) (iter other : JsonIterator) : Option Bool := do
  let holder ← Shared.read H iter.json
  let holder' ← Shared.read H other.json
  some (holder.cjson ≠ holder'.cjson)

/-- The loop with its iterator, and what the body of the loop has been given. -/
structure Ranging where
  holders : Holders
  iter : JsonIterator
  visited : List (Option ℕ)

/-- One turn of the loop, up to the given end. -/
def rangeTurn (N : Nodes) (last : JsonIterator) (s : Ranging) :
    Turn Ranging (Option (Attempt (List (Option ℕ)))) :=
  match notEqual s.holders s.iter last with
  | none => .done none
  | some false => .done (some (.ok s.visited))
  | some true =>
    match denoted s.holders s.iter.json, increment N s.holders s.iter with
    | some child, some (.ok (holders, iter)) => .again ⟨holders, iter, s.visited ++ [child]⟩
    | some _, some (.error e) => .done (some (.error e))
    | _, _ => .done none

/-- What `for(auto &val:json)` comes to: the children that `val` has denoted in turn. -/
def RangeFor (N : Nodes) (H : Holders) (json : ℕ)
    (r : Option (Attempt (List (Option ℕ)))) : Prop :=
  match beginIterator N H json with
  | none => r = none
  | some (.error e) => r = some (.error e)
  | some (.ok (H, iter)) =>
    match endIterator N H json with
    | none => r = none
    | some (.error e) => r = some (.error e)
    | some (.ok (H, last)) => Yields (rangeTurn N last) ⟨H, iter, []⟩ r

/-- The iterator has come to an index, and the end stays where it is. -/
structure Ranges (last : JsonIterator) (children : List ℕ) (s : Ranging) (i : ℕ) : Prop where
  stands : StandsAt s.holders children s.iter i
  atEnd : ∃ k, s.holders.cell last.json = some ⟨⟨none, true⟩, k⟩
  apart : last.json ≠ s.iter.json
  visited : s.visited = (children.take i).map some

section Turns

variable {N : Nodes} {last : JsonIterator} {children : List ℕ} {s : Ranging} {p : Option ℕ}
variable {i : ℕ}

theorem Ranges.notEqual_eq (h : Ranges last children s i) :
    notEqual s.holders s.iter last = some (decide (children[i]? ≠ none)) := by
  obtain ⟨k, hcell⟩ := h.stands.child
  obtain ⟨k', hlast⟩ := h.atEnd
  simp only [notEqual, read_eq hcell, read_eq hlast, Option.bind_eq_bind, Option.bind_some]

/-- Before the end a turn visits the child with the index and goes on to the next. -/
theorem Ranges.again (hc : Chain N none p children none) (h : Ranges last children s i)
    (hi : i < children.length) :
    ∃ t, rangeTurn N last s = .again t ∧ Ranges last children t (i + 1) := by
  obtain ⟨k, hcell⟩ := h.stands.child
  obtain ⟨k', hlast⟩ := h.atEnd
  have hnow : children[i]? = some children[i] := List.getElem?_eq_getElem hi
  let next : JsonIterator := { s.iter with
    prev := if i + 1 = children.length then children.getLast? else s.iter.prev }
  let H := s.holders.put s.iter.json ⟨⟨children[i + 1]?, true⟩, k⟩
  refine ⟨⟨H, next, s.visited ++ [some children[i]]⟩, ?_, ?_, ⟨k', ?_⟩, h.apart, ?_⟩
  · have hne : notEqual s.holders s.iter last = some true := by
      rw [h.notEqual_eq, hnow]
      rfl
    simp only [rangeTurn, hne, h.stands.denoted, increment_inside hc hcell hi, hnow]
    rfl
  · refine StandsAt.put ⟨_, hcell⟩ hi ?_
    split
    · exact Or.inr rfl
    · exact h.stands.prev
  · rw [Heap.cell_put_of_ne _ _ h.apart]
    exact hlast
  · rw [h.visited, List.take_add_one, hnow, List.map_append]
    rfl

theorem Ranges.done (h : Ranges last children s children.length) :
    rangeTurn N last s = .done (some (.ok (children.map some))) := by
  have heq : notEqual s.holders s.iter last = some false := by
    rw [h.notEqual_eq, List.getElem?_eq_none le_rfl]
    rfl
  simp only [rangeTurn, heq, h.visited, List.take_length]

/-- From any index the loop goes on to the end and has then visited all the children. -/
theorem Ranges.yields (hc : Chain N none p children none) (h : Ranges last children s i) :
    Yields (rangeTurn N last) s (some (.ok (children.map some))) := by
  have hinside : i ≤ children.length := h.stands.inside
  induction hn : children.length - i generalizing s i with
  | zero =>
    obtain rfl : i = children.length := by omega
    exact .done h.done
  | succ n ih =>
    obtain ⟨t, hturn, ht⟩ := h.again hc (by omega)
    exact .again hturn (ih ht ht.stands.inside (by omega))

end Turns

section Range

variable {N : Nodes} {H : Holders} {container json : ℕ} {children : List ℕ} {k : ℤ}

/-- Without children neither `begin` nor `end` has a place to stand at. -/
theorem iterate_empty (hc : Children N container [])
    (hjson : ∃ ref, H.cell json = some ⟨⟨some container, ref⟩, k⟩)
    (start : ℕ → Option (Holders × JsonIterator)) :
    iterate N H json start = some (.error .nullPtrException) := by
  obtain ⟨v, hv, hkind, hchild⟩ := hc
  obtain ⟨ref, hjson⟩ := hjson
  have hnone : v.child = none := hchild
  simp [iterate, read_eq hjson, deref, hv, hkind, hnone]

/-- The loop visits the children in their order, each once. -/
theorem rangeFor_nonempty (hc : Children N container children) (hne : children ≠ [])
    (hjson : ∃ ref, H.cell json = some ⟨⟨some container, ref⟩, k⟩) :
    RangeFor N H json (some (.ok (children.map some))) := by
  obtain ⟨first, q, hfirst, -, hbegin⟩ := iterate_eq hc hne hjson
    fun child => some (newIterator H (some child) none)
  let H₁ := (newIterator H (some first) none).1
  let iter := (newIterator H (some first) none).2
  have hjson₁ : ∃ ref, H₁.cell json = some ⟨⟨some container, ref⟩, k⟩ := by
    obtain ⟨ref, hcell⟩ := hjson
    exact ⟨ref, Heap.cell_alloc_of_live _ hcell⟩
  obtain ⟨first', q', -, hchain, hend⟩ := iterate_eq hc hne hjson₁
    fun child => (lastSibling N N.fresh child).map fun last => newIterator H₁ none (some last)
  rw [lastSibling_eq hchain hchain.length_le, List.getLast?_eq_getLast_of_ne_nil hne] at hend
  have hbegin : beginIterator N H json = some (.ok (H₁, iter)) := hbegin
  have hend : endIterator N H₁ json =
      some (.ok (newIterator H₁ none (some (children.getLast hne)))) := hend
  simp only [RangeFor, hbegin, hend]
  obtain ⟨v, -, -, hchildren⟩ := hc
  have hiter : H₁.cell iter.json = some ⟨⟨children[0]?, true⟩, 1⟩ := by
    rw [hfirst]
    exact Heap.cell_alloc_self H _
  refine Ranges.yields hchildren (i := 0) ⟨⟨⟨1, ?_⟩, Nat.zero_le _, Or.inl rfl⟩, ⟨1, ?_⟩, ?_, rfl⟩
  · exact Heap.cell_alloc_of_live _ hiter
  · exact Heap.cell_alloc_self H₁ _
  · exact (Nat.lt_succ_self H.fresh).ne'

end Range

/-- The loop over an array or object with children visits each of them once and in their
order; without children `begin` and `end` both throw, and so does the loop. -/
theorem rangeFor_children {N : Nodes} {H : Holders} {container json : ℕ} {children : List ℕ}
    {k : ℤ} (hc : Children N container children)
    (hjson : ∃ ref, H.cell json = some ⟨⟨some container, ref⟩, k⟩) :
    (children ≠ [] → RangeFor N H json (some (.ok (children.map some)))) ∧
      (children = [] → beginIterator N H json = some (.error .nullPtrException) ∧
        endIterator N H json = some (.error .nullPtrException) ∧
        RangeFor N H json (some (.error .nullPtrException))) := by
  refine ⟨fun hne => rangeFor_nonempty hc hne hjson, ?_⟩
  rintro rfl
  have hbegin : beginIterator N H json = some (.error .nullPtrException) := iterate_empty hc hjson _
  refine ⟨hbegin, iterate_empty hc hjson _, ?_⟩
  simp only [RangeFor, hbegin]

/-- A Json that holds a container. -/
def holding (container : ℕ) : Holders := Heap.empty.alloc ⟨⟨some container, false⟩, 1⟩

theorem rangeFor_children_pair :
    ([1, 2] ≠ [] → RangeFor pair (holding 0) 0 (some (.ok ([1, 2].map some)))) ∧
      ([1, 2] = ([] : List ℕ) →
        beginIterator pair (holding 0) 0 = some (.error .nullPtrException) ∧
        endIterator pair (holding 0) 0 = some (.error .nullPtrException) ∧
        RangeFor pair (holding 0) 0 (some (.error .nullPtrException))) :=
  rangeFor_children pair_children ⟨false, rfl⟩

/-- An array without children. -/
def emptyArray : Nodes := Heap.empty.alloc { type := cJSONArray }

theorem empty_throws : ¬ ∀ (N : Nodes) (H : Holders) (container json : ℕ) (children : List ℕ)
    (k : ℤ), Children N container children →
      (∃ ref, H.cell json = some ⟨⟨some container, ref⟩, k⟩) →
      RangeFor N H json (some (.ok (children.map some))) := by
  intro h
  have hc : Children emptyArray 0 [] := ⟨_, rfl, Or.inl (by decide), rfl⟩
  have hloop := h emptyArray (holding 0) 0 0 [] 1 hc ⟨false, rfl⟩
  have hbegin : beginIterator emptyArray (holding 0) 0 = some (.error .nullPtrException) :=
    iterate_empty hc ⟨false, rfl⟩ _
  simp only [RangeFor, hbegin] at hloop
  cases hloop

end BoxUtils.Json
