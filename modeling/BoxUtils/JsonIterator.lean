import BoxUtils.CJsonLinks
import BoxUtils.Json
import BoxUtils.Shared

/-!
The iterators of the Json class. An iterator has a Json of its own, which refers to the
child it stands at, and moves by writing the next child into the holder of this Json. The
copies of the iterator and of its Json share the holder and move along, so they keep
their child exactly when the moves come back to where they began.
-/
namespace BoxUtils.Json

open CJson LinkedShapes Shared

abbrev Holders := Cells JsonHolder

inductive IteratorError where
  | nullPtrException
  | typeError (excepted gived : String)
  deriving DecidableEq

/-- A call gives back or throws something; without a result its behaviour is undefined. -/
abbrev Attempt (α : Type) := Except IteratorError α

/-- A `Json` is the address of its holder. -/
structure JsonIterator where
  prev : Option ℕ
  json : ℕ
  deriving DecidableEq

section Iterators

def newIterator (H : Holders) (cjson prev : Option ℕ) : Holders × JsonIterator :=
  let (H, holder) := make H ⟨cjson, true⟩
  (H, ⟨prev, holder⟩)

/-- The common form of `begin` and `end`, with what is done for the first child. -/
def iterate (N : Nodes) (H : Holders) (json : ℕ)
    (start : ℕ → Option (Holders × JsonIterator)) : Option (Attempt (Holders × JsonIterator)) := do
  let holder ← Shared.read H json
  let c ← deref N holder
  if c.kind = cJSONArray ∨ c.kind = cJSONObject then
    match c.child with
    | none => some (.error .nullPtrException)
    | some child => (start child).map .ok
  else some (.error (.typeError "Array or Object" (getTypeString c)))

def beginIterator (N : Nodes) (H : Holders) (json : ℕ) :
    Option (Attempt (Holders × JsonIterator)) :=
  iterate N H json fun child => some (newIterator H (some child) none)

def endIterator (N : Nodes) (H : Holders) (json : ℕ) : Option (Attempt (Holders × JsonIterator)) :=
  iterate N H json fun child =>
    (lastSibling N N.fresh child).map fun last => newIterator H none (some last)

/-- The operator `++`. -/
def increment (N : Nodes) (H : Holders) (iter : JsonIterator) :
    Option (Attempt (Holders × JsonIterator)) := do
  let holder ← Shared.read H iter.json
  match holder.cjson with
  | none => some (.error .nullPtrException)
  | some now =>
    let c ← N.cell now
    let H ← Shared.write H iter.json { holder with cjson := c.next }
    some (.ok (H, { iter with prev := if c.next = none then some now else iter.prev }))

/-- The operator `--`; only at the end the pointer to the last child is used. -/
def decrement (N : Nodes) (H : Holders) (iter : JsonIterator) :
    Option (Attempt (Holders × JsonIterator)) := do
  let holder ← Shared.read H iter.json
  match holder.cjson with
  | none =>
    match iter.prev with
    | none => some (.error .nullPtrException)
    | some prev =>
      let H ← Shared.write H iter.json { holder with cjson := some prev }
      some (.ok (H, { iter with prev := none }))
  | some now =>
    let c ← N.cell now
    match c.prev with
    | none => some (.error .nullPtrException)
    | some prev =>
      let H ← Shared.write H iter.json { holder with cjson := some prev }
      some (.ok (H, iter))

def copyJson (H : Holders) (json : ℕ) : Option (Holders × ℕ) := (share H json).map (·, json)

def copyIterator (H : Holders) (iter : JsonIterator) : Option (Holders × JsonIterator) :=
  (copyJson H iter.json).map fun (H, json) => (H, ⟨iter.prev, json⟩)

end Iterators

inductive Move where
  | increment
  | decrement
  deriving DecidableEq

/-- A move; one that throws leaves everything as it was. -/
def move (N : Nodes) (m : Move) (H : Holders) (iter : JsonIterator) :
    Option (Holders × JsonIterator) := do
  let r ← match m with
    | .increment => increment N H iter
    | .decrement => decrement N H iter
  some (r.toOption.getD (H, iter))

def moves (N : Nodes) : List Move → Holders → JsonIterator → Option (Holders × JsonIterator)
  | [], H, iter => some (H, iter)
  | m :: ms, H, iter => do
    let (H, iter) ← move N m H iter
    moves N ms H iter

/-- The child that a `Json` denotes; at the end it is none. -/
def denoted (H : Holders) (json : ℕ) : Option (Option ℕ) :=
  (Shared.read H json).map JsonHolder.cjson

/-- A copy of the iterator and a copy of its Json denote the same child before and after
the moves of the iterator. -/
def StableUnder (N : Nodes) (H : Holders) (iter : JsonIterator) (ms : List Move) : Prop :=
  ∃ H₁ H₂ H₃ copy json iter₃ child,
    copyIterator H iter = some (H₁, copy) ∧ copyJson H₁ iter.json = some (H₂, json) ∧
    denoted H₂ copy.json = some child ∧ denoted H₂ json = some child ∧
    moves N ms H₂ iter = some (H₃, iter₃) ∧
    denoted H₃ copy.json = some child ∧ denoted H₃ json = some child

/-- The index that a move leads to, of n children; n itself is the end. -/
def Move.index (n i : ℕ) : Move → ℕ
  | increment => if i < n then i + 1 else i
  | decrement => i - 1

/-- The children of an array or object. -/
def Children (N : Nodes) (container : ℕ) (children : List ℕ) : Prop :=
  ∃ v, N.cell container = some v ∧ (v.kind = cJSONArray ∨ v.kind = cJSONObject) ∧
    Chain N none v.child children none

/-- An iterator stands at the child with an index, or at the end. The pointer to the last
child is not needed elsewhere than at the end, where it may be missing when it was a
copy that moved there. -/
structure StandsAt (H : Holders) (children : List ℕ) (iter : JsonIterator) (i : ℕ) : Prop where
  child : ∃ k, H.cell iter.json = some ⟨⟨children[i]?, true⟩, k⟩
  inside : i ≤ children.length
  prev : iter.prev = none ∨ iter.prev = children.getLast?

/-- An iterator stands at a position, and finds back from the end. -/
structure Positioned (H : Holders) (children : List ℕ) (iter : JsonIterator) (i : ℕ) : Prop
    extends StandsAt H children iter i where
  back : i = children.length → iter.prev ≠ none

section Moves

variable {N : Nodes} {H : Holders} {iter : JsonIterator} {children : List ℕ} {p : Option ℕ}
variable {i j : ℕ} {k : ℤ} {m : Move}

theorem StandsAt.put (hcell : ∃ c, H.cell iter.json = some c) (hj : j ≤ children.length)
    {prev : Option ℕ} (hprev : prev = none ∨ prev = children.getLast?) :
    StandsAt (H.put iter.json ⟨⟨children[j]?, true⟩, k⟩) children { iter with prev := prev } j :=
  ⟨⟨k, Heap.cell_put_self hcell.choose_spec _⟩, hj, hprev⟩

theorem increment_inside (hc : Chain N none p children none)
    (hcell : H.cell iter.json = some ⟨⟨children[i]?, true⟩, k⟩) (hi : i < children.length) :
    increment N H iter = some (.ok (H.put iter.json ⟨⟨children[i + 1]?, true⟩, k⟩,
      { iter with prev := if i + 1 = children.length then children.getLast? else iter.prev })) := by
  have hnow : children[i]? = some children[i] := List.getElem?_eq_getElem hi
  obtain ⟨c, hlive, -, hnext⟩ := hc.links hnow
  rw [linked_next] at hnext
  have hlast : (if c.next = none then some children[i] else iter.prev) =
      if i + 1 = children.length then children.getLast? else iter.prev := by
    by_cases hend : i + 1 = children.length
    · have hnone : c.next = none := by rw [hnext, List.getElem?_eq_none (by omega)]
      rw [if_pos hnone, if_pos hend, List.getLast?_eq_getElem?, ← hend, Nat.add_sub_cancel, hnow]
    · have hmore : c.next ≠ none := by
        rw [hnext, List.getElem?_eq_getElem (by omega)]
        exact Option.some_ne_none _
      rw [if_neg hmore, if_neg hend]
  rw [hnow] at hcell
  simp only [increment, read_eq hcell, hlive, write_eq hcell, hlast, Option.bind_eq_bind,
    Option.bind_some]
  rw [hnext]

theorem increment_end (hcell : H.cell iter.json = some ⟨⟨none, true⟩, k⟩) :
    increment N H iter = some (.error .nullPtrException) := by
  simp [increment, read_eq hcell]

theorem decrement_inside (hc : Chain N none p children none)
    (hcell : H.cell iter.json = some ⟨⟨children[i + 1]?, true⟩, k⟩)
    (hi : i + 1 < children.length) : decrement N H iter =
      some (.ok (H.put iter.json ⟨⟨children[i]?, true⟩, k⟩, iter)) := by
  have hnow : children[i + 1]? = some children[i + 1] := List.getElem?_eq_getElem hi
  have hback : children[i]? = some children[i] := List.getElem?_eq_getElem (by omega)
  obtain ⟨c, hlive, hprev, -⟩ := hc.links hnow
  rw [linked_prev, if_neg (Nat.succ_ne_zero i), Nat.add_sub_cancel, hback] at hprev
  rw [hnow] at hcell
  simp only [decrement, read_eq hcell, hlive, write_eq hcell, hprev, hback, Option.bind_eq_bind,
    Option.bind_some]

theorem decrement_first (hc : Chain N none p children none)
    (hcell : H.cell iter.json = some ⟨⟨children[0]?, true⟩, k⟩) (hne : children ≠ []) :
    decrement N H iter = some (.error .nullPtrException) := by
  obtain ⟨now, hnow⟩ : ∃ now, children[0]? = some now :=
    ⟨_, List.getElem?_eq_getElem (List.length_pos_iff.mpr hne)⟩
  obtain ⟨c, hlive, hprev, -⟩ := hc.links hnow
  rw [linked_prev, if_pos rfl] at hprev
  rw [hnow] at hcell
  simp only [decrement, read_eq hcell, hlive, hprev, Option.bind_eq_bind, Option.bind_some]

theorem decrement_end {last : ℕ} (hcell : H.cell iter.json = some ⟨⟨none, true⟩, k⟩)
    (hprev : iter.prev = some last) : decrement N H iter =
      some (.ok (H.put iter.json ⟨⟨some last, true⟩, k⟩, { iter with prev := none })) := by
  simp only [decrement, read_eq hcell, hprev, write_eq hcell, Option.bind_eq_bind, Option.bind_some]

/-- At the end without a pointer to the last child both moves throw. -/
theorem move_stuck (hcell : H.cell iter.json = some ⟨⟨none, true⟩, k⟩) (hprev : iter.prev = none) :
    move N m H iter = some (H, iter) := by
  cases m with
  | increment => simp [move, increment_end hcell, Except.toOption]
  | decrement => simp [move, decrement, read_eq hcell, hprev, Except.toOption]

theorem increment_positioned (hc : Chain N none p children none)
    (h : Positioned H children iter i) (hi : i < children.length) :
    ∃ H' iter', increment N H iter = some (.ok (H', iter')) ∧ iter'.json = iter.json ∧
      Positioned H' children iter' (i + 1) := by
  obtain ⟨k, hcell⟩ := h.child
  refine ⟨_, _, increment_inside hc hcell hi, rfl, StandsAt.put ⟨_, hcell⟩ hi ?_, ?_⟩
  · split
    · exact Or.inr rfl
    · exact h.prev
  · intro hend
    have hne : children ≠ [] := List.ne_nil_of_length_pos (by omega)
    simpa [hend] using hne

theorem decrement_positioned (hc : Chain N none p children none)
    (h : Positioned H children iter (i + 1)) :
    ∃ H' iter', decrement N H iter = some (.ok (H', iter')) ∧ iter'.json = iter.json ∧
      Positioned H' children iter' i := by
  obtain ⟨k, hcell⟩ := h.child
  have hi : i < children.length := h.inside
  have hat : children[i]? = some children[i] := List.getElem?_eq_getElem hi
  have hback : i ≠ children.length := Nat.ne_of_lt hi
  by_cases hlast : i + 1 = children.length
  · have hprev : iter.prev = some children[i] := by
      rw [h.prev.resolve_left (h.back hlast), List.getLast?_eq_getElem?, ← hlast,
        Nat.add_sub_cancel, hat]
    rw [List.getElem?_eq_none (Nat.le_of_eq hlast.symm)] at hcell
    refine ⟨_, _, decrement_end hcell hprev, rfl, ?_, fun hend => absurd hend hback⟩
    rw [← hat]
    exact StandsAt.put ⟨_, hcell⟩ (Nat.le_of_lt hi) (Or.inl rfl)
  · have hmore : i + 1 < children.length := Nat.lt_of_le_of_ne hi hlast
    exact ⟨_, _, decrement_inside hc hcell hmore, rfl,
      StandsAt.put ⟨_, hcell⟩ (Nat.le_of_lt hi) h.prev, fun hend => absurd hend hback⟩

/-- A move leads from index to index; at the end there is a way back again. -/
theorem move_positioned (hc : Chain N none p children none) (hne : children ≠ [])
    (h : Positioned H children iter i) :
    ∃ H' iter', move N m H iter = some (H', iter') ∧ iter'.json = iter.json ∧
      Positioned H' children iter' (m.index children.length i) := by
  obtain ⟨k, hcell⟩ := h.child
  cases m with
  | increment =>
    rw [Move.index]
    by_cases hi : i < children.length
    · obtain ⟨H', iter', hcall, hjson, h'⟩ := increment_positioned hc h hi
      rw [if_pos hi]
      exact ⟨H', iter', by rw [move, hcall]; rfl, hjson, h'⟩
    · rw [List.getElem?_eq_none (Nat.le_of_not_lt hi)] at hcell
      rw [if_neg hi]
      exact ⟨H, iter, by rw [move, increment_end hcell]; rfl, rfl, h⟩
  | decrement =>
    cases i with
    | zero => exact ⟨H, iter, by rw [move, decrement_first hc hcell hne]; rfl, rfl, h⟩
    | succ i =>
      obtain ⟨H', iter', hcall, hjson, h'⟩ := decrement_positioned hc h
      exact ⟨H', iter', by rw [move, hcall]; rfl, hjson, h'⟩

theorem moves_stuck (hcell : H.cell iter.json = some ⟨⟨none, true⟩, k⟩)
    (hprev : iter.prev = none) (ms : List Move) : moves N ms H iter = some (H, iter) := by
  induction ms with
  | nil => rfl
  | cons m ms ih => rw [moves, move_stuck hcell hprev]; exact ih

theorem moves_stands (hc : Chain N none p children none) (hne : children ≠ [])
    (h : Positioned H children iter i) (ms : List Move) :
    ∃ H' iter', moves N ms H iter = some (H', iter') ∧ iter'.json = iter.json ∧
      StandsAt H' children iter' (ms.foldl (fun i m => m.index children.length i) i) := by
  induction ms generalizing H iter i with
  | nil => exact ⟨H, iter, rfl, rfl, h.toStandsAt⟩
  | cons m ms ih =>
    obtain ⟨H₁, iter₁, hmove, hjson, h₁⟩ := move_positioned (m := m) hc hne h
    obtain ⟨H', iter', hmoves, hjson', hstands'⟩ := ih h₁
    refine ⟨H', iter', ?_, hjson'.trans hjson, hstands'⟩
    rw [moves, hmove]
    exact hmoves

end Moves

section Positions

variable {N : Nodes} {H : Holders} {iter : JsonIterator} {children : List ℕ} {container json : ℕ}
variable {i j : ℕ} {k : ℤ}

theorem iterate_eq (hc : Children N container children) (hne : children ≠ [])
    (hjson : ∃ ref, H.cell json = some ⟨⟨some container, ref⟩, k⟩)
    (start : ℕ → Option (Holders × JsonIterator)) : ∃ first q, children[0]? = some first ∧
      Chain N q (some first) children none ∧
      iterate N H json start = (start first).map .ok := by
  obtain ⟨v, hv, hkind, hchain⟩ := hc
  obtain ⟨ref, hjson⟩ := hjson
  cases children with
  | nil => exact absurd rfl hne
  | cons first rest =>
    have hchild : v.child = some first := hchain.1
    refine ⟨first, none, rfl, by rwa [hchild] at hchain, ?_⟩
    simp [iterate, read_eq hjson, deref, hv, hkind, hchild]

/-- `begin` stands at the first child. -/
theorem beginIterator_stands (hc : Children N container children) (hne : children ≠ [])
    (hjson : ∃ ref, H.cell json = some ⟨⟨some container, ref⟩, k⟩) :
    ∃ H' iter, beginIterator N H json = some (.ok (H', iter)) ∧ StandsAt H' children iter 0 := by
  obtain ⟨first, q, hfirst, -, heq⟩ := iterate_eq hc hne hjson
    fun child => some (newIterator H (some child) none)
  refine ⟨_, _, heq, ⟨1, ?_⟩, Nat.zero_le _, .inl rfl⟩
  rw [hfirst]
  exact Heap.cell_alloc_self H _

/-- `end` stands behind the last child. -/
theorem endIterator_stands (hc : Children N container children) (hne : children ≠ [])
    (hjson : ∃ ref, H.cell json = some ⟨⟨some container, ref⟩, k⟩) :
    ∃ H' iter, endIterator N H json = some (.ok (H', iter)) ∧
      StandsAt H' children iter children.length ∧ iter.prev ≠ none := by
  obtain ⟨first, q, -, hchain, heq⟩ := iterate_eq hc hne hjson
    fun child => (lastSibling N N.fresh child).map fun last => newIterator H none (some last)
  obtain ⟨last, hlast⟩ : ∃ last, children.getLast? = some last :=
    ⟨_, List.getLast?_eq_getLast_of_ne_nil hne⟩
  rw [lastSibling_eq hchain hchain.length_le, hlast] at heq
  refine ⟨_, _, heq, ⟨⟨1, ?_⟩, le_rfl, .inr hlast.symm⟩, Option.some_ne_none last⟩
  rw [List.getElem?_eq_none le_rfl]
  exact Heap.cell_alloc_self H _

/-- When one of the iterators on a holder moves, all of them do. -/
theorem StandsAt.shared {other : JsonIterator}
    (hother : StandsAt H children other j) (hjson : other.json = iter.json)
    {H' : Holders} {iter' : JsonIterator} (hsame : iter'.json = iter.json)
    (hmoved : StandsAt H' children iter' i) : StandsAt H' children other i := by
  obtain ⟨k, hcell⟩ := hmoved.child
  exact ⟨⟨k, by rw [hjson, ← hsame]; exact hcell⟩, hmoved.inside, hother.prev⟩

end Positions

section Copies

variable {N : Nodes} {H : Holders} {iter : JsonIterator} {children : List ℕ} {i j : ℕ} {k : ℤ}

/-- Both copies share the holder of the iterator. -/
theorem copies_eq (h : StandsAt H children iter i) : ∃ H₁ H₂ copy,
    copyIterator H iter = some (H₁, copy) ∧ copyJson H₁ iter.json = some (H₂, iter.json) ∧
    copy.json = iter.json ∧ StandsAt H₂ children iter i := by
  obtain ⟨⟨k, hcell⟩, hinside, hprev⟩ := h
  let H₁ : Holders := H.put iter.json ⟨⟨children[i]?, true⟩, k + 1⟩
  have hone : H₁.cell iter.json = some ⟨⟨children[i]?, true⟩, k + 1⟩ := Heap.cell_put_self hcell _
  refine ⟨H₁, H₁.put iter.json ⟨⟨children[i]?, true⟩, k + 1 + 1⟩, ⟨iter.prev, iter.json⟩,
    ?_, ?_, rfl, ⟨_, Heap.cell_put_self hone _⟩, hinside, hprev⟩
  · rw [copyIterator, copyJson, share_eq hcell, Option.map_some, Option.map_some]
  · rw [copyJson, share_eq hone, Option.map_some]

theorem StandsAt.denoted (h : StandsAt H children iter i) :
    denoted H iter.json = some children[i]? := by
  obtain ⟨k, hcell⟩ := h.child
  rw [Json.denoted, read_eq hcell, Option.map_some]

/-- What the copies denote after the moves is where the iterator then stands. -/
theorem stableUnder_iff_getElem {H₁ H₂ H₃ : Holders} {copy iter₃ : JsonIterator} {ms : List Move}
    (hcopy : copyIterator H iter = some (H₁, copy))
    (hjson : copyJson H₁ iter.json = some (H₂, iter.json)) (hshared : copy.json = iter.json)
    (hbefore : StandsAt H₂ children iter i) (hmoves : moves N ms H₂ iter = some (H₃, iter₃))
    (hsame : iter₃.json = iter.json) (hafter : StandsAt H₃ children iter₃ j) :
    StableUnder N H iter ms ↔ children[i]? = children[j]? := by
  have hend := hafter.denoted
  rw [hsame] at hend
  constructor
  · rintro ⟨H₁', H₂', H₃', copy', json', iter', child, h₁, h₂, hchild, -, h₃, hchild', -⟩
    obtain ⟨rfl, rfl⟩ : H₁ = H₁' ∧ copy = copy' := by simpa using hcopy.symm.trans h₁
    obtain ⟨rfl, rfl⟩ : H₂ = H₂' ∧ iter.json = json' := by simpa using hjson.symm.trans h₂
    obtain ⟨rfl, rfl⟩ : H₃ = H₃' ∧ iter₃ = iter' := by simpa using hmoves.symm.trans h₃
    rw [hshared] at hchild hchild'
    rw [← Option.some.inj (hchild.symm.trans hbefore.denoted)]
    exact Option.some.inj (hchild'.symm.trans hend)
  · intro heq
    rw [← heq] at hend
    exact ⟨H₁, H₂, H₃, copy, iter.json, iter₃, children[i]?, hcopy, hjson,
      by rw [hshared]; exact hbefore.denoted, hbefore.denoted, hmoves,
      by rw [hshared]; exact hend, hend⟩

end Copies

/-- No child stands at two indices, and the end is not a child. -/
theorem getElem?_inj {children : List ℕ} {i j : ℕ} (hnodup : children.Nodup)
    (hi : i ≤ children.length) (hj : j ≤ children.length) (h : children[i]? = children[j]?) :
    i = j := by
  rcases Nat.lt_or_ge i children.length with hlt | hge
  · exact (List.getElem?_inj hlt hnodup).mp h
  · rcases Nat.lt_or_ge j children.length with hlt' | hge'
    · exact ((List.getElem?_inj hlt' hnodup).mp h.symm).symm
    · omega

/-- The copies keep their child exactly when the moves lead back to the index where the
iterator stood, or when it cannot leave the end. -/
theorem stableUnder_iff {N : Nodes} {H : Holders} {container : ℕ} {children : List ℕ}
    {iter : JsonIterator} {i : ℕ} (hc : Children N container children) (hne : children ≠ [])
    (h : StandsAt H children iter i) (ms : List Move) :
    StableUnder N H iter ms ↔ (i = children.length ∧ iter.prev = none) ∨
      ms.foldl (fun i m => m.index children.length i) i = i := by
  obtain ⟨v, -, -, hchain⟩ := hc
  obtain ⟨H₁, H₂, copy, hcopy, hjson, hshared, hstands⟩ := copies_eq h
  by_cases hstuck : i = children.length ∧ iter.prev = none
  · obtain ⟨k, hcell⟩ := hstands.child
    have hnone : children[i]? = none := List.getElem?_eq_none (by omega)
    rw [hnone] at hcell
    have hstay := moves_stuck (N := N) hcell hstuck.2 ms
    rw [stableUnder_iff_getElem hcopy hjson hshared hstands hstay rfl hstands]
    exact iff_of_true rfl (.inl hstuck)
  · obtain ⟨H₃, iter₃, hmoves, hsame, hafter⟩ :=
      moves_stands hchain hne ⟨hstands, fun hend hnone => hstuck ⟨hend, hnone⟩⟩ ms
    rw [stableUnder_iff_getElem hcopy hjson hshared hstands hmoves hsame hafter,
      or_iff_right hstuck]
    constructor
    · exact fun heq => (getElem?_inj hchain.nodup h.inside hafter.inside heq).symm
    · exact fun heq => by rw [heq]

/-- An array with two children, and a Json that refers to it. -/
def pair : Nodes :=
  ((Heap.empty.alloc { type := cJSONArray, child := some 1 }).alloc
    { type := cJSONNull, next := some 2 }).alloc { type := cJSONNull, prev := some 1 }

theorem pair_children : Children pair 0 [1, 2] :=
  ⟨_, rfl, .inl (by decide), rfl, _, rfl, rfl, rfl, _, rfl, rfl, rfl⟩

def first : JsonIterator := ⟨none, 0⟩

def firstHolder : Holders := Heap.empty.alloc ⟨⟨some 1, true⟩, 1⟩

theorem first_stands : StandsAt firstHolder [1, 2] first 0 :=
  ⟨⟨1, rfl⟩, by decide, .inl rfl⟩

theorem stableUnder_iff_pair : StableUnder pair firstHolder first [.increment, .decrement] ↔
    (0 = 2 ∧ first.prev = none) ∨ 0 = 0 :=
  stableUnder_iff pair_children (by decide) first_stands [.increment, .decrement]

/-- After a single step forward the copies are at the next child as well. -/
theorem copies_moved : ¬ ∀ (N : Nodes) (H : Holders) (container : ℕ) (children : List ℕ)
    (iter : JsonIterator) (i : ℕ), Children N container children → children ≠ [] →
    StandsAt H children iter i → ∀ ms, StableUnder N H iter ms := by
  intro h
  obtain ⟨H₁, H₂, H₃, copy, json, iter₃, child, hcopy, hjson, hchild, -, hmoves, hchild', -⟩ :=
    h pair firstHolder 0 [1, 2] first 0 pair_children (by decide) first_stands [.increment]
  have hrun : ((copyIterator firstHolder first).bind fun (H₁, copy) =>
      (copyJson H₁ first.json).bind fun (H₂, _) =>
        (moves pair [.increment] H₂ first).map fun (H₃, _) =>
          (denoted H₂ copy.json, denoted H₃ copy.json)) = some (some (some 1), some (some 2)) := by
    decide
  simp only [hcopy, hjson, hmoves, hchild, hchild', Option.bind_some, Option.map_some,
    Option.some.injEq, Prod.mk.injEq] at hrun
  obtain ⟨rfl, htwo⟩ := hrun
  simp at htwo

end BoxUtils.Json
