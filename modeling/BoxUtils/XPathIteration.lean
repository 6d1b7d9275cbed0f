import BoxUtils.Loops
import BoxUtils.XPath

/-!
Walks over a result. An iterator has its position twice, as an index with -1 for the end
and as the pointer in its holder, and only the pointers are compared. The two stay in
step through `++` and `--`, from `begin()` as from `end()`.
-/
namespace BoxUtils.XPath

open Shared Loops

section Moving

/-- The index at which `++` reads `nodeTab`, when it does not move to the end. -/
def indexAhead (max position : ℤ) : Option ℤ :=
  if position + 1 ≥ max then none else some (position + 1)

/-- The index at which `--` reads `nodeTab`. -/
def indexBack (max position : ℤ) : ℤ :=
  if position = -1 then max - 1 else if position - 1 ≥ 0 then position - 1 else position

/-- What `nodeTab` has at an index; there is nothing on either side of it. -/
def nodeAt (nodeTab : List ℕ) (i : ℤ) : Option ℕ := if 0 ≤ i then nodeTab[i.toNat]? else none

/-- The operator `--`. -/
def decrement (H : Holders) (iter : ObjectIter) : Option (Holders × ObjectIter) := do
  let nodeTab ← iter.obj.nodesetval
  let position := indexBack nodeTab.length iter.position
  let node ← nodeAt nodeTab position
  let holder ← read H iter.node
  let H ← write H iter.node { holder with node := some node }
  some (H, { iter with position := position })

inductive Move
  | increment
  | decrement
  deriving DecidableEq

def Move.call (H : Holders) (iter : ObjectIter) : Move → Option (Holders × ObjectIter)
  | .increment => XPath.increment H iter
  | .decrement => XPath.decrement H iter

def zigzag : List Move → Holders → ObjectIter → Option (Holders × ObjectIter)
  | [], H, iter => some (H, iter)
  | m :: ms, H, iter => do
    let (H, iter) ← m.call H iter
    zigzag ms H iter

/-- A turn of `for (auto iter = begin(); iter != last; ++iter)`, which notes the nodes. -/
def walkTurn (last : ObjectIter) : Holders × List (Option ℕ) × ObjectIter →
    Turn (Holders × List (Option ℕ) × ObjectIter) (Option (Holders × List (Option ℕ)))
  | (H, visited, iter) =>
    match differ H iter last with
    | none => .done none
    | some false => .done (some (H, visited))
    | some true =>
      match increment H iter with
      | none => .done none
      | some (H', iter') => .again (H', visited ++ [nodeOf H iter.node], iter')

/-- The walk from `begin()` to `end()`, both taken once before it. -/
def Walks (obj : XPathObject) (H : Holders) (result : Option (Holders × List (Option ℕ))) : Prop :=
  let (H, first) := beginIter H obj
  let (H, last) := endIter H obj
  Yields (walkTurn last) (H, [], first) result

end Moving

/-- The same move on the positions from 0 to k, the last of which is the end. -/
def moved (k i : ℕ) : Move → ℕ
  | .increment => if i < k then i + 1 else 0
  | .decrement => i - 1

/-- The index and the pointer of an iterator are at the same position. -/
structure StandsAt (H : Holders) (iter : ObjectIter) (nodeTab : List ℕ) (i : ℕ) : Prop where
  set : iter.obj.nodesetval = some nodeTab
  inside : i ≤ nodeTab.length
  holder : ∃ count, Holds H iter nodeTab[i]? count
  position : iter.position = if i < nodeTab.length then (i : ℤ) else -1

/-- What the moves do from here on, at a position of a result of k nodes. -/
structure MovesOn (H : Holders) (iter : ObjectIter) (nodeTab : List ℕ) (i : ℕ) : Prop where
  stands : StandsAt H iter nodeTab i
  ahead : ∀ j ∈ indexAhead nodeTab.length iter.position, 0 ≤ j ∧ j < nodeTab.length
  back : 0 ≤ indexBack nodeTab.length iter.position ∧
    indexBack nodeTab.length iter.position < nodeTab.length
  undoes : i < nodeTab.length → ∃ H', zigzag [.increment, .decrement] H iter = some (H', iter) ∧
    nodeOf H' iter.node = nodeOf H iter.node
  last : i = nodeTab.length → ∃ H' iter', decrement H iter = some (H', iter') ∧
    iter'.position = nodeTab.length - 1 ∧ nodeOf H' iter'.node = nodeTab.getLast?

/-- A walk visits the nodes in their order and stops; every sequence of moves from
`begin()` and from `end()` of a result with nodes goes where its moves lead. -/
structure IteratesFaithfully (obj : XPathObject) (H : Holders) : Prop where
  walks : ∃ H', Walks obj H (some (H', obj.nodes.map some))
  fromBegin : obj.nodes ≠ [] → ∀ ms, ∃ H' iter,
    zigzag ms (beginIter H obj).1 (beginIter H obj).2 = some (H', iter) ∧
      MovesOn H' iter obj.nodes (ms.foldl (moved obj.nodes.length) 0)
  fromEnd : obj.nodes ≠ [] → ∀ ms, ∃ H' iter,
    zigzag ms (endIter H obj).1 (endIter H obj).2 = some (H', iter) ∧
      MovesOn H' iter obj.nodes (ms.foldl (moved obj.nodes.length) obj.nodes.length)

/-- `++` reads `nodeTab` at the index ahead, if there is one. -/
theorem increment_indexAhead (H : Holders) (iter : ObjectIter) : increment H iter = (do
    let nodeTab ← iter.obj.nodesetval
    let holder ← read H iter.node
    match indexAhead nodeTab.length iter.position with
    | none =>
      let H ← write H iter.node { holder with node := none }
      some (H, { iter with position := -1 })
    | some i =>
      let H ← write H iter.node { holder with node := nodeTab[i.toNat]? }
      some (H, { iter with position := i })) := by
  unfold increment indexAhead
  congr 1
  funext nodeTab
  congr 1
  funext holder
  split <;> rfl

section Steps

variable {obj : XPathObject} {H : Holders} {iter last : ObjectIter} {nodeTab : List ℕ} {i : ℕ}
variable {m : Move} {ms : List Move}

theorem StandsAt.inside_position (h : StandsAt H iter nodeTab i) (hi : i < nodeTab.length) :
    iter.position = i := h.position.trans (if_pos hi)

theorem StandsAt.end_position (h : StandsAt H iter nodeTab nodeTab.length) :
    iter.position = -1 := h.position.trans (if_neg (Nat.lt_irrefl _))

theorem StandsAt.nodeOf_eq (h : StandsAt H iter nodeTab i) :
    nodeOf H iter.node = nodeTab[i]? := by
  obtain ⟨count, hcell⟩ := h.holder
  rw [nodeOf, read_eq hcell, Option.bind_some]

/-- The iterator after its holder and its index were set to a position. -/
theorem StandsAt.put {c : Cell NodeHolder} {p : ℤ} {j : ℕ} (count : ℤ)
    (hcell : H.cell iter.node = some c) (hset : iter.obj.nodesetval = some nodeTab)
    (hj : j ≤ nodeTab.length) (hp : p = if j < nodeTab.length then (j : ℤ) else -1) :
    StandsAt (H.put iter.node ⟨⟨nodeTab[j]?, true⟩, count⟩) { iter with position := p } nodeTab j :=
  ⟨hset, hj, ⟨count, Heap.cell_put_self hcell _⟩, hp⟩

theorem increment_inside (h : StandsAt H iter nodeTab i) (hi : i < nodeTab.length) :
    ∃ count p, increment H iter = some (H.put iter.node ⟨⟨nodeTab[i + 1]?, true⟩, count⟩,
        { iter with position := p }) ∧
      p = if i + 1 < nodeTab.length then ((i + 1 : ℕ) : ℤ) else -1 := by
  obtain ⟨count, hcell⟩ := h.holder
  have hpos := h.inside_position hi
  by_cases hmore : i + 1 < nodeTab.length
  · refine ⟨count, _, increment_next h.set hcell hpos hmore, ?_⟩
    rw [if_pos hmore]
    push_cast
    rfl
  · have hend : i + 1 = nodeTab.length := by omega
    have hnone : nodeTab[i + 1]? = none := List.getElem?_eq_none (by omega)
    have hlast : iter.position + 1 = nodeTab.length := by omega
    refine ⟨count, -1, ?_, by rw [if_neg hmore]⟩
    rw [hnone]
    exact increment_last h.set hcell hlast

/-- `++` at the end goes to the first node. -/
theorem increment_end (h : StandsAt H iter nodeTab nodeTab.length) (hpos : 0 < nodeTab.length) :
    ∃ count, increment H iter = some (H.put iter.node ⟨⟨nodeTab[0]?, true⟩, count⟩,
      { iter with position := 0 }) := by
  obtain ⟨count, hcell⟩ := h.holder
  have hnot : ¬ (-1 : ℤ) + 1 ≥ nodeTab.length := by omega
  refine ⟨count, ?_⟩
  simp only [increment, h.set, read_eq hcell, write_eq hcell, h.end_position, if_neg hnot,
    Option.bind_eq_bind, Option.bind_some]
  rfl

theorem decrement_at {j : ℕ} (h : StandsAt H iter nodeTab i) (hj : j < nodeTab.length)
    (hindex : indexBack nodeTab.length iter.position = j) :
    ∃ count, decrement H iter = some (H.put iter.node ⟨⟨nodeTab[j]?, true⟩, count⟩,
      { iter with position := j }) := by
  obtain ⟨count, hcell⟩ := h.holder
  have hnode : nodeAt nodeTab j = some nodeTab[j] := by simp [nodeAt, hj]
  refine ⟨count, ?_⟩
  simp only [decrement, h.set, hindex, hnode, read_eq hcell, write_eq hcell,
    Option.bind_eq_bind, Option.bind_some, List.getElem?_eq_getElem hj]

/-- `--` goes one node back, from the end to the last one, and stays at the first. -/
theorem StandsAt.indexBack_eq (h : StandsAt H iter nodeTab i) (hpos : 0 < nodeTab.length) :
    indexBack nodeTab.length iter.position = (i - 1 : ℕ) := by
  have hinside := h.inside
  rw [indexBack]
  by_cases hi : i < nodeTab.length
  · have hne : (i : ℤ) ≠ -1 := by omega
    rw [h.inside_position hi, if_neg hne]
    split <;> omega
  · obtain rfl : i = nodeTab.length := by omega
    rw [if_pos h.end_position]
    omega

/-- A move goes where it leads. -/
theorem call_stands (h : StandsAt H iter nodeTab i) (hpos : 0 < nodeTab.length) :
    ∃ H' iter', m.call H iter = some (H', iter') ∧
      StandsAt H' iter' nodeTab (moved nodeTab.length i m) := by
  obtain ⟨_, hcell⟩ := h.holder
  have hinside := h.inside
  cases m with
  | increment =>
    by_cases hi : i < nodeTab.length
    · obtain ⟨count, p, hcall, hp⟩ := increment_inside h hi
      refine ⟨_, _, hcall, ?_⟩
      rw [moved, if_pos hi]
      exact StandsAt.put count hcell h.set hi hp
    · obtain rfl : i = nodeTab.length := by omega
      obtain ⟨count, hcall⟩ := increment_end h hpos
      refine ⟨_, _, hcall, ?_⟩
      rw [moved, if_neg hi]
      exact StandsAt.put count hcell h.set (Nat.zero_le _) (by rw [if_pos hpos]; rfl)
  | decrement =>
    have hback : i - 1 < nodeTab.length := by omega
    obtain ⟨count, hcall⟩ := decrement_at h hback (h.indexBack_eq hpos)
    exact ⟨_, _, hcall, StandsAt.put count hcell h.set (Nat.le_of_lt hback) (if_pos hback).symm⟩

theorem zigzag_stands (h : StandsAt H iter nodeTab i) (hpos : 0 < nodeTab.length)
    (ms : List Move) : ∃ H' iter', zigzag ms H iter = some (H', iter') ∧
      StandsAt H' iter' nodeTab (ms.foldl (moved nodeTab.length) i) := by
  induction ms generalizing H iter i with
  | nil => exact ⟨H, iter, rfl, h⟩
  | cons m ms ih =>
    obtain ⟨H₁, iter₁, hcall, h₁⟩ := call_stands (m := m) h hpos
    obtain ⟨H', iter', hmoves, h'⟩ := ih h₁
    exact ⟨H', iter', by simpa [zigzag, hcall] using hmoves, h'⟩

/-- At a node a `++` is undone by a `--`, also from the last node to the end and back. -/
theorem StandsAt.undoes (h : StandsAt H iter nodeTab i) (hi : i < nodeTab.length) :
    ∃ H', zigzag [.increment, .decrement] H iter = some (H', iter) ∧
      nodeOf H' iter.node = nodeOf H iter.node := by
  have hpos : 0 < nodeTab.length := by omega
  obtain ⟨_, hcell⟩ := h.holder
  obtain ⟨count, p, hcall, hp⟩ := increment_inside h hi
  have hnext := StandsAt.put count hcell h.set hi hp
  obtain ⟨count', hcall'⟩ := decrement_at hnext hi (hnext.indexBack_eq hpos)
  have hsame : ({ iter with position := (i : ℤ) } : ObjectIter) = iter := by
    rw [← h.inside_position hi]
  simp only [hsame] at hcall'
  have hmoves : zigzag [.increment, .decrement] H iter = some ((H.put iter.node
      ⟨⟨nodeTab[i + 1]?, true⟩, count⟩).put iter.node ⟨⟨nodeTab[i]?, true⟩, count'⟩, iter) := by
    simp only [zigzag, Move.call, hcall, hcall', Option.bind_eq_bind, Option.bind_some]
  refine ⟨_, hmoves, ?_⟩
  have hput := Heap.cell_put_self (Heap.cell_put_self hcell
    ⟨⟨nodeTab[i + 1]?, true⟩, count⟩) ⟨⟨nodeTab[i]?, true⟩, count'⟩
  rw [h.nodeOf_eq, nodeOf, read_eq hput, Option.bind_some]

theorem StandsAt.movesOn (h : StandsAt H iter nodeTab i) (hpos : 0 < nodeTab.length) :
    MovesOn H iter nodeTab i := by
  have hinside := h.inside
  refine ⟨h, fun j hj => ?_, ?_, h.undoes, ?_⟩
  · rw [indexAhead, h.position] at hj
    split_ifs at hj <;> simp at hj <;> omega
  · rw [h.indexBack_eq hpos]
    omega
  · rintro rfl
    have hback : nodeTab.length - 1 < nodeTab.length := by omega
    obtain ⟨_, hcell⟩ := h.holder
    obtain ⟨count, hcall⟩ := decrement_at h hback (h.indexBack_eq hpos)
    refine ⟨_, _, hcall, Int.natCast_sub hpos, ?_⟩
    rw [List.getLast?_eq_getElem?]
    exact (StandsAt.put count hcell h.set (Nat.le_of_lt hback)
      (if_pos hback).symm).nodeOf_eq

theorem newIter_stands (hset : obj.nodesetval = some nodeTab) (hi : i ≤ nodeTab.length) {p : ℤ}
    (hp : p = if i < nodeTab.length then (i : ℤ) else -1) :
    StandsAt (newIter H obj nodeTab[i]? p).1 (newIter H obj nodeTab[i]? p).2 nodeTab i :=
  ⟨hset, hi, ⟨1, Heap.cell_alloc_self H _⟩, hp⟩

theorem beginIter_stands (H : Holders) (hset : obj.nodesetval = some nodeTab) :
    StandsAt (beginIter H obj).1 (beginIter H obj).2 nodeTab 0 := by
  have hnodes : obj.nodes = nodeTab := by rw [XPathObject.nodes, hset, Option.getD_some]
  cases nodeTab with
  | nil =>
    have hnew := newIter_stands (H := H) (p := -1) hset (Nat.le_refl _) rfl
    simpa [beginIter, empty, hnodes] using hnew
  | cons node nodeTab =>
    have hnew := newIter_stands (H := H) (p := 0) hset (Nat.zero_le _) rfl
    simpa [beginIter, empty, hnodes] using hnew

theorem endIter_stands (H : Holders) (hset : obj.nodesetval = some nodeTab) :
    StandsAt (endIter H obj).1 (endIter H obj).2 nodeTab nodeTab.length := by
  have hnew := newIter_stands (H := H) hset (Nat.le_refl _) (if_neg (Nat.lt_irrefl _)).symm
  simpa [endIter] using hnew

/-- Taking `end()` leaves an iterator where it is, and gives another holder. -/
theorem StandsAt.endIter (h : StandsAt H iter nodeTab i) (obj : XPathObject) :
    StandsAt (endIter H obj).1 iter nodeTab i ∧ iter.node ≠ (XPath.endIter H obj).2.node := by
  obtain ⟨count, hcell⟩ := h.holder
  exact ⟨⟨h.set, h.inside, ⟨count, Heap.cell_alloc_of_live _ hcell⟩, h.position⟩,
    Nat.ne_of_lt (Heap.lt_fresh hcell)⟩

theorem endIter_holds (obj : XPathObject) (H : Holders) :
    Holds (endIter H obj).1 (endIter H obj).2 none 1 := Heap.cell_alloc_self H _

/-- A walk stops where the iterator has the null pointer. -/
theorem walkTurn_stops {count count' : ℤ} (h : Holds H iter none count)
    (hlast : Holds H last none count') (visited : List (Option ℕ)) :
    Yields (walkTurn last) (H, visited, iter) (some (H, visited)) := by
  have hdiffer : differ H iter last = some false := by
    rw [differ_eq h hlast]
    simp
  exact .done (by simp only [walkTurn, hdiffer])

/-- The walk from a position visits what is behind it. -/
theorem walkTurn_yields (h : StandsAt H iter nodeTab i) {count : ℤ}
    (hlast : Holds H last none count) (hne : iter.node ≠ last.node) (visited : List (Option ℕ)) :
    ∃ H', Yields (walkTurn last) (H, visited, iter)
      (some (H', visited ++ (nodeTab.drop i).map some)) := by
  induction hn : nodeTab.length - i generalizing H iter i visited with
  | zero =>
    have hinside := h.inside
    obtain ⟨_, hcell⟩ := h.holder
    obtain rfl : i = nodeTab.length := by omega
    rw [List.getElem?_eq_none (Nat.le_refl _)] at hcell
    refine ⟨H, ?_⟩
    rw [List.drop_length, List.map_nil, List.append_nil]
    exact walkTurn_stops hcell hlast visited
  | succ n ih =>
    have hi : i < nodeTab.length := by omega
    obtain ⟨_, hcell⟩ := h.holder
    have hdiffer : differ H iter last = some true := by
      rw [differ_eq hcell hlast]
      simp [hi]
    obtain ⟨count', p, hcall, hp⟩ := increment_inside h hi
    have hnext := StandsAt.put count' hcell h.set hi hp
    have hturn : walkTurn last (H, visited, iter) =
        .again (H.put iter.node ⟨⟨nodeTab[i + 1]?, true⟩, count'⟩,
          visited ++ [nodeTab[i]?], { iter with position := p }) := by
      simp only [walkTurn, hdiffer, hcall, h.nodeOf_eq]
    obtain ⟨H', hyields⟩ := ih hnext (hlast.put hne _) hne (visited ++ [nodeTab[i]?])
      (by omega)
    refine ⟨H', .again hturn ?_⟩
    rw [List.append_assoc, List.singleton_append] at hyields
    rw [List.drop_eq_getElem_cons hi, List.map_cons, ← List.getElem?_eq_getElem hi]
    exact hyields

end Steps

theorem walks_nodes (obj : XPathObject) (H : Holders) :
    ∃ H', Walks obj H (some (H', obj.nodes.map some)) := by
  have hlast := endIter_holds obj (beginIter H obj).1
  cases hset : obj.nodesetval with
  | none =>
    -- both iterators have the null pointer
    have hnodes : obj.nodes = [] := by rw [XPathObject.nodes, hset, Option.getD_none]
    have hfirst : Holds (beginIter H obj).1 (beginIter H obj).2 none 1 := by
      simp [beginIter, empty, hnodes, newIter, make, Holds]
    have hfirst' : Holds (endIter (beginIter H obj).1 obj).1 (beginIter H obj).2 none 1 :=
      Heap.cell_alloc_of_live _ hfirst
    rw [hnodes]
    exact ⟨_, walkTurn_stops hfirst' hlast []⟩
  | some nodeTab =>
    have hnodes : obj.nodes = nodeTab := by rw [XPathObject.nodes, hset, Option.getD_some]
    obtain ⟨hfirst, hapart⟩ := (beginIter_stands H hset).endIter obj
    rw [hnodes]
    exact walkTurn_yields hfirst hlast hapart []

/-- Iterating over a result. -/
theorem iteratesFaithfully (obj : XPathObject) (H : Holders) : IteratesFaithfully obj H := by
  refine ⟨walks_nodes obj H, fun hne ms => ?_, fun hne ms => ?_⟩
  all_goals have hpos : 0 < obj.nodes.length := List.length_pos_iff.mpr hne
  · obtain ⟨H', iter, hmoves, h⟩ :=
      zigzag_stands (beginIter_stands H (nodesetval_eq hne)) hpos ms
    exact ⟨H', iter, hmoves, h.movesOn hpos⟩
  · obtain ⟨H', iter, hmoves, h⟩ :=
      zigzag_stands (endIter_stands H (nodesetval_eq hne)) hpos ms
    exact ⟨H', iter, hmoves, h.movesOn hpos⟩

end BoxUtils.XPath
