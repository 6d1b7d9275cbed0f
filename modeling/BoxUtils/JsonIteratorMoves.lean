import BoxUtils.JsonIterator
import BoxUtils.Runs

/-!
Sequences of moves of a Json iterator that has a holder of its own. The moves lead
from position to position as `++` and `--` do on the numbers from 0 to the number of
children, which is the end, and throw where these have no next number.
-/
namespace BoxUtils.Json

open CJson LinkedShapes Shared Runs

section Moving

def Move.call (N : Nodes) (H : Holders) (iter : JsonIterator) :
    Move → Option (Attempt (Holders × JsonIterator))
  | .increment => Json.increment N H iter
  | .decrement => Json.decrement N H iter

/-- Moves one after another, up to the first that throws. -/
def zigzag (N : Nodes) : List Move → Holders → JsonIterator →
    Option (Attempt (Holders × JsonIterator))
  | [], H, iter => some (.ok (H, iter))
  | m :: ms, H, iter => do
    match ← m.call N H iter with
    | .error e => some (.error e)
    | .ok (H, iter) => zigzag N ms H iter

end Moving

/-- The same move on the positions from 0 to n. -/
def position (n i : ℕ) : Move → Option ℕ
  | .increment => if i < n then some (i + 1) else none
  | .decrement => if 0 < i then some (i - 1) else none

/-- An iterator at position i does what its moves do to the position. -/
structure FollowsMoves (N : Nodes) (children : List ℕ) (H : Holders) (iter : JsonIterator)
    (i : ℕ) : Prop where
  reaches : ∀ ms j, run (position children.length) i ms = some j →
    ∃ H' iter', zigzag N ms H iter = some (.ok (H', iter')) ∧
      denoted H' iter'.json = some children[j]? ∧
      (increment N H' iter' = some (.error .nullPtrException) ↔ j = children.length) ∧
      (decrement N H' iter' = some (.error .nullPtrException) ↔ j = 0) ∧
      (j < children.length → ∃ H'' iter'', zigzag N [.increment, .decrement] H' iter' =
        some (.ok (H'', iter'')) ∧ denoted H'' iter''.json = some children[j]?)
  throws : ∀ ms, run (position children.length) i ms = none →
    zigzag N ms H iter = some (.error .nullPtrException)

section Positions

variable {N : Nodes} {H : Holders} {iter : JsonIterator} {children : List ℕ} {p : Option ℕ}
variable {i j : ℕ} {m : Move} {ms : List Move}

/-- A move does what it does to the position, and throws where there is no next one. -/
theorem call_positioned (hc : Chain N none p children none) (hne : children ≠ [])
    (h : Positioned H children iter i) :
    (∀ j, position children.length i m = some j → ∃ H' iter',
      m.call N H iter = some (.ok (H', iter')) ∧ Positioned H' children iter' j) ∧
    (position children.length i m = none →
      m.call N H iter = some (.error .nullPtrException)) := by
  obtain ⟨k, hcell⟩ := h.child
  cases m with
  | increment =>
    simp only [position, Move.call]
    split
    case isTrue hi =>
      refine ⟨fun j hj => ?_, nofun⟩
      obtain rfl := Option.some.inj hj
      obtain ⟨H', iter', hcall, -, h'⟩ := increment_positioned hc h hi
      exact ⟨H', iter', hcall, h'⟩
    case isFalse hi =>
      refine ⟨nofun, fun _ => ?_⟩
      rw [List.getElem?_eq_none (Nat.le_of_not_lt hi)] at hcell
      exact increment_end hcell
  | decrement =>
    simp only [position, Move.call]
    cases i with
    | zero => exact ⟨nofun, fun _ => decrement_first hc hcell hne⟩
    | succ i =>
      rw [if_pos (Nat.succ_pos i)]
      refine ⟨fun j hj => ?_, nofun⟩
      obtain rfl := Option.some.inj hj
      obtain ⟨H', iter', hcall, -, h'⟩ := decrement_positioned hc h
      exact ⟨H', iter', hcall, h'⟩

theorem zigzag_cons {H' : Holders} {iter' : JsonIterator}
    (h : m.call N H iter = some (.ok (H', iter'))) (ms : List Move) :
    zigzag N (m :: ms) H iter = zigzag N ms H' iter' := by
  simp only [zigzag, h, Option.bind_eq_bind, Option.bind_some]

theorem zigzag_throws {e : IteratorError} (h : m.call N H iter = some (.error e))
    (ms : List Move) : zigzag N (m :: ms) H iter = some (.error e) := by
  simp only [zigzag, h, Option.bind_eq_bind, Option.bind_some]

theorem zigzag_positioned (hc : Chain N none p children none) (hne : children ≠ [])
    (h : Positioned H children iter i) (hrun : run (position children.length) i ms = some j) :
    ∃ H' iter', zigzag N ms H iter = some (.ok (H', iter')) ∧
      Positioned H' children iter' j := by
  induction ms generalizing H iter i with
  | nil =>
    obtain rfl := Option.some.inj hrun
    exact ⟨H, iter, rfl, h⟩
  | cons m ms ih =>
    obtain ⟨l, hl, hrest⟩ := run_cons hrun
    obtain ⟨H₁, iter₁, hcall, h₁⟩ := (call_positioned hc hne h).1 l hl
    obtain ⟨H', iter', hmoves, h'⟩ := ih h₁ hrest
    exact ⟨H', iter', (zigzag_cons hcall ms).trans hmoves, h'⟩

theorem zigzag_beyond (hc : Chain N none p children none) (hne : children ≠ [])
    (h : Positioned H children iter i) (hrun : run (position children.length) i ms = none) :
    zigzag N ms H iter = some (.error .nullPtrException) := by
  induction ms generalizing H iter i with
  | nil => cases hrun
  | cons m ms ih =>
    cases hl : position children.length i m with
    | none => exact zigzag_throws ((call_positioned hc hne h).2 hl) ms
    | some l =>
      obtain ⟨H₁, iter₁, hcall, h₁⟩ := (call_positioned hc hne h).1 l hl
      have hrest : run (position children.length) l ms = none := by
        simpa [run, hl] using hrun
      exact (zigzag_cons hcall ms).trans (ih h₁ hrest)

theorem Positioned.increment_iff (hc : Chain N none p children none)
    (h : Positioned H children iter i) :
    increment N H iter = some (.error .nullPtrException) ↔ i = children.length := by
  constructor
  · intro hthrows
    by_contra hend
    obtain ⟨H', iter', hcall, -⟩ :=
      increment_positioned hc h (Nat.lt_of_le_of_ne h.inside hend)
    cases hthrows.symm.trans hcall
  · rintro rfl
    obtain ⟨k, hcell⟩ := h.child
    rw [List.getElem?_eq_none le_rfl] at hcell
    exact increment_end hcell

theorem Positioned.decrement_iff (hc : Chain N none p children none) (hne : children ≠ [])
    (h : Positioned H children iter i) :
    decrement N H iter = some (.error .nullPtrException) ↔ i = 0 := by
  constructor
  · intro hthrows
    cases i with
    | zero => rfl
    | succ i =>
      obtain ⟨H', iter', hcall, -⟩ := decrement_positioned hc h
      cases hthrows.symm.trans hcall
  · rintro rfl
    obtain ⟨k, hcell⟩ := h.child
    exact decrement_first hc hcell hne

theorem Positioned.follows (hc : Chain N none p children none) (hne : children ≠ [])
    (h : Positioned H children iter i) : FollowsMoves N children H iter i := by
  constructor
  · intro ms j hrun
    obtain ⟨H', iter', hmoves, h'⟩ := zigzag_positioned hc hne h hrun
    refine ⟨H', iter', hmoves, h'.toStandsAt.denoted, h'.increment_iff hc, h'.decrement_iff hc hne,
      fun hj => ?_⟩
    have hback : run (position children.length) j [.increment, .decrement] = some j := by
      simp [run, position, hj]
    obtain ⟨H'', iter'', hmoves', h''⟩ := zigzag_positioned hc hne h' hback
    exact ⟨H'', iter'', hmoves', h''.toStandsAt.denoted⟩
  · exact fun ms hrun => zigzag_beyond hc hne h hrun

end Positions

/-- From `begin` and from `end` the moves of an iterator are those of its position. -/
theorem iterator_follows {N : Nodes} {H : Holders} {container json : ℕ} {children : List ℕ}
    {k : ℤ} (hc : Children N container children) (hne : children ≠ [])
    (hjson : ∃ ref, H.cell json = some ⟨⟨some container, ref⟩, k⟩) :
    (∃ H' iter, beginIterator N H json = some (.ok (H', iter)) ∧
      FollowsMoves N children H' iter 0) ∧
    ∃ H' iter, endIterator N H json = some (.ok (H', iter)) ∧
      FollowsMoves N children H' iter children.length := by
  have hpos : 0 < children.length := List.length_pos_iff.mpr hne
  obtain ⟨H₁, first, hbegin, hfirst⟩ := beginIterator_stands hc hne hjson
  obtain ⟨H₂, last, hend, hlast, hprev⟩ := endIterator_stands hc hne hjson
  obtain ⟨v, -, -, hchain⟩ := hc
  have hstart : Positioned H₁ children first 0 := ⟨hfirst, fun h => absurd h hpos.ne⟩
  have hstop : Positioned H₂ children last children.length := ⟨hlast, fun _ => hprev⟩
  exact ⟨⟨H₁, first, hbegin, hstart.follows hchain hne⟩,
    ⟨H₂, last, hend, hstop.follows hchain hne⟩⟩

theorem iterator_follows_pair :
    (∃ H' iter, beginIterator pair (Heap.empty.alloc ⟨⟨some 0, false⟩, 1⟩) 0 =
        some (.ok (H', iter)) ∧ FollowsMoves pair [1, 2] H' iter 0) ∧
      ∃ H' iter, endIterator pair (Heap.empty.alloc ⟨⟨some 0, false⟩, 1⟩) 0 =
        some (.ok (H', iter)) ∧ FollowsMoves pair [1, 2] H' iter 2 :=
  iterator_follows pair_children (by decide) ⟨false, rfl⟩

end BoxUtils.Json
