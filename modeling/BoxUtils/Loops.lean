import Mathlib.Data.Nat.Notation
import Mathlib.Tactic.Common

/-!
Loops, given by what one turn does: it goes on from another state, or it ends the loop
with a result. A loop yields a result when some number of turns reaches it. An invariant
with a measure that falls from turn to turn shows that a loop ends and what it yields; an
invariant under which every turn goes on shows that it never does.
-/
namespace BoxUtils.Loops

inductive Turn (S R : Type*)
  | again (s : S)
  | done (r : R)
  deriving DecidableEq, Repr

variable {S R : Type*}

/-- The result, when the given number of turns reaches one. -/
def loop (turn : S → Turn S R) : ℕ → S → Option R
  | 0, _ => none
  | turns + 1, s =>
    match turn s with
    | .again t => loop turn turns t
    | .done r => some r

def Yields (turn : S → Turn S R) (s : S) (r : R) : Prop := ∃ turns, loop turn turns s = some r

def Ends (turn : S → Turn S R) (s : S) : Prop := ∃ r, Yields turn s r

variable {turn : S → Turn S R} {s t : S} {r r' : R}

theorem loop_again (h : turn s = .again t) (turns : ℕ) :
    loop turn (turns + 1) s = loop turn turns t := by
  simp only [loop, h]

theorem loop_done (h : turn s = .done r) (turns : ℕ) : loop turn (turns + 1) s = some r := by
  simp only [loop, h]

theorem Yields.done (h : turn s = .done r) : Yields turn s r := ⟨1, loop_done h 0⟩

theorem Yields.again (h : turn s = .again t) (hrest : Yields turn t r) : Yields turn s r := by
  obtain ⟨turns, hturns⟩ := hrest
  exact ⟨turns + 1, (loop_again h turns).trans hturns⟩

/-- A loop has one result at most. -/
theorem Yields.unique (h : Yields turn s r) (h' : Yields turn s r') : r = r' := by
  obtain ⟨turns, hturns⟩ := h
  obtain ⟨turns', hturns'⟩ := h'
  induction turns generalizing s turns' with
  | zero => cases hturns
  | succ turns ih =>
    cases turns' with
    | zero => cases hturns'
    | succ turns' =>
      cases hturn : turn s with
      | again t =>
        rw [loop_again hturn] at hturns hturns'
        exact ih hturns turns' hturns'
      | done q =>
        rw [loop_done hturn] at hturns hturns'
        exact Option.some.inj (hturns.symm.trans hturns')

/-- An invariant with a falling measure: the loop ends, and its result is what the
invariant says of results. -/
theorem yields_of_invariant {I : S → Prop} {Post : R → Prop} (measure : S → ℕ)
    (hagain : ∀ s t, I s → turn s = .again t → I t ∧ measure t < measure s)
    (hdone : ∀ s r, I s → turn s = .done r → Post r) (hs : I s) :
    ∃ r, Yields turn s r ∧ Post r := by
  induction hn : measure s using Nat.strongRecOn generalizing s with
  | ind n ih =>
    cases hturn : turn s with
    | again t =>
      obtain ⟨ht, hlt⟩ := hagain s t hs hturn
      obtain ⟨r, hyields, hpost⟩ := ih (measure t) (hn ▸ hlt) ht rfl
      exact ⟨r, hyields.again hturn, hpost⟩
    | done r => exact ⟨r, .done hturn, hdone s r hs hturn⟩

/-- A loop that goes on at every turn has no result. -/
theorem not_ends_of_invariant {I : S → Prop} (hagain : ∀ s, I s → ∃ t, turn s = .again t ∧ I t)
    (hs : I s) : ¬ Ends turn s := by
  rintro ⟨r, turns, hturns⟩
  induction turns generalizing s with
  | zero => cases hturns
  | succ turns ih =>
    obtain ⟨t, hturn, ht⟩ := hagain s hs
    rw [loop_again hturn] at hturns
    exact ih ht hturns

end BoxUtils.Loops
