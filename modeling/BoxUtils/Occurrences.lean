import Mathlib.Data.List.Infix
import Mathlib.Data.Nat.Find

/-!
Occurrences of a pattern in a list. Going from left to right, the first occurrence ends a
piece and is passed over as a whole, so the pieces of a list are what stands between its
leftmost occurrences that do not overlap.
-/
namespace BoxUtils.Occurrences

variable {α : Type*} {pat s : List α} {i : ℕ}

/-- The pattern stands at place i, and at no place before. -/
structure FirstAt (pat s : List α) (i : ℕ) : Prop where
  here : pat <+: s.drop i
  before : ∀ j < i, ¬ pat <+: s.drop j

theorem infix_of_prefix_drop (h : pat <+: s.drop i) : pat <:+: s :=
  h.isInfix.trans (List.drop_suffix i s).isInfix

theorem infix_iff_exists_prefix_drop : pat <:+: s ↔ ∃ i ≤ s.length, pat <+: s.drop i := by
  constructor
  · rintro ⟨before, after, rfl⟩
    refine ⟨before.length, ?_, after, ?_⟩
    · simp only [List.length_append]
      omega
    · rw [List.append_assoc, List.drop_left]
  · rintro ⟨i, -, hpre⟩
    exact infix_of_prefix_drop hpre

theorem exists_firstAt (h : pat <:+: s) : ∃ i, FirstAt pat s i := by
  classical
  obtain ⟨i, -, hi⟩ := infix_iff_exists_prefix_drop.mp h
  have hex : ∃ i, pat <+: s.drop i := ⟨i, hi⟩
  exact ⟨Nat.find hex, Nat.find_spec hex, fun j hj => Nat.find_min hex hj⟩

theorem FirstAt.cons {c : α} (hhead : ¬ pat <+: c :: s) (h : FirstAt pat s i) :
    FirstAt pat (c :: s) (i + 1) := by
  constructor
  · exact h.here
  · intro j hj
    cases j with
    | zero => exact hhead
    | succ j => exact h.before j (by omega)

/-- One item of the second list behind each item of the first, as long as there are any. -/
def interleave : List (List α) → List (List α) → List α
  | p :: ps, a :: items => p ++ a ++ interleave ps items
  | ps, _ => ps.flatten

section Pieces

/-- The pieces of a list between the leftmost occurrences of the pattern. -/
inductive Pieces (pat : List α) : List α → List (List α) → Prop
  | last {s : List α} (hnone : ¬ pat <:+: s) : Pieces pat s [s]
  | next {before after : List α} {ps : List (List α)}
      (hfirst : FirstAt pat (before ++ pat ++ after) before.length) (hrest : Pieces pat after ps) :
      Pieces pat (before ++ pat ++ after) (before :: ps)

theorem Pieces.ne_nil {ps : List (List α)} (h : Pieces pat s ps) : ps ≠ [] := by
  cases h <;> exact List.cons_ne_nil _ _

/-- An item in front of a list at which the pattern does not stand goes to the first piece. -/
theorem Pieces.cons {c : α} {ps : List (List α)} (hhead : ¬ pat <+: c :: s)
    (h : Pieces pat s ps) : Pieces pat (c :: s) (ps.modifyHead (c :: ·)) := by
  cases h with
  | last hnone =>
    apply Pieces.last
    rw [List.infix_cons_iff]
    exact not_or.mpr ⟨hhead, hnone⟩
  | next hfirst hrest => exact @Pieces.next α pat (c :: _) _ _ (hfirst.cons hhead) hrest

variable [DecidableEq α]

/-- The pieces of what comes after the next items, as many as are still to be passed over. -/
def piecesFrom (pat : List α) : ℕ → List α → List (List α)
  | _, [] => [[]]
  | skip + 1, _ :: s => piecesFrom pat skip s
  | 0, c :: s =>
    if pat <+: c :: s then [] :: piecesFrom pat (pat.length - 1) s
    else (piecesFrom pat 0 s).modifyHead (c :: ·)

def pieces (pat s : List α) : List (List α) := piecesFrom pat 0 s

theorem pieces_piecesFrom (hpat : pat ≠ []) (skip : ℕ) (s : List α) :
    Pieces pat (s.drop skip) (piecesFrom pat skip s) := by
  induction s generalizing skip with
  | nil =>
    rw [List.drop_nil, piecesFrom]
    exact Pieces.last fun h => hpat (List.infix_nil.mp h)
  | cons c s ih =>
    cases skip with
    | succ skip => exact ih skip
    | zero =>
      rw [List.drop_zero, piecesFrom]
      split
      case isTrue hhead =>
        obtain ⟨after, hafter⟩ := hhead
        cases pat with
        | nil => exact absurd rfl hpat
        | cons d rest =>
          obtain ⟨rfl, rfl⟩ : d = c ∧ rest ++ after = s := List.cons.inj hafter
          have hrest := ih rest.length
          rw [List.drop_left] at hrest
          refine @Pieces.next α (d :: rest) [] after _ ⟨?_, ?_⟩ hrest
          · exact ⟨after, rfl⟩
          · intro j hj
            cases hj
      case isFalse hhead => exact (ih 0).cons hhead

theorem pieces_spec (hpat : pat ≠ []) (s : List α) : Pieces pat s (pieces pat s) :=
  pieces_piecesFrom hpat 0 s

end Pieces

end BoxUtils.Occurrences
