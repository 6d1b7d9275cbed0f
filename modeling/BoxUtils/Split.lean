import BoxUtils.Loops
import BoxUtils.Occurrences

/-!
`String::split` of string.hpp and the splitting of command lines on top of it.
The loop takes each piece with `substr(first, pos)`, where `pos` is the place at
which the piece ends and not its length, and what stands behind the last
delimiter is never pushed.
-/
namespace BoxUtils.Split

open Loops Occurrences

section Source

variable {α : Type*} [DecidableEq α]

/-- `str.find(delim, first)`, with `npos` as none. -/
def find (str delim : List α) (first : ℕ) : Option ℕ :=
  (List.range (str.length + 1)).find? fun pos => first ≤ pos ∧ delim <+: str.drop pos

def substr (str : List α) (pos count : ℕ) : List α := (str.drop pos).take count

/-- The loop of `impl_split`. -/
def splitLoop (str delim : List α) :
    ℕ → ℕ → Option ℕ → List (List α) → Option (List (List α))
  | _, _, none, out => some out
  | 0, _, some _, _ => none
  | rounds + 1, first, some pos, out =>
    splitLoop str delim rounds (pos + delim.length) (find str delim (pos + delim.length))
      (out ++ [substr str first pos])

/-- `impl_split`; a delimiter that is not empty is found at most once at each place. -/
def implSplit (str delim : List α) : Option (List (List α)) :=
  splitLoop str delim (str.length + 1) 0 (find str delim 0) []

/-- The variables of the loop of `impl_split`. -/
structure Splitting (α : Type*) where
  first : ℕ
  pos : Option ℕ
  out : List (List α)

/-- One turn of the loop of `impl_split`. -/
def splitTurn (str delim : List α) : Splitting α → Turn (Splitting α) (List (List α))
  | ⟨_, none, out⟩ => .done out
  | ⟨first, some pos, out⟩ =>
    let first' := pos + delim.length
    .again ⟨first', find str delim first', out ++ [substr str first pos]⟩

end Source

/-- `SubProcess::Split`. -/
def splitArgs (val : List UInt8) : Option (List (List UInt8)) := implSplit val [32]

/-- The pieces are free of the delimiter and give the string back when they are joined. -/
def InverseToJoin {α : Type*} [DecidableEq α] (str delim : List α) : Prop :=
  ∃ out, implSplit str delim = some out ∧ (∀ piece ∈ out, ¬ delim <:+: piece) ∧
    delim.intercalate out = str

section Pieces

variable {α : Type*} [DecidableEq α] {str delim : List α} {first pos : ℕ}

theorem find_eq_some_iff : find str delim first = some pos ↔
    first ≤ pos ∧ pos ≤ str.length ∧ delim <+: str.drop pos ∧
      ∀ j < pos, first ≤ j → ¬ delim <+: str.drop j := by
  unfold find
  rw [List.find?_range_eq_some]
  simp only [decide_eq_true_eq, List.mem_range, Bool.not_eq_true', decide_eq_false_iff_not,
    not_and, Nat.lt_succ_iff]
  tauto

theorem find_spec (h : find str delim first = some pos) :
    first ≤ pos ∧ delim <+: str.drop pos := by
  have hpos := List.find?_some h
  simpa using hpos

theorem find_bound (h : find str delim first = some pos) : pos + delim.length ≤ str.length := by
  obtain ⟨-, hbegins⟩ := find_spec h
  have hle := hbegins.length_le
  rw [List.length_drop] at hle
  have hmem := List.mem_of_find?_eq_some h
  rw [List.mem_range] at hmem
  omega

theorem find_append (front : List α) {rest : List α} {i : ℕ} (h : FirstAt delim rest i)
    (hi : i ≤ rest.length) :
    find (front ++ rest) delim front.length = some (front.length + i) := by
  rw [find_eq_some_iff]
  refine ⟨Nat.le_add_right _ _, ?_, ?_, ?_⟩
  · rw [List.length_append]
    omega
  · rw [List.drop_append, List.drop_eq_nil_of_le (Nat.le_add_right _ _), Nat.add_sub_cancel_left]
    exact h.here
  · intro j hj hfront
    rw [List.drop_append, List.drop_eq_nil_of_le hfront]
    exact h.before (j - front.length) (by omega)

theorem find_append_none (front : List α) {rest : List α} (h : ¬ delim <:+: rest) :
    find (front ++ rest) delim front.length = none := by
  rw [Option.eq_none_iff_forall_ne_some]
  intro pos hpos
  obtain ⟨hfront, -, hbegins, -⟩ := find_eq_some_iff.mp hpos
  rw [List.drop_append, List.drop_eq_nil_of_le hfront, List.nil_append] at hbegins
  exact h (infix_of_prefix_drop hbegins)

/-- Nothing is found at once, at any place that there is. -/
theorem find_nil (h : first ≤ str.length) : find str [] first = some first := by
  rw [find_eq_some_iff]
  exact ⟨Nat.le_refl _, h, List.nil_prefix, fun j hj hfirst => absurd hfirst (Nat.not_le.mpr hj)⟩

theorem splitLoop_eq_loop (rounds first : ℕ) (found : Option ℕ) (out : List (List α)) :
    loop (splitTurn str delim) (rounds + 1) ⟨first, found, out⟩ =
      splitLoop str delim rounds first found out := by
  induction rounds generalizing first found out with
  | zero => cases found <;> rfl
  | succ rounds ih =>
    cases found with
    | none => rfl
    | some pos => exact ih _ _ _

/-- Nothing that has been pushed is lost again. -/
theorem splitLoop_prefix {rounds : ℕ} {found : Option ℕ} {out result : List (List α)}
    (h : splitLoop str delim rounds first found out = some result) : out <+: result := by
  induction rounds generalizing first found out with
  | zero =>
    cases found with
    | none =>
      obtain rfl := Option.some.inj h
      exact List.prefix_rfl
    | some pos => cases h
  | succ rounds ih =>
    cases found with
    | none =>
      obtain rfl := Option.some.inj h
      exact List.prefix_rfl
    | some pos => exact (List.prefix_append out _).trans (ih h)

/-- Every round gets behind another delimiter, so the loop ends. -/
theorem splitLoop_ends (hdelim : delim ≠ []) {rounds : ℕ} {found : Option ℕ}
    (hfound : ∀ pos, found = some pos → first ≤ pos ∧ pos + delim.length ≤ str.length)
    (hrounds : str.length < first + rounds) (out : List (List α)) :
    ∃ result, splitLoop str delim rounds first found out = some result := by
  have hlen := List.length_pos_iff.mpr hdelim
  induction rounds generalizing first found out with
  | zero =>
    cases found with
    | none => exact ⟨out, rfl⟩
    | some pos =>
      have := hfound pos rfl
      omega
  | succ rounds ih =>
    cases found with
    | none => exact ⟨out, rfl⟩
    | some pos =>
      have hpos := hfound pos rfl
      exact ih (fun pos' hpos' => ⟨(find_spec hpos').1, find_bound hpos'⟩) (by omega) _

theorem implSplit_ends (hdelim : delim ≠ []) : ∃ out, implSplit str delim = some out :=
  splitLoop_ends hdelim (fun _ hpos => ⟨(find_spec hpos).1, find_bound hpos⟩) (by omega) []

/-- The second piece reaches over the delimiter behind it. -/
theorem delim_in_second (hfirst : delim.length ≤ first) (h : find str delim first = some pos) :
    delim <:+: substr str first pos := by
  obtain ⟨hle, rest, hrest⟩ := find_spec h
  let before := (str.drop first).take (pos - first)
  have hsplit : str.drop first = (before ++ delim) ++ rest := by
    have hdrop : str.drop pos = (str.drop first).drop (pos - first) := by
      rw [List.drop_drop, Nat.add_sub_cancel' hle]
    rw [List.append_assoc, hrest, hdrop, List.take_append_drop]
  have hshort : (before ++ delim).length ≤ pos := by
    rw [List.length_append, List.length_take]
    omega
  refine ⟨before, rest.take (pos - (before ++ delim).length), ?_⟩
  rw [substr, hsplit, List.take_append, List.take_of_length_le hshort]

/-- The first piece of what the loop pushes, and the second when there are two delimiters. -/
theorem implSplit_cases (h : find str delim 0 = some pos) {out : List (List α)}
    (hout : implSplit str delim = some out) :
    out = [str.take pos] ∨ ∃ second rest, out = str.take pos :: second :: rest ∧
      delim <:+: second := by
  have hfirst : substr str 0 pos = str.take pos := by
    rw [substr, List.drop_zero]
  unfold implSplit at hout
  rw [h, splitLoop, hfirst] at hout
  cases hnext : find str delim (pos + delim.length) with
  | none =>
    rw [hnext, splitLoop] at hout
    exact Or.inl (Option.some.inj hout).symm
  | some pos' =>
    rw [hnext] at hout
    cases hrounds : str.length with
    | zero =>
      rw [hrounds] at hout
      cases hout
    | succ rounds =>
      rw [hrounds, splitLoop] at hout
      obtain ⟨rest, hrest⟩ := splitLoop_prefix hout
      refine Or.inr ⟨substr str (pos + delim.length) pos', rest, hrest.symm, ?_⟩
      exact delim_in_second (Nat.le_add_left _ _) hnext

end Pieces

section Inverse

variable {α : Type*} [DecidableEq α] {str delim : List α}

theorem inverseToJoin_nil (hdelim : delim ≠ []) : InverseToJoin [] delim := by
  have hnone : find [] delim 0 = none := by
    unfold find
    simp [hdelim]
  refine ⟨[], ?_, by simp, rfl⟩
  unfold implSplit
  rw [hnone]
  rfl

/-- A string that is not empty is never given back. -/
theorem inverseToJoin_iff (hdelim : delim ≠ []) : InverseToJoin str delim ↔ str = [] := by
  constructor
  · intro hinv
    obtain ⟨out, hout, hfree, hjoin⟩ := hinv
    cases hfind : find str delim 0 with
    | none =>
      unfold implSplit at hout
      rw [hfind] at hout
      obtain rfl := Option.some.inj hout
      exact hjoin.symm
    | some pos =>
      rcases implSplit_cases hfind hout with rfl | ⟨second, rest, rfl, hsecond⟩
      · -- what stands behind the only delimiter is missing
        have hlen := congrArg List.length hjoin
        have hbound := find_bound hfind
        have hpos := List.length_pos_iff.mpr hdelim
        rw [List.intercalate_singleton, List.length_take] at hlen
        omega
      · exact absurd hsecond (hfree second (by simp))
  · intro hstr
    subst hstr
    exact inverseToJoin_nil hdelim

end Inverse

/-- Splitting undoes joining for the empty string only, and a command line comes back
as its words only if it has none. -/
theorem split_joins_iff {delim : List UInt8} (hdelim : delim ≠ []) :
    (∀ str, InverseToJoin str delim ↔ str = []) ∧
      ∀ words : List (List UInt8), (∀ word ∈ words, word ≠ [] ∧ 32 ∉ word) →
        (splitArgs ([32].intercalate words) = some words ↔ words = []) := by
  refine ⟨fun str => inverseToJoin_iff hdelim, fun words hwords => ?_⟩
  constructor
  · intro hsplit
    have hinv : InverseToJoin ([32].intercalate words) [32] := by
      refine ⟨words, hsplit, fun word hword hblank => ?_, rfl⟩
      exact (hwords word hword).2 (hblank.subset (by simp))
    have hempty := (inverseToJoin_iff (by simp)).mp hinv
    cases words with
    | nil => rfl
    | cons word words =>
      have hword := (hwords word (by simp)).1
      cases words with
      | nil => exact absurd (List.intercalate_singleton.symm.trans hempty) hword
      | cons next words =>
        rw [List.intercalate_cons_cons] at hempty
        simp at hempty
  · intro hnil
    subst hnil
    rfl

/-- For the blank, and the command line "ls". -/
theorem split_joins_blank :
    (∀ str : List UInt8, InverseToJoin str [32] ↔ str = []) ∧
      (splitArgs ([32].intercalate [[108, 115]]) = some [[108, 115]] ↔
        [[108, 115]] = ([] : List (List UInt8))) := by
  have h := @split_joins_iff [32] (by decide)
  exact ⟨h.1, h.2 [[108, 115]] (by decide)⟩

/-- Of "a b" only the piece "a" is pushed. -/
theorem last_piece_lost :
    ¬ ∀ str delim : List UInt8, delim ≠ [] → InverseToJoin str delim := by
  intro h
  obtain ⟨out, hout, -, hjoin⟩ := h [97, 32, 98] [32] (by decide)
  have hsplit : implSplit [97, 32, 98] [(32 : UInt8)] = some [[97]] := by decide
  obtain rfl := Option.some.inj (hsplit.symm.trans hout)
  exact absurd hjoin (by decide)

end BoxUtils.Split
