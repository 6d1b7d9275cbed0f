import BoxUtils.JsonValues
import BoxUtils.Split

/-!
The formatting of fmt.cpp. `VFormat` walks through the format from one pair of braces to
the next and takes an argument for each; what it has written it does not look at again.
Taking an argument where there is none is not defined.
-/
namespace BoxUtils.Fmt

open CJson Loops Occurrences Split

section Source

/-- The pair of braces. -/
def placeholder : List UInt8 := [123, 125]

/-- `strstr(fmt, "{}")`, as the distance from `fmt`. -/
def strstr (fmt : List UInt8) : Option ℕ := find fmt placeholder 0

/-- The variables of `VFormat`; `fmt` is the rest of the format. -/
structure Formatting where
  fmt : List UInt8
  ptr : Option ℕ
  ret : List UInt8
  varg : List Text
  deriving DecidableEq

/-- One turn of the loop. The result comes with the arguments that are left. -/
def formatTurn : Formatting → Turn Formatting (Option (List UInt8 × List Text))
  | ⟨fmt, none, ret, varg⟩ => .done (some (ret ++ fmt, varg))
  | ⟨_, some _, _, []⟩ => .done none
  | ⟨fmt, some ptr, ret, arg :: varg⟩ =>
    let ret := ret ++ fmt.take ptr
    let ret := ret ++ arg.1
    let fmt := fmt.drop (ptr + placeholder.length)
    .again ⟨fmt, strstr fmt, ret, varg⟩

/-- `FmtImpl::VFormat`. -/
def VFormat (fmt : Text) (varg : List Text) (result : Option (List UInt8 × List Text)) : Prop :=
  Yields formatTurn ⟨fmt.1, strstr fmt.1, [], varg⟩ result

/-- `Fmt::Format` of strings; `c_str()` ends each of them at its first NUL. -/
def Format (fmt : Text) (args : List (List UInt8)) (result : Option (List UInt8 × List Text)) :
    Prop :=
  VFormat fmt (args.map Json.cStr) result

end Source

variable {fmt : List UInt8} {ps : List (List UInt8)}

theorem placeholder_ne_nil : placeholder ≠ [] := by decide

/-- From any rest of the format on, with enough arguments for it. -/
theorem formatTurn_yields (hps : Pieces placeholder fmt ps) (ret : List UInt8)
    {varg : List Text} (hvarg : ps.length ≤ varg.length + 1) :
    Yields formatTurn ⟨fmt, strstr fmt, ret, varg⟩
      (some (ret ++ interleave ps ((varg.take (ps.length - 1)).map Subtype.val),
        varg.drop (ps.length - 1))) := by
  induction hps generalizing ret varg with
  | @last s hnone =>
    have hptr : strstr s = none := find_append_none [] hnone
    rw [hptr]
    simp only [List.length_singleton, Nat.sub_self, List.take_zero, List.map_nil, List.drop_zero,
      interleave, List.flatten_cons, List.flatten_nil, List.append_nil]
    exact Yields.done rfl
  | @next before after ps hfirst hrest ih =>
    have hptr : strstr (before ++ placeholder ++ after) = some before.length := by
      have h := find_append [] hfirst (by simp only [List.length_append]; omega)
      rw [List.length_nil, Nat.zero_add] at h
      exact h
    have hpos := List.length_pos_iff.mpr hrest.ne_nil
    rw [List.length_cons] at hvarg
    cases varg with
    | nil => exact absurd hvarg (by simp only [List.length_nil]; omega)
    | cons arg varg =>
      rw [List.length_cons] at hvarg
      have henough : ps.length ≤ varg.length + 1 := by omega
      have hnext := ih (ret ++ before ++ arg.1) henough
      have hcount : (before :: ps).length - 1 = ps.length - 1 + 1 := by
        rw [List.length_cons]
        omega
      have htake : (before ++ placeholder ++ after).take before.length = before := by
        rw [List.append_assoc, List.take_left]
      have hdrop : (before ++ placeholder ++ after).drop (before.length + placeholder.length) =
          after := by
        rw [← List.length_append, List.drop_left]
      rw [hptr, hcount, List.take_succ_cons, List.map_cons, interleave, List.drop_succ_cons]
      simp only [List.append_assoc] at hnext ⊢
      refine Yields.again ?_ hnext
      rw [List.append_assoc] at htake hdrop
      simp only [formatTurn, htake, hdrop, List.append_assoc]

/-- The pieces of the format between its pairs of braces, with one argument behind each
but the last, and only these arguments are taken. -/
theorem vformat_interleaves (fmt : Text) (args : List Text) (k : ℕ)
    (hk : (pieces placeholder fmt.1).length = k + 1) (hargs : k ≤ args.length) :
    VFormat fmt args
      (some (interleave (pieces placeholder fmt.1) ((args.take k).map Subtype.val),
        args.drop k)) := by
  have hps := pieces_spec placeholder_ne_nil fmt.1
  have henough : (pieces placeholder fmt.1).length ≤ args.length + 1 := by omega
  have h := formatTurn_yields hps [] henough
  rw [hk] at h
  exact h

/-- The format "{{}}{}" with the arguments "{}" and "x", and one more that is not taken. -/
theorem vformat_interleaves_braces :
    VFormat ⟨[123, 123, 125, 125, 123, 125], by decide⟩
      [⟨[123, 125], by decide⟩, ⟨[120], by decide⟩, ⟨[121], by decide⟩]
      (some ([123, 123, 125, 125, 120], [⟨[121], by decide⟩])) := by
  have h := vformat_interleaves ⟨[123, 123, 125, 125, 123, 125], by decide⟩
    [⟨[123, 125], by decide⟩, ⟨[120], by decide⟩, ⟨[121], by decide⟩] 2 (by decide) (by decide)
  have hpieces : pieces placeholder [123, 123, 125, 125, 123, 125] = [[123], [125], []] := by
    decide
  simp only [hpieces] at h
  exact h

/-- Strings for all the placeholders, each up to its first NUL. -/
theorem format_interleaves (fmt : Text) (args : List (List UInt8))
    (hargs : (pieces placeholder fmt.1).length = args.length + 1) :
    Format fmt args
      (some (interleave (pieces placeholder fmt.1) (args.map (List.takeWhile (· ≠ 0))), [])) := by
  have hps := pieces_spec placeholder_ne_nil fmt.1
  have hlen : (args.map Json.cStr).length = args.length := List.length_map _
  have henough : (pieces placeholder fmt.1).length ≤ (args.map Json.cStr).length + 1 := by omega
  have h := formatTurn_yields hps [] henough
  rw [hargs, Nat.add_sub_cancel, List.take_of_length_le (by omega), List.map_map,
    List.drop_of_length_le (by omega)] at h
  exact h

end BoxUtils.Fmt
