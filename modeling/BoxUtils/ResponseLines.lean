import BoxUtils.HeaderLines
import BoxUtils.Loops

/-!
The lines of a response on their way into a `Headers` object. `WriteToHeaders` takes
the `\r` and `\n` off the end with a loop that never asks whether the string is empty;
the colon that was found before is what the loop stops at, at the latest.
-/
namespace BoxUtils.Headers

open CJson Json Loops

section Source

/-- `--strbuf.end()`, which an empty string does not have. -/
def lastPlace (strbuf : List UInt8) : Option ℕ :=
  if strbuf = [] then none else some (strbuf.length - 1)

/-- A turn of the loop on the string and its iterator. -/
def stripTurn : List UInt8 × ℕ → Turn (List UInt8 × ℕ) (Option (List UInt8))
  | (strbuf, iter) =>
    match strbuf[iter]? with
    | none => .done none
    | some b =>
      if b = 13 ∨ b = 10 then
        match lastPlace strbuf.dropLast with
        | none => .done none
        | some iter => .again (strbuf.dropLast, iter)
      else .done (some strbuf)

/-- The loop on a whole string. -/
def Strips (strbuf : List UInt8) (result : Option (List UInt8)) : Prop :=
  match lastPlace strbuf with
  | none => result = none
  | some iter => Yields stripTurn (strbuf, iter) result

variable (curlSlistAppend : List Text → Text → List Text)

/-- A call of `WriteToHeaders`: the list it leaves and what it returns. -/
def WritesToHeaders (slist : List Text) (buf : List UInt8) (size : ℕ)
    (result : Option (List Text × ℕ)) : Prop :=
  if 58 ∉ buf then result = some (slist, size * buf.length)
  else ∃ stripped, Strips buf stripped ∧ result = stripped.map fun strbuf =>
    (addString curlSlistAppend slist (cStr strbuf), size * buf.length)

/-- The calls for the lines of a response, with size 1, and what each of them returns. -/
def Delivers : List Text → List (List UInt8) → Option (List Text × List ℕ) → Prop
  | slist, [], result => result = some (slist, [])
  | slist, buf :: bufs, result => ∃ call, WritesToHeaders curlSlistAppend slist buf 1 call ∧
    match call with
    | none => result = none
    | some (slist, returned) => ∃ rest, Delivers slist bufs rest ∧
      result = rest.map fun (slist, all) => (slist, returned :: all)

end Source

/-- A line without the `\r` and `\n` at its end. -/
def strippedLine (line : Text) : Text :=
  ⟨stripLineEnd line.1, fun h => line.2 ((List.rdropWhile_prefix _ _).subset h)⟩

section Strip

variable {strbuf : List UInt8} {result : Option (List UInt8)}

/-- A colon is in front of the iterator, so that there is always a character to step to. -/
theorem strips_colon (h : 58 ∈ strbuf) : Strips strbuf (some (stripLineEnd strbuf)) := by
  induction strbuf using List.reverseRecOn with
  | nil => cases h
  | append_singleton l b ih =>
    have hplace : lastPlace (l ++ [b]) = some l.length := by simp [lastPlace]
    rw [Strips, hplace]
    by_cases hend : b = 13 ∨ b = 10
    · have hb : (58 : UInt8) ≠ b := by
        rintro rfl
        exact absurd hend (by decide)
      have hl : 58 ∈ l := by simpa [hb] using h
      have hplace' : lastPlace l = some (l.length - 1) :=
        if_neg (List.ne_nil_of_mem hl)
      have hturn : stripTurn (l ++ [b], l.length) = .again (l, l.length - 1) := by
        simp [stripTurn, hend, hplace']
      have hshorter : stripLineEnd (l ++ [b]) = stripLineEnd l :=
        List.rdropWhile_concat_pos _ _ _ (decide_eq_true hend)
      have hrest := ih hl
      rw [Strips, hplace'] at hrest
      rw [hshorter]
      exact .again hturn hrest
    · have hturn : stripTurn (l ++ [b], l.length) = .done (some (l ++ [b])) := by
        simp [stripTurn, hend]
      have hkept : stripLineEnd (l ++ [b]) = l ++ [b] :=
        List.rdropWhile_concat_neg _ _ _ (by simpa using hend)
      rw [hkept]
      exact .done hturn

/-- A loop has one result. -/
theorem Strips.unique {result' : Option (List UInt8)} (h : Strips strbuf result)
    (h' : Strips strbuf result') : result = result' := by
  unfold Strips at h h'
  cases hplace : lastPlace strbuf with
  | none =>
    rw [hplace] at h h'
    exact h.trans h'.symm
  | some iter =>
    rw [hplace] at h h'
    exact Yields.unique h h'

variable {curlSlistAppend : List Text → Text → List Text} {slist : List Text}

/-- A call does what the whole run of `\r` and `\n` taken off at once would do, and says
how many bytes it was given. -/
theorem writesToHeaders_iff {buf : List UInt8} {size : ℕ} {call : Option (List Text × ℕ)} :
    WritesToHeaders curlSlistAppend slist buf size call ↔
      call = some (writeToHeaders curlSlistAppend slist buf, size * buf.length) := by
  unfold WritesToHeaders writeToHeaders
  by_cases hcolon : 58 ∈ buf
  · rw [if_neg (not_not_intro hcolon), if_pos hcolon]
    constructor
    · rintro ⟨stripped, hstrips, rfl⟩
      rw [hstrips.unique (strips_colon hcolon), Option.map_some]
    · rintro rfl
      exact ⟨_, strips_colon hcolon, rfl⟩
  · rw [if_pos hcolon, if_neg hcolon]

theorem writeToHeaders_line (happend : ∀ l data, curlSlistAppend l data = l ++ [data])
    (line : Text) : writeToHeaders curlSlistAppend slist line.1 =
      slist ++ ([line].filter (58 ∈ ·.1)).map strippedLine := by
  unfold writeToHeaders
  by_cases hcolon : 58 ∈ line.1
  · have hwhole : cStr (stripLineEnd line.1) = strippedLine line := by
      refine Subtype.ext (List.takeWhile_eq_self_iff.mpr fun b hb => ?_)
      exact decide_eq_true fun heq => (strippedLine line).2 (heq ▸ hb)
    simp [hcolon, addString, happend, hwhole]
  · simp [hcolon]

end Strip

/-- The lines of a response: those with a colon are stored in their order, each without
the `\r` and `\n` at its end; each call returns the length of its line. -/
theorem delivers_iff {curlSlistAppend : List Text → Text → List Text}
    (happend : ∀ l data, curlSlistAppend l data = l ++ [data]) (slist lines : List Text)
    (result : Option (List Text × List ℕ)) :
    Delivers curlSlistAppend slist (lines.map Subtype.val) result ↔
      result = some (slist ++ (lines.filter (58 ∈ ·.1)).map strippedLine,
        lines.map fun line => line.1.length) := by
  induction lines generalizing slist result with
  | nil => simp [Delivers]
  | cons line lines ih =>
    have hcons : (line :: lines).filter (58 ∈ ·.1) =
        [line].filter (58 ∈ ·.1) ++ lines.filter (58 ∈ ·.1) :=
      List.filter_append [line] lines
    rw [List.map_cons, Delivers, hcons, List.map_append, ← List.append_assoc,
      ← writeToHeaders_line happend]
    constructor
    · rintro ⟨call, hcall, hrest⟩
      obtain rfl := writesToHeaders_iff.mp hcall
      obtain ⟨rest, hrest, rfl⟩ := hrest
      rw [(ih _ _).mp hrest, Option.map_some, Nat.one_mul, List.map_cons]
    · rintro rfl
      refine ⟨_, writesToHeaders_iff.mpr rfl, _, (ih _ _).mpr rfl, ?_⟩
      rw [Option.map_some, Nat.one_mul, List.map_cons]

/-- A status line, a header and an empty line. -/
theorem delivers_response :
    Delivers (fun l data => l ++ [data]) [] [[72, 84, 13, 10], [65, 58, 98, 13, 10], [13, 10]]
      (some ([⟨[65, 58, 98], by decide⟩], [4, 5, 2])) :=
  (delivers_iff (fun _ _ => rfl) [] [⟨[72, 84, 13, 10], by decide⟩,
    ⟨[65, 58, 98, 13, 10], by decide⟩, ⟨[13, 10], by decide⟩] _).mpr (by decide)

end BoxUtils.Headers
