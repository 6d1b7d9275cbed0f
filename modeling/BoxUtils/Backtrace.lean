import BoxUtils.CJson

/-!
`CollectFunction` of backtrace.cpp, which takes the names of the file and of the function
from a line of `backtrace_symbols`. The file name is written first, and one character of it
is lost; nothing is before a bracket that comes first, and the length is then negative.
-/
namespace BoxUtils.Backtrace

open CJson

/-- The strings that the pointers lead to, where they are not null. -/
structure Outputs where
  func : Option (List UInt8)
  file : Option (List UInt8)
  deriving DecidableEq, Repr

section Source

/-- `strchr`, as the distance from the pointer. -/
def strchr (str : List UInt8) (ch : UInt8) : Option ℕ := str.idxOf? ch

/-- `clear` and `append(str, n)`. A negative n is a size beyond `max_size()`, and the
exception does not leave a function that is `noexcept`. -/
def assign (str : List UInt8) (n : ℤ) : Option (List UInt8) :=
  if 0 ≤ n then some (str.take n.toNat) else none

/-- `assign` for a string whose pointer may be null. -/
def assignTo (out : Option (List UInt8)) (str : List UInt8) (n : ℤ) :
    Option (Option (List UInt8)) :=
  match out with
  | none => some none
  | some _ => (assign str n).map some

/-- The result and the strings; none when the program is terminated. -/
def collectFunction (str : Text) (out : Outputs) : Option (Bool × Outputs) :=
  match strchr str.1 40 with
  | none => some (false, out)
  | some pBegin => do
    let file ← assignTo out.file str.1 ((pBegin : ℤ) - 1)
    let rest := str.1.drop pBegin
    match strchr rest 41 with
    | none => some (false, { out with file := file })
    | some toEnd =>
      let stop := match strchr rest 43 with
        | none => toEnd
        | some toPlus => if toPlus > toEnd then toEnd else toPlus
      let func ← assignTo out.func (rest.drop 1) ((stop : ℤ) - 1)
      some (true, ⟨func, file⟩)

end Source

/-- A line with the names of a file and a function, and perhaps an offset. -/
structure IsLine (file func : List UInt8) (str : List UInt8) : Prop where
  plainFile : 40 ∉ file
  plainFunc : 41 ∉ func ∧ 43 ∉ func
  parts : (∃ offset tail, 41 ∉ offset ∧
      str = file ++ 40 :: (func ++ 43 :: (offset ++ 41 :: tail))) ∨
    ∃ tail, str = file ++ 40 :: (func ++ 41 :: tail)

/-- Lines give their names, and a call that fails leaves the strings alone. -/
structure ParsesExactly (str : Text) (out : Outputs) : Prop where
  line : ∀ file func, IsLine file func str.1 → collectFunction str out =
    some (true, ⟨out.func.map fun _ => func, out.file.map fun _ => file⟩)
  failure : ∀ out', collectFunction str out = some (false, out') → out' = out

/-- No file name is written, or what is written before the call fails was there already. -/
def SparesFile (str : Text) (out : Outputs) : Prop :=
  out.file = none ∨ 40 ∉ str.1 ∨ ∃ file rest, str.1 = file ++ 40 :: rest ∧ 40 ∉ file ∧
    41 ∉ rest ∧ (file = [] ∨ out.file = some file.dropLast)

section Searches

variable {before before' rest rest' : List UInt8} {ch b : UInt8}

theorem strchr_append (h : ch ∉ before) (rest : List UInt8) :
    strchr (before ++ rest) ch = (strchr rest ch).map (· + before.length) := by
  unfold strchr
  induction before with
  | nil => simp
  | cons b before ih =>
    have hb : b ≠ ch := fun heq => h (heq ▸ List.mem_cons_self)
    have hbefore : ch ∉ before := fun hmem => h (List.mem_cons_of_mem b hmem)
    rw [List.cons_append, List.idxOf?_cons, if_neg (by simpa using hb), ih hbefore,
      Option.map_map]
    rfl

theorem strchr_self (ch : UInt8) (rest : List UInt8) : strchr (ch :: rest) ch = some 0 := by
  unfold strchr
  rw [List.idxOf?_cons, if_pos (beq_self_eq_true ch)]

theorem strchr_none (h : ch ∉ rest) : strchr rest ch = none := List.idxOf?_eq_none_iff.mpr h

/-- The first place of a character. -/
theorem strchr_first (h : ch ∉ before) (rest : List UInt8) :
    strchr (before ++ ch :: rest) ch = some before.length := by
  rw [strchr_append h, strchr_self, Option.map_some, Nat.zero_add]

theorem strchr_cons (h : b ≠ ch) (rest : List UInt8) :
    strchr (b :: rest) ch = (strchr rest ch).map (· + 1) := by
  unfold strchr
  rw [List.idxOf?_cons, if_neg (by simpa using h)]

/-- What stands before the first place is before that place only. -/
theorem first_unique (h : ch ∉ before) (h' : ch ∉ before')
    (heq : before ++ ch :: rest = before' ++ ch :: rest') : before = before' ∧ rest = rest' := by
  have hplace := strchr_first h rest
  rw [heq, strchr_first h'] at hplace
  obtain ⟨hbefore, htail⟩ := List.append_inj heq (Option.some.inj hplace).symm
  exact ⟨hbefore, (List.cons.inj htail).2⟩

end Searches

section Lines

variable {str : Text} {out : Outputs} {before rest file func : List UInt8} {toEnd : ℕ}

/-- The characters behind the opening bracket up to the closing one, or to a plus before it. -/
def functionName (rest : List UInt8) (toEnd : ℕ) : List UInt8 :=
  match strchr rest 43 with
  | none => rest.take toEnd
  | some toPlus => if toPlus > toEnd then rest.take toEnd else rest.take toPlus

theorem assignTo_nat (out : Option (List UInt8)) (str : List UInt8) (n : ℕ) :
    assignTo out str n = some (out.map fun _ => str.take n) := by
  cases out with
  | none => rfl
  | some old => simp [assignTo, assign]

/-- A file name loses its last character, and one without any is not written at all. -/
theorem assignTo_file (old before rest : List UInt8) :
    assignTo (some old) (before ++ rest) ((before.length : ℤ) - 1) =
      if before = [] then none else some (some before.dropLast) := by
  by_cases hnil : before = []
  · subst hnil
    rfl
  · have hpos := List.length_pos_iff.mpr hnil
    have hn : ((before.length : ℤ) - 1).toNat = before.length - 1 := by omega
    rw [if_neg hnil, assignTo, assign, if_pos (by omega), hn, Option.map_some,
      List.take_append_of_le_length (Nat.sub_le _ _), List.dropLast_eq_take]

/-- With an opening bracket, the file is written before the closing one is looked for. -/
theorem collectFunction_bracket (out : Outputs) (hstr : str.1 = before ++ 40 :: rest)
    (hbefore : 40 ∉ before) :
    collectFunction str out =
      (assignTo out.file str.1 ((before.length : ℤ) - 1)).map fun file =>
        match strchr rest 41 with
        | none => (false, { out with file := file })
        | some toEnd => (true, ⟨out.func.map fun _ => functionName rest toEnd, file⟩) := by
  have hrest : str.1.drop before.length = 40 :: rest := by
    rw [hstr, List.drop_left]
  unfold collectFunction
  rw [show strchr str.1 40 = some before.length from hstr ▸ strchr_first hbefore rest]
  dsimp only
  cases assignTo out.file str.1 ((before.length : ℤ) - 1) with
  | none => rfl
  | some file =>
    simp only [hrest, Option.bind_eq_bind, Option.bind_some, Option.map_some]
    rw [strchr_cons (by decide), strchr_cons (by decide)]
    cases strchr rest 41 with
    | none => rfl
    | some toEnd =>
      unfold functionName
      simp only [Option.map_some, List.drop_succ_cons, List.drop_zero]
      cases strchr rest 43 with
      | none =>
        simp only [Option.map_none, Nat.cast_succ, add_sub_cancel_right, assignTo_nat]
        rfl
      | some toPlus =>
        simp only [Option.map_some, gt_iff_lt, Nat.succ_lt_succ_iff]
        split
        · simp only [Nat.cast_succ, add_sub_cancel_right, assignTo_nat]
          rfl
        · simp only [Nat.cast_succ, add_sub_cancel_right, assignTo_nat]
          rfl

theorem functionName_offset (hplus : 43 ∉ func) (hend : func.length ≤ toEnd)
    (rest : List UInt8) : functionName (func ++ 43 :: rest) toEnd = func := by
  unfold functionName
  rw [strchr_first hplus]
  dsimp only
  rw [if_neg (Nat.not_lt.mpr hend), List.take_left]

/-- A plus behind the closing bracket does not count. -/
theorem functionName_plain (hplus : 43 ∉ func) (tail : List UInt8) :
    functionName (func ++ 41 :: tail) func.length = func := by
  unfold functionName
  rw [strchr_append hplus, strchr_cons (by decide)]
  cases strchr tail 43 with
  | none => exact List.take_left
  | some toPlus =>
    have hbehind : toPlus + 1 + func.length > func.length := by omega
    simp only [Option.map_some, if_pos hbehind, List.take_left]

/-- What the searches find in a line. -/
theorem IsLine.reads {str : List UInt8} (h : IsLine file func str) : ∃ rest toEnd,
    str = file ++ 40 :: rest ∧ strchr rest 41 = some toEnd ∧ functionName rest toEnd = func := by
  obtain ⟨-, ⟨hend, hplus⟩, hparts⟩ := h
  rcases hparts with ⟨offset, tail, hoffset, hstr⟩ | ⟨tail, hstr⟩
  · have hbefore : 41 ∉ func ++ 43 :: offset := by
      simp [hend, hoffset]
    have hfound := strchr_first hbefore tail
    rw [List.append_assoc, List.cons_append] at hfound
    refine ⟨_, _, hstr, hfound, functionName_offset hplus ?_ _⟩
    rw [List.length_append]
    exact Nat.le_add_right _ _
  · exact ⟨_, _, hstr, strchr_first hend tail, functionName_plain hplus tail⟩

/-- Each text with both brackets in their order is a line. -/
theorem exists_isLine (hbefore : 40 ∉ before) (hend : 41 ∈ rest) :
    ∃ func, IsLine before func (before ++ 40 :: rest) := by
  obtain ⟨inner, tail, rfl, hinner⟩ := List.eq_append_cons_of_mem hend
  by_cases hplus : 43 ∈ inner
  · obtain ⟨func, offset, rfl, hfunc⟩ := List.eq_append_cons_of_mem hplus
    rw [List.mem_append, List.mem_cons, not_or, not_or] at hinner
    refine ⟨func, hbefore, ⟨hinner.1, hfunc⟩, Or.inl ⟨offset, tail, hinner.2.2, ?_⟩⟩
    rw [List.append_assoc, List.cons_append]
  · exact ⟨inner, hbefore, ⟨hinner, hplus⟩, Or.inr ⟨tail, rfl⟩⟩

end Lines

section Exactness

variable {str : Text} {out : Outputs} {before rest : List UInt8} {old : List UInt8}

theorem parsesExactly_of_plain (h : 40 ∉ str.1) : ParsesExactly str out := by
  have hcall : collectFunction str out = some (false, out) := by
    unfold collectFunction
    rw [strchr_none h]
  constructor
  · intro file func hline
    obtain ⟨rest, -, hstr, -⟩ := hline.reads
    exact absurd (hstr ▸ List.mem_append_cons_self) h
  · intro out' hfails
    rw [hcall] at hfails
    exact (Prod.mk.inj (Option.some.inj hfails)).2.symm

/-- A null pointer for the file name. -/
theorem parsesExactly_of_null (hstr : str.1 = before ++ 40 :: rest) (hbefore : 40 ∉ before)
    (hfile : out.file = none) : ParsesExactly str out := by
  have hcall := collectFunction_bracket out hstr hbefore
  have hnull : assignTo none str.1 ((before.length : ℤ) - 1) = some none := rfl
  rw [hfile, hnull, Option.map_some] at hcall
  constructor
  · intro file func hline
    obtain ⟨rest', toEnd, hstr', hend, hname⟩ := hline.reads
    obtain ⟨-, rfl⟩ := first_unique hbefore hline.plainFile (hstr.symm.trans hstr')
    rw [hcall, hend, ← hname, hfile]
    rfl
  · intro out' hfails
    rw [hcall] at hfails
    cases hend : strchr rest 41 with
    | none =>
      rw [hend] at hfails
      rw [← (Prod.mk.inj (Option.some.inj hfails)).2, ← hfile]
    | some toEnd =>
      rw [hend] at hfails
      cases hfails

/-- The file name of a line is never the one that is written. -/
theorem not_parsesExactly (hstr : str.1 = before ++ 40 :: rest) (hbefore : 40 ∉ before)
    (hend : 41 ∈ rest) (hfile : out.file = some old) : ¬ ParsesExactly str out := by
  intro h
  obtain ⟨func, hline⟩ := exists_isLine hbefore hend
  have hright := h.line before func (hstr ▸ hline)
  obtain ⟨toEnd, hfound⟩ : ∃ toEnd, strchr rest 41 = some toEnd := by
    obtain ⟨inner, tail, rfl, hinner⟩ := List.eq_append_cons_of_mem hend
    exact ⟨_, strchr_first hinner tail⟩
  rw [collectFunction_bracket out hstr hbefore, hfile, hstr, assignTo_file, hfound] at hright
  by_cases hnil : before = []
  · rw [if_pos hnil] at hright
    cases hright
  · rw [if_neg hnil] at hright
    have hout := (Prod.mk.inj (Option.some.inj hright)).2
    have hsame : before.dropLast = before := Option.some.inj (congrArg Outputs.file hout)
    have hlen := congrArg List.length hsame
    have hpos := List.length_pos_iff.mpr hnil
    rw [List.length_dropLast] at hlen
    omega

/-- Without a closing bracket the file name is written, and the call fails. -/
theorem parsesExactly_iff_of_open (hstr : str.1 = before ++ 40 :: rest) (hbefore : 40 ∉ before)
    (hend : 41 ∉ rest) (hfile : out.file = some old) :
    ParsesExactly str out ↔ before = [] ∨ old = before.dropLast := by
  have hcall := collectFunction_bracket out hstr hbefore
  rw [hfile, hstr, assignTo_file, strchr_none hend] at hcall
  have hnoline : ∀ file func, ¬ IsLine file func str.1 := by
    intro file func hline
    obtain ⟨rest', toEnd, hstr', hfound, -⟩ := hline.reads
    obtain ⟨-, rfl⟩ := first_unique hbefore hline.plainFile (hstr.symm.trans hstr')
    cases hfound.symm.trans (strchr_none hend)
  by_cases hnil : before = []
  · rw [if_pos hnil] at hcall
    refine iff_of_true ⟨fun file func hline => absurd hline (hnoline file func), ?_⟩ (Or.inl hnil)
    intro out' hfails
    cases hcall.symm.trans hfails
  · rw [if_neg hnil, Option.map_some] at hcall
    constructor
    · intro h
      have hsame := congrArg Outputs.file (h.failure _ hcall)
      exact Or.inr (Option.some.inj (hfile.symm.trans hsame.symm))
    · intro hold
      refine ⟨fun file func hline => absurd hline (hnoline file func), fun out' hfails => ?_⟩
      rw [← (Prod.mk.inj (Option.some.inj (hcall.symm.trans hfails))).2,
        ← hold.resolve_left hnil, ← hfile]

theorem sparesFile_iff (hstr : str.1 = before ++ 40 :: rest) (hbefore : 40 ∉ before) :
    SparesFile str out ↔ out.file = none ∨
      41 ∉ rest ∧ (before = [] ∨ out.file = some before.dropLast) := by
  have hopen : 40 ∈ str.1 := hstr ▸ List.mem_append_cons_self
  constructor
  · rintro (hnull | hplain | ⟨file, rest', hstr', hfile, hend, hkept⟩)
    · exact Or.inl hnull
    · exact absurd hopen hplain
    · obtain ⟨rfl, rfl⟩ := first_unique hbefore hfile (hstr.symm.trans hstr')
      exact Or.inr ⟨hend, hkept⟩
  · rintro (hnull | ⟨hend, hkept⟩)
    · exact Or.inl hnull
    · exact Or.inr (Or.inr ⟨before, rest, hstr, hbefore, hend, hkept⟩)

end Exactness

/-- For any text, lines are parsed and strings left alone if and only if the file name is not
asked for, there is no opening bracket, or the closing one is missing and the file name was
what is written. -/
theorem parsesExactly_iff (str : Text) (out : Outputs) :
    ParsesExactly str out ↔ SparesFile str out := by
  by_cases hopen : 40 ∈ str.1
  · obtain ⟨before, rest, hstr, hbefore⟩ := List.eq_append_cons_of_mem hopen
    rw [sparesFile_iff hstr hbefore]
    cases hfile : out.file with
    | none => exact iff_of_true (parsesExactly_of_null hstr hbefore hfile) (Or.inl rfl)
    | some old =>
      by_cases hend : 41 ∈ rest
      · apply iff_of_false (not_parsesExactly hstr hbefore hend hfile)
        rintro (hnull | ⟨hnot, -⟩)
        · cases hnull
        · exact hnot hend
      · rw [parsesExactly_iff_of_open hstr hbefore hend hfile]
        simp [hend]
  · exact iff_of_true (parsesExactly_of_plain hopen) (Or.inr (Or.inl hopen))

/-- "a(f)" with both pointers: the file name is empty. -/
theorem file_name_cut : ¬ ∀ (str : Text) (out : Outputs), ParsesExactly str out := by
  intro h
  have hline : IsLine [97] [102] [97, 40, 102, 41] :=
    ⟨by decide, by decide, Or.inr ⟨[], rfl⟩⟩
  have hright := (h ⟨[97, 40, 102, 41], by decide⟩ ⟨some [], some []⟩).line _ _ hline
  cases hright

end BoxUtils.Backtrace
