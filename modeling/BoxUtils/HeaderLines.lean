import BoxUtils.Headers
import BoxUtils.JsonValues
import BoxUtils.Runs
import Mathlib.Data.List.DropRight

/-!
The lines that get into a `Headers` object. `add` puts a colon into its line and
`WriteToHeaders` looks for one, but in all the bytes of the response line, while the
line is stored up to its first NUL only; `add_string` stores what it is given. The
readers other than `json` compute with the place of the colon unchecked.
-/
namespace BoxUtils.Headers

open CJson Json Runs

abbrev Objects := ℕ → Option (List Text)

def noObjects : Objects := fun _ => none

inductive Action
  | construct (o : ℕ)
  | destroy (o : ℕ)
  | addString (o : ℕ) (str : Text)
  | add (o : ℕ) (key value : Text)
  | update (o src : ℕ)
  | copy (o src : ℕ)
  | move (o src : ℕ)
  | remove (o : ℕ) (key : Text)
  /-- libcurl passes a line of the response, or a part of it, to `WriteToHeaders`. -/
  | receive (o : ℕ) (block : List UInt8)
  deriving DecidableEq

section Source

variable (curlSlistAppend : List Text → Text → List Text)

def addString (slist : List Text) (str : Text) : List Text := curlSlistAppend slist str

/-- `key + std::string(":") + value`. -/
def joined (key value : Text) : Text :=
  ⟨key.1 ++ 58 :: value.1, by
    intro h
    rcases List.mem_append.mp h with hkey | hrest
    · exact key.2 hkey
    · rcases List.mem_cons.mp hrest with hcolon | hvalue
      · exact absurd hcolon (by decide)
      · exact value.2 hvalue⟩

def add (slist : List Text) (key value : Text) : List Text :=
  addString curlSlistAppend slist (joined key value)

def update (slist h : List Text) : List Text := h.foldl (addString curlSlistAppend) slist

/-- The line without the `\r` and `\n` at its end. -/
def stripLineEnd (strbuf : List UInt8) : List UInt8 :=
  strbuf.rdropWhile fun b => b = 13 ∨ b = 10

/-- `Easy::WriteToHeaders`; `c_str()` ends the line at its first NUL. -/
def writeToHeaders (slist : List Text) (block : List UInt8) : List Text :=
  if 58 ∈ block then addString curlSlistAppend slist (cStr (stripLineEnd block)) else slist

/-- What `for_each` passes to its function, line by line. -/
def forEach : List Text → Option (List (List UInt8 × Text))
  | [] => some []
  | data :: next => do
    let n ← len data
    let rest ← forEach next
    some ((data.1.take n, afterColon data n) :: rest)

def next (s : Objects) : Action → Option Objects
  | .construct o => if s o = none then some (Function.update s o (some [])) else none
  | .destroy o => do
    let _ ← s o
    some (Function.update s o none)
  | .addString o str => do
    let slist ← s o
    some (Function.update s o (some (addString curlSlistAppend slist str)))
  | .add o key value => do
    let slist ← s o
    some (Function.update s o (some (add curlSlistAppend slist key value)))
  | .update o src => do
    let slist ← s o
    let h ← s src
    -- an object that is not empty walks behind its own end for ever
    if o = src ∧ h ≠ [] then none
    else some (Function.update s o (some (update curlSlistAppend slist h)))
  | .copy o src => do
    let h ← s src
    if s o = none then some (Function.update s o (some (update curlSlistAppend [] h))) else none
  | .move o src => do
    let h ← s src
    if s o = none then some (Function.update (Function.update s src (some [])) o (some h))
    else none
  | .remove o key => do
    let slist ← s o
    let (slist, _) ← remove curlSlistAppend slist key
    some (Function.update s o (some slist))
  | .receive o block => do
    let slist ← s o
    some (Function.update s o (some (writeToHeaders curlSlistAppend slist block)))

end Source

section Law

/-- No reader computes with a colon that is not there. -/
structure Readable (curlSlistAppend : List Text → Text → List Text) (slist : List Text) :
    Prop where
  get : ∀ key, getValue slist key ≠ none
  subscript_ne : ∀ key, subscript slist key ≠ .undefined
  remove_ne : ∀ key, remove curlSlistAppend slist key ≠ none
  each : forEach slist ≠ none

def HasColons (slist : List Text) : Prop := ∀ data ∈ slist, 58 ∈ data.1

/-- Every stored line has a colon, and the readers find it. -/
def WellFormed (curlSlistAppend : List Text → Text → List Text) (s : Objects) : Prop :=
  ∀ o slist, s o = some slist → HasColons slist ∧ Readable curlSlistAppend slist

/-- What is stored from outside has a colon, before the first NUL if it is received. -/
def BringsColon : Action → Prop
  | .addString _ str => 58 ∈ str.1
  | .receive _ block => 58 ∈ block → 58 ∈ (cStr block).1
  | _ => True

instance (a : Action) : Decidable (BringsColon a) := by
  cases a <;> dsimp only [BringsColon] <;> infer_instance

end Law

section Lines

/-- Stripping the end of a line leaves the colons before the first NUL. -/
theorem colon_mem_stripLineEnd (block : List UInt8) :
    58 ∈ (cStr (stripLineEnd block)).1 ↔ 58 ∈ (cStr block).1 := by
  let p : UInt8 → Bool := fun b => b = 13 ∨ b = 10
  have hsplit : stripLineEnd block ++ block.rtakeWhile p = block :=
    List.rdropWhile_append_rtakeWhile
  have hend : 58 ∉ block.rtakeWhile p := by
    intro h
    have hp := List.mem_rtakeWhile_imp h
    exact absurd hp (by decide)
  have hboth : (cStr block).1 = (stripLineEnd block ++ block.rtakeWhile p).takeWhile (· ≠ 0) := by
    rw [hsplit]
    rfl
  rw [hboth, List.takeWhile_append]
  split
  case isTrue hall =>
    have hself : (stripLineEnd block).takeWhile (· ≠ 0) = stripLineEnd block := by
      have hprefix := List.takeWhile_prefix (l := stripLineEnd block) (· ≠ 0)
      exact hprefix.eq_of_length hall
    have htail : 58 ∉ (block.rtakeWhile p).takeWhile (· ≠ 0) := by
      intro h
      exact hend ((List.takeWhile_prefix _).subset h)
    change 58 ∈ (stripLineEnd block).takeWhile (· ≠ 0) ↔ _
    rw [hself, List.mem_append]
    exact (or_iff_left htail).symm
  case isFalse => exact Iff.rfl

variable {curlSlistAppend : List Text → Text → List Text}
  (happend : ∀ l data, curlSlistAppend l data = l ++ [data]) {slist : List Text}

theorem hasColons_nil : HasColons [] := by
  intro data hdata
  cases hdata

include happend

theorem hasColons_addString (h : HasColons slist) (str : Text) :
    HasColons (addString curlSlistAppend slist str) ↔ 58 ∈ str.1 := by
  rw [addString, happend]
  constructor
  · intro hall
    exact hall str (by simp)
  · intro hstr data hdata
    rcases List.mem_append.mp hdata with hold | hnew
    · exact h data hold
    · rw [List.mem_singleton.mp hnew]
      exact hstr

theorem update_eq (h : List Text) : update curlSlistAppend slist h = slist ++ h := by
  induction h generalizing slist with
  | nil => rw [List.append_nil]; rfl
  | cons data h ih =>
    have hcons : update curlSlistAppend slist (data :: h) =
        update curlSlistAppend (addString curlSlistAppend slist data) h := rfl
    rw [hcons, ih, addString, happend, List.append_assoc]
    rfl

theorem hasColons_update {h : List Text} (hslist : HasColons slist) (hh : HasColons h) :
    HasColons (update curlSlistAppend slist h) := by
  rw [update_eq happend]
  intro data hdata
  rcases List.mem_append.mp hdata with hold | hnew
  · exact hslist data hold
  · exact hh data hnew

theorem hasColons_remove {key : Text} {left : List Text} {status : Bool} (h : HasColons slist)
    (hremove : remove curlSlistAppend slist key = some (left, status)) : HasColons left := by
  rw [remove, removeLoop_eq happend h, List.nil_append] at hremove
  obtain ⟨rfl, -⟩ := Prod.mk.inj (Option.some.inj hremove)
  intro data hdata
  exact h data (List.mem_filter.mp hdata).1

theorem hasColons_writeToHeaders (h : HasColons slist) (block : List UInt8) :
    HasColons (writeToHeaders curlSlistAppend slist block) ↔
      (58 ∈ block → 58 ∈ (cStr block).1) := by
  by_cases hcolon : 58 ∈ block
  · rw [writeToHeaders, if_pos hcolon, hasColons_addString happend h, colon_mem_stripLineEnd]
    exact ⟨fun hmem _ => hmem, fun hmem => hmem hcolon⟩
  · rw [writeToHeaders, if_neg hcolon]
    exact ⟨fun _ hmem => absurd hmem hcolon, fun _ => h⟩

omit happend in
theorem forEach_eq (h : HasColons slist) :
    forEach slist = some (slist.map fun data => (data.1.takeWhile (· ≠ 58), text data)) := by
  induction slist with
  | nil => rfl
  | cons data slist ih =>
    have hdata : 58 ∈ data.1 := h data (by simp)
    have htail : HasColons slist := fun d hd => h d (by simp [hd])
    rw [forEach, len_eq hdata, ih htail, List.map_cons, ← take_idxOf]
    rfl

/-- Where every line has its colon the readers get along. -/
theorem HasColons.readable (h : HasColons slist) : Readable curlSlistAppend slist := by
  constructor
  · intro key
    rw [getValue_eq h]
    exact Option.some_ne_none _
  · intro key
    rw [subscript, getValue_eq h]
    cases slist.find? (Answers key) with
    | none =>
      intro hnone
      cases hnone
    | some data =>
      intro hnone
      cases hnone
  · intro key
    rw [remove, removeLoop_eq happend h]
    exact Option.some_ne_none _
  · rw [forEach_eq h]
    exact Option.some_ne_none _

end Lines

section Steps

variable {curlSlistAppend : List Text → Text → List Text}
  (happend : ∀ l data, curlSlistAppend l data = l ++ [data]) {s t : Objects} {a : Action}
  {o : ℕ} {slist : List Text}

def AllColons (s : Objects) : Prop := ∀ o slist, s o = some slist → HasColons slist

/-- Changing one object asks for the colons of that object only. -/
theorem AllColons.set_iff (h : AllColons s) :
    AllColons (Function.update s o (some slist)) ↔ HasColons slist := by
  constructor
  · intro hall
    exact hall o slist (Function.update_self ..)
  · intro hslist p lines hp
    by_cases hpo : p = o
    · subst p
      obtain rfl : slist = lines := by simpa using hp
      exact hslist
    · exact h p lines (by simpa [hpo] using hp)

include happend

/-- What a step does to the colons of all lines. -/
theorem step_colons (h : AllColons s) (hstep : next curlSlistAppend s a = some t) :
    AllColons t ↔ BringsColon a := by
  cases a with
  | construct o =>
    obtain ⟨-, ht⟩ := Option.ite_none_right_eq_some.mp hstep
    obtain rfl := Option.some.inj ht
    rw [h.set_iff]
    exact iff_of_true hasColons_nil trivial
  | destroy o =>
    obtain ⟨slist, -, ht⟩ := Option.bind_eq_some_iff.mp hstep
    obtain rfl := Option.some.inj ht
    refine iff_of_true ?_ trivial
    intro p lines hp
    by_cases hpo : p = o
    · subst p
      simp at hp
    · exact h p lines (by simpa [hpo] using hp)
  | addString o str =>
    obtain ⟨slist, hslist, ht⟩ := Option.bind_eq_some_iff.mp hstep
    obtain rfl := Option.some.inj ht
    rw [h.set_iff, hasColons_addString happend (h o slist hslist)]
    exact Iff.rfl
  | add o key value =>
    obtain ⟨slist, hslist, ht⟩ := Option.bind_eq_some_iff.mp hstep
    obtain rfl := Option.some.inj ht
    have hcolon : 58 ∈ (joined key value).1 := List.mem_append_right _ List.mem_cons_self
    rw [h.set_iff, add, hasColons_addString happend (h o slist hslist)]
    exact iff_of_true hcolon trivial
  | update o src =>
    obtain ⟨slist, hslist, hstep⟩ := Option.bind_eq_some_iff.mp hstep
    obtain ⟨lines, hlines, ht⟩ := Option.bind_eq_some_iff.mp hstep
    obtain ⟨-, ht⟩ := Option.ite_none_left_eq_some.mp ht
    obtain rfl := Option.some.inj ht
    rw [h.set_iff]
    exact iff_of_true (hasColons_update happend (h o slist hslist) (h src lines hlines)) trivial
  | copy o src =>
    obtain ⟨lines, hlines, ht⟩ := Option.bind_eq_some_iff.mp hstep
    obtain ⟨-, ht⟩ := Option.ite_none_right_eq_some.mp ht
    obtain rfl := Option.some.inj ht
    rw [h.set_iff]
    exact iff_of_true (hasColons_update happend hasColons_nil (h src lines hlines)) trivial
  | move o src =>
    obtain ⟨lines, hlines, ht⟩ := Option.bind_eq_some_iff.mp hstep
    obtain ⟨-, ht⟩ := Option.ite_none_right_eq_some.mp ht
    obtain rfl := Option.some.inj ht
    rw [(h.set_iff.mpr hasColons_nil : AllColons (Function.update s src (some []))).set_iff]
    exact iff_of_true (h src lines hlines) trivial
  | remove o key =>
    obtain ⟨slist, hslist, hstep⟩ := Option.bind_eq_some_iff.mp hstep
    obtain ⟨⟨left, status⟩, hremove, ht⟩ := Option.bind_eq_some_iff.mp hstep
    obtain rfl := Option.some.inj ht
    rw [h.set_iff]
    exact iff_of_true (hasColons_remove happend (h o slist hslist) hremove) trivial
  | receive o block =>
    obtain ⟨slist, hslist, ht⟩ := Option.bind_eq_some_iff.mp hstep
    obtain rfl := Option.some.inj ht
    rw [h.set_iff, hasColons_writeToHeaders happend (h o slist hslist)]
    exact Iff.rfl

theorem AllColons.wellFormed (h : AllColons s) : WellFormed curlSlistAppend s := by
  intro o slist ho
  exact ⟨h o slist ho, (h o slist ho).readable happend⟩

end Steps

/-- All lines keep their colons in a run if and only if every `add_string` is given one and
every received line that has one has one before its first NUL. -/
theorem wellFormed_iff {curlSlistAppend : List Text → Text → List Text}
    (happend : ∀ l data, curlSlistAppend l data = l ++ [data]) (as : List Action) :
    Throughout (next curlSlistAppend) (WellFormed curlSlistAppend) noObjects as ↔
      StepsMeet (next curlSlistAppend) (fun _ => BringsColon) noObjects as := by
  apply throughout_iff_stepsMeet (I := AllColons)
  · intro s a t h hbrings hstep
    exact (step_colons happend h hstep).mpr hbrings
  · intro s h
    exact h.wellFormed happend
  · intro s a t h hstep hlacks hformed
    have hall : AllColons t := fun o slist ho => (hformed o slist ho).1
    exact hlacks ((step_colons happend h hstep).mp hall)
  · intro o slist ho
    cases ho

/-- The line "A:b" is received and copied. -/
theorem wellFormed_received :
    Throughout (next fun l data => l ++ [data]) (WellFormed fun l data => l ++ [data]) noObjects
      [.construct 0, .receive 0 [65, 58, 98, 13, 10], .copy 1 0] :=
  (wellFormed_iff (fun _ _ => rfl) _).mpr (by decide)

/-- A NUL stands before the colon of a received line. -/
theorem received_line_without_colon :
    ¬ ∀ as : List Action, Throughout (next fun l data => l ++ [data])
      (WellFormed fun l data => l ++ [data]) noObjects as := by
  intro h
  have hrun := h [.construct 0, .receive 0 [65, 0, 58, 98, 13, 10]]
  have hstored : ∃ t, run (next fun l data => l ++ [data]) noObjects
      [.construct 0, .receive 0 [65, 0, 58, 98, 13, 10]] = some t ∧
        t 0 = some [⟨[65], by decide⟩] := ⟨_, rfl, rfl⟩
  obtain ⟨t, ht, hlines⟩ := hstored
  have hcolon := (hrun.final ht 0 _ hlines).1 ⟨[65], by decide⟩ List.mem_cons_self
  exact absurd hcolon (by decide)

end BoxUtils.Headers
