import BoxUtils.Loops
import Mathlib.Data.Int.Notation

/-!
`File::readline`. The loop goes on while the character is not the end of the file or is
not a newline, and every character is one or the other.
-/
namespace BoxUtils.ReadLine

open Loops

def EOF : ℤ := -1

def newline : UInt8 := 10

/-- An open `FILE`. -/
structure File where
  content : List UInt8
  position : ℕ
  atEnd : Bool
  error : Bool
  deriving DecidableEq, Repr

/-- The variables of the loop. -/
structure Reading where
  ch : ℤ
  fptr : File
  str : List UInt8
  deriving DecidableEq, Repr

/-- What a call returns, and what it leaves of the file and of the string. -/
structure Result where
  value : Bool
  fptr : File
  str : List UInt8
  deriving DecidableEq, Repr

section Source

def fgetc (f : File) : ℤ × File :=
  match f.content[f.position]? with
  | some c => (c.toNat, { f with position := f.position + 1 })
  | none => (EOF, { f with atEnd := true })

/-- One turn of the loop; `str += ch` takes the lowest byte of the int. -/
def readTurn (s : Reading) : Turn Reading Result :=
  if s.ch ≠ EOF ∨ s.ch ≠ newline.toNat then
    let str := s.str ++ [UInt8.ofInt s.ch]
    let (ch, fptr) := fgetc s.fptr
    .again ⟨ch, fptr, str⟩
  else .done ⟨!s.fptr.error, s.fptr, s.str⟩

def start (f : File) (str : List UInt8) : Reading :=
  let (ch, fptr) := fgetc f
  ⟨ch, fptr, str⟩

/-- `readline` returns with this result. -/
def Readline (f : File) (str : List UInt8) (r : Result) : Prop := Yields readTurn (start f str) r

end Source

/-- The characters up to the next newline or the end. -/
def File.line (f : File) : List UInt8 := (f.content.drop f.position).takeWhile (· ≠ newline)

/-- The position behind the newline, or at the end. -/
def File.afterLine (f : File) : ℕ := min (f.position + f.line.length + 1) f.content.length

def ReadsOneLine (f : File) (str : List UInt8) : Prop :=
  ∃ r, Readline f str r ∧ r.str = str ++ f.line ∧ r.fptr.position = f.afterLine

/-- A turn takes the character, whichever it is, and reads the next one. -/
theorem readTurn_again (s : Reading) : readTurn s =
    .again ⟨(fgetc s.fptr).1, (fgetc s.fptr).2, s.str ++ [UInt8.ofInt s.ch]⟩ := by
  apply if_pos
  by_contra hboth
  rw [not_or, not_not, not_not] at hboth
  have heq : EOF = newline.toNat := hboth.1.symm.trans hboth.2
  exact absurd heq (by decide)

theorem readline_not_ends (f : File) (str : List UInt8) : ¬ Ends readTurn (start f str) :=
  not_ends_of_invariant (I := fun _ => True) (fun s _ => ⟨_, readTurn_again s, trivial⟩) trivial

/-- No file and no position in it has a line that is read. -/
theorem not_readsOneLine (f : File) (str : List UInt8) : ¬ ReadsOneLine f str := by
  rintro ⟨r, hreturns, -⟩
  exact readline_not_ends f str ⟨r, hreturns⟩

/-- A file with an empty line. -/
theorem empty_line_not_read : ¬ ReadsOneLine ⟨[10], 0, false, false⟩ [] := by
  rintro ⟨r, hreturns, -⟩
  exact readline_not_ends _ _ ⟨r, hreturns⟩

end BoxUtils.ReadLine
