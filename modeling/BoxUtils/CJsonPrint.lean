import BoxUtils.CJsonParse
import BoxUtils.CMemory

/-!
The printer of cJSON. It writes into a block of bytes that it enlarges on demand, or into
a buffer of the caller that it may not enlarge. `none` stands for what C does not define:
a write outside of the block, a read of a byte without a value, a block given back twice,
a node that is not there, or more nested calls than the given number.
-/
namespace BoxUtils.CJson

open CMemory

section Characters

def hexCharacter (digit : UInt8) : UInt8 := if digit < 10 then 48 + digit else 87 + digit

/-- The additional characters that the escape of a character takes. -/
def escapeCharacters (c : UInt8) : ℕ :=
  if c ∈ [quote, backslash, 8, 12, 10, 13, 9] then 1 else if c < 32 then 5 else 0

/-- What is written for a character. -/
def escape (c : UInt8) : List UInt8 :=
  if 31 < c ∧ c ≠ quote ∧ c ≠ backslash then [c]
  else backslash :: (match c with
    | 92 => [backslash]
    | 34 => [quote]
    | 8 => [98]
    | 12 => [102]
    | 10 => [110]
    | 13 => [114]
    | 9 => [116]
    | c => [117, 48, 48, hexCharacter (c >>> 4), hexCharacter (c &&& 15)])

/-- What printf and scanf do with numbers: `%1.15g` and `%1.17g` with the precision for the
first argument, and `%lg`. -/
structure Stdio where
  sprintf : ℕ → ℚ → Text
  sscanf : Text → Option Double

/-- The shorter of the two forms, where it is read back as the same number. -/
def numberString (stdio : Stdio) : Double → List UInt8
  | .finite value =>
    let short := stdio.sprintf 15 value
    if stdio.sscanf short = some (.finite value) then short.1 else (stdio.sprintf 17 value).1
  | _ => [110, 117, 108, 108]

/-- What `print_number` leaves in its buffer of 26 bytes. -/
def numberBuffer (stdio : Stdio) (d : Double) : Option (List UInt8) :=
  if (numberString stdio d).length + 1 ≤ 26 then some (numberString stdio d) else none

end Characters

/-- The allocator: whether it meets a request of a size, and whether it has a realloc. -/
structure Hooks where
  grants : Memory → ℕ → Bool
  hasReallocate : Bool

/-- `printbuffer` -/
structure PrintBuffer where
  buffer : Option Pointer
  length : ℕ
  offset : ℕ
  depth : ℕ
  noalloc : Bool
  format : Bool
deriving DecidableEq

abbrev Printing := Memory × PrintBuffer

section Buffers

variable (hooks : Hooks)

def sizeMax : ℕ := intMax.toNat

def allocate (M : Memory) (size : ℕ) : Memory × Option Pointer :=
  if hooks.grants M size then
    let (M, p) := malloc M size
    (M, some p)
  else (M, none)

def deallocate (M : Memory) : Option Pointer → Option Memory
  | none => some M
  | some p => free M p

/-- A block of another size with the bytes of the old one, which is given back. -/
def reallocate (M : Memory) (p : Pointer) (size : ℕ) : Option (Memory × Option Pointer) :=
  match allocate hooks M size with
  | (M, none) => some (M, none)
  | (M, some q) => do
    let b ← M.cell p.block
    let M ← store M q (b.bytes.take size)
    let M ← free M p
    some (M, some q)

/-- The two ways in which `ensure` gets a larger block; the old one is given back in any case. -/
def enlarge (M : Memory) (p : Pointer) (offset newsize : ℕ) : Option (Memory × Option Pointer) :=
  if hooks.hasReallocate then do
    let (M, newbuffer) ← reallocate hooks M p newsize
    match newbuffer with
    | none => do
      let M ← free M p
      some (M, none)
    | some q => some (M, some q)
  else
    match allocate hooks M newsize with
    | (M, none) => do
      let M ← free M p
      some (M, none)
    | (M, some q) => do
      let M ← memcpy M q p (offset + 1)
      let M ← free M p
      some (M, some q)

/-- The size of the block that is asked for, if the needed one can be had. -/
def newSize (needed : ℕ) : Option ℕ :=
  if sizeMax / 2 < needed then if needed ≤ sizeMax then some sizeMax else none
  else some (needed * 2)

/-- Where the next bytes go, if there is room for them. -/
def ensure (S : Printing) (needed : ℕ) : Option (Printing × Option Pointer) :=
  let (M, p) := S
  match p.buffer with
  | none => some (S, none)
  | some buffer =>
    if 0 < p.length ∧ p.length ≤ p.offset then some (S, none)
    else if sizeMax < needed then some (S, none)
    else
      let needed := needed + p.offset + 1
      if needed ≤ p.length then some (S, some { buffer with offset := buffer.offset + p.offset })
      else if p.noalloc then some (S, none)
      else
        match newSize needed with
        | none => some (S, none)
        | some newsize => do
          let (M, newbuffer) ← enlarge hooks M buffer p.offset newsize
          match newbuffer with
          | none => some ((M, { p with buffer := none, length := 0 }), none)
          | some q =>
            some ((M, { p with buffer := some q, length := newsize }),
              some { q with offset := q.offset + p.offset })

/-- The offset moves to the NUL behind it. -/
def updateOffset (S : Printing) : Option Printing :=
  let (M, p) := S
  match p.buffer with
  | none => some S
  | some buffer => do
    let length ← strlen M { buffer with offset := buffer.offset + p.offset }
    some (M, { p with offset := p.offset + length })

/-- The next step of a print function, which returns false where the one before did. -/
def proceed (before : Option (Printing × Bool)) (next : Printing → Option (Printing × Bool)) :
    Option (Printing × Bool) := do
  let (S, ok) ← before
  if ok then next S else some (S, false)

/-- Room is made for bytes, they are written, and the offset is moved. -/
def emit (S : Printing) (needed : ℕ) (bytes : List UInt8) (advance : ℕ) :
    Option (Printing × Bool) := do
  let ((M, p), output) ← ensure hooks S needed
  match output with
  | none => some ((M, p), false)
  | some output => do
    let M ← store M output (bytes.map some)
    some ((M, { p with offset := p.offset + advance }), true)

end Buffers

section Print

variable (stdio : Stdio) (hooks : Hooks)

def printNumber (item : CJSON) (S : Printing) : Option (Printing × Bool) := do
  let number ← numberBuffer stdio item.valuedouble
  emit hooks S (number.length + 1) (number ++ [0]) number.length

/-- The length is counted before the characters are written, and the closing quote goes to
where the count says. -/
def printStringPtr (input : Option Text) (S : Printing) : Option (Printing × Bool) :=
  match input with
  | none => emit hooks S 3 [quote, quote, 0] 0
  | some input => do
    let extra := (input.1.map escapeCharacters).sum
    let outputLength := input.1.length + extra
    let ((M, p), output) ← ensure hooks S (outputLength + 3)
    match output with
    | none => some ((M, p), false)
    | some output => do
      let characters := if extra = 0 then input.1 else input.1.flatMap escape
      let M ← store M output ((quote :: characters).map some)
      let M ← store M { output with offset := output.offset + outputLength + 1 }
        [some quote, some 0]
      some ((M, p), true)

def printString (item : CJSON) (S : Printing) : Option (Printing × Bool) :=
  printStringPtr hooks item.valuestring S

def deeper (S : Printing) : Printing := (S.1, { S.2 with depth := S.2.depth + 1 })

def shallower (S : Printing) : Printing := (S.1, { S.2 with depth := S.2.depth - 1 })

/-- Bytes that only a formatted text has. -/
def formatted (S : Printing) (bytes : List UInt8) : List UInt8 := if S.2.format then bytes else []

def tabs (n : ℕ) : List UInt8 := List.replicate n 9

/-- The comma behind an element of an array. -/
def printArrayComma (next : Option ℕ) (S : Printing) : Option (Printing × Bool) :=
  match next with
  | none => some (S, true)
  | some _ =>
    let length := if S.2.format then 2 else 1
    emit hooks S (length + 1) ([44] ++ formatted S [32] ++ [0]) length

/-- What comes before the value of a member. -/
def printKey (item : CJSON) (S : Printing) : Option (Printing × Bool) :=
  let indent := if S.2.format then emit hooks S S.2.depth (tabs S.2.depth) S.2.depth
    else some (S, true)
  proceed indent fun S =>
    proceed (printStringPtr hooks item.string S) fun S => do
      let S ← updateOffset S
      let length := if S.2.format then 2 else 1
      emit hooks S length ([58] ++ formatted S [9]) length

def printObjectComma (next : Option ℕ) (S : Printing) : Option (Printing × Bool) :=
  let length := (if S.2.format then 1 else 0) + (if next.isSome then 1 else 0)
  emit hooks S (length + 1) ((if next.isSome then [44] else []) ++ formatted S [10] ++ [0]) length

mutual

def printValue : ℕ → Nodes → Option ℕ → Printing → Option (Printing × Bool)
  | 0, _, _, _ => none
  | _, _, none, S => some (S, false)
  | calls + 1, H, some item, S => do
    let c ← H.cell item
    if c.kind = cJSONNull then emit hooks S 5 [110, 117, 108, 108, 0] 0
    else if c.kind = cJSONFalse then emit hooks S 6 [102, 97, 108, 115, 101, 0] 0
    else if c.kind = cJSONTrue then emit hooks S 5 [116, 114, 117, 101, 0] 0
    else if c.kind = cJSONNumber then printNumber stdio hooks c S
    else if c.kind = cJSONRaw then
      match c.valuestring with
      | none => some (S, false)
      | some raw => emit hooks S (raw.1.length + 1) (raw.1 ++ [0]) 0
    else if c.kind = cJSONString then printString hooks c S
    else if c.kind = cJSONArray then printArray calls H c S
    else if c.kind = cJSONObject then printObject calls H c S
    else some (S, false)

def printArray : ℕ → Nodes → CJSON → Printing → Option (Printing × Bool)
  | 0, _, _, _ => none
  | calls + 1, H, item, S =>
    proceed (emit hooks S 1 [91] 1) fun S =>
      proceed (printArrayElements calls H item.child (deeper S)) fun S =>
        proceed (emit hooks S 2 [93, 0] 0) fun S => some (shallower S, true)

/-- The loop of `print_array`, at the current element. -/
def printArrayElements : ℕ → Nodes → Option ℕ → Printing → Option (Printing × Bool)
  | _, _, none, S => some (S, true)
  | 0, _, some _, _ => none
  | calls + 1, H, some current, S =>
    proceed (printValue calls H (some current) S) fun S => do
      let S ← updateOffset S
      let c ← H.cell current
      proceed (printArrayComma hooks c.next S) fun S => printArrayElements calls H c.next S

def printObject : ℕ → Nodes → CJSON → Printing → Option (Printing × Bool)
  | 0, _, _, _ => none
  | calls + 1, H, item, S =>
    let length := if S.2.format then 2 else 1
    proceed (emit hooks S (length + 1) ([123] ++ formatted S [10]) length) fun S =>
      proceed (printObjectMembers calls H item.child (deeper S)) fun S =>
        proceed
          (emit hooks S (if S.2.format then S.2.depth + 1 else 2)
            (formatted S (tabs (S.2.depth - 1)) ++ [125, 0]) 0)
          fun S => some (shallower S, true)

/-- The loop of `print_object`, at the current item. -/
def printObjectMembers : ℕ → Nodes → Option ℕ → Printing → Option (Printing × Bool)
  | _, _, none, S => some (S, true)
  | 0, _, some _, _ => none
  | calls + 1, H, some current, S => do
    let c ← H.cell current
    proceed (printKey hooks c S) fun S =>
      proceed (printValue calls H (some current) S) fun S => do
        let S ← updateOffset S
        proceed (printObjectComma hooks c.next S) fun S => printObjectMembers calls H c.next S

end

def defaultBufferSize : ℕ := 256

/-- The last step of `print`: the text in a block of its own size. -/
def shrink (S : Printing) (buffer : Pointer) : Option (Memory × Option Pointer) :=
  let (M, p) := S
  let size := p.offset + 1
  if hooks.hasReallocate then do
    let (M, printed) ← reallocate hooks M buffer size
    match printed with
    | none => do
      let M ← free M buffer
      some (M, none)
    | some q => some (M, some q)
  else
    match allocate hooks M size with
    | (M, none) => do
      let M ← free M buffer
      some (M, none)
    | (M, some q) => do
      let M ← memcpy M q buffer (min p.length size)
      let M ← store M { q with offset := q.offset + p.offset } [some 0]
      let M ← free M buffer
      some (M, some q)

def print (calls : ℕ) (H : Nodes) (item : Option ℕ) (format : Bool) (M : Memory) :
    Option (Memory × Option Pointer) :=
  match allocate hooks M defaultBufferSize with
  | (M, none) => some (M, none)
  | (M, some buffer) => do
    let ((M, p), ok) ← printValue stdio hooks calls H item
      (M, ⟨some buffer, defaultBufferSize, 0, 0, false, format⟩)
    if ok then do
      let (M, p) ← updateOffset (M, p)
      match p.buffer with
      | none => none
      | some buffer => shrink hooks (M, p) buffer
    else do
      let M ← deallocate M p.buffer
      some (M, none)

/-- `cJSON_Print` -/
def cJSONPrint (calls : ℕ) (H : Nodes) (item : Option ℕ) (M : Memory) :
    Option (Memory × Option Pointer) :=
  print stdio hooks calls H item true M

/-- `cJSON_PrintUnformatted` -/
def printUnformatted (calls : ℕ) (H : Nodes) (item : Option ℕ) (M : Memory) :
    Option (Memory × Option Pointer) :=
  print stdio hooks calls H item false M

def printBuffered (calls : ℕ) (H : Nodes) (item : Option ℕ) (prebuffer : ℤ) (format : Bool)
    (M : Memory) : Option (Memory × Option Pointer) :=
  if prebuffer < 0 then some (M, none)
  else
    match allocate hooks M prebuffer.toNat with
    | (M, none) => some (M, none)
    | (M, some buffer) => do
      let ((M, p), ok) ← printValue stdio hooks calls H item
        (M, ⟨some buffer, prebuffer.toNat, 0, 0, false, format⟩)
      if ok then some (M, p.buffer)
      else do
        let M ← deallocate M p.buffer
        some (M, none)

/-- The result of `cJSON_PrintPreallocated` and what it leaves in the memory. -/
def printPreallocated (calls : ℕ) (H : Nodes) (item : Option ℕ) (buffer : Option Pointer)
    (length : ℤ) (format : Bool) (M : Memory) : Option (Memory × Bool) :=
  if length < 0 ∨ buffer = none then some (M, false)
  else do
    let ((M, _), ok) ← printValue stdio hooks calls H item
      (M, ⟨buffer, length.toNat, 0, 0, true, format⟩)
    some (M, ok)

end Print

end BoxUtils.CJson
