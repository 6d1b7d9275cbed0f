import Mathlib.Data.Int.Notation
import Mathlib.Data.Nat.Notation

/-!
The Base64 coder of base64.cpp over partial memory. A pointer is the block of
bytes that may be read from it on, so `cptr += 3` drops three bytes and a read
past the block is an error. Decoding starts by looking at the last two
characters; for an empty input that read lies before the pointer and fails, so
the length that remains after stripping the padding never wraps around.
-/
namespace BoxUtils.Base64

/-- The ways a call can end without a result. -/
inductive Error
  | invalidArgument (what : String)
  | outOfBounds
  | abort
  deriving DecidableEq, Repr

abbrev Block := List UInt8

/-- `p[i]` for a pointer to the start of the block. -/
def readAt (p : Block) (i : ℤ) : Except Error UInt8 :=
  if i < 0 then .error .outOfBounds
  else match p[i.toNat]? with
    | some b => .ok b
    | none => .error .outOfBounds

def strlen : Block → Except Error ℕ
  | [] => .error .outOfBounds
  | b :: rest => if b = 0 then .ok 0 else (strlen rest).map (· + 1)

/-- The alphabet, without the terminating NUL of the character array. -/
def Table : List UInt8 :=
  ['A', 'B', 'C', 'D', 'E', 'F', 'G', 'H', 'I', 'J', 'K', 'L', 'M', 'N', 'O', 'P',
   'Q', 'R', 'S', 'T', 'U', 'V', 'W', 'X', 'Y', 'Z', 'a', 'b', 'c', 'd', 'e', 'f',
   'g', 'h', 'i', 'j', 'k', 'l', 'm', 'n', 'o', 'p', 'q', 'r', 's', 't', 'u', 'v',
   'w', 'x', 'y', 'z', '0', '1', '2', '3', '4', '5', '6', '7', '8', '9', '+', '/'].map
    fun c => UInt8.ofNat c.toNat

/-- `table[i]`; every index the coder forms is masked to at most 63. -/
def table (i : ℕ) : UInt8 := Table.getD i 0

/-- The padding character `=`. -/
def pad : UInt8 := 61

/-- `strchr` also finds the terminating NUL, at index 64. For a character it
does not find the code subtracts the table's address from the null pointer;
`miss` is the low byte of that difference. -/
def queryTable (miss ch : UInt8) : UInt8 :=
  match (Table ++ [0]).idxOf? ch with
  | some i => UInt8.ofNat i
  | none => miss

section Encode

/-- The loop `while (datalen > 2)`. -/
def encodeLoop : ℕ → Block → List UInt8 → Except Error (ℕ × Block × List UInt8)
  | datalen + 3, cptr, buf => do
    let c0 ← readAt cptr 0
    let c1 ← readAt cptr 1
    let c2 ← readAt cptr 2
    encodeLoop datalen (cptr.drop 3) (buf ++
      [table (c0.toNat >>> 2),
       table ((c0.toNat <<< 4 ||| c1.toNat >>> 4) &&& 0x3f),
       table ((c1.toNat <<< 2 ||| c2.toNat >>> 6) &&& 0x3f),
       table (c2.toNat &&& 0x3f)])
  | datalen, cptr, buf => .ok (datalen, cptr, buf)

/-- The `switch` on what the loop leaves over. -/
def encodeTail : ℕ → Block → List UInt8 → Except Error (List UInt8)
  | 2, cptr, buf => do
    let c0 ← readAt cptr 0
    let c1 ← readAt cptr 1
    .ok (buf ++
      [table (c0.toNat >>> 2),
       table ((c0.toNat <<< 4 ||| c1.toNat >>> 4) &&& 0x3f),
       table ((c1.toNat &&& 0x0f) <<< 2),
       pad])
  | 1, cptr, buf => do
    let c0 ← readAt cptr 0
    -- the second symbol is taken from the byte after the last one
    let c1 ← readAt cptr 1
    .ok (buf ++ [table (c0.toNat >>> 2), table ((c1.toNat <<< 4) &&& 0x3f), pad, pad])
  | _, _, buf => .ok buf

/-- `Encode(data, datalen, buf)`. -/
def encodeInto (data : Block) (datalen : ℕ) (buf : List UInt8) : Except Error (List UInt8) := do
  let (rest, cptr, buf) ← encodeLoop datalen data buf
  encodeTail rest cptr buf

/-- `Encode(str, datalen)`. -/
def encode (str : Block) (datalen : ℕ) : Except Error (List UInt8) :=
  encodeInto str datalen []

/-- `Encode(const uint8_t *str)`. -/
def encodeCStr (str : Block) : Except Error (List UInt8) := do
  encode str (← strlen str)

/-- `Encode(const std::string &str)`; `c_str()` ends the bytes with a NUL. -/
def encodeString (str : List UInt8) : Except Error (List UInt8) := do
  let s := str ++ [0]
  encode s (← strlen s)

end Encode

section Decode

variable (miss : UInt8)

/-- The loop `while (datalen > 3)`. -/
def decodeLoop : ℕ → Block → List UInt8 → Except Error (ℕ × Block × List UInt8)
  | datalen + 4, cptr, buf => do
    let a0 := queryTable miss (← readAt cptr 0)
    let a1 := queryTable miss (← readAt cptr 1)
    let a2 := queryTable miss (← readAt cptr 2)
    let a3 := queryTable miss (← readAt cptr 3)
    decodeLoop datalen (cptr.drop 4) (buf ++
      [UInt8.ofNat (a0.toNat <<< 2 ||| a1.toNat >>> 4),
       UInt8.ofNat (a1.toNat <<< 4 ||| a2.toNat >>> 2),
       UInt8.ofNat (a2.toNat <<< 6 ||| a3.toNat)])
  | datalen, cptr, buf => .ok (datalen, cptr, buf)

/-- The `switch` on what the loop leaves over. -/
def decodeTail : ℕ → Block → List UInt8 → Except Error (List UInt8)
  | 0, _, buf => .ok buf
  | 2, cptr, buf => do
    let a0 := queryTable miss (← readAt cptr 0)
    let a1 := queryTable miss (← readAt cptr 1)
    .ok (buf ++ [UInt8.ofNat (a0.toNat <<< 2 ||| a1.toNat >>> 4)])
  | 3, cptr, buf => do
    let a0 := queryTable miss (← readAt cptr 0)
    let a1 := queryTable miss (← readAt cptr 1)
    let a2 := queryTable miss (← readAt cptr 2)
    .ok (buf ++
      [UInt8.ofNat (a0.toNat <<< 2 ||| a1.toNat >>> 4),
       UInt8.ofNat (a1.toNat <<< 4 ||| a2.toNat >>> 2)])
  | _, _, _ => .error .abort

/-- `Decode(data, datalen, buf)`. -/
def decodeInto (data : Block) (datalen : ℕ) (buf : List UInt8) : Except Error (List UInt8) := do
  if datalen % 4 ≠ 0 then
    .error (.invalidArgument "Bad Base64 String len")
  else
    let sub := if (← readAt data ((datalen : ℤ) - 1)) = pad then 1 else 0
    let sub := if (← readAt data ((datalen : ℤ) - 2)) = pad then sub + 1 else sub
    let (rest, cptr, buf) ← decodeLoop miss (datalen - sub) data buf
    decodeTail miss rest cptr buf

/-- `Decode(str, datalen)`. -/
def decode (str : Block) (datalen : ℕ) : Except Error (List UInt8) :=
  decodeInto miss str datalen []

/-- `Decode(const uint8_t *str)`. -/
def decodeCStr (str : Block) : Except Error (List UInt8) := do
  decode miss str (← strlen str)

/-- `Decode(const std::string &str)`. -/
def decodeString (str : List UInt8) : Except Error (List UInt8) := do
  let s := str ++ [0]
  decode miss s (← strlen s)

end Decode

end BoxUtils.Base64
