import Mathlib.Data.Rat.Floor
import BoxUtils.LinkedShapes

/-!
The vendored cJSON as far as the Json class rests on it: the nodes, the
functions that create them, the look-ups, and the operations on the list of
children. A result of `none` means that the call reads, writes or frees a node
that is not there, or does not come to an end; loops get as many rounds as the
heap ever had nodes. Allocation does not fail, and the strings of a node are
values.
-/
namespace BoxUtils.CJson

/-- A C string: the bytes before the terminating NUL. -/
abbrev Text := { bytes : List UInt8 // 0 ∉ bytes }

inductive Double where
  | nan
  | infinite (negative : Bool)
  | finite (value : ℚ)
deriving DecidableEq

def cJSONInvalid : BitVec 32 := 0
def cJSONFalse : BitVec 32 := 1
def cJSONTrue : BitVec 32 := 2
def cJSONNull : BitVec 32 := 4
def cJSONNumber : BitVec 32 := 8
def cJSONString : BitVec 32 := 16
def cJSONArray : BitVec 32 := 32
def cJSONObject : BitVec 32 := 64
def cJSONRaw : BitVec 32 := 128
def cJSONIsReference : BitVec 32 := 256
def cJSONStringIsConst : BitVec 32 := 512

/-- A node; what is not set is zeroed by `cJSON_New_Item`. -/
structure CJSON where
  next : Option ℕ := none
  prev : Option ℕ := none
  child : Option ℕ := none
  type : BitVec 32 := cJSONInvalid
  valuestring : Option Text := none
  valueint : ℤ := 0
  valuedouble : Double := .finite 0
  string : Option Text := none
deriving DecidableEq

def CJSON.isReference (c : CJSON) : Bool := c.type &&& cJSONIsReference ≠ 0

/-- The type without the flags. -/
def CJSON.kind (c : CJSON) : BitVec 32 := c.type &&& 0xFF

/-- Only strings are references, and they have no children. -/
instance : Linked CJSON where
  prev := CJSON.prev
  next := CJSON.next
  child := CJSON.child
  sound c := c.isReference → c.child = none ∧ c.kind = cJSONString

@[simp] theorem linked_prev (c : CJSON) : Linked.prev c = c.prev := rfl

@[simp] theorem linked_next (c : CJSON) : Linked.next c = c.next := rfl

@[simp] theorem linked_child (c : CJSON) : Linked.child c = c.child := rfl

theorem linked_sound (c : CJSON) :
    Linked.sound c ↔ (c.isReference → c.child = none ∧ c.kind = cJSONString) := Iff.rfl

/-- A node with children is no reference. -/
theorem isReference_of_sound {c : CJSON} (h : Linked.sound c) (hkind : c.kind ≠ cJSONString) :
    c.isReference = false := by
  cases href : c.isReference with
  | false => rfl
  | true => exact absurd (h href).2 hkind

abbrev Nodes := Heap CJSON

def newItem (H : Nodes) (item : CJSON) : Nodes × ℕ := (H.alloc item, H.fresh)

section Create

def intMax : ℤ := 2147483647
def intMin : ℤ := -2147483648

/-- The conversion to int with saturation. The cast of a NaN has no defined
value; the usual processors give the least int. -/
def Double.toInt : Double → ℤ
  | .nan => intMin
  | .infinite negative => if negative then intMin else intMax
  | .finite value =>
    if intMax ≤ value then intMax
    else if value ≤ intMin then intMin
    else if value < 0 then ⌈value⌉ else ⌊value⌋

def createNull (H : Nodes) : Nodes × ℕ := newItem H { type := cJSONNull }

def createTrue (H : Nodes) : Nodes × ℕ := newItem H { type := cJSONTrue }

def createFalse (H : Nodes) : Nodes × ℕ := newItem H { type := cJSONFalse }

def createBool (H : Nodes) (b : Bool) : Nodes × ℕ :=
  newItem H { type := if b then cJSONTrue else cJSONFalse }

def createNumber (H : Nodes) (num : Double) : Nodes × ℕ :=
  newItem H { type := cJSONNumber, valuedouble := num, valueint := num.toInt }

def createString (H : Nodes) (string : Text) : Nodes × ℕ :=
  newItem H { type := cJSONString, valuestring := some string }

def createStringReference (H : Nodes) (string : Text) : Nodes × ℕ :=
  newItem H { type := cJSONString ||| cJSONIsReference, valuestring := some string }

def createArray (H : Nodes) : Nodes × ℕ := newItem H { type := cJSONArray }

def createObject (H : Nodes) : Nodes × ℕ := newItem H { type := cJSONObject }

end Create

section Links

def suffixObject (H : Nodes) (prev : Option ℕ) (item : ℕ) : Option Nodes := do
  let p ← prev
  let H ← H.modify p fun c => { c with next := some item }
  H.modify item fun c => { c with prev := some p }

/-- The loop `while (child->next)` of `add_item_to_array`. -/
def lastSibling (H : Nodes) : ℕ → ℕ → Option ℕ
  | 0, _ => none
  | rounds + 1, child => do
    let c ← H.cell child
    match c.next with
    | none => some child
    | some next => lastSibling H rounds next

def addItemToArray (H : Nodes) (array item : Option ℕ) : Option (Nodes × Bool) :=
  match array, item with
  | some array, some item => do
    let c ← H.cell array
    match c.child with
    | none =>
      let H ← H.modify array fun c => { c with child := some item }
      some (H, true)
    | some child =>
      let last ← lastSibling H H.fresh child
      let H ← suffixObject H (some last) item
      some (H, true)
  | _, _ => some (H, false)

def addItemToObject (H : Nodes) (object : Option ℕ) (string : Option Text) (item : Option ℕ)
    (constantKey : Bool) : Option (Nodes × Bool) :=
  match object, string, item with
  | some object, some string, some item => do
    let c ← H.cell item
    let newType :=
      if constantKey then c.type ||| cJSONStringIsConst else c.type &&& ~~~cJSONStringIsConst
    let H := H.put item { c with string := some string, type := newType }
    addItemToArray H (some object) (some item)
  | _, _, _ => some (H, false)

/-- The loop of `cJSON_CreateIntArray`, at index i with the last number at p. -/
def createIntArrayLoop (numbers : List ℤ) (a : ℕ) :
    ℕ → ℕ → Option ℕ → Nodes → Option Nodes
  | 0, _, _, H => some H
  | left + 1, i, p, H => do
    let number ← numbers[i]?
    let (H, n) := createNumber H (.finite number)
    let H ← (if i = 0 then H.modify a fun c => { c with child := some n }
      else suffixObject H p n)
    createIntArrayLoop numbers a left (i + 1) (some n) H

def createIntArray (H : Nodes) (numbers : Option (List ℤ)) (count : ℤ) :
    Option (Nodes × Option ℕ) :=
  match numbers with
  | none => some (H, none)
  | some numbers =>
    if count < 0 then some (H, none)
    else do
      let (H, a) := createArray H
      let H ← createIntArrayLoop numbers a count.toNat 0 none H
      some (H, some a)

/-- A change of the node behind a pointer, if it is not null. -/
def modifyPointer (H : Nodes) (p : Option ℕ) (f : CJSON → CJSON) : Option Nodes :=
  match p with
  | none => some H
  | some a => H.modify a f

def detachItemViaPointer (H : Nodes) (parent item : Option ℕ) : Option (Nodes × Option ℕ) :=
  match parent, item with
  | some parent, some item => do
    let c ← H.cell item
    let H ← modifyPointer H c.prev fun d => { d with next := c.next }
    let c ← H.cell item
    let H ← modifyPointer H c.next fun d => { d with prev := c.prev }
    let c ← H.cell item
    let H ← H.modify parent fun d =>
      if d.child = some item then { d with child := c.next } else d
    let H ← H.modify item fun d => { d with prev := none, next := none }
    some (H, some item)
  | _, _ => some (H, none)

end Links

section LookUp

/-- The loop of `get_array_item`. -/
def walk (H : Nodes) : ℕ → Option ℕ → Option (Option ℕ)
  | 0, current => some current
  | _ + 1, none => some none
  | index + 1, some current => do
    let c ← H.cell current
    walk H index c.next

def getArrayItem (H : Nodes) (array : Option ℕ) (index : ℕ) : Option (Option ℕ) :=
  match array with
  | none => some none
  | some array => do
    let c ← H.cell array
    walk H index c.child

def detachItemFromArray (H : Nodes) (array : Option ℕ) (which : ℤ) :
    Option (Nodes × Option ℕ) :=
  if which < 0 then some (H, none)
  else do
    let item ← getArrayItem H array which.toNat
    detachItemViaPointer H array item

/-- In the "C" locale. -/
def tolower (c : UInt8) : UInt8 := if 65 ≤ c ∧ c ≤ 90 then c + 32 else c

/-- The loop of `case_insensitive_strcmp`; a list at its end stands for the NUL. -/
def compareLower : List UInt8 → List UInt8 → ℤ
  | [], [] => 0
  | [], b :: _ => 0 - (tolower b).toNat
  | a :: _, [] => (tolower a).toNat - 0
  | a :: as, b :: bs =>
    if tolower a = tolower b then compareLower as bs else (tolower a).toNat - (tolower b).toNat

def caseInsensitiveStrcmp (string1 string2 : Option Text) : ℤ :=
  match string1, string2 with
  | some string1, some string2 => compareLower string1.1 string2.1
  | _, _ => 1

/-- A loop that goes from sibling to sibling while there is one and it meets the
condition. -/
def seek (H : Nodes) (goOn : CJSON → Option Bool) : ℕ → Option ℕ → Option (Option ℕ)
  | _, none => some none
  | 0, some _ => none
  | rounds + 1, some current => do
    let c ← H.cell current
    if ← goOn c then seek H goOn rounds c.next else some (some current)

/-- The conditions of the two loops of `get_object_item`. -/
def searchOn (name : Text) (caseSensitive : Bool) (c : CJSON) : Bool :=
  if caseSensitive then c.string ≠ none ∧ c.string ≠ some name
  else caseInsensitiveStrcmp (some name) c.string ≠ 0

def getObjectItem (H : Nodes) (object : Option ℕ) (name : Option Text) (caseSensitive : Bool) :
    Option (Option ℕ) :=
  match object, name with
  | some object, some name => do
    let o ← H.cell object
    let current ← seek H (fun c => some (searchOn name caseSensitive c)) H.fresh o.child
    match current with
    | none => some none
    | some current => do
      let c ← H.cell current
      some (if c.string = none then none else some current)
  | _, _ => some none

def hasObjectItem (H : Nodes) (object : Option ℕ) (string : Option Text) : Option Bool := do
  let item ← getObjectItem H object string false
  some item.isSome

def detachItemFromObject (H : Nodes) (object : Option ℕ) (string : Option Text) :
    Option (Nodes × Option ℕ) := do
  let toDetach ← getObjectItem H object string false
  detachItemViaPointer H object toDetach

def detachItemFromObjectCaseSensitive (H : Nodes) (object : Option ℕ) (string : Option Text) :
    Option (Nodes × Option ℕ) := do
  let toDetach ← getObjectItem H object string true
  detachItemViaPointer H object toDetach

end LookUp

section Whole

/-- `cJSON_Delete`, for the node and its later siblings. -/
def delete : ℕ → Nodes → Option ℕ → Option Nodes
  | _, H, none => some H
  | 0, _, some _ => none
  | depth + 1, H, some item => do
    let c ← H.cell item
    let H ← (if c.isReference then some H else delete depth H c.child)
    let H ← H.free item
    delete depth H c.next

/-- How `cJSON_Duplicate` links a new child: behind the last one, or as the first. -/
def crosswire (H : Nodes) (newitem : ℕ) (next : Option ℕ) (newchild : ℕ) : Option Nodes :=
  match next with
  | some next => suffixObject H (some next) newchild
  | none => H.modify newitem fun c => { c with child := some newchild }

mutual

def duplicate : ℕ → Nodes → Option ℕ → Bool → Option (Nodes × Option ℕ)
  | _, H, none, _ => some (H, none)
  | 0, _, some _, _ => none
  | depth + 1, H, some item, recurse => do
    let c ← H.cell item
    let (H, newitem) := newItem H
      { type := c.type &&& ~~~cJSONIsReference, valueint := c.valueint,
        valuedouble := c.valuedouble, valuestring := c.valuestring, string := c.string }
    let H ← (if recurse then duplicateChildren depth H newitem none c.child else some H)
    some (H, some newitem)

/-- The loop over the children, the last new child being next. -/
def duplicateChildren : ℕ → Nodes → ℕ → Option ℕ → Option ℕ → Option Nodes
  | _, H, _, _, none => some H
  | 0, _, _, _, some _ => none
  | depth + 1, H, newitem, next, some child => do
    let (H, newchild) ← duplicate depth H (some child) true
    let newchild ← newchild
    let H ← crosswire H newitem next newchild
    let c ← H.cell child
    duplicateChildren depth H newitem (some newchild) c.next

end

end Whole

end BoxUtils.CJson
