import Mathlib.Data.Finset.Card
import BoxUtils.CJson

/-!
The Json class. A handle has a holder with a node and a flag that says whether
the node belongs to another owner. The look-ups by key, `add_item` and `pop` act
on the nodes and on the holders; a sequence of operations is a run of the states
below. An operation may throw, which leaves everything as it was, or run into
undefined behaviour, after which nothing is promised any more.
-/
namespace BoxUtils.Json

open CJson LinkedShapes

inductive Error where
  | typeError (excepted gived : String)
  | indexError (index : ℤ)
  | keyError (key : Text)
deriving DecidableEq

inductive Outcome (α : Type) where
  | value (a : α)
  | throws (e : Error)
  | undefined
deriving DecidableEq

namespace Outcome

def bind {α β : Type} (x : Outcome α) (f : α → Outcome β) : Outcome β :=
  match x with
  | value a => f a
  | throws e => throws e
  | undefined => undefined

instance : Monad Outcome where
  pure := value
  bind := bind

/-- A call into cJSON throws nothing. -/
def ofOption {α : Type} : Option α → Outcome α
  | some a => value a
  | none => undefined

instance : MonadLift Option Outcome := ⟨ofOption⟩

@[simp] theorem value_bind {α β : Type} (a : α) (f : α → Outcome β) : value a >>= f = f a := rfl

@[simp] theorem throws_bind {α β : Type} (e : Error) (f : α → Outcome β) :
    throws e >>= f = throws e := rfl

@[simp] theorem undefined_bind {α β : Type} (f : α → Outcome β) :
    undefined >>= f = undefined := rfl

@[simp] theorem pure_eq {α : Type} (a : α) : (pure a : Outcome α) = value a := rfl

@[simp] theorem lift_some {α : Type} (a : α) : (liftM (some a) : Outcome α) = value a := rfl

@[simp] theorem lift_none {α : Type} : (liftM (none : Option α) : Outcome α) = undefined := rfl

end Outcome

structure JsonHolder where
  cjson : Option ℕ
  ref : Bool
deriving DecidableEq

section Members

def deref (H : Nodes) (holder : JsonHolder) : Option CJSON := do
  let a ← holder.cjson
  H.cell a

def getTypeString (c : CJSON) : String :=
  if c.kind = cJSONNumber then "Number"
  else if c.kind = cJSONString then "String"
  else if c.kind = cJSONObject then "Object"
  else if c.kind = cJSONArray then "Array"
  else if c.kind = cJSONFalse then "Bool"
  else if c.kind = cJSONTrue then "Bool"
  else if c.kind = cJSONNull then "Null"
  else if c.kind = cJSONInvalid then "Invalid"
  else if c.kind = cJSONRaw then "Raw"
  else "Unknown"

/-- The common form of the type checks. -/
def checkKind (kind : BitVec 32) (excepted : String) (H : Nodes) (holder : JsonHolder) :
    Outcome Unit := do
  let c ← deref H holder
  if c.kind ≠ kind then .throws (.typeError excepted (getTypeString c)) else pure ()

def checkIsArray : Nodes → JsonHolder → Outcome Unit := checkKind cJSONArray "Array"

def checkIsObject : Nodes → JsonHolder → Outcome Unit := checkKind cJSONObject "Object"

def has (H : Nodes) (holder : JsonHolder) (key : Text) (caseSensitive : Bool := true) :
    Outcome Bool := do
  checkIsObject H holder
  if caseSensitive = false then hasObjectItem H holder.cjson (some key)
  else do
    let cjson ← deref H holder
    -- strcmp has no result for a child without a name
    let elem ← seek H (fun c => c.string.map (· ≠ key)) H.fresh cjson.child
    pure elem.isSome

/-- The operator `[]` for keys; the result is a handle that does not own its node. -/
def lookUp (H : Nodes) (holder : JsonHolder) (val : Text) : Outcome JsonHolder := do
  checkIsObject H holder
  let cjson ← getObjectItem H holder.cjson (some val) false
  match cjson with
  | none => .throws (.keyError val)
  | some cjson => pure ⟨some cjson, true⟩

def popIndex (H : Nodes) (holder : JsonHolder) (val : ℤ) : Outcome (Nodes × JsonHolder) := do
  checkIsArray H holder
  let (H, cjson) ← detachItemFromArray H holder.cjson val
  match cjson with
  | none => .throws (.indexError val)
  | some cjson => pure (H, ⟨some cjson, false⟩)

def popKey (H : Nodes) (holder : JsonHolder) (key : Text) (caseSensitive : Bool := true) :
    Outcome (Nodes × JsonHolder) := do
  checkIsObject H holder
  let (H, cjson) ← (if caseSensitive then
      detachItemFromObjectCaseSensitive H holder.cjson (some key)
    else detachItemFromObject H holder.cjson (some key) : Option _)
  match cjson with
  | none => .throws (.keyError key)
  | some cjson => pure (H, ⟨some cjson, false⟩)

/-- A copy that has a holder of its own. -/
def duplicateWhole (H : Nodes) (holder : JsonHolder) : Option (Nodes × Option ℕ) :=
  duplicate (2 * H.fresh) H holder.cjson true

end Members

/-- The functions `Json::Create...`. -/
inductive Creation where
  | null
  | true
  | false
  | bool (boolen : Bool)
  | table
  | array
  | intArray (numbers : Option (List ℤ)) (count : ℤ)
  | number (number : Double)
  | string (str : Text)
  | stringRef (str : Text)

def create (H : Nodes) : Creation → Option (Nodes × Option ℕ)
  | .null => some ((createNull H).map id some)
  | .true => some ((createTrue H).map id some)
  | .false => some ((createFalse H).map id some)
  | .bool boolen => some ((createBool H boolen).map id some)
  | .table => some ((createObject H).map id some)
  | .array => some ((createArray H).map id some)
  | .intArray numbers count => createIntArray H numbers count
  | .number number => some ((createNumber H number).map id some)
  | .string str => some ((createString H str).map id some)
  | .stringRef str => some ((createStringReference H str).map id some)

/-- A buffer of numbers has to be as long as its count says. -/
def Creation.Readable : Creation → Prop
  | intArray (some numbers) count => count ≤ numbers.length
  | _ => True

structure State where
  heap : Nodes
  live : Finset ℕ
  holder : ℕ → JsonHolder
  undefined : Bool

def init : State := ⟨Heap.empty, ∅, fun _ => ⟨none, false⟩, false⟩

/-- Handles are named by numbers; the first one of an operation that returns a
handle is the new one. -/
inductive Op where
  | create (h : ℕ) (item : Creation)
  | copy (h src : ℕ)
  | addItem (array json : ℕ)
  | addItemTo (object : ℕ) (key : Text) (json : ℕ)
  | popIndex (h array : ℕ) (val : ℤ)
  | popKey (h object : ℕ) (key : Text) (caseSensitive : Bool)
  | destroy (h : ℕ)

namespace State

def construct (s : State) (h : ℕ) (heap : Nodes) (holder : JsonHolder) : State :=
  { s with
    heap := heap
    live := insert h s.live
    holder := Function.update s.holder h holder }

/-- Marks the node of a handle as belonging to another owner. -/
def setRef (s : State) (h : ℕ) : State :=
  { s with holder := Function.update s.holder h { s.holder h with ref := true } }

def addItem (s : State) (array json : ℕ) : Outcome State := do
  checkIsArray s.heap (s.holder array)
  if (s.holder array).ref = false then
    -- the flag that is set is the one of the array
    let s := s.setRef array
    let (heap, _) ← addItemToArray s.heap (s.holder array).cjson (s.holder json).cjson
    pure { s with heap := heap }
  else do
    let (heap, item) ← duplicateWhole s.heap (s.holder json)
    let (heap, _) ← addItemToArray heap (s.holder array).cjson item
    pure { s with heap := heap }

def addItemTo (s : State) (object : ℕ) (key : Text) (json : ℕ) : Outcome State := do
  checkIsObject s.heap (s.holder object)
  if (s.holder json).ref = false then
    let s := s.setRef json
    let (heap, _) ←
      addItemToObject s.heap (s.holder object).cjson (some key) (s.holder json).cjson false
    pure { s with heap := heap }
  else do
    let (heap, item) ← duplicateWhole s.heap (s.holder json)
    let (heap, _) ← addItemToObject heap (s.holder object).cjson (some key) item false
    pure { s with heap := heap }

/-- The last handle of a holder destroys it, and the holder its node. -/
def destroy (s : State) (h : ℕ) : Outcome State := do
  let heap ← (if (s.holder h).ref then some s.heap
    else delete s.heap.fresh s.heap (s.holder h).cjson : Option _)
  pure { s with heap := heap, live := s.live.erase h }

end State

def perform (s : State) : Op → Outcome State
  | .create h item => do
    let (heap, cjson) ← create s.heap item
    pure (s.construct h heap ⟨cjson, false⟩)
  | .copy h src => do
    let (heap, cjson) ← duplicateWhole s.heap (s.holder src)
    pure (s.construct h heap ⟨cjson, false⟩)
  | .addItem array json => s.addItem array json
  | .addItemTo object key json => s.addItemTo object key json
  | .popIndex h array val => do
    let (heap, holder) ← popIndex s.heap (s.holder array) val
    pure (s.construct h heap holder)
  | .popKey h object key caseSensitive => do
    let (heap, holder) ← popKey s.heap (s.holder object) key caseSensitive
    pure (s.construct h heap holder)
  | .destroy h => s.destroy h

/-- New handles get unused names, the others are alive, and nothing undefined has
happened yet. -/
def Legal (s : State) (op : Op) : Prop :=
  s.undefined = false ∧
    match op with
    | .create h item => h ∉ s.live ∧ item.Readable
    | .copy h src | .popIndex h src _ | .popKey h src _ _ => h ∉ s.live ∧ src ∈ s.live
    | .addItem container json | .addItemTo container _ json =>
      container ∈ s.live ∧ json ∈ s.live
    | .destroy h => h ∈ s.live

instance : ∀ item : Creation, Decidable item.Readable
  | .intArray (some numbers) count => inferInstanceAs (Decidable (count ≤ numbers.length))
  | .intArray none _ => isTrue trivial
  | .null | .true | .false | .bool _ | .table | .array | .number _ | .string _ | .stringRef _ =>
    isTrue trivial

instance (s : State) : ∀ op, Decidable (Legal s op)
  | .create h item =>
    inferInstanceAs (Decidable (s.undefined = false ∧ h ∉ s.live ∧ item.Readable))
  | .copy h src | .popIndex h src _ | .popKey h src _ _ =>
    inferInstanceAs (Decidable (s.undefined = false ∧ h ∉ s.live ∧ src ∈ s.live))
  | .addItem container json | .addItemTo container _ json =>
    inferInstanceAs (Decidable (s.undefined = false ∧ container ∈ s.live ∧ json ∈ s.live))
  | .destroy h => inferInstanceAs (Decidable (s.undefined = false ∧ h ∈ s.live))

def next (s : State) (op : Op) : Option State :=
  if Legal s op then
    match perform s op with
    | .value t => some t
    | .throws _ => some s
    | .undefined => some { s with undefined := true }
  else none

end BoxUtils.Json
