import BoxUtils.LibXml
import BoxUtils.Shared
import BoxUtils.Runs

/-!
The classes `Xml` and `Node` of xml.cpp. Their handles share holders; the last handle of a
holder destroys it. A `XmlHolder` owns its document, a `NodeHolder` its node unless it is a
reference. The edits of a tree pass nodes on from one owner to another.
-/
namespace BoxUtils.LXml

open LinkedShapes Shared CJson

/-- A `XmlHolder`, with the root element of its document, or a `NodeHolder`. -/
inductive Holder where
  | xml (root : Option ℕ)
  | node (node : ℕ) (ref : Bool)
  deriving DecidableEq

structure State where
  nodes : XmlNodes
  holders : Cells Holder
  /-- A node that has been freed was used or freed again. -/
  undefined : Bool

/-- Handles are known by their holders. -/
inductive Op where
  | xml
  | parseString (str : Text)
  /-- `root`, `child`, `next` and the other look-ups give a reference to some node. -/
  | look (node : ℕ)
  /-- The copy and the move constructors of both classes. -/
  | share (a : ℕ)
  | copy (a : ℕ)
  | addChild (p a : ℕ)
  | setRoot (d a : ℕ)
  | destroy (a : ℕ)

/-- What the destructor of a holder frees. -/
def Holder.owned : Holder → Option ℕ
  | xml root => root
  | node _ true => none
  | node x false => some x

namespace State

variable (lib : LibXml) (s : State)

/-- The node of a handle, which has to be there, and whether it is a reference. -/
def node (a : ℕ) : Option (ℕ × Bool) :=
  match read s.holders a with
  | some (.node node ref) => (s.nodes.cell node).map fun _ => (node, ref)
  | _ => none

def isNode (a : ℕ) : Bool :=
  match read s.holders a with
  | some (.node _ _) => true
  | _ => false

def isXml (d : ℕ) : Bool :=
  match read s.holders d with
  | some (.xml _) => true
  | _ => false

/-- A handle of a new holder. -/
def construct (holder : Holder) : State := { s with holders := (make s.holders holder).1 }

def setHolder (a : ℕ) (holder : Holder) : Option State :=
  (write s.holders a holder).map fun holders => { s with holders := holders }

/-- `xmlFreeNode`, if there is a node. -/
def free : Option ℕ → Option State
  | none => some s
  | some node => do
    let _ ← s.nodes.cell node
    let nodes ← lib.xmlFreeNode s.nodes node
    some { s with nodes := nodes }

/-- `xmlDocSetRootElement` on the document of a holder. -/
def setRootElement (d node : ℕ) : Option (State × Option ℕ) := do
  let .xml root ← read s.holders d | none
  let (nodes, root, old) ← lib.xmlDocSetRootElement s.nodes root node
  let s ← s.setHolder d (.xml root)
  some ({ s with nodes := nodes }, old)

def copy (a : ℕ) : Option State := do
  let (node, _) ← s.node a
  let (nodes, copy) ← lib.xmlCopyNode s.nodes node
  some ({ s with nodes := nodes }.construct (.node copy false))

def addChild (p a : ℕ) : Option State := do
  let (parent, _) ← s.node p
  let (node, ref) ← s.node a
  if ref = false then
    let s ← s.setHolder a (.node node true)
    let nodes ← lib.xmlAddChild s.nodes parent node
    some { s with nodes := nodes }
  else
    let (nodes, copy) ← lib.xmlCopyNode s.nodes node
    let nodes ← lib.xmlAddChild nodes parent copy
    some { s with nodes := nodes }

def setRoot (d a : ℕ) : Option State := do
  let (node, ref) ← s.node a
  if ref = false then
    let s ← s.setHolder a (.node node true)
    -- the old root is not freed here
    let (s, _) ← s.setRootElement lib d node
    some s
  else
    let (nodes, copy) ← lib.xmlCopyNode s.nodes node
    let (s, old) ← { s with nodes := nodes }.setRootElement lib d copy
    s.free lib old

/-- The end of a handle. -/
def destroy (a : ℕ) : Option State := do
  let (holders, holder) ← drop s.holders a
  { s with holders := holders }.free lib (holder.bind Holder.owned)

end State

def perform (lib : LibXml) (s : State) : Op → Option State
  | .xml => some (s.construct (.xml none))
  | .parseString str =>
    match lib.parse s.nodes str with
    | none => some s  -- throws
    | some (nodes, root) => some ({ s with nodes := nodes }.construct (.xml root))
  | .look node => some (s.construct (.node node true))
  | .share a => (share s.holders a).map fun holders => { s with holders := holders }
  | .copy a => s.copy lib a
  | .addChild p a => s.addChild lib p a
  | .setRoot d a => s.setRoot lib d a
  | .destroy a => s.destroy lib a

/-- The handles are there and of the right class, look-ups find nodes that are there, and
nothing undefined has happened yet. -/
def Legal (s : State) (op : Op) : Prop :=
  s.undefined = false ∧
    match op with
    | .xml | .parseString _ => True
    | .look node => s.nodes.cell node ≠ none
    | .share a | .destroy a => s.holders.cell a ≠ none
    | .copy a => s.isNode a
    | .addChild p a => s.isNode p ∧ s.isNode a
    | .setRoot d a => s.isXml d ∧ s.isNode a

instance (s : State) : ∀ op, Decidable (Legal s op)
  | .xml | .parseString _ => inferInstanceAs (Decidable (s.undefined = false ∧ True))
  | .look node => inferInstanceAs (Decidable (s.undefined = false ∧ s.nodes.cell node ≠ none))
  | .share a | .destroy a =>
    inferInstanceAs (Decidable (s.undefined = false ∧ s.holders.cell a ≠ none))
  | .copy a => inferInstanceAs (Decidable (s.undefined = false ∧ s.isNode a))
  | .addChild p a => inferInstanceAs (Decidable (s.undefined = false ∧ s.isNode p ∧ s.isNode a))
  | .setRoot d a => inferInstanceAs (Decidable (s.undefined = false ∧ s.isXml d ∧ s.isNode a))

def next (lib : LibXml) (s : State) (op : Op) : Option State :=
  if Legal s op then
    match perform lib s op with
    | some t => some t
    | none => some { s with undefined := true }
  else none

def init : State := ⟨Heap.empty, Heap.empty, false⟩

inductive Owner where
  | document (d : ℕ)
  | parent (p : ℕ)
  | holder (a : ℕ)

def Owns (s : State) : Owner → ℕ → Prop
  | .document d, x => read s.holders d = some (.xml (some x))
  | .parent p, x => ChildOf s.nodes p x
  | .holder a, x => read s.holders a = some (.node x false)

/-- Each node has one owner, and is below one that a document or a holder owns, so that it
goes with that owner. -/
structure OneOwner (s : State) : Prop where
  defined : s.undefined = false
  owner : ∀ x, s.nodes.cell x ≠ none → ∃! o, Owns s o x
  kept : ∀ x, s.nodes.cell x ≠ none → ∃ k b,
    (Owns s (.document k) b ∨ Owns s (.holder k) b) ∧ Relation.ReflTransGen (ChildOf s.nodes) b x

/-- Only references to nodes that are still there are used, no owned node is added below
itself, and none becomes the root of a document that has one. -/
def Careful (s : State) : Op → Prop
  | .copy a => s.node a ≠ none
  | .addChild p a => s.node p ≠ none ∧ s.node a ≠ none ∧
      ∀ parent ref node, s.node p = some (parent, ref) → s.node a = some (node, false) →
        ¬ Relation.ReflTransGen (ChildOf s.nodes) node parent
  | .setRoot d a => s.node a ≠ none ∧
      ∀ node, s.node a = some (node, false) → read s.holders d = some (.xml none)
  | _ => True

end BoxUtils.LXml
