import BoxUtils.CJson
import BoxUtils.LinkedTrees

/-!
The functions of libxml2 that the XML classes call, as far as they change the links
between nodes: what each is documented to do, and functions that do it. Names, attributes
and contents of the nodes are left out, and so is the merging of adjacent texts.
-/
namespace BoxUtils.LXml

open Linked LinkedShapes LinkedTrees CJson

structure XmlNode where
  prev : Option ℕ := none
  next : Option ℕ := none
  children : Option ℕ := none
  deriving DecidableEq

instance : Linked XmlNode where
  prev := XmlNode.prev
  next := XmlNode.next
  child := XmlNode.children
  sound _ := True

abbrev XmlNodes := Heap XmlNode

/-- The functions, each with what it does to nodes that are there. -/
structure LibXml where
  /-- `xmlParseDoc` and the other parsers: the root element, if there is one. -/
  parse : XmlNodes → Text → Option (XmlNodes × Option ℕ)
  xmlAddChild : XmlNodes → ℕ → ℕ → Option XmlNodes
  /-- With the flag for a recursive copy. -/
  xmlCopyNode : XmlNodes → ℕ → Option (XmlNodes × ℕ)
  xmlFreeNode : XmlNodes → ℕ → Option XmlNodes
  /-- For a document with this root element: its root element then, and what is given back. -/
  xmlDocSetRootElement : XmlNodes → Option ℕ → ℕ → Option (XmlNodes × Option ℕ × Option ℕ)
  parse_adds : ∀ {H H' str root}, parse H str = some (H', root) → Adds H H' root
  /-- A node that is in no list of children is linked behind the last child. -/
  xmlAddChild_links : ∀ {H : XmlNodes} {parent cur : ℕ} {v : XmlNode} {c : Shape},
    H.cell parent = some v → Holds H none v.children c none →
    (Shape.node parent c .nil).Distinct → H.cell cur ≠ none → (∀ p, ¬ ChildOf H p cur) →
    parent ≠ cur →
    ∃ H', xmlAddChild H parent cur = some H' ∧ Attaches H H' cur parent c.siblings.getLast?
  /-- A node is not added to itself. -/
  xmlAddChild_self : ∀ {H : XmlNodes} {cur : ℕ}, H.cell cur ≠ none → xmlAddChild H cur cur = some H
  xmlCopyNode_adds : ∀ {H : XmlNodes} {node : ℕ} {v : XmlNode} {c : Shape},
    H.cell node = some v → Holds H none v.children c none →
    (Shape.node node c .nil).Distinct →
    ∃ H' copy, xmlCopyNode H node = some (H', copy) ∧ Adds H H' (some copy)
  xmlFreeNode_frees : ∀ {H : XmlNodes} {node : ℕ} {v : XmlNode} {c : Shape},
    H.cell node = some v → Holds H none v.children c none →
    (Shape.node node c .nil).Distinct →
    ∃ H', xmlFreeNode H node = some H' ∧
      ∀ y, H'.cell y = if 0 < (Shape.node node c .nil).count y then none else H.cell y
  /-- A node that is in no list of children takes the place of the root element, which is
  given back as it is. -/
  xmlDocSetRootElement_sets : ∀ {H : XmlNodes} {root : Option ℕ} {cur : ℕ},
    H.cell cur ≠ none → (∀ p, ¬ ChildOf H p cur) → root ≠ some cur →
    xmlDocSetRootElement H root cur = some (H, some cur, root)

section Reference

/-- Each cell changes by itself, or goes. -/
def change (H : XmlNodes) (f : ℕ → XmlNode → Option XmlNode) : XmlNodes where
  cell y := (H.cell y).bind (f y)
  fresh := H.fresh
  unused y hy := by rw [H.unused y hy, Option.bind_none]

/-- The node with all that is below it. -/
def readTree (H : XmlNodes) (node : ℕ) : Option Shape := do
  let v ← H.cell node
  let c ← readShape H H.fresh v.children
  some (.node node c .nil)

def addChild (H : XmlNodes) (parent cur : ℕ) : Option XmlNodes :=
  if parent = cur then some H
  else do
    let t ← readTree H parent
    let last := (t.children parent).siblings.getLast?
    some (change H fun y v => some
      { prev := if y = cur ∧ last ≠ none then last else v.prev
        next := if last = some y then some cur else v.next
        children := if y = parent ∧ last = none then some cur else v.children })

def setRootElement (H : XmlNodes) (root : Option ℕ) (cur : ℕ) :
    Option (XmlNodes × Option ℕ × Option ℕ) :=
  if root = some cur then some (H, root, none) else some (H, some cur, root)

def freeNode (H : XmlNodes) (node : ℕ) : Option XmlNodes :=
  (readTree H node).map fun t => change H fun y v => if 0 < t.count y then none else some v

/-- The links of a cell that is moved up by k addresses with all its neighbours. -/
def shiftLinks (k : ℕ) (v : XmlNode) : XmlNode :=
  ⟨v.prev.map (· + k), v.next.map (· + k), v.children.map (· + k)⟩

/-- The copies stand in the same order behind all addresses. -/
def copyNode (H : XmlNodes) (node : ℕ) : Option (XmlNodes × ℕ) :=
  (readTree H node).map fun t =>
    ({ cell := fun y =>
        if y < H.fresh then H.cell y
        else if 0 < t.count (y - H.fresh) then
          (H.cell (y - H.fresh)).map fun v => shiftLinks H.fresh
            (if y = node + H.fresh then { v with prev := none, next := none } else v)
        else none
       fresh := 2 * H.fresh
       unused := fun y hy => by
        rw [if_neg (by omega), H.unused (y - H.fresh) (by omega), Option.map_none, ite_self] },
      node + H.fresh)

/-- Here a parser knows the document `<a/>` only. -/
def parse (H : XmlNodes) (str : Text) : Option (XmlNodes × Option ℕ) :=
  if str.1 = [60, 97, 47, 62] then some (H.alloc {}, some H.fresh) else none

end Reference

section Laws

variable {H H' : XmlNodes} {q p root : Option ℕ} {s c : Shape} {node parent cur k : ℕ}
variable {v : XmlNode} {l : List ℕ} {str : Text}

theorem readTree_eq (hv : H.cell node = some v) (hc : Holds H none v.children c none)
    (hd : (Shape.node node c .nil).Distinct) : readTree H node = some (.node node c .nil) := by
  simp [readTree, hv, readShape_fresh hc hd.child]

theorem parse_adds (h : parse H str = some (H', root)) : Adds H H' root := by
  simp only [parse] at h
  split at h
  case isFalse => cases h
  case isTrue =>
    obtain ⟨rfl, rfl⟩ : H.alloc {} = H' ∧ some H.fresh = root := by simpa using h
    refine ⟨.node H.fresh .nil .nil, ⟨rfl, _, Heap.cell_alloc_self H _, rfl, trivial, rfl, rfl⟩,
      Nat.le_refl 1, fun y => ?_, fun y hy => ?_, fun y hy => ?_⟩
    · simp only [Shape.count_node, Shape.count_nil]
      split <;> omega
    · simp only [Shape.count_node, Shape.count_nil] at hy
      split at hy
      case isTrue heq => exact heq ▸ H.unused _ (Nat.le_refl _)
      case isFalse => omega
    · refine Heap.cell_alloc_of_ne H _ fun heq => ?_
      simp [Shape.count_node, heq] at hy

theorem addChild_links (hv : H.cell parent = some v) (hc : Holds H none v.children c none)
    (hd : (Shape.node parent c .nil).Distinct) (hne : parent ≠ cur) :
    ∃ H', addChild H parent cur = some H' ∧ Attaches H H' cur parent c.siblings.getLast? := by
  refine ⟨_, by rw [addChild, if_neg hne, readTree_eq hv hc hd, Option.bind_eq_bind,
    Option.bind_some], fun y hy => ?_, fun y u hu => ?_⟩
  · simp only [change, hy, Option.bind_none]
  · let last := c.siblings.getLast?
    refine ⟨⟨if y = cur ∧ last ≠ none then last else u.prev, if last = some y then some cur
      else u.next, if y = parent ∧ last = none then some cur else u.children⟩, ?_, rfl, rfl, rfl,
      fun _ => trivial⟩
    simp only [change, hu, Option.bind_some, Shape.children_top, last]

theorem freeNode_frees (hv : H.cell node = some v) (hc : Holds H none v.children c none)
    (hd : (Shape.node node c .nil).Distinct) :
    ∃ H', freeNode H node = some H' ∧
      ∀ y, H'.cell y = if 0 < (Shape.node node c .nil).count y then none else H.cell y := by
  refine ⟨_, by rw [freeNode, readTree_eq hv hc hd, Option.map_some], fun y => ?_⟩
  simp only [change]
  split <;> simp

/-- What is copied cell by cell to addresses further up has the same shape there. -/
theorem holds_shift (h : Holds H q p s none)
    (hcell : ∀ y u, 0 < s.count y → H.cell y = some u → H'.cell (y + k) = some (shiftLinks k u)) :
    Holds H' (q.map (· + k)) (p.map (· + k)) (s.shift k) none := by
  induction s generalizing q p with
  | nil =>
    obtain rfl : p = none := h
    rfl
  | node a c n ihc ihn =>
    obtain ⟨rfl, u, hu, hprev, -, hc, hn⟩ := h
    refine ⟨rfl, shiftLinks k u, hcell a u (by simp [Shape.count_node]) hu, ?_, trivial, ?_, ?_⟩
    · rw [← hprev]
      rfl
    · exact ihc hc fun y w hy => hcell y w (by rw [Shape.count_node]; omega)
    · exact ihn hn fun y w hy => hcell y w (by rw [Shape.count_node]; omega)

theorem copyNode_adds (hv : H.cell node = some v) (hc : Holds H none v.children c none)
    (hd : (Shape.node node c .nil).Distinct) :
    ∃ H' copy, copyNode H node = some (H', copy) ∧ Adds H H' (some copy) := by
  have hcopied : ∀ y u, 0 < (Shape.node node c .nil).count y → H.cell y = some u →
      (if y + H.fresh < H.fresh then H.cell (y + H.fresh)
        else if 0 < (Shape.node node c .nil).count (y + H.fresh - H.fresh) then
          (H.cell (y + H.fresh - H.fresh)).map fun v => shiftLinks H.fresh
            (if y + H.fresh = node + H.fresh then { v with prev := none, next := none } else v)
        else none) =
      some (shiftLinks H.fresh
        (if y = node then { u with prev := none, next := none } else u)) := by
    intro y u hy hu
    have hnot : ¬ y + H.fresh < H.fresh := by omega
    simp only [if_neg hnot, Nat.add_sub_cancel, if_pos hy, hu, Option.map_some,
      Nat.add_right_cancel_iff]
  refine ⟨_, _, by rw [copyNode, readTree_eq hv hc hd, Option.map_some],
    (Shape.node node c .nil).shift H.fresh, ⟨rfl, ?_⟩, Nat.le_refl 1, hd.shift _,
    fun y hy => ?_, fun y hy => ?_⟩
  · refine ⟨shiftLinks H.fresh { v with prev := none, next := none }, ?_, rfl, trivial, ?_, rfl⟩
    · exact (hcopied node v (by simp [Shape.count_node]) hv).trans (by rw [if_pos rfl])
    · refine holds_shift hc fun y u hy hu => ?_
      have hne : y ≠ node := by
        intro heq
        rw [heq, hd.top.1] at hy
        cases hy
      refine (hcopied y u (by rw [Shape.count_node]; omega) hu).trans ?_
      rw [if_neg hne]
  · rw [Shape.count_shift] at hy
    split at hy
    case isTrue hle => exact H.unused y hle
    case isFalse => omega
  · rw [Shape.count_shift] at hy
    by_cases hlt : y < H.fresh
    · simp only [if_pos hlt]
    · rw [if_pos (by omega)] at hy
      simp only [if_neg hlt, hy, Nat.lt_irrefl, if_false]
      rw [H.unused y (by omega)]

end Laws

/-- Functions that meet the descriptions. -/
def LibXml.plain : LibXml where
  parse := LXml.parse
  xmlAddChild := addChild
  xmlCopyNode := copyNode
  xmlFreeNode := freeNode
  xmlDocSetRootElement := setRootElement
  parse_adds := LXml.parse_adds
  xmlAddChild_links hv hc hd _ _ hne := addChild_links hv hc hd hne
  xmlAddChild_self _ := if_pos rfl
  xmlCopyNode_adds := copyNode_adds
  xmlFreeNode_frees := freeNode_frees
  xmlDocSetRootElement_sets _ _ hne := if_neg hne

end BoxUtils.LXml
