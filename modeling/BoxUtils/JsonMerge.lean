import BoxUtils.CJsonBounds
import BoxUtils.JsonLookup

/-!
Merging a patch into a part of a document, through a handle that the operator
`[]` gave. Only where that part and the patch are objects the document is edited
in place. Otherwise the merge frees the node, which the document goes on linking
to, and the new value is in the handle alone.
-/
namespace BoxUtils.Json

open CJson LinkedShapes
open MergePatch (Label Named)

section Members

/-- The operator `[]` for indices. -/
def lookUpIndex (H : Nodes) (holder : JsonHolder) (val : ℤ) : Outcome JsonHolder := do
  checkIsArray H holder
  let cjson ← (if val < 0 then some none else getArrayItem H holder.cjson val.toNat : Option _)
  match cjson with
  | none => .throws (.indexError val)
  | some cjson => pure ⟨some cjson, true⟩

inductive Subscript where
  | key (val : Text)
  | index (val : ℤ)

def subscript (H : Nodes) (holder : JsonHolder) : Subscript → Outcome JsonHolder
  | .key val => lookUp H holder val
  | .index val => lookUpIndex H holder val

/-- The handle takes the pointer that the merge returns. -/
def merge (H : Nodes) (holder json : JsonHolder) (caseSensitive : Bool := true) :
    Option (Nodes × JsonHolder) := do
  let (H, cjson) ← mergePatch (2 * H.fresh) H holder.cjson json.cjson caseSensitive
  some (H, { holder with cjson := cjson })

end Members

/-- A handle with a JSON value. -/
structure ValueAt (H : Nodes) (holder : JsonHolder) (a : ℕ) (v : CJSON) (c : Shape) : Prop where
  cjson : holder.cjson = some a
  tree : Tree H a v c
  named : Named ((Shape.node a c .nil).read (labelOf H))

/-- A handle with a JSON value that is not part of another one. -/
structure Document (H : Nodes) (holder : JsonHolder) (root : ℕ) (v : CJSON) (c : Shape) : Prop
    extends ValueAt H holder root v c where
  prev : v.prev = none
  next : v.next = none

/-- The handles that repeated use of the operator `[]` gives. -/
inductive Reference (H : Nodes) (document : JsonHolder) : JsonHolder → Prop where
  | first {i : Subscript} {r : JsonHolder} (h : subscript H document i = .value r) :
    Reference H document r
  | again {i : Subscript} {m r : JsonHolder} (hm : Reference H document m)
    (h : subscript H m i = .value r) : Reference H document r

/-- The document with the node root over c reads like before, but for the merge of the
node a with the value of p over s, and its links lead to live nodes only. -/
structure InPlace (H H' : Nodes) (root : ℕ) (c : Shape) (a p : ℕ) (s : Shape) : Prop where
  document : ∃ t, Holds H' none (some root) t none ∧
    t.read (labelOf H') =
      let merged := MergePatch.mergePatch
        (some (labelOf H a, ((Shape.node root c .nil).children a).read (labelOf H)))
        (labelOf H p, s.read (labelOf H))
      (Shape.node root c .nil).replace (labelOf H) a (merged.1.rename (labelOf H a).name) merged.2
  live : ∀ x, Relation.ReflTransGen (LinksTo H') root x → H'.cell x ≠ none

def BothObjects (H : Nodes) (a p : ℕ) : Prop :=
  (labelOf H a).isObject = true ∧ (labelOf H p).isObject = true

instance (H : Nodes) (a p : ℕ) : Decidable (BothObjects H a p) :=
  inferInstanceAs (Decidable (_ ∧ _))

/-- Whether one of the siblings has a name. -/
def hasName (H : Nodes) (s : Shape) (name : Option Text) : Bool :=
  (s.siblings.map fun y => (labelOf H y).name).contains name

/-- The members of the patch over s have no node in common with the value at a as far as the
merge touches it: the value itself, its members, and what is below those members that the
patch has names of. -/
def Apart (H : Nodes) (root : ℕ) (c : Shape) (a : ℕ) (s : Shape) : Prop :=
  ∀ y, 0 < s.count y →
    (touched (hasName H s) H a ((Shape.node root c .nil).children a)).count y = 0

/-- So it is where the two have no node in common. -/
theorem apart_of_disjoint {H : Nodes} {root a : ℕ} {c s : Shape}
    (h : ∀ y, 0 < s.count y →
      (Shape.node a ((Shape.node root c .nil).children a) .nil).count y = 0) :
    Apart H root c a s := by
  intro y hy
  have hle := count_touched_le (hasName H s) H a ((Shape.node root c .nil).children a) y
  have := h y hy
  omega

/-- The merge comes to an end and edits the document in place. -/
def MergesInPlace (H : Nodes) (r json : JsonHolder) (root : ℕ) (c : Shape) (a p : ℕ)
    (s : Shape) : Prop :=
  ∃ H' r', merge H r json = some (H', r') ∧ InPlace H H' root c a p s

variable {H H' : Nodes} {document r json m : JsonHolder} {root a p : ℕ} {v w : CJSON}
variable {c s : Shape}

section References

theorem subscript_child {o : ℕ} {l : List ℕ} {i : Subscript} (ho : m.cjson = some o)
    (hv : H.cell o = some v) (hchain : Chain H none v.child l none)
    (h : subscript H m i = .value r) : ∃ x ∈ l, r.cjson = some x := by
  cases i with
  | key val =>
    change lookUp H m val = .value r at h
    by_cases hkind : v.kind = cJSONObject
    · rw [lookUp_eq ⟨o, v, ho, hv, hkind, hchain⟩] at h
      cases hfind : l.find? fun y => stops val false (nameOf H y) with
      | none =>
        rw [hfind] at h
        cases h
      | some x =>
        rw [hfind] at h
        cases h
        exact ⟨x, List.mem_of_find?_eq_some hfind, rfl⟩
    · simp [lookUp, checkIsObject, checkKind, deref, ho, hv, hkind] at h
  | index val =>
    change lookUpIndex H m val = .value r at h
    by_cases hkind : v.kind = cJSONArray
    · have hcheck : checkIsArray H m = .value () := by
        simp [checkIsArray, checkKind, deref, ho, hv, hkind]
      rw [lookUpIndex, hcheck, ho, getArrayItem_eq hv hchain] at h
      by_cases hneg : val < 0
      · rw [if_pos hneg] at h
        cases h
      · rw [if_neg hneg] at h
        cases hget : l[val.toNat]? with
        | none =>
          rw [hget] at h
          cases h
        | some x =>
          rw [hget] at h
          cases h
          exact ⟨x, List.mem_of_getElem? hget, rfl⟩
    · simp [lookUpIndex, checkIsArray, checkKind, deref, ho, hv, hkind] at h

/-- A reference has a node of the document. -/
theorem Reference.mem (h : Reference H document r) (hdoc : Document H document root v c) :
    ∃ a, r.cjson = some a ∧ 0 < (Shape.node root c .nil).count a := by
  have hheld := hdoc.tree.alone hdoc.prev hdoc.next
  have hstep : ∀ {o : ℕ} {i : Subscript} {m r : JsonHolder}, m.cjson = some o →
      0 < (Shape.node root c .nil).count o → subscript H m i = .value r →
      ∃ a, r.cjson = some a ∧ 0 < (Shape.node root c .nil).count a := by
    intro o i m r ho hpos hsub
    obtain ⟨u, hu⟩ := hdoc.tree.live hpos
    have hchain := (hheld.children hdoc.tree.distinct hpos hu).chain
    obtain ⟨x, hx, hr⟩ := subscript_child ho hu hchain hsub
    exact ⟨x, hr, Nat.lt_of_lt_of_le (Shape.count_pos_of_mem_siblings hx)
      (Shape.count_children_le _ _ _)⟩
  induction h with
  | first h => exact hstep hdoc.cjson (count_top root c) h
  | again _ h ih =>
    obtain ⟨o, ho, hpos⟩ := ih
    exact hstep ho hpos h

end References

section Failure

/-- Where not both are objects, the target is deleted with its later siblings, and all
that follows is done with new nodes. -/
theorem mergePatch_deletes {n : ℕ} {q : Option ℕ} {caseSensitive : Bool} (hv : H.cell a = some v)
    (hw : H.cell p = some w)
    (hobjects : ¬ BothObjects H a p)
    (h : mergePatch n H (some a) (some p) caseSensitive = some (H', q)) :
    ∃ H₁, delete H.fresh H (some a) = some H₁ ∧ Beyond H₁.fresh H₁ H' := by
  cases n with
  | zero => cases h
  | succ n =>
    obtain ⟨object, hobject, h⟩ := Option.bind_eq_some_iff.mp h
    rw [isObject_eq hw] at hobject
    obtain rfl := Option.some.inj hobject
    cases hpatch : (labelOf H p).isObject with
    | false =>
      rw [hpatch, if_pos rfl] at h
      obtain ⟨H₁, hdelete, hdup⟩ := Option.bind_eq_some_iff.mp h
      exact ⟨H₁, hdelete, ((duplicate_beyond _ _).1 (confined_fresh H₁) hdup).1⟩
    | true =>
      have htarget : (labelOf H a).isObject = false := by
        cases hobj : (labelOf H a).isObject with
        | false => rfl
        | true => exact absurd ⟨hobj, hpatch⟩ hobjects
      rw [hpatch, if_neg (by decide)] at h
      obtain ⟨⟨H₂, t⟩, h₂, h⟩ := Option.bind_eq_some_iff.mp h
      obtain ⟨x, -, h⟩ := Option.bind_eq_some_iff.mp h
      obtain ⟨u, -, h⟩ := Option.bind_eq_some_iff.mp h
      obtain ⟨object, hobject, h₂⟩ := Option.bind_eq_some_iff.mp h₂
      rw [isObject_eq hv, htarget] at hobject
      rw [← Option.some.inj hobject, if_neg (by decide)] at h₂
      obtain ⟨H₁, hdelete, h₂⟩ := Option.bind_eq_some_iff.mp h₂
      obtain ⟨rfl, rfl⟩ := Prod.mk.inj (Option.some.inj h₂)
      obtain ⟨hnew, hfresh⟩ := newItem_beyond (confined_fresh H₁) (v := { type := cJSONObject })
        ⟨atLeast_none _, atLeast_none _, atLeast_none _⟩
      exact ⟨H₁, hdelete, hnew.trans
        ((mergePatch_beyond _ _ n).2 hnew.confined (atLeast_some hfresh) h).1⟩

/-- A merge of anything but two objects leaves the document with a link to a freed node. -/
theorem bothObjects_of_mergesInPlace (hdoc : Document H document root v c)
    (ha : 0 < (Shape.node root c .nil).count a) (hr : r.cjson = some a)
    (hpatch : ValueAt H json p w s) (h : MergesInPlace H r json root c a p s) :
    BothObjects H a p := by
  by_contra hobjects
  obtain ⟨H', r', hmerge, hin⟩ := h
  obtain ⟨⟨H₂, q⟩, hrun, hrest⟩ := Option.bind_eq_some_iff.mp hmerge
  obtain ⟨rfl, -⟩ := Prod.mk.inj (Option.some.inj hrest)
  obtain ⟨u, hu⟩ := hdoc.tree.live ha
  rw [hr, hpatch.cjson] at hrun
  obtain ⟨H₁, hdelete, hbeyond⟩ := mergePatch_deletes hu hpatch.tree.cell hobjects hrun
  -- the nodes that were freed are those from a on
  have hheld := hdoc.tree.alone hdoc.prev hdoc.next
  obtain ⟨q', hfrom⟩ := hheld.fromNode hdoc.tree.distinct ha
  obtain ⟨H₁', hdelete', hfresh, hcell⟩ := delete_holds hfrom (hdoc.tree.distinct.fromNode a)
  obtain rfl := Option.some.inj (hdelete.symm.trans hdelete')
  have hafter : ∀ y uy, H.cell y = some uy → H₂.cell y =
      if 0 < ((Shape.node root c .nil).fromNode a).count y then none else H.cell y := by
    intro y uy huy
    have hlt := Heap.lt_fresh huy
    rw [hbeyond.before y (by omega), hcell]
  refine hin.live a ?_ ?_
  · refine hheld.reach hdoc.tree.distinct ha fun y hy hzero => ?_
    obtain ⟨uy, huy⟩ := hdoc.tree.live hy
    rw [hafter y uy huy, if_neg (by omega)]
  · rw [hafter a u hu, if_pos (Shape.count_fromNode_self ha)]

end Failure

section Success

/-- A part of a document is a tree. -/
theorem Document.tree_below (hdoc : Document H document root v c)
    (ha : 0 < (Shape.node root c .nil).count a) :
    ∃ u, Tree H a u ((Shape.node root c .nil).children a) := by
  have hheld := hdoc.tree.alone hdoc.prev hdoc.next
  obtain ⟨u, hu, hsound⟩ := hheld.live ha
  exact ⟨u, hu, hsound, hheld.children hdoc.tree.distinct ha hu,
    distinct_tree hdoc.tree.distinct.children hdoc.tree.distinct.count_children_self⟩

/-- Objects are merged in place where the merge touches no member of the patch. -/
theorem mergesInPlace_of_bothObjects (hdoc : Document H document root v c)
    (ha : 0 < (Shape.node root c .nil).count a) (hr : r.cjson = some a)
    (hpatch : ValueAt H json p w s) (hobjects : BothObjects H a p)
    (hapart : Apart H root c a s) : MergesInPlace H r json root c a p s := by
  obtain ⟨hobject, hobject'⟩ := hobjects
  have hheld := hdoc.tree.alone hdoc.prev hdoc.next
  obtain ⟨u, hu⟩ := hdoc.tree_below ha
  have hnamed := Shape.everywhere_children hdoc.named ha
  have hkind : u.kind = cJSONObject := by
    rw [labelOf_eq hu.cell] at hobject
    exact of_decide_eq_true hobject
  obtain ⟨n, hn⟩ : ∃ n, 2 * H.fresh = n + 1 :=
    ⟨2 * H.fresh - 1, by have := Heap.lt_fresh hu.cell; omega⟩
  have hsize := hpatch.tree.size_lt
  have hnames : ∀ m ∈ (s.read (labelOf H)).labels, hasName H s m.name = true := by
    intro m hm
    rw [Shape.labels_read] at hm
    obtain ⟨y, hy, rfl⟩ := List.mem_map.mp hm
    exact List.contains_iff_mem.mpr (List.mem_map_of_mem hy)
  obtain ⟨H', u', c', hmerge, hedits, hread⟩ := (merges n).2 (p := w.child) hu hkind
    ⟨hnamed.1 hobject, hnamed.2⟩ hpatch.tree.children hpatch.tree.distinct.child
    (MergePatch.members_below hpatch.named hobject') hapart hnames (by omega)
  have hlabel : labelOf H' a = labelOf H a := by
    rw [labelOf_eq hedits.tree.cell, labelOf_eq hu.cell, hedits.place.2.2]
  have hkeep : ∀ y, 0 < (Shape.node root c .nil).count y → y ≠ a →
      ((Shape.node root c .nil).children a).count y = 0 → Same H H' y := by
    intro y _ hya hzero
    refine hedits.outside y (Nat.le_zero.mp ?_)
    refine Nat.le_trans (count_touched_le _ _ _ _ _) ?_
    rw [count_tree, if_neg (Ne.symm hya), hzero]
  have hafter : Holds H' none (some root) ((Shape.node root c .nil).setChildren a c') none :=
    hheld.setChildren hdoc.tree.distinct ha hu.cell
      ⟨u', hedits.tree.cell, hedits.place.1, hedits.place.2.1, fun _ => hedits.tree.sound,
        hedits.tree.children⟩ fun y hy hya hzero => (hkeep y hy hya hzero).1
  refine ⟨H', { r with cjson := some a }, ?_, ⟨_, hafter, ?_⟩, fun x hx => ?_⟩
  · simp only [merge, hr, hpatch.cjson, hn, mergePatch, isObject_eq hpatch.tree.cell, hobject',
      mergeTarget, isObject_eq hu.cell, hobject, hpatch.tree.cell, hmerge, Option.bind_eq_bind,
      Option.bind_some, Bool.true_eq_false, if_false, if_true]
  · rw [Shape.read_setChildren hdoc.tree.distinct ha fun y hy hya hzero => ?_, hread, hlabel]
    · simp only [MergePatch.mergePatch, hobject', MergePatch.asObject, hobject, if_true]
      rfl
    · obtain ⟨uy, huy⟩ := hdoc.tree.live hy
      exact (hkeep y hy hya hzero).2.labelOf_eq huy
  · obtain ⟨ux, hux, -⟩ := hafter.live (hafter.count_of_reach hx)
    rw [hux]
    exact Option.some_ne_none ux

end Success

/-- Merging through a reference edits the document in place if and only if the value there
and the patch are objects. Where the merge touches members of the patch, only one direction
holds. -/
theorem merge_inPlace (hdoc : Document H document root v c) (href : Reference H document r)
    (hr : r.cjson = some a) (hpatch : ValueAt H json p w s) :
    (MergesInPlace H r json root c a p s → BothObjects H a p) ∧
      (Apart H root c a s → (MergesInPlace H r json root c a p s ↔ BothObjects H a p)) := by
  obtain ⟨b, hb, hpos⟩ := href.mem hdoc
  obtain rfl : b = a := Option.some.inj (hb.symm.trans hr)
  have honly := bothObjects_of_mergesInPlace hdoc hpos hr hpatch
  refine ⟨honly, fun hapart => ⟨honly, fun hobjects => ?_⟩⟩
  exact mergesInPlace_of_bothObjects hdoc hpos hr hpatch hobjects hapart

section Inputs

/-- The nodes with addresses from 0 on. -/
def nodes (cells : List CJSON) : Nodes := cells.foldl Heap.alloc Heap.empty

theorem sound_of_plain {u : CJSON} (h : u.isReference = false) : Linked.sound u := by
  intro h'
  rw [h] at h'
  cases h'

/-- A value of one node. -/
theorem tree_leaf {u : CJSON} (hu : H.cell a = some u) (hplain : u.isReference = false)
    (hchild : u.child = none) : Tree H a u .nil :=
  ⟨hu, sound_of_plain hplain, hchild, distinct_leaf a⟩

/-- A value with one child. -/
theorem tree_child {b : ℕ} {u u' : CJSON} (hu : H.cell a = some u)
    (hplain : u.isReference = false) (hchild : u.child = some b) (hb : Tree H b u' s)
    (hprev : u'.prev = none) (hnext : u'.next = none)
    (ha : (Shape.node b s .nil).count a = 0) : Tree H a u (.node b s .nil) :=
  ⟨hu, sound_of_plain hplain, hchild ▸ hb.alone hprev hnext, distinct_tree hb.distinct ha⟩

/-- The document `{"a":{"x":true}}` at 0 and the patch `{"x":null}` at 3. -/
def nested : Nodes := nodes [
  { type := cJSONObject, child := some 1 },
  { type := cJSONObject, child := some 2, string := some ⟨[97], by decide⟩ },
  { type := cJSONTrue, string := some ⟨[120], by decide⟩ },
  { type := cJSONObject, child := some 4 },
  { type := cJSONNull, string := some ⟨[120], by decide⟩ }]

theorem merge_inPlace_nested :
    MergesInPlace nested ⟨some 1, true⟩ ⟨some 3, false⟩ 0 (.node 1 (.node 2 .nil .nil) .nil) 1 3
      (.node 4 .nil .nil) := by
  have hleaf : Tree nested 2 _ .nil := tree_leaf rfl rfl rfl
  have hmember : Tree nested 1 _ (.node 2 .nil .nil) := tree_child rfl rfl rfl hleaf rfl rfl rfl
  have htree : Tree nested 0 _ (.node 1 (.node 2 .nil .nil) .nil) :=
    tree_child rfl rfl rfl hmember rfl rfl rfl
  have hpatch : Tree nested 3 _ (.node 4 .nil .nil) :=
    tree_child rfl rfl rfl (tree_leaf rfl rfl rfl) rfl rfl rfl
  have hdoc : Document nested ⟨some 0, false⟩ 0 _ (.node 1 (.node 2 .nil .nil) .nil) :=
    ⟨⟨rfl, htree, by decide⟩, rfl, rfl⟩
  have href : Reference nested ⟨some 0, false⟩ ⟨some 1, true⟩ :=
    .first (i := .key ⟨[97], by decide⟩) rfl
  refine ((merge_inPlace hdoc href rfl ⟨rfl, hpatch, by decide⟩).2 ?_).mpr (by decide)
  refine apart_of_disjoint fun y hy => ?_
  change 0 < (Shape.node 4 .nil .nil).count y at hy
  change (Shape.node 1 (.node 2 .nil .nil) .nil).count y = 0
  simp only [Shape.count_node, Shape.count_nil] at hy ⊢
  split_ifs at hy ⊢ <;> omega

/-- The document `{"a":{"x":{"a":true}}}`. -/
def nestedTwice : Nodes := nodes [
  { type := cJSONObject, child := some 1 },
  { type := cJSONObject, child := some 2, string := some ⟨[97], by decide⟩ },
  { type := cJSONObject, child := some 3, string := some ⟨[120], by decide⟩ },
  { type := cJSONTrue, string := some ⟨[97], by decide⟩ }]

/-- The value of `a` is merged with its own member `x`, where nothing is named `x`. -/
example : MergesInPlace nestedTwice ⟨some 1, true⟩ ⟨some 2, true⟩ 0
    (.node 1 (.node 2 (.node 3 .nil .nil) .nil) .nil) 1 2 (.node 3 .nil .nil) := by
  have hleaf : Tree nestedTwice 3 _ .nil := tree_leaf rfl rfl rfl
  have hpatch : Tree nestedTwice 2 _ (.node 3 .nil .nil) := tree_child rfl rfl rfl hleaf rfl rfl rfl
  have hmember : Tree nestedTwice 1 _ (.node 2 (.node 3 .nil .nil) .nil) :=
    tree_child rfl rfl rfl hpatch rfl rfl rfl
  have htree : Tree nestedTwice 0 _ (.node 1 (.node 2 (.node 3 .nil .nil) .nil) .nil) :=
    tree_child rfl rfl rfl hmember rfl rfl rfl
  have hdoc : Document nestedTwice ⟨some 0, false⟩ 0 _
      (.node 1 (.node 2 (.node 3 .nil .nil) .nil) .nil) := ⟨⟨rfl, htree, by decide⟩, rfl, rfl⟩
  refine mergesInPlace_of_bothObjects hdoc (by decide) rfl ⟨rfl, hpatch, by decide⟩
    (by decide) fun y hy => ?_
  change (Shape.node 1 (.node 2 .nil .nil) .nil).count y = 0
  simp only [Shape.count_node, Shape.count_nil] at hy ⊢
  split_ifs at hy ⊢ <;> omega

/-- The document `{"a":true}` at 0 and the patch `false` at 2. -/
def flags : Nodes := nodes [
  { type := cJSONObject, child := some 1 },
  { type := cJSONTrue, string := some ⟨[97], by decide⟩ },
  { type := cJSONFalse }]

/-- The document links to the freed `true` afterwards. -/
theorem merge_links_freed :
    ¬ ∀ (H : Nodes) (document r json : JsonHolder) (root a p : ℕ) (v w : CJSON) (c s : Shape),
      Document H document root v c → Reference H document r → r.cjson = some a →
        ValueAt H json p w s → MergesInPlace H r json root c a p s := by
  intro h
  have hleaf : Tree flags 1 _ .nil := tree_leaf rfl rfl rfl
  have htree : Tree flags 0 _ (.node 1 .nil .nil) := tree_child rfl rfl rfl hleaf rfl rfl rfl
  have hpatch : Tree flags 2 _ .nil := tree_leaf rfl rfl rfl
  have hdoc : Document flags ⟨some 0, false⟩ 0 _ (.node 1 .nil .nil) :=
    ⟨⟨rfl, htree, by decide⟩, rfl, rfl⟩
  have href : Reference flags ⟨some 0, false⟩ ⟨some 1, true⟩ :=
    .first (i := .key ⟨[97], by decide⟩) rfl
  have hvalue : ValueAt flags ⟨some 2, false⟩ 2 _ .nil := ⟨rfl, hpatch, by decide⟩
  have hin := h _ _ _ _ _ _ _ _ _ _ _ hdoc href rfl hvalue
  exact absurd (bothObjects_of_mergesInPlace hdoc (by decide) rfl hvalue hin) (by decide)

end Inputs

end BoxUtils.Json
