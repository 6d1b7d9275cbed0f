import Mathlib.Data.List.Lex
import BoxUtils.CJsonSorted
import BoxUtils.JsonLookup
import BoxUtils.JsonValues
import BoxUtils.Siblings

/-!
Sorting the children of a node. The node keeps its children, with all that is below them; they
come in the order of their names, and the ones with equal names in the opposite of the order
they had. Children without names, as the elements of a parsed array, are reversed. An element
that was copied from an object keeps its name, and such an array is ordered by the names.
-/
namespace BoxUtils.CJson

open LinkedShapes MergeSorting

variable {H H' : Nodes} {caseSensitive : Bool} {a : ℕ} {v : CJSON} {c : Shape}

section Names

/-- The comparison is that of the converted bytes in the order of the words. -/
theorem compareBytes_neg_iff {convert : UInt8 → UInt8} (hconvert : ∀ b, b ≠ 0 → convert b ≠ 0)
    {s t : List UInt8} (ht : 0 ∉ t) :
    compareBytes convert s t < 0 ↔
      s.map (fun b => (convert b).toNat) < t.map fun b => (convert b).toNat := by
  induction s generalizing t with
  | nil =>
    cases t with
    | nil => simp [compareBytes]
    | cons b t =>
      have hb : (convert b).toNat ≠ 0 := by
        intro h
        exact hconvert b (fun h => ht (by simp [h])) (UInt8.toNat_inj.mp h)
      rw [compareBytes, List.map_nil, List.map_cons]
      exact iff_of_true (by omega) (List.nil_lt_cons _ _)
  | cons a s ih =>
    cases t with
    | nil =>
      rw [compareBytes, List.map_nil, List.map_cons]
      exact iff_of_false (by omega) (List.not_lt_nil _)
    | cons b t =>
      have hrest := ih (t := t) fun h => ht (List.mem_cons_of_mem _ h)
      rw [compareBytes, List.map_cons, List.map_cons, List.cons_lt_cons_iff]
      split
      · rename_i heq
        simp only [heq, Nat.lt_irrefl, false_or, true_and, hrest]
      · rename_i hne
        have hne' : (convert a).toNat ≠ (convert b).toNat := fun h => hne (UInt8.toNat_inj.mp h)
        simp only [hne', false_and, or_false]
        omega

def lessText (caseSensitive : Bool) (s t : Text) : Bool :=
  decide (compareStrings (some s) (some t) caseSensitive < 0)

theorem weakOrder_lessText (caseSensitive : Bool) : WeakOrder (lessText caseSensitive) := by
  have hconvert : ∀ b, b ≠ 0 → (if caseSensitive then id else tolower) b ≠ 0 := by
    intro b hb
    cases caseSensitive with
    | true => exact hb
    | false => exact Json.tolower_ne_zero hb
  have hless : ∀ s t : Text, lessText caseSensitive s t = true ↔
      s.1.map (fun b => ((if caseSensitive then id else tolower) b).toNat) <
        t.1.map fun b => ((if caseSensitive then id else tolower) b).toNat := by
    intro s t
    rw [lessText, decide_eq_true_iff]
    exact compareBytes_neg_iff hconvert t.2
  have hnot : ∀ s t : Text, lessText caseSensitive s t = false ↔
      t.1.map (fun b => ((if caseSensitive then id else tolower) b).toNat) ≤
        s.1.map fun b => ((if caseSensitive then id else tolower) b).toNat := by
    intro s t
    rw [← not_lt, ← hless, Bool.not_eq_true]
  constructor
  · intro s t h
    exact (hnot t s).mpr ((hless s t).mp h).le
  · intro r s t hrs hst
    exact (hnot t r).mpr (((hnot s r).mp hrs).trans ((hnot t s).mp hst))

/-- The name of an item, and an empty one where it has none. -/
def keyOf (H : Nodes) (x : ℕ) : Text := (nameOf H x).getD (Json.cStr [])

/-- Items that have names are compared like their names. -/
theorem lessName_named {l : List ℕ} (h : ∀ x ∈ l, nameOf H x ≠ none) {x y : ℕ} (hx : x ∈ l)
    (hy : y ∈ l) :
    lessName H caseSensitive x y = lessText caseSensitive (keyOf H x) (keyOf H y) := by
  obtain ⟨s, hs⟩ := Option.ne_none_iff_exists'.mp (h x hx)
  obtain ⟨t, ht⟩ := Option.ne_none_iff_exists'.mp (h y hy)
  rw [lessName, lessText, keyOf, keyOf, hs, ht, Option.getD_some, Option.getD_some]

theorem lessName_unnamed {x y : ℕ} (hx : nameOf H x = none) :
    lessName H caseSensitive x y = false := by
  rw [lessName, hx]
  exact decide_eq_false (by simp [compareStrings])

end Names

section Objects

/-- The children in the order of their names. -/
def sortedShape (H : Nodes) (caseSensitive : Bool) (c : Shape) : Shape :=
  .ofTrees (sorted (fun s t => lessName H caseSensitive s.1 t.1) c.trees)

theorem siblings_sortedShape (H : Nodes) (caseSensitive : Bool) (c : Shape) :
    (sortedShape H caseSensitive c).siblings = sorted (lessName H caseSensitive) c.siblings := by
  rw [sortedShape, Shape.siblings_ofTrees, map_sorted, Shape.map_trees]

theorem sortedShape_perm (H : Nodes) (caseSensitive : Bool) (c : Shape) :
    (sortedShape H caseSensitive c).trees.Perm c.trees := by
  rw [sortedShape, Shape.trees_ofTrees]
  exact sorted_perm _ _

/-- What a sort leaves: the node with its children in another order. -/
structure SortsTree (H H' : Nodes) (a : ℕ) (v v' : CJSON) (c c' : Shape) : Prop where
  tree : Tree H' a v' c'
  place : SamePlace v v'
  relinks : Relinks H H'
  others : ∀ y, y ≠ a → y ∉ c.siblings → H'.cell y = H.cell y

theorem Rewires.relinks {l : List ℕ} (h : Rewires H H' l) : Relinks H H' where
  fresh := h.fresh
  label y u hu := by
    obtain ⟨prev, next, hu'⟩ := h.items y u hu
    exact ⟨_, hu', rfl⟩

theorem sortObject_tree (h : Tree H a v c) (caseSensitive : Bool) :
    ∃ H' v', sortObject caseSensitive H (some a) = some H' ∧
      SortsTree H H' a v v' c (sortedShape H caseSensitive c) := by
  obtain ⟨hcell, hsound, hchildren, hdistinct⟩ := h
  obtain ⟨hchain, hbelow⟩ := holds_iff_trees.mp hchildren
  obtain ⟨H₁, child, hsort, hrewires, hsorted⟩ :=
    sortList_eq caseSensitive hchain hchain.length_le
  have hca : c.count a = 0 := by
    have := hdistinct a
    rw [count_tree, if_pos rfl] at this
    omega
  have hc : c.Distinct := by
    intro y
    have := hdistinct y
    rw [count_tree] at this
    omega
  have ha : a ∉ c.siblings := fun hmem => by
    have := Shape.count_pos_of_mem_siblings hmem
    omega
  have hcell₁ : H₁.cell a = some v := (hrewires.others a ha).trans hcell
  have hput : ∀ y, y ≠ a → (H₁.put a { v with child := child }).cell y = H₁.cell y :=
    fun y hy => Heap.cell_put_of_ne H₁ _ hy
  have hperm := sortedShape_perm H caseSensitive c
  have hmodify := modify_relinks (f := fun o => { o with child := child })
    (Heap.modify_eq hcell₁ _) fun _ => rfl
  refine ⟨H₁.put a { v with child := child }, { v with child := child }, ?_, ⟨?_, ?_, ?_, ?_⟩,
    ⟨rfl, rfl, rfl⟩, hrewires.relinks.trans hmodify, fun y hya hy => ?_⟩
  · simp only [sortObject, hcell, hsort, Heap.modify_eq hcell₁, Option.bind_eq_bind,
      Option.bind_some]
  · exact Heap.cell_put_self hcell₁ _
  · intro href
    obtain ⟨hnone, hkind⟩ := hsound href
    refine ⟨?_, hkind⟩
    -- a reference has no children to be sorted
    rw [hnone] at hchain
    have hempty : c.siblings = [] := by
      cases hl : c.siblings with
      | nil => rfl
      | cons b l => rw [hl] at hchain; cases hchain.1
    rw [hempty, sorted_of_ascends rfl] at hsorted
    exact hsorted
  · refine holds_iff_trees.mpr ⟨?_, fun s hs => ?_⟩
    · rw [siblings_sortedShape]
      refine hsorted.frame fun y hy u hu => ⟨u, ?_, rfl, rfl⟩
      rw [hput y fun heq => ha (heq ▸ mem_sorted.mp hy), hu]
    · have hs' := hperm.mem_iff.mp hs
      obtain ⟨u, hu, husound, hunder⟩ := hbelow s hs'
      obtain ⟨prev, next, hu₁⟩ := hrewires.items s.1 u hu
      have hmem : s.1 ∈ c.siblings := by
        rw [← Shape.map_trees]
        exact List.mem_map_of_mem hs'
      refine ⟨_, (hput s.1 fun heq => ha (heq ▸ hmem)).trans hu₁, husound, ?_⟩
      refine hunder.congr fun y hy => ?_
      have hya : y ≠ a := by
        rintro rfl
        have := Shape.count_tree_le hs' y
        rw [Shape.count_node, Shape.count_nil] at this
        omega
      have hys : y ∉ c.siblings := fun hmem => by
        rw [Shape.count_below hc hs' hmem] at hy
        exact Nat.lt_irrefl 0 hy
      rw [hput y hya, hrewires.others y hys]
  · refine distinct_tree (fun y => ?_) ?_
    · rw [Shape.count_perm hperm]
      exact hc y
    · rw [Shape.count_perm hperm, hca]
  · rw [hput y hya, hrewires.others y hy]

theorem sorted_named {l : List ℕ} (h : ∀ x ∈ l, nameOf H x ≠ none) :
    sorted (lessName H caseSensitive) l =
      sorted (fun x y => lessText caseSensitive (keyOf H x) (keyOf H y)) l :=
  sorted_congr fun _ hx _ hy => lessName_named h hx hy

/-- Children that have names come in order, the ones with equal names in the opposite of the
order they had. -/
theorem siblings_ordered (h : ∀ x ∈ c.siblings, nameOf H x ≠ none) :
    (sortedShape H caseSensitive c).siblings.Pairwise
        (fun x y => lessName H caseSensitive y x = false) ∧
      ∀ x ∈ c.siblings, (sortedShape H caseSensitive c).siblings.filter
        (tied (lessName H caseSensitive) x) =
          (c.siblings.filter (tied (lessName H caseSensitive) x)).reverse := by
  have horder := (weakOrder_lessText caseSensitive).comap (keyOf H)
  rw [siblings_sortedShape, sorted_named h]
  constructor
  · refine (pairwise_sorted horder c.siblings).imp_of_mem fun {x y} hx hy hxy => ?_
    rw [lessName_named h (mem_sorted.mp hy) (mem_sorted.mp hx)]
    exact hxy
  · intro x hx
    have htied : ∀ y ∈ c.siblings, tied (lessName H caseSensitive) x y =
        tied (fun x y => lessText caseSensitive (keyOf H x) (keyOf H y)) x y := by
      intro y hy
      rw [tied, tied, lessName_named h hx hy, lessName_named h hy hx]
    rw [List.filter_congr htied, List.filter_congr fun y hy => htied y (mem_sorted.mp hy)]
    exact filter_sorted horder x c.siblings

/-- Children without names all compare alike. -/
theorem trees_reversed (h : ∀ x ∈ c.siblings, nameOf H x = none) :
    (sortedShape H caseSensitive c).trees = c.trees.reverse := by
  rw [sortedShape, Shape.trees_ofTrees]
  refine sorted_tied fun s hs t _ => lessName_unnamed (h s.1 ?_)
  rw [← Shape.map_trees]
  exact List.mem_map_of_mem hs

end Objects

end BoxUtils.CJson

namespace BoxUtils.Json

open CJson LinkedShapes MergeSorting

def sort (H : Nodes) (holder : JsonHolder) (caseSensitive : Bool) : Option Nodes :=
  sortObject caseSensitive H holder.cjson

/-- `Json::sort` puts the children of a node in another order and changes nothing else. The
members of an object come in the order of their names, and those with equal names in the
opposite of the order they had; children without names are reversed. -/
theorem sort_orders {H : Nodes} {holder : JsonHolder} {a : ℕ} {v : CJSON} {c : Shape}
    (h : Tree H a v c) (hholder : holder.cjson = some a) (caseSensitive : Bool) :
    ∃ H' v' c', sort H holder caseSensitive = some H' ∧ SortsTree H H' a v v' c c' ∧
      c'.trees.Perm c.trees ∧
      ((∀ x ∈ c.siblings, nameOf H x ≠ none) →
        c'.siblings.Pairwise (fun x y => lessName H caseSensitive y x = false) ∧
        ∀ x ∈ c.siblings, c'.siblings.filter (tied (lessName H caseSensitive) x) =
          (c.siblings.filter (tied (lessName H caseSensitive) x)).reverse) ∧
      ((∀ x ∈ c.siblings, nameOf H x = none) → c'.trees = c.trees.reverse) := by
  obtain ⟨H', v', hsort, hsorts⟩ := sortObject_tree h caseSensitive
  refine ⟨H', v', sortedShape H caseSensitive c, ?_, hsorts, sortedShape_perm H caseSensitive c,
    siblings_ordered, trees_reversed⟩
  rw [sort, hholder, hsort]

/-- The object `{"b":null,"A":null}`. -/
def unsorted : Nodes :=
  ((Heap.empty.alloc { type := cJSONObject, child := some 1 }).alloc
    { type := cJSONNull, next := some 2, string := some (cStr [98]) }).alloc
      { type := cJSONNull, prev := some 1, string := some (cStr [65]) }

theorem tree_unsorted :
    Tree unsorted 0 { type := cJSONObject, child := some 1 }
      (.node 1 .nil (.node 2 .nil .nil)) where
  cell := rfl
  sound := nofun
  children := ⟨rfl, _, rfl, rfl, nofun, rfl, rfl, _, rfl, rfl, nofun, rfl, rfl⟩
  distinct y := by
    simp only [Shape.count_node, Shape.count_nil]
    split_ifs <;> omega

theorem sort_orders_unsorted :
    ∃ H' v' c', sort unsorted ⟨some 0, true⟩ false = some H' ∧
      SortsTree unsorted H' 0 { type := cJSONObject, child := some 1 } v'
        (.node 1 .nil (.node 2 .nil .nil)) c' ∧
      c'.siblings.Pairwise fun x y => lessName unsorted false y x = false := by
  obtain ⟨H', v', c', hsort, hsorts, -, hnamed, -⟩ :=
    sort_orders tree_unsorted (show (⟨some 0, true⟩ : JsonHolder).cjson = some 0 from rfl)
      false
  exact ⟨H', v', c', hsort, hsorts, (hnamed (by decide)).1⟩

end BoxUtils.Json
