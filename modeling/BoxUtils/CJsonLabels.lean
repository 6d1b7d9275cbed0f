import BoxUtils.JsonForest
import BoxUtils.MergePatch

/-!
What the cJSON functions leave of the labels of the nodes. Each rule says which
tree a node has afterwards, how it reads, and that the nodes elsewhere keep their
links and labels.
-/
namespace BoxUtils.CJson

open LinkedShapes MergePatch

/-- What a node says in a document. -/
def CJSON.label (c : CJSON) : Label := ⟨c.string, c.kind, c.valuestring, c.valueint, c.valuedouble⟩

def labelOf (H : Nodes) (a : ℕ) : Label := ((H.cell a).getD {}).label

variable {H H' H₁ H₂ : Nodes} {a b x y : ℕ} {p q : Option ℕ} {v w u : CJSON}
variable {c s t before under behind : Shape}

theorem labelOf_eq (hv : H.cell a = some v) : labelOf H a = v.label := by
  rw [labelOf, hv, Option.getD_some]

section Keeping

def KeepsLabel (H H' : Nodes) (y : ℕ) : Prop :=
  ∀ u, H.cell y = some u → ∃ u', H'.cell y = some u' ∧ u'.label = u.label

/-- A live node keeps its links and its label. -/
def Same (H H' : Nodes) (y : ℕ) : Prop := Keeps H H' y ∧ KeepsLabel H H' y

theorem KeepsLabel.trans (h₁ : KeepsLabel H H₁ y) (h₂ : KeepsLabel H₁ H₂ y) :
    KeepsLabel H H₂ y := by
  intro u hu
  obtain ⟨u₁, hu₁, hlabel₁⟩ := h₁ u hu
  obtain ⟨u₂, hu₂, hlabel₂⟩ := h₂ u₁ hu₁
  exact ⟨u₂, hu₂, hlabel₂.trans hlabel₁⟩

theorem KeepsLabel.labelOf_eq (h : KeepsLabel H H' y) (hu : H.cell y = some u) :
    labelOf H' y = labelOf H y := by
  obtain ⟨u', hu', hlabel⟩ := h u hu
  rw [CJson.labelOf_eq hu', CJson.labelOf_eq hu, hlabel]

theorem Same.of_eq (h : H'.cell y = H.cell y) : Same H H' y :=
  ⟨Keeps.of_eq h, fun u hu => ⟨u, h.trans hu, rfl⟩⟩

theorem Same.trans (h₁ : Same H H₁ y) (h₂ : Same H₁ H₂ y) : Same H H₂ y := by
  refine ⟨fun u hu => ?_, h₁.2.trans h₂.2⟩
  obtain ⟨u₁, hu₁, hprev₁, hnext₁, hchild₁, hsound₁⟩ := h₁.1 u hu
  obtain ⟨u₂, hu₂, hprev₂, hnext₂, hchild₂, hsound₂⟩ := h₂.1 u₁ hu₁
  exact ⟨u₂, hu₂, hprev₂.trans hprev₁, hnext₂.trans hnext₁, hchild₂.trans hchild₁,
    hsound₂ ∘ hsound₁⟩

theorem Same.live (h : Same H H' y) (hu : H.cell y = some u) : ∃ u', H'.cell y = some u' :=
  (h.2 u hu).imp fun _ => And.left

/-- A held shape that keeps its labels reads the same. -/
theorem read_eq {e : Option ℕ} (h : Holds H q p t e)
    (hkeep : ∀ y, 0 < t.count y → KeepsLabel H H' y) :
    t.read (labelOf H') = t.read (labelOf H) := by
  refine Shape.read_congr fun y hy => ?_
  obtain ⟨u, hu, -⟩ := h.live hy
  exact (hkeep y hy).labelOf_eq hu

end Keeping

section Relinking

/-- Only links were changed. -/
structure Relinks (H H' : Nodes) : Prop where
  fresh : H'.fresh = H.fresh
  label : ∀ y, KeepsLabel H H' y

theorem Relinks.refl (H : Nodes) : Relinks H H := ⟨rfl, fun _ u hu => ⟨u, hu, rfl⟩⟩

theorem Relinks.trans (h₁ : Relinks H H₁) (h₂ : Relinks H₁ H₂) : Relinks H H₂ :=
  ⟨h₂.fresh.trans h₁.fresh, fun y => (h₁.label y).trans (h₂.label y)⟩

theorem modify_relinks {f : CJSON → CJSON} (h : H.modify a f = some H')
    (hf : ∀ u, (f u).label = u.label) : Relinks H H' := by
  obtain ⟨v, hv, rfl⟩ := Option.map_eq_some_iff.mp h
  refine ⟨rfl, fun y u hu => ?_⟩
  by_cases hya : y = a
  · subst y
    obtain rfl := Option.some.inj (hv.symm.trans hu)
    exact ⟨f v, Heap.cell_put_self hv _, hf v⟩
  · exact ⟨u, (Heap.cell_put_of_ne H _ hya).trans hu, rfl⟩

theorem modifyPointer_relinks {f : CJSON → CJSON} (h : modifyPointer H p f = some H')
    (hf : ∀ u, (f u).label = u.label) : Relinks H H' := by
  cases p with
  | none =>
    obtain rfl := Option.some.inj h
    exact Relinks.refl H
  | some a => exact modify_relinks h hf

theorem suffixObject_relinks (h : suffixObject H p b = some H') : Relinks H H' := by
  obtain ⟨a, rfl, h⟩ := Option.bind_eq_some_iff.mp h
  obtain ⟨H₁, h₁, h₂⟩ := Option.bind_eq_some_iff.mp h
  exact (modify_relinks h₁ fun _ => rfl).trans (modify_relinks h₂ fun _ => rfl)

theorem crosswire_relinks (h : crosswire H a p b = some H') : Relinks H H' := by
  cases p with
  | none => exact modify_relinks h fun _ => rfl
  | some l => exact suffixObject_relinks h

theorem addItemToArray_relinks {ok : Bool}
    (h : addItemToArray H (some a) (some b) = some (H', ok)) : Relinks H H' := by
  obtain ⟨v, hv, h⟩ := Option.bind_eq_some_iff.mp h
  cases hchild : v.child with
  | none =>
    rw [hchild] at h
    obtain ⟨H₁, h₁, h₂⟩ := Option.bind_eq_some_iff.mp h
    obtain ⟨rfl, -⟩ := Prod.mk.inj (Option.some.inj h₂)
    exact modify_relinks h₁ fun _ => rfl
  | some d =>
    rw [hchild] at h
    obtain ⟨l, -, h⟩ := Option.bind_eq_some_iff.mp h
    obtain ⟨H₁, h₁, h₂⟩ := Option.bind_eq_some_iff.mp h
    obtain ⟨rfl, -⟩ := Prod.mk.inj (Option.some.inj h₂)
    exact suffixObject_relinks h₁

theorem detachItemViaPointer_relinks {r : Option ℕ}
    (h : detachItemViaPointer H (some a) (some x) = some (H', r)) : Relinks H H' := by
  obtain ⟨v, -, h⟩ := Option.bind_eq_some_iff.mp h
  obtain ⟨H₁, h₁, h⟩ := Option.bind_eq_some_iff.mp h
  obtain ⟨v₁, -, h⟩ := Option.bind_eq_some_iff.mp h
  obtain ⟨H₂, h₂, h⟩ := Option.bind_eq_some_iff.mp h
  obtain ⟨v₂, -, h⟩ := Option.bind_eq_some_iff.mp h
  obtain ⟨H₃, h₃, h⟩ := Option.bind_eq_some_iff.mp h
  obtain ⟨H₄, h₄, h⟩ := Option.bind_eq_some_iff.mp h
  obtain ⟨rfl, -⟩ := Prod.mk.inj (Option.some.inj h)
  have hchild : ∀ d : CJSON,
      (if d.child = some x then { d with child := v₂.next } else d).label = d.label := by
    intro d
    split <;> rfl
  have h₁₂ := (modifyPointer_relinks h₁ fun _ => rfl).trans
    (modifyPointer_relinks h₂ fun _ => rfl)
  exact (h₁₂.trans (modify_relinks h₃ hchild)).trans (modify_relinks h₄ fun _ => rfl)

end Relinking

section Trees

/-- A node with the shape of what is below it. -/
structure Tree (H : Nodes) (a : ℕ) (v : CJSON) (c : Shape) : Prop where
  cell : H.cell a = some v
  sound : Linked.sound v
  children : Holds H none v.child c none
  distinct : (Shape.node a c .nil).Distinct

/-- Two states of a node, at the same place and with the same label. -/
def SamePlace (v v' : CJSON) : Prop := v'.prev = v.prev ∧ v'.next = v.next ∧ v'.label = v.label

theorem SamePlace.trans (h₁ : SamePlace v w) (h₂ : SamePlace w u) : SamePlace v u :=
  ⟨h₂.1.trans h₁.1, h₂.2.1.trans h₁.2.1, h₂.2.2.trans h₁.2.2⟩

theorem count_tree (a : ℕ) (c : Shape) (y : ℕ) :
    (Shape.node a c .nil).count y = (if a = y then 1 else 0) + c.count y := by
  rw [Shape.count_node, Shape.count_nil, Nat.add_zero]

theorem count_top (a : ℕ) (c : Shape) : 0 < (Shape.node a c .nil).count a := by
  rw [count_tree, if_pos rfl]
  omega

theorem count_below {a y : ℕ} {c : Shape} (h : (Shape.node a c .nil).count y = 0) :
    y ≠ a ∧ c.count y = 0 := by
  rw [count_tree] at h
  refine ⟨?_, by omega⟩
  rintro rfl
  rw [if_pos rfl] at h
  omega

theorem distinct_tree (hd : c.Distinct) (ha : c.count a = 0) :
    (Shape.node a c .nil).Distinct := by
  intro y
  have hle := hd y
  rw [count_tree]
  split
  case isTrue hay =>
    rw [← hay, ha]
  case isFalse => omega

theorem distinct_leaf (a : ℕ) : (Shape.node a .nil .nil).Distinct :=
  distinct_tree (fun _ => Nat.zero_le 1) rfl

theorem Tree.live (h : Tree H a v c) (hy : 0 < (Shape.node a c .nil).count y) :
    ∃ u, H.cell y = some u := by
  rw [count_tree] at hy
  by_cases hay : a = y
  · exact ⟨v, hay ▸ h.cell⟩
  · rw [if_neg hay, Nat.zero_add] at hy
    exact (h.children.live hy).imp fun _ => And.left

theorem Tree.size_lt (h : Tree H a v c) : c.size < H.fresh := by
  have hsize := h.distinct.size_le (N := H.fresh) fun y hy => by
    obtain ⟨u, hu⟩ := h.live hy
    exact Heap.lt_fresh hu
  rw [Shape.size, Shape.size] at hsize
  omega

/-- A tree of its own. -/
theorem Tree.alone (h : Tree H a v c) (hprev : v.prev = none) (hnext : v.next = none) :
    Holds H none (some a) (.node a c .nil) none :=
  ⟨rfl, v, h.cell, hprev, h.sound, h.children, hnext⟩

theorem tree_of_holds (h : Holds H q (some a) (.node a c .nil) none)
    (hd : (Shape.node a c .nil).Distinct) :
    ∃ v, Tree H a v c ∧ v.prev = q ∧ v.next = none := by
  obtain ⟨-, v, hv, hprev, hsound, hc, hnext⟩ := h
  exact ⟨v, ⟨hv, hsound, hc, hd⟩, hprev, hnext⟩

theorem Tree.frame (h : Tree H a v c)
    (hkeep : ∀ y, 0 < (Shape.node a c .nil).count y → Same H H' y) :
    ∃ v', Tree H' a v' c ∧ SamePlace v v' := by
  obtain ⟨v', hv', hprev, hnext, hchild, hsound⟩ := (hkeep a (count_top a c)).1 v h.cell
  obtain ⟨u', hu', hlabel⟩ := (hkeep a (count_top a c)).2 v h.cell
  obtain rfl := Option.some.inj (hv'.symm.trans hu')
  refine ⟨v', ⟨hv', hsound h.sound, ?_, h.distinct⟩, hprev, hnext, hlabel⟩
  rw [linked_child, linked_child] at hchild
  rw [hchild]
  exact h.children.frame fun y hy => (hkeep y (by rw [count_tree]; omega)).1

theorem Tree.congr (h : Tree H a v c)
    (heq : ∀ y, 0 < (Shape.node a c .nil).count y → H'.cell y = H.cell y) : Tree H' a v c where
  cell := (heq a (count_top a c)).trans h.cell
  sound := h.sound
  children := h.children.congr fun y hy => heq y (by rw [count_tree]; omega)
  distinct := h.distinct

end Trees

section Steps

/-- Cutting out a child leaves the others, and the child is a tree of its own. -/
theorem detach_tree (h : Tree H a v (before.append (.node x under behind))) :
    ∃ H' v', detachItemViaPointer H (some a) (some x) = some (H', some x) ∧
      Tree H' a v' (before.append behind) ∧ SamePlace v v' ∧
      Holds H' none (some x) (.node x under .nil) none ∧ Relinks H H' ∧
      ∀ y, y ≠ a → y ∉ (before.append (.node x under behind)).siblings → Keeps H H' y := by
  have hself := h.distinct.top.1
  have hd := h.distinct.child
  have hchain := h.children.chain
  have hx : x ∈ (before.append (.node x under behind)).siblings := by
    rw [Shape.siblings_append]
    exact List.mem_append_right _ (List.mem_cons_self ..)
  obtain ⟨w, hw⟩ := hchain.live hx
  obtain ⟨hprev, hnext⟩ := neighbours_live hchain hx hw
  have hlive : H.cell a ≠ none := by simp [h.cell]
  obtain ⟨H', hdetach, hmove⟩ := detachItemViaPointer_detaches hlive hw hprev hnext
  have hrelinks := detachItemViaPointer_relinks hdetach
  obtain ⟨v', hv', hprev', hnext', hchild', hsound'⟩ := hmove.link a v h.cell
  obtain ⟨u', hu', hlabel⟩ := hrelinks.label a v h.cell
  obtain rfl := Option.some.inj (hv'.symm.trans hu')
  obtain ⟨hax, han, hap⟩ := h.children.outside_ne hw (Shape.not_mem_siblings hself)
  rw [if_neg hax, if_neg han] at hprev'
  rw [if_neg hax, if_neg hap] at hnext'
  simp only [true_and] at hchild'
  refine ⟨H', v', hdetach, ⟨hv', hsound' h.sound, ?_, fun y => ?_⟩, ⟨hprev', hnext', hlabel⟩,
    hmove.cut h.children hd hw hself, hrelinks, fun y hya hy => ?_⟩
  · have hrest := hmove.rest h.children hd hw hself
    rw [linked_child, linked_child] at hchild'
    rwa [hchild']
  · have hle := h.distinct y
    rw [count_tree, Shape.count_append] at hle ⊢
    rw [Shape.count_node] at hle
    omega
  · obtain ⟨hyx, hyn, hyp⟩ := h.children.outside_ne hw hy
    exact hmove.keeps hyx hyn hyp hya

/-- A tree of its own is put behind the last child. -/
theorem attach_tree (h : Tree H a v c) (hb : Holds H none (some b) (.node b s .nil) none)
    (hd : (Shape.node b s .nil).Distinct)
    (hapart : ∀ y, 0 < (Shape.node b s .nil).count y → (Shape.node a c .nil).count y = 0)
    (hmove : Attaches H H' b a c.siblings.getLast?) :
    ∃ v', Tree H' a v' (c.append (.node b s .nil)) ∧ v'.prev = v.prev ∧ v'.next = v.next ∧
      ∀ y, y ≠ b → y ≠ a → y ∉ c.siblings → Keeps H H' y := by
  have hself := h.distinct.top.1
  obtain ⟨hba, hbc⟩ := count_below (hapart b (count_top b s))
  have hlast : ∀ y, y ∉ c.siblings → c.siblings.getLast? ≠ some y := fun y hy heq =>
    hy (List.mem_of_getLast? heq)
  have hsa : (Shape.node b s .nil).count a = 0 := by
    by_contra hne
    exact (count_below (hapart a (Nat.pos_of_ne_zero hne))).1 rfl
  have hmoved := hmove.moved hb hd
    (fun y hy => hlast y (Shape.not_mem_siblings (count_below (hapart y hy)).2)) hsa
  have hchildren := hmove.children h.children h.distinct.child rfl hbc hself hmoved
  obtain ⟨v', hv', hprev, hnext, hchild, hsound⟩ := hmove.link a v h.cell
  rw [if_neg fun hand => hba hand.1.symm] at hprev
  rw [if_neg (hlast a (Shape.not_mem_siblings hself))] at hnext
  simp only [true_and] at hchild
  refine ⟨v', ⟨hv', hsound h.sound, ?_, fun y => ?_⟩, hprev, hnext, fun y hyb hya hy => ?_⟩
  · rw [linked_child, linked_child] at hchild
    rwa [hchild]
  · have hle := h.distinct y
    have hleb := hd y
    rw [count_tree, Shape.count_append, ← Nat.add_assoc, ← count_tree]
    rcases Nat.eq_zero_or_pos ((Shape.node b s .nil).count y) with hzero | hpos
    · omega
    · have := hapart y hpos
      omega
  · exact hmove.keeps (Or.inl hyb) (hlast y hy) (Or.inl hya)

theorem addItemToObject_tree (h : Tree H a v c) (hkind : v.kind ≠ cJSONString)
    (hb : Holds H none (some b) (.node b s .nil) none) (hd : (Shape.node b s .nil).Distinct)
    (hapart : ∀ y, 0 < (Shape.node b s .nil).count y → (Shape.node a c .nil).count y = 0)
    (key : Text) :
    ∃ H' v', addItemToObject H (some a) (some key) (some b) false = some (H', true) ∧
      Tree H' a v' (c.append (.node b s .nil)) ∧ SamePlace v v' ∧ H'.fresh = H.fresh ∧
      labelOf H' b = (labelOf H b).rename (some key) ∧ (∀ y, y ≠ b → KeepsLabel H H' y) ∧
      ∀ y, y ≠ b → y ≠ a → y ∉ c.siblings → Same H H' y := by
  obtain ⟨-, u, hu, hrest⟩ := id hb
  obtain ⟨hba, hbc⟩ := count_below (hapart b (count_top b s))
  have hput : ∀ y, y ≠ b → (H.put b (Json.withName u key)).cell y = H.cell y := fun y hy =>
    Heap.cell_put_of_ne H _ hy
  have hkeeps : ∀ y, Keeps H (H.put b (Json.withName u key)) y := fun y =>
    (Json.rename_keeps hu key y).1
  have hcell : (H.put b (Json.withName u key)).cell b = some (Json.withName u key) :=
    Heap.cell_put_self hu _
  have h₁ : Tree (H.put b (Json.withName u key)) a v c := by
    refine ⟨(hput a (Ne.symm hba)).trans h.cell, h.sound, h.children.congr fun y hy => ?_,
      h.distinct⟩
    refine hput y ?_
    rintro rfl
    omega
  have href : v.isReference = false := isReference_of_sound h.sound hkind
  have hlive : (H.put b (Json.withName u key)).cell b ≠ none := by simp [hcell]
  obtain ⟨H', hadd, hmove⟩ := addItemToArray_attaches h₁.cell href h₁.children.chain hlive
  have hrelinks := addItemToArray_relinks hadd
  obtain ⟨v', htree, hprev, hnext, hout⟩ :=
    attach_tree h₁ (hb.frame fun y _ => hkeeps y) hd hapart hmove
  obtain ⟨v'', hv'', hlabel⟩ := hrelinks.label a v h₁.cell
  obtain rfl := Option.some.inj (htree.cell.symm.trans hv'')
  have hlabels : ∀ y, y ≠ b → KeepsLabel H H' y := fun y hy =>
    (Same.of_eq (hput y hy)).2.trans (hrelinks.label y)
  refine ⟨H', v', (Json.addItemToObject_eq hu key).trans hadd, htree, ⟨hprev, hnext, hlabel⟩,
    hrelinks.fresh, ?_, hlabels, fun y hyb hya hy => ⟨?_, hlabels y hyb⟩⟩
  · rw [(hrelinks.label b).labelOf_eq hcell, labelOf_eq hcell, labelOf_eq hu]
    simp only [CJSON.label, Label.rename, Json.kind_withName]
    rfl
  · exact ((Same.of_eq (hput y hyb)).trans ⟨hout y hyb hya hy, hrelinks.label y⟩).1

theorem delete_fresh {n : ℕ} (h : delete n H p = some H') : H'.fresh = H.fresh := by
  induction n generalizing H H' p with
  | zero =>
    cases p with
    | none => rw [← Option.some.inj h]
    | some a => cases h
  | succ n ih =>
    cases p with
    | none => rw [← Option.some.inj h]
    | some a =>
      obtain ⟨v, -, h⟩ := Option.bind_eq_some_iff.mp h
      obtain ⟨H₁, h₁, h⟩ := Option.bind_eq_some_iff.mp h
      obtain ⟨H₂, h₂, h⟩ := Option.bind_eq_some_iff.mp h
      obtain ⟨u, -, rfl⟩ := Option.map_eq_some_iff.mp h₂
      have hchildren : H₁.fresh = H.fresh := by
        split at h₁
        · rw [← Option.some.inj h₁]
        · exact ih h₁
      exact (ih h).trans hchildren

/-- Deleting a tree leaves every other node as it is. -/
theorem delete_holds (h : Holds H q p t none) (hd : t.Distinct) :
    ∃ H', delete H.fresh H p = some H' ∧ H'.fresh = H.fresh ∧
      ∀ y, H'.cell y = if 0 < t.count y then none else H.cell y := by
  obtain ⟨H', hdelete, hcell⟩ := delete_eq h hd (h.size_le hd)
  exact ⟨H', hdelete, delete_fresh hdelete, hcell⟩

end Steps

section Names

theorem nameOf_eq_label (H : Nodes) (a : ℕ) : nameOf H a = (labelOf H a).name := by
  rw [nameOf, labelOf]
  cases H.cell a <;> rfl

/-- The first member with a name is found, or there is none. -/
theorem getObjectItem_cases (h : Tree H a v c)
    (hnamed : ∀ m ∈ (c.read (labelOf H)).labels, m.name ≠ none) (key : Text) :
    (getObjectItem H (some a) (some key) true = some none ∧
      ∀ m ∈ (c.read (labelOf H)).labels, Label.called (some key) m = false) ∨
    ∃ before x under behind, c = Shape.append before (.node x under behind) ∧
      getObjectItem H (some a) (some key) true = some (some x) ∧
      (∀ m ∈ (before.read (labelOf H)).labels, Label.called (some key) m = false) ∧
      Label.called (some key) (labelOf H x) = true := by
  rw [Shape.labels_read, List.forall_mem_map] at hnamed
  have hstop : ∀ y ∈ c.siblings,
      stops key true (nameOf H y) = Label.called (some key) (labelOf H y) := by
    intro y hy
    have hname := hnamed y hy
    simp only [stops, nameOf_eq_label, hname, false_or, if_true, Label.called]
  rw [getObjectItem_eq h.cell h.children.chain, List.find?_congr hstop]
  cases hfind : c.siblings.find? fun y => Label.called (some key) (labelOf H y) with
  | none =>
    refine Or.inl ⟨rfl, ?_⟩
    rw [Shape.labels_read, List.forall_mem_map]
    intro y hy
    simpa using List.find?_eq_none.mp hfind y hy
  | some x =>
    obtain ⟨hcalled, as, bs, hsplit, hbefore⟩ := List.find?_eq_some_iff_append.mp hfind
    obtain ⟨before, under, behind, heq, hsiblings⟩ := Shape.split_append hsplit
    have hname : (nameOf H x).isSome := by
      rw [nameOf_eq_label, of_decide_eq_true hcalled]
      rfl
    refine Or.inr ⟨before, x, under, behind, heq, by rw [Option.filter, if_pos hname], ?_,
      hcalled⟩
    rw [Shape.labels_read, List.forall_mem_map, hsiblings]
    intro y hy
    simpa using hbefore y hy

/-- The state after the member with a name was cut out: the node a keeps the shape c',
the shape t from pointer old on is apart from it. -/
structure CutOut (H H' : Nodes) (a : ℕ) (key : Text) (c c' : Shape) (old : Option ℕ) (t : Shape) :
    Prop where
  held : Holds H' none old t none
  alone : t.siblings.length ≤ 1
  called : ∀ y ∈ t.siblings, (labelOf H y).name = some key
  count_prune : ∀ P : ℕ → Bool, (∀ y ∈ t.siblings, P y = true) →
    ∀ y, (c'.prune P).count y + t.count y = (c.prune P).count y
  relinks : Relinks H H'
  outside : ∀ y, y ≠ a → y ∉ c.siblings → Same H H' y
  others : c'.read (labelOf H') = (c.read (labelOf H)).removeFirst (Label.called (some key))
  found : (t.read (labelOf H')).top = (c.read (labelOf H)).first (Label.called (some key))

theorem CutOut.count {c' : Shape} {old : Option ℕ} (hcut : CutOut H H' a key c c' old t) (y : ℕ) :
    c'.count y + t.count y = c.count y := by
  have hprune := hcut.count_prune (fun _ => true) (fun _ _ => rfl) y
  rwa [Shape.prune_eq_self fun _ _ => rfl, Shape.prune_eq_self fun _ _ => rfl] at hprune

theorem detachItemFromObject_tree (h : Tree H a v c)
    (hnamed : ∀ m ∈ (c.read (labelOf H)).labels, m.name ≠ none) (key : Text) :
    ∃ H' old v' c' t, detachItemFromObjectCaseSensitive H (some a) (some key) = some (H', old) ∧
      Tree H' a v' c' ∧ SamePlace v v' ∧ CutOut H H' a key c c' old t := by
  rcases getObjectItem_cases h hnamed key with ⟨hget, hnone⟩ |
    ⟨before, x, under, behind, rfl, hget, hbefore, hcalled⟩
  · refine ⟨H, none, v, c, .nil, ?_, h, ⟨rfl, rfl, rfl⟩, ⟨rfl, Nat.zero_le _, fun y hy => ?_,
      fun P _ y => ?_, Relinks.refl H, fun y _ _ => Same.of_eq rfl, ?_, ?_⟩⟩
    · simp only [detachItemFromObjectCaseSensitive, hget, Option.bind_eq_bind, Option.bind_some,
        detachItemViaPointer]
    · cases hy
    · rw [Shape.count_nil, Nat.add_zero]
    · rw [Forest.removeFirst_of_none hnone]
    · rw [Forest.first_eq_none_iff.mpr hnone]
      rfl
  · obtain ⟨H', v', hdetach, htree, hplace, hcut, hrelinks, hout⟩ := detach_tree h
    have hread : ∀ s : Shape, (∀ y, 0 < s.count y → 0 < (before.append
        (.node x under behind)).count y) → s.read (labelOf H') = s.read (labelOf H) := by
      intro s hs
      refine Shape.read_congr fun y hy => ?_
      obtain ⟨u, hu, -⟩ := h.children.live (hs y hy)
      exact (hrelinks.label y).labelOf_eq hu
    have hx := hread (.node x under .nil) fun y hy => by
      rw [count_tree] at hy
      rw [Shape.count_append, Shape.count_node]
      omega
    refine ⟨H', some x, v', before.append behind, .node x under .nil, ?_, htree, hplace,
      ⟨hcut, Nat.le_refl _, fun y hy => ?_, fun P hP y => ?_, hrelinks,
        fun y hya hy => ⟨hout y hya hy, hrelinks.label y⟩, ?_, ?_⟩⟩
    · simp only [detachItemFromObjectCaseSensitive, hget, Option.bind_eq_bind, Option.bind_some,
        hdetach]
    · rw [List.mem_singleton.mp hy]
      exact of_decide_eq_true hcalled
    · rw [Shape.prune_append, Shape.prune_append, Shape.prune, if_pos (hP x List.mem_cons_self),
        Shape.count_append, Shape.count_append, count_tree, Shape.count_node]
      omega
    · rw [hread _ fun y hy => by
        rw [Shape.count_append] at hy
        rw [Shape.count_append, Shape.count_node]
        omega]
      rw [Shape.read_append, Shape.read_append, Forest.removeFirst_append hbefore, Shape.read,
        Forest.removeFirst_node hcalled]
    · rw [hx, Shape.read_append, Forest.first_append hbefore]
      exact (Forest.first_node hcalled _ _).symm

end Names

section Copies

variable {n d : ℕ} {l : Option ℕ} {u' : CJSON} {t' : Shape}

/-- New nodes are put behind the children of a node, and every other one stays as it is. -/
structure Appends (H H' : Nodes) (b : ℕ) (u u' : CJSON) (t t' : Shape) : Prop where
  tree : Tree H' b u' (t.append t')
  place : SamePlace u u'
  new : ∀ y, 0 < t'.count y → H.fresh ≤ y
  fresh : H.fresh ≤ H'.fresh
  outside : ∀ y, (Shape.node b t .nil).count y = 0 → Extends H H' y
  label : ∀ y, KeepsLabel H H' y

/-- With n rounds a node is copied into a new tree that reads the same. -/
def Copies (n : ℕ) : Prop :=
  ∀ {H : Nodes} {a : ℕ} {v : CJSON} {c : Shape}, H.cell a = some v → Holds H none v.child c none →
    2 * c.size + 1 ≤ n →
    ∃ H' b u s, duplicate n H (some a) true = some (H', some b) ∧ Tree H' b u s ∧
      u.prev = none ∧ u.next = none ∧ u.label = v.label ∧
      (∀ y, 0 < (Shape.node b s .nil).count y → H.fresh ≤ y) ∧ H.fresh ≤ H'.fresh ∧
      (∀ y, Extends H H' y) ∧ s.read (labelOf H') = c.read (labelOf H)

/-- With n rounds the nodes from pointer p on are copied behind the last child of b. -/
def CopiesChildren (n : ℕ) : Prop :=
  ∀ {H : Nodes} {b : ℕ} {u : CJSON} {t s : Shape} {l q p : Option ℕ}, Tree H b u t →
    (l = none → u.isReference = false) → t.siblings.getLast? = l → Holds H q p s none →
    (∀ y, 0 < s.count y → (Shape.node b t .nil).count y = 0) → 2 * s.size ≤ n →
    ∃ H' u' t', duplicateChildren n H b l p = some H' ∧ Appends H H' b u u' t t' ∧
      t'.read (labelOf H') = s.read (labelOf H)

theorem Extends.keepsLabel (h : Extends H H' y) : KeepsLabel H H' y :=
  fun u hu => ⟨u, h u hu, rfl⟩

theorem Extends.same (h : Extends H H' y) : Same H H' y := ⟨h.keeps, h.keepsLabel⟩

theorem Tree.extend (h : Tree H a v c) (hext : ∀ y, Extends H H' y) : Tree H' a v c :=
  h.congr fun y hy => by
    obtain ⟨u, hu⟩ := h.live hy
    rw [hu, hext y u hu]

theorem Appends.refl (h : Tree H b u t) : Appends H H b u u t .nil where
  tree := by rwa [Shape.append_nil]
  place := ⟨rfl, rfl, rfl⟩
  new y hy := absurd hy (by simp)
  fresh := Nat.le_refl _
  outside _ _ _ hv := hv
  label _ v hv := ⟨v, hv, rfl⟩

/-- What is live elsewhere is elsewhere afterwards. -/
theorem Appends.apart (h : Appends H H' b u u' t t') (hw : H.cell y = some w)
    (hy : (Shape.node b t .nil).count y = 0) :
    (Shape.node b (t.append t') .nil).count y = 0 := by
  have hlt := Heap.lt_fresh hw
  have hzero : t'.count y = 0 := by
    by_contra hne
    have := h.new y (Nat.pos_of_ne_zero hne)
    omega
  rw [count_tree, Shape.count_append, hzero, Nat.add_zero, ← count_tree]
  exact hy

theorem Appends.trans {u₁ u₂ : CJSON} {t₁ t₂ : Shape} (h₁ : Appends H H₁ b u u₁ t t₁)
    (h₂ : Appends H₁ H₂ b u₁ u₂ (t.append t₁) t₂) : Appends H H₂ b u u₂ t (t₁.append t₂) where
  tree := by
    rw [← Shape.append_assoc]
    exact h₂.tree
  place := h₁.place.trans h₂.place
  new y hy := by
    have hle := h₁.fresh
    rw [Shape.count_append] at hy
    rcases Nat.eq_zero_or_pos (t₁.count y) with hzero | hpos
    · have := h₂.new y (by omega)
      omega
    · exact h₁.new y hpos
  fresh := Nat.le_trans h₁.fresh h₂.fresh
  outside y hy w hw := h₂.outside y (h₁.apart hw hy) w (h₁.outside y hy w hw)
  label y := (h₁.label y).trans (h₂.label y)

/-- A new tree is put behind the last child. -/
theorem crosswire_appends (h : Tree H b u t) (href : l = none → u.isReference = false)
    (hlast : t.siblings.getLast? = l) (hd : Tree H₁ d w s) (hprev : w.prev = none)
    (hnext : w.next = none) (hnew : ∀ y, 0 < (Shape.node d s .nil).count y → H.fresh ≤ y)
    (hle : H.fresh ≤ H₁.fresh) (hext : ∀ y, Extends H H₁ y) :
    ∃ H₂ u₂, crosswire H₁ b l d = some H₂ ∧ Appends H H₂ b u u₂ t (.node d s .nil) ∧
      (Shape.node d s .nil).read (labelOf H₂) = (Shape.node d s .nil).read (labelOf H₁) := by
  have h₁ := h.extend hext
  have hapart : ∀ y, 0 < (Shape.node d s .nil).count y → (Shape.node b t .nil).count y = 0 := by
    intro y hy
    have hge := hnew y hy
    by_contra hne
    obtain ⟨uy, huy⟩ := h.live (Nat.pos_of_ne_zero hne)
    have := Heap.lt_fresh huy
    omega
  have hpos : ∀ e, l = some e → 0 < t.count e := by
    rintro e rfl
    exact Shape.count_pos_of_mem_siblings (List.mem_of_getLast? hlast)
  have hlive : ∀ e, l = some e → H₁.cell e ≠ none := by
    intro e he
    have hin := hpos e he
    obtain ⟨ue, hue⟩ := h₁.live (y := e) (by rw [count_tree]; omega)
    simp [hue]
  have hdlive : H₁.cell d ≠ none := by simp [hd.cell]
  obtain ⟨H₂, hwire, hmove, hcell⟩ := crosswire_attaches h₁.cell hlive href hdlive
  have hrelinks := crosswire_relinks hwire
  rw [← hlast] at hmove
  have hheld := hd.alone hprev hnext
  obtain ⟨u₂, h₂, hprev₂, hnext₂, -⟩ := attach_tree h₁ hheld hd.distinct hapart hmove
  obtain ⟨u₂', hu₂, hlabel₂⟩ := hrelinks.label b u h₁.cell
  obtain rfl := Option.some.inj (h₂.cell.symm.trans hu₂)
  refine ⟨H₂, u₂, hwire, ⟨h₂, ⟨hprev₂, hnext₂, hlabel₂⟩, hnew, ?_, fun y hy uy huy => ?_,
    fun y => (hext y).keepsLabel.trans (hrelinks.label y)⟩, ?_⟩
  · rw [hrelinks.fresh]
    exact hle
  · obtain ⟨hyb, hyt⟩ := count_below hy
    have hlt := Heap.lt_fresh huy
    have hyd : y ≠ d := by
      rintro rfl
      have := hnew y (count_top y s)
      omega
    have hyl : l ≠ some y := by
      intro heq
      have := hpos y heq
      omega
    rw [hcell y hyb hyd hyl, hext y uy huy]
  · exact read_eq hheld fun y _ => hrelinks.label y

theorem copiesChildren_zero : CopiesChildren 0 := by
  intro H b u t s l q p h _ _ hs _ hn
  cases s with
  | nil =>
    obtain rfl : p = none := hs
    exact ⟨H, u, .nil, by simp [duplicateChildren], Appends.refl h, rfl⟩
  | node => simp [Shape.size] at hn

theorem copies_succ (ih : CopiesChildren n) : Copies (n + 1) := by
  intro H a v c hv hc hn
  have href := v.isReference_bare
  have hlabel : v.bare.label = v.label := by
    rw [CJSON.label, v.kind_bare]
    rfl
  have htree : Tree (H.alloc v.bare) H.fresh v.bare .nil := by
    refine ⟨Heap.cell_alloc_self H v.bare, fun h => ?_, rfl, distinct_leaf _⟩
    rw [href] at h
    cases h
  have halloc : ∀ y, Extends H (H.alloc v.bare) y :=
    fun y u hu => Heap.cell_alloc_of_live v.bare hu
  have hfresh : ∀ y u, H.cell y = some u → (Shape.node H.fresh .nil .nil).count y = 0 := by
    intro y u hu
    have := Heap.lt_fresh hu
    rw [count_tree, Shape.count_nil, if_neg (by omega)]
  obtain ⟨H', u', t', hchildren, happ, hread⟩ :=
    ih htree (fun _ => href) rfl (hc.frame fun y _ => (halloc y).keeps) (fun y hy => by
      obtain ⟨u, hu, -⟩ := hc.live hy
      exact hfresh y u hu) (by omega)
  have hle := happ.fresh
  rw [Heap.fresh_alloc] at hle
  refine ⟨H', H.fresh, u', t', ?_, happ.tree, happ.place.1,
    happ.place.2.1, happ.place.2.2.trans hlabel, fun y hy => ?_, by omega,
    fun y u hu => happ.outside y (hfresh y u hu) u (halloc y u hu), ?_⟩
  · have hrest : duplicateChildren n (H.alloc v.bare) H.fresh none v.child = some H' := hchildren
    rw [duplicate_eq hv, hrest, Option.map_some]
  · rw [count_tree] at hy
    rcases Nat.eq_zero_or_pos (t'.count y) with hzero | hpos
    · split at hy <;> omega
    · have hge := happ.new y hpos
      rw [Heap.fresh_alloc] at hge
      omega
  · rw [hread]
    exact read_eq hc fun y _ => (halloc y).keepsLabel

/-- One round copies the first child, the next ones do the rest. -/
theorem copiesChildren_succ (ihcopy : Copies n) (ih : CopiesChildren n) :
    CopiesChildren (n + 1) := by
  intro H b u t s l q p h href hlast hs hout hn
  cases s with
  | nil =>
    obtain rfl : p = none := hs
    exact ⟨H, u, .nil, by simp [duplicateChildren], Appends.refl h, rfl⟩
  | node x under behind =>
    obtain ⟨rfl, w, hw, -, -, hunder, hbehind⟩ := hs
    simp only [linked_child, linked_next] at hunder hbehind
    rw [Shape.size] at hn
    obtain ⟨H₁, d, ud, sd, hdup, hd, hdprev, hdnext, hdlabel, hdnew, hle, hext, hdread⟩ :=
      ihcopy hw hunder (by omega)
    obtain ⟨H₂, u₂, hwire, happ, hread₂⟩ :=
      crosswire_appends h href hlast hd hdprev hdnext hdnew hle hext
    have hx := happ.outside x (hout x (by rw [Shape.count_node, if_pos rfl]; omega)) w hw
    have hbehind_out : ∀ y, 0 < behind.count y →
        ∃ uy, H.cell y = some uy ∧ (Shape.node b t .nil).count y = 0 := by
      intro y hy
      obtain ⟨uy, huy, -⟩ := hbehind.live hy
      exact ⟨uy, huy, hout y (by rw [Shape.count_node]; omega)⟩
    have hbehind_ext : ∀ y, 0 < behind.count y → Extends H H₂ y := by
      intro y hy
      obtain ⟨-, -, hzero⟩ := hbehind_out y hy
      exact happ.outside y hzero
    obtain ⟨H₃, u₃, t₃, hrest, happ₃, hread₃⟩ := ih (l := some d) (p := w.next) happ.tree
      (fun h => by cases h) (by simp [Shape.siblings_append, Shape.siblings])
      (hbehind.frame fun y hy => (hbehind_ext y hy).keeps)
      (fun y hy => by
        obtain ⟨uy, huy, hzero⟩ := hbehind_out y hy
        exact happ.apart huy hzero) (by omega)
    refine ⟨H₃, u₃, .node d sd t₃, ?_, happ.trans happ₃, ?_⟩
    · simp only [duplicateChildren, hdup, Option.bind_eq_bind, Option.bind_some, hwire, hx, hrest]
    · have hfirst : (Shape.node d sd .nil).read (labelOf H₃) =
          (Shape.node d sd .nil).read (labelOf H₁) := by
        rw [← hread₂]
        refine Shape.read_congr fun y hy => ?_
        obtain ⟨uy, huy⟩ := happ.tree.live (y := y) (by
          rw [count_tree, Shape.count_append]
          omega)
        exact (happ₃.label y).labelOf_eq huy
      obtain ⟨htop, hunder₃, -⟩ := Forest.node.inj hfirst
      rw [Shape.read, Shape.read, htop, hunder₃, hdread, hread₃, labelOf_eq hd.cell, hdlabel,
        labelOf_eq hw, read_eq hbehind fun y hy => (hbehind_ext y hy).keepsLabel]

/-- Copying builds a new tree that reads the same and leaves every live node as it is. -/
theorem copies (n : ℕ) : Copies n ∧ CopiesChildren n := by
  induction n with
  | zero => exact ⟨fun _ _ hn => absurd hn (by omega), copiesChildren_zero⟩
  | succ n ih => exact ⟨copies_succ ih.2, copiesChildren_succ ih.1 ih.2⟩

end Copies

end BoxUtils.CJson
