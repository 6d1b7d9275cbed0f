import BoxUtils.CJsonLabels

/-!
The merge patch of the vendored cJSON_Utils. It edits a target that is an object
in place and makes a new node for every other one, after it has deleted the
target with its later siblings. Where the target is a tree of its own, or an
object that is to be patched with an object, it computes the merge patch and
changes nothing outside the target.
-/
namespace BoxUtils.CJson

open LinkedShapes
open MergePatch (Label Members Named)

section Functions

/-- The common form of the type checks, which a null pointer does not pass. -/
def hasKind (kind : BitVec 32) (H : Nodes) (item : Option ℕ) : Option Bool :=
  match item with
  | none => some false
  | some item => (H.cell item).map fun c => c.kind = kind

def isObject : Nodes → Option ℕ → Option Bool := hasKind cJSONObject

def isNull : Nodes → Option ℕ → Option Bool := hasKind cJSONNull

def deleteItemFromObject (H : Nodes) (object : Option ℕ) (string : Option Text) :
    Option Nodes := do
  let (H, item) ← detachItemFromObject H object string
  delete H.fresh H item

def deleteItemFromObjectCaseSensitive (H : Nodes) (object : Option ℕ) (string : Option Text) :
    Option Nodes := do
  let (H, item) ← detachItemFromObjectCaseSensitive H object string
  delete H.fresh H item

/-- The target that is touched into: the old one, if it is an object, or a new one. -/
def mergeTarget (H : Nodes) (target : Option ℕ) : Option (Nodes × Option ℕ) := do
  let object ← isObject H target
  if object then some (H, target)
  else do
    let H ← delete H.fresh H target
    let (H, target) := createObject H
    some (H, some target)

mutual

def mergePatch : ℕ → Nodes → Option ℕ → Option ℕ → Bool → Option (Nodes × Option ℕ)
  | 0, _, _, _, _ => none
  | depth + 1, H, target, patch, caseSensitive => do
    let object ← isObject H patch
    if object = false then do
      let H ← delete H.fresh H target
      duplicate (2 * H.fresh) H patch true
    else do
      let (H, target) ← mergeTarget H target
      let p ← patch
      let p ← H.cell p
      mergeChildren depth H target p.child caseSensitive

/-- The loop over the children of the patch. -/
def mergeChildren : ℕ → Nodes → Option ℕ → Option ℕ → Bool → Option (Nodes × Option ℕ)
  | _, H, target, none, _ => some (H, target)
  | 0, _, _, some _, _ => none
  | depth + 1, H, target, some patchChild, caseSensitive => do
    let null ← isNull H (some patchChild)
    if null then do
      let c ← H.cell patchChild
      let H ← (if caseSensitive then deleteItemFromObjectCaseSensitive H target c.string
        else deleteItemFromObject H target c.string)
      let c ← H.cell patchChild
      mergeChildren depth H target c.next caseSensitive
    else do
      let c ← H.cell patchChild
      let (H, replaceMe) ← (if caseSensitive then
          detachItemFromObjectCaseSensitive H target c.string
        else detachItemFromObject H target c.string)
      let (H, replacement) ← mergePatch depth H replaceMe (some patchChild) caseSensitive
      match replacement with
      | none => some (H, none)
      | some replacement => do
        let c ← H.cell patchChild
        let (H, _) ← addItemToObject H target c.string (some replacement) false
        let c ← H.cell patchChild
        mergeChildren depth H target c.next caseSensitive

end

end Functions

variable {H H' H₁ H₂ : Nodes} {a b x y : ℕ} {p q : Option ℕ} {v v' w u : CJSON}
variable {c c' c₁ c₂ s t under : Shape} {key : Text} {names : Option Text → Bool}

section Edits

/-- What a merge of members with certain names touches of the object a over c: the object,
its members, and what is below those members that have one of the names. -/
def touched (names : Option Text → Bool) (H : Nodes) (a : ℕ) (c : Shape) : Shape :=
  .node a (c.prune fun y => names (labelOf H y).name) .nil

/-- A member belongs to the object. -/
theorem count_member (hy : y ∈ c.siblings) : 0 < (Shape.node a c .nil).count y := by
  have := Shape.count_pos_of_mem_siblings hy
  rw [count_tree]
  omega

theorem touched_all (H : Nodes) (a : ℕ) (c : Shape) :
    touched (fun _ => true) H a c = .node a c .nil := by
  rw [touched, Shape.prune_eq_self fun _ _ => rfl]

theorem count_touched_le (names : Option Text → Bool) (H : Nodes) (a : ℕ) (c : Shape) (y : ℕ) :
    (touched names H a c).count y ≤ (Shape.node a c .nil).count y := by
  have hle := Shape.count_prune_le (fun y => names (labelOf H y).name) c y
  rw [touched, count_tree, count_tree]
  omega

theorem touched_congr (h : ∀ y ∈ c.siblings, labelOf H' y = labelOf H y) :
    touched names H' a c = touched names H a c := by
  rw [touched, touched, Shape.prune_congr fun y hy => by rw [h y hy]]

theorem count_touched_append_le (names : Option Text → Bool) (H : Nodes) (a : ℕ) (c s : Shape)
    (y : ℕ) : (touched names H a (c.append s)).count y ≤
      (touched names H a c).count y + s.count y := by
  have hle := Shape.count_prune_le (fun y => names (labelOf H y).name) s y
  rw [touched, touched, Shape.prune_append, count_tree, count_tree, Shape.count_append]
  omega

/-- The object and its members are among what is touched. -/
theorem not_mem_of_touched (h : (touched names H a c).count y = 0) : y ≠ a ∧ y ∉ c.siblings := by
  obtain ⟨hya, hyc⟩ := count_below h
  refine ⟨hya, ?_⟩
  have := Shape.not_mem_siblings hyc
  rwa [Shape.siblings_prune] at this

theorem same_of_live (h : ∀ u, H.cell y = some u → Same H H' y) : Same H H' y :=
  ⟨fun u hu => (h u hu).1 u hu, fun u hu => (h u hu).2 u hu⟩

/-- The members of an object are exchanged for those of a merge, and every node elsewhere is
kept. What a merge touches then was touched before or is new in the heap. -/
structure Edits (names : Option Text → Bool) (H H' : Nodes) (a : ℕ) (v v' : CJSON)
    (c c' : Shape) : Prop where
  tree : Tree H' a v' c'
  place : SamePlace v v'
  source : ∀ y, 0 < (touched names H' a c').count y →
    0 < (touched names H a c).count y ∨ H.fresh ≤ y
  fresh : H.fresh ≤ H'.fresh
  outside : ∀ y, (touched names H a c).count y = 0 → Same H H' y

theorem Edits.refl (h : Tree H a v c) : Edits names H H a v v c c :=
  ⟨h, ⟨rfl, rfl, rfl⟩, fun _ => Or.inl, Nat.le_refl _, fun _ _ => Same.of_eq rfl⟩

/-- What is live elsewhere is elsewhere afterwards. -/
theorem Edits.apart (h : Edits names H H' a v v' c c') (hu : H.cell y = some u)
    (hy : (touched names H a c).count y = 0) : (touched names H' a c').count y = 0 := by
  have hlt := Heap.lt_fresh hu
  by_contra hne
  rcases h.source y (Nat.pos_of_ne_zero hne) with hpos | hge <;> omega

theorem Edits.trans {v₁ v₂ : CJSON} (h₁ : Edits names H H₁ a v v₁ c c₁)
    (h₂ : Edits names H₁ H₂ a v₁ v₂ c₁ c₂) : Edits names H H₂ a v v₂ c c₂ where
  tree := h₂.tree
  place := h₁.place.trans h₂.place
  source y hy := by
    have hle := h₁.fresh
    rcases h₂.source y hy with hpos | hge
    · exact h₁.source y hpos
    · exact Or.inr (by omega)
  fresh := Nat.le_trans h₁.fresh h₂.fresh
  outside y hy := same_of_live fun _ hu =>
    (h₁.outside y hy).trans (h₂.outside y (h₁.apart hu hy))

end Edits

section Members

variable {old : Option ℕ} {v₁ : CJSON}

/-- What was cut out is a tree apart from the node and the other children. -/
theorem CutOut.apart (hcut : CutOut H H' a key c c' old t) (h : Tree H a v c)
    (hy : 0 < t.count y) : (Shape.node a c' .nil).count y = 0 := by
  have hcount := hcut.count y
  have hle := h.distinct y
  rw [count_tree] at hle ⊢
  omega

theorem CutOut.distinct (hcut : CutOut H H' a key c c' old t) (h : Tree H a v c) :
    t.Distinct := by
  intro y
  have hcount := hcut.count y
  have hle := h.distinct.child y
  omega

theorem CutOut.label (hcut : CutOut H H' a key c c' old t) (h : Tree H a v c)
    (hy : 0 < c.count y) : labelOf H' y = labelOf H y := by
  obtain ⟨u, hu, -⟩ := h.children.live hy
  exact (hcut.relinks.label y).labelOf_eq hu

/-- The member that is cut out has the name, so all of it counts as touched. -/
theorem CutOut.count_touched (hcut : CutOut H H' a key c c' old t) (h : Tree H a v c)
    (hkey : names (some key) = true) (y : ℕ) :
    (touched names H' a c').count y + t.count y = (touched names H a c).count y := by
  have hprune := hcut.count_prune (fun y => names (labelOf H y).name)
    (fun x hx => by rw [hcut.called x hx, hkey]) y
  have hlabels : touched names H' a c' = touched names H a c' := touched_congr fun x hx => by
    have hcount := hcut.count x
    have hpos := Shape.count_pos_of_mem_siblings hx
    exact hcut.label h (by omega)
  rw [hlabels, touched, touched, count_tree, count_tree]
  omega

/-- A null in the patch removes a member. -/
theorem deleteItemFromObject_edits (h : Tree H a v c)
    (hnamed : ∀ m ∈ (c.read (labelOf H)).labels, m.name ≠ none) (hkey : names (some key) = true) :
    ∃ H' v' c', deleteItemFromObjectCaseSensitive H (some a) (some key) = some H' ∧
      Edits names H H' a v v' c c' ∧
      c'.read (labelOf H') = (c.read (labelOf H)).removeFirst (Label.called (some key)) := by
  obtain ⟨H₁, old, v₁, c₁, t, hdetach, h₁, hplace, hcut⟩ := detachItemFromObject_tree h hnamed key
  obtain ⟨H₂, hdelete, hfresh, hcell⟩ := delete_holds hcut.held (hcut.distinct h)
  have hkeep : ∀ y, t.count y = 0 → H₂.cell y = H₁.cell y := by
    intro y hy
    rw [hcell, if_neg (by omega)]
  have hrest : ∀ y, 0 < (Shape.node a c₁ .nil).count y → H₂.cell y = H₁.cell y := by
    intro y hy
    refine hkeep y ?_
    by_contra hne
    have := hcut.apart h (Nat.pos_of_ne_zero hne)
    omega
  have hlabels : touched names H₂ a c₁ = touched names H₁ a c₁ := touched_congr fun y hy => by
    rw [labelOf, hrest y (count_member hy)]
    rfl
  refine ⟨H₂, v₁, c₁, ?_, ⟨h₁.congr hrest, hplace, fun y hy => ?_, ?_, fun y hy => ?_⟩, ?_⟩
  · simp only [deleteItemFromObjectCaseSensitive, hdetach, Option.bind_eq_bind, Option.bind_some,
      hdelete]
  · rw [hlabels] at hy
    have := hcut.count_touched h hkey y
    exact Or.inl (by omega)
  · rw [hfresh, hcut.relinks.fresh]
  · have hcount := hcut.count_touched h hkey y
    obtain ⟨hya, hyc⟩ := not_mem_of_touched hy
    exact (hcut.outside y hya hyc).trans (Same.of_eq (hkeep y (by omega)))
  · rw [← hcut.others]
    exact read_eq h₁.children fun y hy =>
      (Same.of_eq (hrest y (by rw [count_tree]; omega))).2

/-- The state after a value was made from a target t that is a tree of its own. -/
structure Made (H H' : Nodes) (t : Shape) (b : ℕ) (u : CJSON) (s : Shape) : Prop where
  tree : Tree H' b u s
  prev : u.prev = none
  next : u.next = none
  source : ∀ y, 0 < (Shape.node b s .nil).count y → 0 < t.count y ∨ H.fresh ≤ y
  fresh : H.fresh ≤ H'.fresh
  outside : ∀ y, t.count y = 0 → Same H H' y

/-- What is live elsewhere is not in the value. -/
theorem Made.apart (hmade : Made H H' t b u s) (hw : H.cell y = some w) (hy : t.count y = 0) :
    (Shape.node b s .nil).count y = 0 := by
  have hlt := Heap.lt_fresh hw
  by_contra hne
  rcases hmade.source y (Nat.pos_of_ne_zero hne) with hpos | hge <;> omega

/-- The value made from the member that was cut out becomes the last member. -/
theorem addItemToObject_edits (h : Tree H a v c) (hkind : v.kind = cJSONObject)
    (hkey : names (some key) = true) (h₁ : Tree H₁ a v₁ c₁) (hplace₁ : SamePlace v v₁)
    (hcut : CutOut H H₁ a key c c₁ old t) (hmade : Made H₁ H₂ t b u s) :
    ∃ H₃ v₃, addItemToObject H₂ (some a) (some key) (some b) false = some (H₃, true) ∧
      Edits names H H₃ a v v₃ c (c₁.append (.node b s .nil)) ∧
      (c₁.append (.node b s .nil)).read (labelOf H₃) =
        ((c.read (labelOf H)).removeFirst (Label.called (some key))).append
          (.node ((labelOf H₂ b).rename (some key)) (s.read (labelOf H₂)) .nil) := by
  have hzero : ∀ y, 0 < (Shape.node a c₁ .nil).count y → t.count y = 0 := by
    intro y hy
    by_contra hne
    have := hcut.apart h (Nat.pos_of_ne_zero hne)
    omega
  obtain ⟨v₂, h₂, hplace₂⟩ := h₁.frame fun y hy => hmade.outside y (hzero y hy)
  have hkind₂ : v₂.kind ≠ cJSONString := by
    have hsame : v₂.kind = v.kind := congrArg Label.kind (hplace₁.trans hplace₂).2.2
    rw [hsame, hkind]
    decide
  have hapart : ∀ y, 0 < (Shape.node b s .nil).count y → (Shape.node a c₁ .nil).count y = 0 := by
    intro y hy
    by_contra hne
    obtain ⟨uy, huy⟩ := h₁.live (Nat.pos_of_ne_zero hne)
    have := hmade.apart huy (hzero y (Nat.pos_of_ne_zero hne))
    omega
  obtain ⟨H₃, v₃, hadd, h₃, hplace₃, hfresh₃, hlabel, hkeep, hout⟩ :=
    addItemToObject_tree h₂ hkind₂ (hmade.tree.alone hmade.prev hmade.next) hmade.tree.distinct
      hapart key
  have hb₁ := hapart b (count_top b s)
  have hlabels : ∀ y, 0 < (Shape.node a c₁ .nil).count y → labelOf H₃ y = labelOf H₁ y := by
    intro y hy
    obtain ⟨uy, huy⟩ := h₁.live hy
    refine ((hmade.outside y (hzero y hy)).2.trans (hkeep y ?_)).labelOf_eq huy
    rintro rfl
    omega
  refine ⟨H₃, v₃, hadd, ⟨h₃, (hplace₁.trans hplace₂).trans hplace₃, fun y hy => ?_, ?_,
    fun y hy => same_of_live fun uy huy => ?_⟩, ?_⟩
  · have hcount := hcut.count_touched h hkey y
    have hle := count_touched_append_le names H₃ a c₁ (.node b s .nil) y
    rw [touched_congr fun x hx => hlabels x (count_member hx)] at hle
    rcases Nat.eq_zero_or_pos ((Shape.node b s .nil).count y) with hbs | hbs
    · exact Or.inl (by omega)
    · rcases hmade.source y hbs with hpos | hge
      · exact Or.inl (by omega)
      · rw [hcut.relinks.fresh] at hge
        exact Or.inr hge
  · have := hmade.fresh
    rw [hcut.relinks.fresh] at this
    omega
  · have hcount := hcut.count_touched h hkey y
    obtain ⟨hya, hyc⟩ := not_mem_of_touched hy
    have hzero₁ : (touched names H₁ a c₁).count y = 0 := by omega
    obtain ⟨-, hyc₁⟩ := not_mem_of_touched hzero₁
    have ht : t.count y = 0 := by omega
    obtain ⟨uy₁, huy₁⟩ := (hcut.outside y hya hyc).live huy
    have hyb : y ≠ b := (count_below (hmade.apart huy₁ ht)).1
    exact ((hcut.outside y hya hyc).trans (hmade.outside y ht)).trans (hout y hyb hya hyc₁)
  · have hothers : c₁.read (labelOf H₃) = c₁.read (labelOf H₁) :=
      Shape.read_congr fun y hy => hlabels y (by rw [count_tree]; omega)
    have hbelow : s.read (labelOf H₃) = s.read (labelOf H₂) := by
      refine read_eq hmade.tree.children fun y hy => hkeep y ?_
      rintro rfl
      have := hmade.tree.distinct.top.1
      omega
    rw [Shape.read_append, hothers, hcut.others, Shape.read, hlabel, hbelow, Shape.read]

end Members

section Merging

variable {n : ℕ}

/-- With n rounds a target that is a tree of its own is touched with the patch x. -/
def Merges (n : ℕ) : Prop :=
  ∀ {H : Nodes} {x : ℕ} {w : CJSON} {under t : Shape} {old : Option ℕ}, Tree H x w under →
    Named (.node (labelOf H x) (under.read (labelOf H)) .nil) → Holds H none old t none →
    t.siblings.length ≤ 1 → t.Distinct → Named (t.read (labelOf H)) →
    (∀ y, 0 < (Shape.node x under .nil).count y → t.count y = 0) → 2 * under.size + 1 ≤ n →
    ∃ H' b u s, mergePatch n H old (some x) true = some (H', some b) ∧ Made H H' t b u s ∧
      (labelOf H' b, s.read (labelOf H')) =
        MergePatch.mergePatch (t.read (labelOf H)).top (labelOf H x, under.read (labelOf H))

/-- With n rounds the patch children from pointer p on are touched into the object a, which
they are apart from as far as the merge touches it. -/
def MergesChildren (n : ℕ) : Prop :=
  ∀ {names : Option Text → Bool} {H : Nodes} {a : ℕ} {v : CJSON} {c s : Shape} {q p : Option ℕ},
    Tree H a v c → v.kind = cJSONObject → Members (c.read (labelOf H)) →
    Holds H q p s none → s.Distinct → Members (s.read (labelOf H)) →
    (∀ y, 0 < s.count y → (touched names H a c).count y = 0) →
    (∀ m ∈ (s.read (labelOf H)).labels, names m.name = true) → 2 * s.size ≤ n →
    ∃ H' v' c', mergeChildren n H (some a) p true = some (H', some a) ∧
      Edits names H H' a v v' c c' ∧
      c'.read (labelOf H') =
        MergePatch.mergeMembers (s.read (labelOf H)) (c.read (labelOf H))

theorem isObject_eq (hv : H.cell a = some v) :
    isObject H (some a) = some (labelOf H a).isObject := by
  rw [isObject, hasKind, hv, labelOf_eq hv]
  rfl

theorem isNull_eq (hv : H.cell a = some v) : isNull H (some a) = some (labelOf H a).isNull := by
  rw [isNull, hasKind, hv, labelOf_eq hv]
  rfl

theorem string_of_name (hx : H.cell x = some w) (hname : (labelOf H x).name = some key) :
    w.string = some key := by
  rw [← hname, labelOf_eq hx]
  rfl

theorem mergesChildren_null (n : ℕ) (h : Tree H a v c) :
    ∃ H' v' c', mergeChildren n H (some a) none true = some (H', some a) ∧
      Edits names H H' a v v' c c' ∧
      c'.read (labelOf H') =
        MergePatch.mergeMembers (Shape.nil.read (labelOf H)) (c.read (labelOf H)) :=
  ⟨H, v, c, by simp [mergeChildren], Edits.refl h, rfl⟩

/-- A null member of the patch removes the member with its name. -/
theorem mergeChildren_null (h : Tree H a v c) (hmembers : Members (c.read (labelOf H)))
    (hx : Tree H x w under) (hname : (labelOf H x).name = some key)
    (hkey : names (some key) = true) (hxout : (touched names H a c).count x = 0)
    (hnull : (labelOf H x).isNull = true) :
    ∃ H' v' c', mergeChildren (n + 1) H (some a) (some x) true =
        mergeChildren n H' (some a) w.next true ∧ Edits names H H' a v v' c c' ∧
      c'.read (labelOf H') =
        MergePatch.mergeMember (labelOf H x) (under.read (labelOf H)) (c.read (labelOf H)) := by
  have hstring := string_of_name hx.cell hname
  obtain ⟨H', v', c', hdelete, hedits, hread⟩ := deleteItemFromObject_edits h hmembers.names hkey
  obtain ⟨w', hw', -, hnext', -⟩ := (hedits.outside x hxout).1 w hx.cell
  rw [linked_next, linked_next] at hnext'
  refine ⟨H', v', c', ?_, hedits, ?_⟩
  · simp only [mergeChildren, isNull_eq hx.cell, hnull, hx.cell, hstring, hdelete, hw', hnext',
      Option.bind_eq_bind, Option.bind_some, if_true]
  · rw [hread, MergePatch.mergeMember, if_pos hnull, hname]

/-- What was cut out has names everywhere, since it was a member. -/
theorem CutOut.named {c₁ : Shape} {old : Option ℕ} (hcut : CutOut H H₁ a key c c₁ old t)
    (hmembers : Members (c.read (labelOf H))) : Named (t.read (labelOf H₁)) := by
  have halone := hcut.alone
  have hfound := hcut.found
  cases t with
  | nil => trivial
  | node d cd nd =>
    cases nd with
    | nil =>
      obtain ⟨htop, hbelow⟩ := hmembers.below.first hfound.symm
      exact ⟨htop, hbelow, trivial⟩
    | node => simp [Shape.siblings] at halone

/-- Any other member of the patch is touched with the member that has its name. -/
theorem mergeChildren_value (ih : Merges n) (h : Tree H a v c) (hkind : v.kind = cJSONObject)
    (hmembers : Members (c.read (labelOf H))) (hx : Tree H x w under)
    (hname : (labelOf H x).name = some key) (hkey : names (some key) = true)
    (hnamed : Named (.node (labelOf H x) (under.read (labelOf H)) .nil))
    (hapart : ∀ y, 0 < (Shape.node x under .nil).count y → (touched names H a c).count y = 0)
    (hnull : (labelOf H x).isNull = false) (hn : 2 * under.size + 1 ≤ n) :
    ∃ H' v' c', mergeChildren (n + 1) H (some a) (some x) true =
        mergeChildren n H' (some a) w.next true ∧ Edits names H H' a v v' c c' ∧
      c'.read (labelOf H') =
        MergePatch.mergeMember (labelOf H x) (under.read (labelOf H)) (c.read (labelOf H)) := by
  have hstring := string_of_name hx.cell hname
  have hxout := hapart x (count_top x under)
  -- the old member is cut out
  obtain ⟨H₁, old, v₁, c₁, t, hdetach, h₁, hplace₁, hcut⟩ :=
    detachItemFromObject_tree h hmembers.names key
  have hsame₁ : ∀ y, 0 < (Shape.node x under .nil).count y → Same H H₁ y := fun y hy =>
    hcut.outside y (not_mem_of_touched (hapart y hy)).1 (not_mem_of_touched (hapart y hy)).2
  have hold : ∀ y, 0 < (Shape.node x under .nil).count y → t.count y = 0 := by
    intro y hy
    have hcount := hcut.count_touched h hkey y
    have := hapart y hy
    omega
  obtain ⟨w₁, hx₁, hplace⟩ := hx.frame hsame₁
  have hlabel₁ : labelOf H₁ x = labelOf H x :=
    (hsame₁ x (count_top x under)).2.labelOf_eq hx.cell
  have hread₁ : under.read (labelOf H₁) = under.read (labelOf H) :=
    read_eq hx.children fun y hy => (hsame₁ y (by rw [count_tree]; omega)).2
  -- touched on its own
  obtain ⟨H₂, b, u, s, hmerge, hmade, hvalue⟩ := ih hx₁ (by rwa [hlabel₁, hread₁]) hcut.held
    hcut.alone (hcut.distinct h) (hcut.named hmembers) hold hn
  have hx₂ := hmade.outside x (hold x (count_top x under))
  obtain ⟨w₂, hw₂, hlabel₂⟩ := hx₂.2 w₁ hx₁.cell
  have hstring₂ : w₂.string = some key := by
    rw [← hstring]
    exact congrArg Label.name (hlabel₂.trans hplace.2.2)
  -- and added behind the others
  obtain ⟨H₃, v₃, hadd, hedits, hread⟩ := addItemToObject_edits h hkind hkey h₁ hplace₁ hcut hmade
  obtain ⟨w₃, hw₃, -, hnext₃, -⟩ := (hedits.outside x hxout).1 w hx.cell
  rw [linked_next, linked_next] at hnext₃
  refine ⟨H₃, v₃, _, ?_, hedits, ?_⟩
  · simp only [mergeChildren, isNull_eq hx.cell, hnull, hx.cell, hstring, hdetach, hmerge, hw₂,
      hstring₂, hadd, hw₃, hnext₃, Option.bind_eq_bind, Option.bind_some, if_true,
      Bool.false_eq_true, if_false]
  · rw [hread, MergePatch.mergeMember, hname, hnull, ← hcut.found, ← hlabel₁, ← hread₁, ← hvalue]
    rfl

/-- One round of the loop merges one member of the patch. -/
theorem mergeChildren_step (ih : Merges n) (h : Tree H a v c) (hkind : v.kind = cJSONObject)
    (hmembers : Members (c.read (labelOf H))) (hx : Tree H x w under)
    (hname : (labelOf H x).name ≠ none) (hmet : names (labelOf H x).name = true)
    (hnamed : Named (.node (labelOf H x) (under.read (labelOf H)) .nil))
    (hapart : ∀ y, 0 < (Shape.node x under .nil).count y → (touched names H a c).count y = 0)
    (hn : 2 * under.size + 1 ≤ n) :
    ∃ H' v' c', mergeChildren (n + 1) H (some a) (some x) true =
        mergeChildren n H' (some a) w.next true ∧ Edits names H H' a v v' c c' ∧
      c'.read (labelOf H') =
        MergePatch.mergeMember (labelOf H x) (under.read (labelOf H)) (c.read (labelOf H)) := by
  obtain ⟨key, hkey⟩ := Option.ne_none_iff_exists'.mp hname
  rw [hkey] at hmet
  cases hnull : (labelOf H x).isNull with
  | true => exact mergeChildren_null h hmembers hx hkey hmet (hapart x (count_top x under)) hnull
  | false => exact mergeChildren_value ih h hkind hmembers hx hkey hmet hnamed hapart hnull hn

theorem mergesChildren_succ (ihmerge : Merges n) (ih : MergesChildren n) :
    MergesChildren (n + 1) := by
  intro names H a v c s q p h hkind hmembers hs hd hpatch hapart hmet hn
  cases s with
  | nil =>
    obtain rfl : p = none := hs
    exact mergesChildren_null _ h
  | node x under behind =>
    obtain ⟨rfl, w, hw, -, hsound, hunder, hbehind⟩ := hs
    rw [Shape.size] at hn
    have hx : Tree H x w under := by
      refine ⟨hw, hsound, hunder, fun y => ?_⟩
      have hle := hd y
      rw [Shape.count_node, ← count_tree] at hle
      omega
    obtain ⟨H₁, v₁, c₁, hstep, hedits, hread⟩ :=
      mergeChildren_step ihmerge h hkind hmembers hx (hpatch.names _ (List.mem_cons_self ..))
        (hmet _ (List.mem_cons_self ..)) ⟨hpatch.below.1, hpatch.below.2.1, trivial⟩
        (fun y hy => hapart y (by rw [Shape.count_node, ← count_tree]; omega)) (by omega)
    have hbehind_out : ∀ y, 0 < behind.count y → (touched names H a c).count y = 0 := fun y hy =>
      hapart y (by rw [Shape.count_node]; omega)
    have hread_behind : behind.read (labelOf H₁) = behind.read (labelOf H) :=
      read_eq hbehind fun y hy => (hedits.outside y (hbehind_out y hy)).2
    have hkind₁ : v₁.kind = cJSONObject :=
      (congrArg Label.kind hedits.place.2.2).trans hkind
    have hmembers₁ : Members (c₁.read (labelOf H₁)) := by
      have hone : Members (.node (labelOf H x) (under.read (labelOf H)) .nil) := by
        refine ⟨fun m hm => ?_, hpatch.below.1, hpatch.below.2.1, trivial⟩
        rw [List.mem_singleton.mp hm]
        exact hpatch.names _ (List.mem_cons_self ..)
      have := hone.mergeMembers hmembers
      rwa [MergePatch.mergeMembers_node, ← hread] at this
    obtain ⟨H₂, v₂, c₂, hrest, hedits₂, hread₂⟩ := ih (p := w.next) hedits.tree hkind₁ hmembers₁
      (hbehind.frame fun y hy => (hedits.outside y (hbehind_out y hy)).1) hd.next
      (by rw [hread_behind]; exact hpatch.rest)
      (fun y hy => by
        obtain ⟨uy, huy, -⟩ := hbehind.live hy
        exact hedits.apart huy (hbehind_out y hy))
      (by rw [hread_behind]; exact fun m hm => hmet m (List.mem_cons_of_mem _ hm))
      (by omega)
    refine ⟨H₂, v₂, c₂, hstep.trans hrest, hedits.trans hedits₂, ?_⟩
    rw [hread₂, hread, hread_behind]
    exact (MergePatch.mergeMembers_node ..).symm

/-- A target that is no object is deleted, and a new object takes its place. -/
theorem mergeTarget_new {old : Option ℕ} (hold : Holds H none old t none) (hd : t.Distinct)
    (hobject : isObject H old = some false) :
    ∃ H' b u, mergeTarget H old = some (H', some b) ∧ Made H H' t b u .nil ∧
      u.kind = cJSONObject ∧ labelOf H' b = Label.emptyObject := by
  obtain ⟨H₁, hdelete, hfresh, hcell⟩ := delete_holds hold hd
  have hnew := Heap.cell_alloc_self H₁ { type := cJSONObject }
  have htree : Tree (H₁.alloc { type := cJSONObject }) H₁.fresh { type := cJSONObject } .nil :=
    ⟨hnew, fun h => absurd h (by decide), rfl, distinct_leaf _⟩
  refine ⟨H₁.alloc { type := cJSONObject }, H₁.fresh, { type := cJSONObject }, ?_,
    ⟨htree, rfl, rfl, fun y hy => ?_, ?_, fun y hy => same_of_live fun uy huy => ?_⟩, rfl, ?_⟩
  · simp only [mergeTarget, hobject, Option.bind_eq_bind, Option.bind_some, Bool.false_eq_true,
      if_false, hdelete, createObject, newItem]
  · rw [count_tree, Shape.count_nil] at hy
    split at hy
    · exact Or.inr (by omega)
    · omega
  · rw [Heap.fresh_alloc, hfresh]
    omega
  · have huy₁ : H₁.cell y = some uy := by rw [hcell, if_neg (by omega), huy]
    exact Same.of_eq ((Heap.cell_alloc_of_live _ huy₁).trans huy.symm)
  · rw [labelOf_eq hnew]
    rfl

/-- The target that is touched into is an object with the members of the old one, if that
is an object, or else without members. -/
theorem mergeTarget_made {old : Option ℕ} (hold : Holds H none old t none)
    (halone : t.siblings.length ≤ 1) (hd : t.Distinct) (hnamed : Named (t.read (labelOf H))) :
    ∃ H' b u s, mergeTarget H old = some (H', some b) ∧ Made H H' t b u s ∧
      u.kind = cJSONObject ∧ Members (s.read (labelOf H')) ∧
      (labelOf H' b, s.read (labelOf H')) = MergePatch.asObject (t.read (labelOf H)).top := by
  have hnew : isObject H old = some false →
      MergePatch.asObject (t.read (labelOf H)).top = (Label.emptyObject, .nil) →
      ∃ H' b u s, mergeTarget H old = some (H', some b) ∧ Made H H' t b u s ∧
        u.kind = cJSONObject ∧ Members (s.read (labelOf H')) ∧
        (labelOf H' b, s.read (labelOf H')) =
          MergePatch.asObject (t.read (labelOf H)).top := by
    intro hobject hempty
    obtain ⟨H', b, u, htarget, hmade, hkind, hlabel⟩ := mergeTarget_new hold hd hobject
    refine ⟨H', b, u, .nil, htarget, hmade, hkind, MergePatch.members_nil, ?_⟩
    rw [hempty, hlabel]
    rfl
  cases t with
  | nil =>
    obtain rfl : old = none := hold
    exact hnew rfl rfl
  | node o oc n =>
    have hnil : n = .nil := by
      cases n with
      | nil => rfl
      | node => simp [Shape.siblings] at halone
    subst hnil
    obtain rfl : old = some o := hold.1
    obtain ⟨uo, htree, hprev, hnext⟩ := tree_of_holds hold hd
    have hobject := isObject_eq htree.cell
    have htop : (Shape.read (labelOf H) (.node o oc .nil)).top =
        some (labelOf H o, oc.read (labelOf H)) := rfl
    cases hkind : (labelOf H o).isObject with
    | false =>
      refine hnew (by rw [hobject, hkind]) ?_
      rw [htop, MergePatch.asObject, hkind]
      rfl
    | true =>
      refine ⟨H, o, uo, oc, ?_, ⟨htree, hprev, hnext, fun _ => Or.inl, Nat.le_refl _,
        fun _ _ => Same.of_eq rfl⟩, ?_, MergePatch.members_below hnamed hkind, ?_⟩
      · simp only [mergeTarget, hobject, hkind, Option.bind_eq_bind, Option.bind_some, if_true]
      · rw [labelOf_eq htree.cell] at hkind
        exact of_decide_eq_true hkind
      · rw [htop, MergePatch.asObject, if_pos hkind]

theorem merges_succ (ih : MergesChildren n) : Merges (n + 1) := by
  intro H x w under t old hx hnamed hold halone hd hnames hapart hn
  have hxzero := hapart x (count_top x under)
  cases hobject : (labelOf H x).isObject with
  | false =>
    -- the patch takes the place of the target
    obtain ⟨H₁, hdelete, hfresh, hcell⟩ := delete_holds hold hd
    have hkeep : ∀ y, t.count y = 0 → H₁.cell y = H.cell y := by
      intro y hy
      rw [hcell, if_neg (by omega)]
    have hx₁ : Tree H₁ x w under := hx.congr fun y hy => hkeep y (hapart y hy)
    have hsize := hx₁.size_lt
    obtain ⟨H₂, b, u, s, hdup, htree, hprev, hnext, hlabel, hnew, hle, hext, hread⟩ :=
      (copies (2 * H₁.fresh)).1 hx₁.cell hx₁.children (by omega)
    refine ⟨H₂, b, u, s, ?_, ⟨htree, hprev, hnext, fun y hy => ?_, by omega, fun y hy => ?_⟩, ?_⟩
    · simp only [mergePatch, isObject_eq hx.cell, hobject, Option.bind_eq_bind, Option.bind_some,
        if_true, hdelete, hdup]
    · have := hnew y hy
      exact Or.inr (by omega)
    · exact (Same.of_eq (hkeep y hy)).trans (hext y).same
    · have hsame : under.read (labelOf H₁) = under.read (labelOf H) :=
        read_eq hx.children fun y hy =>
          (Same.of_eq (hkeep y (hapart y (by rw [count_tree]; omega)))).2
      rw [MergePatch.mergePatch, hobject, labelOf_eq htree.cell, hlabel, hread, hsame,
        labelOf_eq hx.cell]
      rfl
  | true =>
    obtain ⟨H₁, b, u, s, htarget, hmade, hkind, hmembers, hvalue⟩ :=
      mergeTarget_made hold halone hd hnames
    have hsame₁ : ∀ y, 0 < (Shape.node x under .nil).count y → Same H H₁ y := fun y hy =>
      hmade.outside y (hapart y hy)
    obtain ⟨w₁, hx₁, -⟩ := hx.frame hsame₁
    have hread₁ : under.read (labelOf H₁) = under.read (labelOf H) :=
      read_eq hx.children fun y hy => (hsame₁ y (by rw [count_tree]; omega)).2
    have hapart₁ : ∀ y, 0 < under.count y → (touched (fun _ => true) H₁ b s).count y = 0 := by
      intro y hy
      obtain ⟨uy, huy, -⟩ := hx.children.live hy
      rw [touched_all]
      exact hmade.apart huy (hapart y (by rw [count_tree]; omega))
    obtain ⟨H₂, u₂, s₂, hmerge, hedits, hread⟩ := ih (p := w₁.child) hmade.tree hkind hmembers
      hx₁.children hx.distinct.child (by rw [hread₁]; exact MergePatch.members_below hnamed hobject)
      hapart₁ (fun _ _ => rfl) (by omega)
    refine ⟨H₂, b, u₂, s₂, ?_, ⟨hedits.tree, hedits.place.1.trans hmade.prev,
      hedits.place.2.1.trans hmade.next, fun y hy => ?_, Nat.le_trans hmade.fresh hedits.fresh,
      fun y hy => same_of_live fun uy huy => ?_⟩, ?_⟩
    · simp only [mergePatch, isObject_eq hx.cell, hobject, Option.bind_eq_bind, Option.bind_some,
        Bool.true_eq_false, if_false, htarget, hx₁.cell, hmerge]
    · have hle := hmade.fresh
      rcases hedits.source y (by rwa [touched_all]) with hin | hge
      · rw [touched_all] at hin
        exact hmade.source y hin
      · exact Or.inr (by omega)
    · refine (hmade.outside y hy).trans (hedits.outside y ?_)
      rw [touched_all]
      exact hmade.apart huy hy
    · have hlabel : labelOf H₂ b = labelOf H₁ b := by
        rw [labelOf_eq hedits.tree.cell, hedits.place.2.2, labelOf_eq hmade.tree.cell]
      rw [hread, hread₁, hlabel, MergePatch.mergePatch, if_pos hobject, ← hvalue]

/-- Merging computes the merge patch of a target that is a tree of its own. -/
theorem merges (n : ℕ) : Merges n ∧ MergesChildren n := by
  induction n with
  | zero =>
    refine ⟨fun _ _ _ _ _ _ _ hn => absurd hn (by omega), ?_⟩
    intro names H a v c s q p h _ _ hs _ _ _ _ hn
    cases s with
    | nil =>
      obtain rfl : p = none := hs
      exact mergesChildren_null 0 h
    | node => simp [Shape.size] at hn
  | succ n ih => exact ⟨merges_succ ih.2, mergesChildren_succ ih.1 ih.2⟩

end Merging

end BoxUtils.CJson
