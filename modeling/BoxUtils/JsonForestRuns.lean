import BoxUtils.JsonForest
import BoxUtils.Runs

/-!
Ownership of the nodes over all sequences of operations. A careful step keeps the
forest; every other step either has no defined result or leaves a node that
nobody owns, a node that is owned twice, or a cycle.
-/
namespace BoxUtils.Json

open CJson LinkedShapes LinkedForest Runs

/-- The handles that own a given node. -/
def State.ownersOf (s : State) (a : ℕ) : Finset ℕ := s.owners.filter fun h => s.root h = some a

/-- Every live node has one owner, which is a holder or a parent, no node is below
itself, and destroying all handles in any order gives every node back: a node
that is freed a second time has no result, so that each is freed exactly once. -/
structure Forest (s : State) : Prop where
  defined : s.undefined = false
  placed : ∀ a, s.heap.cell a ≠ none →
    ((s.ownersOf a).card = 1 ∧ ∀ p, ¬ ChildOf s.heap p a) ∨
      (s.ownersOf a = ∅ ∧ ∃! p, ChildOf s.heap p a)
  acyclic : ∀ a, ¬ Relation.TransGen (ChildOf s.heap) a a
  freed : ∀ order : List ℕ, order.Nodup → order.toFinset = s.live →
    ∃ t, run next s (order.map .destroy) = some t ∧ t.undefined = false ∧
      ∀ a, t.heap.cell a = none

section Keeping

variable {s t : State} {op : Op} {a h : ℕ}

theorem mem_ownersOf : h ∈ s.ownersOf a ↔ h ∈ s.owners ∧ s.root h = some a := by
  simp [State.ownersOf]

theorem next_value (hlegal : Legal s op) (hperform : perform s op = .value t) :
    next s op = some t := by
  simp [next, hlegal, hperform]

theorem Valid.placed (hs : Valid s) (ha : s.heap.cell a ≠ none) :
    ((s.ownersOf a).card = 1 ∧ ∀ p, ¬ ChildOf s.heap p a) ∨
      (s.ownersOf a = ∅ ∧ ∃! p, ChildOf s.heap p a) := by
  obtain ⟨-, tree, w⟩ := hs
  rcases w.root_or_child ha with ⟨k, hk, hroot⟩ | ⟨p, hp⟩
  · refine Or.inl ⟨Finset.card_eq_one.mpr ⟨k, ?_⟩, fun p => w.root_not_child hk hroot⟩
    ext g
    rw [mem_ownersOf, Finset.mem_singleton]
    constructor
    · exact fun hg => w.root_unique hk hg.1 hroot hg.2
    · intro heq
      subst heq
      exact ⟨hk, hroot⟩
  · refine Or.inr ⟨?_, p, hp, fun q hq => w.parent_unique hq hp⟩
    refine Finset.eq_empty_of_forall_notMem fun g hg => ?_
    obtain ⟨hg, hroot⟩ := mem_ownersOf.mp hg
    exact w.root_not_child hg hroot hp

/-- Without handles there are no nodes. -/
theorem Valid.empty (hs : Valid s) (hlive : s.live = ∅) (a : ℕ) : s.heap.cell a = none := by
  obtain ⟨-, tree, w⟩ := hs
  by_contra ha
  obtain ⟨k, hk, -⟩ := w.covers ha
  have := (mem_owners.mp hk).1
  rw [hlive] at this
  cases this

theorem Valid.destroy_all (order : List ℕ) (hs : Valid s) (hnodup : order.Nodup)
    (hlive : order.toFinset = s.live) :
    ∃ t, run next s (order.map .destroy) = some t ∧ Valid t ∧ t.live = ∅ := by
  induction order generalizing s with
  | nil => exact ⟨s, rfl, hs, by simpa using hlive.symm⟩
  | cons h order ih =>
    obtain ⟨hh, hrest⟩ := List.nodup_cons.mp hnodup
    have hmem : h ∈ s.live := by simp [← hlive]
    obtain ⟨t, ht, hvalid, htlive⟩ := destroy_valid hs hmem
    have hstep : next s (.destroy h) = some t := next_value ⟨hs.defined, hmem⟩ ht
    obtain ⟨u, hu, hresult⟩ := ih hvalid hrest (by
      rw [htlive, ← hlive, List.toFinset_cons, Finset.erase_insert (by simpa using hh)])
    exact ⟨u, by simp only [List.map_cons, run, hstep, Option.bind_some, hu], hresult⟩

theorem Valid.forest (hs : Valid s) : Forest s where
  defined := hs.defined
  placed _ ha := hs.placed ha
  acyclic a := by
    obtain ⟨-, tree, w⟩ := hs
    exact w.acyclic a
  freed order hnodup hlive := by
    obtain ⟨t, ht, hvalid, hempty⟩ := hs.destroy_all order hnodup hlive
    exact ⟨t, ht, hvalid.defined, hvalid.empty hempty⟩

theorem valid_init : Valid init where
  defined := rfl
  forested := ⟨fun _ => .nil, fun h hh => by simp [State.owners, init] at hh,
    fun h hh => by simp [State.owners, init] at hh,
    fun a => by simp [State.owners, init, Heap.empty]⟩

theorem step_valid (hs : Valid s) (hcare : Careful s op) (hstep : next s op = some t) :
    Valid t := by
  obtain ⟨hlegal, hstep⟩ := Option.ite_none_right_eq_some.mp hstep
  have hyields := perform_yields hs hlegal hcare
  cases hperform : perform s op with
  | value u =>
    rw [hperform] at hstep hyields
    obtain rfl := Option.some.inj hstep
    exact hyields
  | throws e =>
    rw [hperform] at hstep
    obtain rfl := Option.some.inj hstep
    exact hs
  | undefined =>
    rw [hperform] at hyields
    exact hyields.elim

end Keeping

section Breaking

variable {s t : State} {op : Op} {a b : ℕ} {array object json : ℕ}

/-- An outcome is undefined, or its result breaks the property. -/
def Outcome.Breaks : Outcome State → Prop
  | value t => ¬ Forest t
  | throws _ => False
  | undefined => True

theorem checkKind_undefined {kind : BitVec 32} {excepted : String} {H : Nodes}
    {holder : JsonHolder} (h : deref H holder = none) :
    checkKind kind excepted H holder = .undefined := by
  simp [checkKind, h]

theorem checkKind_value {kind : BitVec 32} {excepted : String} {H : Nodes}
    {holder : JsonHolder} {c : CJSON} (h : deref H holder = some c) (hkind : c.kind = kind) :
    checkKind kind excepted H holder = .value () := by
  simp [checkKind, h, hkind]

/-- A node that is gone cannot be copied. -/
theorem duplicateWhole_gone (h : ¬ s.Usable json) :
    duplicateWhole s.heap (s.holder json) = none := by
  simp only [State.Usable, not_forall, not_not] at h
  obtain ⟨a, ha, hgone⟩ := h
  rw [duplicateWhole, show (s.holder json).cjson = some a from ha]
  cases 2 * s.heap.fresh with
  | zero => rw [duplicate]
  | succ n => simp [duplicate, hgone]

/-- The array has lost its owner, and nothing else took it. -/
theorem not_forest_of_orphan {H' : Nodes} (hs : Valid s) (hroot : s.root array = some a)
    (howner : array ∈ s.owners) (ha : H'.cell a ≠ none) (horphan : ∀ p, ¬ ChildOf H' p a) :
    ¬ Forest { s.setRef array with heap := H' } := by
  intro hforest
  obtain ⟨-, tree, w⟩ := hs
  have hempty : ({ s.setRef array with heap := H' } : State).ownersOf a = ∅ := by
    refine Finset.eq_empty_of_forall_notMem fun g hg => ?_
    obtain ⟨hg, hga⟩ := mem_ownersOf.mp hg
    change g ∈ (s.setRef array).owners at hg
    change (s.setRef array).root g = some a at hga
    rw [owners_setRef, Finset.mem_erase] at hg
    rw [root_setRef] at hga
    exact hg.1 (w.root_unique howner hg.2 hroot hga)
  rcases hforest.placed a ha with ⟨hone, -⟩ | ⟨-, p, hp, -⟩
  · rw [hempty] at hone
    cases hone
  · exact horphan p hp

/-- What is below or behind the added node does not lead to the array. -/
theorem not_forest_of_attaches {H' : Nodes} {last : Option ℕ} (hs : Valid s)
    (hroot : s.root array = some a) (howner : array ∈ s.owners)
    (hattach : Attaches s.heap H' b a last) (hba : b ≠ a) :
    ¬ Forest { s.setRef array with heap := H' } := by
  obtain ⟨-, tree, w⟩ := id hs
  obtain ⟨c, hc, -⟩ := w.live howner (w.root_count howner hroot)
  refine not_forest_of_orphan hs hroot howner ?_ fun p hp => ?_
  · obtain ⟨c', hc', -⟩ := hattach.link a c hc
    simp [hc']
  · rcases hattach.childOf hp with hp | hreach
    · exact w.root_not_child howner hroot hp
    · cases hreach with
      | here => exact hba rfl
      | next hv hreach =>
        exact hba (w.reaches_root howner hroot (by simp [hv]) (Reaches.next hv hreach))

/-- Adding to an array through the handle that owns it takes that handle for the
one of the added node. -/
theorem addItem_breaks (hs : Valid s) (harray : array ∈ s.live)
    (hcare : ¬ Careful s (.addItem array json)) : (s.addItem array json).Breaks := by
  cases hderef : deref s.heap (s.holder array) with
  | none => simp [State.addItem, checkIsArray, checkKind_undefined hderef, Outcome.Breaks]
  | some c =>
    simp only [Careful, hderef, Option.some.injEq, exists_eq_left', Classical.not_imp] at hcare
    obtain ⟨hkind, hcare⟩ := hcare
    obtain ⟨a, ha, hc⟩ := deref_eq_some.mp hderef
    simp only [State.addItem, checkIsArray, checkKind_value hderef hkind, Outcome.value_bind]
    cases href : (s.holder array).ref with
    | true =>
      have husable : ¬ s.Usable json := fun husable => hcare ⟨href, husable⟩
      rw [if_neg (by simp), duplicateWhole_gone husable]
      exact trivial
    | false =>
      have howner := mem_owners.mpr ⟨harray, href⟩
      have hroot := fun h => congrFun (root_setRef (s := s) (h := array)) h
      simp only [State.root] at hroot
      rw [if_pos rfl, hroot, hroot, ha]
      change (liftM (addItemToArray s.heap (some a) (s.holder json).cjson) >>= fun r =>
        pure { s.setRef array with heap := r.1 } : Outcome State).Breaks
      obtain ⟨-, tree, w⟩ := id hs
      obtain ⟨o, -, -, hchain⟩ := children_chain w hc
      have hplain := container_plain w hc (kind_ne_string hkind (by decide))
      cases hb : (s.holder json).cjson with
      | none =>
        exact not_forest_of_orphan hs ha howner (by simp [hc]) fun p =>
          w.root_not_child howner ha
      | some b =>
        by_cases hlive : s.heap.cell b = none
        · have hba : b ≠ a := by
            intro heq
            subst heq
            rw [hc] at hlive
            cases hlive
          rcases addItemToArray_gone hc hplain hlive with hnone | ⟨H', hadd, hattach⟩
          · rw [hnone]
            exact trivial
          · rw [hadd]
            exact not_forest_of_attaches hs ha howner hattach hba
        · obtain ⟨H', hadd, hattach⟩ := addItemToArray_attaches hc hplain hchain hlive
          rw [hadd]
          by_cases hba : b = a
          · subst hba
            intro hforest
            exact hforest.acyclic b (Relation.TransGen.single
              (hattach.childOf_new hc hchain rfl))
          · exact not_forest_of_attaches hs ha howner hattach hba

/-- Adding an owned node below itself closes a cycle. -/
theorem addItemTo_breaks {key : Text} (hs : Valid s) (hjson : json ∈ s.live)
    (hcare : ¬ Careful s (.addItemTo object key json)) :
    (s.addItemTo object key json).Breaks := by
  cases hderef : deref s.heap (s.holder object) with
  | none => simp [State.addItemTo, checkIsObject, checkKind_undefined hderef, Outcome.Breaks]
  | some c =>
    simp only [Careful, hderef, Option.some.injEq, exists_eq_left', Classical.not_imp] at hcare
    obtain ⟨hkind, hcare⟩ := hcare
    obtain ⟨a, ha, hc⟩ := deref_eq_some.mp hderef
    simp only [State.addItemTo, checkIsObject, checkKind_value hderef hkind, Outcome.value_bind]
    obtain ⟨-, tree, w⟩ := id hs
    cases href : (s.holder json).ref with
    | true =>
      have husable : ¬ s.Usable json := fun husable => hcare ⟨husable, by simp [href]⟩
      rw [if_neg (by simp), duplicateWhole_gone husable]
      exact trivial
    | false =>
      have howner := mem_owners.mpr ⟨hjson, href⟩
      have husable : s.Usable json := fun b hb => by
        obtain ⟨u, hu, -⟩ := w.live howner (w.root_count howner hb)
        simp [hu]
      have hbelow : ∃ b, s.root json = some b ∧ Relation.ReflTransGen (ChildOf s.heap) b a := by
        by_contra hnone
        refine hcare ⟨husable, fun _ a' b ha' hb hdescend => hnone ⟨b, hb, ?_⟩⟩
        obtain rfl : a = a' := Option.some.inj (ha.symm.trans ha')
        exact hdescend
      obtain ⟨b, hb, hdescend⟩ := hbelow
      obtain ⟨u, hu⟩ := Option.ne_none_iff_exists'.mp (husable b hb)
      -- the node is renamed, then attached
      have hroot := fun h => congrFun (root_setRef (s := s) (h := json)) h
      simp only [State.root] at hroot hb
      rw [if_pos rfl, hroot, hroot, ha, hb]
      have w₁ := rename_forested w hu key
      obtain ⟨c₁, hc₁, hkind₁⟩ := (rename_keeps hu key a).2 c hc
      obtain ⟨o, -, -, hchain⟩ := children_chain w₁ hc₁
      have hplain := container_plain w₁ hc₁
        (kind_ne_string (hkind₁.trans hkind) (by decide))
      obtain ⟨u₁, hu₁, -⟩ := (rename_keeps hu key b).2 u hu
      obtain ⟨H', hadd, hattach⟩ :=
        addItemToArray_attaches hc₁ hplain hchain (b := b) (by simp [hu₁])
      have hadd' := (addItemToObject_eq (a := a) hu key).trans hadd
      change (liftM (addItemToObject s.heap (some a) (some key) (some b) false) >>= fun r =>
        pure { s.setRef json with heap := r.1 } : Outcome State).Breaks
      rw [hadd']
      intro hforest
      have hmono : ∀ p x, ChildOf s.heap p x → ChildOf H' p x := fun p x hpx => by
        refine ChildOf.mono (hattach.grows hc₁ hchain rfl) (ChildOf.mono (fun y v hv => ?_) hpx)
        obtain ⟨v', hv', -, hnext, hchild, -⟩ := (rename_keeps hu key y).1 v hv
        exact ⟨v', hv', Or.inr hnext, Or.inr hchild⟩
      exact hforest.acyclic a (Relation.TransGen.head' (hattach.childOf_new hc₁ hchain rfl)
        (hdescend.lift id hmono))

theorem perform_breaks (hs : Valid s) (hlegal : Legal s op) (hcare : ¬ Careful s op) :
    (perform s op).Breaks := by
  obtain ⟨-, hlegal⟩ := hlegal
  cases op with
  | create h item => exact absurd trivial hcare
  | copy h src =>
    simp only [perform, duplicateWhole_gone hcare]
    exact trivial
  | addItem array json => exact addItem_breaks hs hlegal.1 hcare
  | addItemTo object key json => exact addItemTo_breaks hs hlegal.2 hcare
  | popIndex h array val =>
    have hgone := not_not.mp hcare
    simp only [perform, popIndex, checkIsArray, checkKind_undefined hgone]
    exact trivial
  | popKey h object key caseSensitive =>
    have hgone := not_not.mp hcare
    simp only [perform, popKey, checkIsObject, checkKind_undefined hgone]
    exact trivial
  | destroy h => exact absurd trivial hcare

theorem step_breaks (hs : Valid s) (hstep : next s op = some t) (hcare : ¬ Careful s op) :
    ¬ Forest t := by
  obtain ⟨hlegal, hstep⟩ := Option.ite_none_right_eq_some.mp hstep
  have hbreaks := perform_breaks hs hlegal hcare
  cases hperform : perform s op with
  | value u =>
    rw [hperform] at hstep hbreaks
    obtain rfl := Option.some.inj hstep
    exact hbreaks
  | throws e =>
    rw [hperform] at hbreaks
    exact hbreaks.elim
  | undefined =>
    rw [hperform] at hstep
    obtain rfl := Option.some.inj hstep
    exact fun hforest => absurd hforest.defined (by simp)

end Breaking

/-- Over any sequence of operations the nodes stay a forest if and only if every
operation is careful. -/
theorem ownershipForest_iff (ops : List Op) :
    Throughout next Forest init ops ↔ StepsMeet next Careful init ops :=
  throughout_iff_stepsMeet (fun _ _ _ hs hcare hstep => step_valid hs hcare hstep)
    (fun _ hs => hs.forest) (fun _ _ _ hs hstep hcare => step_breaks hs hstep hcare) valid_init

/-- A node that is added to an array keeps its own owner. -/
theorem array_item_owned_twice : ¬ ∀ ops : List Op, Throughout next Forest init ops := by
  intro h
  let ops : List Op := [.create 0 .array, .create 1 .null, .addItem 0 1]
  have hlast : (run next init ops).map (fun s =>
      ((s.heap.cell 0).bind CJSON.child, (s.heap.cell 1).isSome, (s.ownersOf 1).card)) =
      some (some 1, true, 1) := by
    decide
  obtain ⟨s, hs, hfinal⟩ := Option.map_eq_some_iff.mp hlast
  simp only [Prod.mk.injEq] at hfinal
  obtain ⟨hchild, hlive, howners⟩ := hfinal
  obtain ⟨v, hv, hchild⟩ := Option.bind_eq_some_iff.mp hchild
  have hparent : ChildOf s.heap 0 1 := ⟨v, hv, by
    rw [linked_child, hchild]
    exact Reaches.here 1⟩
  have hplaced := ((h ops).final hs).placed 1 (Option.isSome_iff_ne_none.mp hlive)
  rcases hplaced with ⟨-, hroot⟩ | ⟨hnone, -⟩
  · exact hroot 0 hparent
  · rw [hnone] at howners
    cases howners

end BoxUtils.Json
