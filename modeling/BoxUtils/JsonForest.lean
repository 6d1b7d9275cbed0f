import BoxUtils.CJsonForest
import BoxUtils.Json

/-!
What the operations of a Json handle keep. The invariant is a forest whose roots
are the holders that own their nodes. An operation keeps it when it does not
touch a node that is gone, does not add through a handle that owns the array
itself, and does not add an owned node below that same node.
-/
namespace BoxUtils.Json

open CJson LinkedShapes LinkedForest

/-- The handles that own their nodes. -/
def State.owners (s : State) : Finset ℕ := s.live.filter fun h => (s.holder h).ref = false

def State.root (s : State) (h : ℕ) : Option ℕ := (s.holder h).cjson

/-- The node of a handle, if there is one, has not been freed. -/
def State.Usable (s : State) (h : ℕ) : Prop := ∀ a, s.root h = some a → s.heap.cell a ≠ none

/-- The condition on a step. -/
def Careful (s : State) : Op → Prop
  | .create _ _ | .destroy _ => True
  | .copy _ src => s.Usable src
  | .addItem array json => ∃ c, deref s.heap (s.holder array) = some c ∧
      (c.kind = cJSONArray → (s.holder array).ref = true ∧ s.Usable json)
  | .addItemTo object _ json => ∃ c, deref s.heap (s.holder object) = some c ∧
      (c.kind = cJSONObject → s.Usable json ∧ ((s.holder json).ref = false →
        ∀ a b, s.root object = some a → s.root json = some b →
          ¬ Relation.ReflTransGen (ChildOf s.heap) b a))
  | .popIndex _ container _ | .popKey _ container _ _ =>
    deref s.heap (s.holder container) ≠ none

/-- The invariant of a reachable state. -/
structure Valid (s : State) : Prop where
  defined : s.undefined = false
  forested : ∃ tree, Forested s.heap s.owners s.root tree

/-- An outcome is defined, and a result has the property. -/
def Outcome.Yields {α : Type} (P : α → Prop) : Outcome α → Prop
  | value a => P a
  | throws _ => True
  | undefined => False

theorem Outcome.yields_bind {α β : Type} {P : β → Prop} {x : Outcome α} {f : α → Outcome β}
    (h : x.Yields fun a => (f a).Yields P) : (x >>= f).Yields P := by
  cases x with
  | value a => exact h
  | throws e => trivial
  | undefined => exact h

section States

variable {s : State} {h : ℕ}

theorem mem_owners : h ∈ s.owners ↔ h ∈ s.live ∧ (s.holder h).ref = false := by
  simp [State.owners]

theorem deref_eq_some {H : Nodes} {holder : JsonHolder} {c : CJSON} :
    deref H holder = some c ↔ ∃ a, holder.cjson = some a ∧ H.cell a = some c := by
  simp [deref, Option.bind_eq_some_iff]

theorem owners_construct {heap : Nodes} {cjson : Option ℕ} :
    (s.construct h heap ⟨cjson, false⟩).owners = insert h s.owners := by
  ext g
  rw [mem_owners, Finset.mem_insert, mem_owners]
  by_cases hgh : g = h
  · subst g
    simp [State.construct]
  · simp [State.construct, hgh]

theorem root_construct {heap : Nodes} {cjson : Option ℕ} :
    (s.construct h heap ⟨cjson, false⟩).root = Function.update s.root h cjson := by
  funext g
  by_cases hgh : g = h
  · subst g
    simp [State.root, State.construct]
  · simp [State.root, State.construct, hgh]

theorem owners_setRef : (s.setRef h).owners = s.owners.erase h := by
  ext g
  rw [mem_owners, Finset.mem_erase, mem_owners]
  by_cases hgh : g = h
  · subst g
    simp [State.setRef]
  · simp [State.setRef, hgh]

theorem root_setRef : (s.setRef h).root = s.root := by
  funext g
  by_cases hgh : g = h
  · subst g
    simp [State.root, State.setRef]
  · simp [State.root, State.setRef, hgh]

theorem not_mem_owners (hh : h ∉ s.live) : h ∉ s.owners :=
  fun hmem => hh (mem_owners.mp hmem).1

/-- A new owner with a tree of its own. -/
theorem Valid.construct {heap : Nodes} {cjson : Option ℕ} {tree : ℕ → Shape}
    (hs : s.undefined = false)
    (w : Forested heap (insert h s.owners) (Function.update s.root h cjson) tree) :
    Valid (s.construct h heap ⟨cjson, false⟩) :=
  ⟨hs, tree, by rwa [owners_construct, root_construct]⟩

end States

section Creates

variable {H : Nodes} {S : Finset ℕ} {root : ℕ → Option ℕ} {tree : ℕ → Shape} {k : ℕ}

theorem create_builds (w : Forested H S root tree) (hk : k ∉ S) (item : Creation)
    (hread : item.Readable) :
    ∃ H' p t, create H item = some (H', p) ∧
      Forested H' (insert k S) (Function.update root k p) (Function.update tree k t) := by
  cases item with
  | intArray numbers count =>
    refine createIntArray_builds w hk numbers count ?_
    rintro l rfl
    exact hread
  | stringRef str =>
    refine ⟨_, _, _, rfl, newItem_builds w hk _ rfl rfl rfl fun _ => ?_⟩
    change (cJSONString ||| cJSONIsReference) &&& 0xFF = cJSONString
    decide
  | bool boolen =>
    refine ⟨_, _, _, rfl, newItem_builds w hk _ rfl rfl rfl fun href => absurd href ?_⟩
    rw [isReference_of_type (by cases boolen <;> decide)]
    decide
  | number num =>
    exact ⟨_, _, _, rfl, createNumber_builds w hk num⟩
  | string str =>
    refine ⟨_, _, _, rfl, newItem_builds w hk _ rfl rfl rfl fun href => absurd href ?_⟩
    rw [isReference_of_type (show cJSONString &&& cJSONIsReference = 0 by decide)]
    decide
  | _ =>
    refine ⟨_, _, _, rfl, newItem_builds w hk _ rfl rfl rfl fun href => absurd href ?_⟩
    rw [isReference_of_type (by decide)]
    decide

/-- A copy becomes a tree of its own and leaves every other node as it is. -/
theorem duplicateWhole_builds (w : Forested H S root tree) (hk : k ∉ S) (holder : JsonHolder)
    (hlive : ∀ a, holder.cjson = some a → H.cell a ≠ none) :
    ∃ H' p t, duplicateWhole H holder = some (H', p) ∧
      Forested H' (insert k S) (Function.update root k p) (Function.update tree k t) ∧
      ∀ y, Extends H H' y := by
  cases ha : holder.cjson with
  | none =>
    exact ⟨H, none, .nil, by simp [duplicateWhole, ha, duplicate], w.insert_null hk,
      fun _ _ hu => hu⟩
  | some a =>
    obtain ⟨v, hv⟩ := Option.ne_none_iff_exists'.mp (hlive a ha)
    obtain ⟨o, ho, hpos⟩ := w.covers (a := a) (by simp [hv])
    have hsize := Shape.size_children_lt hpos
    have hfresh := (w.holds o ho).size_le (w.distinct ho)
    obtain ⟨H', b, t, hdup, w', hext⟩ := (duplicate_builds (2 * H.fresh)).1 w hk hv
      ((w.holds o ho).children (w.distinct ho) hpos hv) (w.distinct ho).children (by omega)
    exact ⟨H', some b, t, by rw [duplicateWhole, ha, hdup], w', hext⟩

/-- The children of a live node, as the list that the look-ups walk along. -/
theorem children_chain {a : ℕ} {v : CJSON} (w : Forested H S root tree) (hv : H.cell a = some v) :
    ∃ o ∈ S, 0 < (tree o).count a ∧
      Chain H none v.child ((tree o).children a).siblings none := by
  obtain ⟨o, ho, hpos⟩ := w.covers (a := a) (by simp [hv])
  exact ⟨o, ho, hpos, ((w.holds o ho).children (w.distinct ho) hpos hv).chain⟩

theorem container_plain {a : ℕ} {v : CJSON} (w : Forested H S root tree) (hv : H.cell a = some v)
    (hkind : v.kind ≠ cJSONString) : v.isReference = false := by
  obtain ⟨o, ho, hpos⟩ := w.covers (a := a) (by simp [hv])
  obtain ⟨u, hu, hsound⟩ := w.live ho hpos
  obtain rfl := Option.some.inj (hv.symm.trans hu)
  exact isReference_of_sound hsound hkind

end Creates

section Moves

variable {H : Nodes} {S : Finset ℕ} {root : ℕ → Option ℕ} {tree : ℕ → Shape} {a b k x : ℕ}
variable {v : CJSON}

/-- A tree of its own is added to a container in another tree. -/
theorem addItemToArray_moves (w : Forested H S root tree) (hk : k ∈ S) (hv : H.cell a = some v)
    (hkind : v.kind ≠ cJSONString) (hout : (tree k).count a = 0) :
    ∃ H' ok tree', addItemToArray H (some a) (root k) = some (H', ok) ∧
      Forested H' (S.erase k) root tree' := by
  cases hb : root k with
  | none => exact ⟨H, false, tree, rfl, w.erase_null hk hb⟩
  | some b =>
    obtain ⟨o, ho, hpos, hchain⟩ := children_chain w hv
    have hok : o ≠ k := by
      intro heq
      subst heq
      omega
    obtain ⟨u, hu, -⟩ := w.live hk (w.root_count hk hb)
    obtain ⟨H', hadd, hattach⟩ :=
      addItemToArray_attaches hv (container_plain w hv hkind) hchain (b := b) (by simp [hu])
    exact ⟨H', true, _, hadd, w.attach hk ho hok hb hpos rfl hattach⟩

/-- What `add_item_to_object` makes of a node before it adds it. -/
def withName (c : CJSON) (key : Text) : CJSON :=
  { c with string := some key, type := c.type &&& ~~~cJSONStringIsConst }

theorem kind_withName (c : CJSON) (key : Text) : (withName c key).kind = c.kind := by
  have hmask : ~~~cJSONStringIsConst &&& 0xFF = 0xFF := by decide
  rw [CJSON.kind, withName, CJSON.kind, BitVec.and_assoc, hmask]

theorem isReference_withName (c : CJSON) (key : Text) :
    (withName c key).isReference = c.isReference := by
  have hmask : ~~~cJSONStringIsConst &&& cJSONIsReference = cJSONIsReference := by decide
  rw [CJSON.isReference, withName, CJSON.isReference, BitVec.and_assoc, hmask]

/-- Naming a node changes no links and no type. -/
theorem rename_keeps {u : CJSON} (hu : H.cell b = some u) (key : Text) (y : ℕ) :
    Keeps H (H.put b (withName u key)) y ∧
      ∀ v, H.cell y = some v →
        ∃ v', (H.put b (withName u key)).cell y = some v' ∧ v'.kind = v.kind := by
  by_cases hyb : y = b
  · subst y
    refine ⟨fun v hv => ?_, fun v hv => ?_⟩ <;> obtain rfl := Option.some.inj (hu.symm.trans hv)
    · refine ⟨_, Heap.cell_put_self hu _, rfl, rfl, rfl, fun hsound href => ?_⟩
      rw [isReference_withName] at href
      rw [kind_withName]
      exact hsound href
    · exact ⟨_, Heap.cell_put_self hu _, kind_withName u key⟩
  · have hsame := Heap.cell_put_of_ne H (withName u key) hyb
    exact ⟨Keeps.of_eq hsame, fun v hv => ⟨v, hsame.trans hv, rfl⟩⟩

theorem rename_forested {u : CJSON} (w : Forested H S root tree) (hu : H.cell b = some u)
    (key : Text) : Forested (H.put b (withName u key)) S root tree :=
  w.relabel (fun y => (rename_keeps hu key y).1) fun _ hy =>
    (Heap.cell_put_eq_none_iff hu _).mpr hy

theorem addItemToObject_eq {u : CJSON} (hu : H.cell b = some u) (key : Text) :
    addItemToObject H (some a) (some key) (some b) false =
      addItemToArray (H.put b (withName u key)) (some a) (some b) := by
  simp [addItemToObject, hu, withName]

theorem addItemToObject_moves (w : Forested H S root tree) (hk : k ∈ S) (hv : H.cell a = some v)
    (hkind : v.kind ≠ cJSONString) (hout : (tree k).count a = 0) (key : Text) :
    ∃ H' ok tree', addItemToObject H (some a) (some key) (root k) false = some (H', ok) ∧
      Forested H' (S.erase k) root tree' := by
  cases hb : root k with
  | none => exact ⟨H, false, tree, rfl, w.erase_null hk hb⟩
  | some b =>
    obtain ⟨u, hu, -⟩ := w.live hk (w.root_count hk hb)
    obtain ⟨v', hv', hkind'⟩ := (rename_keeps hu key a).2 v hv
    obtain ⟨H', ok, tree', hadd, w'⟩ :=
      addItemToArray_moves (rename_forested w hu key) hk hv' (by rwa [hkind']) hout
    rw [hb] at hadd
    exact ⟨H', ok, tree', (addItemToObject_eq hu key).trans hadd, w'⟩

/-- A child of a container is cut out and becomes a tree of its own. -/
theorem detach_moves {o : ℕ} (w : Forested H S root tree) (hk : k ∉ S) (ho : o ∈ S)
    (hpos : 0 < (tree o).count a) (hx : x ∈ ((tree o).children a).siblings) :
    ∃ H' tree', detachItemViaPointer H (some a) (some x) = some (H', some x) ∧
      Forested H' (insert k S) (Function.update root k (some x)) tree' := by
  obtain ⟨u, hu, -⟩ := w.live ho hpos
  have hchain := ((w.holds o ho).children (w.distinct ho) hpos hu).chain
  obtain ⟨w', hw'⟩ := hchain.live hx
  obtain ⟨hprev, hnext⟩ := neighbours_live hchain hx hw'
  obtain ⟨H', hdetach, hmove⟩ :=
    detachItemViaPointer_detaches (o := a) (by simp [hu]) hw' hprev hnext
  obtain ⟨before, under, behind, hsplit⟩ := Shape.split_siblings hx
  exact ⟨H', _, hdetach, w.detach hk ho hpos hsplit hw' hmove⟩

end Moves

section Steps

variable {s : State}

theorem checkKind_yields {α : Type} {P : α → Prop} {kind : BitVec 32} {excepted : String}
    {H : Nodes} {holder : JsonHolder} {c : CJSON} {f : Unit → Outcome α}
    (hc : deref H holder = some c)
    (hf : c.kind = kind → (f ()).Yields P) :
    (checkKind kind excepted H holder >>= f).Yields P := by
  by_cases hkind : c.kind = kind
  · simpa [checkKind, hc, hkind] using hf hkind
  · simp [checkKind, hc, hkind, Outcome.Yields]

theorem kind_ne_string {c : CJSON} {kind : BitVec 32} (hkind : c.kind = kind)
    (h : kind ≠ cJSONString) : c.kind ≠ cJSONString := hkind ▸ h

/-- A copy is made and moved into a container by the function add. -/
theorem copy_moves {c : CJSON} {a : ℕ} {holder : JsonHolder}
    (add : Nodes → Option ℕ → Option ℕ → Option (Nodes × Bool)) (hs : Valid s)
    (hc : s.heap.cell a = some c)
    (hlive : ∀ a, holder.cjson = some a → s.heap.cell a ≠ none)
    (hadd : ∀ {H : Nodes} {S : Finset ℕ} {root : ℕ → Option ℕ} {tree : ℕ → Shape} {k : ℕ},
      Forested H S root tree → k ∈ S → H.cell a = some c → (tree k).count a = 0 →
      ∃ H' ok tree', add H (some a) (root k) = some (H', ok) ∧
        Forested H' (S.erase k) root tree') :
    ∃ H₁ item H₂ ok, duplicateWhole s.heap holder = some (H₁, item) ∧
      add H₁ (some a) item = some (H₂, ok) ∧ Valid { s with heap := H₂ } := by
  obtain ⟨hdefined, tree, w⟩ := hs
  obtain ⟨k, hk⟩ := Infinite.exists_notMem_finset s.owners
  obtain ⟨H₁, item, t, hdup, w₁, hext⟩ := duplicateWhole_builds w hk holder hlive
  have hcount : (Function.update tree k t k).count a = 0 := by
    rw [Function.update_self]
    exact new_count w hk w₁ (by simp [hc])
  obtain ⟨H₂, ok, tree', hmove, w₂⟩ :=
    hadd w₁ (Finset.mem_insert_self k _) (hext a c hc) hcount
  rw [Function.update_self] at hmove
  refine ⟨H₁, item, H₂, ok, hdup, hmove, hdefined, tree', ?_⟩
  rw [Finset.erase_insert hk] at w₂
  refine w₂.congr (fun h hh => ?_) fun _ _ => rfl
  rw [Function.update_of_ne (by rintro rfl; exact hk hh)]
  rfl

theorem addItem_yields {array json : ℕ} (hs : Valid s) (hcare : Careful s (.addItem array json)) :
    (s.addItem array json).Yields Valid := by
  obtain ⟨c, hderef, hcond⟩ := hcare
  obtain ⟨a, ha, hc⟩ := deref_eq_some.mp hderef
  refine checkKind_yields hderef fun hkind => ?_
  obtain ⟨href, husable⟩ := hcond hkind
  obtain ⟨H₁, item, H₂, ok, hdup, hadd, hvalid⟩ := copy_moves addItemToArray hs hc husable
    fun w hk hv hout => addItemToArray_moves w hk hv (kind_ne_string hkind (by decide)) hout
  rw [if_neg (by simp [href]), hdup, ha]
  simp only [Outcome.lift_some, Outcome.value_bind, hadd]
  exact hvalid

theorem addItemTo_yields {object json : ℕ} {key : Text} (hs : Valid s) (hj : json ∈ s.live)
    (hcare : Careful s (.addItemTo object key json)) :
    (s.addItemTo object key json).Yields Valid := by
  obtain ⟨c, hderef, hcond⟩ := hcare
  obtain ⟨a, ha, hc⟩ := deref_eq_some.mp hderef
  refine checkKind_yields hderef fun hkind => ?_
  obtain ⟨husable, hnot⟩ := hcond hkind
  have hstring := kind_ne_string hkind (by decide)
  cases href : (s.holder json).ref with
  | false =>
    obtain ⟨hdefined, tree, w⟩ := hs
    have hk : json ∈ s.owners := mem_owners.mpr ⟨hj, href⟩
    have hout : (tree json).count a = 0 := by
      rcases Nat.eq_zero_or_pos ((tree json).count a) with hzero | hpos
      · exact hzero
      · cases hb : s.root json with
        | none =>
          rw [w.tree_null hk hb] at hpos
          cases hpos
        | some b => exact absurd (w.root_descends hk hb hpos) (hnot href a b ha hb)
    obtain ⟨H', ok, tree', hadd, w'⟩ := addItemToObject_moves w hk hc hstring hout key
    have hadd' : addItemToObject (s.setRef json).heap ((s.setRef json).holder object).cjson
        (some key) ((s.setRef json).holder json).cjson false = some (H', ok) := by
      have hroot := fun h => congrFun (root_setRef (s := s) (h := json)) h
      simp only [State.root] at hroot
      rw [hroot, hroot, ha]
      exact hadd
    rw [if_pos rfl]
    simp only [hadd', Outcome.lift_some, Outcome.value_bind]
    exact ⟨hdefined, tree', by
      change Forested H' (s.setRef json).owners (s.setRef json).root tree'
      rwa [owners_setRef, root_setRef]⟩
  | true =>
    obtain ⟨H₁, item, H₂, ok, hdup, hadd, hvalid⟩ := copy_moves
      (fun H object item => addItemToObject H object (some key) item false) hs hc husable
      fun w hk hv hout => addItemToObject_moves w hk hv hstring hout key
    rw [if_neg (by simp), hdup, ha]
    simp only [Outcome.lift_some, Outcome.value_bind, hadd]
    exact hvalid

/-- What both kinds of `pop` do with the child that they found, if they did. -/
theorem detach_yields {a h : ℕ} (item : Option ℕ) {v : CJSON} {e : Error} {l : List ℕ}
    (hs : Valid s) (hh : h ∉ s.live) (hv : s.heap.cell a = some v)
    (hchain : Chain s.heap none v.child l none) (hitem : ∀ x, item = some x → x ∈ l) :
    (do
      let (H, cjson) ← (liftM (detachItemViaPointer s.heap (some a) item) : Outcome _)
      match cjson with
      | none => .throws e
      | some cjson => pure (H, (⟨some cjson, false⟩ : JsonHolder)) :
        Outcome (Nodes × JsonHolder)).Yields
      fun r => (pure (s.construct h r.1 r.2) : Outcome State).Yields Valid := by
  cases item with
  | none => exact trivial
  | some x =>
    obtain ⟨hdefined, tree, w⟩ := hs
    obtain ⟨o, ho, hpos, hchain'⟩ := children_chain w hv
    have hx := hitem x rfl
    rw [hchain.unique hchain'] at hx
    obtain ⟨H', tree', hdetach, w'⟩ := detach_moves w (not_mem_owners hh) ho hpos hx
    simp only [hdetach, Outcome.lift_some, Outcome.value_bind]
    exact Valid.construct hdefined w'

/-- The children of the node that a holder refers to. -/
theorem Valid.children {k : ℕ} (hs : Valid s) (hcare : deref s.heap (s.holder k) ≠ none) :
    ∃ c a l, deref s.heap (s.holder k) = some c ∧ (s.holder k).cjson = some a ∧
      s.heap.cell a = some c ∧ Chain s.heap none c.child l none := by
  obtain ⟨c, hderef⟩ := Option.ne_none_iff_exists'.mp hcare
  obtain ⟨a, ha, hc⟩ := deref_eq_some.mp hderef
  obtain ⟨-, tree, w⟩ := hs
  obtain ⟨o, -, -, hchain⟩ := children_chain w hc
  exact ⟨c, a, _, hderef, ha, hc, hchain⟩

theorem popIndex_yields {h array : ℕ} {val : ℤ} (hs : Valid s) (hh : h ∉ s.live)
    (hcare : deref s.heap (s.holder array) ≠ none) :
    (perform s (.popIndex h array val)).Yields Valid := by
  obtain ⟨c, a, l, hderef, ha, hc, hchain⟩ := hs.children hcare
  refine Outcome.yields_bind (checkKind_yields hderef fun _ => ?_)
  simp only [detachItemFromArray, ha]
  by_cases hneg : val < 0
  · rw [if_pos hneg]
    exact detach_yields none hs hh hc hchain fun x hx => by cases hx
  · rw [if_neg hneg, getArrayItem_eq hc hchain]
    exact detach_yields _ hs hh hc hchain fun x hx => List.mem_of_getElem? hx

theorem popKey_yields {h object : ℕ} {key : Text} {caseSensitive : Bool} (hs : Valid s)
    (hh : h ∉ s.live) (hcare : deref s.heap (s.holder object) ≠ none) :
    (perform s (.popKey h object key caseSensitive)).Yields Valid := by
  obtain ⟨c, a, l, hderef, ha, hc, hchain⟩ := hs.children hcare
  refine Outcome.yields_bind (checkKind_yields hderef fun _ => ?_)
  have hfound : ∀ caseSensitive x,
      ((l.find? fun a => stops key caseSensitive (nameOf s.heap a)).filter
        fun a => (nameOf s.heap a).isSome) = some x → x ∈ l :=
    fun caseSensitive x hx =>
      List.mem_of_find?_eq_some (Option.filter_eq_some_iff.mp hx).1
  cases caseSensitive with
  | true =>
    simp only [if_true, detachItemFromObjectCaseSensitive, ha, getObjectItem_eq hc hchain]
    exact detach_yields _ hs hh hc hchain (hfound true)
  | false =>
    simp only [Bool.false_eq_true, if_false, detachItemFromObject, ha, getObjectItem_eq hc hchain]
    exact detach_yields _ hs hh hc hchain (hfound false)

theorem destroy_valid {h : ℕ} (hs : Valid s) (hh : h ∈ s.live) :
    ∃ t, s.destroy h = .value t ∧ Valid t ∧ t.live = s.live.erase h := by
  obtain ⟨hdefined, tree, w⟩ := hs
  have howners : ∀ H : Nodes, ({ s with heap := H, live := s.live.erase h } : State).owners =
      s.owners.erase h := fun H => by
    simp only [State.owners, Finset.filter_erase]
  cases href : (s.holder h).ref with
  | true =>
    refine ⟨{ s with live := s.live.erase h }, by simp [State.destroy, href],
      ⟨hdefined, tree, ?_⟩, rfl⟩
    have hnot : h ∉ s.owners := fun hmem => by simp [mem_owners, href] at hmem
    have := howners s.heap
    rw [Finset.erase_eq_of_notMem hnot] at this
    rw [show ({ s with live := s.live.erase h } : State).owners = s.owners from this]
    exact w
  | false =>
    obtain ⟨H', hdelete, w'⟩ := delete_tree w (mem_owners.mpr ⟨hh, href⟩)
    refine ⟨{ s with heap := H', live := s.live.erase h }, ?_, ⟨hdefined, tree, ?_⟩, rfl⟩
    · change delete s.heap.fresh s.heap (s.holder h).cjson = some H' at hdelete
      simp [State.destroy, href, hdelete]
    · rw [howners]
      exact w'

/-- A careful step keeps the invariant and is defined. -/
theorem perform_yields {op : Op} (hs : Valid s) (hlegal : Legal s op) (hcare : Careful s op) :
    (perform s op).Yields Valid := by
  obtain ⟨-, hlegal⟩ := hlegal
  cases op with
  | create h item =>
    obtain ⟨hdefined, tree, w⟩ := hs
    obtain ⟨H', p, t, hcreate, w'⟩ := create_builds w (not_mem_owners hlegal.1) item hlegal.2
    simp only [perform, hcreate, Outcome.lift_some, Outcome.value_bind]
    exact Valid.construct hdefined w'
  | copy h src =>
    obtain ⟨hdefined, tree, w⟩ := hs
    obtain ⟨H', p, t, hdup, w', -⟩ :=
      duplicateWhole_builds w (not_mem_owners hlegal.1) (s.holder src) hcare
    simp only [perform, hdup, Outcome.lift_some, Outcome.value_bind]
    exact Valid.construct hdefined w'
  | addItem array json => exact addItem_yields hs hcare
  | addItemTo object key json => exact addItemTo_yields hs hlegal.2 hcare
  | popIndex h array val => exact popIndex_yields hs hlegal.1 hcare
  | popKey h object key caseSensitive => exact popKey_yields hs hlegal.1 hcare
  | destroy h =>
    obtain ⟨t, ht, hvalid, -⟩ := destroy_valid hs hlegal
    simp only [perform, ht]
    exact hvalid

end Steps

end BoxUtils.Json
