import Mathlib.Data.Fintype.EquivFin
import BoxUtils.CJsonLinks
import BoxUtils.LinkedForest

/-!
The cJSON functions that work on whole trees. Deleting gives up exactly the
nodes of the tree, each of them once; duplicating and creating arrays build a
new tree next to those that are there. Each is proved to come to an end with
the rounds it is given.
-/
namespace BoxUtils.CJson

open LinkedShapes LinkedForest

section Delete

theorem delete_eq {H : Nodes} {q p : Option ℕ} {t : Shape} {n : ℕ} (h : Holds H q p t none)
    (hd : t.Distinct) (hn : t.size ≤ n) :
    ∃ H', delete n H p = some H' ∧
      ∀ y, H'.cell y = if 0 < t.count y then none else H.cell y := by
  induction t generalizing H q p n with
  | nil =>
    obtain rfl : p = none := h
    refine ⟨H, by cases n <;> rfl, fun y => ?_⟩
    simp
  | node a c nx ihc ihn =>
    obtain ⟨rfl, v, hv, -, hsound, hc, hnx⟩ := h
    simp only [linked_child, linked_next] at hc hnx
    rw [Shape.size] at hn
    obtain ⟨n, rfl⟩ : ∃ k, n = k + 1 := ⟨n - 1, by omega⟩
    obtain ⟨hca, hna⟩ := hd.top
    -- the children, unless the node is a reference and has none
    obtain ⟨H₁, h₁, hcell₁⟩ : ∃ H₁,
        (if v.isReference then some H else delete n H v.child) = some H₁ ∧
          ∀ y, H₁.cell y = if 0 < c.count y then none else H.cell y := by
      cases href : v.isReference with
      | false => exact ihc hc hd.child (by omega)
      | true =>
        have hnil : c = .nil := by
          rw [(hsound href).1] at hc
          cases c with
          | nil => rfl
          | node b cb nb => cases hc.1
        exact ⟨H, rfl, fun y => by simp [hnil]⟩
    have ha₁ : H₁.cell a = some v := by rw [hcell₁, if_neg (by omega), hv]
    -- the node itself, then its later siblings
    have hnx' : Holds (H₁.erase a) (some a) v.next nx none := hnx.congr fun y hy => by
      obtain ⟨hay, hcy⟩ := hd.child_of_next hy
      rw [Heap.cell_erase_of_ne _ (Ne.symm hay), hcell₁, if_neg (by omega)]
    obtain ⟨H₂, h₂, hcell₂⟩ := ihn hnx' hd.next (n := n) (by omega)
    refine ⟨H₂, ?_, fun y => ?_⟩
    · simp only [delete, hv, Option.bind_eq_bind, Option.bind_some, h₁, Heap.free_eq ha₁, h₂]
    · rw [hcell₂, Shape.count_node]
      by_cases hay : a = y
      · subst y
        simp
      · rw [Heap.cell_erase_of_ne _ (Ne.symm hay), hcell₁]
        by_cases hcy : 0 < c.count y <;> by_cases hny : 0 < nx.count y <;>
          simp [hay, hcy, hny]

/-- The tree of a root is deleted as a whole. -/
theorem delete_tree {H : Nodes} {S : Finset ℕ} {root : ℕ → Option ℕ} {tree : ℕ → Shape} {k : ℕ}
    (w : Forested H S root tree) (hk : k ∈ S) :
    ∃ H', delete H.fresh H (root k) = some H' ∧ Forested H' (S.erase k) root tree := by
  obtain ⟨H', hdelete, hcell⟩ :=
    delete_eq (w.holds k hk) (w.distinct hk) ((w.holds k hk).size_le (w.distinct hk))
  exact ⟨H', hdelete, w.delete hk hcell⟩

end Delete

section Build

variable {H : Nodes} {S : Finset ℕ} {root : ℕ → Option ℕ} {tree : ℕ → Shape} {t : Shape}
variable {a b d k x y : ℕ} {last : Option ℕ} {v : CJSON}

theorem isReference_of_type {c : CJSON} (h : c.type &&& cJSONIsReference = 0) :
    c.isReference = false := by
  simp [CJSON.isReference, h]

theorem crosswire_attaches (hv : H.cell b = some v)
    (hlast : ∀ l, last = some l → H.cell l ≠ none) (href : last = none → v.isReference = false)
    (hx : H.cell x ≠ none) :
    ∃ H', crosswire H b last x = some H' ∧ Attaches H H' x b last ∧
      ∀ y, y ≠ b → y ≠ x → last ≠ some y → H'.cell y = H.cell y := by
  cases last with
  | none =>
    obtain ⟨H', hmod, hattach, hout⟩ := modify_child_attaches hv (href rfl) x
    exact ⟨H', hmod, hattach, fun y hyb _ _ => hout y hyb⟩
  | some l =>
    obtain ⟨H', hsuffix, hattach, hout⟩ := suffixObject_attaches (hlast l rfl) hx b
    exact ⟨H', hsuffix, hattach, fun y _ hyx hyl => hout y (fun h => hyl (by rw [h])) hyx⟩

/-- A node under construction takes a new tree as its last child. -/
theorem crosswire_grows (hd : d ∉ S)
    (w : Forested H (insert d S) (Function.update root d (some x)) (Function.update tree d t))
    (hk : k ∈ S) (hb : 0 < (tree k).count b)
    (hlast : ((tree k).children b).siblings.getLast? = last) (hv : H.cell b = some v)
    (href : last = none → v.isReference = false) :
    ∃ H' t', crosswire H b last x = some H' ∧ Forested H' S root (Function.update tree k t') ∧
      0 < t'.count b ∧ (t'.children b).siblings.getLast? = some x ∧
      (∀ y, t'.count y = (tree k).count y + t.count y) ∧
      (∀ y, (tree k).count y = 0 → t.count y = 0 → H'.cell y = H.cell y) ∧
      ∃ v', H'.cell b = some v' := by
  have hdS := Finset.mem_insert_self d S
  have hkd : k ≠ d := ne_of_mem_of_not_mem hk hd
  have hx := w.root_count hdS (Function.update_self ..)
  obtain ⟨u, hu, -⟩ := w.live hdS hx
  rw [Function.update_self] at hx
  have hlast_pos : ∀ l, last = some l → 0 < (tree k).count l := fun l hl =>
    Nat.lt_of_lt_of_le (Shape.count_pos_of_mem_siblings (List.mem_of_getLast? (hlast.trans hl)))
      (Shape.count_children_le _ _ _)
  obtain ⟨H', hwire, hattach, hout⟩ := crosswire_attaches (x := x) hv (fun l hl => by
    obtain ⟨ul, hul, -⟩ := w.live (k := k) (Finset.mem_insert_of_mem hk)
      (by rw [Function.update_of_ne hkd]; exact hlast_pos l hl)
    simp [hul]) href (by simp [hu])
  obtain ⟨t', w', hb', hlast', hcount⟩ := w.attach_new hd hk hb hlast hattach
  obtain ⟨v', hv', -⟩ := hattach.link b v hv
  refine ⟨H', t', hwire, w', hb', hlast', hcount, fun y hyk hyt => hout y ?_ ?_ fun hl => ?_,
    v', hv'⟩
  · exact Ne.symm (Shape.ne_of_count hb hyk)
  · exact Ne.symm (Shape.ne_of_count hx hyt)
  · have := hlast_pos y hl
    omega

/-- A tree that was built takes no node that was there before. -/
theorem new_count {H₁ : Nodes} {p : Option ℕ} (w : Forested H S root tree) (hd : d ∉ S)
    (w₁ : Forested H₁ (insert d S) (Function.update root d p) (Function.update tree d t))
    (hy : H.cell y ≠ none) : t.count y = 0 := by
  obtain ⟨o, ho, hpos⟩ := w.covers hy
  have hod : o ≠ d := ne_of_mem_of_not_mem ho hd
  have := w₁.apart (Finset.mem_insert_of_mem ho) (Finset.mem_insert_self d S) (Ne.symm hod)
    (a := y) (by rwa [Function.update_of_ne hod])
  rwa [Function.update_self] at this

end Build

section Duplicate

variable {n : ℕ}

theorem duplicate_type (type : BitVec 32) :
    type &&& ~~~cJSONIsReference &&& cJSONIsReference = 0 := by
  rw [BitVec.and_assoc, show ~~~cJSONIsReference &&& cJSONIsReference = 0#32 by decide]
  exact BitVec.and_zero

/-- The node that a duplicate starts from: what the original says, without its links. -/
def CJSON.bare (v : CJSON) : CJSON :=
  { type := v.type &&& ~~~cJSONIsReference, valueint := v.valueint,
    valuedouble := v.valuedouble, valuestring := v.valuestring, string := v.string }

theorem CJSON.isReference_bare (v : CJSON) : v.bare.isReference = false :=
  isReference_of_type (duplicate_type v.type)

theorem CJSON.kind_bare (v : CJSON) : v.bare.kind = v.kind := by
  have hmask : ~~~cJSONIsReference &&& 0xFF = 0xFF := by decide
  rw [bare, kind, kind, BitVec.and_assoc, hmask]

theorem duplicate_eq {H : Nodes} {a : ℕ} {v : CJSON} (hv : H.cell a = some v) :
    duplicate (n + 1) H (some a) true =
      (duplicateChildren n (H.alloc v.bare) H.fresh none v.child).map
        fun H' => (H', some H.fresh) := by
  simp only [duplicate, hv, newItem, CJSON.bare, Option.bind_eq_bind, Option.bind_some, if_true,
    Option.map_eq_bind, Function.comp_def]

/-- A live node stays as it is. -/
def Extends (H H' : Nodes) (y : ℕ) : Prop := ∀ u, H.cell y = some u → H'.cell y = some u

theorem Extends.keeps {H H' : Nodes} {y : ℕ} (h : Extends H H' y) : Keeps H H' y :=
  fun u hu => ⟨u, h u hu, rfl, rfl, rfl, id⟩

/-- With n rounds a node is duplicated into a new tree. -/
def Duplicates (n : ℕ) : Prop :=
  ∀ {H : Nodes} {S : Finset ℕ} {root : ℕ → Option ℕ} {tree : ℕ → Shape} {k a : ℕ} {v : CJSON}
    {c : Shape}, Forested H S root tree → k ∉ S → H.cell a = some v →
    Holds H none v.child c none → c.Distinct → 2 * c.size + 1 ≤ n →
    ∃ H' b t, duplicate n H (some a) true = some (H', some b) ∧
      Forested H' (insert k S) (Function.update root k (some b)) (Function.update tree k t) ∧
      ∀ y, Extends H H' y

/-- With n rounds the children from pointer p on are duplicated into the tree of b. -/
def DuplicatesChildren (n : ℕ) : Prop :=
  ∀ {H : Nodes} {S : Finset ℕ} {root : ℕ → Option ℕ} {tree : ℕ → Shape} {k b : ℕ}
    {l q p : Option ℕ} {s : Shape} {v : CJSON}, Forested H S root tree → k ∈ S →
    0 < (tree k).count b → ((tree k).children b).siblings.getLast? = l →
    H.cell b = some v → (l = none → v.isReference = false) →
    Holds H q p s none → s.Distinct → (∀ y, 0 < s.count y → (tree k).count y = 0) →
    2 * s.size ≤ n →
    ∃ H' t, duplicateChildren n H b l p = some H' ∧
      Forested H' S root (Function.update tree k t) ∧
      ∀ y, (tree k).count y = 0 → Extends H H' y

/-- Behind the last child nothing is left to do. -/
theorem duplicatesChildren_null (n : ℕ) (w : Forested H S root tree) (k b : ℕ) (l : Option ℕ) :
    ∃ H' t, duplicateChildren n H b l none = some H' ∧
      Forested H' S root (Function.update tree k t) ∧
      ∀ y, (tree k).count y = 0 → Extends H H' y := by
  refine ⟨H, tree k, by simp [duplicateChildren], ?_, fun _ _ _ hu => hu⟩
  rwa [Function.update_eq_self]

theorem duplicates_zero : Duplicates 0 :=
  fun _ _ _ _ _ hn => absurd hn (by omega)

theorem duplicatesChildren_zero : DuplicatesChildren 0 := by
  intro H S root tree k b last q p s v w _ _ _ _ _ hs _ _ hn
  cases s with
  | nil =>
    obtain rfl : p = none := hs
    exact duplicatesChildren_null _ w k b last
  | node => simp [Shape.size] at hn

theorem duplicates_succ (ih : DuplicatesChildren n) : Duplicates (n + 1) := by
  intro H S root tree k a v c w hk hv hc hcd hn
  have href := v.isReference_bare
  have w₁ := w.alloc hk (v := v.bare) rfl rfl rfl fun h => by simp [href] at h
  have halloc : ∀ y, Extends H (H.alloc v.bare) y :=
    fun y u hu => Heap.cell_alloc_of_live v.bare hu
  have hzero : ∀ y u, H.cell y = some u →
      (Function.update tree k (.node H.fresh .nil .nil) k).count y = 0 := fun y u hu => by
    simp [Shape.count_node, Nat.ne_of_gt (Heap.lt_fresh hu)]
  obtain ⟨H', t, hchildren, hw, hext⟩ := ih w₁ (Finset.mem_insert_self k S)
    (b := H.fresh) (l := none) (v := v.bare) (s := c) (p := v.child) (q := none)
    (by simp [Shape.count_node]) (by simp [Shape.children_top, Shape.siblings])
    (Heap.cell_alloc_self H v.bare) (fun _ => href) (hc.frame fun y _ => (halloc y).keeps) hcd
    (fun y hy => by
      obtain ⟨u, hu, -⟩ := hc.live hy
      exact hzero y u hu) (by omega)
  refine ⟨H', H.fresh, t, ?_, ?_, fun y u hu => hext y (hzero y u hu) u (halloc y u hu)⟩
  · rw [duplicate_eq hv, hchildren, Option.map_some]
  · rwa [Function.update_idem] at hw

theorem duplicatesChildren_succ (ihdup : Duplicates n) (ih : DuplicatesChildren n) :
    DuplicatesChildren (n + 1) := by
  intro H S root tree k b last q p s v w hk hb hlast hv href hs hd hout hn
  cases s with
  | nil =>
    obtain rfl : p = none := hs
    exact duplicatesChildren_null _ w k b last
  | node a c nx =>
    obtain ⟨rfl, u, hu, -, -, hc, hnx⟩ := hs
    simp only [linked_child, linked_next] at hc hnx
    rw [Shape.size] at hn
    obtain ⟨d, hdS⟩ := Infinite.exists_notMem_finset S
    obtain ⟨H₁, x, t₁, hdup, w₁, hext₁⟩ := ihdup w hdS hu hc hd.child (by omega)
    obtain ⟨H₂, t₂, hwire, w₂, hb₂, hlast₂, hcount₂, hcell₂, v₂, hv₂⟩ :=
      crosswire_grows hdS w₁ hk hb hlast (hext₁ b v hv) href
    have hnew : ∀ y u, H.cell y = some u → t₁.count y = 0 := fun y u hu =>
      new_count w hdS w₁ (by simp [hu])
    have hext₂ : ∀ y, (tree k).count y = 0 → Extends H H₂ y := fun y hy uy huy => by
      rw [hcell₂ y hy (hnew y uy huy), hext₁ y uy huy]
    have hzero₂ : ∀ y u, H.cell y = some u → (tree k).count y = 0 →
        (Function.update tree k t₂ k).count y = 0 := fun y uy huy hy => by
      rw [Function.update_self, hcount₂, hy, hnew y uy huy]
    have hbehind : ∀ y, 0 < nx.count y → ∃ uy, H.cell y = some uy ∧ (tree k).count y = 0 := by
      intro y hy
      obtain ⟨uy, huy, -⟩ := hnx.live hy
      exact ⟨uy, huy, hout y (by rw [Shape.count_node]; omega)⟩
    obtain ⟨H₃, t₃, hrest, w₃, hext₃⟩ := ih w₂ hk (b := b) (l := some x) (v := v₂)
      (s := nx) (q := some a) (p := u.next) (by rwa [Function.update_self])
      (by rwa [Function.update_self]) hv₂ (fun h => by cases h)
      (hnx.frame fun y hy => by
        obtain ⟨uy, -, hy0⟩ := hbehind y hy
        exact (hext₂ y hy0).keeps)
      hd.next (fun y hy => by
        obtain ⟨uy, huy, hy0⟩ := hbehind y hy
        exact hzero₂ y uy huy hy0) (by omega)
    have ha₂ := hext₂ a (hout a (by rw [Shape.count_node, if_pos rfl]; omega)) u hu
    refine ⟨H₃, t₃, ?_, by rwa [Function.update_idem] at w₃, fun y hy uy huy =>
      hext₃ y (hzero₂ y uy huy hy) uy (hext₂ y hy uy huy)⟩
    simp only [duplicateChildren, hdup, Option.bind_eq_bind, Option.bind_some, hwire, ha₂, hrest]

/-- Duplicating adds a new tree and changes no other node. -/
theorem duplicate_builds (n : ℕ) : Duplicates n ∧ DuplicatesChildren n := by
  induction n with
  | zero => exact ⟨duplicates_zero, duplicatesChildren_zero⟩
  | succ n ih => exact ⟨duplicates_succ ih.2, duplicatesChildren_succ ih.1 ih.2⟩

end Duplicate

section Create

variable {H : Nodes} {S : Finset ℕ} {root : ℕ → Option ℕ} {tree : ℕ → Shape} {k : ℕ}

theorem newItem_builds (w : Forested H S root tree) (hk : k ∉ S) (item : CJSON)
    (hprev : item.prev = none) (hnext : item.next = none) (hchild : item.child = none)
    (hkind : item.isReference → item.kind = cJSONString) :
    Forested (newItem H item).1 (insert k S) (Function.update root k (some (newItem H item).2))
      (Function.update tree k (.node H.fresh .nil .nil)) :=
  w.alloc hk hprev hnext hchild fun href => ⟨hchild, hkind href⟩

theorem createNumber_builds (w : Forested H S root tree) (hk : k ∉ S) (num : Double) :
    Forested (createNumber H num).1 (insert k S)
      (Function.update root k (some (createNumber H num).2))
      (Function.update tree k (.node H.fresh .nil .nil)) :=
  newItem_builds w hk _ rfl rfl rfl fun href =>
    absurd href (by simp [CJSON.isReference]; decide)

theorem createIntArrayLoop_builds (numbers : List ℤ) {b i : ℕ} (left : ℕ) {p : Option ℕ}
    {v : CJSON} (w : Forested H S root tree) (hk : k ∈ S) (hb : 0 < (tree k).count b)
    (hlast : ((tree k).children b).siblings.getLast? = p) (hv : H.cell b = some v)
    (href : p = none → v.isReference = false) (hip : i = 0 ↔ p = none)
    (hlen : i + left ≤ numbers.length) :
    ∃ H' t, createIntArrayLoop numbers b left i p H = some H' ∧
      Forested H' S root (Function.update tree k t) := by
  induction left generalizing H i p v tree with
  | zero => exact ⟨H, tree k, rfl, by rwa [Function.update_eq_self]⟩
  | succ left ih =>
    obtain ⟨d, hdS⟩ := Infinite.exists_notMem_finset S
    have hnumber : numbers[i]? = some numbers[i] := List.getElem?_eq_getElem (by omega)
    obtain ⟨H₁, x, hcreate⟩ : ∃ H₁ x, createNumber H (.finite numbers[i]) = (H₁, x) :=
      ⟨_, _, rfl⟩
    have w₁ := createNumber_builds w hdS (.finite numbers[i])
    have hv₁ : H₁.cell b = some v := by
      rw [show H₁ = (createNumber H (.finite numbers[i])).1 from (congrArg Prod.fst hcreate).symm]
      exact Heap.cell_alloc_of_live _ hv
    rw [hcreate] at w₁
    obtain ⟨H₂, t₂, hwire, w₂, hb₂, hlast₂, -, -, v₂, hv₂⟩ :=
      crosswire_grows hdS w₁ hk hb hlast hv₁ href
    have hlink : (if i = 0 then H₁.modify b fun c => { c with child := some x }
        else suffixObject H₁ p x) = some H₂ := by
      cases p with
      | none => rw [if_pos (hip.mpr rfl)]; exact hwire
      | some l => rw [if_neg fun h => by cases hip.mp h]; exact hwire
    obtain ⟨H₃, t₃, hloop, w₃⟩ := ih w₂ (i := i + 1) (p := some x)
      (by rwa [Function.update_self]) (by rwa [Function.update_self]) hv₂ (fun h => by cases h)
      (by simp) (by omega)
    refine ⟨H₃, t₃, ?_, by rwa [Function.update_idem] at w₃⟩
    simp only [createIntArrayLoop, hnumber, Option.bind_eq_bind, Option.bind_some, hcreate, hlink,
      hloop]

theorem createIntArray_builds (w : Forested H S root tree) (hk : k ∉ S)
    (numbers : Option (List ℤ)) (count : ℤ) (hlen : ∀ l, numbers = some l → count ≤ l.length) :
    ∃ H' p t, createIntArray H numbers count = some (H', p) ∧
      Forested H' (insert k S) (Function.update root k p) (Function.update tree k t) := by
  cases numbers with
  | none => exact ⟨H, none, .nil, rfl, w.insert_null hk⟩
  | some numbers =>
    by_cases hneg : count < 0
    · exact ⟨H, none, .nil, by simp [createIntArray, hneg], w.insert_null hk⟩
    · have w₁ := newItem_builds w hk { type := cJSONArray } rfl rfl rfl
        fun href => absurd href (by decide)
      have hcount := hlen numbers rfl
      obtain ⟨H', t, hloop, w'⟩ := createIntArrayLoop_builds numbers (b := H.fresh)
        (i := 0) count.toNat (p := none) (v := { type := cJSONArray }) w₁
        (Finset.mem_insert_self k S) (by simp [Shape.count_node])
        (by simp [Shape.children_top, Shape.siblings]) (Heap.cell_alloc_self H _)
        (fun _ => by decide) (by simp) (by omega)
      refine ⟨H', some H.fresh, t, ?_, by rwa [Function.update_idem] at w'⟩
      simp only [createIntArray, if_neg hneg, createArray, Option.bind_eq_bind]
      rw [show (newItem H { type := cJSONArray }) =
        ((newItem H { type := cJSONArray }).1, H.fresh) from rfl]
      simp only [hloop, Option.bind_some]

end Create

end BoxUtils.CJson
