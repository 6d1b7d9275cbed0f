import BoxUtils.Xml

/-!
One owner for each node, over all sequences of operations on documents and nodes. The
invariant is a forest of the trees that the holders free. Careful steps keep it. The step
that makes an owned node the root of a document with a root leaves the old one to nobody.
-/
namespace BoxUtils.LXml

open Linked LinkedShapes LinkedForest LinkedTrees Shared Runs Function

def State.root (s : State) (k : ℕ) : Option ℕ := (read s.holders k).bind Holder.owned

/-- The invariant of a reachable state. -/
structure Valid (s : State) : Prop where
  defined : s.undefined = false
  owned : Owned s.nodes (Finset.range s.holders.fresh) s.root

section Holders

variable {s t : State} {a k x : ℕ} {holder : Holder}

theorem mem_range (h : read s.holders k = some holder) : k ∈ Finset.range s.holders.fresh := by
  obtain ⟨n, hcell⟩ := read_eq_some_iff.mp h
  exact Finset.mem_range.mpr (Heap.lt_fresh hcell)

theorem root_eq_some : s.root k = some x ↔ Owns s (.document k) x ∨ Owns s (.holder k) x := by
  simp only [State.root, Owns]
  cases read s.holders k with
  | none => simp
  | some holder =>
    cases holder with
    | xml root => simp [Holder.owned]
    | node y ref => cases ref <;> simp [Holder.owned]

theorem mem_of_root (h : s.root k = some x) : k ∈ Finset.range s.holders.fresh := by
  obtain ⟨holder, hread, -⟩ := Option.bind_eq_some_iff.mp h
  exact mem_range hread

/-- A holder is written in place. -/
theorem setHolder_eq (h : read s.holders a ≠ none) (holder : Holder) :
    ∃ t, s.setHolder a holder = some t ∧ t.nodes = s.nodes ∧ t.undefined = s.undefined ∧
      t.holders.fresh = s.holders.fresh ∧
      ∀ k, read t.holders k = if k = a then some holder else read s.holders k := by
  obtain ⟨holder', hread⟩ := Option.ne_none_iff_exists'.mp h
  obtain ⟨n, hcell⟩ := read_eq_some_iff.mp hread
  exact ⟨{ s with holders := s.holders.put a ⟨holder, n⟩ },
    by rw [State.setHolder, write_eq hcell, Option.map_some], rfl, rfl, rfl, read_put hcell _⟩

theorem root_setHolder
    (h : ∀ k, read t.holders k = if k = a then some holder else read s.holders k) :
    t.root = update s.root a holder.owned := by
  funext k
  rw [State.root, h]
  by_cases hka : k = a
  · rw [if_pos hka, hka, update_self, Option.bind_some]
  · rw [if_neg hka, update_of_ne hka, State.root]

/-- The owned node of a has become the root of d. -/
theorem root_setRoot {d node : ℕ} (hda : d ≠ a)
    (h : ∀ k, read t.holders k = if k = d then some (.xml (some node))
      else if k = a then some (.node node true) else read s.holders k) :
    t.root = update (update s.root d (some node)) a none := by
  funext k
  rw [State.root, h]
  by_cases hkd : k = d
  · rw [if_pos hkd, hkd, update_of_ne hda, update_self, Option.bind_some, Holder.owned]
  · rw [if_neg hkd]
    by_cases hka : k = a
    · rw [if_pos hka, hka, update_self, Option.bind_some, Holder.owned]
    · rw [if_neg hka, update_of_ne hka, update_of_ne hkd, State.root]

theorem root_construct (H : XmlNodes) (holder : Holder) :
    ({ s with nodes := H }.construct holder).root =
      update s.root s.holders.fresh holder.owned := by
  funext k
  rw [State.root, State.construct, read_make]
  by_cases hk : k = s.holders.fresh
  · rw [if_pos hk, hk, update_self, Option.bind_some]
  · rw [if_neg hk, update_of_ne hk, State.root]

end Holders

section Trees

variable {lib : LibXml} {s : State} {H : XmlNodes} {S : Finset ℕ} {root : ℕ → Option ℕ}
variable {b k p x : ℕ} {v : XmlNode}

theorem copyNode_owned (lib : LibXml) (h : Owned H S root) (hv : H.cell x = some v) :
    ∃ H' copy, lib.xmlCopyNode H x = some (H', copy) ∧ Adds H H' (some copy) := by
  obtain ⟨t, hholds, hd⟩ := h.below hv
  exact lib.xmlCopyNode_adds hv hholds hd

/-- The root of a tree is linked under another node. -/
theorem addChild_owned (lib : LibXml) (h : Owned H S root) (hk : k ∈ S) (hb : root k = some b)
    (hv : H.cell p = some v) (hpb : p ≠ b) : ∃ t H', lib.xmlAddChild H p b = some H' ∧
      Holds H none (child v) t none ∧ Attaches H H' b p t.siblings.getLast? := by
  obtain ⟨t, hholds, hd⟩ := h.below hv
  obtain ⟨u, hu⟩ := h.root_live hk hb
  obtain ⟨tree, w⟩ := h
  have hlive : H.cell b ≠ none := by simp [hu]
  obtain ⟨H', hadd, hattach⟩ := lib.xmlAddChild_links hv hholds hd hlive
    (fun q => w.root_not_child hk hb) hpb
  exact ⟨t, H', hadd, hholds, hattach⟩

/-- The tree of an owner is freed. -/
theorem free_owned (lib : LibXml) (h : Owned s.nodes S root) (hk : k ∈ S) :
    ∃ H', s.free lib (root k) = some { s with nodes := H' } ∧
      Owned H' S (update root k none) := by
  cases hroot : root k with
  | none => exact ⟨s.nodes, rfl, by rw [← hroot, update_eq_self]; exact h⟩
  | some x =>
    obtain ⟨v, hv⟩ := h.root_live hk hroot
    obtain ⟨t, hholds, hd⟩ := h.below hv
    obtain ⟨H', hfree, hcell⟩ := lib.xmlFreeNode_frees hv hholds hd
    refine ⟨H', ?_, h.free hk hroot hv hholds hcell⟩
    simp only [State.free, hv, hfree, Option.bind_eq_bind, Option.bind_some]

end Trees

section Keeping

variable {lib : LibXml} {s t : State} {op : Op} {H : XmlNodes} {holder : Holder}
variable {a d p node : ℕ} {ref : Bool}

theorem node_eq_some : s.node a = some (node, ref) ↔
    read s.holders a = some (.node node ref) ∧ s.nodes.cell node ≠ none := by
  constructor
  · intro h
    unfold State.node at h
    split at h
    case h_1 x r hread =>
      obtain ⟨v, hv, heq⟩ := Option.map_eq_some_iff.mp h
      obtain ⟨rfl, rfl⟩ : x = node ∧ r = ref := by simpa using heq
      exact ⟨hread, by simp [hv]⟩
    case h_2 => cases h
  · rintro ⟨hread, hlive⟩
    obtain ⟨v, hv⟩ := Option.ne_none_iff_exists'.mp hlive
    simp [State.node, hread, hv]

/-- An owned node is the root of its tree. -/
theorem root_of_owned (h : s.node a = some (node, false)) : s.root a = some node := by
  rw [State.root, (node_eq_some.mp h).1]
  rfl

theorem Valid.construct (hs : Valid s) (holder : Holder) (hadds : Adds s.nodes H holder.owned) :
    Valid ({ s with nodes := H }.construct holder) := by
  refine ⟨hs.defined, ?_⟩
  have hgrown := (hs.owned.grow Finset.notMem_range_self).adopt
    (Finset.mem_insert_self _ _) (update_self _ _ _) hadds
  rw [update_idem, ← Finset.range_add_one] at hgrown
  rw [root_construct]
  exact hgrown

theorem Valid.congr (hs : Valid s) (hdefined : t.undefined = s.undefined)
    (hnodes : t.nodes = s.nodes) (hfresh : t.holders.fresh = s.holders.fresh)
    (hread : ∀ k, read t.holders k = read s.holders k) : Valid t := by
  refine ⟨hdefined.trans hs.defined, ?_⟩
  rw [hnodes, hfresh]
  exact hs.owned.congr fun k _ => by rw [State.root, hread, State.root]

theorem share_valid (hs : Valid s) (ha : s.holders.cell a ≠ none) :
    ∃ t, perform lib s (.share a) = some t ∧ Valid t := by
  obtain ⟨⟨holder, n⟩, hcell⟩ := Option.ne_none_iff_exists'.mp ha
  exact ⟨{ s with holders := s.holders.put a ⟨holder, n + 1⟩ },
    by simp only [perform, share_eq hcell, Option.map_some],
    hs.congr rfl rfl rfl (read_put_same hcell _)⟩

theorem destroy_valid (hs : Valid s) (ha : s.holders.cell a ≠ none) :
    ∃ t, s.destroy lib a = some t ∧ Valid t := by
  obtain ⟨⟨holder, n⟩, hcell⟩ := Option.ne_none_iff_exists'.mp ha
  have hroot : s.root a = holder.owned := by rw [State.root, read_eq hcell, Option.bind_some]
  by_cases hlast : n - 1 ≤ 0
  · have hmem := mem_range (read_eq hcell)
    obtain ⟨H', hfree, howned⟩ := free_owned (s := { s with holders := s.holders.erase a }) lib
      hs.owned hmem
    rw [hroot] at hfree
    refine ⟨⟨H', s.holders.erase a, s.undefined⟩, ?_, hs.defined, ?_⟩
    · simp only [State.destroy, drop, hcell, Option.bind_eq_bind, Option.bind_some, if_pos hlast,
        hfree]
    · refine howned.congr fun k _ => ?_
      rw [State.root, read_erase]
      by_cases hka : k = a
      · rw [if_pos hka, hka, update_self, Option.bind_none]
      · rw [if_neg hka, update_of_ne hka, State.root]
  · refine ⟨{ s with holders := s.holders.put a ⟨holder, n - 1⟩ }, ?_,
      hs.congr rfl rfl rfl (read_put_same hcell _)⟩
    simp only [State.destroy, drop, hcell, Option.bind_eq_bind, Option.bind_some, if_neg hlast,
      Option.bind_none, State.free]

theorem copy_valid (hs : Valid s) (hnode : s.node a ≠ none) :
    ∃ t, s.copy lib a = some t ∧ Valid t := by
  obtain ⟨⟨node, ref⟩, hnode⟩ := Option.ne_none_iff_exists'.mp hnode
  obtain ⟨v, hv⟩ := Option.ne_none_iff_exists'.mp (node_eq_some.mp hnode).2
  obtain ⟨H', copy, hcopy, hadds⟩ := copyNode_owned lib hs.owned hv
  exact ⟨{ s with nodes := H' }.construct (.node copy false),
    by simp only [State.copy, hnode, hcopy, Option.bind_eq_bind, Option.bind_some],
    hs.construct (.node copy false) hadds⟩

/-- A copy has an owner for the moment that it is not below any of the others. -/
theorem Valid.addCopy {copy : ℕ} (hs : Valid s) (hadds : Adds s.nodes H (some copy)) :
    Owned H (insert s.holders.fresh (Finset.range s.holders.fresh))
      (update s.root s.holders.fresh (some copy)) := by
  have hgrown := (hs.owned.grow Finset.notMem_range_self).adopt
    (Finset.mem_insert_self _ _) (update_self _ _ _) hadds
  rwa [update_idem] at hgrown

/-- That owner has passed its tree on. -/
theorem Valid.passed {root : ℕ → Option ℕ}
    (h : Owned H (insert s.holders.fresh (Finset.range s.holders.fresh))
      (update root s.holders.fresh none)) :
    Owned H (Finset.range s.holders.fresh) root := by
  refine (h.leave Finset.notMem_range_self (update_self _ _ _)).congr fun k hk => ?_
  rw [update_of_ne (Finset.mem_range.mp hk).ne]

theorem addChild_valid (hs : Valid s) (hcare : Careful s (.addChild p a)) :
    ∃ t, s.addChild lib p a = some t ∧ Valid t := by
  obtain ⟨hp, ha, hout⟩ := hcare
  obtain ⟨⟨parent, r⟩, hp⟩ := Option.ne_none_iff_exists'.mp hp
  obtain ⟨⟨node, ref⟩, ha⟩ := Option.ne_none_iff_exists'.mp ha
  obtain ⟨v, hv⟩ := Option.ne_none_iff_exists'.mp (node_eq_some.mp hp).2
  have hread := (node_eq_some.mp ha).1
  cases ref with
  | false =>
    have hroot := root_of_owned ha
    have hmem := mem_range hread
    have hout := hout parent r node hp ha
    have hne : parent ≠ node := by
      rintro rfl
      exact hout .refl
    obtain ⟨t, H', hadd, hholds, hattach⟩ := addChild_owned lib hs.owned hmem hroot hv hne
    obtain ⟨s₁, hset, hnodes, hdefined, hfresh, hread₁⟩ :=
      setHolder_eq (s := s) (a := a) (by simp [hread]) (.node node true)
    refine ⟨{ s₁ with nodes := H' }, ?_, hdefined.trans hs.defined, ?_⟩
    · simp only [State.addChild, hp, ha, Option.bind_eq_bind, Option.bind_some, if_true, hset,
        hnodes, hadd]
    · have howned := hs.owned.attach hmem hroot hv hholds hout hattach
      have hroot₁ := root_setHolder hread₁
      change Owned H' (Finset.range s₁.holders.fresh) s₁.root
      rwa [hfresh, hroot₁]
  | true =>
    obtain ⟨u, hu⟩ := Option.ne_none_iff_exists'.mp (node_eq_some.mp ha).2
    obtain ⟨H₁, copy, hcopy, hadds⟩ := copyNode_owned lib hs.owned hu
    have howned := hs.addCopy hadds
    have hne : parent ≠ copy := by
      rintro rfl
      exact hadds.not_below hv .refl
    obtain ⟨t, H₂, hadd, hholds, hattach⟩ := addChild_owned lib howned
      (Finset.mem_insert_self _ _) (update_self _ _ _) (hadds.of_live hv) hne
    refine ⟨{ s with nodes := H₂ }, ?_, hs.defined, ?_⟩
    · simp only [State.addChild, hp, ha, Option.bind_eq_bind, Option.bind_some,
        Bool.true_eq_false, if_false, hcopy, hadd]
    · have hmoved := howned.attach (Finset.mem_insert_self _ _) (update_self _ _ _)
        (hadds.of_live hv) hholds (hadds.not_below hv) hattach
      rw [update_idem] at hmoved
      exact Valid.passed hmoved

/-- The document takes the root of another tree for its own, and gives the old one back. -/
theorem setRootElement_eq (lib : LibXml) {S : Finset ℕ} {root : ℕ → Option ℕ} {k : ℕ}
    (howned : Owned s.nodes S root) (hk : k ∈ S) (hroot : root k = some node) {old : Option ℕ}
    (h : read s.holders d = some (.xml old)) (hne : old ≠ some node) :
    ∃ t, s.setRootElement lib d node = some (t, old) ∧ t.nodes = s.nodes ∧
      t.undefined = s.undefined ∧ t.holders.fresh = s.holders.fresh ∧
      ∀ k, read t.holders k = if k = d then some (.xml (some node)) else read s.holders k := by
  obtain ⟨v, hv⟩ := howned.root_live hk hroot
  obtain ⟨tree, w⟩ := howned
  have hlive : s.nodes.cell node ≠ none := by simp [hv]
  have hsets := lib.xmlDocSetRootElement_sets hlive (fun p => w.root_not_child hk hroot) hne
  obtain ⟨t, hset, hnodes, hrest⟩ :=
    setHolder_eq (s := s) (a := d) (by simp [h]) (.xml (some node))
  refine ⟨{ t with nodes := s.nodes }, ?_, rfl, hrest⟩
  simp only [State.setRootElement, h, hsets, hset, Option.bind_eq_bind, Option.bind_some]

/-- An owned node becomes a root. -/
theorem setRoot_owned (lib : LibXml) (hs : Valid s) {old : Option ℕ}
    (hd : read s.holders d = some (.xml old)) (ha : s.node a = some (node, false)) :
    ∃ t, s.setRoot lib d a = some t ∧ t.nodes = s.nodes ∧
      t.undefined = s.undefined ∧ t.holders.fresh = s.holders.fresh ∧
      ∀ k, read t.holders k = if k = d then some (.xml (some node))
        else if k = a then some (.node node true) else read s.holders k := by
  have hread := (node_eq_some.mp ha).1
  have hmem := mem_range hread
  have hroot := root_of_owned ha
  have hda : d ≠ a := by
    rintro rfl
    rw [hd] at hread
    cases hread
  have hne : old ≠ some node := by
    rintro rfl
    obtain ⟨tree, w⟩ := hs.owned
    exact hda (w.root_unique hmem (mem_range hd) hroot (root_eq_some.mpr (.inl hd)))
  obtain ⟨s₁, hset, hnodes₁, hdefined₁, hfresh₁, hread₁⟩ :=
    setHolder_eq (s := s) (a := a) (by simp [hread]) (.node node true)
  have hd₁ : read s₁.holders d = some (.xml old) := by rw [hread₁, if_neg hda, hd]
  obtain ⟨t, hsets, hnodes, hdefined, hfresh, hread₂⟩ :=
    setRootElement_eq lib (s := s₁) (hnodes₁ ▸ hs.owned) hmem hroot hd₁ hne
  refine ⟨t, ?_, hnodes.trans hnodes₁, hdefined.trans hdefined₁, hfresh.trans hfresh₁, fun k => ?_⟩
  · simp only [State.setRoot, ha, Option.bind_eq_bind, Option.bind_some, if_true, hset, hsets]
  · rw [hread₂, hread₁]

theorem setRoot_valid (hs : Valid s) (hxml : s.isXml d) (hcare : Careful s (.setRoot d a)) :
    ∃ t, s.setRoot lib d a = some t ∧ Valid t := by
  obtain ⟨ha, hempty⟩ := hcare
  obtain ⟨⟨node, ref⟩, ha⟩ := Option.ne_none_iff_exists'.mp ha
  have hread := (node_eq_some.mp ha).1
  cases ref with
  | false =>
    have hd := hempty node ha
    have hroot := root_of_owned ha
    have hnone : s.root d = none := by
      rw [State.root, hd]
      rfl
    have hda : d ≠ a := by
      rintro rfl
      rw [hd] at hread
      cases hread
    obtain ⟨t, hset, hnodes, hdefined, hfresh, hread₁⟩ := setRoot_owned lib hs hd ha
    refine ⟨t, hset, hdefined.trans hs.defined, ?_⟩
    rw [hnodes, hfresh]
    rw [root_setRoot hda hread₁, ← hroot]
    exact hs.owned.hand (mem_range hread) (mem_range hd) hda hnone
  | true =>
    obtain ⟨old, hd⟩ : ∃ old, read s.holders d = some (.xml old) := by
      unfold State.isXml at hxml
      split at hxml
      case h_1 old hd => exact ⟨old, hd⟩
      case h_2 => cases hxml
    have hroot : s.root d = old := by
      rw [State.root, hd]
      rfl
    have hmem := mem_range hd
    have hnew : s.holders.fresh ≠ d := (Finset.mem_range.mp hmem).ne'
    obtain ⟨u, hu⟩ := Option.ne_none_iff_exists'.mp (node_eq_some.mp ha).2
    obtain ⟨H₁, copy, hcopy, hadds⟩ := copyNode_owned lib hs.owned hu
    have hcopied := hs.addCopy hadds
    have hne : old ≠ some copy := by
      intro heq
      obtain ⟨tree, w⟩ := hcopied
      refine hnew (w.root_unique (Finset.mem_insert_of_mem hmem) (Finset.mem_insert_self _ _)
        (a := copy) ?_ (update_self _ _ _))
      rw [update_of_ne hnew.symm, hroot, heq]
    obtain ⟨t, hset, hnodes, hdefined, hfresh, hread₁⟩ :=
      setRootElement_eq lib (s := { s with nodes := H₁ }) hcopied (Finset.mem_insert_self _ _)
        (update_self _ _ _) hd hne
    -- the old root waits with an owner of its own until it is freed
    have hwaits := (hs.owned.grow Finset.notMem_range_self).hand (o := s.holders.fresh)
      (Finset.mem_insert_of_mem hmem) (Finset.mem_insert_self _ _) hnew (update_self _ _ _)
    rw [update_idem, update_of_ne hnew.symm, hroot] at hwaits
    have hadopted := hwaits.adopt (Finset.mem_insert_of_mem hmem) (update_self _ _ _) hadds
    rw [update_idem, update_comm hnew] at hadopted
    obtain ⟨H₂, hfree, howned⟩ := free_owned (s := t) lib (by rw [hnodes]; exact hadopted)
      (Finset.mem_insert_self _ _)
    rw [update_self] at hfree
    rw [update_idem] at howned
    refine ⟨{ t with nodes := H₂ }, ?_, hdefined.trans hs.defined, ?_⟩
    · simp only [State.setRoot, ha, Option.bind_eq_bind, Option.bind_some, Bool.true_eq_false,
        if_false, hcopy, hset, hfree]
    · change Owned H₂ (Finset.range t.holders.fresh) t.root
      rw [hfresh]
      refine (Valid.passed howned).congr fun k _ => ?_
      rw [State.root, hread₁]
      by_cases hkd : k = d
      · rw [if_pos hkd, hkd, update_self]
        rfl
      · rw [if_neg hkd, update_of_ne hkd, State.root]

/-- A careful step keeps the forest. -/
theorem perform_valid (lib : LibXml) (hs : Valid s) (hlegal : Legal s op) (hcare : Careful s op) :
    ∃ t, perform lib s op = some t ∧ Valid t := by
  obtain ⟨-, hlegal⟩ := hlegal
  cases op with
  | xml => exact ⟨_, rfl, hs.construct (.xml none) (Adds.refl s.nodes)⟩
  | parseString str =>
    simp only [perform]
    cases hparse : lib.parse s.nodes str with
    | none => exact ⟨s, rfl, hs⟩
    | some r => exact ⟨_, rfl, hs.construct (.xml r.2) (lib.parse_adds hparse)⟩
  | look node => exact ⟨_, rfl, hs.construct (.node node true) (Adds.refl s.nodes)⟩
  | share a => exact share_valid hs hlegal
  | copy a => exact copy_valid hs hcare
  | addChild p a => exact addChild_valid hs hcare
  | setRoot d a => exact setRoot_valid hs hlegal.1 hcare
  | destroy a => exact destroy_valid hs hlegal

theorem Valid.oneOwner (hs : Valid s) : OneOwner s := by
  obtain ⟨tree, w⟩ := hs.owned
  refine ⟨hs.defined, fun x hx => ?_, fun x hx => ?_⟩
  · rcases w.root_or_child hx with ⟨k, hk, hroot⟩ | ⟨p, hp⟩
    · have hkeeper : ∀ k', s.root k' = some x → k' = k := fun k' h =>
        w.root_unique hk (mem_of_root h) hroot h
      have hnot : ∀ p, ¬ ChildOf s.nodes p x := fun p => w.root_not_child hk hroot
      rcases root_eq_some.mp hroot with hdocument | hholder
      · refine ⟨.document k, hdocument, fun o ho => ?_⟩
        cases o with
        | document d => rw [hkeeper d (root_eq_some.mpr (.inl ho))]
        | parent p => exact absurd ho (hnot p)
        | holder a =>
          obtain rfl := hkeeper a (root_eq_some.mpr (.inr ho))
          cases ho.symm.trans hdocument
      · refine ⟨.holder k, hholder, fun o ho => ?_⟩
        cases o with
        | document d =>
          obtain rfl := hkeeper d (root_eq_some.mpr (.inl ho))
          cases ho.symm.trans hholder
        | parent p => exact absurd ho (hnot p)
        | holder a => rw [hkeeper a (root_eq_some.mpr (.inr ho))]
    · have hnot : ∀ k, s.root k ≠ some x := fun k hroot =>
        w.root_not_child (mem_of_root hroot) hroot hp
      refine ⟨.parent p, hp, fun o ho => ?_⟩
      cases o with
      | document d => exact absurd (root_eq_some.mpr (.inl ho)) (hnot d)
      | parent q => rw [w.parent_unique hp ho]
      | holder a => exact absurd (root_eq_some.mpr (.inr ho)) (hnot a)
  · obtain ⟨k, hk, hpos⟩ := w.covers hx
    cases hroot : s.root k with
    | none =>
      rw [w.tree_null hk hroot] at hpos
      cases hpos
    | some b => exact ⟨k, b, root_eq_some.mp hroot, w.root_descends hk hroot hpos⟩

theorem step_valid (hs : Valid s) (hcare : Careful s op) (hstep : next lib s op = some t) :
    Valid t := by
  obtain ⟨hlegal, hstep⟩ := Option.ite_none_right_eq_some.mp hstep
  obtain ⟨u, hu, hvalid⟩ := perform_valid lib hs hlegal hcare
  rw [hu] at hstep
  obtain rfl := Option.some.inj hstep
  exact hvalid

end Keeping

section Breaking

variable {lib : LibXml} {s t : State} {op : Op} {a d p x : ℕ}

/-- No node is below itself: going up from it leads to a document or a holder. -/
theorem OneOwner.acyclic (h : OneOwner s) (x : ℕ) :
    ¬ Relation.TransGen (ChildOf s.nodes) x x := by
  intro hcycle
  have hlive : ∀ {y}, Relation.TransGen (ChildOf s.nodes) y y → s.nodes.cell y ≠ none := by
    intro y hy
    obtain ⟨z, ⟨v, hv, -⟩, -⟩ := Relation.TransGen.head'_iff.mp hy
    simp [hv]
  obtain ⟨k, b, hb, hbelow⟩ := h.kept x (hlive hcycle)
  -- the only owner of a node on the way down is the one that the way comes from
  induction hbelow with
  | refl =>
    obtain ⟨q, -, hq⟩ := Relation.TransGen.tail'_iff.mp hcycle
    have hparent : Owns s (.parent q) b := hq
    rcases hb with hdocument | hholder
    · cases (h.owner b (hlive hcycle)).unique hparent hdocument
    · cases (h.owner b (hlive hcycle)).unique hparent hholder
  | @tail y z _ hchild ih =>
    obtain ⟨q, hq, hqz⟩ := Relation.TransGen.tail'_iff.mp hcycle
    have hparent : Owns s (.parent q) z := hqz
    have hparent' : Owns s (.parent y) z := hchild
    obtain rfl : q = y := Owner.parent.inj ((h.owner z (hlive hcycle)).unique hparent hparent')
    exact ih (Relation.TransGen.head' hchild hq)

/-- A node that is below none and that no document and no holder owns. -/
theorem not_oneOwner_of_lost (hlive : t.nodes.cell x ≠ none) (hroot : ∀ k, t.root k ≠ some x)
    (hparent : ∀ q, ¬ ChildOf t.nodes q x) : ¬ OneOwner t := by
  intro hone
  obtain ⟨o, ho, -⟩ := hone.owner x hlive
  cases o with
  | document k => exact hroot k (root_eq_some.mpr (.inl ho))
  | parent q => exact hparent q ho
  | holder k => exact hroot k (root_eq_some.mpr (.inr ho))

/-- The node closes a cycle when it is added below itself, and it is lost when it is added to
itself, which is refused. -/
theorem addChild_breaks (hs : Valid s) (hcare : ¬ Careful s (.addChild p a))
    (hadd : s.addChild lib p a = some t) : ¬ OneOwner t := by
  cases hp : s.node p with
  | none => simp [State.addChild, hp] at hadd
  | some r =>
    cases ha : s.node a with
    | none => simp [State.addChild, hp, ha] at hadd
    | some q =>
      simp only [Careful, hp, ha, ne_eq, reduceCtorEq, not_false_eq_true, true_and, not_forall,
        not_not] at hcare
      obtain ⟨parent, r', node, hr, hq, hbelow⟩ := hcare
      obtain rfl := Option.some.inj hr
      obtain rfl := Option.some.inj hq
      obtain ⟨v, hv⟩ := Option.ne_none_iff_exists'.mp (node_eq_some.mp hp).2
      have hread := (node_eq_some.mp ha).1
      have hmem := mem_range hread
      have hroot := root_of_owned ha
      obtain ⟨s₁, hset, hnodes, -, -, hread₁⟩ :=
        setHolder_eq (s := s) (a := a) (by simp [hread]) (.node node true)
      by_cases hself : parent = node
      · subst parent
        have hrefused := lib.xmlAddChild_self (node_eq_some.mp ha).2
        simp only [State.addChild, hp, ha, Option.bind_eq_bind, Option.bind_some, if_true, hset,
          hnodes, hrefused, Option.some.injEq] at hadd
        subst t
        obtain ⟨tree, w⟩ := hs.owned
        refine not_oneOwner_of_lost (x := node) (node_eq_some.mp ha).2 (fun k hk => ?_)
          fun q => w.root_not_child hmem hroot
        change s₁.root k = some node at hk
        rw [root_setHolder hread₁] at hk
        by_cases hka : k = a
        · rw [hka, update_self] at hk
          cases hk
        · rw [update_of_ne hka] at hk
          exact hka (w.root_unique hmem (mem_of_root hk) hroot hk)
      · obtain ⟨c, H', hlink, hholds, hattach⟩ := addChild_owned lib hs.owned hmem hroot hv hself
        simp only [State.addChild, hp, ha, Option.bind_eq_bind, Option.bind_some, if_true, hset,
          hnodes, hlink, Option.some.injEq] at hadd
        subst t
        intro hone
        have hnew := hattach.childOf_new hv hholds.chain rfl
        have hmono := fun y z => ChildOf.mono (a := y) (x := z) (hattach.grows hv hholds.chain rfl)
        exact hone.acyclic parent (Relation.TransGen.head' hnew (hbelow.lift id hmono))

/-- The root that is replaced by an owned node belongs to nobody. -/
theorem setRoot_breaks (hs : Valid s) (hxml : s.isXml d) (hcare : ¬ Careful s (.setRoot d a))
    (hset : s.setRoot lib d a = some t) : ¬ OneOwner t := by
  cases ha : s.node a with
  | none => simp [State.setRoot, ha] at hset
  | some q =>
    simp only [Careful, ha, ne_eq, reduceCtorEq, not_false_eq_true, true_and, not_forall] at hcare
    obtain ⟨node, hq, hfull⟩ := hcare
    obtain rfl := Option.some.inj hq
    obtain ⟨old, hd⟩ : ∃ old, read s.holders d = some (.xml (some old)) := by
      unfold State.isXml at hxml
      split at hxml
      case h_1 old hd =>
        cases old with
        | none => exact absurd hd hfull
        | some old => exact ⟨old, hd⟩
      case h_2 => cases hxml
    have hread := (node_eq_some.mp ha).1
    have hroot : s.root d = some old := root_eq_some.mpr (.inl hd)
    obtain ⟨t', hset', hnodes, -, -, hread'⟩ := setRoot_owned lib hs hd ha
    obtain rfl := Option.some.inj (hset.symm.trans hset')
    obtain ⟨tree, w⟩ := hs.owned
    have hmem := mem_range hd
    obtain ⟨v, hv, -⟩ := w.live hmem (w.root_count hmem hroot)
    have hother : old ≠ node := by
      rintro rfl
      obtain rfl := w.root_unique hmem (mem_range hread) hroot (root_of_owned ha)
      cases hd.symm.trans hread
    have hda : d ≠ a := by
      rintro rfl
      cases hd.symm.trans hread
    have hgone : ∀ k, t.root k ≠ some old := by
      intro k hk
      rw [root_setRoot hda hread'] at hk
      by_cases hka : k = a
      · rw [hka, update_self] at hk
        cases hk
      · rw [update_of_ne hka] at hk
        by_cases hkd : k = d
        · rw [hkd, update_self] at hk
          exact hother (Option.some.inj hk).symm
        · rw [update_of_ne hkd] at hk
          exact hkd (w.root_unique hmem (mem_of_root hk) hroot hk)
    refine not_oneOwner_of_lost (by rw [hnodes, hv]; exact Option.some_ne_none v) hgone
      fun q hq => ?_
    rw [hnodes] at hq
    exact w.root_not_child hmem hroot hq

theorem step_breaks (hs : Valid s) (hstep : next lib s op = some t) (hcare : ¬ Careful s op) :
    ¬ OneOwner t := by
  obtain ⟨hlegal, hstep⟩ := Option.ite_none_right_eq_some.mp hstep
  cases hperform : perform lib s op with
  | none =>
    rw [hperform] at hstep
    obtain rfl := Option.some.inj hstep
    exact fun hone => absurd hone.defined (by simp)
  | some u =>
    rw [hperform] at hstep
    obtain rfl := Option.some.inj hstep
    cases op with
    | copy a =>
      rw [Careful, not_not] at hcare
      simp [perform, State.copy, hcare] at hperform
    | addChild p a => exact addChild_breaks hs hcare hperform
    | setRoot d a => exact setRoot_breaks hs hlegal.2.1 hcare hperform
    | _ => exact absurd trivial hcare

end Breaking

theorem valid_init : Valid init where
  defined := rfl
  owned := ⟨fun _ => .nil, fun h hh => absurd hh (by simp [init, Heap.empty]),
    fun h hh => absurd hh (by simp [init, Heap.empty]), fun a => by simp [init, Heap.empty]⟩

/-- Over any sequence of operations each node has one owner if and only if every step is
careful. -/
theorem oneOwner_iff (lib : LibXml) (ops : List Op) :
    Throughout (next lib) OneOwner init ops ↔ StepsMeet (next lib) Careful init ops :=
  throughout_iff_stepsMeet (fun _ _ _ hs hcare hstep => step_valid hs hcare hstep)
    (fun _ hs => hs.oneOwner) (fun _ _ _ hs hstep hcare => step_breaks hs hstep hcare) valid_init

/-- A document is parsed, and a copy of its root becomes the child of that root. -/
theorem oneOwner_copied : Throughout (next LibXml.plain) OneOwner init
    [.parseString ⟨[60, 97, 47, 62], by decide⟩, .look 0, .copy 1, .addChild 1 2] := by
  rw [oneOwner_iff]
  refine .cons rfl trivial (.cons rfl trivial (.cons rfl (Option.some_ne_none _)
    (.cons rfl ⟨Option.some_ne_none _, Option.some_ne_none _, ?_⟩ trivial)))
  intro parent ref node hp ha hbelow
  obtain ⟨rfl, -⟩ := Prod.mk.inj (Option.some.inj hp)
  obtain ⟨rfl, -⟩ := Prod.mk.inj (Option.some.inj ha)
  obtain heq | ⟨c, ⟨v, hv, hchild⟩, -⟩ := Relation.ReflTransGen.cases_head hbelow
  · cases heq
  · obtain rfl := Option.some.inj hv
    cases hchild

/-- The old root of a document is lost when a copy of it becomes the root. -/
theorem root_lost : ¬ ∀ (lib : LibXml) (ops : List Op),
    Throughout (next lib) OneOwner init ops := by
  intro h
  let document : CJson.Text := ⟨[60, 97, 47, 62], by decide⟩
  let ops : List Op := [.parseString document, .look 0, .copy 1, .setRoot 0 2]
  have hrun : (run (next LibXml.plain) init ops).map (fun s =>
      ((s.nodes.cell 0).isSome, s.nodes.cell 1, s.holders.fresh,
        [read s.holders 0, read s.holders 1, read s.holders 2])) =
      some (true, some {}, 3,
        [some (.xml (some 1)), some (.node 0 true), some (.node 1 true)]) := by
    decide
  obtain ⟨s, hs, hlast⟩ := Option.map_eq_some_iff.mp hrun
  simp only [Prod.mk.injEq, List.cons.injEq] at hlast
  obtain ⟨hlive, hcopy, hfresh, hdocument, hlook, hnode, -⟩ := hlast
  obtain ⟨k, b, howns, hbelow⟩ := ((h LibXml.plain ops).final hs).kept 0
    (Option.isSome_iff_ne_none.mp hlive)
  have hk := Finset.mem_range.mp (mem_of_root (root_eq_some.mpr howns))
  have hthree : k = 0 ∨ k = 1 ∨ k = 2 := by omega
  have hb : 1 = b := by
    rcases hthree with rfl | rfl | rfl
    · simpa [Owns, hdocument] using howns
    · simp [Owns, hlook] at howns
    · simp [Owns, hnode] at howns
  -- the copy has no children
  subst b
  obtain heq | ⟨c, ⟨v, hv, hchild⟩, -⟩ := Relation.ReflTransGen.cases_head hbelow
  · cases heq
  · obtain rfl := Option.some.inj (hcopy.symm.trans hv)
    cases hchild

end BoxUtils.LXml
