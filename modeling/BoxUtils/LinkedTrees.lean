import BoxUtils.LinkedForest

/-!
Whole trees of linked cells: reading the shape that the links trace, a tree that is new
in the heap, and what becomes of a forest when such a tree joins it or when a tree is
handed from one owner to another.
-/
namespace BoxUtils.LinkedTrees

open Linked LinkedShapes LinkedForest

variable {V : Type*} [Linked V]

/-- The shape from a pointer on, as far as a number of cells. -/
def readShape (H : Heap V) : ℕ → Option ℕ → Option Shape
  | _, none => some .nil
  | 0, some _ => none
  | n + 1, some a => (H.cell a).bind fun v => do
    let c ← readShape H n (child v)
    let t ← readShape H n (next v)
    some (.node a c t)

theorem readShape_eq {H : Heap V} {q p : Option ℕ} {t : Shape} {n : ℕ} (h : Holds H q p t none)
    (hn : t.size ≤ n) : readShape H n p = some t := by
  induction t generalizing q p n with
  | nil =>
    obtain rfl : p = none := h
    cases n <;> rfl
  | node a c t ihc iht =>
    obtain ⟨rfl, v, hv, -, -, hc, ht⟩ := h
    rw [Shape.size] at hn
    obtain ⟨n, rfl⟩ : ∃ k, n = k + 1 := ⟨n - 1, by omega⟩
    have hbelow := ihc hc (n := n) (by omega)
    have hbehind := iht ht (n := n) (by omega)
    simp [readShape, hv, hbelow, hbehind]

/-- The whole heap has room for every shape in it. -/
theorem readShape_fresh {H : Heap V} {q p : Option ℕ} {t : Shape} (h : Holds H q p t none)
    (hd : t.Distinct) : readShape H H.fresh p = some t :=
  readShape_eq h (h.size_le hd)

/-- What is below a node of a tree is in the tree. -/
theorem count_of_childOf {H : Heap V} {q p : Option ℕ} {t : Shape} {x y : ℕ}
    (h : Holds H q p t none) (hd : t.Distinct) (hx : 0 < t.count x) (hchild : ChildOf H x y) :
    0 < t.count y := by
  obtain ⟨v, hv, hreach⟩ := hchild
  have hmem := ((h.children hd hx hv).chain.reaches_iff (x := y)).mp hreach
  exact Nat.lt_of_lt_of_le (Shape.count_pos_of_mem_siblings hmem) (Shape.count_children_le t x y)

/-- A pointer traces one shape only. -/
theorem holds_unique {H : Heap V} {q q' p : Option ℕ} {s t : Shape} (hs : Holds H q p s none)
    (ht : Holds H q' p t none) : s = t := by
  induction s generalizing q q' p t with
  | nil =>
    obtain rfl : p = none := hs
    cases t with
    | nil => rfl
    | node => cases ht.1
  | node a c n ihc ihn =>
    obtain ⟨rfl, v, hv, -, -, hc, hn⟩ := hs
    cases t with
    | nil => cases ht
    | node b d m =>
      obtain ⟨heq, u, hu, -, -, hd, hm⟩ := ht
      obtain rfl := Option.some.inj heq
      obtain rfl := Option.some.inj (hv.symm.trans hu)
      rw [ihc hc hd, ihn hn hm]

/-- A new tree from pointer p on; the cells that were there stay as they are. -/
def Adds (H H' : Heap V) (p : Option ℕ) : Prop :=
  ∃ t : Shape, Holds H' none p t none ∧ t.siblings.length ≤ 1 ∧ t.Distinct ∧
    (∀ y, 0 < t.count y → H.cell y = none) ∧ ∀ y, t.count y = 0 → H'.cell y = H.cell y

/-- No tree at all. -/
theorem Adds.refl (H : Heap V) : Adds H H none :=
  ⟨.nil, rfl, Nat.zero_le _, fun _ => Nat.zero_le _, fun _ hy => absurd hy (by simp),
    fun _ _ => rfl⟩

theorem Adds.of_live {H H' : Heap V} {p : Option ℕ} {y : ℕ} {v : V} (h : Adds H H' p)
    (hy : H.cell y = some v) : H'.cell y = some v := by
  obtain ⟨t, -, -, -, hnew, hold⟩ := h
  rcases Nat.eq_zero_or_pos (t.count y) with hzero | hpos
  · rw [hold y hzero, hy]
  · rw [hnew y hpos] at hy
    cases hy

/-- A cell that was there is not in the new tree. -/
theorem Adds.not_below {H H' : Heap V} {b y : ℕ} {v : V} (h : Adds H H' (some b))
    (hy : H.cell y = some v) : ¬ Relation.ReflTransGen (ChildOf H') b y := by
  obtain ⟨t, hholds, -, hd, hnew, -⟩ := h
  intro hbelow
  have hb : 0 < t.count b := by
    cases t with
    | nil => cases hholds
    | node a c n =>
      obtain rfl : b = a := Option.some.inj hholds.1
      rw [Shape.count_node, if_pos rfl]
      omega
  have hcount : ∀ z, Relation.ReflTransGen (ChildOf H') b z → 0 < t.count z := by
    intro z hz
    induction hz with
    | refl => exact hb
    | tail _ hchild ih => exact count_of_childOf hholds hd ih hchild
  rw [hnew y (hcount y hbelow)] at hy
  cases hy

section Forests

variable {H H' : Heap V} {S : Finset ℕ} {root : ℕ → Option ℕ} {tree : ℕ → Shape} {k o : ℕ}
variable {p : Option ℕ}

/-- A new tree joins the forest under an owner of its own. -/
theorem adopt (w : Forested H S root tree) (hk : k ∉ S) (h : Adds H H' p) :
    ∃ t, Forested H' (insert k S) (Function.update root k p) (Function.update tree k t) := by
  obtain ⟨t, hholds, halone, hd, hnew, hold⟩ := h
  have hother : ∀ g ∈ insert k S, g ≠ k → g ∈ S := fun g hg hgk =>
    Finset.mem_of_mem_insert_of_ne hg hgk
  have hkept : ∀ g ∈ S, ∀ y, 0 < (tree g).count y → H'.cell y = H.cell y := by
    intro g hg y hy
    obtain ⟨v, hv, -⟩ := w.live hg hy
    rcases Nat.eq_zero_or_pos (t.count y) with hzero | hpos
    · exact hold y hzero
    · rw [hnew y hpos] at hv
      cases hv
  refine ⟨t, fun g hg => ?_, fun g hg => ?_, fun a => ?_⟩
  · by_cases hgk : g = k
    · subst g
      rwa [Function.update_self, Function.update_self]
    · rw [Function.update_of_ne hgk, Function.update_of_ne hgk]
      exact (w.holds g (hother g hg hgk)).congr (hkept g (hother g hg hgk))
  · by_cases hgk : g = k
    · subst g
      rwa [Function.update_self]
    · rw [Function.update_of_ne hgk]
      exact w.alone g (hother g hg hgk)
  · rw [Forested.total_insert _ hk, w.once a]
    rcases Nat.eq_zero_or_pos (t.count a) with hzero | hpos
    · rw [hold a hzero, hzero, Nat.zero_add]
    · obtain ⟨v, hv, -⟩ := hholds.live hpos
      have hone := hd a
      rw [hnew a hpos, hv]
      simp only [Option.isSome_none, Option.isSome_some, Bool.false_eq_true, if_false, if_true]
      omega

/-- A tree is handed to an owner that has none. -/
theorem rename (w : Forested H S root tree) (hk : k ∈ S) (ho : o ∉ S.erase k) :
    Forested H (insert o (S.erase k)) (Function.update root o (root k))
      (Function.update tree o (tree k)) where
  holds g hg := by
    by_cases hgo : g = o
    · subst g
      rw [Function.update_self, Function.update_self]
      exact w.holds k hk
    · rw [Function.update_of_ne hgo, Function.update_of_ne hgo]
      exact w.holds g (Finset.mem_of_mem_erase (Finset.mem_of_mem_insert_of_ne hg hgo))
  alone g hg := by
    by_cases hgo : g = o
    · subst g
      rw [Function.update_self]
      exact w.alone k hk
    · rw [Function.update_of_ne hgo]
      exact w.alone g (Finset.mem_of_mem_erase (Finset.mem_of_mem_insert_of_ne hg hgo))
  once a := by
    rw [Forested.total_insert _ ho, Finset.add_sum_erase S (fun g => (tree g).count a) hk, w.once a]

end Forests

/-- The heap is a forest of the trees of these owners; an owner may have none. -/
def Owned (H : Heap V) (S : Finset ℕ) (root : ℕ → Option ℕ) : Prop :=
  ∃ tree, Forested H S root tree

namespace Owned

variable {H H' : Heap V} {S : Finset ℕ} {root : ℕ → Option ℕ} {k o a b c : ℕ} {p : Option ℕ}
variable {v : V}

theorem congr {root' : ℕ → Option ℕ} (h : Owned H S root) (hroot : ∀ g ∈ S, root' g = root g) :
    Owned H S root' := by
  obtain ⟨tree, w⟩ := h
  exact ⟨tree, w.congr hroot fun _ _ => rfl⟩

/-- The tree of a live cell. -/
theorem below (h : Owned H S root) (hv : H.cell a = some v) :
    ∃ t, Holds H none (child v) t none ∧ (Shape.node a t .nil).Distinct := by
  obtain ⟨tree, w⟩ := h
  obtain ⟨g, hg, hpos⟩ := w.covers (a := a) (by simp [hv])
  have hd := w.distinct hg
  refine ⟨(tree g).children a, (w.holds g hg).children hd hpos hv, fun y => ?_⟩
  rw [Shape.count_node, Shape.count_nil]
  have hle := hd.children (p := a) y
  split
  case isTrue hay =>
    subst y
    rw [hd.count_children_self]
  case isFalse => omega

theorem root_live (h : Owned H S root) (hk : k ∈ S) (ha : root k = some a) :
    ∃ v, H.cell a = some v := by
  obtain ⟨tree, w⟩ := h
  obtain ⟨v, hv, -⟩ := w.live hk (w.root_count hk ha)
  exact ⟨v, hv⟩

/-- An owner without a tree joins. -/
theorem grow (h : Owned H S root) (hk : k ∉ S) :
    Owned H (insert k S) (Function.update root k none) := by
  obtain ⟨tree, w⟩ := h
  exact ⟨_, w.insert_null hk⟩

/-- An owner without a tree leaves. -/
theorem leave (h : Owned H (insert k S) root) (hk : k ∉ S) (hnone : root k = none) :
    Owned H S root := by
  obtain ⟨tree, w⟩ := h
  have hleft := w.erase_null (Finset.mem_insert_self k S) hnone
  rw [Finset.erase_insert hk] at hleft
  exact ⟨tree, hleft⟩

/-- The owner k is left without a tree. -/
theorem of_erase (h : Owned H (S.erase k) root) (hk : k ∈ S) :
    Owned H S (Function.update root k none) := by
  have hgrown := h.grow (Finset.notMem_erase k S)
  rwa [Finset.insert_erase hk] at hgrown

theorem adopt (h : Owned H S root) (hk : k ∈ S) (hnone : root k = none) (hadds : Adds H H' p) :
    Owned H' S (Function.update root k p) := by
  obtain ⟨tree, w⟩ := h
  obtain ⟨t, w'⟩ := LinkedTrees.adopt (w.erase_null hk hnone) (Finset.notMem_erase k S) hadds
  rw [Finset.insert_erase hk] at w'
  exact ⟨_, w'⟩

/-- A tree is freed. -/
theorem free {t : Shape} (h : Owned H S root) (hk : k ∈ S) (ha : root k = some a)
    (hv : H.cell a = some v) (ht : Holds H none (child v) t none)
    (hcell : ∀ y, H'.cell y = if 0 < (Shape.node a t .nil).count y then none else H.cell y) :
    Owned H' S (Function.update root k none) := by
  obtain ⟨tree, w⟩ := h
  obtain ⟨c, htree⟩ := w.tree_eq hk ha
  have hholds := w.holds k hk
  rw [htree, ha] at hholds
  obtain ⟨-, u, hu, -, -, hc, -⟩ := hholds
  obtain rfl := Option.some.inj (hv.symm.trans hu)
  have hsame : c = t := holds_unique hc ht
  rw [← hsame, ← htree] at hcell
  exact of_erase ⟨tree, w.delete hk hcell⟩ hk

/-- A tree moves below a node that is not in it. -/
theorem attach {t : Shape} (h : Owned H S root) (hk : k ∈ S) (hb : root k = some b)
    (hv : H.cell c = some v) (ht : Holds H none (child v) t none)
    (hout : ¬ Relation.ReflTransGen (ChildOf H) b c)
    (hmove : Attaches H H' b c t.siblings.getLast?) :
    Owned H' S (Function.update root k none) := by
  obtain ⟨tree, w⟩ := h
  obtain ⟨g, hg, hpos⟩ := w.covers (a := c) (by simp [hv])
  have hgk : g ≠ k := by
    intro heq
    subst heq
    exact hout (w.root_descends hk hb hpos)
  have hsame := holds_unique ((w.holds g hg).children (w.distinct hg) hpos hv) ht
  exact of_erase ⟨_, w.attach hk hg hgk hb hpos (by rw [hsame]) hmove⟩ hk

/-- A tree passes to an owner that has none. -/
theorem hand (h : Owned H S root) (hk : k ∈ S) (ho : o ∈ S) (hok : o ≠ k) (hnone : root o = none) :
    Owned H S (Function.update (Function.update root o (root k)) k none) := by
  obtain ⟨tree, w⟩ := h
  have hkS : k ∈ S.erase o := Finset.mem_erase.mpr ⟨Ne.symm hok, hk⟩
  have hoS : o ∉ (S.erase o).erase k := fun hmem =>
    Finset.notMem_erase o S (Finset.mem_of_mem_erase hmem)
  have hset : insert o ((S.erase o).erase k) = S.erase k := by
    rw [Finset.erase_right_comm, Finset.insert_erase (Finset.mem_erase.mpr ⟨hok, ho⟩)]
  have w' := rename (w.erase_null ho hnone) hkS hoS
  rw [hset] at w'
  exact of_erase ⟨_, w'⟩ hk

end Owned

end BoxUtils.LinkedTrees
