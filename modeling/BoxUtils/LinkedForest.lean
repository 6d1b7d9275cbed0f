import Mathlib.Algebra.BigOperators.Group.Finset.Basic
import Mathlib.Logic.Relation
import BoxUtils.LinkedShapes

/-!
Forests of linked cells. A heap is a forest when every live cell occurs exactly
once in the trees of a finite set of roots. The rules say what becomes of a
forest when a tree is added, moved under another node, cut out or given up; the
facts at the end read parents and descendants off the links.
-/
namespace BoxUtils.LinkedForest

open Linked LinkedShapes

variable {V : Type*} [Linked V]

/-- Every live cell occurs exactly once in the trees of the roots in S. -/
structure Forested (H : Heap V) (S : Finset ℕ) (root : ℕ → Option ℕ) (tree : ℕ → Shape) :
    Prop where
  holds : ∀ h ∈ S, Holds H none (root h) (tree h) none
  alone : ∀ h ∈ S, (tree h).siblings.length ≤ 1
  once : ∀ a, ∑ h ∈ S, (tree h).count a = if (H.cell a).isSome then 1 else 0

namespace Forested

variable {H H' : Heap V} {S : Finset ℕ} {root : ℕ → Option ℕ} {tree : ℕ → Shape}
variable {a b c h k o p x : ℕ}

section Places

theorem count_le (w : Forested H S root tree) (hk : k ∈ S) (a : ℕ) : (tree k).count a ≤ 1 := by
  have hsum := w.once a
  rw [← Finset.add_sum_erase S _ hk] at hsum
  split at hsum <;> omega

theorem distinct (w : Forested H S root tree) (hk : k ∈ S) : (tree k).Distinct :=
  w.count_le hk

/-- Trees of different roots share no node. -/
theorem apart (w : Forested H S root tree) (hk : k ∈ S) (ho : o ∈ S) (hok : o ≠ k)
    (ha : 0 < (tree k).count a) : (tree o).count a = 0 := by
  have hsum := w.once a
  rw [← Finset.add_sum_erase S _ hk,
    ← Finset.add_sum_erase _ _ (Finset.mem_erase.mpr ⟨hok, ho⟩)] at hsum
  split at hsum <;> omega

theorem live (w : Forested H S root tree) (hk : k ∈ S) (ha : 0 < (tree k).count a) :
    ∃ v, H.cell a = some v ∧ sound v :=
  (w.holds k hk).live ha

theorem covers (w : Forested H S root tree) (ha : H.cell a ≠ none) :
    ∃ h ∈ S, 0 < (tree h).count a := by
  by_contra hnone
  simp only [not_exists, not_and, Nat.not_lt, Nat.le_zero] at hnone
  have hsum := w.once a
  rw [Finset.sum_eq_zero hnone, if_pos (Option.isSome_iff_ne_none.mpr ha)] at hsum
  omega

/-- The tree of a root that is not null. -/
theorem tree_eq (w : Forested H S root tree) (hk : k ∈ S) (hb : root k = some b) :
    ∃ c, tree k = .node b c .nil := by
  have hholds := w.holds k hk
  have halone := w.alone k hk
  cases htree : tree k with
  | nil =>
    rw [htree, hb] at hholds
    cases hholds
  | node a c n =>
    rw [htree, hb] at hholds
    obtain rfl : b = a := Option.some.inj hholds.1
    cases n with
    | nil => exact ⟨c, rfl⟩
    | node d cd nd =>
      rw [htree] at halone
      simp [Shape.siblings] at halone

theorem tree_null (w : Forested H S root tree) (hk : k ∈ S) (hnull : root k = none) :
    tree k = .nil := by
  have hholds := w.holds k hk
  cases htree : tree k with
  | nil => rfl
  | node a c n =>
    rw [htree, hnull] at hholds
    cases hholds.1

theorem root_count (w : Forested H S root tree) (hk : k ∈ S) (hb : root k = some b) :
    0 < (tree k).count b := by
  obtain ⟨c, htree⟩ := w.tree_eq hk hb
  rw [htree, Shape.count_node, if_pos rfl]
  omega

end Places

section Totals

variable {s : Shape}

theorem total_insert (tree : ℕ → Shape) (hk : k ∉ S) (a : ℕ) :
    ∑ h ∈ insert k S, (Function.update tree k s h).count a =
      s.count a + ∑ h ∈ S, (tree h).count a := by
  rw [Finset.sum_insert hk, Function.update_self]
  refine congrArg _ (Finset.sum_congr rfl fun h hh => ?_)
  rw [Function.update_of_ne (by rintro rfl; exact hk hh)]

theorem total_update (tree : ℕ → Shape) (ho : o ∈ S) (a : ℕ) :
    ∑ h ∈ S, (Function.update tree o s h).count a + (tree o).count a =
      ∑ h ∈ S, (tree h).count a + s.count a := by
  rw [← Finset.add_sum_erase S _ ho, ← Finset.add_sum_erase S _ ho, Function.update_self]
  have hrest : ∑ h ∈ S.erase o, (Function.update tree o s h).count a =
      ∑ h ∈ S.erase o, (tree h).count a :=
    Finset.sum_congr rfl fun h hh => by rw [Function.update_of_ne (Finset.ne_of_mem_erase hh)]
  rw [hrest]
  omega

end Totals

section Changes

theorem congr {root' : ℕ → Option ℕ} {tree' : ℕ → Shape} (w : Forested H S root tree)
    (hroot : ∀ h ∈ S, root' h = root h) (htree : ∀ h ∈ S, tree' h = tree h) :
    Forested H S root' tree' where
  holds h hh := by
    rw [hroot h hh, htree h hh]
    exact w.holds h hh
  alone h hh := by
    rw [htree h hh]
    exact w.alone h hh
  once a := by
    rw [Finset.sum_congr rfl fun h hh => by rw [htree h hh]]
    exact w.once a

/-- Cells may change in what the links do not show. -/
theorem relabel (w : Forested H S root tree) (hkeep : ∀ y, Keeps H H' y)
    (hnone : ∀ y, H.cell y = none → H'.cell y = none) : Forested H' S root tree where
  holds h hh := (w.holds h hh).frame fun y _ => hkeep y
  alone := w.alone
  once a := by
    rw [w.once a, Heap.isSome_eq_of_live (hnone a) fun v hv => (hkeep a v hv).imp fun _ => And.left]

theorem alone_update {t : Shape} (ht : t.siblings.length ≤ 1)
    (hother : h ≠ k → (tree h).siblings.length ≤ 1) :
    (Function.update tree k t h).siblings.length ≤ 1 := by
  by_cases hhk : h = k
  · rwa [hhk, Function.update_self]
  · rw [Function.update_of_ne hhk]
    exact hother hhk

/-- Other children leave a tree without siblings. -/
theorem alone_setChildren (w : Forested H S root tree) (ho : o ∈ S) (hh : h ∈ S) (p : ℕ)
    (s : Shape) : (Function.update tree o ((tree o).setChildren p s) h).siblings.length ≤ 1 := by
  refine alone_update ?_ fun _ => w.alone h hh
  rw [Shape.siblings_setChildren]
  exact w.alone o ho

theorem insert_null (w : Forested H S root tree) (hk : k ∉ S) :
    Forested H (insert k S) (Function.update root k none) (Function.update tree k .nil) where
  holds h hh := by
    by_cases hhk : h = k
    · subst h
      simp [Holds]
    · rw [Function.update_of_ne hhk, Function.update_of_ne hhk]
      exact w.holds h (Finset.mem_of_mem_insert_of_ne hh hhk)
  alone h hh := alone_update (by simp [Shape.siblings]) fun hhk =>
    w.alone h (Finset.mem_of_mem_insert_of_ne hh hhk)
  once a := by
    rw [total_insert _ hk, w.once a, Shape.count_nil, Nat.zero_add]

theorem erase_null (w : Forested H S root tree) (hk : k ∈ S) (hnull : root k = none) :
    Forested H (S.erase k) root tree where
  holds h hh := w.holds h (Finset.mem_of_mem_erase hh)
  alone h hh := w.alone h (Finset.mem_of_mem_erase hh)
  once a := by
    have hsum := w.once a
    rw [← Finset.add_sum_erase S _ hk, w.tree_null hk hnull, Shape.count_nil] at hsum
    rwa [Nat.zero_add] at hsum

/-- A new cell without links is a tree of its own. -/
theorem alloc (w : Forested H S root tree) (hk : k ∉ S) {v : V} (hprev : prev v = none)
    (hnext : next v = none) (hchild : child v = none) (hsound : sound v) :
    Forested (H.alloc v) (insert k S) (Function.update root k (some H.fresh))
      (Function.update tree k (.node H.fresh .nil .nil)) where
  holds h hh := by
    by_cases hhk : h = k
    · subst h
      rw [Function.update_self, Function.update_self]
      exact ⟨rfl, v, Heap.cell_alloc_self H v, hprev, hsound, hchild, hnext⟩
    · rw [Function.update_of_ne hhk, Function.update_of_ne hhk]
      have hS := Finset.mem_of_mem_insert_of_ne hh hhk
      refine (w.holds h hS).congr fun y hy => ?_
      obtain ⟨u, hu, -⟩ := w.live hS hy
      rw [hu, Heap.cell_alloc_of_live v hu]
  alone h hh := alone_update (by simp [Shape.siblings]) fun hhk =>
    w.alone h (Finset.mem_of_mem_insert_of_ne hh hhk)
  once a := by
    rw [total_insert _ hk, w.once a, Shape.count_node]
    by_cases ha : a = H.fresh
    · subst a
      rw [H.unused _ (Nat.le_refl _), Heap.cell_alloc_self]
      simp
    · rw [Heap.cell_alloc_of_ne H v ha, if_neg (Ne.symm ha)]
      simp

/-- A tree is given up with all its cells. -/
theorem delete (w : Forested H S root tree) (hk : k ∈ S)
    (hcell : ∀ y, H'.cell y = if 0 < (tree k).count y then none else H.cell y) :
    Forested H' (S.erase k) root tree where
  holds h hh := by
    obtain ⟨hhk, hS⟩ := Finset.mem_erase.mp hh
    refine (w.holds h hS).congr fun y hy => ?_
    have := w.apart hS hk (Ne.symm hhk) hy
    rw [hcell, if_neg (by omega)]
  alone h hh := w.alone h (Finset.mem_of_mem_erase hh)
  once a := by
    have hsum := w.once a
    rw [← Finset.add_sum_erase S _ hk] at hsum
    have hle := w.count_le hk a
    rw [hcell]
    by_cases ha : 0 < (tree k).count a
    · obtain ⟨v, hv, -⟩ := w.live hk ha
      rw [hv] at hsum
      simp only [Option.isSome_some, if_true] at hsum
      simp only [if_pos ha, Option.isSome_none, Bool.false_eq_true, if_false]
      omega
    · rw [if_neg ha]
      omega

/-- The tree of a root moves behind the last child of a node of another tree. -/
theorem attach {last : Option ℕ} (w : Forested H S root tree) (hk : k ∈ S) (ho : o ∈ S)
    (hok : o ≠ k) (hb : root k = some b) (hc : 0 < (tree o).count c)
    (hlast : ((tree o).children c).siblings.getLast? = last) (hmove : Attaches H H' b c last) :
    Forested H' (S.erase k) root
      (Function.update tree o
        ((tree o).setChildren c (((tree o).children c).append (tree k)))) := by
  have hd := w.distinct ho
  have hle := Shape.count_children_le (tree o) c
  have hself : ((tree o).children c).count c = 0 := hd.count_children_self
  have hbo : (tree o).count b = 0 := w.apart hk ho hok (w.root_count hk hb)
  have hck : (tree k).count c = 0 := w.apart ho hk (Ne.symm hok) hc
  have hcb : c ≠ b := Shape.ne_of_count hc hbo
  have hlast_pos : ∀ l, last = some l → 0 < ((tree o).children c).count l := by
    rintro l rfl
    exact Shape.count_pos_of_mem_siblings (List.mem_of_getLast? hlast)
  have hlast_ne : ∀ y, ((tree o).children c).count y = 0 → last ≠ some y := by
    intro y hy heq
    have := hlast_pos y heq
    omega
  have houter : ∀ y, (tree o).count y = 0 → last ≠ some y := by
    intro y hy
    have := hle y
    exact hlast_ne y (by omega)
  refine ⟨fun h hh => ?_, fun h hh => ?_, fun a => ?_⟩
  · obtain ⟨hhk, hS⟩ := Finset.mem_erase.mp hh
    by_cases hho : h = o
    · subst hho
      rw [Function.update_self]
      obtain ⟨v, hv, -⟩ := w.live hS hc
      obtain ⟨v', hv', hprev, hnext, hchild, hsound⟩ := hmove.link c v hv
      rw [if_neg fun hand => hcb hand.1] at hprev
      rw [if_neg (hlast_ne c hself)] at hnext
      simp only [true_and] at hchild
      refine (w.holds h hS).setChildren hd hc hv ⟨v', hv', hprev, hnext, hsound, ?_⟩
        fun y hy hyc hyL => hmove.keeps (Or.inl (Shape.ne_of_count hy hbo)) (hlast_ne y hyL)
          (Or.inl hyc)
      · rw [hchild]
        refine hmove.children ((w.holds h hS).children hd hc hv) hd.children hlast ?_ hself ?_
        · have := hle b
          omega
        · have hX := w.holds k hk
          rw [hb] at hX
          exact hmove.moved hX (w.distinct hk) (fun y hy => houter y (w.apart hk hS hok hy)) hck
    · rw [Function.update_of_ne hho]
      refine (w.holds h hS).frame fun y hy => ?_
      have hyo := w.apart hS ho (Ne.symm hho) hy
      have hyk := w.apart hS hk (Ne.symm hhk) hy
      have hby : b ≠ y := Shape.ne_of_count (w.root_count hk hb) hyk
      have hcy : c ≠ y := Shape.ne_of_count hc hyo
      exact hmove.keeps (Or.inl (Ne.symm hby)) (houter y hyo) (Or.inl (Ne.symm hcy))
  · exact w.alone_setChildren ho (Finset.mem_of_mem_erase hh) c _
  · have hsum := w.once a
    rw [← Finset.add_sum_erase S _ hk] at hsum
    have htotal := total_update tree (s := (tree o).setChildren c
      (((tree o).children c).append (tree k))) (Finset.mem_erase.mpr ⟨hok, ho⟩) a
    have hcount := Shape.count_setChildren (x := a) (s := ((tree o).children c).append (tree k))
      hd hc
    rw [Shape.count_append] at hcount
    rw [hmove.isSome_eq]
    omega

/-- A new tree moves behind the last child of b. -/
theorem attach_new {d : ℕ} {last : Option ℕ} {t : Shape} (hd : d ∉ S)
    (w : Forested H (insert d S) (Function.update root d (some x)) (Function.update tree d t))
    (hk : k ∈ S) (hb : 0 < (tree k).count b)
    (hlast : ((tree k).children b).siblings.getLast? = last) (hmove : Attaches H H' x b last) :
    ∃ t', Forested H' S root (Function.update tree k t') ∧ 0 < t'.count b ∧
      (t'.children b).siblings.getLast? = some x ∧
      ∀ y, t'.count y = (tree k).count y + t.count y := by
  have hkd : k ≠ d := ne_of_mem_of_not_mem hk hd
  have hkS := Finset.mem_insert_of_mem (b := d) hk
  have hdS := Finset.mem_insert_self d S
  have htree : Function.update tree d t k = tree k := Function.update_of_ne hkd ..
  have hdistinct : (tree k).Distinct := htree ▸ w.distinct hkS
  obtain ⟨u, hu⟩ := w.tree_eq hdS (Function.update_self ..)
  rw [Function.update_self] at hu
  have hw := w.attach hdS hkS hkd (Function.update_self ..) (by rwa [htree]) (by rwa [htree]) hmove
  rw [Finset.erase_insert hd, htree, Function.update_self] at hw
  have hcount : ∀ y, ((tree k).setChildren b (((tree k).children b).append t)).count y =
      (tree k).count y + t.count y := by
    intro y
    have := Shape.count_setChildren (x := y) (s := ((tree k).children b).append t) hdistinct hb
    rw [Shape.count_append] at this
    omega
  refine ⟨_, hw.congr (fun h hh => ?_) fun h hh => ?_, ?_, ?_, hcount⟩
  · rw [Function.update_of_ne (by rintro rfl; exact hd hh)]
  · by_cases hhk : h = k
    · subst hhk
      rw [Function.update_self, Function.update_self]
    · rw [Function.update_of_ne hhk, Function.update_of_ne hhk,
        Function.update_of_ne (by rintro rfl; exact hd hh)]
  · rw [hcount]
    omega
  · rw [Shape.children_setChildren hdistinct hb, Shape.siblings_append, hu]
    simp [Shape.siblings]

/-- A child is cut out, with all that is below it, and becomes a tree of its own. -/
theorem detach {before under behind : Shape} {v : V} (w : Forested H S root tree) (hk : k ∉ S)
    (ho : o ∈ S) (hp : 0 < (tree o).count p)
    (hsplit : (tree o).children p = before.append (.node x under behind))
    (hv : H.cell x = some v) (hmove : Detaches H H' x p v) :
    Forested H' (insert k S) (Function.update root k (some x))
      (Function.update
        (Function.update tree o ((tree o).setChildren p (before.append behind))) k
        (.node x under .nil)) := by
  have hd := w.distinct ho
  have hle := Shape.count_children_le (tree o) p
  have hself : ((tree o).children p).count p = 0 := hd.count_children_self
  have hL : (before.append (.node x under behind)).Distinct := hsplit ▸ hd.children
  obtain ⟨u, hu, -⟩ := w.live ho hp
  have hholds := (w.holds o ho).children hd hp hu
  rw [hsplit] at hholds hle hself
  have hok : o ≠ k := ne_of_mem_of_not_mem ho hk
  have hout : ∀ y, (before.append (.node x under behind)).count y = 0 → y ≠ p → Keeps H H' y := by
    intro y hy hyp
    obtain ⟨hyx, hnext, hprev⟩ := hholds.outside_ne hv (Shape.not_mem_siblings hy)
    exact hmove.keeps hyx hnext hprev hyp
  refine ⟨fun h hh => ?_, fun h hh => ?_, fun a => ?_⟩
  · by_cases hhk : h = k
    · subst hhk
      rw [Function.update_self, Function.update_self]
      exact hmove.cut hholds hL hv hself
    · have hS := Finset.mem_of_mem_insert_of_ne hh hhk
      rw [Function.update_of_ne hhk, Function.update_of_ne hhk]
      by_cases hho : h = o
      · subst hho
        rw [Function.update_self]
        obtain ⟨u', hu', hprev, hnext, hchild, hsound⟩ := hmove.link p u hu
        obtain ⟨hpx, hpn, hpp⟩ := hholds.outside_ne hv (Shape.not_mem_siblings hself)
        rw [if_neg hpx, if_neg hpn] at hprev
        rw [if_neg hpx, if_neg hpp] at hnext
        simp only [true_and] at hchild
        refine (w.holds h hS).setChildren hd hp hu ⟨u', hu', hprev, hnext, hsound, ?_⟩
          fun y hy hyp hyL => hout y (hsplit ▸ hyL) hyp
        rw [hchild]
        exact hmove.rest hholds hL hv hself
      · rw [Function.update_of_ne hho]
        refine (w.holds h hS).frame fun y hy => ?_
        have hyo := w.apart hS ho (Ne.symm hho) hy
        have hpy : p ≠ y := Shape.ne_of_count hp hyo
        have := hle y
        exact hout y (by omega) (Ne.symm hpy)
  · exact alone_update (by simp [Shape.siblings]) fun hhk =>
      w.alone_setChildren ho (Finset.mem_of_mem_insert_of_ne hh hhk) p _
  · have hsum := w.once a
    have htotal := total_update tree
      (s := (tree o).setChildren p (before.append behind)) ho a
    have hcount := Shape.count_setChildren (x := a) (s := before.append behind) hd hp
    rw [hsplit, Shape.count_append, Shape.count_append, Shape.count_node] at hcount
    rw [total_insert _ hk, hmove.isSome_eq, Shape.count_node, Shape.count_nil]
    omega

end Changes

section Descent

theorem childOf_iff (w : Forested H S root tree) (hk : k ∈ S) (hp : 0 < (tree k).count p) :
    ChildOf H p x ↔ x ∈ ((tree k).children p).siblings := by
  obtain ⟨v, hv, -⟩ := w.live hk hp
  have hiff := ((w.holds k hk).children (w.distinct hk) hp hv).chain.reaches_iff (x := x)
  constructor
  · rintro ⟨u, hu, hx⟩
    obtain rfl := Option.some.inj (hv.symm.trans hu)
    exact hiff.mp hx
  · exact fun hx => ⟨v, hv, hiff.mpr hx⟩

/-- A child is in the tree of its parent. -/
theorem childOf_tree (w : Forested H S root tree) (h : ChildOf H p x) :
    ∃ k ∈ S, 0 < (tree k).count p ∧ x ∈ ((tree k).children p).siblings := by
  obtain ⟨v, hv, hx⟩ := h
  obtain ⟨k, hk, hp⟩ := w.covers (a := p) (by simp [hv])
  exact ⟨k, hk, hp, (w.childOf_iff hk hp).mp ⟨v, hv, hx⟩⟩

theorem count_child (hx : x ∈ ((tree k).children p).siblings) : 0 < (tree k).count x :=
  Nat.lt_of_lt_of_le (Shape.count_pos_of_mem_siblings hx) (Shape.count_children_le _ p x)

theorem root_not_child (w : Forested H S root tree) (hk : k ∈ S) (ha : root k = some a) :
    ¬ ChildOf H p a := by
  intro h
  obtain ⟨o, ho, -, hchild⟩ := w.childOf_tree h
  have hpos := count_child hchild
  by_cases hok : o = k
  · subst o
    obtain ⟨c, htree⟩ := w.tree_eq hk ha
    refine Shape.not_mem_children_of_mem_siblings (w.distinct hk) ?_ hchild
    rw [htree]
    exact List.mem_cons_self ..
  · have := w.apart hk ho hok (w.root_count hk ha)
    omega

theorem root_unique (w : Forested H S root tree) (hk : k ∈ S) (ho : o ∈ S)
    (ha : root k = some a) (ha' : root o = some a) : o = k := by
  by_contra hok
  have := w.apart hk ho hok (w.root_count hk ha)
  have := w.root_count ho ha'
  omega

/-- A live cell is a root or has a parent. -/
theorem root_or_child (w : Forested H S root tree) (ha : H.cell a ≠ none) :
    (∃ k ∈ S, root k = some a) ∨ ∃ p, ChildOf H p a := by
  obtain ⟨k, hk, hpos⟩ := w.covers ha
  rcases Shape.exists_parent (w.distinct hk) hpos with htop | ⟨p, hp⟩
  · refine Or.inl ⟨k, hk, ?_⟩
    cases hroot : root k with
    | none =>
      rw [w.tree_null hk hroot] at htop
      cases htop
    | some b =>
      obtain ⟨c, htree⟩ := w.tree_eq hk hroot
      rw [htree] at htop
      rw [List.mem_singleton.mp htop]
  · exact Or.inr ⟨p, (w.childOf_iff hk (Shape.mem_of_mem_children hp)).mpr hp⟩

theorem parent_unique {q : ℕ} (w : Forested H S root tree) (hp : ChildOf H p a)
    (hq : ChildOf H q a) : p = q := by
  obtain ⟨k, hk, -, hkp⟩ := w.childOf_tree hp
  obtain ⟨o, ho, -, hoq⟩ := w.childOf_tree hq
  by_cases hok : o = k
  · subst o
    exact Shape.parent_unique (w.distinct hk) hkp hoq
  · have := w.apart hk ho hok (count_child hkp)
    have := count_child hoq
    omega

/-- Descendants are in the same tree, further down. -/
theorem descend (w : Forested H S root tree) (h : Relation.TransGen (ChildOf H) a b) :
    ∃ k ∈ S, 0 < (tree k).count a ∧ 0 < (tree k).count b ∧
      (tree k).depth a < (tree k).depth b := by
  induction h with
  | single hab =>
    obtain ⟨k, hk, ha, hb⟩ := w.childOf_tree hab
    have := Shape.depth_child (w.distinct hk) hb
    exact ⟨k, hk, ha, count_child hb, by omega⟩
  | tail _ hbc ih =>
    obtain ⟨k, hk, ha, hb, hlt⟩ := ih
    have hc := (w.childOf_iff hk hb).mp hbc
    have := Shape.depth_child (w.distinct hk) hc
    exact ⟨k, hk, ha, count_child hc, by omega⟩

/-- The root is an ancestor of every node of its tree. -/
theorem root_descends (w : Forested H S root tree) (hk : k ∈ S) (hb : root k = some b)
    (ha : 0 < (tree k).count a) : Relation.ReflTransGen (ChildOf H) b a := by
  obtain ⟨n, hn⟩ : ∃ n, (tree k).depth a = n := ⟨_, rfl⟩
  induction n using Nat.strong_induction_on generalizing a with
  | _ n ih =>
    rcases Shape.exists_parent (w.distinct hk) ha with htop | ⟨p, hp⟩
    · obtain ⟨c, htree⟩ := w.tree_eq hk hb
      rw [htree] at htop
      rw [List.mem_singleton.mp htop]
    · have hppos := Shape.mem_of_mem_children hp
      have hdepth := Shape.depth_child (w.distinct hk) hp
      exact (ih _ (by omega) hppos rfl).tail ((w.childOf_iff hk hppos).mpr hp)

theorem acyclic (w : Forested H S root tree) (a : ℕ) : ¬ Relation.TransGen (ChildOf H) a a := by
  intro h
  obtain ⟨k, -, -, -, hlt⟩ := w.descend h
  omega

/-- From a live cell the next links never lead to a root. -/
theorem reaches_root (w : Forested H S root tree) (hk : k ∈ S) (ha : root k = some a)
    (hb : H.cell b ≠ none) (h : Reaches H (some b) a) : b = a := by
  rcases w.root_or_child hb with ⟨o, ho, hroot⟩ | ⟨p, v, hv, hp⟩
  · obtain ⟨c, htree⟩ := w.tree_eq ho hroot
    have hchain := (w.holds o ho).chain
    rw [htree, hroot] at hchain
    exact (List.mem_singleton.mp (hchain.reaches_iff.mp h)).symm
  · exact absurd ⟨v, hv, hp.trans h⟩ (w.root_not_child hk ha)

end Descent

end Forested

end BoxUtils.LinkedForest
