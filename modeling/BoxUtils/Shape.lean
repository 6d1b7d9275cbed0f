import Mathlib.Algebra.BigOperators.Group.Finset.Piecewise
import Mathlib.Algebra.Order.BigOperators.Group.Finset
import Mathlib.Tactic.Common

/-!
Trees in the form in which linked nodes hold them: each node has a first child
and a next sibling. A shape carries the addresses of the nodes only. Its
occurrences are counted, so that a change is an equation between counts and
distinctness is a bound on them.
-/
namespace BoxUtils

inductive Shape where
  | nil
  | node (addr : ℕ) (child next : Shape)

namespace Shape

/-- How often an address occurs. -/
def count (x : ℕ) : Shape → ℕ
  | nil => 0
  | node a c n => (if a = x then 1 else 0) + c.count x + n.count x

def size : Shape → ℕ
  | nil => 0
  | node _ c n => c.size + n.size + 1

/-- The addresses on the top level, in order. -/
def siblings : Shape → List ℕ
  | nil => []
  | node a _ n => a :: n.siblings

/-- The children of a node, as a shape of their own. -/
def children (p : ℕ) : Shape → Shape
  | nil => nil
  | node a c n => if a = p then c else if 0 < c.count p then c.children p else n.children p

/-- The number of ancestors of a node. -/
def depth (x : ℕ) : Shape → ℕ
  | nil => 0
  | node a c n => if a = x then 0 else if 0 < c.count x then c.depth x + 1 else n.depth x

/-- Replaces the children of one node. -/
def setChildren (p : ℕ) : Shape → Shape → Shape
  | nil, _ => nil
  | node a c n, s =>
    if a = p then node a s n else node a (c.setChildren p s) (n.setChildren p s)

/-- Puts a shape behind the last sibling. -/
def append : Shape → Shape → Shape
  | nil, t => t
  | node a c n, t => node a c (n.append t)

/-- Takes away what is below the siblings that do not meet a condition. -/
def prune (P : ℕ → Bool) : Shape → Shape
  | nil => nil
  | node a c n => node a (if P a then c else nil) (n.prune P)

/-- The shape from one node on: the node, what is below it and its later siblings. -/
def fromNode (x : ℕ) : Shape → Shape
  | nil => nil
  | node a c n =>
    if a = x then node a c n else if 0 < c.count x then c.fromNode x else n.fromNode x

/-- No address occurs twice. -/
def Distinct (t : Shape) : Prop := ∀ x, t.count x ≤ 1

@[simp] theorem count_nil (x : ℕ) : nil.count x = 0 := rfl

theorem count_node (x a : ℕ) (c n : Shape) :
    (node a c n).count x = (if a = x then 1 else 0) + c.count x + n.count x := rfl

@[simp] theorem count_append (s t : Shape) (x : ℕ) :
    (s.append t).count x = s.count x + t.count x := by
  induction s with
  | nil => simp [append]
  | node a c n _ ih =>
    simp only [append, count_node, ih]
    omega

@[simp] theorem append_nil (s : Shape) : s.append nil = s := by
  induction s with
  | nil => rfl
  | node a c n _ ih => rw [append, ih]

theorem append_assoc (s t u : Shape) : (s.append t).append u = s.append (t.append u) := by
  induction s with
  | nil => rfl
  | node a c n _ ih => rw [append, append, append, ih]

@[simp] theorem siblings_append (s t : Shape) :
    (s.append t).siblings = s.siblings ++ t.siblings := by
  induction s with
  | nil => rfl
  | node a c n _ ih => simp [append, siblings, ih]

/-- A node of a shape is none of those outside of it. -/
theorem ne_of_count {t : Shape} {x y : ℕ} (hx : 0 < t.count x) (hy : t.count y = 0) : x ≠ y := by
  rintro rfl
  omega

theorem count_pos_of_mem_siblings {t : Shape} {x : ℕ} (hx : x ∈ t.siblings) : 0 < t.count x := by
  induction t with
  | nil => cases hx
  | node a c n _ ih =>
    simp only [count_node]
    rcases List.mem_cons.mp hx with rfl | hx
    · rw [if_pos rfl]
      omega
    · have := ih hx
      omega

theorem not_mem_siblings {t : Shape} {x : ℕ} (hx : t.count x = 0) : x ∉ t.siblings := by
  intro hmem
  have := count_pos_of_mem_siblings hmem
  omega

section Prune

variable {P Q : ℕ → Bool} {t : Shape}

@[simp] theorem siblings_prune (P : ℕ → Bool) (t : Shape) :
    (t.prune P).siblings = t.siblings := by
  induction t with
  | nil => rfl
  | node a c n _ ih => rw [prune, siblings, siblings, ih]

@[simp] theorem prune_append (P : ℕ → Bool) (s t : Shape) :
    (s.append t).prune P = (s.prune P).append (t.prune P) := by
  induction s with
  | nil => rfl
  | node a c n _ ih => rw [append, prune, prune, append, ih]

theorem count_prune_le (P : ℕ → Bool) (t : Shape) (x : ℕ) : (t.prune P).count x ≤ t.count x := by
  induction t with
  | nil => rfl
  | node a c n _ ih =>
    have hchild : (if P a then c else nil).count x ≤ c.count x := by
      split
      · exact Nat.le_refl _
      · exact Nat.zero_le _
    rw [prune, count_node, count_node]
    omega

theorem prune_congr (h : ∀ x ∈ t.siblings, P x = Q x) : t.prune P = t.prune Q := by
  induction t with
  | nil => rfl
  | node a c n _ ih =>
    rw [prune, prune, h a List.mem_cons_self, ih fun x hx => h x (List.mem_cons_of_mem a hx)]

theorem prune_eq_self (h : ∀ x ∈ t.siblings, P x = true) : t.prune P = t := by
  induction t with
  | nil => rfl
  | node a c n _ ih =>
    rw [prune, if_pos (h a List.mem_cons_self), ih fun x hx => h x (List.mem_cons_of_mem a hx)]

end Prune

section Distinct

variable {a x y p q : ℕ} {c n t : Shape}

theorem Distinct.child (h : (node a c n).Distinct) : c.Distinct := by
  intro y
  have := h y
  simp only [count_node] at this
  omega

theorem Distinct.next (h : (node a c n).Distinct) : n.Distinct := by
  intro y
  have := h y
  simp only [count_node] at this
  omega

/-- The top address of a distinct shape occurs nowhere below or behind it. -/
theorem Distinct.top (h : (node a c n).Distinct) : c.count a = 0 ∧ n.count a = 0 := by
  have := h a
  simp only [count_node, if_true] at this
  omega

/-- What occurs below the top address does not occur behind it. -/
theorem Distinct.next_of_child (h : (node a c n).Distinct) (hx : 0 < c.count x) :
    a ≠ x ∧ n.count x = 0 := by
  have hcount := h x
  simp only [count_node] at hcount
  refine ⟨fun hax => ?_, by omega⟩
  rw [if_pos hax] at hcount
  omega

theorem Distinct.child_of_next (h : (node a c n).Distinct) (hx : 0 < n.count x) :
    a ≠ x ∧ c.count x = 0 := by
  have hcount := h x
  simp only [count_node] at hcount
  refine ⟨fun hax => ?_, by omega⟩
  rw [if_pos hax] at hcount
  omega

/-- Where an address of a shape is: on top, below or behind. -/
theorem count_node_pos (h : 0 < (node a c n).count x) :
    a = x ∨ (a ≠ x ∧ 0 < c.count x) ∨ (a ≠ x ∧ 0 < n.count x) := by
  by_cases hax : a = x
  · exact Or.inl hax
  · simp only [count_node, if_neg hax] at h
    rcases Nat.eq_zero_or_pos (c.count x) with hc | hc
    · exact Or.inr (Or.inr ⟨hax, by omega⟩)
    · exact Or.inr (Or.inl ⟨hax, hc⟩)

end Distinct

section Children

variable {x p q : ℕ} {t : Shape}

theorem count_children_le (t : Shape) (p x : ℕ) : (t.children p).count x ≤ t.count x := by
  induction t with
  | nil => simp [children]
  | node a c n ihc ihn =>
    simp only [children, count_node]
    split
    · omega
    · split <;> omega

theorem size_children_lt {p : ℕ} {t : Shape} (hp : 0 < t.count p) :
    (t.children p).size < t.size := by
  induction t with
  | nil => cases hp
  | node a c n ihc ihn =>
    simp only [children, size]
    split
    case isTrue => omega
    case isFalse hap =>
      split
      case isTrue hcp =>
        have := ihc hcp
        omega
      case isFalse hcp =>
        simp only [count_node, if_neg hap] at hp
        have := ihn (by omega)
        omega

theorem children_of_count_zero (h : t.count p = 0) : t.children p = nil := by
  induction t with
  | nil => rfl
  | node a c n _ ihn =>
    simp only [count_node] at h
    have hap : a ≠ p := by
      intro heq
      subst heq
      simp at h
    have hc : ¬ 0 < c.count p := by omega
    rw [children, if_neg hap, if_neg hc]
    exact ihn (by omega)

theorem Distinct.children (h : t.Distinct) : (t.children p).Distinct :=
  fun x => Nat.le_trans (count_children_le t p x) (h x)

/-- A node is not among what is below it. -/
theorem Distinct.count_children_self (h : t.Distinct) : (t.children p).count p = 0 := by
  induction t with
  | nil => rfl
  | node a c n ihc ihn =>
    simp only [Shape.children]
    split
    case isTrue hap => exact hap ▸ h.top.1
    case isFalse =>
      split
      · exact ihc h.child
      · exact ihn h.next

theorem mem_of_mem_children (hx : x ∈ (t.children p).siblings) : 0 < t.count p := by
  rcases Nat.eq_zero_or_pos (t.count p) with hp | hp
  · rw [children_of_count_zero hp] at hx
    cases hx
  · exact hp

theorem depth_of_mem_siblings (h : t.Distinct) (hx : x ∈ t.siblings) : t.depth x = 0 := by
  induction t with
  | nil => rfl
  | node a c n _ ihn =>
    rcases List.mem_cons.mp hx with rfl | hx
    · simp [depth]
    · obtain ⟨hax, hc⟩ := h.child_of_next (count_pos_of_mem_siblings hx)
      rw [depth, if_neg hax, if_neg (by omega)]
      exact ihn h.next hx

/-- A child is one level below its parent. -/
theorem depth_child (h : t.Distinct) (hx : x ∈ (t.children p).siblings) :
    t.depth x = t.depth p + 1 := by
  induction t with
  | nil => cases hx
  | node a c n ihc ihn =>
    have hxcount := count_pos_of_mem_siblings hx
    by_cases hap : a = p
    · rw [children, if_pos hap] at hx hxcount
      obtain ⟨hax, -⟩ := h.next_of_child hxcount
      rw [depth, if_neg hax, if_pos hxcount, depth, if_pos hap,
        depth_of_mem_siblings h.child hx]
    · by_cases hcp : 0 < c.count p
      · rw [children, if_neg hap, if_pos hcp] at hx hxcount
        have hcx := Nat.lt_of_lt_of_le hxcount (count_children_le c p x)
        obtain ⟨hax, -⟩ := h.next_of_child hcx
        rw [depth, if_neg hax, if_pos hcx, depth, if_neg hap, if_pos hcp, ihc h.child hx]
      · rw [children, if_neg hap, if_neg hcp] at hx hxcount
        have hnx := Nat.lt_of_lt_of_le hxcount (count_children_le n p x)
        obtain ⟨hax, hcx⟩ := h.child_of_next hnx
        rw [depth, if_neg hax, if_neg (by omega), depth, if_neg hap, if_neg hcp, ihn h.next hx]

theorem not_mem_children_of_mem_siblings (h : t.Distinct) (hx : x ∈ t.siblings) :
    x ∉ (t.children p).siblings := by
  intro hchild
  have hdepth := depth_child h hchild
  rw [depth_of_mem_siblings h hx] at hdepth
  omega

theorem children_top (a : ℕ) (c n : Shape) : (node a c n).children a = c := by
  simp [children]

theorem children_of_child {a : ℕ} {c n : Shape} (h : (node a c n).Distinct)
    (hp : 0 < c.count p) : (node a c n).children p = c.children p := by
  rw [children, if_neg (h.next_of_child hp).1, if_pos hp]

theorem children_of_next {a : ℕ} {c n : Shape} (h : (node a c n).Distinct)
    (hp : 0 < n.count p) : (node a c n).children p = n.children p := by
  obtain ⟨hap, hcp⟩ := h.child_of_next hp
  rw [children, if_neg hap, if_neg (by omega)]

/-- A node that is not on the top level is the child of a node. -/
theorem exists_parent (h : t.Distinct) (hx : 0 < t.count x) :
    x ∈ t.siblings ∨ ∃ p, x ∈ (t.children p).siblings := by
  induction t with
  | nil => cases hx
  | node a c n ihc ihn =>
    rcases count_node_pos hx with rfl | ⟨-, hcx⟩ | ⟨-, hnx⟩
    · exact Or.inl (List.mem_cons_self ..)
    · refine Or.inr ?_
      rcases ihc h.child hcx with htop | ⟨p, hp⟩
      · exact ⟨a, by rwa [children_top]⟩
      · exact ⟨p, by rwa [children_of_child h (mem_of_mem_children hp)]⟩
    · rcases ihn h.next hnx with htop | ⟨p, hp⟩
      · exact Or.inl (List.mem_cons_of_mem _ htop)
      · exact Or.inr ⟨p, by rwa [children_of_next h (mem_of_mem_children hp)]⟩

/-- A node is the child of one node only. -/
theorem parent_unique (h : t.Distinct) (hp : x ∈ (t.children p).siblings)
    (hq : x ∈ (t.children q).siblings) : p = q := by
  induction t with
  | nil => cases hp
  | node a c n ihc ihn =>
    have hxp := count_pos_of_mem_siblings hp
    have hxq := count_pos_of_mem_siblings hq
    rcases count_node_pos (mem_of_mem_children hp) with rfl | ⟨-, hcp⟩ | ⟨-, hnp⟩
    · rw [children_top] at hp hxp
      have hnx := (h.next_of_child hxp).2
      rcases count_node_pos (mem_of_mem_children hq) with heq | ⟨-, hcq⟩ | ⟨-, hnq⟩
      · exact heq
      · rw [children_of_child h hcq] at hq
        exact absurd hq (not_mem_children_of_mem_siblings h.child hp)
      · rw [children_of_next h hnq] at hxq
        have := count_children_le n q x
        omega
    · rw [children_of_child h hcp] at hp hxp
      have hcx := Nat.lt_of_lt_of_le hxp (count_children_le c p x)
      have hnx := (h.next_of_child hcx).2
      rcases count_node_pos (mem_of_mem_children hq) with rfl | ⟨-, hcq⟩ | ⟨-, hnq⟩
      · rw [children_top] at hq
        exact absurd hp (not_mem_children_of_mem_siblings h.child hq)
      · rw [children_of_child h hcq] at hq
        exact ihc h.child hp hq
      · rw [children_of_next h hnq] at hxq
        have := count_children_le n q x
        omega
    · rw [children_of_next h hnp] at hp hxp
      have hnx := Nat.lt_of_lt_of_le hxp (count_children_le n p x)
      have hcx := (h.child_of_next hnx).2
      rcases count_node_pos (mem_of_mem_children hq) with rfl | ⟨-, hcq⟩ | ⟨-, hnq⟩
      · rw [children_top] at hxq
        omega
      · rw [children_of_child h hcq] at hxq
        have := count_children_le c q x
        omega
      · rw [children_of_next h hnq] at hq
        exact ihn h.next hp hq

end Children

section Changes

variable {x p : ℕ} {s t : Shape}

theorem setChildren_of_count_zero (hp : t.count p = 0) : t.setChildren p s = t := by
  induction t with
  | nil => rfl
  | node a c n ihc ihn =>
    simp only [count_node] at hp
    have hap : a ≠ p := by
      intro heq
      subst heq
      simp at hp
    rw [setChildren, if_neg hap, ihc (by omega), ihn (by omega)]

theorem setChildren_top (a : ℕ) (c n : Shape) :
    (node a c n).setChildren a s = node a s n := by
  simp [setChildren]

theorem setChildren_of_child {a : ℕ} {c n : Shape} (h : (node a c n).Distinct)
    (hp : 0 < c.count p) : (node a c n).setChildren p s = node a (c.setChildren p s) n := by
  obtain ⟨hap, hnp⟩ := h.next_of_child hp
  rw [setChildren, if_neg hap, setChildren_of_count_zero hnp]

theorem setChildren_of_next {a : ℕ} {c n : Shape} (h : (node a c n).Distinct)
    (hp : 0 < n.count p) : (node a c n).setChildren p s = node a c (n.setChildren p s) := by
  obtain ⟨hap, hcp⟩ := h.child_of_next hp
  rw [setChildren, if_neg hap, setChildren_of_count_zero hcp]

@[simp] theorem siblings_setChildren (t : Shape) (p : ℕ) (s : Shape) :
    (t.setChildren p s).siblings = t.siblings := by
  induction t with
  | nil => rfl
  | node a c n _ ihn =>
    rw [setChildren]
    split <;> simp [siblings, ihn]

/-- New children change the counts by the difference to the old ones. -/
theorem count_setChildren (h : t.Distinct) (hp : 0 < t.count p) :
    (t.setChildren p s).count x + (t.children p).count x = t.count x + s.count x := by
  induction t with
  | nil => cases hp
  | node a c n ihc ihn =>
    rcases count_node_pos hp with rfl | ⟨-, hcp⟩ | ⟨-, hnp⟩
    · rw [setChildren_top, children_top]
      simp only [count_node]
      omega
    · have ih := ihc h.child hcp
      rw [setChildren_of_child h hcp, children_of_child h hcp]
      simp only [count_node]
      omega
    · have ih := ihn h.next hnp
      rw [setChildren_of_next h hnp, children_of_next h hnp]
      simp only [count_node]
      omega

theorem children_setChildren (h : t.Distinct) (hp : 0 < t.count p) :
    (t.setChildren p s).children p = s := by
  induction t with
  | nil => cases hp
  | node a c n ihc ihn =>
    rcases count_node_pos hp with rfl | ⟨hap, hcp⟩ | ⟨hap, hnp⟩
    · rw [setChildren_top, children_top]
    · have hpos : 0 < (c.setChildren p s).count p := by
        have := count_setChildren (x := p) (s := s) h.child hcp
        rw [h.child.count_children_self] at this
        omega
      rw [setChildren_of_child h hcp, children, if_neg hap, if_pos hpos]
      exact ihc h.child hcp
    · have hzero := (h.child_of_next hnp).2
      rw [setChildren_of_next h hnp, children, if_neg hap, if_neg (by omega)]
      exact ihn h.next hnp

/-- The size adds up the occurrences of the addresses below a bound. -/
theorem size_eq_sum {N : ℕ} (h : ∀ y, 0 < t.count y → y < N) :
    t.size = ∑ y ∈ Finset.range N, t.count y := by
  induction t with
  | nil => simp [size]
  | node a c n ihc ihn =>
    have ha : a < N := h a (by rw [count_node, if_pos rfl]; omega)
    have hc := ihc fun y hy => h y (by rw [count_node]; omega)
    have hn := ihn fun y hy => h y (by rw [count_node]; omega)
    simp only [size, count_node, Finset.sum_add_distrib, Finset.sum_ite_eq, Finset.mem_range,
      if_pos ha, hc, hn]
    omega

theorem Distinct.size_le {N : ℕ} (hd : t.Distinct) (h : ∀ y, 0 < t.count y → y < N) :
    t.size ≤ N := by
  rw [size_eq_sum h]
  calc ∑ y ∈ Finset.range N, t.count y ≤ ∑ _y ∈ Finset.range N, 1 :=
        Finset.sum_le_sum fun y _ => hd y
    _ = N := by simp

/-- A shape is cut open where the list of its siblings is. -/
theorem split_append {as bs : List ℕ} (h : t.siblings = as ++ x :: bs) :
    ∃ before under behind : Shape,
      t = before.append (node x under behind) ∧ before.siblings = as := by
  induction t generalizing as with
  | nil => simp [siblings] at h
  | node a c n _ ihn =>
    cases as with
    | nil =>
      obtain ⟨rfl, -⟩ := List.cons.inj h
      exact ⟨nil, c, n, rfl, rfl⟩
    | cons b as =>
      obtain ⟨rfl, hn⟩ := List.cons.inj h
      obtain ⟨before, under, behind, heq, hbefore⟩ := ihn hn
      exact ⟨node a c before, under, behind, by rw [heq, append], by rw [siblings, hbefore]⟩

theorem split_siblings (hx : x ∈ t.siblings) :
    ∃ before under behind : Shape, t = before.append (node x under behind) := by
  obtain ⟨as, bs, hsplit⟩ := List.append_of_mem hx
  obtain ⟨before, under, behind, heq, -⟩ := split_append hsplit
  exact ⟨before, under, behind, heq⟩

end Changes

section From

variable {x : ℕ} {t : Shape}

theorem count_fromNode_le (t : Shape) (x y : ℕ) : (t.fromNode x).count y ≤ t.count y := by
  induction t with
  | nil => simp [fromNode]
  | node a c n ihc ihn =>
    simp only [fromNode, count_node]
    split
    · rw [count_node]
    · split <;> omega

theorem Distinct.fromNode (h : t.Distinct) (x : ℕ) : (t.fromNode x).Distinct :=
  fun y => Nat.le_trans (count_fromNode_le t x y) (h y)

theorem count_fromNode_self (hx : 0 < t.count x) : 0 < (t.fromNode x).count x := by
  induction t with
  | nil => cases hx
  | node a c n ihc ihn =>
    rw [Shape.fromNode]
    split
    case isTrue => exact hx
    case isFalse hax =>
      split
      case isTrue hpos => exact ihc hpos
      case isFalse hzero =>
        rw [count_node, if_neg hax] at hx
        exact ihn (by omega)

theorem fromNode_of_child {a : ℕ} {c n : Shape} (h : (node a c n).Distinct)
    (hx : 0 < c.count x) : (node a c n).fromNode x = c.fromNode x := by
  rw [fromNode, if_neg (h.next_of_child hx).1, if_pos hx]

theorem fromNode_of_next {a : ℕ} {c n : Shape} (h : (node a c n).Distinct)
    (hx : 0 < n.count x) : (node a c n).fromNode x = n.fromNode x := by
  obtain ⟨hax, hcx⟩ := h.child_of_next hx
  rw [fromNode, if_neg hax, if_neg (by omega)]

end From

section Shift

/-- The same shape, with all addresses moved up by k. -/
def shift (k : ℕ) : Shape → Shape
  | nil => nil
  | node a c n => node (a + k) (c.shift k) (n.shift k)

theorem count_shift (t : Shape) (k y : ℕ) :
    (t.shift k).count y = if k ≤ y then t.count (y - k) else 0 := by
  induction t with
  | nil => simp [shift]
  | node a c n ihc ihn =>
    simp only [shift, count_node, ihc, ihn]
    by_cases hky : k ≤ y
    · have hsame : (a + k = y) ↔ (a = y - k) := by omega
      simp only [if_pos hky, hsame]
    · have hne : a + k ≠ y := by omega
      simp only [if_neg hky, if_neg hne]

theorem Distinct.shift {t : Shape} (h : t.Distinct) (k : ℕ) : (t.shift k).Distinct := by
  intro y
  rw [count_shift]
  split
  · exact h _
  · exact Nat.zero_le _

end Shift

end Shape

end BoxUtils
