import Mathlib.Algebra.GroupWithZero.Nat
import BoxUtils.LinkedShapes

/-!
A shape as the list of its siblings, each with the shape of what is below it. A shape is held
where the siblings are linked and each of them holds what is below it, so that the siblings
can be put in another order.
-/
namespace BoxUtils

namespace Shape

def trees : Shape → List (ℕ × Shape)
  | nil => []
  | node a c n => (a, c) :: n.trees

def ofTrees : List (ℕ × Shape) → Shape
  | [] => nil
  | (a, c) :: l => node a c (ofTrees l)

@[simp] theorem trees_ofTrees (l : List (ℕ × Shape)) : (ofTrees l).trees = l := by
  induction l with
  | nil => rfl
  | cons t l ih => rw [ofTrees, trees, ih]

@[simp] theorem ofTrees_trees (t : Shape) : ofTrees t.trees = t := by
  induction t with
  | nil => rfl
  | node a c n _ ih => rw [trees, ofTrees, ih]

theorem map_trees (t : Shape) : t.trees.map Prod.fst = t.siblings := by
  induction t with
  | nil => rfl
  | node a c n _ ih => rw [trees, siblings, List.map_cons, ih]

theorem siblings_ofTrees (l : List (ℕ × Shape)) : (ofTrees l).siblings = l.map Prod.fst := by
  rw [← map_trees, trees_ofTrees]

theorem count_trees (t : Shape) (x : ℕ) :
    t.count x = (t.trees.map fun s => (node s.1 s.2 nil).count x).sum := by
  induction t with
  | nil => rfl
  | node a c n _ ih =>
    rw [trees, List.map_cons, List.sum_cons, ← ih]
    simp only [count_node, count_nil]
    omega

/-- The order of the siblings does not matter for the counts. -/
theorem count_perm {s t : Shape} (h : s.trees.Perm t.trees) (x : ℕ) : s.count x = t.count x := by
  rw [count_trees, count_trees]
  exact (h.map _).sum_eq

theorem count_tree_le {t : Shape} {s : ℕ × Shape} (h : s ∈ t.trees) (x : ℕ) :
    (node s.1 s.2 nil).count x ≤ t.count x := by
  induction t with
  | nil => cases h
  | node a c n _ ih =>
    rcases List.mem_cons.mp h with rfl | h
    · simp only [count_node, count_nil]
      omega
    · have hle := ih h
      rw [count_node x a c n]
      omega

/-- What is below a sibling is not among the siblings. -/
theorem count_below {t : Shape} (hd : t.Distinct) {s : ℕ × Shape} (h : s ∈ t.trees) {x : ℕ}
    (hx : x ∈ t.siblings) : s.2.count x = 0 := by
  induction t with
  | nil => cases h
  | node a c n _ ih =>
    have hdx := hd x
    rw [count_node] at hdx
    have hnext : n.Distinct := by
      intro y
      have := hd y
      rw [count_node] at this
      omega
    rcases List.mem_cons.mp h with rfl | hs <;> rcases List.mem_cons.mp hx with rfl | hx
    · rw [if_pos rfl] at hdx
      show c.count x = 0
      omega
    · have hpos := count_pos_of_mem_siblings hx
      show c.count x = 0
      omega
    · have hle := count_tree_le hs x
      rw [count_node, count_nil] at hle
      rw [if_pos rfl] at hdx
      omega
    · exact ih hnext hs hx

end Shape

namespace LinkedShapes

open Linked

variable {V : Type*} [Linked V] {H : Heap V} {q p e : Option ℕ} {t : Shape}

/-- Linked siblings, each of which holds what is below it. -/
theorem holds_iff_trees : Holds H q p t e ↔ Chain H q p t.siblings e ∧
    ∀ s ∈ t.trees, ∃ v, H.cell s.1 = some v ∧ sound v ∧ Holds H none (child v) s.2 none := by
  induction t generalizing q p with
  | nil => simp [Holds, Chain, Shape.trees, Shape.siblings]
  | node a c n _ ih =>
    constructor
    · rintro ⟨hp, v, hv, hprev, hsound, hc, hn⟩
      obtain ⟨hchain, hbelow⟩ := ih.mp hn
      exact ⟨⟨hp, v, hv, hprev, hchain⟩,
        List.forall_mem_cons.mpr ⟨⟨v, hv, hsound, hc⟩, hbelow⟩⟩
    · rintro ⟨⟨hp, v, hv, hprev, hchain⟩, hbelow⟩
      obtain ⟨⟨w, hw, hsound, hc⟩, hrest⟩ := List.forall_mem_cons.mp hbelow
      obtain rfl := Option.some.inj (hv.symm.trans hw)
      exact ⟨hp, v, hv, hprev, hsound, hc, ih.mpr ⟨hchain, hrest⟩⟩

end LinkedShapes

end BoxUtils
