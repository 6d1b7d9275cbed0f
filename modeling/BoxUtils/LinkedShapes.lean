import Mathlib.Data.Finset.Card
import Mathlib.Data.Nat.Notation
import Mathlib.Logic.Relation
import Mathlib.Tactic.Tauto
import BoxUtils.Heap
import BoxUtils.Shape

/-!
Linked cells. A cell knows its neighbours in a list of siblings and its first
child. A heap holds a shape from a pointer on when the links of its cells trace
that shape. The rules say how a held shape changes when children are exchanged,
when a list is cut at its end or its start, and when a node is put behind a list
or taken out of it.
-/
namespace BoxUtils

/-- A cell with the links of a sibling list and of a tree. -/
class Linked (V : Type*) where
  prev : V → Option ℕ
  next : V → Option ℕ
  child : V → Option ℕ
  /-- What a cell has to meet besides. -/
  sound : V → Prop

namespace LinkedShapes

open Linked

variable {V : Type*} [Linked V]

/-- The list of siblings from pointer p on, between the neighbours q and e. -/
def Chain (H : Heap V) : Option ℕ → Option ℕ → List ℕ → Option ℕ → Prop
  | _, p, [], e => p = e
  | q, p, a :: l, e =>
    p = some a ∧ ∃ v, H.cell a = some v ∧ prev v = q ∧ Chain H (some a) (next v) l e

/-- The shape from pointer p on, between the neighbours q and e. -/
def Holds (H : Heap V) : Option ℕ → Option ℕ → Shape → Option ℕ → Prop
  | _, p, .nil, e => p = e
  | q, p, .node a c n, e =>
    p = some a ∧ ∃ v, H.cell a = some v ∧ prev v = q ∧ sound v ∧
      Holds H none (child v) c none ∧ Holds H (some a) (next v) n e

/-- The cells that a pointer and the links to the next ones lead to. -/
inductive Reaches (H : Heap V) : Option ℕ → ℕ → Prop where
  | here (a : ℕ) : Reaches H (some a) a
  | next {a b : ℕ} {v : V} (hv : H.cell a = some v) (h : Reaches H (next v) b) :
    Reaches H (some a) b

/-- A live cell p has a among its children. -/
def ChildOf (H : Heap V) (p a : ℕ) : Prop := ∃ v, H.cell p = some v ∧ Reaches H (child v) a

section Chains

variable {H H' : Heap V} {q p e : Option ℕ} {l l' : List ℕ} {a : ℕ}

theorem Chain.append : ∀ {q p}, Chain H q p (l ++ l') e ↔
    ∃ m, Chain H q p l m ∧ Chain H (l.getLast?.or q) m l' e := by
  induction l with
  | nil =>
    intro q p
    simp [Chain]
  | cons a l ih =>
    intro q p
    have hlast : (a :: l).getLast?.or q = l.getLast?.or (some a) := by
      cases l with
      | nil => rfl
      | cons b l => simp [List.getLast?_cons]
    simp only [List.cons_append, Chain, ih, hlast]
    constructor
    · rintro ⟨hp, v, hv, hprev, m, hl, hl'⟩
      exact ⟨m, ⟨hp, v, hv, hprev, hl⟩, hl'⟩
    · rintro ⟨m, ⟨hp, v, hv, hprev, hl⟩, hl'⟩
      exact ⟨hp, v, hv, hprev, m, hl, hl'⟩

theorem Chain.live (h : Chain H q p l e) (ha : a ∈ l) : ∃ v, H.cell a = some v := by
  induction l generalizing q p with
  | nil => cases ha
  | cons b l ih =>
    obtain ⟨-, v, hv, -, hrest⟩ := h
    rcases List.mem_cons.mp ha with rfl | ha
    · exact ⟨v, hv⟩
    · exact ih hrest ha

theorem Chain.frame (h : Chain H q p l e)
    (hkeep : ∀ y ∈ l, ∀ u, H.cell y = some u → ∃ u', H'.cell y = some u' ∧
      prev u' = prev u ∧ next u' = next u) : Chain H' q p l e := by
  induction l generalizing q p with
  | nil => exact h
  | cons a l ih =>
    obtain ⟨hp, u, hu, hprev, hrest⟩ := h
    obtain ⟨u', hu', hprev', hnext'⟩ := hkeep a List.mem_cons_self u hu
    refine ⟨hp, u', hu', hprev'.trans hprev, ?_⟩
    rw [hnext']
    exact ih hrest fun y hy => hkeep y (List.mem_cons_of_mem a hy)

/-- A pointer starts at most one list that comes to an end. -/
theorem Chain.unique {q' : Option ℕ} (h : Chain H q p l none) (h' : Chain H q' p l' none) :
    l = l' := by
  induction l generalizing q q' p l' with
  | nil =>
    obtain rfl : p = none := h
    cases l' with
    | nil => rfl
    | cons b l' => cases h'.1
  | cons a l ih =>
    obtain ⟨rfl, v, hv, -, hrest⟩ := h
    cases l' with
    | nil => cases h'
    | cons b l' =>
      obtain ⟨heq, w, hw, -, hrest'⟩ := h'
      obtain rfl := Option.some.inj heq
      obtain rfl := Option.some.inj (hv.symm.trans hw)
      rw [ih hrest hrest']

theorem Chain.nodup (h : Chain H q p l none) : l.Nodup := by
  induction l generalizing q p with
  | nil => exact List.nodup_nil
  | cons a l ih =>
    obtain ⟨hp, v, hv, hprev, hrest⟩ := h
    refine List.nodup_cons.mpr ⟨fun hmem => ?_, ih hrest⟩
    -- a second occurrence starts the same list again, which is then its own proper part
    obtain ⟨l₁, l₂, rfl⟩ := List.append_of_mem hmem
    obtain ⟨m, -, hagain⟩ := Chain.append.mp hrest
    obtain rfl : m = some a := hagain.1
    have hsame := (show Chain H q (some a) (a :: (l₁ ++ a :: l₂)) none from
      ⟨rfl, v, hv, hprev, hrest⟩).unique hagain
    have := congrArg List.length hsame
    simp only [List.length_cons, List.length_append] at this
    omega

/-- A cell of the list knows its neighbours there. -/
theorem Chain.links {i : ℕ} (h : Chain H q p l none) (ha : l[i]? = some a) :
    ∃ v, H.cell a = some v ∧ prev v = (if i = 0 then q else l[i - 1]?) ∧ next v = l[i + 1]? := by
  induction l generalizing q p i with
  | nil => simp at ha
  | cons b l ih =>
    obtain ⟨-, v, hv, hprev, hrest⟩ := h
    cases i with
    | zero =>
      obtain rfl : b = a := by simpa using ha
      refine ⟨v, hv, by simpa using hprev, ?_⟩
      cases l with
      | nil => exact hrest
      | cons c l => exact hrest.1
    | succ i =>
      obtain ⟨w, hw, hback, hnext⟩ := ih hrest (by simpa using ha)
      refine ⟨w, hw, ?_, by simpa using hnext⟩
      cases i with
      | zero => simpa using hback
      | succ i => simpa using hback

theorem Chain.length_le (h : Chain H q p l none) : l.length ≤ H.fresh := by
  have hsub : l.toFinset ⊆ Finset.range H.fresh := fun a ha => by
    obtain ⟨v, hv⟩ := h.live (List.mem_toFinset.mp ha)
    exact Finset.mem_range.mpr (Heap.lt_fresh hv)
  have hcard := Finset.card_le_card hsub
  rwa [List.toFinset_card_of_nodup h.nodup, Finset.card_range] at hcard

end Chains

section Shapes

variable {H H' : Heap V} {q p e : Option ℕ} {s t : Shape} {a l x : ℕ}

/-- Two cells with the same links. -/
def SameLinks (u u' : V) : Prop :=
  prev u' = prev u ∧ next u' = next u ∧ child u' = child u ∧ (sound u → sound u')

/-- A cell stays what it is up to what the links do not show. -/
def Keeps (H H' : Heap V) (y : ℕ) : Prop :=
  ∀ u, H.cell y = some u → ∃ u', H'.cell y = some u' ∧ SameLinks u u'

theorem Keeps.of_eq (h : H'.cell a = H.cell a) : Keeps H H' a :=
  fun u hu => ⟨u, h.trans hu, rfl, rfl, rfl, id⟩

theorem Holds.frame (h : Holds H q p t e) (hkeep : ∀ y, 0 < t.count y → Keeps H H' y) :
    Holds H' q p t e := by
  induction t generalizing q p e with
  | nil => exact h
  | node a c n ihc ihn =>
    obtain ⟨hp, v, hv, hprev, hsound, hc, hn⟩ := h
    obtain ⟨v', hv', hprev', hnext', hchild', hsound'⟩ :=
      hkeep a (by rw [Shape.count_node, if_pos rfl]; omega) v hv
    refine ⟨hp, v', hv', hprev'.trans hprev, hsound' hsound, ?_, ?_⟩
    · rw [hchild']
      exact ihc hc fun y hy => hkeep y (by rw [Shape.count_node]; omega)
    · rw [hnext']
      exact ihn hn fun y hy => hkeep y (by rw [Shape.count_node]; omega)

theorem Holds.congr (h : Holds H q p t e) (heq : ∀ y, 0 < t.count y → H'.cell y = H.cell y) :
    Holds H' q p t e :=
  h.frame fun y hy => Keeps.of_eq (heq y hy)

theorem Holds.chain (h : Holds H q p t e) : Chain H q p t.siblings e := by
  induction t generalizing q p with
  | nil => exact h
  | node a c n _ ihn =>
    obtain ⟨hp, v, hv, hprev, -, -, hn⟩ := h
    exact ⟨hp, v, hv, hprev, ihn hn⟩

theorem Holds.live (h : Holds H q p t e) (ha : 0 < t.count a) :
    ∃ v, H.cell a = some v ∧ sound v := by
  induction t generalizing q p e with
  | nil => cases ha
  | node b c n ihc ihn =>
    obtain ⟨-, v, hv, -, hsound, hc, hn⟩ := h
    rcases Shape.count_node_pos ha with rfl | ⟨-, hac⟩ | ⟨-, han⟩
    · exact ⟨v, hv, hsound⟩
    · exact ihc hc hac
    · exact ihn hn han

theorem Holds.size_le (h : Holds H q p t e) (hd : t.Distinct) : t.size ≤ H.fresh :=
  hd.size_le fun y hy => by
    obtain ⟨v, hv, -⟩ := h.live hy
    exact Heap.lt_fresh hv

theorem Holds.children {v : V} (h : Holds H q p t e) (hd : t.Distinct) (ha : 0 < t.count a)
    (hv : H.cell a = some v) : Holds H none (child v) (t.children a) none := by
  induction t generalizing q p e with
  | nil => cases ha
  | node b c n ihc ihn =>
    obtain ⟨-, w, hw, -, -, hc, hn⟩ := h
    rcases Shape.count_node_pos ha with rfl | ⟨-, hac⟩ | ⟨-, han⟩
    · obtain rfl := Option.some.inj (hv.symm.trans hw)
      rwa [Shape.children_top]
    · rw [Shape.children_of_child hd hac]
      exact ihc hc hd.child hac
    · rw [Shape.children_of_next hd han]
      exact ihn hn hd.next han

/-- The children of a node are exchanged where its cell and the new children say so
and every other cell is kept. -/
theorem Holds.setChildren {v : V} (h : Holds H q p t e) (hd : t.Distinct) (ha : 0 < t.count a)
    (hv : H.cell a = some v)
    (hnew : ∃ v', H'.cell a = some v' ∧ prev v' = prev v ∧ next v' = next v ∧
      (sound v → sound v') ∧ Holds H' none (child v') s none)
    (hkeep : ∀ y, 0 < t.count y → y ≠ a → (t.children a).count y = 0 → Keeps H H' y) :
    Holds H' q p (t.setChildren a s) e := by
  induction t generalizing q p e with
  | nil => cases ha
  | node b c n ihc ihn =>
    obtain ⟨hp, w, hw, hprev, hsound, hc, hn⟩ := h
    rcases Shape.count_node_pos ha with rfl | ⟨hba, hac⟩ | ⟨hba, han⟩
    · obtain rfl := Option.some.inj (hv.symm.trans hw)
      obtain ⟨v', hv', hprev', hnext', hsound', hchildren⟩ := hnew
      rw [Shape.setChildren_top]
      refine ⟨hp, v', hv', hprev'.trans hprev, hsound' hsound, hchildren, ?_⟩
      rw [hnext']
      refine hn.frame fun y hy => ?_
      obtain ⟨hby, hcy⟩ := hd.child_of_next hy
      exact hkeep y (by rw [Shape.count_node]; omega) (Ne.symm hby)
        (by rwa [Shape.children_top])
    · obtain ⟨-, hna⟩ := hd.next_of_child hac
      rw [Shape.children_of_child hd hac] at hkeep
      rw [Shape.setChildren_of_child hd hac]
      have hb : (c.children a).count b = 0 := by
        have := Shape.count_children_le c a b
        have := hd.top.1
        omega
      obtain ⟨w', hw', hprev', hnext', hchild', hsound'⟩ :=
        hkeep b (by rw [Shape.count_node, if_pos rfl]; omega) hba hb w hw
      refine ⟨hp, w', hw', hprev'.trans hprev, hsound' hsound, ?_, ?_⟩
      · rw [hchild']
        exact ihc hc hd.child hac fun y hy => hkeep y (by rw [Shape.count_node]; omega)
      · rw [hnext']
        refine hn.frame fun y hy => ?_
        have hcy := (hd.child_of_next hy).2
        have := Shape.count_children_le c a y
        have hay : a ≠ y := Shape.ne_of_count hac hcy
        exact hkeep y (by rw [Shape.count_node]; omega) (Ne.symm hay) (by omega)
    · obtain ⟨-, hca⟩ := hd.child_of_next han
      rw [Shape.children_of_next hd han] at hkeep
      rw [Shape.setChildren_of_next hd han]
      have hb : (n.children a).count b = 0 := by
        have := Shape.count_children_le n a b
        have := hd.top.2
        omega
      obtain ⟨w', hw', hprev', hnext', hchild', hsound'⟩ :=
        hkeep b (by rw [Shape.count_node, if_pos rfl]; omega) hba hb w hw
      refine ⟨hp, w', hw', hprev'.trans hprev, hsound' hsound, ?_, ?_⟩
      · rw [hchild']
        refine hc.frame fun y hy => ?_
        have hny := (hd.next_of_child hy).2
        have := Shape.count_children_le n a y
        have hay : a ≠ y := Shape.ne_of_count han hny
        exact hkeep y (by rw [Shape.count_node]; omega) (Ne.symm hay) (by omega)
      · rw [hnext']
        exact ihn hn hd.next han fun y hy => hkeep y (by rw [Shape.count_node]; omega)

theorem Holds.append {e : Option ℕ} : ∀ {q p}, Holds H q p (s.append t) e ↔
    ∃ m, Holds H q p s m ∧ Holds H (s.siblings.getLast?.or q) m t e := by
  induction s with
  | nil =>
    intro q p
    simp [Shape.append, Holds, Shape.siblings]
  | node a c n _ ih =>
    intro q p
    have hlast : (a :: n.siblings).getLast?.or q = n.siblings.getLast?.or (some a) := by
      cases n.siblings with
      | nil => rfl
      | cons b l => simp [List.getLast?_cons]
    simp only [Shape.append, Holds, Shape.siblings, ih, hlast]
    constructor
    · rintro ⟨hp, v, hv, hprev, hsound, hc, m, hn, ht⟩
      exact ⟨m, ⟨hp, v, hv, hprev, hsound, hc, hn⟩, ht⟩
    · rintro ⟨m, ⟨hp, v, hv, hprev, hsound, hc, hn⟩, ht⟩
      exact ⟨hp, v, hv, hprev, hsound, hc, m, hn, ht⟩

/-- The last sibling is made to point elsewhere. -/
theorem Holds.retarget {e' : Option ℕ} (h : Holds H q p t e) (hd : t.Distinct)
    (hl : t.siblings.getLast? = some l)
    (hnew : ∀ v, H.cell l = some v → ∃ v', H'.cell l = some v' ∧ prev v' = prev v ∧
      next v' = e' ∧ child v' = child v ∧ (sound v → sound v'))
    (hkeep : ∀ y, 0 < t.count y → y ≠ l → Keeps H H' y) : Holds H' q p t e' := by
  induction t generalizing q p with
  | nil => cases hl
  | node a c n _ ihn =>
    obtain ⟨hp, v, hv, hprev, hsound, hc, hn⟩ := h
    have hla : 0 < (Shape.node a c n).count l :=
      Shape.count_pos_of_mem_siblings (List.mem_of_getLast? hl)
    have hcl : c.count l = 0 := by
      rcases Nat.eq_zero_or_pos (c.count l) with hzero | hpos
      · exact hzero
      · obtain ⟨hal, hnl⟩ := hd.next_of_child hpos
        rcases List.mem_cons.mp (List.mem_of_getLast? hl) with heq | hmem
        · exact absurd heq.symm hal
        · have := Shape.count_pos_of_mem_siblings hmem
          omega
    have hc' : Holds H' none (child v) c none := hc.frame fun y hy =>
      hkeep y (by rw [Shape.count_node]; omega) (by rintro rfl; omega)
    cases n with
    | nil =>
      obtain rfl : a = l := by simpa [Shape.siblings] using hl
      obtain ⟨v', hv', hprev', hnext', hchild', hsound'⟩ := hnew v hv
      exact ⟨hp, v', hv', hprev'.trans hprev, hsound' hsound, by rwa [hchild'], hnext'⟩
    | node b cb nb =>
      have hl' : (Shape.node b cb nb).siblings.getLast? = some l := by
        simpa [Shape.siblings, List.getLast?_cons_cons] using hl
      have hal : a ≠ l := by
        intro heq
        subst heq
        have := Shape.count_pos_of_mem_siblings (List.mem_of_getLast? hl')
        have := hd.top.2
        omega
      obtain ⟨v', hv', hprev', hnext', hchild', hsound'⟩ :=
        hkeep a (by rw [Shape.count_node, if_pos rfl]; omega) hal v hv
      refine ⟨hp, v', hv', hprev'.trans hprev, hsound' hsound, by rwa [hchild'], ?_⟩
      rw [hnext']
      exact ihn hn hd.next hl' fun y hy => hkeep y (by rw [Shape.count_node]; omega)

/-- The first sibling is made to point back elsewhere. -/
theorem Holds.reprev {q' : Option ℕ} (h : Holds H q p t e) (hd : t.Distinct)
    (hnew : ∀ d, p = some d → 0 < t.count d → ∀ v, H.cell d = some v →
      ∃ v', H'.cell d = some v' ∧ prev v' = q' ∧ next v' = next v ∧ child v' = child v ∧
        (sound v → sound v'))
    (hkeep : ∀ y, 0 < t.count y → p ≠ some y → Keeps H H' y) : Holds H' q' p t e := by
  cases t with
  | nil => exact h
  | node a c n =>
    obtain ⟨rfl, v, hv, hprev, hsound, hc, hn⟩ := h
    obtain ⟨v', hv', hprev', hnext', hchild', hsound'⟩ :=
      hnew a rfl (by rw [Shape.count_node, if_pos rfl]; omega) v hv
    obtain ⟨hca, hna⟩ := hd.top
    refine ⟨rfl, v', hv', hprev', hsound' hsound, ?_, ?_⟩
    · rw [hchild']
      refine hc.frame fun y hy => hkeep y (by rw [Shape.count_node]; omega) ?_
      rintro heq
      obtain rfl := Option.some.inj heq
      omega
    · rw [hnext']
      refine hn.frame fun y hy => hkeep y (by rw [Shape.count_node]; omega) ?_
      rintro heq
      obtain rfl := Option.some.inj heq
      omega

end Shapes

section Reach

variable {H H' : Heap V} {q p : Option ℕ} {t : Shape} {a b x y : ℕ}

/-- A live cell has a link to the next sibling or to the first child. -/
def LinksTo (H : Heap V) (x y : ℕ) : Prop :=
  ∃ v, H.cell x = some v ∧ (next v = some y ∨ child v = some y)

/-- The links never leave a shape that is held. -/
theorem Holds.count_of_reach (h : Holds H q (some b) t none)
    (hreach : Relation.ReflTransGen (LinksTo H) b x) : 0 < t.count x := by
  induction hreach using Relation.ReflTransGen.head_induction_on generalizing q t with
  | refl =>
    cases t with
    | nil => cases h
    | node a c n =>
      obtain rfl := Option.some.inj h.1
      rw [Shape.count_node, if_pos rfl]
      omega
  | head hlink _ ih =>
    cases t with
    | nil => cases h
    | node a c n =>
      obtain ⟨heq, v, hv, -, -, hc, hn⟩ := h
      obtain rfl := Option.some.inj heq
      obtain ⟨w, hw, hnext | hchild⟩ := hlink <;> obtain rfl := Option.some.inj (hv.symm.trans hw)
      · rw [hnext] at hn
        have := ih hn
        rw [Shape.count_node]
        omega
      · rw [hchild] at hc
        have := ih hc
        rw [Shape.count_node]
        omega

/-- From a node on the later siblings and all below are a shape as well. -/
theorem Holds.fromNode (h : Holds H q p t none) (hd : t.Distinct) (hx : 0 < t.count x) :
    ∃ q', Holds H q' (some x) (t.fromNode x) none := by
  induction t generalizing q p with
  | nil => cases hx
  | node a c n ihc ihn =>
    obtain ⟨hp, v, hv, hprev, hsound, hc, hn⟩ := h
    rcases Shape.count_node_pos hx with rfl | ⟨-, hpos⟩ | ⟨-, hpos⟩
    · rw [Shape.fromNode, if_pos rfl]
      exact ⟨q, hp.symm ▸ ⟨hp, v, hv, hprev, hsound, hc, hn⟩⟩
    · rw [Shape.fromNode_of_child hd hpos]
      exact ihc hc hd.child hpos
    · rw [Shape.fromNode_of_next hd hpos]
      exact ihn hn hd.next hpos

/-- The links lead to a node even where the heap is kept before it only. -/
theorem Holds.reach (h : Holds H q (some b) t none) (hd : t.Distinct) (hx : 0 < t.count x)
    (hkeep : ∀ y, 0 < t.count y → (t.fromNode x).count y = 0 → H'.cell y = H.cell y) :
    Relation.ReflTransGen (LinksTo H') b x := by
  induction t generalizing q b with
  | nil => cases hx
  | node a c n ihc ihn =>
    obtain ⟨heq, v, hv, -, -, hc, hn⟩ := h
    obtain rfl := Option.some.inj heq
    obtain ⟨hbc, hbn⟩ := hd.top
    rcases Shape.count_node_pos hx with rfl | ⟨-, hpos⟩ | ⟨-, hpos⟩
    · exact Relation.ReflTransGen.refl
    · rw [Shape.fromNode_of_child hd hpos] at hkeep
      have hb : H'.cell b = some v := by
        rw [hkeep b (by rw [Shape.count_node, if_pos rfl]; omega) ?_, hv]
        have := Shape.count_fromNode_le c x b
        omega
      cases hchild : child v with
      | none =>
        rw [hchild] at hc
        cases c with
        | nil => cases hpos
        | node => cases hc.1
      | some d =>
        rw [hchild] at hc
        refine Relation.ReflTransGen.head ⟨v, hb, Or.inr hchild⟩ (ihc hc hd.child hpos ?_)
        exact fun y hy => hkeep y (by rw [Shape.count_node]; omega)
    · rw [Shape.fromNode_of_next hd hpos] at hkeep
      have hb : H'.cell b = some v := by
        rw [hkeep b (by rw [Shape.count_node, if_pos rfl]; omega) ?_, hv]
        have := Shape.count_fromNode_le n x b
        omega
      cases hnext : next v with
      | none =>
        rw [hnext] at hn
        cases n with
        | nil => cases hpos
        | node => cases hn.1
      | some d =>
        rw [hnext] at hn
        refine Relation.ReflTransGen.head ⟨v, hb, Or.inl hnext⟩ (ihn hn hd.next hpos ?_)
        exact fun y hy => hkeep y (by rw [Shape.count_node]; omega)

end Reach

section Links

variable {H H' : Heap V} {q p : Option ℕ} {l : List ℕ} {a b c x : ℕ}

theorem Chain.reaches_iff (h : Chain H q p l none) : Reaches H p x ↔ x ∈ l := by
  induction l generalizing q p with
  | nil =>
    obtain rfl : p = none := h
    exact ⟨fun hx => (by cases hx), fun hx => (by cases hx)⟩
  | cons a l ih =>
    obtain ⟨rfl, v, hv, -, hrest⟩ := h
    rw [List.mem_cons]
    constructor
    · intro hx
      cases hx with
      | here => exact Or.inl rfl
      | next hw hx =>
        obtain rfl := Option.some.inj (hv.symm.trans hw)
        exact Or.inr ((ih hrest).mp hx)
    · rintro (rfl | hx)
      · exact Reaches.here x
      · exact Reaches.next hv ((ih hrest).mpr hx)

theorem Reaches.trans (hp : Reaches H p a) (ha : Reaches H (some a) x) : Reaches H p x := by
  induction hp with
  | here => exact ha
  | next hv _ ih => exact Reaches.next hv (ih ha)

/-- Links that are not null stay, so that what is reached remains so. -/
def Grows (H H' : Heap V) : Prop :=
  ∀ y u, H.cell y = some u → ∃ u', H'.cell y = some u' ∧
    (next u = none ∨ next u' = next u) ∧ (child u = none ∨ child u' = child u)

theorem Reaches.mono (hgrow : Grows H H') (h : Reaches H p x) : Reaches H' p x := by
  induction h with
  | here a => exact Reaches.here a
  | next hv hb ih =>
    obtain ⟨v', hv', hnext, -⟩ := hgrow _ _ hv
    refine Reaches.next hv' ?_
    rcases hnext with hnone | hsame
    · rw [hnone] at hb
      cases hb
    · rwa [hsame]

theorem ChildOf.mono (hgrow : Grows H H') (h : ChildOf H a x) : ChildOf H' a x := by
  obtain ⟨v, hv, hx⟩ := h
  obtain ⟨v', hv', -, hchild⟩ := hgrow _ _ hv
  refine ⟨v', hv', ?_⟩
  rcases hchild with hnone | hsame
  · rw [hnone] at hx
    cases hx
  · rw [hsame]
    exact hx.mono hgrow

end Links

section Moves

variable {H H' : Heap V} {q m : Option ℕ} {s t before under behind : Shape} {b c p x y : ℕ}

/-- The links after b was put behind the last child of c. -/
structure Attaches (H H' : Heap V) (b c : ℕ) (last : Option ℕ) : Prop where
  dead : ∀ y, H.cell y = none → H'.cell y = none
  link : ∀ y u, H.cell y = some u → ∃ u', H'.cell y = some u' ∧
    prev u' = (if y = b ∧ last ≠ none then last else prev u) ∧
    next u' = (if last = some y then some b else next u) ∧
    child u' = (if y = c ∧ last = none then some b else child u) ∧ (sound u → sound u')

/-- The links after the child x of p, whose cell was v, was cut out. -/
structure Detaches (H H' : Heap V) (x p : ℕ) (v : V) : Prop where
  dead : ∀ y, H.cell y = none → H'.cell y = none
  link : ∀ y u, H.cell y = some u → ∃ u', H'.cell y = some u' ∧
    prev u' = (if y = x then none else if next v = some y then prev v else prev u) ∧
    next u' = (if y = x then none else if prev v = some y then next v else next u) ∧
    child u' = (if y = p ∧ child u = some x then next v else child u) ∧ (sound u → sound u')

section Attach

variable {last : Option ℕ}

theorem Attaches.isSome_eq (h : Attaches H H' b c last) (y : ℕ) :
    (H'.cell y).isSome = (H.cell y).isSome :=
  Heap.isSome_eq_of_live (h.dead y) fun u hu => (h.link y u hu).imp fun _ hu' => hu'.1

theorem Attaches.keeps (h : Attaches H H' b c last) (hyb : y ≠ b ∨ last = none)
    (hlast : last ≠ some y) (hyc : y ≠ c ∨ last ≠ none) : Keeps H H' y := by
  intro u hu
  obtain ⟨u', hu', hprev, hnext, hchild, hsound⟩ := h.link y u hu
  rw [if_neg (by tauto)] at hprev
  rw [if_neg hlast] at hnext
  rw [if_neg (by tauto)] at hchild
  exact ⟨u', hu', hprev, hnext, hchild, hsound⟩

/-- The tree that is put there, its root now pointing back to the last child. -/
theorem Attaches.moved (h : Attaches H H' b c last) (hs : Holds H none (some b) s none)
    (hd : s.Distinct) (hlast : ∀ y, 0 < s.count y → last ≠ some y) (hc : s.count c = 0) :
    Holds H' last (some b) s none := by
  have hsc : ∀ y, 0 < s.count y → y ≠ c := by
    rintro y hy rfl
    omega
  cases hl : last with
  | none =>
    exact hs.frame fun y hy => h.keeps (Or.inr hl) (hlast y hy) (Or.inl (hsc y hy))
  | some l =>
    rw [← hl]
    refine hs.reprev hd (fun d hbd hdpos u hu => ?_) fun y hy hyb => ?_
    · obtain rfl := Option.some.inj hbd
      obtain ⟨u', hu', hprev, hnext, hchild, hsound⟩ := h.link b u hu
      rw [if_pos ⟨rfl, by simp [hl]⟩] at hprev
      rw [if_neg (hlast b hdpos)] at hnext
      rw [if_neg fun hand => hsc b hdpos hand.1] at hchild
      exact ⟨u', hu', hprev, hnext, hchild, hsound⟩
    · exact h.keeps (Or.inl fun heq => hyb (by rw [heq])) (hlast y hy) (Or.inl (hsc y hy))

/-- The children with the new one behind them. -/
theorem Attaches.children {p : Option ℕ} (h : Attaches H H' b c last)
    (ht : Holds H none p t none) (hd : t.Distinct) (hlast : t.siblings.getLast? = last)
    (hb : t.count b = 0) (hc : t.count c = 0) (hs : Holds H' last (some b) s none) :
    Holds H' none (if last = none then some b else p) (t.append s) none := by
  cases hl : last with
  | none =>
    subst hl
    cases t with
    | nil => exact hs
    | node a ca na => simp [Shape.siblings] at hlast
  | some l =>
    subst hl
    rw [if_neg (by simp)]
    refine Holds.append.mpr ⟨some b, ?_, by rwa [hlast]⟩
    have htb : ∀ y, 0 < t.count y → y ≠ b := by
      rintro y hy rfl
      omega
    refine ht.retarget hd hlast (fun u hu => ?_) fun y hy hyl => ?_
    · obtain ⟨u', hu', hprev, hnext, hchild, hsound⟩ := h.link l u hu
      have hlb := htb l (Shape.count_pos_of_mem_siblings (List.mem_of_getLast? hlast))
      rw [if_neg fun hand => hlb hand.1] at hprev
      rw [if_pos rfl] at hnext
      rw [if_neg (by simp)] at hchild
      exact ⟨u', hu', hprev, hnext, hchild, hsound⟩
    · exact h.keeps (Or.inl (htb y hy)) (fun heq => hyl (Option.some.inj heq).symm)
        (Or.inr (by simp))

/-- What is reached afterwards was reached before or from the new child on. -/
theorem Attaches.reaches {p : Option ℕ} (h : Attaches H H' b c last) (hp : Reaches H' p x) :
    Reaches H p x ∨ Reaches H (some b) x := by
  induction hp with
  | here a => exact Or.inl (Reaches.here a)
  | @next a d v' hv' _ ih =>
    rcases ih with ih | ih
    · cases ha : H.cell a with
      | none =>
        rw [h.dead a ha] at hv'
        cases hv'
      | some u =>
        obtain ⟨u', hu', -, hnext, -⟩ := h.link a u ha
        obtain rfl := Option.some.inj (hu'.symm.trans hv')
        rw [hnext] at ih
        split at ih
        · exact Or.inr ih
        · exact Or.inl (Reaches.next ha ih)
    · exact Or.inr ih

theorem Attaches.childOf {p : ℕ} (h : Attaches H H' b c last) (hp : ChildOf H' p x) :
    ChildOf H p x ∨ Reaches H (some b) x := by
  obtain ⟨v', hv', hx⟩ := hp
  cases hu : H.cell p with
  | none =>
    rw [h.dead p hu] at hv'
    cases hv'
  | some u =>
    obtain ⟨u', hu', -, -, hchild, -⟩ := h.link p u hu
    obtain rfl := Option.some.inj (hu'.symm.trans hv')
    rw [hchild] at hx
    split at hx
    · rcases h.reaches hx with hx | hx <;> exact Or.inr hx
    · rcases h.reaches hx with hx | hx
      · exact Or.inl ⟨u, hu, hx⟩
      · exact Or.inr hx

/-- Nothing is lost when the new child is put behind the last one. -/
theorem Attaches.grows {l : List ℕ} {v : V} (h : Attaches H H' b c last)
    (hv : H.cell c = some v) (hchain : Chain H none (child v) l none) (hlast : l.getLast? = last) :
    Grows H H' := by
  intro y u hu
  obtain ⟨u', hu', -, hnext, hchild, -⟩ := h.link y u hu
  refine ⟨u', hu', ?_, ?_⟩
  · by_cases hy : last = some y
    · -- the last child has nothing behind it
      rw [hy] at hlast
      obtain ⟨init, rfl⟩ := List.getLast?_eq_some_iff.mp hlast
      obtain ⟨m, -, rfl, w, hw, -, hend⟩ := Chain.append.mp hchain
      obtain rfl := Option.some.inj (hu.symm.trans hw)
      exact Or.inl hend
    · rw [if_neg hy] at hnext
      exact Or.inr hnext
  · by_cases hy : y = c ∧ last = none
    · obtain ⟨rfl, rfl⟩ := hy
      obtain rfl := Option.some.inj (hu.symm.trans hv)
      obtain rfl : l = [] := by simpa using hlast
      exact Or.inl hchain
    · rw [if_neg hy] at hchild
      exact Or.inr hchild

theorem Attaches.childOf_new {l : List ℕ} {v : V} (h : Attaches H H' b c last)
    (hv : H.cell c = some v) (hchain : Chain H none (child v) l none) (hlast : l.getLast? = last) :
    ChildOf H' c b := by
  have hgrow := h.grows hv hchain hlast
  obtain ⟨v', hv', -, -, hchild, -⟩ := h.link c v hv
  cases hl : last with
  | none =>
    rw [if_pos ⟨rfl, hl⟩] at hchild
    exact ⟨v', hv', by rw [hchild]; exact Reaches.here b⟩
  | some d =>
    have hd : d ∈ l := List.mem_of_getLast? (hlast.trans hl)
    obtain ⟨w, hw⟩ := hchain.live hd
    obtain ⟨w', hw', -, hnext, -⟩ := h.link d w hw
    rw [if_pos hl] at hnext
    have hreach : Reaches H' (child v) b :=
      ((hchain.reaches_iff.mpr hd).mono hgrow).trans
        (Reaches.next hw' (by rw [hnext]; exact Reaches.here b))
    rw [if_neg (by simp [hl])] at hchild
    exact ⟨v', hv', by rwa [hchild]⟩

end Attach

section Detach

variable {v : V}

theorem Detaches.isSome_eq (h : Detaches H H' x p v) (y : ℕ) :
    (H'.cell y).isSome = (H.cell y).isSome :=
  Heap.isSome_eq_of_live (h.dead y) fun u hu => (h.link y u hu).imp fun _ hu' => hu'.1

theorem Detaches.keeps (h : Detaches H H' x p v) (hyx : y ≠ x) (hnext : next v ≠ some y)
    (hprev : prev v ≠ some y) (hyp : y ≠ p) : Keeps H H' y := by
  intro u hu
  obtain ⟨u', hu', hprev', hnext', hchild', hsound⟩ := h.link y u hu
  rw [if_neg hyx, if_neg hnext] at hprev'
  rw [if_neg hyx, if_neg hprev] at hnext'
  rw [if_neg fun hand => hyp hand.1] at hchild'
  exact ⟨u', hu', hprev', hnext', hchild', hsound⟩

/-- How a list of children lies around one of them. -/
theorem Holds.around {q m e : Option ℕ} (h : Holds H q m (before.append (.node x under behind)) e)
    (hv : H.cell x = some v) :
    Holds H q m before (some x) ∧ prev v = before.siblings.getLast?.or q ∧ sound v ∧
      Holds H none (child v) under none ∧ Holds H (some x) (next v) behind e := by
  obtain ⟨m', hbefore, rfl, v', hv', hprev, hsound, hunder, hbehind⟩ := Holds.append.mp h
  obtain rfl := Option.some.inj (hv.symm.trans hv')
  exact ⟨hbefore, hprev, hsound, hunder, hbehind⟩

/-- The neighbours of a child are children. -/
theorem Holds.neighbours (h : Holds H none m (before.append (.node x under behind)) none)
    (hv : H.cell x = some v) :
    (∀ y, next v = some y → y ∈ behind.siblings) ∧ ∀ y, prev v = some y → y ∈ before.siblings := by
  obtain ⟨-, hprev, -, -, hbehind⟩ := h.around hv
  constructor
  · intro y hy
    cases behind with
    | nil =>
      rw [hy] at hbehind
      cases hbehind
    | node a ca na =>
      rw [hy] at hbehind
      obtain rfl := Option.some.inj hbehind.1
      exact List.mem_cons_self
  · intro y hy
    rw [hy, Option.or_none] at hprev
    exact List.mem_of_getLast? hprev.symm

/-- A node that is not a child is no neighbour of a child. -/
theorem Holds.outside_ne (h : Holds H none m (before.append (.node x under behind)) none)
    (hv : H.cell x = some v) (hy : y ∉ (before.append (.node x under behind)).siblings) :
    y ≠ x ∧ next v ≠ some y ∧ prev v ≠ some y := by
  obtain ⟨hnext, hprev⟩ := h.neighbours hv
  rw [Shape.siblings_append, Shape.siblings, List.mem_append, List.mem_cons] at hy
  refine ⟨fun heq => ?_, fun heq => ?_, fun heq => ?_⟩
  · exact hy (Or.inr (Or.inl heq))
  · exact hy (Or.inr (Or.inr (hnext y heq)))
  · exact hy (Or.inl (hprev y heq))

/-- No other node around the child is the child itself or the parent, and a neighbour
is on its own side only. -/
theorem Holds.around_ne (h : Holds H none m (before.append (.node x under behind)) none)
    (hd : (before.append (.node x under behind)).Distinct) (hv : H.cell x = some v)
    (hp : (before.append (.node x under behind)).count p = 0)
    (hy : 0 < before.count y + under.count y + behind.count y) :
    y ≠ x ∧ y ≠ p ∧ (next v = some y → before.count y = 0 ∧ under.count y = 0) ∧
      (prev v = some y → under.count y = 0 ∧ behind.count y = 0) := by
  obtain ⟨hnext, hprev⟩ := h.neighbours hv
  have hcount := hd y
  simp only [Shape.count_append, Shape.count_node] at hcount hp
  refine ⟨?_, ?_, fun heq => ?_, fun heq => ?_⟩
  · intro heq
    subst heq
    rw [if_pos rfl] at hcount
    omega
  · intro heq
    subst heq
    omega
  · have := Shape.count_pos_of_mem_siblings (hnext y heq)
    omega
  · have := Shape.count_pos_of_mem_siblings (hprev y heq)
    omega

section Cut

variable (h : Detaches H H' x p v) (ht : Holds H none m (before.append (.node x under behind)) none)
  (hd : (before.append (.node x under behind)).Distinct) (hv : H.cell x = some v)
  (hp : (before.append (.node x under behind)).count p = 0)

include h ht hd hv hp

/-- The child that was cut out, alone. -/
theorem Detaches.cut : Holds H' none (some x) (.node x under .nil) none := by
  obtain ⟨-, -, hs, hunder, -⟩ := ht.around hv
  obtain ⟨v', hv', hprev, hnext, hchild, hsound⟩ := h.link x v hv
  rw [if_pos rfl] at hprev hnext
  have hxp : x ≠ p := by
    intro heq
    subst heq
    rw [Shape.count_append, Shape.count_node, if_pos rfl] at hp
    omega
  rw [if_neg fun hand => hxp hand.1] at hchild
  refine ⟨rfl, v', hv', hprev, hsound hs, ?_, hnext⟩
  rw [hchild]
  refine hunder.frame fun y hy => ?_
  obtain ⟨hyx, hyp, hynext, hyprev⟩ := ht.around_ne hd hv hp (y := y) (by omega)
  refine h.keeps hyx (fun heq => ?_) (fun heq => ?_) hyp
  · have := (hynext heq).2
    omega
  · have := (hyprev heq).1
    omega

/-- The children behind, the first of them now pointing back over the gap. -/
theorem Detaches.later : Holds H' (prev v) (next v) behind none := by
  obtain ⟨-, -, -, -, hbehind⟩ := ht.around hv
  have hdistinct : behind.Distinct := fun y => by
    have := hd y
    simp only [Shape.count_append, Shape.count_node] at this
    omega
  have hout : ∀ y, 0 < behind.count y → y ≠ x ∧ y ≠ p ∧ prev v ≠ some y := by
    intro y hy
    obtain ⟨hyx, hyp, -, hyprev⟩ := ht.around_ne hd hv hp (y := y) (by omega)
    refine ⟨hyx, hyp, fun heq => ?_⟩
    have := (hyprev heq).2
    omega
  refine hbehind.reprev hdistinct (fun d hnext hdpos u hu => ?_) fun y hy hynext => ?_
  · obtain ⟨hdx, hdp, hdprev⟩ := hout d hdpos
    obtain ⟨u', hu', hprev', hnext', hchild', hsound⟩ := h.link d u hu
    rw [if_neg hdx, if_pos hnext] at hprev'
    rw [if_neg hdx, if_neg hdprev] at hnext'
    rw [if_neg fun hand => hdp hand.1] at hchild'
    exact ⟨u', hu', hprev', hnext', hchild', hsound⟩
  · obtain ⟨hyx, hyp, hyprev⟩ := hout y hy
    exact h.keeps hyx hynext hyprev hyp

/-- The children before, the last of them now pointing over the gap. -/
theorem Detaches.earlier {l : ℕ} (hl : before.siblings.getLast? = some l) :
    Holds H' none m before (next v) := by
  obtain ⟨hbefore, hprev, -, -, -⟩ := ht.around hv
  rw [Option.or_none, hl] at hprev
  have hdistinct : before.Distinct := fun y => by
    have := hd y
    rw [Shape.count_append] at this
    omega
  have hout : ∀ y, 0 < before.count y → y ≠ x ∧ y ≠ p ∧ next v ≠ some y := by
    intro y hy
    obtain ⟨hyx, hyp, hynext, -⟩ := ht.around_ne hd hv hp (y := y) (by omega)
    refine ⟨hyx, hyp, fun heq => ?_⟩
    have := (hynext heq).1
    omega
  refine hbefore.retarget hdistinct hl (fun u hu => ?_) fun y hy hyl => ?_
  · obtain ⟨hlx, hlp, hlnext⟩ :=
      hout l (Shape.count_pos_of_mem_siblings (List.mem_of_getLast? hl))
    obtain ⟨u', hu', hprev', hnext', hchild', hsound⟩ := h.link l u hu
    rw [if_neg hlx, if_neg hlnext] at hprev'
    rw [if_neg hlx, if_pos hprev] at hnext'
    rw [if_neg fun hand => hlp hand.1] at hchild'
    exact ⟨u', hu', hprev', hnext', hchild', hsound⟩
  · obtain ⟨hyx, hyp, hynext⟩ := hout y hy
    refine h.keeps hyx hynext (fun heq => hyl ?_) hyp
    exact (Option.some.inj (hprev.symm.trans heq)).symm

/-- The children that stay. -/
theorem Detaches.rest :
    Holds H' none (if m = some x then next v else m) (before.append behind) none := by
  have hlater := h.later ht hd hv hp
  obtain ⟨hbefore, hprev, -, -, -⟩ := ht.around hv
  rw [Option.or_none] at hprev
  cases hb : before with
  | nil =>
    rw [hb] at hbefore hprev
    obtain rfl : m = some x := hbefore
    have hnone : prev v = none := hprev
    rw [hnone] at hlater
    rw [if_pos rfl]
    exact hlater
  | node a ca na =>
    obtain ⟨l, hl⟩ : ∃ l, before.siblings.getLast? = some l := by
      rw [hb]
      exact ⟨_, List.getLast?_cons⟩
    have hax : m ≠ some x := by
      rw [hb] at hbefore
      obtain ⟨rfl, -⟩ := hbefore
      intro heq
      obtain rfl := Option.some.inj heq
      have := hd a
      rw [hb] at this
      simp only [Shape.count_append, Shape.count_node, if_true] at this
      omega
    rw [if_neg hax, ← hb]
    refine Holds.append.mpr ⟨next v, h.earlier ht hd hv hp hl, ?_⟩
    rwa [Option.or_none, ← hprev]

end Cut

end Detach

end Moves

section Lists

variable {H H' : Heap V} {q m : Option ℕ} {l l₁ l₂ : List ℕ} {b c x p : ℕ} {v : V}

/-- The list whose last cell leads on to another one. -/
theorem Chain.retarget {a : ℕ} (h : Chain H q m l none) (ha : l.getLast? = some a)
    (hkeep : ∀ y ∈ l, ∀ u, H.cell y = some u → ∃ u', H'.cell y = some u' ∧ prev u' = prev u ∧
      next u' = if y = a then some b else next u) : Chain H' q m l (some b) := by
  have hnodup := h.nodup
  induction l generalizing q m with
  | nil => cases ha
  | cons d l ih =>
    obtain ⟨hm, u, hu, hprev, hrest⟩ := h
    obtain ⟨u', hu', hprev', hnext'⟩ := hkeep d List.mem_cons_self u hu
    refine ⟨hm, u', hu', hprev'.trans hprev, ?_⟩
    cases l with
    | nil =>
      obtain rfl : d = a := by simpa using ha
      rwa [if_pos rfl] at hnext'
    | cons e l =>
      rw [List.getLast?_cons_cons] at ha
      have hda : d ≠ a := fun heq =>
        (List.nodup_cons.mp hnodup).1 (heq ▸ List.mem_of_getLast? ha)
      rw [hnext', if_neg hda]
      exact ih hrest ha (fun y hy => hkeep y (List.mem_cons_of_mem d hy))
        (List.nodup_cons.mp hnodup).2

/-- The list with the cell that is put behind it. -/
theorem Attaches.chain (h : Attaches H H' b c l.getLast?) (hl : Chain H none m l none)
    (hb : b ∉ l) (hv : H.cell b = some v) (hprev : prev v = none) (hnext : next v = none) :
    Chain H' none (if l = [] then some b else m) (l ++ [b]) none := by
  obtain ⟨v', hv', hback, hforth, -⟩ := h.link b v hv
  have hnot : l.getLast? ≠ some b := fun heq => hb (List.mem_of_getLast? heq)
  rw [if_neg hnot, hnext] at hforth
  rw [hprev] at hback
  cases hlast : l.getLast? with
  | none =>
    obtain rfl := List.getLast?_eq_none_iff.mp hlast
    exact ⟨rfl, v', hv', by simpa using hback, hforth⟩
  | some a =>
    have hne : l ≠ [] := by
      rintro rfl
      cases hlast
    rw [if_neg hne]
    refine Chain.append.mpr
      ⟨some b, hl.retarget hlast fun y hy u hu => ?_, rfl, v', hv', ?_, hforth⟩
    · have hyb : y ≠ b := fun heq => hb (heq ▸ hy)
      obtain ⟨u', hu', hprev', hnext', -⟩ := h.link y u hu
      rw [if_neg fun hand => hyb hand.1] at hprev'
      exact ⟨u', hu', hprev', by simpa [hlast, eq_comm] using hnext'⟩
    · rw [hback, if_pos ⟨rfl, by simp [hlast]⟩, Option.or_none]

/-- The cells behind one that is cut out, the first of them now pointing back over the gap. -/
theorem Detaches.chain_behind (h : Detaches H H' x p v) (hl : Chain H (some x) (next v) l none)
    (hx : x ∉ l) (hprev : ∀ y ∈ l, prev v ≠ some y) : Chain H' (prev v) (next v) l none := by
  have hnodup := hl.nodup
  cases l with
  | nil => exact hl
  | cons b l =>
    obtain ⟨hb, u, hu, -, hrest⟩ := hl
    have hbx : b ≠ x := fun heq => hx (heq ▸ List.mem_cons_self)
    obtain ⟨u', hu', hback, hnext, -⟩ := h.link b u hu
    rw [if_neg hbx, if_pos hb] at hback
    rw [if_neg hbx, if_neg (hprev b List.mem_cons_self)] at hnext
    refine ⟨hb, u', hu', hback, ?_⟩
    rw [hnext]
    refine hrest.frame fun y hy w hw => ?_
    have hyx : y ≠ x := fun heq => hx (heq ▸ List.mem_cons_of_mem b hy)
    have hyb : next v ≠ some y := by
      intro heq
      obtain rfl := Option.some.inj (hb.symm.trans heq)
      exact (List.nodup_cons.mp hnodup).1 hy
    obtain ⟨w', hw', hback', hnext', -⟩ := h.link y w hw
    rw [if_neg hyx, if_neg hyb] at hback'
    rw [if_neg hyx, if_neg (hprev y (List.mem_cons_of_mem b hy))] at hnext'
    exact ⟨w', hw', hback', hnext'⟩

/-- The link back of a cell leads to the one before the list only if it is the first. -/
theorem Chain.prev_eq_iff {a : ℕ} (hl : Chain H (some a) m (l₁ ++ x :: l₂) none)
    (ha : a ∉ l₁) (hv : H.cell x = some v) : prev v = some a ↔ m = some x := by
  have hnodup := hl.nodup
  obtain ⟨m', hbefore, rfl, w, hw, hprev, -⟩ := Chain.append.mp hl
  obtain rfl := Option.some.inj (hv.symm.trans hw)
  cases l₁ with
  | nil => exact iff_of_true hprev hbefore
  | cons b l₁ =>
    obtain ⟨hb, -⟩ := hbefore
    refine iff_of_false (fun heq => ?_) fun heq => ?_
    · rw [List.getLast?_cons, Option.or_some, heq] at hprev
      exact ha (List.mem_of_getLast? ((List.getLast?_cons (a := b)).trans hprev.symm))
    · obtain rfl := Option.some.inj (hb.symm.trans heq)
      exact (List.nodup_cons.mp hnodup).1 (by simp)

/-- The link of a cell leads to one behind it, if anywhere. -/
theorem Chain.next_ne {a : ℕ} (hl : Chain H q m (l₁ ++ x :: l₂) none) (ha : a ∉ l₂)
    (hv : H.cell x = some v) : next v ≠ some a := by
  obtain ⟨m', -, -, w, hw, -, hbehind⟩ := Chain.append.mp hl
  obtain rfl := Option.some.inj (hv.symm.trans hw)
  intro heq
  cases l₂ with
  | nil => cases heq.symm.trans hbehind
  | cons b l₂ =>
    obtain rfl := Option.some.inj (heq.symm.trans hbehind.1)
    exact ha List.mem_cons_self

/-- The list without the cell that is cut out. -/
theorem Detaches.chain (h : Detaches H H' x p v) (hv : H.cell x = some v)
    (hl : Chain H q m (l₁ ++ x :: l₂) none) (hq : ∀ y ∈ l₁ ++ x :: l₂, q ≠ some y) :
    Chain H' q (if m = some x then next v else m) (l₁ ++ l₂) none := by
  have hnodup := hl.nodup
  induction l₁ generalizing q m with
  | nil =>
    obtain ⟨rfl, w, hw, rfl, hrest⟩ := hl
    obtain rfl := Option.some.inj (hv.symm.trans hw)
    rw [if_pos rfl]
    exact h.chain_behind hrest (List.nodup_cons.mp hnodup).1
      fun y hy => hq y (List.mem_cons_of_mem x hy)
  | cons a l₁ ih =>
    obtain ⟨rfl, u, hu, hback, hrest⟩ := hl
    rw [List.cons_append, List.nodup_cons, List.mem_append, List.mem_cons, not_or, not_or] at hnodup
    obtain ⟨⟨hnot₁, hax, hnot₂⟩, hnodup⟩ := hnodup
    have hnext : next v ≠ some a := hrest.next_ne hnot₂ hv
    -- the cell before the gap is the one that the next link leads from into it
    have hgap : prev v = some a ↔ next u = some x := hrest.prev_eq_iff hnot₁ hv
    obtain ⟨u', hu', hback', hnext', -⟩ := h.link a u hu
    rw [if_neg hax, if_neg hnext] at hback'
    rw [if_neg hax, if_congr hgap rfl rfl] at hnext'
    rw [if_neg fun heq => hax (Option.some.inj heq)]
    refine ⟨rfl, u', hu', hback'.trans hback, ?_⟩
    rw [hnext']
    refine ih hrest (fun y hy heq => ?_) hnodup
    obtain rfl := Option.some.inj heq
    rcases List.mem_append.mp hy with hy | hy
    · exact hnot₁ hy
    · exact (List.mem_cons.mp hy).elim hax hnot₂

end Lists

end LinkedShapes

end BoxUtils
