import BoxUtils.Shared
import Mathlib.Data.List.Basic

/-!
The results of XPath expressions in xpath.cpp. A `Node` is a counted pointer to a
holder with the pointer to a node; copying a `Node` shares the holder. An iterator over
a result has one `Node` and moves by writing the next pointer into its holder, so what
`collect_to` has pushed to the vector moves along, and ends at the null pointer.
-/
namespace BoxUtils.XPath

open Shared

structure NodeHolder where
  node : Option ℕ
  ref : Bool
  deriving DecidableEq, Repr

/-- `xmlXPathObject` as far as it is read: the node set, if there is one. -/
structure XPathObject where
  nodesetval : Option (List ℕ)
  deriving DecidableEq, Repr

/-- The nodes of a result; a result without a node set holds none. -/
def XPathObject.nodes (obj : XPathObject) : List ℕ := obj.nodesetval.getD []

/-- A `Node` is the address of its holder. -/
structure ObjectIter where
  obj : XPathObject
  node : ℕ
  position : ℤ
  deriving DecidableEq, Repr

abbrev Holders := Cells NodeHolder

section Iterators

/-- `xmlXPathNodeSetIsEmpty`. -/
def empty (obj : XPathObject) : Bool := obj.nodes = []

def newIter (H : Holders) (obj : XPathObject) (node : Option ℕ) (position : ℤ) :
    Holders × ObjectIter :=
  let (H, holder) := make H ⟨node, true⟩
  (H, ⟨obj, holder, position⟩)

def beginIter (H : Holders) (obj : XPathObject) : Holders × ObjectIter :=
  if empty obj then newIter H obj none (-1) else newIter H obj obj.nodes.head? 0

def endIter (H : Holders) (obj : XPathObject) : Holders × ObjectIter :=
  newIter H obj none (-1)

/-- The operator `!=` of iterators. -/
def differ (H : Holders) (iter other : ObjectIter) : Option Bool := do
  let a ← read H iter.node
  let b ← read H other.node
  some (a.node ≠ b.node)

/-- The operator `++`; a null node set cannot be read. -/
def increment (H : Holders) (iter : ObjectIter) : Option (Holders × ObjectIter) := do
  let nodeTab ← iter.obj.nodesetval
  let holder ← read H iter.node
  if iter.position + 1 ≥ nodeTab.length then
    let H ← write H iter.node { holder with node := none }
    some (H, { iter with position := -1 })
  else
    let H ← write H iter.node { holder with node := nodeTab[(iter.position + 1).toNat]? }
    some (H, { iter with position := iter.position + 1 })

/-- The end of a handle on a holder. Only references are dropped here, and their nodes
belong to the document. -/
def dropNode (H : Holders) (node : ℕ) : Option Holders := (drop H node).map Prod.fst

end Iterators

/-- The loop of `collect_to`, from the iterator to the end. -/
def collectLoop (last : ObjectIter) : ℕ → Holders → List ℕ → ObjectIter →
    Option (Holders × List ℕ × ObjectIter)
  | 0, _, _, _ => none
  | rounds + 1, H, vec, iter => do
    if ← differ H iter last then
      let H ← share H iter.node
      let (H, next) ← increment H iter
      collectLoop last rounds H (vec ++ [iter.node]) next
    else some (H, vec, iter)

/-- `Object::collect_to` with a vector of nodes. -/
def collectTo (obj : XPathObject) (H : Holders) (vec : List ℕ) : Option (Holders × List ℕ) := do
  let (H, first) := beginIter H obj
  let (H, last) := endIter H obj
  let (H, vec, iter) ← collectLoop last (obj.nodes.length + 1) H vec first
  let H ← dropNode H last.node
  let H ← dropNode H iter.node
  some (H, vec)

/-- What a `Node` refers to. -/
def nodeOf (H : Holders) (node : ℕ) : Option ℕ := (read H node).bind NodeHolder.node

/-- The nodes of the result are appended to the vector, in their order. -/
def CollectsAll (obj : XPathObject) (H : Holders) (vec : List ℕ) : Prop :=
  ∃ H' added, collectTo obj H vec = some (H', vec ++ added) ∧
    added.map (nodeOf H') = obj.nodes.map some

section Loop

variable {H : Holders} {l : List ℕ} {iter last : ObjectIter} {node : Option ℕ} {k : ℤ} {i : ℕ}

/-- The holder of an iterator: where it is, and how many nodes share it. -/
def Holds (H : Holders) (iter : ObjectIter) (node : Option ℕ) (k : ℤ) : Prop :=
  H.cell iter.node = some ⟨⟨node, true⟩, k⟩

theorem differ_eq {node' : Option ℕ} {k' : ℤ} (h : Holds H iter node k)
    (hlast : Holds H last node' k') : differ H iter last = some (decide (node ≠ node')) := by
  simp [differ, read_eq h, read_eq hlast]

/-- Writing the holder of one iterator leaves that of another one alone. -/
theorem Holds.put {node' : Option ℕ} {k' : ℤ} (h : Holds H last node' k')
    (hne : iter.node ≠ last.node) (c : Cell NodeHolder) : Holds (H.put iter.node c) last node' k' :=
  (Heap.cell_put_of_ne H c (Ne.symm hne)).trans h

theorem increment_last (hl : iter.obj.nodesetval = some l) (h : Holds H iter node k)
    (hi : iter.position + 1 = l.length) : increment H iter =
      some (H.put iter.node ⟨⟨none, true⟩, k⟩, { iter with position := -1 }) := by
  have hend : iter.position + 1 ≥ l.length := by omega
  simp [increment, hl, read_eq h, write_eq h, hend]

theorem increment_next (hl : iter.obj.nodesetval = some l) (h : Holds H iter node k)
    (hi : iter.position = i) (hmore : i + 1 < l.length) : increment H iter =
      some (H.put iter.node ⟨⟨l[i + 1]?, true⟩, k⟩, { iter with position := i + 1 }) := by
  have hnot : ¬ (i : ℤ) + 1 ≥ l.length := by omega
  have hnat : ((i : ℤ) + 1).toNat = i + 1 := by omega
  simp only [increment, hl, read_eq h, write_eq h, hi, if_neg hnot, hnat, Option.bind_eq_bind,
    Option.bind_some]

/-- The loop pushes the holder of the iterator once for each node that is left, and leaves
the null pointer in it. -/
theorem collectLoop_eq (hl : iter.obj.nodesetval = some l) (hi : iter.position = i)
    (hlt : i < l.length) (h : Holds H iter l[i]? k) (hlast : Holds H last none 1)
    (hne : iter.node ≠ last.node) {rounds : ℕ} (hrounds : l.length - i < rounds) (vec : List ℕ) :
    ∃ H', collectLoop last rounds H vec iter =
        some (H', vec ++ List.replicate (l.length - i) iter.node, { iter with position := -1 }) ∧
      Holds H' iter none (k + (l.length - i : ℕ)) ∧ Holds H' last none 1 := by
  induction rounds generalizing H i k vec iter with
  | zero => omega
  | succ rounds ih =>
    have hsome : l[i]? ≠ none := by simp [hlt]
    have hshared : Holds (H.put iter.node ⟨⟨l[i]?, true⟩, k + 1⟩) iter l[i]? (k + 1) :=
      Heap.cell_put_self h _
    have hlast' := hlast.put hne ⟨⟨l[i]?, true⟩, k + 1⟩
    have hleft : vec ++ [iter.node] ++ List.replicate (l.length - (i + 1)) iter.node =
        vec ++ List.replicate (l.length - i) iter.node := by
      have hcount : l.length - i = l.length - (i + 1) + 1 := by omega
      rw [hcount, List.replicate_succ, List.append_assoc, List.singleton_append]
    by_cases hmore : i + 1 < l.length
    · let next : ObjectIter := { iter with position := i + 1 }
      have hnodes : next.obj.nodesetval = some l := hl
      have hnext : Holds ((H.put iter.node ⟨⟨l[i]?, true⟩, k + 1⟩).put iter.node
          ⟨⟨l[i + 1]?, true⟩, k + 1⟩) next l[i + 1]? (k + 1) := Heap.cell_put_self hshared _
      obtain ⟨H', hloop, hholds, hend⟩ := ih hnodes (by simp [next])
        hmore hnext (hlast'.put hne _) hne (by omega) (vec ++ [iter.node])
      refine ⟨H', ?_, ?_, hend⟩
      · rw [← hleft]
        simp only [collectLoop, differ_eq h hlast, share_eq h, increment_next hl hshared hi hmore,
          hsome, Option.bind_eq_bind, Option.bind_some, ne_eq, not_false_eq_true, decide_true,
          if_true]
        exact hloop
      · have hcount : k + 1 + (l.length - (i + 1) : ℕ) = k + (l.length - i : ℕ) := by omega
        rwa [hcount] at hholds
    · have hdone : iter.position + 1 = l.length := by omega
      have hone : l.length - i = 1 := by omega
      obtain ⟨rounds, rfl⟩ : ∃ n, rounds = n + 1 := ⟨rounds - 1, by omega⟩
      have hnull : Holds ((H.put iter.node ⟨⟨l[i]?, true⟩, k + 1⟩).put iter.node
          ⟨⟨none, true⟩, k + 1⟩) { iter with position := -1 } none (k + 1) :=
        Heap.cell_put_self hshared _
      refine ⟨_, ?_, by rw [hone]; exact hnull, hlast'.put hne _⟩
      simp only [collectLoop, differ_eq h hlast, share_eq h, increment_last hl hshared hdone,
        differ_eq hnull (hlast'.put hne _), hsome, Option.bind_eq_bind, Option.bind_some, ne_eq,
        not_false_eq_true, not_true_eq_false, decide_true, decide_false, if_true, hone,
        List.replicate_one, Bool.false_eq_true, if_false]

end Loop

section Collect

variable {obj : XPathObject}

theorem nodesetval_eq (h : obj.nodes ≠ []) : obj.nodesetval = some obj.nodes := by
  cases hset : obj.nodesetval with
  | none => simp [XPathObject.nodes, hset] at h
  | some l => simp [XPathObject.nodes, hset]

/-- All nodes that are collected share one holder, which refers to nothing afterwards. -/
theorem collectTo_eq (H : Holders) (vec : List ℕ) (hne : obj.nodes ≠ []) :
    ∃ H', collectTo obj H vec = some (H', vec ++ List.replicate obj.nodes.length H.fresh) ∧
      nodeOf H' H.fresh = none := by
  have hpos : 0 < obj.nodes.length := List.length_pos_iff.mpr hne
  let first : ObjectIter := ⟨obj, H.fresh, 0⟩
  let last : ObjectIter := ⟨obj, H.fresh + 1, -1⟩
  let begun : Holders := H.alloc ⟨⟨obj.nodes.head?, true⟩, 1⟩
  have hapart : first.node ≠ last.node := by simp [first, last]
  have hfirst : Holds (begun.alloc ⟨⟨none, true⟩, 1⟩) first obj.nodes[0]? 1 := by
    rw [← List.head?_eq_getElem?]
    exact Heap.cell_alloc_of_live _ (Heap.cell_alloc_self H _)
  have hlast : Holds (begun.alloc ⟨⟨none, true⟩, 1⟩) last none 1 := Heap.cell_alloc_self begun _
  have hrounds : obj.nodes.length - 0 < obj.nodes.length + 1 := by omega
  obtain ⟨H', hloop, hholds, hend⟩ := collectLoop_eq (l := obj.nodes) (i := 0)
    (nodesetval_eq hne) rfl hpos hfirst hlast hapart hrounds vec
  rw [Nat.sub_zero] at hloop hholds
  have hafter : Holds (H'.erase last.node) first none (1 + obj.nodes.length) :=
    (Heap.cell_erase_of_ne H' hapart).trans hholds
  have hbegin : beginIter H obj = (begun, first) := by
    simp [beginIter, empty, hne, newIter, make, begun, first]
  have hdrop : dropNode H' last.node = some (H'.erase last.node) := by
    rw [dropNode, drop_last hend, Option.map_some]
  have hdrop' : dropNode (H'.erase last.node) first.node = some ((H'.erase last.node).put
      first.node ⟨⟨none, true⟩, 1 + obj.nodes.length - 1⟩) := by
    rw [dropNode, drop_shared hafter (by omega), Option.map_some]
  refine ⟨(H'.erase last.node).put first.node ⟨⟨none, true⟩, 1 + obj.nodes.length - 1⟩, ?_, ?_⟩
  · simp only [collectTo, hbegin, endIter, newIter, make]
    rw [show (⟨obj, begun.fresh, -1⟩ : ObjectIter) = last from rfl, hloop]
    simp only [Option.bind_eq_bind, Option.bind_some]
    rw [show dropNode H' begun.fresh = _ from hdrop, Option.bind_some, hdrop', Option.bind_some]
  · have hput := Heap.cell_put_self hafter ⟨⟨none, true⟩, 1 + obj.nodes.length - 1⟩
    rw [nodeOf, Shared.read_eq hput, Option.bind_some]

theorem collectTo_empty (H : Holders) (vec : List ℕ) (h : obj.nodes = []) :
    ∃ H', collectTo obj H vec = some (H', vec) := by
  let begun : Holders := H.alloc ⟨⟨none, true⟩, 1⟩
  let ended : Holders := begun.alloc ⟨⟨none, true⟩, 1⟩
  have hapart : H.fresh ≠ begun.fresh := by simp [begun]
  have hfirst : ended.cell H.fresh = some ⟨⟨none, true⟩, 1⟩ :=
    Heap.cell_alloc_of_live _ (Heap.cell_alloc_self H _)
  have hlast : ended.cell begun.fresh = some ⟨⟨none, true⟩, 1⟩ := Heap.cell_alloc_self begun _
  have hbegin : beginIter H obj = (begun, ⟨obj, H.fresh, -1⟩) := by
    simp [beginIter, empty, h, newIter, make, begun]
  have hafter : (ended.erase begun.fresh).cell H.fresh = some ⟨⟨none, true⟩, 1⟩ :=
    (Heap.cell_erase_of_ne ended hapart).trans hfirst
  have hloop : collectLoop ⟨obj, begun.fresh, -1⟩ 1 ended vec ⟨obj, H.fresh, -1⟩ =
      some (ended, vec, ⟨obj, H.fresh, -1⟩) := by
    have hsame : differ ended ⟨obj, H.fresh, -1⟩ ⟨obj, begun.fresh, -1⟩ =
        some (decide ((none : Option ℕ) ≠ none)) := differ_eq hfirst hlast
    simp [collectLoop, hsame]
  have hdrop : dropNode ended begun.fresh = some (ended.erase begun.fresh) := by
    rw [dropNode, drop_last hlast, Option.map_some]
  have hdrop' : dropNode (ended.erase begun.fresh) H.fresh =
      some ((ended.erase begun.fresh).erase H.fresh) := by
    rw [dropNode, drop_last hafter, Option.map_some]
  refine ⟨(ended.erase begun.fresh).erase H.fresh, ?_⟩
  simp only [collectTo, hbegin, endIter, newIter, make, h, List.length_nil, Nat.zero_add]
  rw [show begun.alloc ⟨⟨none, true⟩, 1⟩ = ended from rfl, hloop, Option.bind_eq_bind,
    Option.bind_some]
  simp only [hdrop, hdrop', Option.bind_eq_bind, Option.bind_some]

end Collect

/-- A result with nodes is never collected: every `Node` in the vector shares the holder of
the iterator, which ends at the null pointer. -/
theorem collectsAll_iff (obj : XPathObject) (H : Holders) (vec : List ℕ) :
    CollectsAll obj H vec ↔ obj.nodes = [] := by
  constructor
  · rintro ⟨H', added, hcollect, hnodes⟩
    by_contra hne
    obtain ⟨H'', hcollect', hnull⟩ := collectTo_eq H vec hne
    have hboth := Option.some.inj (hcollect.symm.trans hcollect')
    obtain rfl : H' = H'' := congrArg Prod.fst hboth
    have hadded : added = List.replicate obj.nodes.length H.fresh :=
      List.append_cancel_left (congrArg Prod.snd hboth)
    have hnone : none ∈ obj.nodes.map some := by
      rw [← hnodes, hadded, List.mem_map]
      exact ⟨H.fresh, List.mem_replicate.mpr ⟨by simpa using hne, rfl⟩, hnull⟩
    simp at hnone
  · intro hempty
    obtain ⟨H', hcollect⟩ := collectTo_empty H vec hempty
    exact ⟨H', [], by rw [hcollect, List.append_nil], by rw [hempty]; rfl⟩

/-- The one node of a result is not in the vector afterwards. -/
theorem node_lost : ¬ CollectsAll ⟨some [7]⟩ Heap.empty [] := by
  rintro ⟨H', added, hcollect, hnodes⟩
  have hrun : (collectTo ⟨some [7]⟩ Heap.empty []).map (fun r => r.2.map (nodeOf r.1)) =
      some [none] := by decide
  rw [hcollect, Option.map_some, List.nil_append, hnodes] at hrun
  simp [XPathObject.nodes] at hrun

end BoxUtils.XPath
