import BoxUtils.Counting
import BoxUtils.Heap
import BoxUtils.Runs
import Mathlib.Data.List.Count

/-!
The counted datum of dataguard.hpp: a handle points to a shared block that holds
the datum, the function that deletes it and the count. An operation that would
touch a freed block has no result, nor has the bare `throw` of `reset` without a
deleter on an empty handle. When `reset()` finds the block shared it takes the
handle off the count but leaves the handle's pointer where it was.
-/
namespace BoxUtils.RefData

open Runs Counting

structure Data (T : Type*) where
  data : T
  deleteFn : ℕ
  refcount : ℤ
  deriving DecidableEq, Repr

/-- A datum with its deleter and the block it is stored in. -/
structure Entry (T : Type*) where
  block : ℕ
  deleteFn : ℕ
  data : T
  deriving DecidableEq, Repr

structure State (T : Type*) where
  live : Finset ℕ
  ptr : ℕ → Option ℕ
  blocks : Heap (Data T)
  /-- The data stored so far, and the calls of their deleters, in order. -/
  stored : List (Entry T)
  calls : List (Entry T)

variable {T : Type*}

def init : State T := ⟨∅, fun _ => none, Heap.empty, [], []⟩

inductive Op (T : Type*)
  | make (h : ℕ) (data : T) (fn : ℕ)
  | copyConstruct (h src : ℕ)
  | moveConstruct (h src : ℕ)
  | copyAssign (h src : ℕ)
  | moveAssign (h src : ℕ)
  | reset (h : ℕ)
  | resetValue (h : ℕ) (newVal : T) (fn : Option ℕ)
  | destroy (h : ℕ)
  deriving DecidableEq, Repr

namespace State

def setPtr (s : State T) (h : ℕ) (x : Option ℕ) : State T :=
  { s with ptr := Function.update s.ptr h x }

def construct (s : State T) (h : ℕ) : State T := { s with live := insert h s.live }

/-- `ptr->refcount --;` and, for the last owner, `ptr->delete_fn(ptr->data); delete ptr;`.
The flag tells whether the block was deleted. -/
def release (s : State T) (b : ℕ) : Option (State T × Bool) := do
  let d ← s.blocks.cell b
  if d.refcount - 1 ≤ 0 then
    let blocks ← s.blocks.free b
    some ({ s with blocks := blocks, calls := s.calls ++ [⟨b, d.deleteFn, d.data⟩] }, true)
  else
    some ({ s with blocks := s.blocks.put b { d with refcount := d.refcount - 1 } }, false)

/-- `if(ptr != nullptr){ ptr->refcount ++; }` -/
def retain (s : State T) : Option ℕ → Option (State T)
  | none => some s
  | some b => do
    let blocks ← s.blocks.modify b fun d => { d with refcount := d.refcount + 1 }
    some { s with blocks := blocks }

/-- `ptr = new Data{data, fn, 1};` -/
def adopt (s : State T) (h : ℕ) (data : T) (fn : ℕ) : State T :=
  { s.setPtr h (some s.blocks.fresh) with
    blocks := s.blocks.alloc ⟨data, fn, 1⟩
    stored := s.stored ++ [⟨s.blocks.fresh, fn, data⟩] }

/-- `reset()`: the pointer becomes null only when the block was deleted. -/
def reset (s : State T) (h : ℕ) : Option (State T) :=
  match s.ptr h with
  | none => some s
  | some b => do
    let (s, last) ← s.release b
    some (if last then s.setPtr h none else s)

/-- `reset(new_val, fn)`. -/
def resetValue (s : State T) (h : ℕ) (newVal : T) (fn : Option ℕ) : Option (State T) :=
  match s.ptr h with
  | none => fn.map fun fn => s.adopt h newVal fn
  | some b => do
    let d ← s.blocks.cell b
    let (s, last) ← s.release b
    let s := if last then s.setPtr h none else s
    some (s.adopt h newVal (fn.getD d.deleteFn))

end State

def perform (s : State T) : Op T → Option (State T)
  | .make h data fn => some ((s.construct h).adopt h data fn)
  | .copyConstruct h src => ((s.construct h).setPtr h (s.ptr src)).retain (s.ptr src)
  | .moveConstruct h src => some (((s.construct h).setPtr h (s.ptr src)).setPtr src none)
  | .copyAssign h src =>
    if h = src then some s
    else do
      let s ← s.reset h
      (s.setPtr h (s.ptr src)).retain (s.ptr src)
  | .moveAssign h src =>
    if h = src then some s
    else do
      let s ← s.reset h
      some ((s.setPtr h (s.ptr src)).setPtr src none)
  | .reset h => s.reset h
  | .resetValue h newVal fn => s.resetValue h newVal fn
  | .destroy h => do
    let s ← match s.ptr h with
      | none => some s
      | some b => (s.release b).map Prod.fst
    some { s with live := s.live.erase h }

/-- Handles are constructed once and used while they live; a new value comes with a deleter. -/
def Legal (s : State T) : Op T → Prop
  | .make h _ _ => h ∉ s.live
  | .copyConstruct h src | .moveConstruct h src => h ∉ s.live ∧ src ∈ s.live
  | .copyAssign h src | .moveAssign h src => h ∈ s.live ∧ src ∈ s.live
  | .reset h | .destroy h => h ∈ s.live
  | .resetValue h _ fn => h ∈ s.live ∧ fn ≠ none

instance (s : State T) : ∀ op, Decidable (Legal s op)
  | .make h _ _ => inferInstanceAs (Decidable (h ∉ s.live))
  | .copyConstruct h src | .moveConstruct h src =>
    inferInstanceAs (Decidable (h ∉ s.live ∧ src ∈ s.live))
  | .copyAssign h src | .moveAssign h src =>
    inferInstanceAs (Decidable (h ∈ s.live ∧ src ∈ s.live))
  | .reset h | .destroy h => inferInstanceAs (Decidable (h ∈ s.live))
  | .resetValue h _ fn => inferInstanceAs (Decidable (h ∈ s.live ∧ fn ≠ none))

def next (s : State T) (op : Op T) : Option (State T) :=
  if Legal s op then perform s op else none

namespace State

variable {s : State T} {b : ℕ} {d : Data T}

theorem release_last (hd : s.blocks.cell b = some d) (hlast : d.refcount ≤ 1) :
    s.release b = some ({ s with
      blocks := s.blocks.erase b, calls := s.calls ++ [⟨b, d.deleteFn, d.data⟩] }, true) := by
  have hcond : d.refcount - 1 ≤ 0 := by omega
  simp only [release, hd, Heap.free_eq hd, if_pos hcond, Option.bind_eq_bind, Option.bind_some]

theorem release_shared (hd : s.blocks.cell b = some d) (hmore : 1 < d.refcount) :
    s.release b = some ({ s with
      blocks := s.blocks.put b { d with refcount := d.refcount - 1 } }, false) := by
  have hcond : ¬ d.refcount - 1 ≤ 0 := by omega
  simp only [release, hd, if_neg hcond, Option.bind_eq_bind, Option.bind_some]

end State

theorem next_cases {s t : State T} {op : Op T} (hstep : next s op = some t) :
    Legal s op ∧ perform s op = some t := by
  obtain ⟨hlegal, hstep⟩ := Option.ite_none_right_eq_some.mp hstep
  exact ⟨hlegal, hstep⟩

/-- What a reachable state guarantees: exact counts in blocks that live as long as
a handle refers to them, one call of its own deleter for each stored datum that no
handle refers to any more and none for the others, and a result for every legal
operation. -/
structure CountsExactly [DecidableEq T] (s : State T) : Prop where
  counts_eq : ∀ b d, s.blocks.cell b = some d → d.refcount = refs s.live s.ptr b
  block_live : ∀ h ∈ s.live, ∀ b, s.ptr h = some b → s.blocks.cell b ≠ none
  called_once : ∀ e ∈ s.stored,
    s.calls.count e = if refs s.live s.ptr e.block = 0 then 1 else 0
  called_stored : ∀ e ∈ s.calls, e ∈ s.stored
  safe : ∀ op, Legal s op → (perform s op).isSome

/-- `reset()` is only called on a handle that is empty or owns its block alone. -/
def ResetsAlone (s : State T) : Op T → Prop
  | .reset h => ∀ b, s.ptr h = some b → refs s.live s.ptr b ≤ 1
  | _ => True

end BoxUtils.RefData
