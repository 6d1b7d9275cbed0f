import BoxUtils.Counting
import BoxUtils.Heap
import BoxUtils.Runs
import Mathlib.Data.List.Count

/-!
The counted pointer of refptr.hpp. A handle is a pair of pointers, to the
managed object and to its count cell; every member function is translated with
its own null tests. An operation that would follow a null or freed count
pointer, or delete an object a second time, has no result. In `reset(T *ptr)`
the parameter hides the member of the same name, so the last owner deletes the
object it is given and not the one it holds.
-/
namespace BoxUtils.RefPtr

open Runs Counting

structure Handle where
  refcount : Option ℕ
  ptr : Option ℕ
  deriving DecidableEq, Repr

structure State where
  live : Finset ℕ
  handle : ℕ → Handle
  counts : Heap ℤ
  /-- The objects handed to a `RefPtr` so far, and those deleted, in order. -/
  managed : List ℕ
  deleted : List ℕ

def init : State := ⟨∅, fun _ => ⟨none, none⟩, Heap.empty, [], []⟩

inductive Op
  | make (h p : ℕ)
  | copyConstruct (h src : ℕ)
  | moveConstruct (h src : ℕ)
  | copyAssign (h src : ℕ)
  | moveAssign (h src : ℕ)
  | reset (h : ℕ)
  | resetPtr (h p : ℕ)
  | destroy (h : ℕ)
  deriving DecidableEq, Repr

namespace State

def setHandle (s : State) (h : ℕ) (x : Handle) : State :=
  { s with handle := Function.update s.handle h x }

/-- `delete ptr;` -/
def deletePtr (s : State) : Option ℕ → Option State
  | none => some s
  | some p => if p ∈ s.deleted then none else some { s with deleted := s.deleted ++ [p] }

/-- `(*refcount) --; if(*refcount <= 0){ delete ptr; delete refcount; }` -/
def release (s : State) (refcount ptr : Option ℕ) : Option State := do
  let c ← refcount
  let k ← s.counts.cell c
  if k - 1 ≤ 0 then
    let s ← s.deletePtr ptr
    let counts ← s.counts.free c
    some { s with counts := counts }
  else
    some { s with counts := s.counts.put c (k - 1) }

/-- `(*refcount) ++;` -/
def retain (s : State) (refcount : Option ℕ) : Option State := do
  let c ← refcount
  let counts ← s.counts.modify c (· + 1)
  some { s with counts := counts }

/-- `refcount = new int(1);` for a handle of the given object. -/
def adopt (s : State) (h p : ℕ) : State :=
  { s.setHandle h ⟨some s.counts.fresh, some p⟩ with
    counts := s.counts.alloc 1, managed := s.managed ++ [p] }

def construct (s : State) (h : ℕ) : State := { s with live := insert h s.live }

/-- `reset()`. -/
def reset (s : State) (h : ℕ) : Option State :=
  if (s.handle h).ptr = none then some s
  else do
    let s ← s.release (s.handle h).refcount (s.handle h).ptr
    some (s.setHandle h ⟨none, none⟩)

/-- `reset(T *ptr)`: on an empty handle it does nothing. -/
def resetPtr (s : State) (h p : ℕ) : Option State :=
  if (s.handle h).ptr = none then some s
  else do
    -- `delete ptr` names the parameter here
    let s ← s.release (s.handle h).refcount (some p)
    some (s.adopt h p)

end State

def perform (s : State) : Op → Option State
  | .make h p => some ((s.construct h).adopt h p)
  | .copyConstruct h src =>
    ((s.construct h).setHandle h (s.handle src)).retain (s.handle src).refcount
  | .moveConstruct h src =>
    some (((s.construct h).setHandle h (s.handle src)).setHandle src ⟨none, none⟩)
  | .copyAssign h src =>
    if h = src then some s
    else do
      let s ← s.reset h
      (s.setHandle h (s.handle src)).retain (s.handle src).refcount
  | .moveAssign h src =>
    if h = src then some s
    else do
      let s ← s.reset h
      some ((s.setHandle h (s.handle src)).setHandle src ⟨none, none⟩)
  | .reset h => s.reset h
  | .resetPtr h p => s.resetPtr h p
  | .destroy h => do
    let s ← if (s.handle h).refcount = none then some s
      else s.release (s.handle h).refcount (s.handle h).ptr
    some { s with live := s.live.erase h }

/-- Handles are constructed once and used while they live, raw pointers are fresh,
and copies are taken of, and new pointers given to, handles that are not empty. -/
def Legal (s : State) : Op → Prop
  | .make h p => h ∉ s.live ∧ p ∉ s.managed
  | .copyConstruct h src => h ∉ s.live ∧ src ∈ s.live ∧ (s.handle src).ptr ≠ none
  | .moveConstruct h src => h ∉ s.live ∧ src ∈ s.live
  | .copyAssign h src => h ∈ s.live ∧ src ∈ s.live ∧ (s.handle src).ptr ≠ none
  | .moveAssign h src => h ∈ s.live ∧ src ∈ s.live
  | .reset h => h ∈ s.live
  | .resetPtr h p => h ∈ s.live ∧ (s.handle h).ptr ≠ none ∧ p ∉ s.managed
  | .destroy h => h ∈ s.live

instance (s : State) : ∀ op, Decidable (Legal s op)
  | .make _ _ | .moveConstruct _ _ | .moveAssign _ _ => inferInstanceAs (Decidable (_ ∧ _))
  | .copyConstruct _ _ | .copyAssign _ _ | .resetPtr _ _ => inferInstanceAs (Decidable (_ ∧ _ ∧ _))
  | .reset h | .destroy h => inferInstanceAs (Decidable (h ∈ s.live))

def next (s : State) (op : Op) : Option State :=
  if Legal s op then perform s op else none

namespace State

variable {s : State} {c : ℕ} {k : ℤ}

theorem release_last {p : ℕ} (hk : s.counts.cell c = some k) (hlast : k ≤ 1)
    (hp : p ∉ s.deleted) : s.release (some c) (some p) =
      some { s with deleted := s.deleted ++ [p], counts := s.counts.erase c } := by
  have hcond : k - 1 ≤ 0 := by omega
  simp only [release, deletePtr, hk, Heap.free_eq hk, if_pos hcond, if_neg hp,
    Option.bind_eq_bind, Option.bind_some]

theorem release_shared (ptr : Option ℕ) (hk : s.counts.cell c = some k) (hmore : 1 < k) :
    s.release (some c) ptr = some { s with counts := s.counts.put c (k - 1) } := by
  have hcond : ¬ k - 1 ≤ 0 := by omega
  simp only [release, hk, if_neg hcond, Option.bind_eq_bind, Option.bind_some]

end State

/-- Where each handle's count pointer and object pointer lead. -/
def State.counter (s : State) : ℕ → Option ℕ := fun h => (s.handle h).refcount

def State.object (s : State) : ℕ → Option ℕ := fun h => (s.handle h).ptr

/-- What a reachable state guarantees: exact counts, both pointers of a handle
null together, one deletion for each object that no handle holds any more and
none for the others, and a result for every legal operation. -/
structure CountsExactly (s : State) : Prop where
  counts_eq : ∀ c k, s.counts.cell c = some k → k = refs s.live s.counter c
  null_iff : ∀ h ∈ s.live, s.object h = none ↔ s.counter h = none
  deleted_once : ∀ p ∈ s.managed,
    s.deleted.count p = if refs s.live s.object p = 0 then 1 else 0
  safe : ∀ op, Legal s op → (perform s op).isSome

/-- `reset(ptr)` is only called on a handle that shares its object with another one. -/
def ResetsShared (s : State) : Op → Prop
  | .resetPtr h _ => ∀ c, s.counter h = some c → 1 < refs s.live s.counter c
  | _ => True

end BoxUtils.RefPtr
