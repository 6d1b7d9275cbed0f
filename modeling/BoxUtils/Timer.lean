import BoxUtils.Runs
import Mathlib.Data.Int.Notation
import Mathlib.Data.List.Chain

/-!
The timers of timer.cpp. `Timer::Create` pushes a node to the front of the list
`timers` and returns the address of its first field, which is the address of the
node; the timer thread goes through the list in passes; `Timer::Delete` looks for
the address it is given. All of them hold the mutex, so a pass is one step here.
Clock readings are nanoseconds, the times of a timer microseconds.
-/
namespace BoxUtils.Timer

open Runs

structure TimerData where
  node : ℕ
  callback : Option ℕ
  ms : ℤ
  deleteFn : Option ℕ
  param : ℕ
  deriving DecidableEq, Repr

/-- A call of a callback: the reading of the clock then, and what it returns. -/
structure Call where
  time : ℤ
  returned : ℤ
  deriving DecidableEq, Repr

section Functions

/-- `Timer::Create`, for a node that the allocator puts at the given address. -/
def create (timers : List TimerData) (node : ℕ) (ms : ℤ) (callback : Option ℕ) (param : ℕ) :
    List TimerData × Option ℕ :=
  if callback = none then (timers, none)
  else (⟨node, callback, ms, none, param⟩ :: timers, some node)

/-- The body of the loop of `TimerImpl::run` for one timer: what is left of it, and
the new `sleep_ms`. -/
def visit (durMs : ℤ) (call : ℕ → Call) (timer : TimerData) (sleepMs : ℤ) :
    Option TimerData × ℤ :=
  if timer.ms - durMs ≤ 0 then
    let ms := if timer.callback ≠ none then (call timer.node).returned else timer.ms
    -- the node is erased after its delete_fn, which no timer of `Create` has
    if ms = 0 then (none, sleepMs) else (some { timer with ms := ms }, sleepMs)
  else
    let ms := timer.ms - durMs
    (some { timer with ms := ms }, if ms < sleepMs ∨ sleepMs ≠ 0 then ms else sleepMs)

def visitAll (durMs : ℤ) (call : ℕ → Call) : List TimerData → ℤ → List TimerData × ℤ
  | [], sleepMs => ([], sleepMs)
  | timer :: rest, sleepMs =>
    let (kept, sleepMs) := visit durMs call timer sleepMs
    let (timers, sleepMs) := visitAll durMs call rest sleepMs
    (kept.toList ++ timers, sleepMs)

/-- What a call of `Timer::Delete` does. -/
structure Deletion where
  answer : Bool
  timers : List TimerData
  /-- A node that is not in the list any more has been read. -/
  readsErased : Bool
  deriving DecidableEq, Repr

def delete (timers : List TimerData) : Option ℕ → Deletion
  | none => ⟨false, timers, false⟩
  | some id =>
    match timers.find? fun timer => timer.node = id with
    | none => ⟨false, timers, false⟩
    | some _ =>
      let rest := timers.eraseP fun timer => timer.node = id
      -- `iter->delete_fn` is read after `timers.erase(iter)`
      ⟨true, rest, (rest.find? fun timer => timer.node = id) = none⟩

end Functions

structure State where
  timers : List TimerData
  /-- What the calls of `Create` have returned, in their order. -/
  ids : List (Option ℕ)
  timep : ℤ
  sleepMs : ℤ
  /-- The last reading of the clock by anybody. -/
  clock : ℤ

/-- The clock may start anywhere; `timep` starts at the clock's zero. -/
def init (start : ℤ) : State := ⟨[], [], 0, 0, start⟩

inductive Action
  | create (time : ℤ) (node : ℕ) (ms : ℤ) (callback : Option ℕ) (param : ℕ)
  /-- A pass: its two readings of the clock, and what calling back a node gives. -/
  | pass (now now' : ℤ) (call : ℕ → Call)
  /-- `Delete` of what the k-th call of `Create` has returned. -/
  | delete (k : ℕ)

/-- When the callbacks of the nodes are called; those that are not take no time. -/
def State.calls (s : State) (call : ℕ → Call) : List ℤ :=
  s.timers.map fun timer => (call timer.node).time

def State.pass (s : State) (now now' : ℤ) (call : ℕ → Call) : State :=
  if s.timers = [] then s
  else
    let visited := visitAll (now - s.timep) call s.timers s.sleepMs
    { s with
      timers := visited.1
      timep := now'
      sleepMs := visited.2
      clock := (s.calls call).getLastD now' }

def State.create (s : State) (time : ℤ) (node : ℕ) (ms : ℤ) (callback : Option ℕ)
    (param : ℕ) : State :=
  let created := Timer.create s.timers node ms callback param
  { s with timers := created.1, ids := s.ids ++ [created.2], clock := time }

/-- The allocator may give out any address that no node has at the moment. -/
def State.Free (s : State) (node : ℕ) : Prop := ∀ timer ∈ s.timers, timer.node ≠ node

instance (s : State) (node : ℕ) : Decidable (s.Free node) :=
  inferInstanceAs (Decidable (∀ timer ∈ s.timers, timer.node ≠ node))

def next (s : State) : Action → Option State
  | .create time node ms callback param =>
    if s.clock ≤ time ∧ s.Free node then some (s.create time node ms callback param) else none
  | .pass now now' call =>
    if List.IsChain (· ≤ ·) (s.clock :: now :: now' :: s.calls call) then
      some (s.pass now now' call)
    else none
  | .delete k => do
    let id ← s.ids[k]?
    some { s with timers := (delete s.timers id).timers }

section Lists

variable {durMs : ℤ} {call : ℕ → Call} {timers : List TimerData} {timer : TimerData}

/-- A visit changes the time of a timer only, and the timer stays where it is. -/
theorem visit_cases (durMs : ℤ) (call : ℕ → Call) (timer : TimerData) (sleepMs : ℤ) :
    (visit durMs call timer sleepMs).1 = none ∨
      ∃ ms, (visit durMs call timer sleepMs).1 = some { timer with ms := ms } ∧
        (timer.ms - durMs ≤ 0 → timer.callback ≠ none → ms = (call timer.node).returned) ∧
        (¬ timer.ms - durMs ≤ 0 → ms = timer.ms - durMs) := by
  by_cases hdue : timer.ms - durMs ≤ 0
  · simp only [visit, if_pos hdue]
    by_cases hzero :
        (if timer.callback ≠ none then (call timer.node).returned else timer.ms) = 0
    · rw [if_pos hzero]
      exact Or.inl rfl
    · rw [if_neg hzero]
      exact Or.inr ⟨_, rfl, fun _ hcallback => if_pos hcallback, fun hnot => absurd hdue hnot⟩
  · simp only [visit, if_neg hdue]
    exact Or.inr ⟨_, rfl, fun h => absurd h hdue, fun _ => rfl⟩

/-- A pass keeps the nodes in their order; some of them may go. -/
theorem visitAll_sublist (sleepMs : ℤ) :
    ((visitAll durMs call timers sleepMs).1.map TimerData.node).Sublist
      (timers.map TimerData.node) := by
  induction timers generalizing sleepMs with
  | nil => exact List.Sublist.slnil
  | cons timer rest ih =>
    have hrest := ih (visit durMs call timer sleepMs).2
    rcases visit_cases durMs call timer sleepMs with
      hgone | ⟨ms, hkept, -⟩
    · simp only [visitAll, hgone, Option.toList_none, List.nil_append, List.map_cons]
      exact hrest.cons _
    · simp only [visitAll, hkept, Option.toList_some, List.singleton_append, List.map_cons]
      exact hrest.cons_cons _

/-- Each timer that a pass leaves was there before, with another time. -/
theorem visitAll_mem {sleepMs : ℤ} {kept : TimerData}
    (h : kept ∈ (visitAll durMs call timers sleepMs).1) :
    ∃ timer ∈ timers, ∃ ms, kept = { timer with ms := ms } ∧
      (timer.ms - durMs ≤ 0 → timer.callback ≠ none → ms = (call timer.node).returned) ∧
      (¬ timer.ms - durMs ≤ 0 → ms = timer.ms - durMs) := by
  induction timers generalizing sleepMs with
  | nil => cases h
  | cons timer rest ih =>
    simp only [visitAll, List.mem_append, Option.mem_toList] at h
    rcases h with h | h
    · rcases visit_cases durMs call timer sleepMs with
        hgone | ⟨ms, hkept, hms⟩
      · rw [hgone] at h
        cases h
      · rw [hkept] at h
        obtain rfl := Option.some.inj h
        exact ⟨timer, List.mem_cons_self, ms, rfl, hms⟩
    · obtain ⟨old, hold, hrest⟩ := ih h
      exact ⟨old, List.mem_cons_of_mem _ hold, hrest⟩

/-- A call of `Delete` whose id belongs to no node finds nothing. -/
theorem delete_missing {id : Option ℕ} (h : ∀ timer ∈ timers, some timer.node ≠ id) :
    delete timers id = ⟨false, timers, false⟩ := by
  cases id with
  | none => rfl
  | some id =>
    have hnone : timers.find? (fun timer => timer.node = id) = none := by
      rw [List.find?_eq_none]
      intro timer htimer
      simpa using h timer htimer
    simp only [delete, hnone]

theorem delete_sublist (id : Option ℕ) : (delete timers id).timers.Sublist timers := by
  cases id with
  | none => exact List.Sublist.refl _
  | some id =>
    simp only [delete]
    split
    · exact List.Sublist.refl _
    · exact List.eraseP_sublist

end Lists

/-- The nodes of the list are apart from each other. -/
def Apart (s : State) : Prop := (s.timers.map TimerData.node).Nodup

section Steps

variable {s t : State}

/-- What each step does to the list. -/
theorem next_cases {a : Action} (h : next s a = some t) :
    match a with
    | .create time node ms callback param =>
      s.Free node ∧ t = s.create time node ms callback param
    | .pass now now' call => t = s.pass now now' call
    | .delete k => ∃ id, s.ids[k]? = some id ∧
      t = { s with timers := (delete s.timers id).timers } := by
  cases a with
  | create time node ms callback param =>
    obtain ⟨hok, h⟩ := Option.ite_none_right_eq_some.mp h
    exact ⟨hok.2, (Option.some.inj h).symm⟩
  | pass now now' call =>
    obtain ⟨-, h⟩ := Option.ite_none_right_eq_some.mp h
    exact (Option.some.inj h).symm
  | delete k =>
    obtain ⟨id, hid, hrest⟩ := Option.bind_eq_some_iff.mp h
    exact ⟨id, hid, (Option.some.inj hrest).symm⟩

theorem Apart.next {a : Action} (hs : Apart s) (h : next s a = some t) : Apart t := by
  cases a with
  | create time node ms callback param =>
    obtain ⟨hfree, rfl⟩ := next_cases h
    simp only [Apart, State.create, Timer.create]
    split
    · exact hs
    · simp only [List.map_cons, List.nodup_cons]
      refine ⟨fun hmem => ?_, hs⟩
      obtain ⟨timer, htimer, hnode⟩ := List.mem_map.mp hmem
      exact hfree timer htimer hnode
  | pass now now' call =>
    have ht : t = s.pass now now' call := next_cases h
    subst ht
    unfold Apart State.pass
    split
    · exact hs
    · exact (visitAll_sublist _).nodup hs
  | delete k =>
    obtain ⟨id, -, rfl⟩ := next_cases h
    exact ((delete_sublist id).map _).nodup hs

end Steps

end BoxUtils.Timer
