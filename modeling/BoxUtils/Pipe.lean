import BoxUtils.Runs
import Mathlib.Data.Nat.Notation
import Mathlib.Logic.Function.Basic

/-!
The pipe of sync/pipe.hpp with any number of writers and readers. Each section
under `mtx` and each operation on the event is one step. A reader that finds
the queue empty waits for the event outside the mutex and afterwards pops
without a second look at the queue; the timed read never unlocks the mutex on
its way out.
-/
namespace BoxUtils.Pipe

open Runs

/-- Where a thread is; the flag of a read tells whether it has a timeout. -/
inductive Pc
  | idle
  | cleared (timed : Bool)
  | blocked (timed : Bool)
  | woken (timed : Bool)
  deriving DecidableEq, Repr

/-- What setting the event does to a thread. -/
def Pc.notified : Pc → Pc
  | .blocked timed => .woken timed
  | pc => pc

structure State (T : Type*) where
  dataQueue : List T
  mtx : Option ℕ
  emptyEv : Bool
  pc : ℕ → Pc
  /-- The values in the order of their enqueuing and of their dequeuing steps. -/
  written : List T
  delivered : List T
  /-- Some read has called `front` and `pop` on an empty queue. -/
  underflow : Bool

variable {T : Type*}

def init : State T := ⟨[], none, false, fun _ => .idle, [], [], false⟩

inductive Action (T : Type*)
  | write (t : ℕ) (data : T)
  | read (t : ℕ) (timed : Bool)
  | wait (t : ℕ)
  | wake (t : ℕ)
  | timeout (t : ℕ)
  | resume (t : ℕ)
  | tryRead (t : ℕ)
  | empty (t : ℕ)
  | size (t : ℕ)
  deriving DecidableEq, Repr

namespace State

/-- A thread that is outside every operation, with the mutex free. -/
def CanEnter (s : State T) (t : ℕ) : Prop := s.pc t = .idle ∧ s.mtx = none

instance (s : State T) (t : ℕ) : Decidable (s.CanEnter t) :=
  inferInstanceAs (Decidable (_ ∧ _))

def move (s : State T) (t : ℕ) (pc : Pc) : State T :=
  { s with pc := Function.update s.pc t pc }

/-- `empty_ev.set()`. -/
def setEvent (s : State T) : State T :=
  if s.emptyEv then s else { s with emptyEv := true, pc := fun u => (s.pc u).notified }

/-- `data_queue.push(data)`. -/
def push (s : State T) (data : T) : State T :=
  { s with dataQueue := s.dataQueue ++ [data], written := s.written ++ [data] }

/-- `data = data_queue.front(); data_queue.pop();` -/
def pop (s : State T) : State T :=
  match s.dataQueue with
  | [] => { s with underflow := true }
  | data :: rest => { s with dataQueue := rest, delivered := s.delivered ++ [data] }

/-- What is left of a read after its pop: the timed one keeps the mutex. -/
def leave (s : State T) (t : ℕ) (timed : Bool) : State T :=
  { s.move t .idle with mtx := if timed then some t else none }

end State

def next (s : State T) : Action T → Option (State T)
  | .write t data =>
    if s.CanEnter t then
      if s.dataQueue.isEmpty then some (s.push data).setEvent else some (s.push data)
    else none
  | .read t timed =>
    if s.CanEnter t then
      if s.dataQueue.isEmpty then some { s.move t (.cleared timed) with emptyEv := false }
      else some (s.pop.leave t timed)
    else none
  | .wait t =>
    match s.pc t with
    | .cleared timed => some (s.move t (if s.emptyEv then .woken timed else .blocked timed))
    | _ => none
  | .wake t =>
    match s.pc t with
    | .blocked timed => some (s.move t (.woken timed))
    | _ => none
  | .timeout t =>
    match s.pc t with
    | .blocked true => some (s.move t .idle)
    | _ => none
  | .resume t =>
    match s.pc t, s.mtx with
    | .woken timed, none => some (s.pop.leave t timed)
    | _, _ => none
  | .tryRead t =>
    if s.CanEnter t then
      if s.dataQueue.isEmpty then some s else some s.pop
    else none
  | .empty t | .size t => if s.CanEnter t then some s else none

/-- The delivered values and the queued ones are the written ones in their order,
and nothing was popped from an empty queue. -/
def Fifo (s : State T) : Prop :=
  s.delivered ++ s.dataQueue = s.written ∧ s.underflow = false

/-- A reader that comes back from its wait finds a value in the queue. -/
def ResumesNonempty (s : State T) : Action T → Prop
  | .resume _ => s.dataQueue ≠ []
  | _ => True

section Steps

variable {s u : State T} {t : ℕ}

theorem fifo_leave {timed : Bool} (h : Fifo s) : Fifo (s.leave t timed) := h

theorem fifo_setEvent (h : Fifo s) : Fifo s.setEvent := by
  unfold State.setEvent
  split
  · exact h
  · exact h

theorem fifo_push (h : Fifo s) (data : T) : Fifo (s.push data) := by
  obtain ⟨horder, hpop⟩ := h
  exact ⟨by simp only [State.push, ← horder, List.append_assoc], hpop⟩

theorem fifo_pop (h : Fifo s) (hq : s.dataQueue ≠ []) : Fifo s.pop := by
  obtain ⟨horder, hpop⟩ := h
  cases hqueue : s.dataQueue with
  | nil => exact absurd hqueue hq
  | cons data rest =>
    rw [hqueue] at horder
    simp only [State.pop, hqueue]
    exact ⟨by simpa using horder, hpop⟩

theorem underflow_pop (hq : s.dataQueue = []) : s.pop.underflow = true := by
  simp [State.pop, hq]

theorem resume_cases (hstep : next s (.resume t) = some u) :
    ∃ timed, s.pc t = .woken timed ∧ u = s.pop.leave t timed := by
  simp only [next] at hstep
  split at hstep
  case h_1 timed ht hm => exact ⟨timed, ht, (Option.some.inj hstep).symm⟩
  case h_2 => cases hstep

theorem step_fifo {a : Action T} (h : Fifo s) (hG : ResumesNonempty s a)
    (hstep : next s a = some u) : Fifo u := by
  cases a with
  | write t data =>
    obtain ⟨-, hstep⟩ := Option.ite_none_right_eq_some.mp hstep
    split at hstep
    · obtain rfl := Option.some.inj hstep
      exact fifo_setEvent (fifo_push h data)
    · obtain rfl := Option.some.inj hstep
      exact fifo_push h data
  | read t timed =>
    obtain ⟨-, hstep⟩ := Option.ite_none_right_eq_some.mp hstep
    split at hstep
    case isTrue =>
      obtain rfl := Option.some.inj hstep
      exact h
    case isFalse hempty =>
      obtain rfl := Option.some.inj hstep
      exact fifo_leave (fifo_pop h fun hq => hempty (by rw [hq]; rfl))
  | resume t =>
    obtain ⟨timed, -, rfl⟩ := resume_cases hstep
    exact fifo_leave (fifo_pop h hG)
  | tryRead t =>
    obtain ⟨-, hstep⟩ := Option.ite_none_right_eq_some.mp hstep
    split at hstep
    case isTrue =>
      obtain rfl := Option.some.inj hstep
      exact h
    case isFalse hempty =>
      obtain rfl := Option.some.inj hstep
      exact fifo_pop h fun hq => hempty (by rw [hq]; rfl)
  | wait t | wake t | timeout t | empty t | size t =>
    simp only [next] at hstep
    split at hstep
    · obtain rfl := Option.some.inj hstep
      exact h
    · cases hstep

/-- A reader that comes back to an empty queue pops from it. -/
theorem empty_resume_underflows {a : Action T} (hstep : next s a = some u)
    (hG : ¬ ResumesNonempty s a) : ¬ Fifo u := by
  cases a with
  | resume t =>
    obtain ⟨timed, -, rfl⟩ := resume_cases hstep
    have hq : s.dataQueue = [] := not_not.mp hG
    rintro ⟨-, hpop⟩
    have hflow : s.pop.underflow = false := hpop
    rw [underflow_pop hq] at hflow
    cases hflow
  | _ => exact absurd trivial hG

end Steps

/-- A run keeps the pipe first-in first-out, without a pop from an empty queue,
exactly when each reader that was waiting comes back to a queue with a value. -/
theorem fifo_iff (as : List (Action T)) :
    Throughout next Fifo (init : State T) as ↔ StepsMeet next ResumesNonempty init as :=
  throughout_iff_stepsMeet (fun _ _ _ h hG hstep => step_fifo h hG hstep)
    (fun _ h => h) (fun _ _ _ _ hstep hG => empty_resume_underflows hstep hG) ⟨rfl, rfl⟩

/-- One write wakes two waiting readers, and the second one pops an empty queue. -/
theorem second_reader_underflows :
    ¬ ∀ as : List (Action ℕ), Throughout next Fifo (init : State ℕ) as := by
  intro h
  let trace : List (Action ℕ) :=
    [.read 0 false, .wait 0, .read 1 false, .wait 1, .write 2 7, .resume 0, .resume 1]
  have hlast : (run next init trace).map State.underflow = some true := by decide
  obtain ⟨s, hs, hpop⟩ := Option.map_eq_some_iff.mp hlast
  have hfifo := ((h trace).final hs).2
  rw [hpop] at hfifo
  cases hfifo

end BoxUtils.Pipe
