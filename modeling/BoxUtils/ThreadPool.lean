import BoxUtils.Counting
import BoxUtils.Runs

/-!
The thread pool of threadpool.cpp: the adders, the loops of the workers, the
callers of `wait` and the destructor, interleaved in any order. Each section
under `mtx` is one step, as is every access to a flag of a worker, a set or a
clear of `empty_event` and, in a wait for it, the test of its flag. A worker that
finds the queue empty sets the event only after it has released `mtx`, so tasks
may have been queued in between. A caller of `wait` that finds the event unset
blocks in a step of its own, and may come back without having been notified.
-/
namespace BoxUtils.ThreadPool

/-- What `add_task` queues: the caller's own entry, or a `std::function`. -/
inductive StartEntry
  | raw (entry param : ℕ)
  | function (fn : ℕ)
  deriving DecidableEq, Repr

/-- Where the thread of a worker is inside `worker_main`. -/
inductive WorkerPc
  | loop
  | inspect
  | setting
  | sleepy
  | blocked
  | claimed (e : StartEntry)
  | busy (e : StartEntry)
  | invoked
  | leaving
  | exited
  deriving DecidableEq, Repr

/-- What `notify_one` and `notify_all` do to a worker: the sleeping one goes on. -/
def WorkerPc.notified : WorkerPc → WorkerPc
  | .blocked => .loop
  | pc => pc

/-- The task a worker has taken from the queue and not yet called. -/
def WorkerPc.held : WorkerPc → Option StartEntry
  | .claimed e | .busy e => some e
  | _ => none

structure Worker where
  running : Bool
  isFree : Bool
  detached : Bool
  pc : WorkerPc
  /-- How often the record has been deleted. -/
  deletes : ℕ
  deriving DecidableEq, Repr

/-- Where a thread is inside `ThreadPool::wait`. -/
inductive WaitPc
  | idle
  | entered
  | waiting
  | sleepy
  | blocked
  | done
  deriving DecidableEq, Repr

/-- What setting the event does to a thread inside `ThreadPool::wait`. -/
def WaitPc.notified : WaitPc → WaitPc
  | .blocked => .done
  | pc => pc

inductive DtorPc
  | idle
  | waiting (pc : WaitPc)
  | stopping (rest : List ℕ)
  | joining (rest : List ℕ)
  | clearing
  | returned
  deriving DecidableEq, Repr

def DtorPc.notified : DtorPc → DtorPc
  | .waiting pc => .waiting pc.notified
  | pc => pc

structure State where
  /-- The list of workers, and every thread the pool has started. -/
  workers : List ℕ
  started : Finset ℕ
  worker : ℕ → Worker
  tasks : List StartEntry
  emptyEvent : Bool
  selfMtx : Bool
  waiter : ℕ → WaitPc
  dtor : DtorPc
  /-- The tasks in the order of their enqueuing steps and of their calls. -/
  accepted : List StartEntry
  invoked : List StartEntry

/-- A pool whose constructor has started n workers. -/
def init (n : ℕ) : State where
  workers := List.range n
  started := Finset.range n
  worker := fun _ => ⟨true, true, false, .loop, 0⟩
  tasks := []
  emptyEvent := false
  selfMtx := false
  waiter := fun _ => .idle
  dtor := .idle
  accepted := []
  invoked := []

inductive Action
  | addTask (e : StartEntry) (woken : Option ℕ)
  | addFunction (fn : Option ℕ) (woken : Option ℕ)
  | work (w : ℕ)
  | wake (w : ℕ)
  | callWait (t : ℕ)
  | wait (t : ℕ)
  | destroy
  deriving DecidableEq, Repr

namespace State

def setWorker (s : State) (w : ℕ) (x : Worker) : State :=
  { s with worker := Function.update s.worker w x }

def moveWorker (s : State) (w : ℕ) (pc : WorkerPc) : State :=
  s.setWorker w { s.worker w with pc := pc }

/-- `cond_var.notify_all()`. -/
def notifyAll (s : State) : State :=
  { s with worker := fun w => { s.worker w with pc := (s.worker w).pc.notified } }

/-- The worker that `notify_one` reaches must sleep; it reaches none only when none sleeps. -/
def CanNotify (s : State) : Option ℕ → Prop
  | some w => w ∈ s.started ∧ (s.worker w).pc = .blocked
  | none => ∀ w ∈ s.started, (s.worker w).pc ≠ .blocked

instance (s : State) (woken : Option ℕ) : Decidable (s.CanNotify woken) :=
  match woken with
  | some w => inferInstanceAs (Decidable (w ∈ s.started ∧ (s.worker w).pc = .blocked))
  | none => inferInstanceAs (Decidable (∀ w ∈ s.started, (s.worker w).pc ≠ .blocked))

def notifyOne (s : State) : Option ℕ → State
  | some w => s.moveWorker w .loop
  | none => s

/-- `empty_event.set()`. -/
def setEvent (s : State) : State :=
  if s.emptyEvent then s
  else { s with
    emptyEvent := true
    waiter := fun t => (s.waiter t).notified
    dtor := s.dtor.notified }

def push (s : State) (e : StartEntry) : State :=
  { s with tasks := s.tasks ++ [e], accepted := s.accepted ++ [e] }

/-- The section of `add_task`. -/
def addTask (s : State) (e : StartEntry) (woken : Option ℕ) : Option State :=
  if s.tasks.isEmpty then
    if s.CanNotify woken then some { (s.push e).notifyOne woken with emptyEvent := false }
    else none
  else if woken = none then some (s.push e)
  else none

/-- One step of the thread of a worker. -/
def work (s : State) (w : ℕ) : Option State :=
  match (s.worker w).pc with
  | .loop => some (s.moveWorker w (if (s.worker w).running then .inspect else .leaving))
  | .inspect =>
    match s.tasks with
    | [] => some (s.moveWorker w .setting)
    | e :: rest => some { s.moveWorker w (.claimed e) with tasks := rest }
  | .setting => some (s.setEvent.moveWorker w .sleepy)
  | .sleepy => some (s.moveWorker w .blocked)
  | .blocked => none
  | .claimed e => some (s.setWorker w { s.worker w with isFree := false, pc := .busy e })
  | .busy e => some { s.moveWorker w .invoked with invoked := s.invoked ++ [e] }
  | .invoked => some (s.setWorker w { s.worker w with isFree := true, pc := .loop })
  | .leaving =>
    if (s.worker w).detached then
      some (s.setWorker w { s.worker w with pc := .exited, deletes := (s.worker w).deletes + 1 })
    else some (s.moveWorker w .exited)
  | .exited => none

/-- One step inside `ThreadPool::wait`. -/
def waitStep (s : State) : WaitPc → Option WaitPc
  | .entered => some (if s.tasks.isEmpty then .done else .waiting)
  | .waiting => some (if s.emptyEvent then .done else .sleepy)
  | .sleepy => some .blocked
  -- `cond_var.wait` may return without a notification, and the flag is not tested again
  | .blocked => some .done
  | .idle | .done => none

/-- One step of `~ThreadPool`. -/
def destroy (s : State) : Option State :=
  match s.dtor with
  | .idle => some { s with dtor := .waiting .entered }
  | .waiting .done =>
    if s.selfMtx then none else some { s with selfMtx := true, dtor := .stopping s.workers }
  | .waiting pc => (s.waitStep pc).map fun pc => { s with dtor := .waiting pc }
  | .stopping (w :: rest) =>
    some { s.setWorker w { s.worker w with running := false } with dtor := .stopping rest }
  | .stopping [] => some { s.notifyAll with dtor := .joining s.workers }
  -- deleting a worker joins its thread first
  | .joining (w :: rest) =>
    if (s.worker w).pc = .exited then
      some { s.setWorker w { s.worker w with deletes := (s.worker w).deletes + 1 } with
        dtor := .joining rest }
    else none
  | .joining [] => some { s with dtor := .clearing }
  | .clearing => some { s with tasks := [], selfMtx := false, dtor := .returned }
  | .returned => none

end State

/-- Tasks are added while the destructor has not started. -/
def next (s : State) : Action → Option State
  | .addTask e woken => if s.dtor = .idle then s.addTask e woken else none
  | .addFunction fn woken =>
    match fn with
    | none => some s
    | some f => if s.dtor = .idle then s.addTask (.function f) woken else none
  | .work w => if w ∈ s.started then s.work w else none
  | .wake w =>
    if w ∈ s.started ∧ (s.worker w).pc = .blocked then some (s.moveWorker w .loop) else none
  | .callWait t =>
    if s.waiter t = .idle ∨ s.waiter t = .done then
      some { s with waiter := Function.update s.waiter t .entered }
    else none
  | .wait t =>
    (s.waitStep (s.waiter t)).map fun pc => { s with waiter := Function.update s.waiter t pc }
  | .destroy => s.destroy

end BoxUtils.ThreadPool
