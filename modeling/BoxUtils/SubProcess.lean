import Mathlib.Logic.Function.Basic
import Mathlib.Data.Int.Notation
import BoxUtils.Descriptors
import BoxUtils.Runs

/-!
The calls of the `SubProcess` objects of a program, in any order, and what the
operating system does meanwhile: processes exit, are started by others and are
reaped by others, and the pid of a reaped process is free for the next one. An
object only keeps the pid that its last fork returned. What the kernel answers
is part of an action; a state also remembers the signals that were sent.
-/
namespace BoxUtils.SubProcess

open Runs Function

/-- Whose child a process is. -/
inductive Owner
  | object (o : ℕ)
  /-- Started by other code of the program. -/
  | program
  | elsewhere
  deriving DecidableEq, Repr

structure Process where
  owner : Owner
  /-- The exit status of a process that waits to be reaped. -/
  status : Option ℤ
  deriving DecidableEq, Repr

/-- A call of the system's `kill`. -/
structure Signal where
  object : ℕ
  pid : ℤ
  sig : ℤ
  /-- The owner of the process of this pid, if there was one. -/
  target : Option Owner
  deriving DecidableEq, Repr

structure State where
  childPid : ℕ → ℤ
  processes : ℤ → Option Process
  sent : List Signal
  /-- History: the last `run` of the object forked, and nobody has reaped that child. -/
  unreaped : ℕ → Bool

/-- Objects as the constructor leaves them. -/
def init : State where
  childPid := fun _ => -1
  processes := fun _ => none
  sent := []
  unreaped := fun _ => false

inductive Error
  | invalidArgument (message : String)
  | osError (errno : ℤ) (file : Option String)
  deriving DecidableEq, Repr

/-- The answer of `fork`, and the error of `execvp` that arrives from the child. -/
inductive Fork
  | failed (errno : ℤ)
  | child (pid : ℤ) (execErrno : Option ℤ)
  deriving DecidableEq, Repr

/-- The answer of `waitpid`. -/
inductive Waited
  | reaped (pid : ℤ)
  /-- No awaited child has exited, which is an answer under `WNOHANG` only. -/
  | running
  | failed (errno : ℤ)
  deriving DecidableEq, Repr

section Calls

/-- A pid that the kernel can give to a new process. -/
def State.Free (s : State) (pid : ℤ) : Prop := 0 < pid ∧ s.processes pid = none

instance (s : State) (pid : ℤ) : Decidable (s.Free pid) := inferInstanceAs (Decidable (_ ∧ _))

/-- What `errno` holds behind the clean-up of a failed `fork`, which also closes the
placeholders of the pipes that were not created. -/
def forkErrno (reIn reOut reErr : Bool) (errno : ℤ) : ℤ :=
  if reIn ∧ reOut ∧ reErr then errno else Descriptors.EBADF

def run (s : State) (o : ℕ) (args : List String) (reIn reOut reErr : Bool) (fork : Fork) :
    Option (State × Except Error Unit) :=
  match args with
  | [] => some (s, .error (.invalidArgument "args.size() == 0"))
  | file :: _ =>
    match fork with
    | .failed errno =>
      some ({ s with
        childPid := update s.childPid o (-1)
        unreaped := update s.unreaped o false },
        .error (.osError (forkErrno reIn reOut reErr errno) none))
    | .child pid execErrno =>
      if s.Free pid then
        some ({ s with
          childPid := update s.childPid o pid
          processes := update s.processes pid (some ⟨.object o, none⟩)
          unreaped := update s.unreaped o true },
          match execErrno with
          | none => .ok ()
          | some err => .error (.osError err (some file)))
      else none

/-- The process is gone from here on. -/
def State.reap (s : State) (pid : ℤ) : State :=
  { s with
    processes := update s.processes pid none
    unreaped := fun o => s.unreaped o && decide (s.childPid o ≠ pid) }

/-- The process has exited, and is a child of the program that `waitpid(pid)` waits for. -/
def State.Awaited (s : State) (pid q : ℤ) : Prop :=
  (pid = q ∨ pid = -1) ∧ ∃ p ∈ s.processes q, p.owner ≠ .elsewhere ∧ p.status.isSome

instance (s : State) (pid q : ℤ) : Decidable (s.Awaited pid q) :=
  inferInstanceAs (Decidable (_ ∧ ∃ _ ∈ s.processes q, _))

/-- `waitpid`: its result, and what it writes to the status. -/
def waitpid (s : State) (pid : ℤ) (nohang : Bool) (answer : Waited) :
    Option (State × ℤ × Option ℤ) :=
  match answer with
  | .reaped q =>
    if s.Awaited pid q then some (s.reap q, q, (s.processes q).bind Process.status) else none
  | .running => if nohang then some (s, 0, none) else none
  | .failed _ => some (s, -1, none)

/-- The status is not initialised where `waitpid` did not write it. -/
def wait (s : State) (o : ℕ) (answer : Waited) : Option (State × Option ℤ) := do
  let (s, _, status) ← waitpid s (s.childPid o) false answer
  some (s, status)

def poll (s : State) (o : ℕ) (answer : Waited) : Option (State × Bool × Option ℤ) := do
  let (s, result, retVal) ← waitpid s (s.childPid o) true answer
  some (s, decide (result ≠ 0), retVal)

/-- The result is that of the system's `kill`. -/
def kill (s : State) (o : ℕ) (sig : ℤ) (answer : ℤ) : State × ℤ :=
  let target := (s.processes (s.childPid o)).map Process.owner
  ({ s with sent := s.sent ++ [⟨o, s.childPid o, sig, target⟩] }, answer)

def sigterm : ℤ := 15

def terminate (s : State) (o : ℕ) (answer : ℤ) : State × ℤ := kill s o sigterm answer

end Calls

section System

inductive Action
  | run (o : ℕ) (args : List String) (reIn reOut reErr : Bool) (fork : Fork)
  | wait (o : ℕ) (answer : Waited)
  | poll (o : ℕ) (answer : Waited)
  | kill (o : ℕ) (sig answer : ℤ)
  | terminate (o : ℕ) (answer : ℤ)
  /-- A process ends. -/
  | exit (pid status : ℤ)
  /-- Somebody else starts a process. -/
  | spawn (pid : ℤ) (ofProgram : Bool)
  /-- Somebody else reaps a process. -/
  | reap (pid : ℤ)
  deriving DecidableEq, Repr

def exit (s : State) (pid status : ℤ) : Option State :=
  match s.processes pid with
  | some ⟨owner, none⟩ =>
    some { s with processes := update s.processes pid (some ⟨owner, some status⟩) }
  | _ => none

/-- The owner of a process that no object has started. -/
def stranger (ofProgram : Bool) : Owner := if ofProgram then .program else .elsewhere

def spawn (s : State) (pid : ℤ) (ofProgram : Bool) : Option State :=
  if s.Free pid then
    some { s with processes := update s.processes pid (some ⟨stranger ofProgram, none⟩) }
  else none

def next (s : State) : Action → Option State
  | .run o args reIn reOut reErr fork => (run s o args reIn reOut reErr fork).map Prod.fst
  | .wait o answer => (wait s o answer).map Prod.fst
  | .poll o answer => (poll s o answer).map Prod.fst
  | .kill o sig answer => some (kill s o sig answer).1
  | .terminate o answer => some (terminate s o answer).1
  | .exit pid status => exit s pid status
  | .spawn pid ofProgram => spawn s pid ofProgram
  | .reap pid => some (s.reap pid)

/-- Every signal went to a child that its object had started, and never to pid -1. -/
def SignalsOwnChild (s : State) : Prop :=
  ∀ g ∈ s.sent, g.target = some (.object g.object) ∧ g.pid ≠ -1

/-- An object signals only while the child that its last `run` forked is not reaped. -/
def SignalsUnreaped (s : State) : Action → Prop
  | .kill o _ _ | .terminate o _ => s.unreaped o = true
  | _ => True

instance (s : State) : Decidable (SignalsOwnChild s) :=
  inferInstanceAs (Decidable (∀ _ ∈ s.sent, _))

instance (s : State) (a : Action) : Decidable (SignalsUnreaped s a) := by
  unfold SignalsUnreaped
  split <;> infer_instance

end System

section Tracking

/-- The process that has the pid the object keeps is a child of this object. -/
def Holds (s : State) (o : ℕ) : Prop :=
  ∃ p, s.processes (s.childPid o) = some p ∧ p.owner = .object o

/-- The history tells for which objects the pid they keep is that of their child. -/
structure Tracked (s : State) : Prop where
  positive : ∀ pid p, s.processes pid = some p → 0 < pid
  unreaped_iff : ∀ o, s.unreaped o = true ↔ Holds s o

variable {s t : State} {o : ℕ} {pid : ℤ}

theorem tracked_init : Tracked init := by
  constructor
  · intro pid p hp
    cases hp
  · intro o
    constructor
    · intro h
      cases h
    · intro ⟨p, hp, _⟩
      cases hp

/-- No process has the pid that a failed fork leaves behind. -/
theorem Tracked.not_neg_one (h : Tracked s) : s.processes (-1) = none := by
  cases hp : s.processes (-1) with
  | none => rfl
  | some p => exact absurd (h.positive _ _ hp) (by decide)

/-- Pids stay positive when one entry of the table changes. -/
theorem Tracked.positive_update (h : Tracked s) {entry : Option Process}
    (hpos : entry.isSome → 0 < pid) (q : ℤ) (p : Process)
    (hq : update s.processes pid entry q = some p) : 0 < q := by
  by_cases hqp : q = pid
  · subst hqp
    rw [update_self] at hq
    exact hpos (by rw [hq]; rfl)
  · rw [update_of_ne hqp] at hq
    exact h.positive q p hq

theorem Tracked.forkFailed (h : Tracked s) (o : ℕ) : Tracked { s with
    childPid := update s.childPid o (-1)
    unreaped := update s.unreaped o false } := by
  constructor
  · exact h.positive
  · intro o'
    by_cases ho : o' = o
    · subst ho
      simp [Holds, h.not_neg_one]
    · simp only [Holds, update_of_ne ho]
      exact h.unreaped_iff o'

theorem Tracked.forked (h : Tracked s) (o : ℕ) (hfree : s.Free pid) : Tracked { s with
    childPid := update s.childPid o pid
    processes := update s.processes pid (some ⟨.object o, none⟩)
    unreaped := update s.unreaped o true } := by
  obtain ⟨hpos, hnone⟩ := hfree
  constructor
  · exact h.positive_update fun _ => hpos
  · intro o'
    by_cases ho : o' = o
    · subst ho
      simp [Holds]
    · simp only [Holds, update_of_ne ho]
      rw [h.unreaped_iff o', Holds]
      by_cases hq : s.childPid o' = pid
      · -- a stale pid that the fork has reused
        simp [hq, hnone, Ne.symm ho]
      · simp [hq]

theorem Tracked.reap (h : Tracked s) (pid : ℤ) : Tracked (s.reap pid) := by
  constructor
  · exact h.positive_update fun hsome => by cases hsome
  · intro o
    have ho := h.unreaped_iff o
    unfold Holds at ho ⊢
    by_cases hq : s.childPid o = pid
    · simp [State.reap, hq]
    · simpa [State.reap, hq] using ho

theorem Tracked.exit {status : ℤ} (h : Tracked s) (hstep : exit s pid status = some t) :
    Tracked t := by
  unfold SubProcess.exit at hstep
  split at hstep
  · rename_i owner hp
    cases hstep
    constructor
    · exact h.positive_update fun _ => h.positive pid _ hp
    · intro o
      have ho := h.unreaped_iff o
      unfold Holds at ho ⊢
      by_cases hq : s.childPid o = pid
      · simpa [hq, hp] using ho
      · simpa [hq] using ho
  · cases hstep

theorem Tracked.spawn {ofProgram : Bool} (h : Tracked s)
    (hstep : spawn s pid ofProgram = some t) : Tracked t := by
  unfold SubProcess.spawn at hstep
  split at hstep
  · rename_i hfree
    obtain ⟨hpos, hnone⟩ := hfree
    cases hstep
    constructor
    · exact h.positive_update fun _ => hpos
    · intro o
      have ho := h.unreaped_iff o
      have hother : stranger ofProgram ≠ .object o := by cases ofProgram <;> simp [stranger]
      unfold Holds at ho ⊢
      by_cases hq : s.childPid o = pid
      · -- the stale pid is now that of a stranger
        simpa [hq, hnone, hother] using ho
      · simpa [hq] using ho
  · cases hstep

theorem Tracked.sends (h : Tracked s) (sent : List Signal) : Tracked { s with sent := sent } :=
  ⟨h.positive, h.unreaped_iff⟩

end Tracking

section Runs

variable {s t : State} {a : Action}

theorem waitpid_cases {pid : ℤ} {nohang : Bool} {answer : Waited} {result : ℤ × Option ℤ}
    (h : waitpid s pid nohang answer = some (t, result)) : t = s ∨ ∃ q, t = s.reap q := by
  unfold waitpid at h
  split at h
  · split at h
    · cases h
      exact Or.inr ⟨_, rfl⟩
    · cases h
  · split at h
    · cases h
      exact Or.inl rfl
    · cases h
  · cases h
    exact Or.inl rfl

theorem run_cases {o : ℕ} {args : List String} {reIn reOut reErr : Bool} {fork : Fork}
    {reply : Except Error Unit} (h : run s o args reIn reOut reErr fork = some (t, reply)) :
    t = s ∨
    t = { s with
      childPid := update s.childPid o (-1)
      unreaped := update s.unreaped o false } ∨
    ∃ pid, s.Free pid ∧ t = { s with
      childPid := update s.childPid o pid
      processes := update s.processes pid (some ⟨.object o, none⟩)
      unreaped := update s.unreaped o true } := by
  unfold SubProcess.run at h
  split at h
  · cases h
    exact Or.inl rfl
  · split at h
    · cases h
      exact Or.inr (Or.inl rfl)
    · split at h
      · rename_i hfree
        cases h
        exact Or.inr (Or.inr ⟨_, hfree, rfl⟩)
      · cases h

theorem wait_cases {o : ℕ} {answer : Waited} {status : Option ℤ}
    (h : wait s o answer = some (t, status)) : t = s ∨ ∃ q, t = s.reap q := by
  obtain ⟨⟨u, result⟩, hu, hrest⟩ := Option.bind_eq_some_iff.mp h
  cases hrest
  exact waitpid_cases hu

theorem poll_cases {o : ℕ} {answer : Waited} {reply : Bool × Option ℤ}
    (h : poll s o answer = some (t, reply)) : t = s ∨ ∃ q, t = s.reap q := by
  obtain ⟨⟨u, result⟩, hu, hrest⟩ := Option.bind_eq_some_iff.mp h
  cases hrest
  exact waitpid_cases hu

/-- The call sends a signal. -/
def Action.Signals : Action → Prop
  | .kill _ _ _ | .terminate _ _ => True
  | _ => False

theorem Tracked.next (h : Tracked s) (hstep : next s a = some t) : Tracked t := by
  cases a with
  | run o args reIn reOut reErr fork =>
    obtain ⟨⟨u, reply⟩, hu, rfl⟩ := Option.map_eq_some_iff.mp hstep
    rcases run_cases hu with rfl | rfl | ⟨pid, hfree, rfl⟩
    · exact h
    · exact h.forkFailed o
    · exact h.forked o hfree
  | wait o answer =>
    obtain ⟨⟨u, reply⟩, hu, rfl⟩ := Option.map_eq_some_iff.mp hstep
    rcases wait_cases hu with rfl | ⟨q, rfl⟩
    · exact h
    · exact h.reap q
  | poll o answer =>
    obtain ⟨⟨u, reply⟩, hu, rfl⟩ := Option.map_eq_some_iff.mp hstep
    rcases poll_cases hu with rfl | ⟨q, rfl⟩
    · exact h
    · exact h.reap q
  | kill o sig answer | terminate o answer =>
    cases hstep
    exact h.sends _
  | exit pid status => exact h.exit hstep
  | spawn pid ofProgram => exact h.spawn hstep
  | reap pid =>
    cases hstep
    exact h.reap pid

/-- No other call adds to what was sent. -/
theorem next_sent (hquiet : ¬ a.Signals) (hstep : next s a = some t) : t.sent = s.sent := by
  cases a with
  | run o args reIn reOut reErr fork =>
    obtain ⟨⟨u, reply⟩, hu, rfl⟩ := Option.map_eq_some_iff.mp hstep
    rcases run_cases hu with rfl | rfl | ⟨pid, hfree, rfl⟩ <;> rfl
  | wait o answer =>
    obtain ⟨⟨u, reply⟩, hu, rfl⟩ := Option.map_eq_some_iff.mp hstep
    rcases wait_cases hu with rfl | ⟨q, rfl⟩ <;> rfl
  | poll o answer =>
    obtain ⟨⟨u, reply⟩, hu, rfl⟩ := Option.map_eq_some_iff.mp hstep
    rcases poll_cases hu with rfl | ⟨q, rfl⟩ <;> rfl
  | kill o sig answer | terminate o answer => exact absurd trivial hquiet
  | exit pid status =>
    simp only [SubProcess.next, SubProcess.exit] at hstep
    split at hstep
    · cases hstep
      rfl
    · cases hstep
  | spawn pid ofProgram =>
    simp only [SubProcess.next, SubProcess.spawn] at hstep
    split at hstep
    · cases hstep
      rfl
    · cases hstep
  | reap pid =>
    cases hstep
    rfl

/-- The signal of a call goes to the object's child if and only if that is not reaped. -/
theorem kill_signalsOwnChild_iff (h : Tracked s) (hown : SignalsOwnChild s) (o : ℕ)
    (sig answer : ℤ) : SignalsOwnChild (kill s o sig answer).1 ↔ s.unreaped o = true := by
  rw [h.unreaped_iff o]
  constructor
  · intro hall
    have hlast := (hall _ (List.mem_append_right _ (List.mem_singleton_self _))).1
    obtain ⟨p, hp, howner⟩ := Option.map_eq_some_iff.mp hlast
    exact ⟨p, hp, howner⟩
  · intro ⟨p, hp, howner⟩ g hg
    rcases List.mem_append.mp hg with hg | hg
    · exact hown g hg
    · obtain rfl := List.mem_singleton.mp hg
      refine ⟨by simp [hp, howner], fun hneg => ?_⟩
      -- no process has the pid -1
      have hpos := h.positive _ p hp
      simp only at hneg
      omega

theorem signals_iff (h : Tracked s) (hown : SignalsOwnChild s) (hstep : next s a = some t) :
    SignalsOwnChild t ↔ SignalsUnreaped s a := by
  cases a with
  | kill o sig answer =>
    cases hstep
    exact kill_signalsOwnChild_iff h hown o sig answer
  | terminate o answer =>
    cases hstep
    exact kill_signalsOwnChild_iff h hown o sigterm answer
  | _ =>
    unfold SignalsOwnChild
    rw [next_sent (by simp [Action.Signals]) hstep]
    exact iff_of_true hown trivial

end Runs

/-- In a run of calls every signal goes to a live child of its object if and only if
each object signals only between a `run` that forks and the reaping of that child. -/
theorem signalsOwnChild_iff (as : List Action) :
    Throughout next SignalsOwnChild init as ↔ StepsMeet next SignalsUnreaped init as := by
  have hinit : SignalsOwnChild init := by
    intro g hg
    cases hg
  apply throughout_iff_of_step_iff (I := Tracked) _ _ tracked_init hinit
  · intro s a t hs hstep
    exact hs.next hstep
  · intro s a t hs hown hstep
    exact signals_iff hs hown hstep

/-- A fresh object signals pid -1, that is every process it may signal. -/
theorem fresh_object_signals_all :
    ¬ ∀ as, Throughout next SignalsOwnChild init as := by
  intro h
  have hall := (h [.kill 0 sigterm 0]).2 _ rfl
  exact absurd hall.start (by decide)

end BoxUtils.SubProcess
