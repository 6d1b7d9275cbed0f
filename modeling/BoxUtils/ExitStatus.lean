import BoxUtils.SubProcess

/-!
What `wait` and `poll` report of a child that has been started, in any order and number,
while it runs and after it has ended. The system hands out the status once; a `waitpid`
behind that fails, and neither function makes anything of the failure.
-/
namespace BoxUtils.SubProcess

open Runs Function

def ECHILD : ℤ := 10

/-- What `waitpid` has to say of a single process; it waits for one that has not exited. -/
def State.answer (s : State) (pid : ℤ) (nohang : Bool) : Option Waited :=
  match s.processes pid with
  | none => some (.failed ECHILD)
  | some ⟨.elsewhere, _⟩ => some (.failed ECHILD)
  | some ⟨_, some _⟩ => some (.reaped pid)
  | some ⟨_, none⟩ => if nohang then some .running else none

/-- What a call hands to its caller. -/
inductive Report
  | wait (result : ℤ)
  | poll (result : Bool) (stored : Option ℤ)
  deriving DecidableEq, Repr

structure Watched where
  system : State
  /-- History: what the calls have reported. -/
  reports : List Report

inductive Event
  | exit
  /-- What the variable of the status has before the call is given. -/
  | wait (memory : ℤ)
  | poll
  deriving DecidableEq, Repr

/-- The process of the pid that the object keeps. -/
def State.child (s : State) (o : ℕ) : Option Process := s.processes (s.childPid o)

/-- The end of the child with this status, and calls of one object. -/
def Watched.next (o : ℕ) (status : ℤ) (w : Watched) : Event → Option Watched
  | .exit => (exit w.system (w.system.childPid o) status).map fun s => { w with system := s }
  | .wait memory => do
    let answer ← w.system.answer (w.system.childPid o) false
    let (s, written) ← wait w.system o answer
    some ⟨s, w.reports ++ [.wait (written.getD memory)]⟩
  | .poll => do
    let answer ← w.system.answer (w.system.childPid o) true
    let (s, result, stored) ← poll w.system o answer
    some ⟨s, w.reports ++ [.poll result stored]⟩

def Report.Tells (status : ℤ) : Report → Prop
  | .wait result => result = status
  | .poll result stored => result = true → stored = some status

/-- All reports are of the same status. -/
def Consistent (status : ℤ) (w : Watched) : Prop := ∀ r ∈ w.reports, r.Tells status

/-- The child has not been reaped, or the variable of the status has the right value anyway. -/
def Reapable (o : ℕ) (status : ℤ) (w : Watched) : Event → Prop
  | .exit => True
  | .wait memory => w.system.child o ≠ none ∨ memory = status
  | .poll => w.system.child o ≠ none

instance (o : ℕ) (status : ℤ) (w : Watched) (e : Event) : Decidable (Reapable o status w e) := by
  unfold Reapable
  split <;> infer_instance

section Steps

variable {o : ℕ} {status memory : ℤ} {w t : Watched} {e : Event}

/-- The child runs, or it has exited with the status, or it was reaped. -/
inductive Phase (o : ℕ) (status : ℤ) (s : State) : Prop
  | running (h : s.child o = some ⟨.object o, none⟩)
  | exited (h : s.child o = some ⟨.object o, some status⟩)
  | reaped (h : s.child o = none)

theorem child_reap (s : State) (o : ℕ) : (s.reap (s.childPid o)).child o = none :=
  update_self _ _ _

/-- A call for a child that has exited reaps it and gets its status. -/
theorem waitpid_exited {s : State} (nohang : Bool)
    (h : s.child o = some ⟨.object o, some status⟩) :
    s.answer (s.childPid o) nohang = some (.reaped (s.childPid o)) ∧
      waitpid s (s.childPid o) nohang (.reaped (s.childPid o)) =
        some (s.reap (s.childPid o), s.childPid o, some status) := by
  have hprocess : s.processes (s.childPid o) = some ⟨.object o, some status⟩ := h
  constructor
  · simp only [State.answer, hprocess]
  · have hawaited : s.Awaited (s.childPid o) (s.childPid o) :=
      ⟨Or.inl rfl, _, hprocess, Owner.noConfusion, rfl⟩
    simp only [waitpid, if_pos hawaited, hprocess, Option.bind_some]

theorem answer_reaped {s : State} {nohang : Bool} (h : s.child o = none) :
    s.answer (s.childPid o) nohang = some (.failed ECHILD) := by
  have hprocess : s.processes (s.childPid o) = none := h
  simp only [State.answer, hprocess]

theorem answer_running {s : State} {nohang : Bool} (h : s.child o = some ⟨.object o, none⟩) :
    s.answer (s.childPid o) nohang = if nohang then some .running else none := by
  have hprocess : s.processes (s.childPid o) = some ⟨.object o, none⟩ := h
  simp only [State.answer, hprocess]

/-- What is kept: the child is in a phase, and its pid is not 0. -/
structure Watching (o : ℕ) (status : ℤ) (w : Watched) : Prop where
  phase : Phase o status w.system
  positive : 0 < w.system.childPid o

/-- A step adds reports, which are right if and only if the child was there to be reaped. -/
def Adds (o : ℕ) (status : ℤ) (w : Watched) (e : Event) (t : Watched) : Prop :=
  ∃ new, t.reports = w.reports ++ new ∧
    ((∀ r ∈ new, r.Tells status) ↔ Reapable o status w e)

theorem next_exit (h : Watching o status w) (hstep : w.next o status .exit = some t) :
    Watching o status t ∧ Adds o status w .exit t := by
  obtain ⟨s, hexit, rfl⟩ := Option.map_eq_some_iff.mp hstep
  refine ⟨?_, [], by simp, iff_of_true nofun trivial⟩
  unfold exit at hexit
  split at hexit
  case h_1 owner hprocess =>
    cases hexit
    have howner : owner = .object o := by
      cases h.phase with
      | running hrun => exact congrArg Process.owner (Option.some.inj (hprocess.symm.trans hrun))
      | exited hdone => cases hprocess.symm.trans hdone
      | reaped hgone => cases hprocess.symm.trans hgone
    refine ⟨.exited ?_, h.positive⟩
    rw [howner]
    exact update_self _ _ _
  case h_2 => cases hexit

theorem next_wait (h : Watching o status w) (hstep : w.next o status (.wait memory) = some t) :
    Watching o status t ∧ Adds o status w (.wait memory) t := by
  unfold Watched.next at hstep
  cases h.phase with
  | running hrun =>
    rw [answer_running hrun] at hstep
    cases hstep
  | exited hdone =>
    obtain ⟨hanswer, hwait⟩ := waitpid_exited false hdone
    simp only [hanswer, wait, hwait, Option.bind_eq_bind, Option.bind_some] at hstep
    cases hstep
    refine ⟨⟨.reaped (child_reap _ o), h.positive⟩, [.wait status], rfl, iff_of_true ?_ ?_⟩
    · simp [Report.Tells]
    · exact Or.inl (Option.ne_none_iff_exists'.mpr ⟨_, hdone⟩)
  | reaped hgone =>
    simp only [answer_reaped hgone, wait, waitpid, Option.bind_eq_bind, Option.bind_some] at hstep
    cases hstep
    refine ⟨⟨.reaped hgone, h.positive⟩, [.wait memory], rfl, ?_⟩
    simp [Report.Tells, Reapable, hgone]

theorem next_poll (h : Watching o status w) (hstep : w.next o status .poll = some t) :
    Watching o status t ∧ Adds o status w .poll t := by
  unfold Watched.next at hstep
  cases h.phase with
  | running hrun =>
    simp only [answer_running hrun, poll, waitpid, if_true, Option.bind_eq_bind,
      Option.bind_some] at hstep
    cases hstep
    refine ⟨⟨.running hrun, h.positive⟩, [.poll false none], rfl, iff_of_true ?_ ?_⟩
    · simp [Report.Tells]
    · exact Option.ne_none_iff_exists'.mpr ⟨_, hrun⟩
  | exited hdone =>
    obtain ⟨hanswer, hwait⟩ := waitpid_exited true hdone
    simp only [hanswer, poll, hwait, Option.bind_eq_bind, Option.bind_some] at hstep
    cases hstep
    refine ⟨⟨.reaped (child_reap _ o), h.positive⟩, [.poll true (some status)], ?_,
      iff_of_true ?_ ?_⟩
    · simp [Int.ne_of_gt h.positive]
    · simp [Report.Tells]
    · exact Option.ne_none_iff_exists'.mpr ⟨_, hdone⟩
  | reaped hgone =>
    simp only [answer_reaped hgone, poll, waitpid, Option.bind_eq_bind, Option.bind_some] at hstep
    cases hstep
    refine ⟨⟨.reaped hgone, h.positive⟩, [.poll true none], rfl, ?_⟩
    simp [Report.Tells, Reapable, hgone]

theorem next_watching (h : Watching o status w) (hstep : w.next o status e = some t) :
    Watching o status t ∧ Adds o status w e t := by
  cases e with
  | exit => exact next_exit h hstep
  | wait memory => exact next_wait h hstep
  | poll => exact next_poll h hstep

/-- A `run` that succeeds leaves the object with a running child. -/
theorem watching_run {s₀ s : State} {args : List String} {reIn reOut reErr : Bool} {fork : Fork}
    (h : run s₀ o args reIn reOut reErr fork = some (s, .ok ())) (status : ℤ) :
    Watching o status ⟨s, []⟩ := by
  unfold SubProcess.run at h
  split at h
  · cases h
  · split at h
    · cases h
    · split at h
      · rename_i hfree
        obtain ⟨rfl, -⟩ := Prod.mk.inj (Option.some.inj h)
        refine ⟨.running ?_, ?_⟩
        · simp [State.child]
        · simpa using hfree.1
      · cases h

end Steps

/-- The calls behind a `run` that succeeds report the status of the child throughout if and
only if each of them is made before the child is reaped, or is a `wait` whose variable
has the status already. -/
theorem consistent_iff {o : ℕ} {s₀ s : State} {args : List String} {reIn reOut reErr : Bool}
    {fork : Fork} (hrun : run s₀ o args reIn reOut reErr fork = some (s, .ok ())) (status : ℤ)
    (events : List Event) :
    Throughout (Watched.next o status) (Consistent status) ⟨s, []⟩ events ↔
      StepsMeet (Watched.next o status) (Reapable o status) ⟨s, []⟩ events := by
  apply throughout_iff_of_step_iff (I := Watching o status) _ _ (watching_run hrun status) nofun
  · intro w e t hw hstep
    exact (next_watching hw hstep).1
  · intro w e t hw hbefore hstep
    obtain ⟨-, new, hreports, htells⟩ := next_watching hw hstep
    rw [← htells]
    unfold Consistent
    rw [hreports]
    constructor
    · intro hall r hr
      exact hall r (List.mem_append_right _ hr)
    · intro hnew r hr
      rcases List.mem_append.mp hr with hr | hr
      · exact hbefore r hr
      · exact hnew r hr

/-- After the first `run` of the first object. -/
def started : State :=
  { init with
    childPid := update init.childPid 0 7
    processes := update init.processes 7 (some ⟨.object 0, none⟩)
    unreaped := update init.unreaped 0 true }

theorem run_started :
    run init 0 ["ls"] false true false (.child 7 none) = some (started, .ok ()) := rfl

/-- A child that exits with status 256 between two polls. -/
theorem consistent_polled :
    Throughout (Watched.next 0 256) (Consistent 256) ⟨started, []⟩ [.poll, .exit, .poll] :=
  (consistent_iff run_started 256 _).mpr (by decide)

/-- It is waited for after a poll has reported its status. -/
theorem wait_reports_memory :
    ¬ ∀ (o : ℕ) (s₀ s : State) (args : List String) (reIn reOut reErr : Bool) (fork : Fork)
      (status : ℤ) (events : List Event), run s₀ o args reIn reOut reErr fork = some (s, .ok ()) →
        Throughout (Watched.next o status) (Consistent status) ⟨s, []⟩ events := by
  intro h
  have hall := h 0 init started ["ls"] false true false (.child 7 none) 256 [.exit, .poll, .wait 0]
    run_started
  have hend := (((hall.2 _ rfl).2 _ rfl).2 _ rfl)
  have hwait := hend (.wait 0) (by simp)
  cases hwait

end BoxUtils.SubProcess
