import BoxUtils.ThreadPoolSteps
import Mathlib.Data.List.Count
import Mathlib.Data.List.Perm.Basic

/-!
What happens to the tasks of a thread pool. Every accepted task has been called,
is held by a worker that has taken it, or is still queued, and the destructor
joins all workers before it clears the queue. Whether a task can get lost is
therefore decided where the destructor leaves the wait for `empty_event`: with
a task still queued at that point the workers may be stopped before they see it.
-/
namespace BoxUtils.ThreadPool

open Runs Counting

/-- The destructor has left its wait. -/
def DtorPc.PastWait : DtorPc → Prop
  | .idle | .waiting .idle | .waiting .entered | .waiting .waiting | .waiting .sleepy
  | .waiting .blocked => False
  | _ => True

/-- Each accepted task is called, held or queued; the queue is empty once the
destructor has left its wait, and the workers it has joined have exited. -/
structure Sound (s : State) : Prop where
  accounted : ∀ e, s.accepted.count e =
    s.invoked.count e + refs s.started s.held e + s.tasks.count e
  drained : s.dtor.PastWait → s.tasks = []
  listed : ∀ w ∈ s.started, w ∈ s.workers
  joined : ∀ rest, s.dtor.remaining = some rest →
    ∀ w ∈ s.started, w ∈ rest ∨ (s.worker w).pc = .exited

/-- The destructor does not leave the wait for `empty_event` with a task queued,
neither because the event is set already nor because a worker sets it, nor by a
return from its sleep without a notification. -/
def LeavesWaitEmpty (s : State) : Action → Prop
  | .destroy => (s.dtor = .waiting .waiting → s.emptyEvent = true → s.tasks = []) ∧
      (s.dtor = .waiting .blocked → s.tasks = [])
  | .work w => (s.worker w).pc = .setting → s.emptyEvent = false →
      s.dtor = .waiting .blocked → s.tasks = []
  | _ => True

instance (s : State) : ∀ a, Decidable (LeavesWaitEmpty s a)
  | .destroy => inferInstanceAs (Decidable ((_ → _ → _) ∧ (_ → _)))
  | .work _ => inferInstanceAs (Decidable (_ → _ → _ → _))
  | .addTask _ _ | .addFunction _ _ | .wake _ | .callWait _ | .wait _ => isTrue trivial

/-- When the destructor has returned, the calls made are the accepted tasks, each once. -/
def NoTaskLost (s : State) : Prop := s.dtor = .returned → s.invoked.Perm s.accepted

theorem Sound.noTaskLost {s : State} (h : Sound s) : NoTaskLost s := by
  intro hret
  have htasks : s.tasks = [] := h.drained (by rw [hret]; trivial)
  have hnone : ∀ e, refs s.started s.held e = 0 := by
    intro e
    rw [refs_eq_zero_iff]
    intro w hw
    have hexit := h.joined [] (by rw [hret]; rfl) w hw
    have hpc : (s.worker w).pc = .exited := hexit.resolve_left (by simp)
    simp [State.held, hpc, WorkerPc.held]
  rw [List.perm_iff_count]
  intro e
  rw [h.accounted e, hnone e, htasks]
  simp

theorem sound_init (n : ℕ) : Sound (init n) where
  accounted e := by
    have hnone : refs (init n).started (init n).held e = 0 := by
      rw [refs_eq_zero_iff]
      intro w _
      simp [State.held, init, WorkerPc.held]
    rw [hnone]
    rfl
  drained h := h.elim
  listed w hw := by simpa [init] using hw
  joined rest h := by cases h

section Steps

variable {s t : State} {a : Action} {w : ℕ}

/-- A worker takes the first task of the queue, calls the one that it holds, or neither. -/
theorem Sound.accounted_work (h : Sound s) (hw : w ∈ s.started) (hworks : Works s w t)
    (e : StartEntry) :
    t.accepted.count e = t.invoked.count e + refs t.started t.held e + t.tasks.count e := by
  have he := h.accounted e
  have hstep := Worker.step_held hworks.own
  have hmove := refs_update hw s.held (t.worker w).pc.held e
  have hself : s.held w = (s.worker w).pc.held := rfl
  rw [hworks.held, hworks.accepted, hworks.invoked, hworks.started, hworks.tasks]
  generalize (t.worker w).pc.held = after at hstep hmove ⊢
  rw [hself] at hmove
  cases hpc : (s.worker w).pc with
  | inspect =>
    simp only [hpc, ↓reduceIte] at hstep ⊢
    subst hstep
    simp only [hpc, WorkerPc.held, one_none] at hmove
    cases htasks : s.tasks with
    | nil =>
      simp only [htasks, List.head?_nil, one_none, List.count_nil, List.tail_nil] at he hmove ⊢
      omega
    | cons d rest =>
      simp only [htasks, List.head?_cons, List.count_cons, List.tail_cons, one,
        Option.some.injEq, beq_iff_eq] at he hmove ⊢
      omega
  | busy d =>
    simp only [hpc, reduceCtorEq, ↓reduceIte] at hstep ⊢
    subst hstep
    simp only [hpc, WorkerPc.held, one_none] at hmove
    simp only [one, Option.some.injEq, List.count_append, List.count_singleton,
      beq_iff_eq] at hmove ⊢
    omega
  | _ =>
    simp only [hpc, reduceCtorEq, ↓reduceIte] at hstep ⊢
    subst hstep
    rw [hpc] at hmove
    omega

theorem Sound.accounted_next (h : Sound s) (hstep : next s a = some t) (e : StartEntry) :
    t.accepted.count e = t.invoked.count e + refs t.started t.held e + t.tasks.count e := by
  have he := h.accounted e
  rcases next_cases hstep with ⟨-, d, woken, hadd⟩ | ⟨w, hw, -, hworks⟩ | ⟨-, hdestroy⟩ | haside
  · obtain ⟨htasks, haccepted, hinvoked, -, hstarted, -⟩ := addTask_cases hadd
    rw [held_changed (changed_addTask hadd), htasks, haccepted, hinvoked, hstarted,
      List.count_append, List.count_append]
    omega
  · exact h.accounted_work hw hworks e
  · obtain ⟨haccepted, hinvoked, -, hstarted, -, htasks⟩ := hdestroy.frame
    rw [held_changed hdestroy.changed, haccepted, hinvoked, hstarted]
    rcases htasks with htasks | ⟨hdtor, htasks⟩
    · rw [htasks]
      exact he
    · -- the queue was empty before it is cleared
      rw [htasks, ← h.drained (by rw [hdtor]; trivial)]
      exact he
  · rw [held_changed haside.changed, haside.accepted, haside.invoked, haside.started, haside.tasks]
    exact he

/-- A worker that sets the event may release the destructor from its wait. -/
theorem Sound.drained_work (h : Sound s) (hworks : Works s w t)
    (hG : LeavesWaitEmpty s (.work w)) (hpast : t.dtor.PastWait) : t.tasks = [] := by
  have htail : s.tasks = [] → t.tasks = [] := by
    intro hnil
    rw [hworks.tasks, hnil]
    split <;> rfl
  rw [hworks.dtor] at hpast
  split at hpast
  case isTrue hset =>
    by_cases hblocked : s.dtor = .waiting .blocked
    · exact htail (hG hset.1 hset.2 hblocked)
    · apply htail
      apply h.drained
      cases hdtor : s.dtor with
      | waiting pc =>
        cases pc <;> simp_all [DtorPc.notified, WaitPc.notified, DtorPc.PastWait]
      | _ => simpa [hdtor, DtorPc.notified] using hpast
  case isFalse => exact htail (h.drained hpast)

/-- Inside `wait` the destructor gets past it only with an empty queue. -/
theorem tasks_nil_of_wait (hG : LeavesWaitEmpty s .destroy) {pc pc' : WaitPc}
    (hdtor : s.dtor = .waiting pc) (hstep : s.waitStep pc = some pc')
    (hpast : DtorPc.PastWait (.waiting pc')) : s.tasks = [] := by
  cases pc with
  | entered =>
    obtain rfl := Option.some.inj hstep
    by_cases hnil : s.tasks = []
    · exact hnil
    · simp [hnil, DtorPc.PastWait] at hpast
  | waiting =>
    obtain rfl := Option.some.inj hstep
    by_cases hset : s.emptyEvent = true
    · exact hG.1 hdtor hset
    · simp [hset, DtorPc.PastWait] at hpast
  | sleepy =>
    obtain rfl := Option.some.inj hstep
    exact hpast.elim
  | blocked => exact hG.2 hdtor
  | idle | done => cases hstep

theorem Sound.drained_destroy (h : Sound s) (hG : LeavesWaitEmpty s .destroy)
    (hstep : Destroys s t) (hpast : t.dtor.PastWait) : t.tasks = [] := by
  cases hstep with
  | begin => exact hpast.elim
  | wait pc pc' hdtor hpc' =>
    have hnil : s.tasks = [] := tasks_nil_of_wait hG hdtor hpc' hpast
    exact hnil
  | clear => rfl
  | lock hdtor | stop w rest hdtor | broadcast hdtor | join w rest hdtor | joined hdtor =>
    exact h.drained (by rw [hdtor]; trivial)

theorem step_sound (h : Sound s) (hG : LeavesWaitEmpty s a) (hstep : next s a = some t) :
    Sound t := by
  constructor
  · exact h.accounted_next hstep
  · intro hpast
    rcases next_cases hstep with ⟨hidle, e, woken, hadd⟩ | ⟨w, hw, rfl, hworks⟩ |
      ⟨rfl, hdestroy⟩ | haside
    · obtain ⟨-, -, -, -, -, hdtor, -⟩ := addTask_cases hadd
      rw [hdtor, hidle] at hpast
      exact hpast.elim
    · exact h.drained_work hworks hG hpast
    · exact h.drained_destroy hG hdestroy hpast
    · rw [haside.tasks]
      exact h.drained (haside.dtor ▸ hpast)
  · obtain ⟨hworkers, hstarted⟩ := next_frame hstep
    rw [hworkers, hstarted]
    exact h.listed
  · have hjoined : JoinedAll s (· ∈ s.started) := h.joined
    rw [(next_frame hstep).2]
    exact hjoined.next h.listed hstep

end Steps

/-- No task is lost in a run whose destructor leaves its wait with an empty queue. -/
theorem noTaskLost_of_leavesWaitEmpty (n : ℕ) (as : List Action)
    (hG : StepsMeet next LeavesWaitEmpty (init n) as) :
    Throughout next NoTaskLost (init n) as :=
  (throughout_of_stepsMeet (fun _ _ _ h hG hstep => step_sound h hG hstep)
    (sound_init n) hG).mono fun _ h => h.noTaskLost

/-- One worker calls the only task, sleeps, and is stopped by the destructor. -/
def oneTaskTrace : List Action :=
  .addTask (.raw 1 2) none :: List.replicate 9 (.work 0) ++ List.replicate 5 .destroy ++
    [.work 0, .work 0, .destroy, .destroy, .destroy]

theorem noTaskLost_one_task :
    (run next (init 1) oneTaskTrace).map State.dtor = some .returned ∧
      Throughout next NoTaskLost (init 1) oneTaskTrace :=
  ⟨by decide, noTaskLost_of_leavesWaitEmpty 1 oneTaskTrace (by decide)⟩

/-- The worker has seen the empty queue when a task is added, sets the event
afterwards, and the destructor takes that for the end of all work. -/
def staleSetTrace : List Action :=
  [.work 0, .work 0, .addTask (.raw 1 2) none, .work 0, .work 0] ++ List.replicate 6 .destroy ++
    [.work 0, .work 0, .destroy, .destroy, .destroy]

theorem task_lost :
    ¬ ∀ (n : ℕ) (as : List Action), Throughout next NoTaskLost (init n) as := by
  intro h
  have hlast : (run next (init 1) staleSetTrace).map
      (fun s => (s.dtor, s.invoked, s.accepted)) = some (.returned, [], [.raw 1 2]) := by
    decide
  obtain ⟨s, hs, hfinal⟩ := Option.map_eq_some_iff.mp hlast
  simp only [Prod.mk.injEq] at hfinal
  obtain ⟨hdtor, hinvoked, haccepted⟩ := hfinal
  have hperm := (h 1 staleSetTrace).final hs hdtor
  rw [hinvoked, haccepted] at hperm
  exact absurd hperm.length_eq (by decide)

end BoxUtils.ThreadPool
