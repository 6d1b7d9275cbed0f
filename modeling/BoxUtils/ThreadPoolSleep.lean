import BoxUtils.ThreadPoolSteps

/-!
Sleeping workers of a thread pool. `notify_one` reaches only a worker that is
blocked already, and a worker that has seen the empty queue blocks later without
looking at it again. A task that is queued in between wakes nobody.
-/
namespace BoxUtils.ThreadPool

open Runs

/-- It does not happen that a task is queued while every worker is blocked. -/
def NoLostWakeUp (s : State) : Prop :=
  ¬ (s.tasks ≠ [] ∧ ∀ w ∈ s.started, (s.worker w).pc = .blocked)

/-- Some worker is not blocked. -/
def Awake (s : State) : Prop := ∃ w ∈ s.started, (s.worker w).pc ≠ .blocked

/-- A worker that is about to block does so only with an empty queue, or while another
worker is not blocked. -/
def BlocksInCompany (s : State) : Action → Prop
  | .work w => (s.worker w).pc = .sleepy → s.tasks ≠ [] →
      ∃ v ∈ s.started, v ≠ w ∧ (s.worker v).pc ≠ .blocked
  | _ => True

section Steps

variable {s t : State} {a : Action}

theorem noLostWakeUp_iff_awake : NoLostWakeUp s ↔ (s.tasks ≠ [] → Awake s) := by
  unfold NoLostWakeUp Awake
  push Not
  rfl

theorem Awake.changed (h : Awake s) (hstarted : t.started = s.started)
    (hchanged : ∀ v, (s.worker v).Changed (t.worker v)) : Awake t := by
  obtain ⟨v, hv, hpc⟩ := h
  refine ⟨v, hstarted ▸ hv, fun hblocked => ?_⟩
  exact hpc ((hchanged v).blocked hblocked)

/-- Adding a task to an empty queue wakes a worker if all are blocked. -/
theorem awake_addTask {e : StartEntry} {woken : Option ℕ} (hsome : s.started.Nonempty)
    (hs : NoLostWakeUp s) (h : s.addTask e woken = some t) : Awake t := by
  obtain ⟨-, -, -, -, hstarted, -, -, hworker⟩ := addTask_cases h
  rcases hworker with ⟨-, hcan, hworker⟩ | ⟨hne, hworker⟩
  · cases woken with
    | none =>
      obtain ⟨w, hw⟩ := hsome
      refine ⟨w, hstarted ▸ hw, ?_⟩
      rw [hworker]
      exact hcan w hw
    | some w =>
      refine ⟨w, hstarted ▸ hcan.1, ?_⟩
      rw [hworker]
      simp [State.notifyOne, State.moveWorker, State.setWorker]
  · have hawake := noLostWakeUp_iff_awake.mp hs hne
    exact hawake.changed hstarted (changed_addTask h)

/-- A step of a worker lets the queue and the sleep of all workers meet only if it is
the one that blocks last. -/
theorem noLostWakeUp_work_iff {w : ℕ} (hw : w ∈ s.started) (h : Works s w t) :
    NoLostWakeUp t ↔ BlocksInCompany s (.work w) := by
  rw [noLostWakeUp_iff_awake]
  have hown := h.own
  by_cases hsleepy : (s.worker w).pc = .sleepy
  · have htasks : t.tasks = s.tasks := by
      rw [h.tasks, if_neg (by simp [hsleepy])]
    have hblocked : (t.worker w).pc = .blocked := by
      simp only [Worker.step, hsleepy, Option.some.injEq] at hown
      rw [← hown]
    unfold BlocksInCompany Awake
    rw [htasks, h.started]
    constructor
    · intro hawake _ hne
      obtain ⟨v, hv, hpc⟩ := hawake hne
      have hvw : v ≠ w := by
        intro heq
        subst heq
        exact hpc hblocked
      exact ⟨v, hv, hvw, by rwa [h.others v hvw] at hpc⟩
    · intro hcompany hne
      obtain ⟨v, hv, hvw, hpc⟩ := hcompany hsleepy hne
      exact ⟨v, hv, by rwa [h.others v hvw]⟩
  · refine iff_of_true (fun _ => ⟨w, h.started ▸ hw, fun hblocked => ?_⟩) fun hpc => ?_
    · exact hsleepy (Worker.step_blocked hown hblocked)
    · exact absurd hpc hsleepy

/-- The other steps wake workers, or leave them and the queue as they are. -/
theorem noLostWakeUp_other (hsome : s.started.Nonempty) (hs : NoLostWakeUp s)
    (h : next s a = some t) (ha : ∀ w, a ≠ .work w) : NoLostWakeUp t := by
  rw [noLostWakeUp_iff_awake] at hs ⊢
  rcases next_cases h with ⟨-, e, woken, hadd⟩ | ⟨w, -, rfl, -⟩ | ⟨-, hdestroy⟩ | haside
  · exact fun _ => awake_addTask hsome (noLostWakeUp_iff_awake.mpr hs) hadd
  · exact absurd rfl (ha w)
  · obtain ⟨-, -, -, hstarted, -, htasks⟩ := hdestroy.frame
    intro hne
    have hawake : Awake s := by
      apply hs
      rcases htasks with htasks | ⟨-, htasks⟩
      · rwa [htasks] at hne
      · exact absurd htasks hne
    exact hawake.changed hstarted hdestroy.changed
  · intro hne
    exact (hs (haside.tasks ▸ hne)).changed haside.started haside.changed

theorem noLostWakeUp_next_iff (hsome : s.started.Nonempty) (hs : NoLostWakeUp s)
    (h : next s a = some t) : NoLostWakeUp t ↔ BlocksInCompany s a := by
  cases a with
  | work w =>
    obtain ⟨hw, h⟩ := Option.ite_none_right_eq_some.mp h
    exact noLostWakeUp_work_iff hw (works_of_work h)
  | _ =>
    refine iff_of_true (noLostWakeUp_other hsome hs h fun w hw => ?_) trivial
    cases hw

end Steps

/-- No wake-up is lost in a run if and only if no worker is the last to block while a
task is queued. -/
theorem noLostWakeUp_iff {n : ℕ} (hn : 0 < n) (as : List Action) :
    Throughout next NoLostWakeUp (init n) as ↔
      StepsMeet next BlocksInCompany (init n) as := by
  have hinit : (init n).started.Nonempty ∧ NoLostWakeUp (init n) := by
    refine ⟨⟨0, Finset.mem_range.mpr hn⟩, fun hlost => ?_⟩
    exact hlost.1 rfl
  apply throughout_iff_stepsMeet (I := fun s => s.started.Nonempty ∧ NoLostWakeUp s)
    _ _ _ hinit
  · intro s a t hs hmeets h
    exact ⟨(next_frame h).2 ▸ hs.1, (noLostWakeUp_next_iff hs.1 hs.2 h).mpr hmeets⟩
  · intro s hs
    exact hs.2
  · intro s a t hs h hnot hawake
    exact hnot ((noLostWakeUp_next_iff hs.1 hs.2 h).mp hawake)

/-- One worker and one task, whatever they do. -/
theorem noLostWakeUp_one_worker :
    Throughout next NoLostWakeUp (init 1) [.addTask (.raw 1 2) none, .work 0, .work 0] ↔
      StepsMeet next BlocksInCompany (init 1) [.addTask (.raw 1 2) none, .work 0, .work 0] :=
  noLostWakeUp_iff (by decide) _

/-- The only worker sees the empty queue, a task is added, and the worker blocks. -/
def missedTrace : List Action :=
  [.work 0, .work 0, .addTask (.raw 1 2) none, .work 0, .work 0]

theorem wake_up_lost :
    ¬ ∀ n, 0 < n → ∀ as, Throughout next NoLostWakeUp (init n) as := by
  intro h
  have hlast : ∃ s, run next (init 1) missedTrace = some s ∧ s.tasks ≠ [] ∧
      ∀ w ∈ s.started, (s.worker w).pc = .blocked :=
    ⟨_, rfl, by decide, by decide⟩
  obtain ⟨s, hs, hlost⟩ := hlast
  exact (h 1 (by decide) missedTrace).final hs hlost

end BoxUtils.ThreadPool
