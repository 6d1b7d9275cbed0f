import BoxUtils.Timer

/-!
How long the timer thread sleeps after a pass. The variable `sleep_ms` lives as long as
the thread and starts at zero. The pass writes to it only where it is not zero or where the
time that is left of a timer is less, and the time that is left of a timer is positive there.
-/
namespace BoxUtils.Timer

open Runs

/-- After a pass that leaves a timer, the thread sleeps for the least time that is left. -/
def SleepsUntilNext (s : State) : Action → Prop
  | .pass now now' call =>
    let t := s.pass now now' call
    t.timers ≠ [] → (t.timers.map TimerData.ms).min? = some t.sleepMs
  | _ => True

/-- The pass finds the time of every timer over, and no callback asks to be called again. -/
def EmptiesList (s : State) : Action → Prop
  | .pass now _ call => ∀ timer ∈ s.timers,
    timer.ms - (now - s.timep) ≤ 0 ∧ (call timer.node).returned = 0
  | _ => True

section Pass

variable {durMs : ℤ} {call : ℕ → Call} {timers : List TimerData}

/-- A visit to a timer whose time is over. -/
theorem visit_over {timer : TimerData} {sleepMs ms : ℤ} (hdue : timer.ms - durMs ≤ 0)
    (hms : (if timer.callback ≠ none then (call timer.node).returned else timer.ms) = ms) :
    visit durMs call timer sleepMs =
      (if ms = 0 then none else some { timer with ms := ms }, sleepMs) := by
  simp only [visit, if_pos hdue, hms]
  by_cases hzero : ms = 0
  · rw [if_pos hzero, if_pos hzero]
  · rw [if_neg hzero, if_neg hzero]

/-- A visit to a timer that has time left. -/
theorem visit_waits {timer : TimerData} {sleepMs : ℤ} (hdue : ¬ timer.ms - durMs ≤ 0) :
    visit durMs call timer sleepMs = (some { timer with ms := timer.ms - durMs },
      if timer.ms - durMs < sleepMs ∨ sleepMs ≠ 0 then timer.ms - durMs else sleepMs) :=
  if_neg hdue

/-- A visit leaves a `sleep_ms` of zero as it is. -/
theorem visit_sleepMs (timer : TimerData) : (visit durMs call timer 0).2 = 0 := by
  by_cases hdue : timer.ms - durMs ≤ 0
  · rw [visit_over hdue rfl]
  · have hnot : ¬ (timer.ms - durMs < 0 ∨ (0 : ℤ) ≠ 0) := by omega
    rw [visit_waits hdue]
    exact if_neg hnot

theorem visitAll_sleepMs : (visitAll durMs call timers 0).2 = 0 := by
  induction timers with
  | nil => rfl
  | cons timer rest ih => simpa only [visitAll, visit_sleepMs timer] using ih

/-- What a visit keeps has time left. -/
theorem visit_ms_ne_zero {timer kept : TimerData} {sleepMs : ℤ}
    (h : (visit durMs call timer sleepMs).1 = some kept) : kept.ms ≠ 0 := by
  by_cases hdue : timer.ms - durMs ≤ 0
  · rw [visit_over hdue rfl] at h
    obtain ⟨hzero, h⟩ := Option.ite_none_left_eq_some.mp h
    obtain rfl := Option.some.inj h
    exact hzero
  · rw [visit_waits hdue] at h
    obtain rfl := Option.some.inj h
    exact fun hzero => hdue (Int.le_of_eq hzero)

theorem visitAll_ms_ne_zero {sleepMs : ℤ} {kept : TimerData}
    (h : kept ∈ (visitAll durMs call timers sleepMs).1) : kept.ms ≠ 0 := by
  induction timers generalizing sleepMs with
  | nil => cases h
  | cons timer rest ih =>
    simp only [visitAll, List.mem_append, Option.mem_toList] at h
    rcases h with h | h
    · exact visit_ms_ne_zero h
    · exact ih h

/-- A timer with a callback goes when its time is over and its callback returns zero. -/
theorem visit_eq_none_iff {timer : TimerData} {sleepMs : ℤ} (hcallback : timer.callback ≠ none) :
    (visit durMs call timer sleepMs).1 = none ↔
      timer.ms - durMs ≤ 0 ∧ (call timer.node).returned = 0 := by
  by_cases hdue : timer.ms - durMs ≤ 0
  · rw [visit_over hdue (if_pos hcallback)]
    simp [hdue]
  · rw [visit_waits hdue]
    simp [hdue]

theorem visitAll_eq_nil_iff {sleepMs : ℤ} (hcallback : ∀ timer ∈ timers, timer.callback ≠ none) :
    (visitAll durMs call timers sleepMs).1 = [] ↔
      ∀ timer ∈ timers, timer.ms - durMs ≤ 0 ∧ (call timer.node).returned = 0 := by
  induction timers generalizing sleepMs with
  | nil => simp [visitAll]
  | cons timer rest ih =>
    have hrest := @ih (visit durMs call timer sleepMs).2
      fun t ht => hcallback t (List.mem_cons_of_mem timer ht)
    have hnone : (visit durMs call timer sleepMs).1.toList = [] ↔
        (visit durMs call timer sleepMs).1 = none := Option.toList_eq_nil_iff
    simp only [visitAll, List.append_eq_nil_iff, hnone, hrest, List.forall_mem_cons]
    rw [visit_eq_none_iff (hcallback timer List.mem_cons_self)]

end Pass

/-- Every timer of the list has a callback, and `sleep_ms` is still zero. -/
structure Sleepless (s : State) : Prop where
  callbacks : ∀ timer ∈ s.timers, timer.callback ≠ none
  sleepMs : s.sleepMs = 0

section Steps

variable {s t : State} {a : Action}

theorem sleepless_init (start : ℤ) : Sleepless (init start) :=
  ⟨fun _ htimer => absurd htimer List.not_mem_nil, rfl⟩

theorem Sleepless.pass (h : Sleepless s) (now now' : ℤ) (call : ℕ → Call) :
    Sleepless (s.pass now now' call) := by
  unfold State.pass
  split
  · exact h
  · refine ⟨fun timer htimer => ?_, ?_⟩
    · obtain ⟨old, hold, ms, rfl, -⟩ := visitAll_mem htimer
      exact h.callbacks old hold
    · have hzero : (visitAll (now - s.timep) call s.timers s.sleepMs).2 = 0 := by
        rw [h.sleepMs]
        exact visitAll_sleepMs
      exact hzero

theorem Sleepless.next (h : Sleepless s) (hstep : next s a = some t) : Sleepless t := by
  cases a with
  | create time node ms callback param =>
    obtain ⟨-, rfl⟩ := next_cases hstep
    refine ⟨fun timer htimer => ?_, h.sleepMs⟩
    simp only [State.create, Timer.create] at htimer
    split at htimer
    · exact h.callbacks timer htimer
    · rename_i hcallback
      rcases List.mem_cons.mp htimer with rfl | hold
      · exact hcallback
      · exact h.callbacks timer hold
  | pass now now' call =>
    have ht : t = s.pass now now' call := next_cases hstep
    rw [ht]
    exact h.pass now now' call
  | delete k =>
    obtain ⟨id, -, rfl⟩ := next_cases hstep
    exact ⟨fun timer htimer => h.callbacks timer ((delete_sublist id).subset htimer), h.sleepMs⟩

/-- The thread is told to sleep for no time at all after every pass of every run. -/
theorem sleepMs_eq_zero {start : ℤ} {as : List Action} (hrun : run next (init start) as = some t) :
    t.sleepMs = 0 :=
  (run_keeps (fun _ _ _ h hstep => h.next hstep) (sleepless_init start) hrun).sleepMs

/-- A pass leaves no timer exactly when it empties the list. -/
theorem Sleepless.pass_eq_nil_iff (h : Sleepless s) {now now' : ℤ} {call : ℕ → Call} :
    (s.pass now now' call).timers = [] ↔ EmptiesList s (.pass now now' call) := by
  by_cases hempty : s.timers = []
  · simp [State.pass, EmptiesList, hempty]
  · simp only [State.pass, if_neg hempty]
    exact visitAll_eq_nil_iff h.callbacks

/-- No timer has zero as the time that is left of it, so none is left where the thread
sleeps long enough. -/
theorem Sleepless.sleeps_iff (h : Sleepless s) : SleepsUntilNext s a ↔ EmptiesList s a := by
  cases a with
  | create time node ms callback param | delete k => exact Iff.rfl
  | pass now now' call =>
    rw [← h.pass_eq_nil_iff]
    constructor
    · intro hsleeps
      by_contra hleft
      have hmin := hsleeps hleft
      rw [(h.pass now now' call).sleepMs] at hmin
      obtain ⟨timer, htimer, hzero⟩ := List.mem_map.mp (List.min?_mem hmin)
      rw [State.pass] at htimer
      split at htimer
      · rename_i hempty
        rw [hempty] at htimer
        cases htimer
      · exact visitAll_ms_ne_zero htimer hzero
    · exact fun hnil hleft => absurd hnil hleft

end Steps

/-- The thread sleeps until the next timer after every pass if and only if every pass
empties the list. -/
theorem sleepsUntilNext_iff (start : ℤ) (as : List Action) :
    StepsMeet next SleepsUntilNext (init start) as ↔
      StepsMeet next EmptiesList (init start) as :=
  stepsMeet_iff_stepsMeet (fun _ _ _ h _ hstep => h.next hstep)
    (fun _ _ _ h _ => h.sleeps_iff) (sleepless_init start)

/-- A timer of a second has most of it left at the first pass, and the thread does not sleep. -/
theorem spins : ¬ ∀ (start : ℤ) (as : List Action),
    StepsMeet next SleepsUntilNext (init start) as := by
  intro h
  let call : ℕ → Call := fun _ => ⟨100, 0⟩
  let created : State := ⟨[⟨0, some 0, 1000000, none, 0⟩], [some 0], 0, 0, 0⟩
  let passed : State := ⟨[⟨0, some 0, 999900, none, 0⟩], [some 0], 100, 0, 100⟩
  have hcreate : next (init 0) (.create 0 0 1000000 (some 0) 0) = some created := rfl
  have hpass : next created (.pass 100 100 call) = some passed := rfl
  have hmeets := h 0 [.create 0 0 1000000 (some 0) 0, .pass 100 100 call]
  have hsleeps := ((hmeets created hcreate).2 passed hpass).1
  have hmin : [(999900 : ℤ)].min? = some 0 := hsleeps (List.cons_ne_nil _ _)
  exact absurd hmin (by decide)

end BoxUtils.Timer
