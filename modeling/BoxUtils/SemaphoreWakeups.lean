import BoxUtils.SemaphoreLocks

/-!
Whether the semaphore wakes the threads that sleep in `wait`. Only a post that finds the
counter at zero notifies, and it reaches only those that sleep by then. Beside the state
stands which threads are inside `post()`, from the call to the unlock at its end.
-/
namespace BoxUtils.Semaphore

open Runs Function

/-- The places from where a post comes to its `notify_all`. -/
def Pc.Due : Pc → Prop
  | .incrementing true | .adding _ true | .notifying => True
  | _ => False

/-- A post is on its way to notify the sleeping threads. -/
def NotifyDue (s : State) : Prop := ∃ t, (s.pc t).Due

/-- Whoever sleeps in `wait` while there are counts is about to be notified. -/
def SleepersNotified (s : State) : Prop :=
  ∀ t, s.pc t = .blocked .wait → s.semValue ≠ 0 → NotifyDue s

/-- A thread goes to sleep, and the counter leaves zero without a notification to follow,
only while nobody is thereby left asleep without a post on its way to notify it. -/
def LeavesNoSleeper (s : State) : Action → Prop
  | .block t => s.pc t = .sleepy .wait → s.semValue ≠ 0 → NotifyDue s
  | .increment t => ∀ loaded, s.pc t = .adding loaded false → s.semValue = 0 → loaded + 1 ≠ 0 →
    ∀ u, s.pc u = .blocked .wait → NotifyDue s
  | .decrement t => ∀ loaded locked, s.pc t = .taking loaded locked → s.semValue = 0 →
    loaded - 1 ≠ 0 → ∀ u, s.pc u = .blocked .wait → NotifyDue s
  | _ => True

section Steps

variable {s u : State} {t : ℕ} {a : Action}

@[simp] theorem move_pc (pc : Pc) : (s.move t pc).pc = update s.pc t pc := rfl

@[simp] theorem move_semValue (pc : Pc) : (s.move t pc).semValue = s.semValue := rfl

/-- A thread that was not on its way to notify moves, and the one that is stays. -/
theorem NotifyDue.move (h : NotifyDue s) (ht : ¬ (s.pc t).Due) (pc : Pc) :
    NotifyDue (s.move t pc) := by
  obtain ⟨v, hv⟩ := h
  have hvt : v ≠ t := by
    rintro rfl
    exact ht hv
  exact ⟨v, by rwa [move_pc, update_of_ne hvt]⟩

/-- Nor does such a move bring anybody on the way to notify, except to a place there. -/
theorem NotifyDue.of_move {pc : Pc} (h : NotifyDue (s.move t pc)) (hpc : ¬ pc.Due) :
    NotifyDue s := by
  obtain ⟨v, hv⟩ := h
  by_cases hvt : v = t
  · subst v
    rw [move_pc, update_self] at hv
    exact absurd hv hpc
  · rw [move_pc, update_of_ne hvt] at hv
    exact ⟨v, hv⟩

theorem blocked_of_move {v : ℕ} {pc : Pc} (h : (s.move t pc).pc v = .blocked .wait)
    (hpc : pc ≠ .blocked .wait) : s.pc v = .blocked .wait := by
  by_cases hvt : v = t
  · subst v
    rw [move_pc, update_self] at h
    exact absurd h hpc
  · rwa [move_pc, update_of_ne hvt] at h

/-- A thread that does not notify moves to a place where it does not sleep. -/
theorem SleepersNotified.move (h : SleepersNotified s) {pc : Pc} (ht : ¬ (s.pc t).Due)
    (hpc : pc ≠ .blocked .wait) : SleepersNotified (s.move t pc) :=
  fun v hv hcount => (h v (blocked_of_move hv hpc) hcount).move ht pc

/-- So it may when it stores a count, if nobody sleeps who is not notified. -/
theorem SleepersNotified.count (h : SleepersNotified s) {p : Pc} (ht : ¬ (s.pc t).Due)
    (hp : p ≠ .blocked .wait) {stored : UInt32}
    (hzero : s.semValue = 0 → stored ≠ 0 → ∀ v, s.pc v = .blocked .wait → NotifyDue s) {v : ℕ}
    (hv : (s.move t p).pc v = .blocked .wait) (hstored : stored ≠ 0) :
    NotifyDue (s.move t p) := by
  have hblocked := blocked_of_move hv hp
  by_cases hcount : s.semValue = 0
  · exact (hzero hcount hstored v hblocked).move ht p
  · exact (h v hblocked hcount).move ht p

theorem not_blocked_notified (pc : Pc) : pc.notified ≠ .blocked .wait := by
  cases pc <;> simp [Pc.notified]

theorem SleepersNotified.next (h : SleepersNotified s) (hG : LeavesNoSleeper s a)
    (hstep : next s a = some u) : SleepersNotified u := by
  cases a with
  | lockPost t | lockWait t kind =>
    obtain ⟨ht, -, rfl⟩ := next_cases hstep
    exact h.move (by rw [ht]; exact id) (by simp)
  | testPost t | unlock t =>
    obtain ⟨ht, rfl⟩ := next_cases hstep
    exact h.move (by rw [ht]; exact id) (by simp)
  | release t | wake t | resume t =>
    obtain ⟨kind, ht, rfl⟩ := next_cases hstep
    exact h.move (by rw [ht]; exact id) (by simp)
  | timeout t =>
    obtain ⟨ht, rfl⟩ := next_cases hstep
    refine h.move ?_ (by simp)
    rcases ht with ht | ht <;> rw [ht] <;> exact id
  | testWait t =>
    obtain ⟨kind, pc, ht, rfl, hpc⟩ := next_cases hstep
    refine h.move (by rw [ht]; exact id) ?_
    rcases hpc with ⟨-, rfl | rfl⟩ | ⟨-, rfl⟩ <;> simp
  | notify t =>
    obtain ⟨ht, rfl⟩ := next_cases hstep
    intro v hv
    by_cases hvt : v = t
    · subst v
      simp at hv
    · have hnotified : (s.pc v).notified = .blocked .wait := by simpa [hvt] using hv
      exact absurd hnotified (not_blocked_notified (s.pc v))
  | block t =>
    obtain ⟨kind, ht, rfl⟩ := next_cases hstep
    have hnot : ¬ (s.pc t).Due := by rw [ht]; exact id
    intro v hv hcount
    by_cases hvt : v = t
    · subst v
      rw [move_pc, update_self] at hv
      obtain rfl : kind = .wait := by simpa using hv
      exact (hG ht hcount).move hnot _
    · rw [move_pc, update_of_ne hvt] at hv
      exact (h v hv hcount).move hnot _
  | load t =>
    rcases next_cases hstep with ⟨wasZero, ht, rfl⟩ | ⟨locked, ht, rfl⟩
    · intro v hv hcount
      have hdue := h v (blocked_of_move hv (by simp)) hcount
      cases wasZero with
      | true => exact ⟨t, by rw [move_pc, update_self]; trivial⟩
      | false => exact hdue.move (by rw [ht]; exact id) _
    · exact h.move (by rw [ht]; exact id) (by simp)
  | increment t =>
    obtain ⟨loaded, wasZero, ht, rfl⟩ := next_cases hstep
    cases wasZero with
    | true => exact fun v _ _ => ⟨t, by rw [move_pc, update_self]; trivial⟩
    | false =>
      exact fun v hv hstored =>
        h.count (p := .unlocking) (by rw [ht]; exact id) (by simp) (hG loaded ht) hv hstored
  | decrement t =>
    obtain ⟨loaded, locked, ht, rfl⟩ := next_cases hstep
    exact fun v hv hstored =>
      h.count (p := .unlocking) (by rw [ht]; exact id) (by simp) (hG loaded locked ht) hv hstored

/-- Moving a thread elsewhere leaves those asleep that nobody notifies. -/
theorem not_sleepersNotified_of_move {v : ℕ} {p : Pc} (hv : (s.move t p).pc v = .blocked .wait)
    (hp : ¬ p.Due) (hnot : ¬ NotifyDue s) (hpcs : u.pc = (s.move t p).pc)
    (hcount : u.semValue ≠ 0) : ¬ SleepersNotified u := by
  intro h
  obtain ⟨w, hw⟩ := h v (by rwa [hpcs]) hcount
  rw [hpcs] at hw
  exact hnot (NotifyDue.of_move ⟨w, hw⟩ hp)

/-- A step outside the condition at once leaves a thread asleep. -/
theorem leaves_sleeper (hstep : next s a = some u) (hG : ¬ LeavesNoSleeper s a) :
    ¬ SleepersNotified u := by
  cases a with
  | block t =>
    obtain ⟨kind, ht, rfl⟩ := next_cases hstep
    simp only [LeavesNoSleeper, Classical.not_imp] at hG
    obtain ⟨hwait, hcount, hnot⟩ := hG
    obtain rfl : kind = .wait := by simpa [ht] using hwait
    exact not_sleepersNotified_of_move (by simp : (s.move t _).pc t = _) id hnot rfl hcount
  | increment t =>
    obtain ⟨loaded, wasZero, ht, rfl⟩ := next_cases hstep
    simp only [LeavesNoSleeper, Classical.not_imp, not_forall] at hG
    obtain ⟨loaded', hpc, -, hstored, v, hv, hnot⟩ := hG
    obtain ⟨rfl, rfl⟩ := Pc.adding.inj (ht.symm.trans hpc)
    have hvt : v ≠ t := by
      rintro rfl
      simp [hv] at ht
    refine not_sleepersNotified_of_move (v := v) (p := .unlocking) ?_ id hnot rfl hstored
    rwa [move_pc, update_of_ne hvt]
  | decrement t =>
    obtain ⟨loaded, locked, ht, rfl⟩ := next_cases hstep
    simp only [LeavesNoSleeper, Classical.not_imp, not_forall] at hG
    obtain ⟨loaded', locked', hpc, -, hstored, v, hv, hnot⟩ := hG
    obtain ⟨rfl, rfl⟩ := Pc.taking.inj (ht.symm.trans hpc)
    have hvt : v ≠ t := by
      rintro rfl
      simp [hv] at ht
    refine not_sleepersNotified_of_move (v := v) (p := .unlocking) ?_ id hnot rfl hstored
    rwa [move_pc, update_of_ne hvt]
  | _ => exact absurd trivial hG

theorem sleepersNotified_init (n : UInt32) : SleepersNotified (init n) := fun _ ht => by cases ht

/-- A run keeps every sleeping thread in the way of a notification, as long as there are
counts, exactly when no step leaves one asleep. -/
theorem sleepersNotified_iff (n : UInt32) (as : List Action) :
    Throughout next SleepersNotified (init n) as ↔ StepsMeet next LeavesNoSleeper (init n) as :=
  throughout_iff_stepsMeet (fun _ _ _ h hG hstep => SleepersNotified.next h hG hstep)
    (fun _ h => h) (fun _ _ _ _ hstep hG => leaves_sleeper hstep hG) (sleepersNotified_init n)

end Steps

section Posts

/-- The places inside `post()` where a post can still notify, and those before them. -/
def Pc.Posts : Pc → Prop
  | .posting | .incrementing _ | .adding _ _ | .notifying => True
  | _ => False

structure Watched where
  state : State
  /-- The threads that are inside `post()`. -/
  posting : ℕ → Bool

def Watched.init (n : UInt32) : Watched := ⟨Semaphore.init n, fun _ => false⟩

inductive Watched.Action
  | callPost (t : ℕ)
  | step (a : Semaphore.Action)

/-- A thread that has called `post()` locks the mutex for it, and for nothing else. -/
def Watched.Called (w : Watched) : Semaphore.Action → Prop
  | .lockPost t => w.posting t = true
  | .lockWait t _ => w.posting t = false
  | _ => True

instance (w : Watched) : ∀ a, Decidable (w.Called a)
  | .lockPost t => inferInstanceAs (Decidable (w.posting t = true))
  | .lockWait t _ => inferInstanceAs (Decidable (w.posting t = false))
  | .testPost _ | .load _ | .increment _ | .notify _ | .testWait _ | .release _ | .block _ | .wake _
  | .timeout _ | .resume _ | .decrement _ | .unlock _ => isTrue trivial

/-- The unlock at its end takes a thread out of `post()`. -/
def postingAfter (posting : ℕ → Bool) : Semaphore.Action → ℕ → Bool
  | .unlock t => update posting t false
  | _ => posting

def Watched.next (w : Watched) : Watched.Action → Option Watched
  | .callPost t =>
    if w.state.pc t = .idle ∧ w.posting t = false then
      some { w with posting := update w.posting t true }
    else none
  | .step a =>
    if w.Called a then
      (Semaphore.next w.state a).map fun s => ⟨s, postingAfter w.posting a⟩
    else none

/-- No thread sleeps in `wait` while there are counts and no post is in progress. -/
def NoneLeftAsleep (w : Watched) : Prop :=
  ∀ t, w.state.pc t = .blocked .wait → w.state.semValue ≠ 0 → ∃ u, w.posting u = true

def StepLeavesNoSleeper (w : Watched) : Watched.Action → Prop
  | .step a => LeavesNoSleeper w.state a
  | .callPost _ => True

/-- A thread gets to those places by locking the mutex for a post only. -/
theorem posts_of_next {s u : State} {a : Action} {v : ℕ} (hstep : next s a = some u)
    (h : (u.pc v).Posts) : (s.pc v).Posts ∨ a = .lockPost v := by
  have hmove : ∀ {t : ℕ} {pc : Pc}, ((s.move t pc).pc v).Posts →
      (pc.Posts → (s.pc t).Posts ∨ a = .lockPost t) → (s.pc v).Posts ∨ a = .lockPost v := by
    intro t pc hv hpc
    by_cases hvt : v = t
    · subst v
      rw [move_pc, update_self] at hv
      exact hpc hv
    · rw [move_pc, update_of_ne hvt] at hv
      exact Or.inl hv
  cases a with
  | lockPost t =>
    obtain ⟨-, -, rfl⟩ := next_cases hstep
    exact hmove h fun _ => Or.inr rfl
  | lockWait t kind =>
    obtain ⟨-, -, rfl⟩ := next_cases hstep
    exact hmove h fun hpc => absurd hpc id
  | testPost t =>
    obtain ⟨ht, rfl⟩ := next_cases hstep
    exact hmove h fun _ => Or.inl (by rw [ht]; trivial)
  | unlock t =>
    obtain ⟨ht, rfl⟩ := next_cases hstep
    exact hmove h fun hpc => absurd hpc id
  | load t =>
    rcases next_cases hstep with ⟨wasZero, ht, rfl⟩ | ⟨locked, ht, rfl⟩
    · exact hmove h fun _ => Or.inl (by rw [ht]; trivial)
    · exact hmove h fun hpc => absurd hpc id
  | increment t =>
    obtain ⟨loaded, wasZero, ht, rfl⟩ := next_cases hstep
    exact hmove h fun _ => Or.inl (by rw [ht]; trivial)
  | notify t =>
    obtain ⟨ht, rfl⟩ := next_cases hstep
    by_cases hvt : v = t
    · subst v
      exact Or.inl (by rw [ht]; trivial)
    · have hnotified : (s.pc v).notified.Posts := by simpa [hvt] using h
      cases hpc : s.pc v <;> rw [hpc] at hnotified <;>
        first | exact Or.inl trivial | cases hnotified
  | testWait t =>
    obtain ⟨kind, pc, ht, rfl, hpc⟩ := next_cases hstep
    refine hmove h fun hposts => absurd hposts ?_
    rcases hpc with ⟨-, rfl | rfl⟩ | ⟨-, rfl⟩ <;> exact id
  | timeout t =>
    obtain ⟨-, rfl⟩ := next_cases hstep
    exact hmove h fun hpc => absurd hpc id
  | release t | block t | wake t | resume t =>
    obtain ⟨kind, -, rfl⟩ := next_cases hstep
    exact hmove h fun hpc => absurd hpc id
  | decrement t =>
    obtain ⟨loaded, locked, -, rfl⟩ := next_cases hstep
    exact hmove h fun hpc => absurd hpc id

/-- Who notifies is inside `post()`. -/
structure Attended (w : Watched) : Prop where
  notified : SleepersNotified w.state
  posts : ∀ t, (w.state.pc t).Posts → w.posting t = true

variable {w v : Watched}

theorem Attended.noneLeftAsleep (h : Attended w) : NoneLeftAsleep w := by
  intro t ht hcount
  obtain ⟨u, hu⟩ := h.notified t ht hcount
  refine ⟨u, h.posts u ?_⟩
  cases hpc : w.state.pc u <;> rw [hpc] at hu <;> trivial

theorem Attended.next {a : Watched.Action} (h : Attended w) (hG : StepLeavesNoSleeper w a)
    (hstep : w.next a = some v) : Attended v := by
  cases a with
  | callPost t =>
    obtain ⟨-, hstep⟩ := Option.ite_none_right_eq_some.mp hstep
    obtain rfl := Option.some.inj hstep
    refine ⟨h.notified, fun u hu => ?_⟩
    by_cases hut : u = t
    · rw [hut]
      exact update_self ..
    · exact (update_of_ne hut ..).trans (h.posts u hu)
  | step a =>
    obtain ⟨hcalled, hstep⟩ := Option.ite_none_right_eq_some.mp hstep
    obtain ⟨s, hs, rfl⟩ := Option.map_eq_some_iff.mp hstep
    refine ⟨h.notified.next hG hs, fun u hu => ?_⟩
    have hposting : w.posting u = true := by
      rcases posts_of_next hs hu with hposts | rfl
      · exact h.posts u hposts
      · exact hcalled
    cases a with
    | unlock t =>
      obtain ⟨-, rfl⟩ := next_cases hs
      have hut : u ≠ t := by
        rintro rfl
        rw [move_pc, update_self] at hu
        exact hu
      exact (update_of_ne hut ..).trans hposting
    | _ => exact hposting

theorem attended_init (n : UInt32) : Attended (Watched.init n) :=
  ⟨sleepersNotified_init n, fun _ ht => absurd ht id⟩

/-- In a run whose steps leave no sleeping thread behind, none sleeps in `wait` while there
are counts and no post is in progress. -/
theorem noneLeftAsleep_of_stepsMeet (n : UInt32) (as : List Watched.Action)
    (h : StepsMeet Watched.next StepLeavesNoSleeper (Watched.init n) as) :
    Throughout Watched.next NoneLeftAsleep (Watched.init n) as :=
  (throughout_of_stepsMeet (fun _ _ _ hw hG hstep => Attended.next hw hG hstep)
    (attended_init n) h).mono fun _ hw => hw.noneLeftAsleep

/-- A thread sleeps on a counter of zero, and a post wakes it. -/
theorem noneLeftAsleep_of_stepsMeet_woken :
    Throughout Watched.next NoneLeftAsleep (Watched.init 0)
      [.step (.lockWait 0 .wait), .step (.testWait 0), .step (.release 0), .step (.block 0),
        .callPost 1, .step (.lockPost 1), .step (.testPost 1), .step (.load 1),
        .step (.increment 1), .step (.notify 1), .step (.unlock 1), .step (.resume 0),
        .step (.load 0), .step (.decrement 0)] := by
  apply noneLeftAsleep_of_stepsMeet
  refine .cons rfl trivial (.cons rfl trivial (.cons rfl trivial (.cons rfl ?_ ?_)))
  · exact fun _ hcount => absurd rfl hcount
  refine .cons rfl trivial (.cons rfl trivial (.cons rfl trivial (.cons rfl trivial
    (.cons rfl ?_ ?_))))
  · exact fun _ hpc => Bool.noConfusion (Pc.adding.inj hpc).2
  refine .cons rfl trivial (.cons rfl trivial (.cons rfl trivial (.cons rfl trivial
    (.cons rfl ?_ trivial))))
  · exact fun _ _ _ hzero => absurd hzero (by decide)

/-- The post of a count falls between the test of the counter and the sleep. -/
theorem sleeps_on_count : ¬ ∀ (n : UInt32) (as : List Watched.Action),
    Throughout Watched.next NoneLeftAsleep (Watched.init n) as := by
  intro h
  let trace : List Watched.Action := [.step (.lockWait 0 .wait), .step (.testWait 0),
    .step (.release 0), .callPost 1, .step (.lockPost 1), .step (.testPost 1),
    .step (.load 1), .step (.increment 1), .step (.notify 1), .step (.unlock 1),
    .step (.block 0)]
  obtain ⟨w, hw, hpc, hcount, hposting⟩ : ∃ w, run Watched.next (Watched.init 0) trace = some w ∧
      w.state.pc 0 = .blocked .wait ∧ w.state.semValue = 1 ∧
      w.posting = update (update (fun _ => false) 1 true) 1 false :=
    ⟨_, rfl, rfl, rfl, rfl⟩
  obtain ⟨u, hu⟩ := (h 0 trace).final hw 0 hpc (by simp [hcount])
  rw [hposting, update_idem] at hu
  by_cases hu1 : u = 1
  · subst u
    simp at hu
  · simp [hu1] at hu

end Posts

end BoxUtils.Semaphore
