import BoxUtils.Event
import BoxUtils.Locks

/-!
Why a wait for the event returns. The sleep on the condition variable is made once, and
nothing is looked at after it, so whatever ends the sleep makes the wait return. Beside the
state stands, for each thread since its last call of `wait`, whether the flag has been seen
set in any state, and whether a `set` has been made.
-/
namespace BoxUtils.Event

open Runs Locks Function

/-- A wait that has returned, for the timed one with true, and whether the flag has been
set at some moment since the call. -/
structure Return where
  thread : ℕ
  seen : Bool
  deriving DecidableEq, Repr

structure Watched where
  state : State
  /-- The wait that a thread has called and for which it has not tested the flag yet. -/
  calling : ℕ → Option Bool
  /-- The flag has been set in some state since the call. -/
  seen : ℕ → Bool
  /-- The flag was set at the call, or some `set` has been made since. -/
  wasSet : ℕ → Bool
  /-- The thread was woken although nobody had notified it. -/
  spurious : ℕ → Bool
  returns : List Return

def Watched.init : Watched :=
  ⟨Event.init, fun _ => none, fun _ => false, fun _ => false, fun _ => false, []⟩

inductive Watched.Action
  | call (t : ℕ) (timed : Bool)
  | step (a : Event.Action)

/-- A thread that has called a wait goes on with its test, and no other one tests. -/
def Watched.Called (w : Watched) : Event.Action → Prop
  | .waitTest t timed => w.calling t = some timed
  | .setStore t | .clear t => w.calling t = none
  | _ => True

instance (w : Watched) : ∀ a, Decidable (w.Called a)
  | .waitTest t timed => inferInstanceAs (Decidable (w.calling t = some timed))
  | .setStore t | .clear t => inferInstanceAs (Decidable (w.calling t = none))
  | .setNotify _ | .block _ | .wake _ | .timeout _ | .resume _ => isTrue trivial

/-- The thread whose wait the step ends: it finds the flag set, or has slept. -/
def returning (s : State) : Event.Action → Option ℕ
  | .waitTest t _ => if s.valIsset then some t else none
  | .resume t => some t
  | _ => none

def Watched.after (w : Watched) (a : Event.Action) (s : State) : Watched where
  state := s
  calling := match a with
    | .waitTest t _ => update w.calling t none
    | _ => w.calling
  seen t := w.seen t || s.valIsset
  wasSet := match a with
    | .setStore _ => fun _ => true
    | _ => w.wasSet
  spurious := match a with
    | .wake t => update w.spurious t true
    | _ => w.spurious
  returns := w.returns ++
    ((returning w.state a).map fun t => ⟨t, w.seen t || s.valIsset⟩).toList

def Watched.next (w : Watched) : Watched.Action → Option Watched
  | .call t timed =>
    if w.state.pc t = .idle ∧ w.calling t = none then
      some { w with
        calling := update w.calling t (some timed)
        seen := update w.seen t w.state.valIsset
        wasSet := update w.wasSet t w.state.valIsset
        spurious := update w.spurious t false }
    else none
  | .step a => if w.Called a then (Event.next w.state a).map (w.after a) else none

/-- The flag was set at some moment between the call and the return of every wait. -/
def ReturnsForReason (w : Watched) : Prop := ∀ r ∈ w.returns, r.seen = true

/-- No thread comes back from a wake-up that nobody sent before a `set` is made. -/
def NoneBackEarly (w : Watched) : Watched.Action → Prop
  | .step (.resume t) => w.spurious t = true → w.wasSet t = true
  | _ => True

/-- The flag stays set from its store to the notification, whose thread has the mutex. -/
structure Notifies (s : State) : Prop where
  owned : Owned (· = Pc.notifying) s.valMutex s.pc
  valIsset : ∀ t, s.pc t = .notifying → s.valIsset = true

section Steps

variable {s u : State} {t : ℕ} {a : Event.Action}

theorem notifies_init : Notifies init :=
  ⟨owned_free fun _ => by simp [init], fun _ ht => by cases ht⟩

/-- A thread that owes no notification moves on without coming to owe one. -/
theorem Notifies.move (h : Notifies s) {pc : Pc} (ht : s.pc t ≠ .notifying)
    (hpc : pc ≠ .notifying) : Notifies (s.move t pc) := by
  refine ⟨h.owned.move (iff_of_false hpc ht), fun v hv => ?_⟩
  by_cases hvt : v = t
  · subst v
    exact absurd (by simpa using hv) hpc
  · exact h.valIsset v (by simpa [hvt] using hv)

theorem Notifies.next (h : Notifies s) (hstep : next s a = some u) : Notifies u := by
  cases a with
  | setStore t =>
    obtain ⟨henter, -⟩ := Option.ite_none_right_eq_some.mp hstep
    rcases setStore_cases hstep with rfl | rfl
    · exact h
    · have howned := h.owned
      rw [henter.2] at howned
      exact ⟨howned.lock rfl, fun _ _ => rfl⟩
  | setNotify t =>
    obtain ⟨ht, -⟩ := Option.ite_none_right_eq_some.mp hstep
    obtain rfl := setNotify_cases hstep
    have hpc : ∀ v, (s.pc v).notified = Pc.notifying ↔ s.pc v = .notifying := by
      intro v
      cases s.pc v <;> simp [Pc.notified]
    have howned := (h.owned.keep hpc).unlock ((hpc t).mpr ht) (p := .idle) (by simp)
    refine ⟨howned, fun v hv => ?_⟩
    exact absurd ((howned v).mpr hv) (by simp)
  | clear t =>
    obtain ⟨henter, rfl⟩ := clear_cases hstep
    refine ⟨h.owned, fun v hv => ?_⟩
    have hmutex := (h.owned v).mpr hv
    rw [henter.2] at hmutex
    cases hmutex
  | waitTest t timed =>
    obtain ⟨ht, ⟨-, rfl⟩ | ⟨-, rfl⟩⟩ := move_of_next hstep
    · exact h
    · exact h.move (by simp [ht]) (by simp)
  | block t | wake t | resume t =>
    obtain ⟨timed, ht, rfl⟩ := move_of_next hstep
    exact h.move (by simp [ht]) (by simp)
  | timeout t =>
    obtain ⟨ht | ht, rfl⟩ := move_of_next hstep
    · exact h.move (by simp [ht]) (by simp)
    · exact h.move (by simp [ht]) (by simp)

theorem setStore_valIsset (h : next s (.setStore t) = some u) : u.valIsset = true := by
  obtain ⟨-, h⟩ := Option.ite_none_right_eq_some.mp h
  split at h
  case isTrue hset =>
    obtain rfl := Option.some.inj h
    exact hset
  case isFalse => rw [← Option.some.inj h]

/-- Only a `set` sets the flag. -/
theorem valIsset_of_next (hstep : next s a = some u) (hset : u.valIsset = true) :
    s.valIsset = true ∨ ∃ t, a = .setStore t := by
  cases a with
  | setStore t => exact Or.inr ⟨t, rfl⟩
  | setNotify t =>
    obtain rfl := setNotify_cases hstep
    exact Or.inl hset
  | block t =>
    obtain ⟨timed, -, rfl⟩ := block_cases hstep
    exact Or.inl hset
  | clear t | waitTest t timed | wake t | timeout t | resume t =>
    exact Or.inl ((calms_of_next hstep trivial).valIsset hset)

/-- A thread is woken by a notification, and the flag is set then, or by nobody. -/
theorem woken_of_next (h : Notifies s) (hstep : next s a = some u) {timed : Bool}
    (ht : u.pc t = .woken timed) :
    s.pc t = .woken timed ∨ a = .wake t ∨ u.valIsset = true := by
  have hmove : ∀ {v : ℕ} {pc : Pc}, (s.move v pc).pc t = .woken timed →
      pc ≠ .woken timed ∨ a = .wake v → s.pc t = .woken timed ∨ a = .wake t ∨
        u.valIsset = true := by
    intro v pc hpc hv
    by_cases htv : t = v
    · subst v
      rcases hv with hne | hwake
      · exact absurd (by simpa using hpc) hne
      · exact Or.inr (Or.inl hwake)
    · exact Or.inl (by simpa [htv] using hpc)
  cases a with
  | setStore v => exact Or.inr (Or.inr (setStore_valIsset hstep))
  | setNotify v =>
    obtain ⟨hv, -⟩ := Option.ite_none_right_eq_some.mp hstep
    obtain rfl := setNotify_cases hstep
    exact Or.inr (Or.inr (h.valIsset v hv))
  | clear v =>
    obtain ⟨-, rfl⟩ := clear_cases hstep
    exact Or.inl ht
  | waitTest v timed =>
    obtain ⟨-, ⟨-, rfl⟩ | ⟨-, rfl⟩⟩ := move_of_next hstep
    · exact Or.inl ht
    · exact hmove ht (Or.inl (by simp))
  | wake v =>
    obtain ⟨timed, -, rfl⟩ := move_of_next hstep
    exact hmove ht (Or.inr rfl)
  | block v | resume v =>
    obtain ⟨timed, -, rfl⟩ := move_of_next hstep
    exact hmove ht (Or.inl (by simp))
  | timeout v =>
    obtain ⟨-, rfl⟩ := move_of_next hstep
    exact hmove ht (Or.inl (by simp))

end Steps

/-- The flag is seen set exactly by those in whose waits a `set` falls, and a thread that
was notified has seen it. -/
structure Traced (w : Watched) : Prop where
  notifies : Notifies w.state
  sees : w.state.valIsset = true → ∀ t, w.seen t = true
  seen_iff : ∀ t, w.seen t = true ↔ w.wasSet t = true
  woken : ∀ t timed, w.state.pc t = .woken timed → w.spurious t = false → w.seen t = true

section Traces

variable {w v : Watched} {a : Watched.Action}

theorem traced_init : Traced Watched.init where
  notifies := notifies_init
  sees h := by cases h
  seen_iff _ := Iff.rfl
  woken _ _ h := by cases h

theorem Traced.call (h : Traced w) {t : ℕ} {timed : Bool}
    (hstep : w.next (.call t timed) = some v) : Traced v := by
  obtain ⟨⟨hidle, -⟩, hstep⟩ := Option.ite_none_right_eq_some.mp hstep
  obtain rfl := Option.some.inj hstep
  refine ⟨h.notifies, fun hset u => ?_, fun u => ?_, fun u timed hu => ?_⟩
  · by_cases hut : u = t
    · simpa [hut] using hset
    · simpa [hut] using h.sees hset u
  · by_cases hut : u = t
    · simp [hut]
    · simpa [hut] using h.seen_iff u
  · have hut : u ≠ t := by
      rintro rfl
      rw [hidle] at hu
      cases hu
    simpa [hut] using h.woken u timed hu

theorem Traced.step (h : Traced w) {a : Event.Action} {s : State}
    (hs : Event.next w.state a = some s) : Traced (w.after a s) := by
  have hseen : ∀ t, w.seen t = true → (w.after a s).seen t = true := by
    intro t ht
    simp [Watched.after, ht]
  refine ⟨h.notifies.next hs, fun hset t => ?_, fun t => ?_, fun t timed ht hspurious => ?_⟩
  · have hset : s.valIsset = true := hset
    simp [Watched.after, hset]
  · cases a with
    | setStore u => simp [Watched.after, setStore_valIsset hs]
    | _ =>
      have hkeep : s.valIsset = true → w.seen t = true := by
        intro hset
        rcases valIsset_of_next hs hset with hset | ⟨u, hu⟩
        · exact h.sees hset t
        · cases hu
      have hsame : (w.seen t || s.valIsset) = w.seen t := by
        cases hset : s.valIsset with
        | true => simp [hkeep hset]
        | false => simp
      simpa [Watched.after, hsame] using h.seen_iff t
  · rcases woken_of_next h.notifies hs ht with hwoken | rfl | hset
    · refine hseen t (h.woken t timed hwoken ?_)
      cases a with
      | wake u =>
        obtain ⟨timed, hu, -⟩ := move_of_next hs
        have htu : t ≠ u := by
          rintro rfl
          rw [hwoken] at hu
          cases hu
        simpa [Watched.after, htu] using hspurious
      | _ => exact hspurious
    · simp [Watched.after] at hspurious
    · simp [Watched.after, hset]

theorem Traced.next (h : Traced w) (hstep : w.next a = some v) : Traced v := by
  cases a with
  | call t timed => exact h.call hstep
  | step a =>
    obtain ⟨-, hstep⟩ := Option.ite_none_right_eq_some.mp hstep
    obtain ⟨s, hs, rfl⟩ := Option.map_eq_some_iff.mp hstep
    exact h.step hs

/-- The wait that a step ends has a reason if and only if it is not back early. -/
theorem Traced.reason_iff (h : Traced w) {a : Event.Action} {s : State}
    (hs : Event.next w.state a = some s) :
    (∀ t, returning w.state a = some t → (w.seen t || s.valIsset) = true) ↔
      NoneBackEarly w (.step a) := by
  cases a with
  | waitTest t timed =>
    refine iff_of_true (fun u hu => ?_) trivial
    obtain ⟨hset, -⟩ := Option.ite_none_right_eq_some.mp hu
    rw [h.sees hset u, Bool.true_or]
  | resume t =>
    obtain ⟨timed, ht, rfl⟩ := move_of_next hs
    have hsame : (w.seen t || w.state.valIsset) = w.seen t := by
      cases hset : w.state.valIsset with
      | true => simp [h.sees hset t]
      | false => simp
    constructor
    · intro hall _
      have hreason : (w.seen t || w.state.valIsset) = true := hall t rfl
      rw [hsame] at hreason
      exact (h.seen_iff t).mp hreason
    · intro hearly u hu
      obtain rfl : t = u := Option.some.inj hu
      rw [move_valIsset, hsame]
      cases hspurious : w.spurious t with
      | true => exact (h.seen_iff t).mpr (hearly hspurious)
      | false => exact h.woken t timed ht hspurious
  | _ => exact iff_of_true (fun u hu => by cases hu) trivial

theorem returnsForReason_next_iff (h : Traced w) (hw : ReturnsForReason w)
    (hstep : w.next a = some v) : ReturnsForReason v ↔ NoneBackEarly w a := by
  cases a with
  | call t timed =>
    obtain ⟨-, hstep⟩ := Option.ite_none_right_eq_some.mp hstep
    obtain rfl := Option.some.inj hstep
    exact iff_of_true hw trivial
  | step a =>
    obtain ⟨-, hstep⟩ := Option.ite_none_right_eq_some.mp hstep
    obtain ⟨s, hs, rfl⟩ := Option.map_eq_some_iff.mp hstep
    rw [← h.reason_iff hs]
    simp only [ReturnsForReason, Watched.after, List.mem_append, Option.mem_toList,
      Option.map_eq_some_iff]
    constructor
    · intro hall t ht
      exact hall ⟨t, w.seen t || s.valIsset⟩ (Or.inr ⟨t, ht, rfl⟩)
    · rintro hall r (hr | ⟨t, ht, rfl⟩)
      · exact hw r hr
      · exact hall t ht

end Traces

/-- Every wait returns for a reason in a run if and only if no thread comes back from a
wake-up that nobody sent before a `set` is made in its wait. -/
theorem returnsForReason_iff (as : List Watched.Action) :
    Throughout Watched.next ReturnsForReason Watched.init as ↔
      StepsMeet Watched.next NoneBackEarly Watched.init as :=
  throughout_iff_of_step_iff (fun _ _ _ h hstep => Traced.next h hstep)
    (fun _ _ _ h hw hstep => returnsForReason_next_iff h hw hstep) traced_init
    fun _ hr => absurd hr List.not_mem_nil

/-- A thread waits, wakes up by itself and is back, and nobody has ever set the event. -/
theorem returns_without_reason : ¬ ∀ as : List Watched.Action,
    Throughout Watched.next ReturnsForReason Watched.init as := by
  intro h
  let trace : List Watched.Action :=
    [.call 0 false, .step (.waitTest 0 false), .step (.block 0), .step (.wake 0),
      .step (.resume 0)]
  have hlast : (run Watched.next Watched.init trace).map Watched.returns =
      some [⟨0, false⟩] := by
    decide
  obtain ⟨w, hw, hreturns⟩ := Option.map_eq_some_iff.mp hlast
  have hseen := (h trace).final hw ⟨0, false⟩ (by simp [hreturns])
  cases hseen

end BoxUtils.Event
