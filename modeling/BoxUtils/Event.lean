import BoxUtils.Runs
import Mathlib.Data.Nat.Notation
import Mathlib.Logic.Function.Basic

/-!
The event of sync/sem.cpp with any number of threads. The flag is only touched
under `val_mutex`; `set` keeps the mutex from its store to its `notify_all`,
and those are two steps here. `wait` tests the flag under the mutex, releases
it, and only then goes to sleep on the condition variable under a mutex of its
own, so a whole `set` fits between the test and the sleep.
-/
namespace BoxUtils.Event

open Runs

/-- Where a thread is; the flag of a wait tells whether it has a timeout. -/
inductive Pc
  | idle
  | notifying
  | tested (timed : Bool)
  | blocked (timed : Bool)
  | woken (timed : Bool)
  deriving DecidableEq, Repr

/-- What `notify_all` does to a thread: it reaches the sleeping ones only. -/
def Pc.notified : Pc → Pc
  | .blocked timed => .woken timed
  | pc => pc

structure State where
  valIsset : Bool
  valMutex : Option ℕ
  pc : ℕ → Pc

def init : State := ⟨false, none, fun _ => .idle⟩

inductive Action
  | setStore (t : ℕ)
  | setNotify (t : ℕ)
  | clear (t : ℕ)
  | waitTest (t : ℕ) (timed : Bool)
  | block (t : ℕ)
  | wake (t : ℕ)
  | timeout (t : ℕ)
  | resume (t : ℕ)
  deriving DecidableEq, Repr

/-- A thread that is outside every operation, with the mutex free. -/
def CanEnter (s : State) (t : ℕ) : Prop := s.pc t = .idle ∧ s.valMutex = none

instance (s : State) (t : ℕ) : Decidable (CanEnter s t) :=
  inferInstanceAs (Decidable (_ ∧ _))

def State.move (s : State) (t : ℕ) (pc : Pc) : State :=
  { s with pc := Function.update s.pc t pc }

def next (s : State) : Action → Option State
  | .setStore t =>
    if CanEnter s t then
      if s.valIsset then some s
      else some ⟨true, some t, Function.update s.pc t .notifying⟩
    else none
  | .setNotify t =>
    if s.pc t = .notifying then
      some ⟨s.valIsset, none, Function.update (fun u => (s.pc u).notified) t .idle⟩
    else none
  | .clear t => if CanEnter s t then some { s with valIsset := false } else none
  | .waitTest t timed =>
    if CanEnter s t then
      if s.valIsset then some s else some (s.move t (.tested timed))
    else none
  | .block t =>
    match s.pc t with
    | .tested timed => some (s.move t (.blocked timed))
    | _ => none
  -- a condition variable may also wake a thread that nobody notified
  | .wake t =>
    match s.pc t with
    | .blocked timed => some (s.move t (.woken timed))
    | _ => none
  | .timeout t =>
    match s.pc t with
    | .blocked true | .woken true => some (s.move t .idle)
    | _ => none
  | .resume t =>
    match s.pc t with
    | .woken _ => some (s.move t .idle)
    | _ => none

/-- A `set` has stored the flag and its `notify_all` is still to come. -/
def NotifyPending (s : State) : Prop := ∃ u, s.pc u = .notifying

/-- No thread sleeps while the flag is set, unless a notification will reach it. -/
def NoLostWakeup (s : State) : Prop :=
  ∀ t timed, s.pc t = .blocked timed → s.valIsset = true → NotifyPending s

/-- A thread only goes to sleep while the flag is unset or its notification pending. -/
def SleepsInTime (s : State) : Action → Prop
  | .block _ => s.valIsset = true → NotifyPending s
  | _ => True

section Steps

variable {s : State} {t : ℕ}

@[simp] theorem move_pc (pc : Pc) : (s.move t pc).pc = Function.update s.pc t pc := rfl

@[simp] theorem move_valIsset (pc : Pc) : (s.move t pc).valIsset = s.valIsset := rfl

theorem notifyPending_move {pc : Pc} (h : NotifyPending s) (ht : s.pc t ≠ .notifying) :
    NotifyPending (s.move t pc) := by
  obtain ⟨u, hu⟩ := h
  have hut : u ≠ t := by
    intro heq
    subst heq
    exact ht hu
  exact ⟨u, by simp [hut, hu]⟩

theorem block_eq {timed : Bool} (ht : s.pc t = .tested timed) :
    next s (.block t) = some (s.move t (.blocked timed)) := by
  simp [next, ht]

theorem block_cases {u : State} (h : next s (.block t) = some u) :
    ∃ timed, s.pc t = .tested timed ∧ u = s.move t (.blocked timed) := by
  cases ht : s.pc t with
  | tested timed => exact ⟨timed, rfl, (Option.some.inj ((block_eq ht).symm.trans h)).symm⟩
  | _ => simp [next, ht] at h

/-- A `set` that stores the flag owes its notification from then on. -/
theorem setStore_cases {u : State} (h : next s (.setStore t) = some u) :
    u = s ∨ u = ⟨true, some t, Function.update s.pc t .notifying⟩ := by
  obtain ⟨-, h⟩ := Option.ite_none_right_eq_some.mp h
  split at h
  · exact Or.inl (Option.some.inj h).symm
  · exact Or.inr (Option.some.inj h).symm

theorem setNotify_cases {u : State} (h : next s (.setNotify t) = some u) :
    u = ⟨s.valIsset, none, Function.update (fun u => (s.pc u).notified) t .idle⟩ := by
  obtain ⟨-, h⟩ := Option.ite_none_right_eq_some.mp h
  exact (Option.some.inj h).symm

theorem clear_cases {u : State} (h : next s (.clear t) = some u) :
    CanEnter s t ∧ u = { s with valIsset := false } := by
  obtain ⟨henter, h⟩ := Option.ite_none_right_eq_some.mp h
  exact ⟨henter, (Option.some.inj h).symm⟩

/-- What a step other than a `set`, a `clear` or a notification does: at most its thread
moves, and not to or from a notification. -/
theorem move_of_next {a : Action} {u : State} (hstep : next s a = some u) :
    match a with
    | .setStore _ | .setNotify _ | .clear _ => True
    | .waitTest t timed => s.pc t = .idle ∧
      (s.valIsset = true ∧ u = s ∨ s.valIsset = false ∧ u = s.move t (.tested timed))
    | .block t => ∃ timed, s.pc t = .tested timed ∧ u = s.move t (.blocked timed)
    | .wake t => ∃ timed, s.pc t = .blocked timed ∧ u = s.move t (.woken timed)
    | .timeout t => (s.pc t = .blocked true ∨ s.pc t = .woken true) ∧ u = s.move t .idle
    | .resume t => ∃ timed, s.pc t = .woken timed ∧ u = s.move t .idle := by
  cases a with
  | setStore t | setNotify t | clear t => trivial
  | waitTest t timed =>
    obtain ⟨henter, hstep⟩ := Option.ite_none_right_eq_some.mp hstep
    refine ⟨henter.1, ?_⟩
    split at hstep
    case isTrue hset => exact Or.inl ⟨hset, (Option.some.inj hstep).symm⟩
    case isFalse hset =>
      exact Or.inr ⟨Bool.eq_false_iff.mpr hset, (Option.some.inj hstep).symm⟩
  | block t => exact block_cases hstep
  | wake t | resume t =>
    simp only [next] at hstep
    split at hstep
    case h_1 timed ht => exact ⟨timed, ht, (Option.some.inj hstep).symm⟩
    case h_2 => cases hstep
  | timeout t =>
    simp only [next] at hstep
    split at hstep
    case h_1 ht => exact ⟨Or.inl ht, (Option.some.inj hstep).symm⟩
    case h_2 ht => exact ⟨Or.inr ht, (Option.some.inj hstep).symm⟩
    case h_3 => cases hstep

/-- The steps that put no thread to sleep and have nothing to do with a notification. -/
def Action.Quiet : Action → Prop
  | .clear _ | .waitTest _ _ | .wake _ | .timeout _ | .resume _ => True
  | .setStore _ | .setNotify _ | .block _ => False

/-- What such a step leaves alone. -/
structure Calms (s u : State) : Prop where
  blocked : ∀ t timed, u.pc t = .blocked timed → s.pc t = .blocked timed
  valIsset : u.valIsset = true → s.valIsset = true
  pending : NotifyPending s → NotifyPending u

theorem Calms.refl (s : State) : Calms s s := ⟨fun _ _ h => h, id, id⟩

/-- Moving a thread that owes no notification to a place where it does not sleep. -/
theorem calms_move {pc : Pc} (ht : s.pc t ≠ .notifying) (hpc : ∀ timed, pc ≠ .blocked timed) :
    Calms s (s.move t pc) where
  blocked u timed hu := by
    by_cases hut : u = t
    · subst u
      exact absurd (by simpa using hu) (hpc timed)
    · simpa [hut] using hu
  valIsset := id
  pending h := notifyPending_move h ht

theorem calms_of_next {a : Action} {u : State} (hstep : next s a = some u) (ha : a.Quiet) :
    Calms s u := by
  cases a with
  | setStore t | setNotify t | block t => exact ha.elim
  | clear t =>
    obtain ⟨-, rfl⟩ := clear_cases hstep
    exact ⟨fun _ _ h => h, fun h => Bool.noConfusion h, id⟩
  | waitTest t timed =>
    obtain ⟨ht, ⟨-, rfl⟩ | ⟨-, rfl⟩⟩ := move_of_next hstep
    · exact Calms.refl _
    · exact calms_move (by simp [ht]) (by simp)
  | wake t | resume t =>
    obtain ⟨timed, ht, rfl⟩ := move_of_next hstep
    exact calms_move (by simp [ht]) (by simp)
  | timeout t =>
    obtain ⟨ht | ht, rfl⟩ := move_of_next hstep
    · exact calms_move (by simp [ht]) (by simp)
    · exact calms_move (by simp [ht]) (by simp)

theorem Calms.noLostWakeup {u : State} (hcalm : Calms s u) (h : NoLostWakeup s) :
    NoLostWakeup u := by
  intro t timed ht hset
  exact hcalm.pending (h t timed (hcalm.blocked t timed ht) (hcalm.valIsset hset))

/-- No thread sleeps right after a `notify_all`. -/
theorem not_blocked_notified (pc : ℕ → Pc) (u : ℕ) (timed : Bool) :
    Function.update (fun u => (pc u).notified) t .idle u ≠ .blocked timed := by
  by_cases hut : u = t
  · subst u
    simp
  · rw [Function.update_of_ne hut]
    cases pc u <;> simp [Pc.notified]

theorem step_noLostWakeup {a : Action} {u : State} (h : NoLostWakeup s)
    (hG : SleepsInTime s a) (hstep : next s a = some u) : NoLostWakeup u := by
  cases a with
  | setStore t =>
    rcases setStore_cases hstep with rfl | rfl
    · exact h
    · exact fun _ _ _ _ => ⟨t, by simp⟩
  | setNotify t =>
    obtain rfl := setNotify_cases hstep
    exact fun v timed hv _ => absurd hv (not_blocked_notified s.pc v timed)
  | block t =>
    obtain ⟨timed, ht, rfl⟩ := block_cases hstep
    intro v _ _ hset
    exact notifyPending_move (hG hset) (by simp [ht])
  | clear t | waitTest t timed | wake t | timeout t | resume t =>
    exact (calms_of_next hstep trivial).noLostWakeup h

/-- A thread that goes to sleep too late sleeps on with the flag set. -/
theorem late_sleep_lost {a : Action} {u : State} (hstep : next s a = some u)
    (hG : ¬ SleepsInTime s a) : ¬ NoLostWakeup u := by
  cases a with
  | block t =>
    obtain ⟨timed, ht, rfl⟩ := block_cases hstep
    simp only [SleepsInTime, not_forall] at hG
    obtain ⟨hset, hpending⟩ := hG
    intro h
    obtain ⟨v, hv⟩ := h t timed (by simp) hset
    have hvt : v ≠ t := by
      intro heq
      subst heq
      simp at hv
    exact hpending ⟨v, by simpa [hvt] using hv⟩
  | _ => exact absurd trivial hG

end Steps

/-- No wake-up is lost in a run exactly when every thread that goes to sleep does
so before the flag is set or before the notification of the `set` has been sent. -/
theorem noLostWakeup_iff (as : List Action) :
    Throughout next NoLostWakeup init as ↔ StepsMeet next SleepsInTime init as :=
  throughout_iff_stepsMeet (fun _ _ _ h hG hstep => step_noLostWakeup h hG hstep)
    (fun _ h => h) (fun _ _ _ _ hstep hG => late_sleep_lost hstep hG)
    (fun t _ ht => by simp [init] at ht)

/-- Thread 1 sets the event after thread 0 has tested it and before it sleeps. -/
theorem wakeup_lost : ¬ ∀ as : List Action, Throughout next NoLostWakeup init as := by
  intro h
  have hrun := h [.waitTest 0 false, .setStore 1, .setNotify 1, .block 0]
  let s : State := (init.move 0 (.tested false))
  let u : State := ⟨true, some 1, Function.update s.pc 1 .notifying⟩
  let v : State := ⟨true, none, Function.update (fun w => (u.pc w).notified) 1 .idle⟩
  have hlast : run next init [.waitTest 0 false, .setStore 1, .setNotify 1, .block 0] =
      some (v.move 0 (.blocked false)) := rfl
  obtain ⟨w, hw⟩ := hrun.final hlast 0 false rfl rfl
  rcases w with _ | _ | w <;> cases hw

end BoxUtils.Event
