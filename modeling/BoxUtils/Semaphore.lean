import BoxUtils.Runs
import Mathlib.Data.Nat.Notation
import Mathlib.Logic.Function.Basic

/-!
The semaphore of sync/sem.cpp with any number of threads, one step for each
access to the mutex, the counter or the condition variable. The counter is a plain
integer: `sem_value ++` and `sem_value --` are a load and a store. Both ways through
`wait` meet at the same `sem_value --`; the thread that slept gets there
without the mutex and without another test of the counter, so other threads may
store between its load and its store. The unlock that follows releases the mutex
whoever holds it.
-/
namespace BoxUtils.Semaphore

open Runs

/-- The three operations that take a count. -/
inductive Kind
  | wait
  | trywait
  | timedTrywait
  deriving DecidableEq, Repr

inductive Pc
  | idle
  | posting
  | incrementing (wasZero : Bool)
  | adding (loaded : UInt32) (wasZero : Bool)
  | notifying
  | testing (kind : Kind)
  | releasing (kind : Kind)
  | sleepy (kind : Kind)
  | blocked (kind : Kind)
  | woken (kind : Kind)
  | decrementing (locked : Bool)
  | taking (loaded : UInt32) (locked : Bool)
  | unlocking
  deriving DecidableEq, Repr

def Pc.notified : Pc → Pc
  | .blocked kind => .woken kind
  | pc => pc

/-- A post counts from the store of its `sem_value ++` on, a successful wait from that of its
`sem_value --` on. -/
structure State where
  semValue : UInt32
  valMutex : Option ℕ
  pc : ℕ → Pc
  posts : ℕ
  waits : ℕ

def init (n : UInt32) : State := ⟨n, none, fun _ => .idle, 0, 0⟩

inductive Action
  | lockPost (t : ℕ)
  | testPost (t : ℕ)
  | load (t : ℕ)
  | increment (t : ℕ)
  | notify (t : ℕ)
  | lockWait (t : ℕ) (kind : Kind)
  | testWait (t : ℕ)
  | release (t : ℕ)
  | block (t : ℕ)
  | wake (t : ℕ)
  | timeout (t : ℕ)
  | resume (t : ℕ)
  | decrement (t : ℕ)
  | unlock (t : ℕ)
  deriving DecidableEq, Repr

def State.move (s : State) (t : ℕ) (pc : Pc) : State :=
  { s with pc := Function.update s.pc t pc }

def next (s : State) : Action → Option State
  | .lockPost t =>
    if s.pc t = .idle ∧ s.valMutex = none then
      some { s.move t .posting with valMutex := some t }
    else none
  | .testPost t =>
    match s.pc t with
    | .posting => some (s.move t (.incrementing (s.semValue = 0)))
    | _ => none
  | .load t =>
    match s.pc t with
    | .incrementing wasZero => some (s.move t (.adding s.semValue wasZero))
    | .decrementing locked => some (s.move t (.taking s.semValue locked))
    | _ => none
  | .increment t =>
    match s.pc t with
    | .adding loaded wasZero =>
      some { s.move t (if wasZero then .notifying else .unlocking) with
        semValue := loaded + 1, posts := s.posts + 1 }
    | _ => none
  | .notify t =>
    if s.pc t = .notifying then
      some { s with pc := Function.update (fun u => (s.pc u).notified) t .unlocking }
    else none
  | .lockWait t kind =>
    if s.pc t = .idle ∧ s.valMutex = none then
      some { s.move t (.testing kind) with valMutex := some t }
    else none
  | .testWait t =>
    match s.pc t with
    | .testing kind =>
      if s.semValue = 0 then
        match kind with
        | .trywait => some (s.move t .unlocking)
        | kind => some (s.move t (.releasing kind))
      else some (s.move t (.decrementing true))
    | _ => none
  | .release t =>
    match s.pc t with
    | .releasing kind => some { s.move t (.sleepy kind) with valMutex := none }
    | _ => none
  | .block t =>
    match s.pc t with
    | .sleepy kind => some (s.move t (.blocked kind))
    | _ => none
  | .wake t =>
    match s.pc t with
    | .blocked kind => some (s.move t (.woken kind))
    | _ => none
  | .timeout t =>
    match s.pc t with
    | .blocked .timedTrywait | .woken .timedTrywait => some (s.move t .idle)
    | _ => none
  -- back from `cond_var.wait`: the mutex is not taken again
  | .resume t =>
    match s.pc t with
    | .woken _ => some (s.move t (.decrementing false))
    | _ => none
  | .decrement t =>
    match s.pc t with
    | .taking loaded _ =>
      some { s.move t .unlocking with semValue := loaded - 1, waits := s.waits + 1 }
    | _ => none
  | .unlock t =>
    if s.pc t = .unlocking then some { s.move t .idle with valMutex := none } else none

/-- No more counts are taken than there were, and the counter holds the rest. -/
def Conserves (n : UInt32) (s : State) : Prop :=
  s.waits ≤ n.toNat + s.posts ∧ s.semValue.toNat = n.toNat + s.posts - s.waits

/-- A count is only stored over the value that was loaded for it, and only taken from a
counter that is not zero, and only added to one that is not at the top of its range. -/
def CountAvailable (s : State) : Action → Prop
  | .decrement t => ∀ loaded locked, s.pc t = .taking loaded locked →
    s.semValue = loaded ∧ loaded ≠ 0
  | .increment t => ∀ loaded wasZero, s.pc t = .adding loaded wasZero →
    s.semValue = loaded ∧ loaded.toNat + 1 < UInt32.size
  | _ => True

section Steps

variable {n : UInt32} {s u : State} {t : ℕ}

/-- An action that stores nothing leaves the accounts alone. -/
theorem accounts_of_other {a : Action} (hstep : next s a = some u)
    (hinc : ∀ t, a ≠ .increment t) (hdec : ∀ t, a ≠ .decrement t) :
    u.semValue = s.semValue ∧ u.posts = s.posts ∧ u.waits = s.waits := by
  cases a with
  | increment t => exact absurd rfl (hinc t)
  | decrement t => exact absurd rfl (hdec t)
  | lockPost t | notify t | lockWait t kind | unlock t =>
    simp only [next] at hstep
    split at hstep
    · obtain rfl := Option.some.inj hstep
      exact ⟨rfl, rfl, rfl⟩
    · cases hstep
  | testPost t | release t | block t | wake t | resume t =>
    simp only [next] at hstep
    split at hstep
    · obtain rfl := Option.some.inj hstep
      exact ⟨rfl, rfl, rfl⟩
    · cases hstep
  | load t | timeout t =>
    simp only [next] at hstep
    split at hstep
    · obtain rfl := Option.some.inj hstep
      exact ⟨rfl, rfl, rfl⟩
    · obtain rfl := Option.some.inj hstep
      exact ⟨rfl, rfl, rfl⟩
    · cases hstep
  | testWait t =>
    simp only [next] at hstep
    split at hstep
    · split at hstep
      · split at hstep
        · obtain rfl := Option.some.inj hstep
          exact ⟨rfl, rfl, rfl⟩
        · obtain rfl := Option.some.inj hstep
          exact ⟨rfl, rfl, rfl⟩
      · obtain rfl := Option.some.inj hstep
        exact ⟨rfl, rfl, rfl⟩
    · cases hstep

theorem increment_cases (hstep : next s (.increment t) = some u) :
    ∃ loaded wasZero, s.pc t = .adding loaded wasZero ∧
      u.semValue = loaded + 1 ∧ u.posts = s.posts + 1 ∧ u.waits = s.waits := by
  simp only [next] at hstep
  split at hstep
  case h_1 loaded wasZero ht =>
    obtain rfl := Option.some.inj hstep
    exact ⟨loaded, wasZero, ht, rfl, rfl, rfl⟩
  case h_2 => cases hstep

theorem decrement_cases (hstep : next s (.decrement t) = some u) :
    ∃ loaded locked, s.pc t = .taking loaded locked ∧
      u.semValue = loaded - 1 ∧ u.posts = s.posts ∧ u.waits = s.waits + 1 := by
  simp only [next] at hstep
  split at hstep
  case h_1 loaded locked ht =>
    obtain rfl := Option.some.inj hstep
    exact ⟨loaded, locked, ht, rfl, rfl, rfl⟩
  case h_2 => cases hstep

theorem toNat_succ (v : UInt32) : (v + 1).toNat = (v.toNat + 1) % UInt32.size := by
  simp [UInt32.toNat_add, UInt32.size]

theorem toNat_pred {v : UInt32} (hv : v ≠ 0) : (v - 1).toNat = v.toNat - 1 := by
  have hpos : 1 ≤ v := by
    rw [UInt32.le_iff_toNat_le]
    have hne : v.toNat ≠ 0 := fun h => hv (UInt32.toNat.inj h)
    simpa using Nat.one_le_iff_ne_zero.mpr hne
  simpa using UInt32.toNat_sub_of_le v 1 hpos

theorem step_conserves {a : Action} (h : Conserves n s) (hG : CountAvailable s a)
    (hstep : next s a = some u) : Conserves n u := by
  obtain ⟨hle, hval⟩ := h
  cases a with
  | increment t =>
    obtain ⟨loaded, wasZero, ht, hv, hp, hw⟩ := increment_cases hstep
    obtain ⟨hloaded, htop⟩ := hG loaded wasZero ht
    have hsucc : (loaded + 1).toNat = loaded.toNat + 1 := by
      rw [toNat_succ, Nat.mod_eq_of_lt htop]
    rw [hloaded] at hval
    rw [Conserves, hv, hp, hw, hsucc]
    omega
  | decrement t =>
    obtain ⟨loaded, locked, ht, hv, hp, hw⟩ := decrement_cases hstep
    obtain ⟨hloaded, hne⟩ := hG loaded locked ht
    have hpos : loaded.toNat ≠ 0 := fun h => hne (UInt32.toNat.inj h)
    rw [hloaded] at hval
    rw [Conserves, hv, hp, hw, toNat_pred hne]
    omega
  | _ =>
    obtain ⟨hv, hp, hw⟩ := accounts_of_other hstep (by simp) (by simp)
    rw [Conserves, hv, hp, hw]
    exact ⟨hle, hval⟩

/-- Where the accounts balance before and after a store, the stored value is the next one of
the value that was there. -/
theorem loaded_of_increment (h : Conserves n s) (hu : Conserves n u) {loaded : UInt32}
    (hv : u.semValue = loaded + 1) (hp : u.posts = s.posts + 1) (hw : u.waits = s.waits) :
    s.semValue = loaded ∧ loaded.toNat + 1 < UInt32.size := by
  obtain ⟨hle, hval⟩ := h
  obtain ⟨-, hval'⟩ := hu
  rw [hv, hp, hw] at hval'
  have hsucc : (loaded + 1).toNat = s.semValue.toNat + 1 := by omega
  have hlt : s.semValue.toNat + 1 < UInt32.size := by
    rw [← hsucc]
    exact (loaded + 1).toNat_lt
  have hnext : loaded + 1 = s.semValue + 1 := by
    apply UInt32.toNat.inj
    rw [hsucc, toNat_succ, Nat.mod_eq_of_lt hlt]
  obtain rfl : loaded = s.semValue := by simpa using hnext
  exact ⟨rfl, hlt⟩

theorem loaded_of_decrement (h : Conserves n s) (hu : Conserves n u) {loaded : UInt32}
    (hv : u.semValue = loaded - 1) (hp : u.posts = s.posts) (hw : u.waits = s.waits + 1) :
    s.semValue = loaded ∧ loaded ≠ 0 := by
  obtain ⟨hle, hval⟩ := h
  obtain ⟨hle', hval'⟩ := hu
  rw [hp, hw] at hle'
  rw [hv, hp, hw] at hval'
  have hne : s.semValue ≠ 0 := by
    intro hzero
    have hnone : s.semValue.toNat = 0 := by rw [hzero]; rfl
    omega
  have hpred : loaded - 1 = s.semValue - 1 := by
    apply UInt32.toNat.inj
    rw [toNat_pred hne]
    omega
  obtain rfl : loaded = s.semValue := by simpa using hpred
  exact ⟨rfl, hne⟩

/-- Taking a count that is not there, adding one past the top, or storing over what another
thread has stored since unbalances the accounts in the very next state. -/
theorem unavailable_breaks {a : Action} (h : Conserves n s) (hstep : next s a = some u)
    (hG : ¬ CountAvailable s a) : ¬ Conserves n u := by
  intro hu
  apply hG
  cases a with
  | increment t =>
    obtain ⟨loaded, wasZero, ht, hv, hp, hw⟩ := increment_cases hstep
    intro loaded' wasZero' ht'
    obtain ⟨rfl, rfl⟩ := Pc.adding.inj (ht.symm.trans ht')
    exact loaded_of_increment h hu hv hp hw
  | decrement t =>
    obtain ⟨loaded, locked, ht, hv, hp, hw⟩ := decrement_cases hstep
    intro loaded' locked' ht'
    obtain ⟨rfl, rfl⟩ := Pc.taking.inj (ht.symm.trans ht')
    exact loaded_of_decrement h hu hv hp hw
  | _ => trivial

end Steps

/-- Counts are conserved in a run exactly when every store of a `sem_value --` or a
`sem_value ++` finds the counter as it was loaded, and that is not zero for the one and not
the top of the range for the other. -/
theorem conserves_iff (n : UInt32) (as : List Action) :
    Throughout next (Conserves n) (init n) as ↔ StepsMeet next CountAvailable (init n) as :=
  throughout_iff_stepsMeet (fun _ _ _ h hG hstep => step_conserves h hG hstep)
    (fun _ h => h) (fun _ _ _ h hstep hG => unavailable_breaks h hstep hG)
    ⟨by simp [init], by simp [init]⟩

/-- The steps of one wait up to its sleep, starting with the counter at zero. -/
def sleepTrace (t : ℕ) : List Action := [.lockWait t .wait, .testWait t, .release t, .block t]

/-- Two threads sleep, two counts are posted, and both threads load the counter before either
of them stores: no store is made at zero, and one count is still there. -/
example :
    (run next (init 0) (sleepTrace 0 ++ sleepTrace 1 ++
      [.lockPost 2, .testPost 2, .load 2, .increment 2, .notify 2, .unlock 2,
        .lockPost 2, .testPost 2, .load 2, .increment 2, .unlock 2,
        .resume 0, .resume 1, .load 0, .load 1, .decrement 0, .decrement 1])).map
      (fun s => (s.posts, s.waits, s.semValue)) = some (2, 2, 1) := by
  decide

/-- Two threads sleep, one count is posted, and both threads take it. -/
theorem count_taken_twice :
    ¬ ∀ (n : UInt32) (as : List Action), Throughout next (Conserves n) (init n) as := by
  intro h
  let trace := sleepTrace 0 ++ sleepTrace 1 ++
    [.lockPost 2, .testPost 2, .load 2, .increment 2, .notify 2, .unlock 2,
      .resume 0, .load 0, .decrement 0, .resume 1, .load 1, .decrement 1]
  have hlast : (run next (init 0) trace).map (fun s => (s.posts, s.waits)) = some (1, 2) := by
    decide
  obtain ⟨s, hs, hcounts⟩ := Option.map_eq_some_iff.mp hlast
  obtain ⟨hposts, hwaits⟩ := Prod.mk.inj hcounts
  have hle := ((h 0 trace).final hs).1
  rw [hposts, hwaits] at hle
  exact absurd hle (by decide)

end BoxUtils.Semaphore
