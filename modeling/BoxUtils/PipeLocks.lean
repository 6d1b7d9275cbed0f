import BoxUtils.Locks
import BoxUtils.Pipe

/-!
The mutex of the pipe of sync/pipe.hpp, with its lock and its unlock as steps of their
own. The guard of `write`, `try_read`, `empty` and `size` unlocks it at the end of the
function. The two reads lock and unlock by hand; the timed one returns true from where it
still holds the mutex.
-/
namespace BoxUtils.PipeLocks

open Runs Locks Function

inductive Op (T : Type*)
  | empty
  | size
  | write (data : T)
  | tryRead
  | read (timed : Bool)

/-- Where a thread is; only the reads go past `leaving` and `locking`. -/
inductive Pc (T : Type*)
  | idle
  | locking (op : Op T)
  | locked (op : Op T)
  | leaving
  | cleared (timed : Bool)
  | unlocked (timed : Bool)
  | blocked (timed : Bool)
  | woken (timed : Bool)
  | relocked (timed : Bool)

variable {T : Type*}

/-- The places where a thread holds the mutex. -/
def Pc.Holds : Pc T → Prop
  | .locked _ | .leaving | .cleared _ | .relocked _ => True
  | .idle | .locking _ | .unlocked _ | .blocked _ | .woken _ => False

def Pc.notified : Pc T → Pc T
  | .blocked timed => .woken timed
  | pc => pc

structure State (T : Type*) where
  dataQueue : List T
  mtx : Option ℕ
  emptyEv : Bool
  pc : ℕ → Pc T

def init : State T := ⟨[], none, false, fun _ => .idle⟩

inductive Action (T : Type*)
  | call (t : ℕ) (op : Op T)
  | lock (t : ℕ)
  /-- What the operation does under the mutex. -/
  | perform (t : ℕ)
  | unlock (t : ℕ)
  | wait (t : ℕ)
  | wake (t : ℕ)
  | timeout (t : ℕ)

namespace State

def move (s : State T) (t : ℕ) (pc : Pc T) : State T := { s with pc := update s.pc t pc }

/-- `empty_ev.set()`. -/
def setEvent (s : State T) : State T :=
  if s.emptyEv then s else { s with emptyEv := true, pc := fun u => (s.pc u).notified }

/-- `data_queue.push(data)`, and the event if the queue was empty. -/
def write (s : State T) (data : T) : State T :=
  let pushed := { s with dataQueue := s.dataQueue ++ [data] }
  if s.dataQueue.isEmpty then pushed.setEvent else pushed

def pop (s : State T) : State T := { s with dataQueue := s.dataQueue.tail }

/-- The pop of a read; the timed one returns at once. -/
def take (s : State T) (t : ℕ) (timed : Bool) : State T :=
  s.pop.move t (if timed then .idle else .leaving)

def perform (s : State T) (t : ℕ) : Op T → State T
  | .empty | .size => s.move t .leaving
  | .write data => (s.write data).move t .leaving
  | .tryRead => (if s.dataQueue.isEmpty then s else s.pop).move t .leaving
  | .read timed =>
    if s.dataQueue.isEmpty then { s.move t (.cleared timed) with emptyEv := false }
    else s.take t timed

end State

def next (s : State T) : Action T → Option (State T)
  | .call t op =>
    match s.pc t with
    | .idle => some (s.move t (.locking op))
    | _ => none
  | .lock t =>
    match s.pc t, s.mtx with
    | .locking op, none => some { s.move t (.locked op) with mtx := some t }
    | .woken timed, none => some { s.move t (.relocked timed) with mtx := some t }
    | _, _ => none
  | .perform t =>
    match s.pc t with
    | .locked op => some (s.perform t op)
    | .relocked timed => some (s.take t timed)
    | _ => none
  | .unlock t =>
    match s.pc t with
    | .leaving => some { s.move t .idle with mtx := none }
    | .cleared timed => some { s.move t (.unlocked timed) with mtx := none }
    | _ => none
  | .wait t =>
    match s.pc t with
    | .unlocked timed => some (s.move t (if s.emptyEv then .woken timed else .blocked timed))
    | _ => none
  | .wake t =>
    match s.pc t with
    | .blocked timed => some (s.move t (.woken timed))
    | _ => none
  -- `wait` returns false, and the read does too
  | .timeout t =>
    match s.pc t with
    | .blocked true => some (s.move t .idle)
    | _ => none

/-- The mutex is held by a thread inside an operation. -/
def HeldInside (s : State T) : Prop := ∀ t, s.mtx = some t → s.pc t ≠ .idle

/-- No timed read comes to its pop: it finds the queue empty, and does not come back. -/
def NoTimedTake (s : State T) : Action T → Prop
  | .perform t => (s.pc t = .locked (.read true) → s.dataQueue = []) ∧ s.pc t ≠ .relocked true
  | _ => True

/-- The mutex is held where the code has locked it. -/
def Held (s : State T) : Prop := Owned Pc.Holds s.mtx s.pc

section Steps

variable {s u : State T} {t : ℕ} {a : Action T}

/-- Where the thread of each step stands and what the step does. -/
theorem next_cases (h : next s a = some u) :
    match a with
    | .call t op => s.pc t = .idle ∧ u = s.move t (.locking op)
    | .lock t => s.mtx = none ∧ ∃ pc, u = { s.move t pc with mtx := some t } ∧
      ((∃ op, s.pc t = .locking op ∧ pc = .locked op) ∨
        ∃ timed, s.pc t = .woken timed ∧ pc = .relocked timed)
    | .perform t => (∃ op, s.pc t = .locked op ∧ u = s.perform t op) ∨
      ∃ timed, s.pc t = .relocked timed ∧ u = s.take t timed
    | .unlock t => ∃ pc, u = { s.move t pc with mtx := none } ∧
      (s.pc t = .leaving ∧ pc = .idle ∨ ∃ timed, s.pc t = .cleared timed ∧ pc = .unlocked timed)
    | .wait t => ∃ timed, s.pc t = .unlocked timed ∧
      u = s.move t (if s.emptyEv then .woken timed else .blocked timed)
    | .wake t => ∃ timed, s.pc t = .blocked timed ∧ u = s.move t (.woken timed)
    | .timeout t => s.pc t = .blocked true ∧ u = s.move t .idle := by
  cases a with
  | call t op | timeout t =>
    simp only [next] at h
    split at h
    case h_1 ht => exact ⟨ht, (Option.some.inj h).symm⟩
    case h_2 => cases h
  | wait t | wake t =>
    simp only [next] at h
    split at h
    case h_1 timed ht => exact ⟨timed, ht, (Option.some.inj h).symm⟩
    case h_2 => cases h
  | lock t =>
    simp only [next] at h
    split at h
    case h_1 op ht hfree =>
      exact ⟨hfree, _, (Option.some.inj h).symm, Or.inl ⟨op, ht, rfl⟩⟩
    case h_2 timed ht hfree =>
      exact ⟨hfree, _, (Option.some.inj h).symm, Or.inr ⟨timed, ht, rfl⟩⟩
    case h_3 => cases h
  | perform t =>
    simp only [next] at h
    split at h
    case h_1 op ht => exact Or.inl ⟨op, ht, (Option.some.inj h).symm⟩
    case h_2 timed ht => exact Or.inr ⟨timed, ht, (Option.some.inj h).symm⟩
    case h_3 => cases h
  | unlock t =>
    simp only [next] at h
    split at h
    case h_1 ht => exact ⟨_, (Option.some.inj h).symm, Or.inl ⟨ht, rfl⟩⟩
    case h_2 timed ht => exact ⟨_, (Option.some.inj h).symm, Or.inr ⟨timed, ht, rfl⟩⟩
    case h_3 => cases h

theorem holds_notified (pc : Pc T) : pc.notified.Holds ↔ pc.Holds := by
  cases pc <;> exact Iff.rfl

theorem held_init : Held (init : State T) := owned_free fun _ => id

theorem Held.move (h : Held s) {p : Pc T} (hp : p.Holds ↔ (s.pc t).Holds) :
    Held (s.move t p) :=
  Owned.move h hp

/-- A write does nothing to the mutex, and notifies at most. -/
theorem write_cases (s : State T) (data : T) : (s.write data).mtx = s.mtx ∧
    ((s.write data).pc = s.pc ∨ (s.write data).pc = fun t => (s.pc t).notified) := by
  unfold State.write
  split
  · unfold State.setEvent
    by_cases hset : s.emptyEv
    · rw [if_pos hset]
      exact ⟨rfl, Or.inl rfl⟩
    · rw [if_neg hset]
      exact ⟨rfl, Or.inr rfl⟩
  · exact ⟨rfl, Or.inl rfl⟩

theorem holds_write (s : State T) (data : T) (v : ℕ) :
    ((s.write data).pc v).Holds ↔ (s.pc v).Holds := by
  rcases (write_cases s data).2 with hpc | hpc <;> rw [hpc]
  exact holds_notified (s.pc v)

theorem Held.write (h : Held s) (data : T) : Held (s.write data) := by
  rw [Held, (write_cases s data).1]
  exact Owned.keep h (holds_write s data)

theorem Held.pop (h : Held s) : Held s.pop := h

/-- A read without a timeout keeps the mutex until its unlock. -/
theorem Held.take (h : Held s) (ht : (s.pc t).Holds) : Held (s.take t false) :=
  h.pop.move (iff_of_true trivial ht)

/-- An operation that does not return from where it holds the mutex keeps it owned. -/
theorem Held.perform (h : Held s) {op : Op T} (ht : s.pc t = .locked op)
    (hG : op = .read true → s.dataQueue = []) : Held (s.perform t op) := by
  have hholds : (s.pc t).Holds := by rw [ht]; trivial
  cases op with
  | empty | size => exact h.move (iff_of_true trivial hholds)
  | write data =>
    exact (h.write data).move (iff_of_true trivial ((holds_write s data t).mpr hholds))
  | tryRead =>
    simp only [State.perform]
    split
    · exact h.move (iff_of_true trivial hholds)
    · exact h.pop.move (iff_of_true trivial hholds)
  | read timed =>
    simp only [State.perform]
    split
    · exact h.move (p := .cleared timed) (iff_of_true trivial hholds)
    · rename_i hqueue
      cases timed with
      | true => exact absurd (by rw [hG rfl]; rfl) hqueue
      | false => exact h.take hholds

theorem Held.next (h : Held s) (hG : NoTimedTake s a) (hstep : next s a = some u) : Held u := by
  cases a with
  | call t op =>
    obtain ⟨ht, rfl⟩ := next_cases hstep
    exact h.move (by rw [ht]; exact Iff.rfl)
  | lock t =>
    obtain ⟨hfree, pc, rfl, hpc⟩ := next_cases hstep
    rw [Held, hfree] at h
    refine h.lock ?_
    rcases hpc with ⟨op, -, rfl⟩ | ⟨timed, -, rfl⟩ <;> trivial
  | perform t =>
    rcases next_cases hstep with ⟨op, ht, rfl⟩ | ⟨timed, ht, rfl⟩
    · exact h.perform ht fun hop => hG.1 (by rw [ht, hop])
    · cases timed with
      | true => exact absurd ht hG.2
      | false => exact h.take (by rw [ht]; trivial)
  | unlock t =>
    obtain ⟨pc, rfl, hpc⟩ := next_cases hstep
    rcases hpc with ⟨ht, rfl⟩ | ⟨timed, ht, rfl⟩
    · exact Owned.unlock h (by rw [ht]; trivial) id
    · exact Owned.unlock h (by rw [ht]; trivial) id
  | wait t =>
    obtain ⟨timed, ht, rfl⟩ := next_cases hstep
    refine h.move ?_
    rw [ht]
    split <;> exact Iff.rfl
  | wake t =>
    obtain ⟨timed, ht, rfl⟩ := next_cases hstep
    exact h.move (by rw [ht]; exact Iff.rfl)
  | timeout t =>
    obtain ⟨ht, rfl⟩ := next_cases hstep
    exact h.move (by rw [ht]; exact Iff.rfl)

theorem Held.heldInside (h : Held s) : HeldInside s := by
  intro t ht hidle
  have hholds := (h t).mp ht
  rw [hidle] at hholds
  exact hholds

/-- The timed read that takes a value is outside at once, with the mutex. -/
theorem take_leaves_held (ht : s.mtx = some t) : ¬ HeldInside (s.take t true) :=
  fun hinside => hinside t ht (by simp [State.take, State.move])

theorem timed_take_leaves_held (h : Held s) (hstep : next s a = some u) (hG : ¬ NoTimedTake s a) :
    ¬ HeldInside u := by
  cases a with
  | perform t =>
    rcases next_cases hstep with ⟨op, ht, rfl⟩ | ⟨timed, ht, rfl⟩
    · have hmtx : s.mtx = some t := (h t).mpr (by rw [ht]; trivial)
      by_cases hop : op = .read true
      · subst hop
        have hqueue : s.dataQueue ≠ [] := by
          intro hempty
          exact hG ⟨fun _ => hempty, by simp [ht]⟩
        rw [State.perform, if_neg (by simpa using hqueue)]
        exact take_leaves_held hmtx
      · exact absurd ⟨fun heq => absurd (by simpa [ht] using heq) hop, by simp [ht]⟩ hG
    · have hmtx : s.mtx = some t := (h t).mpr (by rw [ht]; trivial)
      cases timed with
      | true => exact take_leaves_held hmtx
      | false => exact absurd ⟨by simp [ht], by simp [ht]⟩ hG
  | _ => exact absurd trivial hG

end Steps

/-- In a run of any number of threads the mutex is only held inside the operations if and
only if no timed read takes a value. -/
theorem heldInside_iff (as : List (Action T)) :
    Throughout next HeldInside (init : State T) as ↔ StepsMeet next NoTimedTake init as :=
  throughout_iff_stepsMeet (fun _ _ _ h hG hstep => Held.next h hG hstep)
    (fun _ h => h.heldInside) (fun _ _ _ h hstep hG => timed_take_leaves_held h hstep hG)
    held_init

/-- A value is written, and a timed read takes it and is gone with the mutex. -/
theorem timed_read_keeps_mutex :
    ¬ ∀ as : List (Action ℕ), Throughout next HeldInside (init : State ℕ) as := by
  intro h
  let trace : List (Action ℕ) := [.call 0 (.write 7), .lock 0, .perform 0, .unlock 0,
    .call 1 (.read true), .lock 1, .perform 1]
  obtain ⟨s, hs, hmtx, hpc⟩ : ∃ s, run next init trace = some s ∧ s.mtx = some 1 ∧
      s.pc 1 = .idle := ⟨_, rfl, rfl, rfl⟩
  exact (h trace).final hs 1 hmtx hpc

section Stuck

variable {s u : State T} {t : ℕ} {a : Action T}

/-- The mutex is held from outside, by a thread that does not stand where it unlocks it. -/
def Stuck (t : ℕ) (s : State T) : Prop := s.mtx = some t ∧ ∀ v, ¬ (s.pc v).Holds

theorem Stuck.move (h : Stuck t s) {pc : Pc T} (hpc : ¬ pc.Holds) (v : ℕ) :
    Stuck t (s.move v pc) := by
  refine ⟨h.1, fun w => ?_⟩
  by_cases hwv : w = v
  · subst w
    simpa [State.move] using hpc
  · simpa [State.move, hwv] using h.2 w

theorem Stuck.next (h : Stuck t s) (hstep : next s a = some u) : Stuck t u := by
  cases a with
  | call v op =>
    obtain ⟨-, rfl⟩ := next_cases hstep
    exact h.move id v
  | lock v =>
    obtain ⟨hfree, -⟩ := next_cases hstep
    rw [h.1] at hfree
    cases hfree
  | perform v =>
    rcases next_cases hstep with ⟨op, hv, -⟩ | ⟨timed, hv, -⟩
    · exact absurd (by rw [hv]; trivial) (h.2 v)
    · exact absurd (by rw [hv]; trivial) (h.2 v)
  | unlock v =>
    obtain ⟨pc, -, ⟨hv, -⟩ | ⟨timed, hv, -⟩⟩ := next_cases hstep
    · exact absurd (by rw [hv]; trivial) (h.2 v)
    · exact absurd (by rw [hv]; trivial) (h.2 v)
  | wait v =>
    obtain ⟨timed, -, rfl⟩ := next_cases hstep
    refine h.move ?_ v
    split <;> exact id
  | wake v =>
    obtain ⟨timed, -, rfl⟩ := next_cases hstep
    exact h.move id v
  | timeout v =>
    obtain ⟨-, rfl⟩ := next_cases hstep
    exact h.move id v

theorem Held.stuck (h : Held s) (ht : (s.pc t).Holds) : Stuck t (s.take t true) := by
  refine ⟨(h t).mpr ht, fun v => ?_⟩
  by_cases hvt : v = t
  · subst v
    simp [State.take, State.move, Pc.Holds]
  · have hv : ¬ (s.pc v).Holds := fun hholds => hvt (h.exclusive hholds ht)
    simpa [State.take, State.pop, State.move, hvt] using hv

/-- Nobody gets the mutex any more after the timed read that has left with it. -/
theorem stuck_of_take (h : Held s) (ht : (s.pc t).Holds) {as : List (Action T)}
    (hrun : run next (s.take t true) as = some u) : Stuck t u :=
  run_keeps (fun _ _ _ hs hstep => Stuck.next hs hstep) (h.stuck ht) hrun

end Stuck

section Refinement

/-- What a thread does in the pipe whose sections under the mutex are one step each. -/
def Pc.view : Pc T → Pipe.Pc
  | .idle | .locking _ | .locked _ | .leaving => .idle
  | .cleared timed | .unlocked timed => .cleared timed
  | .blocked timed => .blocked timed
  | .woken timed | .relocked timed => .woken timed

/-- The queue, the event and the threads, as the other pipe has them. -/
structure Shows (s : State T) (v : Pipe.State T) : Prop where
  dataQueue : v.dataQueue = s.dataQueue
  emptyEv : v.emptyEv = s.emptyEv
  pc : ∀ t, v.pc t = (s.pc t).view

/-- The mutex is free there while it is held where the code has locked it, and held there
by the thread that has left with it. -/
structure Views (s : State T) (v : Pipe.State T) : Prop where
  shows : Shows s v
  mtx : Held s ∧ v.mtx = none ∨ ∃ t, Stuck t s ∧ v.mtx = some t

/-- A step of the other pipe, or none. -/
def AtMostOne (v w : Pipe.State T) : Prop :=
  w = v ∨ ∃ b, Pipe.next v b = some w

variable {s u : State T} {v : Pipe.State T} {t : ℕ} {a : Action T}

theorem view_notified (pc : Pc T) : pc.notified.view = pc.view.notified := by
  cases pc <;> rfl

/-- A thread moves there as it does here. -/
theorem Shows.move (h : Shows s v) {pc : Pc T} {pc' : Pipe.Pc} (hpc : pc' = pc.view) :
    Shows (s.move t pc) (v.move t pc') := by
  refine ⟨h.dataQueue, h.emptyEv, fun x => ?_⟩
  by_cases hxt : x = t
  · subst x
    simp [State.move, Pipe.State.move, hpc]
  · simpa [State.move, Pipe.State.move, hxt] using h.pc x

/-- A thread moves without being seen to. -/
theorem Shows.stay (h : Shows s v) {pc : Pc T} (hpc : pc.view = (s.pc t).view) :
    Shows (s.move t pc) v := by
  have hself : v.move t (v.pc t) = v := by simp [Pipe.State.move]
  rw [← hself]
  exact h.move (by rw [h.pc t, hpc])

theorem Shows.pop (h : Shows s v) : Shows s.pop v.pop := by
  obtain ⟨hqueue, hevent, hpc⟩ := h
  cases hv : v.dataQueue with
  | nil =>
    simp only [Pipe.State.pop, hv]
    exact ⟨by simp [State.pop, hv, ← hqueue], hevent, hpc⟩
  | cons data rest =>
    simp only [Pipe.State.pop, hv]
    exact ⟨by simp [State.pop, hv, ← hqueue], hevent, hpc⟩

theorem Shows.take (h : Shows s v) (timed : Bool) :
    Shows (s.take t timed) (v.pop.leave t timed) := by
  have hmove : Shows (s.take t timed) (v.pop.move t .idle) :=
    h.pop.move (by cases timed <;> rfl)
  exact ⟨hmove.dataQueue, hmove.emptyEv, hmove.pc⟩

theorem Shows.setEvent (h : Shows s v) : Shows s.setEvent v.setEvent := by
  unfold State.setEvent Pipe.State.setEvent
  rw [h.emptyEv]
  split
  · exact h
  · refine ⟨h.dataQueue, rfl, fun x => ?_⟩
    exact (congrArg Pipe.Pc.notified (h.pc x)).trans (view_notified (s.pc x)).symm

theorem Shows.write (h : Shows s v) (data : T) : Shows (s.write data)
    (if v.dataQueue.isEmpty then (v.push data).setEvent else v.push data) := by
  have hpush : Shows { s with dataQueue := s.dataQueue ++ [data] } (v.push data) :=
    ⟨by simp [Pipe.State.push, h.dataQueue], h.emptyEv, h.pc⟩
  unfold State.write
  rw [h.dataQueue]
  split
  · exact hpush.setEvent
  · exact hpush

theorem push_mtx (v : Pipe.State T) (data : T) :
    (if v.dataQueue.isEmpty then (v.push data).setEvent else v.push data).mtx = v.mtx := by
  split
  · unfold Pipe.State.setEvent
    split <;> rfl
  · rfl

theorem pop_mtx (v : Pipe.State T) : v.pop.mtx = v.mtx := by
  unfold Pipe.State.pop
  split <;> rfl

/-- A section under the mutex is one step of the other pipe; only the timed read that
takes a value has the mutex afterwards. -/
theorem Shows.perform (h : Shows s v) {op : Op T} (ht : s.pc t = .locked op)
    (hfree : v.mtx = none) : ∃ w, AtMostOne v w ∧ Shows (s.perform t op) w ∧
      ((op = .read true → s.dataQueue = []) ∧ w.mtx = none ∨
        s.perform t op = s.take t true ∧ w.mtx = some t) := by
  have henter : v.CanEnter t := ⟨by rw [h.pc t, ht]; rfl, hfree⟩
  cases op with
  | empty | size =>
    exact ⟨v, Or.inl rfl, h.stay (by rw [ht]; rfl), Or.inl ⟨by simp, hfree⟩⟩
  | write data =>
    refine ⟨_, Or.inr ⟨.write t data, ?_⟩, (h.write data).stay ?_, Or.inl ⟨by simp, ?_⟩⟩
    · exact (if_pos henter).trans (apply_ite some _ _ _).symm
    · rcases (write_cases s data).2 with hpc | hpc
      · rw [hpc, ht]
        rfl
      · simp only [hpc, ht]
        rfl
    · rw [push_mtx, hfree]
  | tryRead =>
    by_cases hqueue : s.dataQueue.isEmpty
    · simp only [State.perform, if_pos hqueue]
      exact ⟨v, Or.inl rfl, h.stay (by rw [ht]; rfl), Or.inl ⟨by simp, hfree⟩⟩
    · simp only [State.perform, if_neg hqueue]
      refine ⟨v.pop, Or.inr ⟨.tryRead t, ?_⟩, h.pop.stay ?_, Or.inl ⟨by simp, ?_⟩⟩
      · rw [← h.dataQueue] at hqueue
        exact (if_pos henter).trans (if_neg hqueue)
      · exact (congrArg Pc.view ht).symm
      · rw [pop_mtx, hfree]
  | read timed =>
    by_cases hqueue : s.dataQueue.isEmpty
    · simp only [State.perform, if_pos hqueue]
      have hmove : Shows (s.move t (.cleared timed)) (v.move t (.cleared timed)) := h.move rfl
      refine ⟨{ v.move t (.cleared timed) with emptyEv := false }, Or.inr ⟨.read t timed, ?_⟩,
        ⟨hmove.dataQueue, rfl, hmove.pc⟩, Or.inl ⟨fun _ => List.isEmpty_iff.mp hqueue, hfree⟩⟩
      rw [← h.dataQueue] at hqueue
      exact (if_pos henter).trans (if_pos hqueue)
    · simp only [State.perform, if_neg hqueue]
      refine ⟨v.pop.leave t timed, Or.inr ⟨.read t timed, ?_⟩, h.take timed, ?_⟩
      · rw [← h.dataQueue] at hqueue
        exact (if_pos henter).trans (if_neg hqueue)
      · cases timed with
        | true => exact Or.inr ⟨rfl, rfl⟩
        | false => exact Or.inl ⟨by simp, rfl⟩

theorem Views.free (h : Views s v) (ht : (s.pc t).Holds) : v.mtx = none := by
  rcases h.mtx with ⟨-, hfree⟩ | ⟨w, hstuck, -⟩
  · exact hfree
  · exact absurd ht (hstuck.2 t)

/-- What the mutex is there after a step that does not change it. -/
theorem Views.stay (h : Views s v) (hstep : next s a = some u) (hG : NoTimedTake s a)
    {w : Pipe.State T} (hw : w.mtx = v.mtx) :
    Held u ∧ w.mtx = none ∨ ∃ t, Stuck t u ∧ w.mtx = some t := by
  rcases h.mtx with ⟨hheld, hfree⟩ | ⟨t, hstuck, ht⟩
  · exact Or.inl ⟨hheld.next hG hstep, hw.trans hfree⟩
  · exact Or.inr ⟨t, hstuck.next hstep, hw.trans ht⟩

/-- And after the timed read that leaves with it. -/
theorem Views.leave (h : Views s v) (ht : (s.pc t).Holds) {w : Pipe.State T}
    (hw : w.mtx = some t) :
    Held (s.take t true) ∧ w.mtx = none ∨ ∃ x, Stuck x (s.take t true) ∧ w.mtx = some x := by
  rcases h.mtx with ⟨hheld, -⟩ | ⟨x, hstuck, -⟩
  · exact Or.inr ⟨t, hheld.stuck ht, hw⟩
  · exact absurd ht (hstuck.2 t)

theorem Views.next (h : Views s v) (hstep : next s a = some u) :
    ∃ w, AtMostOne v w ∧ Views u w := by
  have hstep' := next_cases hstep
  cases a with
  | call t op =>
    obtain ⟨ht, hu⟩ := hstep'
    refine ⟨v, Or.inl rfl, ?_, h.stay hstep trivial rfl⟩
    rw [hu]
    exact h.shows.stay (by rw [ht]; rfl)
  | lock t =>
    obtain ⟨-, pc, hu, hpc⟩ := hstep'
    have hmove : Shows (s.move t pc) v := by
      apply h.shows.stay
      rcases hpc with ⟨op, ht, rfl⟩ | ⟨timed, ht, rfl⟩ <;> rw [ht] <;> rfl
    refine ⟨v, Or.inl rfl, ?_, h.stay hstep trivial rfl⟩
    rw [hu]
    exact ⟨hmove.dataQueue, hmove.emptyEv, hmove.pc⟩
  | unlock t =>
    obtain ⟨pc, hu, hpc⟩ := hstep'
    have hmove : Shows (s.move t pc) v := by
      apply h.shows.stay
      rcases hpc with ⟨ht, rfl⟩ | ⟨timed, ht, rfl⟩ <;> rw [ht] <;> rfl
    refine ⟨v, Or.inl rfl, ?_, h.stay hstep trivial rfl⟩
    rw [hu]
    exact ⟨hmove.dataQueue, hmove.emptyEv, hmove.pc⟩
  | wait t =>
    obtain ⟨timed, ht, hu⟩ := hstep'
    refine ⟨v.move t (if v.emptyEv then .woken timed else .blocked timed),
      Or.inr ⟨.wait t, ?_⟩, ?_, h.stay hstep trivial rfl⟩
    · simp only [Pipe.next, h.shows.pc t, ht, Pc.view]
    · rw [hu, h.shows.emptyEv]
      exact h.shows.move (by split <;> rfl)
  | wake t =>
    obtain ⟨timed, ht, hu⟩ := hstep'
    refine ⟨v.move t (.woken timed), Or.inr ⟨.wake t, ?_⟩, ?_, h.stay hstep trivial rfl⟩
    · simp only [Pipe.next, h.shows.pc t, ht, Pc.view]
    · rw [hu]
      exact h.shows.move rfl
  | timeout t =>
    obtain ⟨ht, hu⟩ := hstep'
    refine ⟨v.move t .idle, Or.inr ⟨.timeout t, ?_⟩, ?_, h.stay hstep trivial rfl⟩
    · simp only [Pipe.next, h.shows.pc t, ht, Pc.view]
    · rw [hu]
      exact h.shows.move rfl
  | perform t =>
    rcases hstep' with ⟨op, ht, hu⟩ | ⟨timed, ht, hu⟩
    · have hholds : (s.pc t).Holds := by rw [ht]; trivial
      have hfree := h.free hholds
      obtain ⟨w, hone, hshows, hmtx⟩ := h.shows.perform ht hfree
      rw [← hu] at hshows hmtx
      refine ⟨w, hone, hshows, ?_⟩
      rcases hmtx with ⟨hop, hnone⟩ | ⟨htake, hsome⟩
      · refine h.stay hstep ⟨fun heq => hop ?_, by simp [ht]⟩ (hnone.trans hfree.symm)
        simpa [ht] using heq
      · rw [htake]
        exact h.leave hholds hsome
    · have hholds : (s.pc t).Holds := by rw [ht]; trivial
      have hfree := h.free hholds
      refine ⟨v.pop.leave t timed, Or.inr ⟨.resume t, ?_⟩, ?_, ?_⟩
      · simp only [Pipe.next, h.shows.pc t, ht, Pc.view, hfree]
      · rw [hu]
        exact h.shows.take timed
      · cases timed with
        | true =>
          rw [hu]
          exact h.leave hholds rfl
        | false => exact h.stay hstep ⟨by simp [ht], by simp [ht]⟩ hfree.symm

/-- Each run of the pipe with its lock steps is, seen from outside the sections under the
mutex, a run of the pipe whose sections are single steps. -/
theorem run_views {as : List (Action T)} (hrun : run next (init : State T) as = some u) :
    ∃ w, Reaches (fun v (_ : Action T) w => AtMostOne v w) Pipe.init as w ∧ Views u w :=
  run_simulated (fun _ _ _ _ h hstep => Views.next h hstep)
    ⟨⟨rfl, rfl, fun _ => rfl⟩, Or.inl ⟨held_init, rfl⟩⟩ hrun

end Refinement

end BoxUtils.PipeLocks
