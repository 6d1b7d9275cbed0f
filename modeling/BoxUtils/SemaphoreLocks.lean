import BoxUtils.Locks
import BoxUtils.Semaphore

/-!
Who holds `val_mutex` of the semaphore. On the way through `wait` that does not sleep the
mutex is held from the test of the counter to the unlock. A thread that has slept comes to
the same `sem_value --` without it; as long as none does, the counts are conserved.
-/
namespace BoxUtils.Semaphore

open Runs Locks

/-- The places where a thread holds the mutex. -/
def Pc.Holds : Pc → Prop
  | .posting | .incrementing _ | .adding _ _ | .notifying | .testing _ | .releasing _
  | .decrementing true | .taking _ true | .unlocking => True
  | .idle | .sleepy _ | .blocked _ | .woken _ | .decrementing false | .taking _ false => False

def Action.thread : Action → ℕ
  | .lockPost t | .testPost t | .load t | .increment t | .notify t | .lockWait t _ | .testWait t
  | .release t | .block t | .wake t | .timeout t | .resume t | .decrement t | .unlock t => t

/-- The steps that write the counter. -/
def Action.Stores : Action → Prop
  | .increment _ | .decrement _ => True
  | _ => False

def Action.Unlocks : Action → Prop
  | .release _ | .unlock _ => True
  | _ => False

/-- The counter is written and the mutex unlocked in the hands of the thread only, and
no thread is outside with the mutex afterwards. -/
structure Disciplined (s : State) (a : Action) (u : State) : Prop where
  modifies : a.Stores ∨ u.semValue ≠ s.semValue → s.valMutex = some a.thread
  unlocks : a.Unlocks → s.valMutex = some a.thread
  returns : ∀ t, u.pc t = .idle → u.valMutex ≠ some t

/-- All that the step leads to is within the discipline. -/
def KeepsDiscipline (s : State) (a : Action) : Prop :=
  ∀ u, next s a = some u → Disciplined s a u

/-- No thread that has slept goes on to the store of its `sem_value --`. -/
def NotAfterSleep (s : State) : Action → Prop
  | .decrement t => ∀ loaded, s.pc t ≠ .taking loaded false
  | _ => True

section Cases

variable {s u : State}

/-- Where the thread of each step stands and what the step does. -/
theorem next_cases {a : Action} (h : next s a = some u) :
    match a with
    | .lockPost t => s.pc t = .idle ∧ s.valMutex = none ∧
      u = { s.move t .posting with valMutex := some t }
    | .testPost t => s.pc t = .posting ∧ u = s.move t (.incrementing (s.semValue = 0))
    | .load t =>
      (∃ wasZero, s.pc t = .incrementing wasZero ∧ u = s.move t (.adding s.semValue wasZero)) ∨
        ∃ locked, s.pc t = .decrementing locked ∧ u = s.move t (.taking s.semValue locked)
    | .increment t => ∃ loaded wasZero, s.pc t = .adding loaded wasZero ∧
      u = { s.move t (if wasZero then .notifying else .unlocking) with
        semValue := loaded + 1, posts := s.posts + 1 }
    | .notify t => s.pc t = .notifying ∧
      u = { s with pc := Function.update (fun u => (s.pc u).notified) t .unlocking }
    | .lockWait t kind => s.pc t = .idle ∧ s.valMutex = none ∧
      u = { s.move t (.testing kind) with valMutex := some t }
    | .testWait t => ∃ kind pc, s.pc t = .testing kind ∧ u = s.move t pc ∧
      (s.semValue = 0 ∧ (pc = .unlocking ∨ pc = .releasing kind) ∨
        s.semValue ≠ 0 ∧ pc = .decrementing true)
    | .release t => ∃ kind, s.pc t = .releasing kind ∧
      u = { s.move t (.sleepy kind) with valMutex := none }
    | .block t => ∃ kind, s.pc t = .sleepy kind ∧ u = s.move t (.blocked kind)
    | .wake t => ∃ kind, s.pc t = .blocked kind ∧ u = s.move t (.woken kind)
    | .timeout t => (s.pc t = .blocked .timedTrywait ∨ s.pc t = .woken .timedTrywait) ∧
      u = s.move t .idle
    | .resume t => ∃ kind, s.pc t = .woken kind ∧ u = s.move t (.decrementing false)
    | .decrement t => ∃ loaded locked, s.pc t = .taking loaded locked ∧
      u = { s.move t .unlocking with semValue := loaded - 1, waits := s.waits + 1 }
    | .unlock t => s.pc t = .unlocking ∧ u = { s.move t .idle with valMutex := none } := by
  cases a with
  | lockPost t | lockWait t kind =>
    obtain ⟨⟨hidle, hfree⟩, h⟩ := Option.ite_none_right_eq_some.mp h
    exact ⟨hidle, hfree, (Option.some.inj h).symm⟩
  | notify t | unlock t =>
    obtain ⟨ht, h⟩ := Option.ite_none_right_eq_some.mp h
    exact ⟨ht, (Option.some.inj h).symm⟩
  | testPost t =>
    simp only [next] at h
    split at h
    case h_1 ht => exact ⟨ht, (Option.some.inj h).symm⟩
    case h_2 => cases h
  | release t | block t | wake t | resume t =>
    simp only [next] at h
    split at h
    case h_1 x ht => exact ⟨x, ht, (Option.some.inj h).symm⟩
    case h_2 => cases h
  | increment t | decrement t =>
    simp only [next] at h
    split at h
    case h_1 loaded x ht => exact ⟨loaded, x, ht, (Option.some.inj h).symm⟩
    case h_2 => cases h
  | load t =>
    simp only [next] at h
    split at h
    case h_1 wasZero ht => exact Or.inl ⟨wasZero, ht, (Option.some.inj h).symm⟩
    case h_2 locked ht => exact Or.inr ⟨locked, ht, (Option.some.inj h).symm⟩
    case h_3 => cases h
  | timeout t =>
    simp only [next] at h
    split at h
    case h_1 ht => exact ⟨Or.inl ht, (Option.some.inj h).symm⟩
    case h_2 ht => exact ⟨Or.inr ht, (Option.some.inj h).symm⟩
    case h_3 => cases h
  | testWait t =>
    simp only [next] at h
    split at h
    case h_2 => cases h
    case h_1 kind ht =>
      by_cases hzero : s.semValue = 0
      · rw [if_pos hzero] at h
        split at h
        · exact ⟨_, _, ht, (Option.some.inj h).symm, Or.inl ⟨hzero, Or.inl rfl⟩⟩
        · exact ⟨_, _, ht, (Option.some.inj h).symm, Or.inl ⟨hzero, Or.inr rfl⟩⟩
      · rw [if_neg hzero] at h
        exact ⟨_, _, ht, (Option.some.inj h).symm, Or.inr ⟨hzero, rfl⟩⟩

end Cases

/-- The mutex is held where the code has locked it. -/
def Held (s : State) : Prop := Owned Pc.Holds s.valMutex s.pc

section Steps

variable {s u : State} {t : ℕ} {a : Action}

theorem holds_notified (pc : Pc) : pc.notified.Holds ↔ pc.Holds := by
  cases pc <;> exact Iff.rfl

theorem held_init (n : UInt32) : Held (init n) := owned_free fun _ => id

theorem Held.move (h : Held s) {pc : Pc} (hpc : pc.Holds ↔ (s.pc t).Holds) : Held (s.move t pc) :=
  Owned.move h hpc

theorem Held.next (h : Held s) (hG : NotAfterSleep s a) (hstep : next s a = some u) : Held u := by
  cases a with
  | lockPost t | lockWait t kind =>
    obtain ⟨-, hfree, rfl⟩ := next_cases hstep
    rw [Held, hfree] at h
    exact h.lock trivial
  | unlock t =>
    obtain ⟨ht, rfl⟩ := next_cases hstep
    exact Owned.unlock h (by rw [ht]; trivial) id
  | release t =>
    obtain ⟨kind, ht, rfl⟩ := next_cases hstep
    exact Owned.unlock h (by rw [ht]; trivial) id
  | notify t =>
    obtain ⟨ht, rfl⟩ := next_cases hstep
    refine (Owned.keep h fun t => holds_notified (s.pc t)).move ?_
    rw [ht]
    exact Iff.rfl
  | decrement t =>
    obtain ⟨loaded, locked, ht, rfl⟩ := next_cases hstep
    cases locked with
    | true =>
      refine Owned.move h ?_
      rw [ht]
      exact Iff.rfl
    | false => exact absurd ht (hG loaded)
  | increment t =>
    obtain ⟨loaded, wasZero, ht, rfl⟩ := next_cases hstep
    refine Owned.move h ?_
    rw [ht]
    cases wasZero <;> exact Iff.rfl
  | load t =>
    rcases next_cases hstep with ⟨wasZero, ht, rfl⟩ | ⟨locked, ht, rfl⟩
    · refine h.move ?_
      rw [ht]
      exact Iff.rfl
    · refine h.move ?_
      rw [ht]
      cases locked <;> exact Iff.rfl
  | testWait t =>
    obtain ⟨kind, pc, ht, rfl, hpc⟩ := next_cases hstep
    refine h.move ?_
    rw [ht]
    rcases hpc with ⟨-, rfl | rfl⟩ | ⟨-, rfl⟩ <;> exact Iff.rfl
  | timeout t =>
    obtain ⟨ht, rfl⟩ := next_cases hstep
    refine h.move ?_
    rcases ht with ht | ht <;> rw [ht] <;> exact Iff.rfl
  | testPost t =>
    obtain ⟨ht, rfl⟩ := next_cases hstep
    refine h.move ?_
    rw [ht]
    exact Iff.rfl
  | block t | wake t | resume t =>
    obtain ⟨kind, ht, rfl⟩ := next_cases hstep
    refine h.move ?_
    rw [ht]
    exact Iff.rfl

/-- Whatever changes the counter is a store. -/
theorem stores_of_change (hstep : next s a = some u) (hchange : u.semValue ≠ s.semValue) :
    a.Stores := by
  cases a with
  | increment t | decrement t => trivial
  | _ => exact absurd (accounts_of_other hstep (by simp) (by simp)).1 hchange

/-- A thread that has not slept holds the mutex where it stores or unlocks. -/
theorem holds_of_touch (hG : NotAfterSleep s a) (hstep : next s a = some u)
    (htouch : a.Stores ∨ a.Unlocks) : (s.pc a.thread).Holds := by
  cases a with
  | increment t =>
    obtain ⟨loaded, wasZero, ht, -⟩ := next_cases hstep
    rw [Action.thread, ht]
    trivial
  | release t =>
    obtain ⟨kind, ht, -⟩ := next_cases hstep
    rw [Action.thread, ht]
    trivial
  | unlock t =>
    obtain ⟨ht, -⟩ := next_cases hstep
    rw [Action.thread, ht]
    trivial
  | decrement t =>
    obtain ⟨loaded, locked, ht, -⟩ := next_cases hstep
    cases locked with
    | true =>
      rw [Action.thread, ht]
      trivial
    | false => exact absurd ht (hG loaded)
  | _ => exact absurd htouch (not_or_intro id id)

/-- The store after a sleep writes the counter without the mutex. -/
theorem decrement_after_sleep (h : Held s) {loaded : UInt32} (ht : s.pc t = .taking loaded false) :
    ¬ Disciplined s (.decrement t) u := by
  intro hdisciplined
  have hholds := (h t).mp (hdisciplined.modifies (Or.inl trivial))
  rw [ht] at hholds
  exact hholds

/-- Where the mutex is owned, a step is within the discipline exactly when it is not the
store of a thread that has slept. -/
theorem keepsDiscipline_iff (h : Held s) (hstep : next s a = some u) :
    KeepsDiscipline s a ↔ NotAfterSleep s a := by
  constructor
  · intro hkeeps
    cases a with
    | decrement t => exact fun loaded ht => decrement_after_sleep h ht (hkeeps u hstep)
    | _ => trivial
  · intro hG v hv
    refine ⟨fun hmodifies => ?_, fun hunlocks => ?_, fun t hidle hmutex => ?_⟩
    · have hstores : a.Stores := hmodifies.elim id (stores_of_change hv)
      exact (h a.thread).mpr (holds_of_touch hG hv (Or.inl hstores))
    · exact (h a.thread).mpr (holds_of_touch hG hv (Or.inr hunlocks))
    · have hholds := (h.next hG hv t).mp hmutex
      rw [hidle] at hholds
      exact hholds

end Steps

/-- A run of any number of threads keeps the lock discipline if and only if no thread that
has slept on the condition variable goes on to store the count it takes. -/
theorem lockDiscipline_iff (n : UInt32) (as : List Action) :
    StepsMeet next KeepsDiscipline (init n) as ↔ StepsMeet next NotAfterSleep (init n) as :=
  stepsMeet_iff_stepsMeet (fun _ _ _ h hG hstep => Held.next h hG hstep)
    (fun _ _ _ h hstep => keepsDiscipline_iff h hstep) (held_init n)

/-- A thread sleeps, is woken by a post, and takes the count with the mutex free. -/
theorem decrements_unlocked : ¬ ∀ (n : UInt32) (as : List Action),
    StepsMeet next KeepsDiscipline (init n) as := by
  intro h
  let woken := sleepTrace 0 ++ [.lockPost 1, .testPost 1, .load 1, .increment 1, .notify 1,
    .unlock 1, .resume 0, .load 0]
  have hlast : (run next (init 0) woken).map (fun s => (s.pc 0, s.valMutex)) =
      some (.taking 1 false, none) := by
    decide
  obtain ⟨s, hs, hstands⟩ := Option.map_eq_some_iff.mp hlast
  obtain ⟨ht, hmutex⟩ := Prod.mk.inj hstands
  have hstep : next s (.decrement 0) = some { s.move 0 .unlocking with
      semValue := 1 - 1, waits := s.waits + 1 } := by
    simp only [next, ht]
  have hmeets := (h 0 (woken ++ [.decrement 0])).after hs
  have hheld := ((hmeets _ hstep).1 _ hstep).modifies (Or.inl trivial)
  rw [hmutex] at hheld
  cases hheld

section Accounts

variable {n : UInt32} {s u : State} {t : ℕ} {a : Action}

/-- What a thread knows of the counter where it holds the mutex. -/
def Pc.Knows (v : UInt32) : Pc → Prop
  | .adding loaded _ => v = loaded
  | .decrementing true => v ≠ 0
  | .taking loaded true => v = loaded ∧ v ≠ 0
  | _ => True

/-- No step leaves the counter above the top of its range. -/
def BelowTop (s : State) : Action → Prop
  | .increment _ => s.semValue.toNat + 1 < UInt32.size
  | _ => True

theorem knows_of_not_holds {pc : Pc} (h : ¬ pc.Holds) (v : UInt32) : pc.Knows v := by
  cases pc with
  | decrementing locked | taking loaded locked =>
    cases locked with
    | true => exact absurd trivial h
    | false => trivial
  | adding loaded wasZero => exact absurd trivial h
  | _ => trivial

/-- The mutex is held where the code has locked it, and what was seen under it still holds. -/
structure Informed (s : State) : Prop where
  held : Held s
  knows : ∀ t, (s.pc t).Knows s.semValue

/-- A thread moves without a store, to a place where it knows what it has seen. -/
theorem Informed.move (h : Informed s) {pc : Pc} (hpc : pc.Knows s.semValue) (v : ℕ) :
    ((s.move t pc).pc v).Knows s.semValue := by
  by_cases hvt : v = t
  · subst v
    simpa [State.move] using hpc
  · simpa [State.move, hvt] using h.knows v

/-- A thread stores in the hands of the mutex, where no other thread has seen the counter. -/
theorem Informed.store (h : Informed s) (ht : (s.pc t).Holds) {pc : Pc} {stored : UInt32}
    (hpc : pc.Knows stored) (v : ℕ) : ((s.move t pc).pc v).Knows stored := by
  by_cases hvt : v = t
  · subst v
    simpa [State.move] using hpc
  · have hv : ¬ (s.pc v).Holds := fun hholds => hvt (h.held.exclusive hholds ht)
    simpa [State.move, hvt] using knows_of_not_holds hv stored

theorem knows_notified {pc : Pc} {v : UInt32} (h : pc.Knows v) : pc.notified.Knows v := by
  cases pc with
  | blocked kind => trivial
  | _ => exact h

theorem Informed.next (h : Informed s) (hG : NotAfterSleep s a) (hstep : next s a = some u) :
    Informed u := by
  refine ⟨h.held.next hG hstep, ?_⟩
  cases a with
  | lockPost t | lockWait t kind =>
    obtain ⟨-, -, rfl⟩ := next_cases hstep
    exact h.move trivial
  | testPost t | unlock t | timeout t =>
    obtain ⟨-, rfl⟩ := next_cases hstep
    exact h.move trivial
  | release t | block t | wake t | resume t =>
    obtain ⟨kind, -, rfl⟩ := next_cases hstep
    exact h.move trivial
  | notify t =>
    obtain ⟨-, rfl⟩ := next_cases hstep
    intro v
    by_cases hvt : v = t
    · subst v
      simp only [Function.update_self]
      trivial
    · simpa [hvt] using knows_notified (h.knows v)
  | testWait t =>
    obtain ⟨kind, pc, -, rfl, hpc⟩ := next_cases hstep
    apply h.move
    rcases hpc with ⟨-, rfl | rfl⟩ | ⟨hne, rfl⟩
    · trivial
    · trivial
    · exact hne
  | load t =>
    rcases next_cases hstep with ⟨wasZero, ht, rfl⟩ | ⟨locked, ht, rfl⟩
    · exact h.move rfl
    · apply h.move
      have hknows := h.knows t
      rw [ht] at hknows
      cases locked with
      | true => exact ⟨rfl, hknows⟩
      | false => trivial
  | increment t =>
    obtain ⟨loaded, wasZero, ht, rfl⟩ := next_cases hstep
    refine h.store (by rw [ht]; trivial) ?_
    cases wasZero <;> trivial
  | decrement t =>
    obtain ⟨loaded, locked, ht, rfl⟩ := next_cases hstep
    cases locked with
    | true => exact h.store (by rw [ht]; trivial) trivial
    | false => exact absurd ht (hG loaded)

/-- Under the mutex nobody has stored since the load, and the test of the counter holds. -/
theorem Informed.countAvailable (h : Informed s) (hG : NotAfterSleep s a) (htop : BelowTop s a) :
    CountAvailable s a := by
  cases a with
  | increment t =>
    intro loaded wasZero ht
    have hknows := h.knows t
    rw [ht] at hknows
    obtain rfl : s.semValue = loaded := hknows
    exact ⟨rfl, htop⟩
  | decrement t =>
    intro loaded locked ht
    cases locked with
    | true =>
      have hknows := h.knows t
      rw [ht] at hknows
      obtain ⟨rfl, hne⟩ := hknows
      exact ⟨rfl, hne⟩
    | false => exact absurd ht (hG loaded)
  | _ => trivial

/-- The lock discipline keeps the accounts: as long as no thread that has slept stores its
count, and none is added at the top of the range, the counts are conserved. -/
theorem conserves_of_notAfterSleep {as : List Action}
    (h : StepsMeet next (fun s a => NotAfterSleep s a ∧ BelowTop s a) (init n) as) :
    Throughout next (Conserves n) (init n) as := by
  have hstart : Informed (init n) ∧ Conserves n (init n) :=
    ⟨⟨held_init n, fun _ => trivial⟩, by simp [init], by simp [init]⟩
  refine (throughout_of_stepsMeet (I := fun s => Informed s ∧ Conserves n s) ?_ hstart h).mono
    fun _ hs => hs.2
  rintro s a u ⟨hs, hconserves⟩ ⟨hG, htop⟩ hstep
  exact ⟨hs.next hG hstep, step_conserves hconserves (hs.countAvailable hG htop) hstep⟩

end Accounts

end BoxUtils.Semaphore
