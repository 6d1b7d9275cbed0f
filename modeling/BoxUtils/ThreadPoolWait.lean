import BoxUtils.ThreadPoolTickets

/-!
What `ThreadPool::wait` waits for. It returns when the queue is empty, when the
event says that some worker has seen it empty, or when the thread comes back from
its sleep without a notification. None of these says anything about the tasks
that have been taken from the queue and are still running, and the event may be
older than a task that is queued. Which tasks were added before the call is told
by counting: tasks are taken in the order in which they were added.
-/
namespace BoxUtils.ThreadPool

open Runs

/-- Where a call of `wait` is: one of a thread, or the one that the destructor makes. -/
def State.inWait (s : State) : Option ℕ → WaitPc
  | some k => s.waiter k
  | none =>
    match s.dtor with
    | .idle => .idle
    | .waiting pc => pc
    | _ => .done

/-- How many tasks had been added when the call of `wait` began. -/
def calledAfter (s : State) (calledAt : Option ℕ → ℕ) : Action → Option ℕ → ℕ
  | .callWait k => Function.update calledAt (some k) s.accepted.length
  | .destroy =>
    if s.dtor = .idle then Function.update calledAt none s.accepted.length else calledAt
  | _ => calledAt

/-- A pool with the histories of its tasks and of the calls of `wait`. -/
structure Watched where
  pool : State
  ticket : ℕ → ℕ
  finished : Finset ℕ
  calledAt : Option ℕ → ℕ

def Watched.init (n : ℕ) : Watched := ⟨ThreadPool.init n, fun _ => 0, ∅, fun _ => 0⟩

def Watched.next (x : Watched) (a : Action) : Option Watched :=
  (ThreadPool.next x.pool a).map fun s =>
    { pool := s
      ticket := ticketAfter x.pool x.ticket a
      finished := finishedAfter x.pool x.ticket x.finished a
      calledAt := calledAfter x.pool x.calledAt a }

/-- A call of `wait` that has returned has waited for all tasks added before it. -/
def WaitsForAll (x : Watched) : Prop :=
  ∀ c, x.pool.inWait c = .done → ∀ i < x.calledAt c, i ∈ x.finished

/-- The step makes this call of `wait` return. -/
def Releases (s : State) : Action → Option ℕ → Prop
  | .wait k, some j => j = k ∧ s.waitStep (s.waiter k) = some .done
  | .destroy, none => ∃ pc, s.dtor = .waiting pc ∧ s.waitStep pc = some .done
  | .work w, c => (s.worker w).pc = .setting ∧ s.emptyEvent = false ∧ s.inWait c = .blocked
  | _, _ => False

/-- The queue is no longer than what has been added since the call. -/
def Drained (x : Watched) (c : Option ℕ) : Prop :=
  x.pool.tasks.length + x.calledAt c ≤ x.pool.accepted.length

/-- A worker is between its `pop_front` and the return of the entry, and fewer tasks had been
taken before this one than had been added when the call began. -/
def Occupied (x : Watched) (c : Option ℕ) : Prop :=
  ∃ w ∈ x.pool.started, (x.pool.held w).isSome ∧ x.ticket w < x.calledAt c

/-- A call that stands here and may return in its next step. -/
def LateFrom (x : Watched) (c : Option ℕ) : WaitPc → Prop
  | .entered => x.pool.tasks = [] → ¬ Occupied x c
  | .waiting => x.pool.emptyEvent = true → Drained x c ∧ ¬ Occupied x c
  | .blocked => Drained x c ∧ ¬ Occupied x c
  | .idle | .sleepy | .done => True

/-- Where `wait` finds the queue empty, no worker is occupied; where it finds the event set,
wakes up by itself, or is woken by a worker that sets the event, the queue is drained as
well. -/
def ReturnsLate (x : Watched) : Action → Prop
  | .wait k => LateFrom x (some k) (x.pool.waiter k)
  | .destroy => LateFrom x none (x.pool.inWait none)
  | .work w => (x.pool.worker w).pc = .setting → x.pool.emptyEvent = false →
      ∀ c, x.pool.inWait c = .blocked → Drained x c ∧ ¬ Occupied x c
  | _ => True

section Calls

variable {s t : State} {a : Action} {c : Option ℕ}

theorem inWait_same (hdtor : t.dtor = s.dtor) (hwaiter : t.waiter = s.waiter) (c : Option ℕ) :
    t.inWait c = s.inWait c := by
  cases c with
  | none => simp only [State.inWait, hdtor]
  | some k => simp only [State.inWait, hwaiter]

/-- A step of a worker wakes the calls that wait for the event, if it sets it. -/
theorem Works.inWait {w : ℕ} (h : Works s w t) (c : Option ℕ) : t.inWait c =
    if (s.worker w).pc = .setting ∧ s.emptyEvent = false then (s.inWait c).notified
    else s.inWait c := by
  split
  case isTrue hset =>
    cases c with
    | none =>
      simp only [State.inWait, h.dtor, if_pos hset]
      cases s.dtor <;> rfl
    | some k => simp only [State.inWait, h.waiter, if_pos hset]
  case isFalse hset =>
    apply inWait_same
    · rw [h.dtor, if_neg hset]
    · rw [h.waiter, if_neg hset]

theorem WaitPc.notified_eq_done {pc : WaitPc} :
    pc.notified = .done ↔ pc = .blocked ∨ pc = .done := by
  cases pc <;> simp [WaitPc.notified]

/-- What a step of the destructor does to its call of `wait`. -/
theorem Destroys.inWait (h : Destroys s t) :
    s.dtor = .idle ∧ t.inWait none = .entered ∨
      (∃ pc, s.dtor = .waiting pc ∧ s.waitStep pc = some (t.inWait none)) ∨
      s.inWait none = .done ∧ t.inWait none = .done := by
  cases h with
  | begin hdtor => exact Or.inl ⟨hdtor, rfl⟩
  | wait pc pc' hdtor hpc' => exact Or.inr (Or.inl ⟨pc, hdtor, hpc'⟩)
  | lock hdtor | stop w rest hdtor | broadcast hdtor | join w rest hdtor | joined hdtor
  | clear hdtor => exact Or.inr (Or.inr ⟨by rw [State.inWait, hdtor], rfl⟩)

theorem Releases.inWait (h : ThreadPool.next s a = some t) (hr : Releases s a c) :
    t.inWait c = .done := by
  cases a with
  | work w =>
    obtain ⟨hpc, hevent, hblocked⟩ := hr
    obtain ⟨-, h⟩ := Option.ite_none_right_eq_some.mp h
    rw [(works_of_work h).inWait, if_pos ⟨hpc, hevent⟩, hblocked]
    rfl
  | wait k =>
    cases c with
    | none => exact hr.elim
    | some j =>
      obtain ⟨rfl, hdone⟩ := hr
      obtain ⟨pc, hpc, rfl⟩ := Option.map_eq_some_iff.mp h
      rw [hdone] at hpc
      cases hpc
      simp [State.inWait]
  | destroy =>
    cases c with
    | some j => exact hr.elim
    | none =>
      obtain ⟨pc, hdtor, hdone⟩ := hr
      rcases (destroys_of_destroy h).inWait with ⟨hidle, -⟩ | ⟨pc', hdtor', hstep⟩ | ⟨-, ht⟩
      · simp [hdtor] at hidle
      · rw [hdtor] at hdtor'
        cases hdtor'
        exact (Option.some.inj (hdone.symm.trans hstep)).symm
      · exact ht
  | _ => cases c <;> exact hr.elim

theorem addTask_inWait {e : StartEntry} {woken : Option ℕ} (h : s.addTask e woken = some t)
    (c : Option ℕ) : t.inWait c = s.inWait c := by
  obtain ⟨-, -, -, -, -, hdtor, hwaiter, -⟩ := addTask_cases h
  exact inWait_same hdtor hwaiter c

/-- A call that has returned after a step is released by it, or had returned before. -/
theorem inWait_done_cases (calledAt : Option ℕ → ℕ) (h : ThreadPool.next s a = some t)
    (hdone : t.inWait c = .done) :
    Releases s a c ∨ s.inWait c = .done ∧ calledAfter s calledAt a c = calledAt c := by
  cases a with
  | addTask e woken =>
    obtain ⟨-, h⟩ := Option.ite_none_right_eq_some.mp h
    exact Or.inr ⟨addTask_inWait h c ▸ hdone, rfl⟩
  | addFunction fn woken =>
    cases fn with
    | none =>
      cases h
      exact Or.inr ⟨hdone, rfl⟩
    | some f =>
      obtain ⟨-, h⟩ := Option.ite_none_right_eq_some.mp h
      exact Or.inr ⟨addTask_inWait h c ▸ hdone, rfl⟩
  | work w =>
    obtain ⟨-, h⟩ := Option.ite_none_right_eq_some.mp h
    rw [(works_of_work h).inWait] at hdone
    split at hdone
    case isTrue hset =>
      rcases WaitPc.notified_eq_done.mp hdone with hblocked | hbefore
      · exact Or.inl ⟨hset.1, hset.2, hblocked⟩
      · exact Or.inr ⟨hbefore, rfl⟩
    case isFalse => exact Or.inr ⟨hdone, rfl⟩
  | wake w =>
    obtain ⟨-, h⟩ := Option.ite_none_right_eq_some.mp h
    cases h
    exact Or.inr ⟨inWait_same rfl rfl c ▸ hdone, rfl⟩
  | callWait k =>
    obtain ⟨-, h⟩ := Option.ite_none_right_eq_some.mp h
    cases h
    by_cases hc : c = some k
    · subst hc
      simp [State.inWait] at hdone
    · refine Or.inr ⟨?_, Function.update_of_ne hc _ _⟩
      cases c with
      | none => exact hdone
      | some j =>
        have hj : j ≠ k := fun heq => hc (congrArg some heq)
        simpa [State.inWait, hj] using hdone
  | wait k =>
    obtain ⟨pc, hpc, rfl⟩ := Option.map_eq_some_iff.mp h
    cases c with
    | none => exact Or.inr ⟨hdone, rfl⟩
    | some j =>
      by_cases hj : j = k
      · subst hj
        have hdone' : pc = .done := by simpa [State.inWait] using hdone
        exact Or.inl ⟨rfl, hdone' ▸ hpc⟩
      · exact Or.inr ⟨by simpa [State.inWait, hj] using hdone, rfl⟩
  | destroy =>
    cases c with
    | some j =>
      have hwaiter := (destroys_of_destroy h).frame.2.2.2.2.1
      refine Or.inr ⟨by simpa [State.inWait, hwaiter] using hdone, ?_⟩
      unfold calledAfter
      split
      · exact Function.update_of_ne (by simp) _ _
      · rfl
    | none =>
      rcases (destroys_of_destroy h).inWait with ⟨-, ht⟩ | ⟨pc, hdtor, hstep⟩ | ⟨hbefore, -⟩
      · rw [ht] at hdone
        cases hdone
      · exact Or.inl ⟨pc, hdtor, hdone ▸ hstep⟩
      · refine Or.inr ⟨hbefore, ?_⟩
        have hidle : s.dtor ≠ .idle := by
          intro heq
          simp [State.inWait, heq] at hbefore
        simp [calledAfter, hidle]

/-- The histories of a call do not change when it returns. -/
theorem Releases.histories (hr : Releases s a c) (calledAt : Option ℕ → ℕ) (ticket : ℕ → ℕ)
    (finished : Finset ℕ) : calledAfter s calledAt a c = calledAt c ∧
      finishedAfter s ticket finished a = finished := by
  cases a with
  | work w =>
    refine ⟨rfl, ?_⟩
    simp only [finishedAfter, hr.1]
  | destroy =>
    cases c with
    | some j => exact hr.elim
    | none =>
      obtain ⟨pc, hdtor, -⟩ := hr
      exact ⟨by simp [calledAfter, hdtor], rfl⟩
  | wait k => exact ⟨rfl, rfl⟩
  | _ => cases c <;> exact hr.elim

theorem subset_finishedAfter (s : State) (ticket : ℕ → ℕ) (finished : Finset ℕ) (a : Action) :
    finished ⊆ finishedAfter s ticket finished a := by
  unfold finishedAfter
  split
  · split
    · exact Finset.subset_insert _ _
    · exact Finset.Subset.refl _
  · exact Finset.Subset.refl _

end Calls

section Exactness

variable {x y : Watched} {a : Action} {c : Option ℕ}

/-- The invariant: the ledger, and the destructor's call is no older than its last task. -/
structure Watched.Sound (x : Watched) : Prop where
  ledger : Ledger x.pool x.ticket x.finished
  called : ∀ c, x.calledAt c ≤ x.pool.accepted.length
  destroying : x.pool.dtor ≠ .idle → x.calledAt none = x.pool.accepted.length
  waits : WaitsForAll x

/-- Since tasks are taken in their order, all those added before a call have been run exactly
if the queue is drained and no worker is occupied. -/
theorem finished_iff (hx : x.Sound) (c : Option ℕ) :
    (∀ i < x.calledAt c, i ∈ x.finished) ↔ Drained x c ∧ ¬ Occupied x c := by
  have hlen := hx.ledger.queue.length_le
  have hcalled := hx.called c
  constructor
  · intro hall
    constructor
    · by_contra hlonger
      have hfront : x.pool.front < x.calledAt c := by
        unfold State.front
        unfold Drained at hlonger
        omega
      exact absurd (hx.ledger.past _ (hall _ hfront)) (Nat.lt_irrefl _)
    · rintro ⟨w, hw, hholds, hticket⟩
      exact (hx.ledger.taken w hw hholds).2 (hall _ hticket)
  · rintro ⟨hdrained, hfree⟩ i hi
    have hfront : i < x.pool.front := by
      unfold State.front
      unfold Drained at hdrained
      omega
    rcases hx.ledger.all i hfront with hfin | ⟨w, hw, hholds, rfl⟩
    · exact hfin
    · exact absurd ⟨w, hw, hholds, hi⟩ hfree

theorem Watched.Sound.drained_of_empty (hx : x.Sound) (htasks : x.pool.tasks = [])
    (c : Option ℕ) : Drained x c := by
  rw [Drained, htasks, List.length_nil, Nat.zero_add]
  exact hx.called c

/-- The next step of a call that stands here is its return, if it is one at all. -/
theorem Watched.Sound.lateFrom_iff (hx : x.Sound) (c : Option ℕ) (pc : WaitPc) :
    LateFrom x c pc ↔ (x.pool.waitStep pc = some .done → ∀ i < x.calledAt c, i ∈ x.finished) := by
  rw [finished_iff hx c]
  cases pc with
  | entered =>
    by_cases htasks : x.pool.tasks = []
    · simp [LateFrom, State.waitStep, htasks, hx.drained_of_empty htasks c]
    · simp [LateFrom, State.waitStep, htasks]
  | waiting => cases hevent : x.pool.emptyEvent <;> simp [LateFrom, State.waitStep, hevent]
  | blocked => simp [LateFrom, State.waitStep]
  | idle | sleepy | done => simp [LateFrom, State.waitStep]

/-- The condition on a step speaks of the calls that it makes return. -/
theorem Watched.Sound.returnsLate_iff (hx : x.Sound) (a : Action) :
    ReturnsLate x a ↔ ∀ c, Releases x.pool a c → ∀ i < x.calledAt c, i ∈ x.finished := by
  cases a with
  | wait k =>
    rw [ReturnsLate, hx.lateFrom_iff]
    constructor
    · intro hlate c hr
      cases c with
      | none => exact hr.elim
      | some j =>
        obtain ⟨rfl, hdone⟩ := hr
        exact hlate hdone
    · exact fun hall hdone => hall (some k) ⟨rfl, hdone⟩
  | destroy =>
    rw [ReturnsLate, hx.lateFrom_iff]
    constructor
    · intro hlate c hr
      cases c with
      | some j => exact hr.elim
      | none =>
        obtain ⟨pc, hdtor, hdone⟩ := hr
        apply hlate
        rw [State.inWait, hdtor]
        exact hdone
    · intro hall hdone
      apply hall none
      cases hdtor : x.pool.dtor with
      | waiting pc =>
        rw [State.inWait, hdtor] at hdone
        exact ⟨pc, hdtor, hdone⟩
      | _ =>
        rw [State.inWait, hdtor] at hdone
        cases hdone
  | work w =>
    constructor
    · rintro hlate c ⟨hpc, hevent, hblocked⟩
      exact (finished_iff hx c).mpr (hlate hpc hevent c hblocked)
    · intro hall hpc hevent c hblocked
      exact (finished_iff hx c).mp (hall c ⟨hpc, hevent, hblocked⟩)
  | _ => exact iff_of_true trivial fun c hr => by cases c <;> exact hr.elim

/-- When the destructor clears the queue, it has waited for all tasks. -/
theorem Watched.Sound.cleared (h : x.Sound) (hdtor : x.pool.dtor = .clearing) :
    x.pool.tasks = [] := by
  have hall := h.waits none (by simp only [State.inWait, hdtor])
  rw [h.destroying (by simp [hdtor])] at hall
  have hlen := h.ledger.queue.length_le
  by_contra hne
  have hpos := List.length_pos_iff.mpr hne
  have hfront : x.pool.front < x.pool.accepted.length := by
    unfold State.front
    omega
  exact absurd (h.ledger.past _ (hall _ hfront)) (Nat.lt_irrefl _)

theorem destroying_next {s t : State} (calledAt : Option ℕ → ℕ)
    (hs : s.dtor ≠ .idle → calledAt none = s.accepted.length)
    (h : ThreadPool.next s a = some t) (ht : t.dtor ≠ .idle) :
    calledAfter s calledAt a none = t.accepted.length := by
  by_cases ha : a = .destroy
  · subst ha
    rw [(destroys_of_destroy h).frame.1]
    unfold calledAfter
    split
    · exact Function.update_self _ _ _
    case isFalse hidle => exact hs hidle
  · have hbusy : s.dtor ≠ .idle := fun hidle => ht (next_idle h ha hidle)
    have haccepted : t.accepted = s.accepted := by
      rcases next_cases h with ⟨hidle, -⟩ | ⟨w, -, -, hworks⟩ | ⟨heq, -⟩ | haside
      · exact absurd hidle hbusy
      · exact hworks.accepted
      · exact absurd heq ha
      · exact haside.accepted
    rw [haccepted, ← hs hbusy]
    cases a with
    | destroy => exact absurd rfl ha
    | callWait k => simp [calledAfter]
    | _ => rfl

theorem accepted_length_le {s t : State} (h : ThreadPool.next s a = some t) :
    s.accepted.length ≤ t.accepted.length := by
  rcases next_cases h with ⟨-, e, woken, hadd⟩ | ⟨w, -, -, hworks⟩ | ⟨-, hdestroy⟩ | haside
  · rw [(addTask_cases hadd).2.1, List.length_append]
    exact Nat.le_add_right ..
  · rw [hworks.accepted]
  · rw [hdestroy.frame.1]
  · rw [haside.accepted]

theorem called_next {s t : State} {calledAt : Option ℕ → ℕ}
    (hs : ∀ c, calledAt c ≤ s.accepted.length) (h : ThreadPool.next s a = some t)
    (c : Option ℕ) : calledAfter s calledAt a c ≤ t.accepted.length := by
  refine le_trans ?_ (accepted_length_le h)
  have hnow : ∀ d, Function.update calledAt d s.accepted.length c ≤ s.accepted.length := by
    intro d
    by_cases hcd : c = d
    · rw [hcd, Function.update_self]
    · rw [Function.update_of_ne hcd]
      exact hs c
  cases a with
  | callWait k => exact hnow (some k)
  | destroy =>
    unfold calledAfter
    split
    · exact hnow none
    · exact hs c
  | _ => exact hs c

/-- All calls that have returned have waited, if and only if those that the step releases
return late. -/
theorem waitsForAll_next_iff (hx : x.Sound) (h : x.next a = some y) :
    WaitsForAll y ↔ ReturnsLate x a := by
  obtain ⟨s, hs, rfl⟩ := Option.map_eq_some_iff.mp h
  rw [hx.returnsLate_iff]
  constructor
  · intro hwaits c hr
    obtain ⟨hcalled, hfinished⟩ := hr.histories x.calledAt x.ticket x.finished
    have hall := hwaits c (hr.inWait hs)
    simp only [hcalled, hfinished] at hall
    exact hall
  · intro hlate c hdone
    have hsubset := subset_finishedAfter x.pool x.ticket x.finished a
    rcases inWait_done_cases x.calledAt hs hdone with hr | ⟨hbefore, hcalled⟩
    · obtain ⟨hcalled, -⟩ := hr.histories x.calledAt x.ticket x.finished
      simp only [hcalled]
      exact fun i hi => hsubset (hlate c hr i hi)
    · simp only [hcalled]
      exact fun i hi => hsubset (hx.waits c hbefore i hi)

theorem Watched.Sound.next (hx : x.Sound) (hlate : ReturnsLate x a) (h : x.next a = some y) :
    y.Sound := by
  have hwaits := (waitsForAll_next_iff hx h).mpr hlate
  obtain ⟨s, hs, rfl⟩ := Option.map_eq_some_iff.mp h
  constructor
  · exact hx.ledger.next (fun _ => hx.cleared) hs
  · exact called_next hx.called hs
  · exact destroying_next x.calledAt hx.destroying hs
  · exact hwaits

theorem sound_watched (n : ℕ) : (Watched.init n).Sound := by
  constructor
  · exact ledger_init n
  · exact fun _ => Nat.zero_le _
  · intro h
    exact absurd rfl h
  · intro c hdone
    cases c <;> cases hdone

end Exactness

/-- Nothing is queued, and no worker is between its `pop_front` and the return of the entry. -/
def State.AtRest (s : State) : Prop := s.tasks = [] ∧ ∀ w ∈ s.started, s.held w = none

/-- So `wait` waits for all in every run in which it returns to a pool at rest. -/
theorem waitsForAll_of_atRest {n : ℕ} {as : List Action}
    (h : StepsMeet Watched.next (fun x a => ∀ c, Releases x.pool a c → x.pool.AtRest)
      (Watched.init n) as) :
    Throughout Watched.next WaitsForAll (Watched.init n) as := by
  refine (throughout_of_stepsMeet (I := Watched.Sound) ?_ (sound_watched n) h).mono
    fun _ hx => hx.waits
  intro x a y hx hrest hstep
  refine hx.next ((hx.returnsLate_iff a).mpr fun c hr => ?_) hstep
  obtain ⟨htasks, hnone⟩ := hrest c hr
  refine (finished_iff hx c).mpr ⟨hx.drained_of_empty htasks c, ?_⟩
  rintro ⟨w, hw, hholds, -⟩
  rw [hnone w hw] at hholds
  cases hholds

/-- A caller of `wait` blocks and comes back by itself while its task is still queued. -/
example :
    (run Watched.next (Watched.init 1)
      [.addTask (.raw 1 2) none, .callWait 0, .wait 0, .wait 0, .wait 0, .wait 0]).map
        (fun x => (x.pool.inWait (some 0), x.pool.tasks)) = some (.done, [.raw 1 2]) := by
  decide

end BoxUtils.ThreadPool
