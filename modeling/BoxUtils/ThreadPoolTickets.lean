import Mathlib.Data.Finset.Insert
import BoxUtils.ThreadPoolSteps

/-!
The tasks of a thread pool by their places in the order of being added. A worker
that takes a task holds the place of this task as its ticket, and a place is
finished when the call of its task has returned. These are histories: no step of
the pool reads them.
-/
namespace BoxUtils.ThreadPool

/-- The place of the first task in the queue. -/
def State.front (s : State) : ℕ := s.accepted.length - s.tasks.length

/-- The places of the tasks that the workers hold. -/
def ticketAfter (s : State) (ticket : ℕ → ℕ) : Action → ℕ → ℕ
  | .work w => if (s.worker w).pc = .inspect then Function.update ticket w s.front else ticket
  | _ => ticket

/-- The places of the tasks whose calls have returned. -/
def finishedAfter (s : State) (ticket : ℕ → ℕ) (finished : Finset ℕ) : Action → Finset ℕ
  | .work w =>
    match (s.worker w).pc with
    | .busy _ => insert (ticket w) finished
    | _ => finished
  | _ => finished

/-- Each place is that of a finished task, of one that a worker holds, or of a queued one. -/
structure Ledger (s : State) (ticket : ℕ → ℕ) (finished : Finset ℕ) : Prop where
  queue : s.tasks <:+ s.accepted
  place : ∀ w ∈ s.started, ∀ e, s.held w = some e → s.accepted[ticket w]? = some e
  taken : ∀ w ∈ s.started, (s.held w).isSome → ticket w < s.front ∧ ticket w ∉ finished
  distinct : ∀ v ∈ s.started, ∀ w ∈ s.started, (s.held v).isSome → (s.held w).isSome →
    ticket v = ticket w → v = w
  past : ∀ i ∈ finished, i < s.front
  all : ∀ i < s.front, i ∈ finished ∨ ∃ w ∈ s.started, (s.held w).isSome ∧ ticket w = i

section Steps

variable {s t : State} {ticket ticket' : ℕ → ℕ} {finished : Finset ℕ} {w : ℕ}

theorem ledger_init (n : ℕ) : Ledger (init n) ticket ∅ := by
  constructor
  · exact List.suffix_refl []
  · intro w _ e he
    cases he
  · intro w _ hw
    cases hw
  · intro v _ w _ hv
    cases hv
  · intro i hi
    cases hi
  · intro i hi
    cases hi

/-- A step that leaves the front of the queue where it is; what is held after it was held
before by the same workers, and is still held. -/
theorem Ledger.carry (h : Ledger s ticket finished) (hqueue : t.tasks <:+ t.accepted)
    (hfront : t.front = s.front)
    (hplace : ∀ (i : ℕ) e, s.accepted[i]? = some e → t.accepted[i]? = some e)
    (hback : ∀ w ∈ t.started, ∀ e, t.held w = some e → w ∈ s.started ∧ s.held w = some e)
    (hforth : ∀ w ∈ s.started, (s.held w).isSome → w ∈ t.started ∧ (t.held w).isSome)
    (hticket : ∀ w, (s.held w).isSome → ticket' w = ticket w) : Ledger t ticket' finished := by
  have hsome : ∀ w ∈ t.started, (t.held w).isSome → w ∈ s.started ∧ (s.held w).isSome := by
    intro w hw hholds
    obtain ⟨e, he⟩ := Option.isSome_iff_exists.mp hholds
    obtain ⟨hw', he'⟩ := hback w hw e he
    exact ⟨hw', Option.isSome_iff_exists.mpr ⟨e, he'⟩⟩
  constructor
  · exact hqueue
  · intro w hw e he
    obtain ⟨hw', he'⟩ := hback w hw e he
    rw [hticket w (by rw [he']; rfl)]
    exact hplace _ e (h.place w hw' e he')
  · intro w hw hholds
    obtain ⟨hw', hholds'⟩ := hsome w hw hholds
    rw [hfront, hticket w hholds']
    exact h.taken w hw' hholds'
  · intro v hv w hw hvsome hwsome
    obtain ⟨hv', hvsome'⟩ := hsome v hv hvsome
    obtain ⟨hw', hwsome'⟩ := hsome w hw hwsome
    rw [hticket v hvsome', hticket w hwsome']
    exact h.distinct v hv' w hw' hvsome' hwsome'
  · rw [hfront]
    exact h.past
  · intro i hi
    rw [hfront] at hi
    rcases h.all i hi with hfin | ⟨w, hw, hholds, rfl⟩
    · exact Or.inl hfin
    · obtain ⟨hw', hholds'⟩ := hforth w hw hholds
      exact Or.inr ⟨w, hw', hholds', hticket w hholds⟩

/-- The same where the workers and what they hold do not change. -/
theorem Ledger.keep (h : Ledger s ticket finished) (hqueue : t.tasks <:+ t.accepted)
    (hfront : t.front = s.front)
    (hplace : ∀ (i : ℕ) e, s.accepted[i]? = some e → t.accepted[i]? = some e)
    (hstarted : t.started = s.started) (hheld : t.held = s.held)
    (hticket : ∀ w, (s.held w).isSome → ticket' w = ticket w) : Ledger t ticket' finished := by
  apply h.carry hqueue hfront hplace _ _ hticket
  · rw [hstarted, hheld]
    exact fun w hw e he => ⟨hw, he⟩
  · rw [hstarted, hheld]
    exact fun w hw hholds => ⟨hw, hholds⟩

theorem Ledger.same (h : Ledger s ticket finished) (htasks : t.tasks = s.tasks)
    (haccepted : t.accepted = s.accepted) (hstarted : t.started = s.started)
    (hheld : t.held = s.held)
    (hticket : ∀ w, (s.held w).isSome → ticket' w = ticket w) : Ledger t ticket' finished := by
  apply h.keep _ _ _ hstarted hheld hticket
  · rw [htasks, haccepted]
    exact h.queue
  · rw [State.front, State.front, htasks, haccepted]
  · intro i e he
    rwa [haccepted]

/-- Threads are started that hold nothing, and the others hold what they held. -/
theorem Ledger.resized (h : Ledger s ticket finished) (htasks : t.tasks = s.tasks)
    (haccepted : t.accepted = s.accepted) (hstarted : s.started ⊆ t.started)
    (hold : ∀ w ∈ s.started, t.held w = s.held w)
    (hnew : ∀ w ∈ t.started, w ∉ s.started → t.held w = none) : Ledger t ticket finished := by
  apply h.carry _ _ _ _ _ fun _ _ => rfl
  · rw [htasks, haccepted]
    exact h.queue
  · rw [State.front, State.front, htasks, haccepted]
  · intro i e he
    rwa [haccepted]
  · intro w hw e he
    by_cases hw' : w ∈ s.started
    · exact ⟨hw', (hold w hw').symm.trans he⟩
    · rw [hnew w hw hw'] at he
      cases he
  · intro w hw hholds
    rw [hold w hw]
    exact ⟨hstarted hw, hholds⟩

/-- A new task gets the next place. -/
theorem Ledger.add (h : Ledger s ticket finished) {e : StartEntry} {woken : Option ℕ}
    (hadd : s.addTask e woken = some t) : Ledger t ticket finished := by
  obtain ⟨htasks, haccepted, -, -, hstarted, -⟩ := addTask_cases hadd
  apply h.keep _ _ _ hstarted (held_changed (changed_addTask hadd)) (fun _ _ => rfl)
  · rw [htasks, haccepted, List.suffix_append_self_iff]
    exact h.queue
  · rw [State.front, State.front, htasks, haccepted, List.length_append, List.length_append]
    omega
  · intro i d hd
    have hi := (List.getElem?_eq_some_iff.mp hd).1
    rw [haccepted, List.getElem?_append_left hi]
    exact hd

/-- The place of the first task in the queue is the front. -/
theorem Ledger.first (h : Ledger s ticket finished) {e : StartEntry} {rest : List StartEntry}
    (htasks : s.tasks = e :: rest) :
    s.accepted[s.front]? = some e ∧ s.front + rest.length + 1 = s.accepted.length := by
  have hdrop := List.suffix_iff_eq_drop.mp h.queue
  have hle := h.queue.length_le
  have hlen : s.tasks.length = rest.length + 1 := by rw [htasks, List.length_cons]
  constructor
  · have hhead := congrArg List.head? hdrop
    rw [htasks, List.head?_cons, List.head?_drop, ← htasks] at hhead
    exact hhead.symm
  · unfold State.front
    omega

/-- A worker takes the first task, and its place for a ticket. -/
theorem Ledger.claim (h : Ledger s ticket finished) (hw : w ∈ s.started) (hworks : Works s w t)
    {e : StartEntry} {rest : List StartEntry} (hpc : (s.worker w).pc = .inspect)
    (htasks : s.tasks = e :: rest) : Ledger t (Function.update ticket w s.front) finished := by
  obtain ⟨hfirst, hlen⟩ := h.first htasks
  have hnone : s.held w = none := by simp [State.held, hpc, WorkerPc.held]
  have hheld : t.held w = some e := by
    have hstep := Worker.step_held hworks.own
    simp only [hpc, htasks, List.head?_cons] at hstep
    exact hstep
  have hrest : t.tasks = rest := by rw [hworks.tasks, if_pos hpc, htasks, List.tail_cons]
  have hfront : t.front = s.front + 1 := by
    rw [State.front, hrest, hworks.accepted]
    omega
  have hother : ∀ v, v ≠ w →
      Function.update ticket w s.front v = ticket v ∧ t.held v = s.held v := by
    intro v hv
    exact ⟨Function.update_of_ne hv _ _, hworks.held_of_ne hv⟩
  have hself : Function.update ticket w s.front w = s.front := Function.update_self _ _ _
  constructor
  · rw [hrest, hworks.accepted]
    exact (List.suffix_cons e rest).trans (htasks ▸ h.queue)
  · intro v hv d hd
    rw [hworks.started] at hv
    rw [hworks.accepted]
    by_cases hvw : v = w
    · subst hvw
      rw [hself, hfirst, ← hheld, hd]
    · rw [(hother v hvw).2] at hd
      rw [(hother v hvw).1]
      exact h.place v hv d hd
  · intro v hv hsome
    rw [hworks.started] at hv
    rw [hfront]
    by_cases hvw : v = w
    · subst hvw
      rw [hself]
      exact ⟨Nat.lt_succ_self _, fun hfin => Nat.lt_irrefl _ (h.past _ hfin)⟩
    · rw [(hother v hvw).2] at hsome
      rw [(hother v hvw).1]
      have htaken := h.taken v hv hsome
      exact ⟨Nat.lt_succ_of_lt htaken.1, htaken.2⟩
  · -- the new ticket is not below the front, the old ones are
    have hnew : ∀ v ∈ s.started, v ≠ w → (t.held v).isSome →
        Function.update ticket w s.front v < s.front := by
      intro v hv hvw hsome
      rw [(hother v hvw).2] at hsome
      rw [(hother v hvw).1]
      exact (h.taken v hv hsome).1
    intro v hv u hu hvsome husome heq
    rw [hworks.started] at hv hu
    by_cases hvw : v = w
    · by_cases huw : u = w
      · rw [hvw, huw]
      · have hlt := hnew u hu huw husome
        rw [← heq, hvw, hself] at hlt
        exact absurd hlt (Nat.lt_irrefl _)
    · by_cases huw : u = w
      · have hlt := hnew v hv hvw hvsome
        rw [heq, huw, hself] at hlt
        exact absurd hlt (Nat.lt_irrefl _)
      · rw [(hother v hvw).2] at hvsome
        rw [(hother u huw).2] at husome
        rw [(hother v hvw).1, (hother u huw).1] at heq
        exact h.distinct v hv u hu hvsome husome heq
  · intro i hi
    rw [hfront]
    exact Nat.lt_succ_of_lt (h.past i hi)
  · intro i hi
    rw [hfront] at hi
    rw [hworks.started]
    rcases Nat.lt_succ_iff_lt_or_eq.mp hi with hlt | rfl
    · rcases h.all i hlt with hfin | ⟨v, hv, hsome, rfl⟩
      · exact Or.inl hfin
      · have hvw : v ≠ w := by
          intro heq
          simp [heq, hnone] at hsome
        exact Or.inr ⟨v, hv, by rwa [(hother v hvw).2], (hother v hvw).1⟩
    · exact Or.inr ⟨w, hw, by rw [hheld]; rfl, hself⟩

/-- The call of a task returns. -/
theorem Ledger.finish (h : Ledger s ticket finished) (hw : w ∈ s.started) (hworks : Works s w t)
    {e : StartEntry} (hpc : (s.worker w).pc = .busy e) :
    Ledger t ticket (insert (ticket w) finished) := by
  have hsome : (s.held w).isSome := by simp [State.held, hpc, WorkerPc.held]
  have hnone : t.held w = none := by
    have hstep := Worker.step_held hworks.own
    simp only [hpc] at hstep
    exact hstep
  have htasks : t.tasks = s.tasks := by rw [hworks.tasks, if_neg (by simp [hpc])]
  have hfront : t.front = s.front := by
    rw [State.front, State.front, htasks, hworks.accepted]
  have hne : ∀ v, (t.held v).isSome → v ≠ w := by
    intro v hv heq
    simp [heq, hnone] at hv
  constructor
  · rw [htasks, hworks.accepted]
    exact h.queue
  · intro v hv d hd
    have hvw := hne v (by rw [hd]; rfl)
    rw [hworks.held_of_ne hvw] at hd
    rw [hworks.accepted]
    exact h.place v (hworks.started ▸ hv) d hd
  · intro v hv hvsome
    have hvw := hne v hvsome
    rw [hworks.started] at hv
    rw [hworks.held_of_ne hvw] at hvsome
    have htaken := h.taken v hv hvsome
    rw [hfront, Finset.mem_insert, not_or]
    refine ⟨htaken.1, fun heq => ?_, htaken.2⟩
    exact hvw (h.distinct v hv w hw hvsome hsome heq)
  · intro v hv u hu hvsome husome
    rw [hworks.started] at hv hu
    rw [hworks.held_of_ne (hne v hvsome)] at hvsome
    rw [hworks.held_of_ne (hne u husome)] at husome
    exact h.distinct v hv u hu hvsome husome
  · intro i hi
    rw [hfront]
    rcases Finset.mem_insert.mp hi with rfl | hi
    · exact (h.taken w hw hsome).1
    · exact h.past i hi
  · intro i hi
    rw [hfront] at hi
    rw [hworks.started]
    rcases h.all i hi with hfin | ⟨v, hv, hvsome, rfl⟩
    · exact Or.inl (Finset.mem_insert_of_mem hfin)
    · by_cases hvw : v = w
      · subst hvw
        exact Or.inl (Finset.mem_insert_self _ _)
      · exact Or.inr ⟨v, hv, by rwa [hworks.held_of_ne hvw], rfl⟩

/-- A step of a worker that takes no task and ends no call. -/
theorem Ledger.worksAside (h : Ledger s ticket finished) (hworks : Works s w t)
    (htasks : t.tasks = s.tasks) (hself : (t.worker w).pc.held = s.held w)
    (hticket : ∀ v, (s.held v).isSome → ticket' v = ticket v) : Ledger t ticket' finished := by
  apply h.same htasks hworks.accepted hworks.started _ hticket
  rw [hworks.held, hself]
  exact Function.update_eq_self w s.held

theorem Ledger.works (h : Ledger s ticket finished) (hw : w ∈ s.started) (hworks : Works s w t) :
    Ledger t (ticketAfter s ticket (.work w)) (finishedAfter s ticket finished (.work w)) := by
  have hstep := Worker.step_held hworks.own
  have hself : s.held w = (s.worker w).pc.held := rfl
  cases hpc : (s.worker w).pc with
  | inspect =>
    simp only [hpc] at hstep
    simp only [ticketAfter, finishedAfter, hpc, ↓reduceIte]
    cases htasks : s.tasks with
    | nil =>
      have hnone : s.held w = none := by rw [hself, hpc]; rfl
      apply h.worksAside hworks
      · rw [hworks.tasks, if_pos hpc, htasks, List.tail_nil]
      · rw [htasks, List.head?_nil] at hstep
        exact hstep.trans hnone.symm
      · intro v hv
        apply Function.update_of_ne
        intro heq
        simp [heq, hnone] at hv
    | cons e rest => exact h.claim hw hworks hpc htasks
  | busy e =>
    simp only [ticketAfter, finishedAfter, hpc, reduceCtorEq, ↓reduceIte]
    exact h.finish hw hworks hpc
  | _ =>
    simp only [hpc] at hstep
    simp only [ticketAfter, finishedAfter, hpc, reduceCtorEq, ↓reduceIte]
    apply h.worksAside hworks
    · rw [hworks.tasks, if_neg (by simp [hpc])]
    · rw [hself, hpc]
      exact hstep
    · exact fun _ _ => rfl

/-- Every step keeps the ledger, if the queue is empty when the destructor clears it. -/
theorem Ledger.next {a : Action} (h : Ledger s ticket finished)
    (hclear : a = .destroy → s.dtor = .clearing → s.tasks = []) (hstep : next s a = some t) :
    Ledger t (ticketAfter s ticket a) (finishedAfter s ticket finished a) := by
  cases a with
  | work w =>
    obtain ⟨hw, hstep⟩ := Option.ite_none_right_eq_some.mp hstep
    exact h.works hw (works_of_work hstep)
  | destroy =>
    have hdestroy : Destroys s t := destroys_of_destroy hstep
    obtain ⟨haccepted, -, -, hstarted, -, htasks⟩ := hdestroy.frame
    apply h.same _ haccepted hstarted (held_changed hdestroy.changed) (fun _ _ => rfl)
    rcases htasks with htasks | ⟨hdtor, htasks⟩
    · exact htasks
    · rw [htasks, hclear rfl hdtor]
  | _ =>
    rcases next_cases hstep with ⟨-, e, woken, hadd⟩ | ⟨w, -, heq, -⟩ | ⟨heq, -⟩ | haside
    · exact h.add hadd
    · cases heq
    · cases heq
    · exact h.same haside.tasks haside.accepted haside.started
        (held_changed haside.changed) (fun _ _ => rfl)

end Steps

end BoxUtils.ThreadPool
