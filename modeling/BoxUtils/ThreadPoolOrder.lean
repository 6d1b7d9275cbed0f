import BoxUtils.ThreadPoolResize
import BoxUtils.ThreadPoolTickets

/-!
The order in which the tasks of a thread pool are started. A thread copies the first task
of the queue into its variable `entry`, which it has from `worker_main` on and does not
reset, and calls what is in this variable. The call of a task that `add_task` has made from
a `std::function` frees this function. The workers may be changed all the while.
-/
namespace BoxUtils.ThreadPool

open Runs

/-- The function that the call of a task frees. -/
def StartEntry.fn : StartEntry → Option ℕ
  | .function fn => some fn
  | .raw _ _ => none

/-- A call, with the place of the task that its thread has dequeued last and the contents
of its variable. -/
structure Call where
  place : ℕ
  entry : Option StartEntry
  deriving DecidableEq, Repr

structure Ordered where
  pool : Resizable
  /-- The variable `entry` of the threads; there is nothing in it at first. -/
  entry : ℕ → Option StartEntry
  ticket : ℕ → ℕ
  dequeued : List StartEntry
  calls : List Call
  freed : List ℕ

def entryAfter (s : State) (entry : ℕ → Option StartEntry) : Action → ℕ → Option StartEntry
  | .work w =>
    match (s.worker w).pc, s.tasks with
    | .inspect, e :: _ => Function.update entry w (some e)
    | _, _ => entry
  | _ => entry

def dequeuedAfter (s : State) (dequeued : List StartEntry) : Action → List StartEntry
  | .work w => if (s.worker w).pc = .inspect then dequeued ++ s.tasks.take 1 else dequeued
  | _ => dequeued

/-- What a step calls: `entry.entry(entry.param)`. -/
def callsOf (s : State) (entry : ℕ → Option StartEntry) (ticket : ℕ → ℕ) : Action → List Call
  | .work w =>
    match (s.worker w).pc with
    | .busy _ => [⟨ticket w, entry w⟩]
    | _ => []
  | _ => []

def Call.freed (c : Call) : Option ℕ := c.entry.bind StartEntry.fn

namespace Ordered

def init (n : ℕ) : Ordered := ⟨Resizable.init n, fun _ => none, fun _ => 0, [], [], []⟩

def after (x : Ordered) (y : Resizable) : ResizeAction → Ordered
  | .pool a =>
    let called := callsOf x.pool.pool x.entry x.ticket a
    { pool := y
      entry := entryAfter x.pool.pool x.entry a
      ticket := ticketAfter x.pool.pool x.ticket a
      dequeued := dequeuedAfter x.pool.pool x.dequeued a
      calls := x.calls ++ called
      freed := x.freed ++ called.filterMap Call.freed }
  | .setWorkers _ | .resize _ => { x with pool := y }

def next (x : Ordered) (a : ResizeAction) : Option Ordered :=
  (Resizable.next x.pool a).map fun y => x.after y a

end Ordered

/-- No function has been added twice. -/
def DistinctFns (accepted : List StartEntry) : Prop :=
  ∀ (i j fn : ℕ),
    accepted[i]? = some (StartEntry.function fn) → accepted[j]? = some (StartEntry.function fn) →
    i = j

/-- The tasks leave the queue in the order in which they came in, each call is of another
dequeued task, and a function is freed by the call of its own task alone. -/
structure InOrder (x : Ordered) : Prop where
  order : x.dequeued ++ x.pool.pool.tasks = x.pool.pool.accepted
  once : (x.calls.map Call.place).Nodup
  called : ∀ c ∈ x.calls, ∃ e, c.entry = some e ∧ x.dequeued[c.place]? = some e
  frees : ∀ fn ∈ x.freed, ∃ c ∈ x.calls, c.entry = some (.function fn)
  freedOnce : DistinctFns x.pool.pool.accepted → ∀ i fn,
    x.pool.pool.accepted[i]? = some (.function fn) →
      x.freed.count fn = (x.calls.map Call.place).count i
  unfreed : DistinctFns x.pool.pool.accepted → ∀ w ∈ x.pool.pool.started, ∀ fn,
    x.pool.pool.held w = some (.function fn) → fn ∉ x.freed

/-- The destructor has not returned yet. -/
def Ordered.Alive (x : Ordered) : Prop := x.pool.pool.dtor ≠ .returned

/-- The invariant: the tickets are the places of the tasks that were dequeued, and the
variable of a thread that is about to call holds the task of its ticket. -/
structure Sequenced (x : Ordered) : Prop where
  ledger : Ledger x.pool.pool x.ticket (x.calls.map Call.place).toFinset
  order : x.dequeued ++ x.pool.pool.tasks = x.pool.pool.accepted
  entry : ∀ w ∈ x.pool.pool.started, ∀ e, x.pool.pool.held w = some e → x.entry w = some e
  once : (x.calls.map Call.place).Nodup
  called : ∀ c ∈ x.calls, ∃ e, c.entry = some e ∧ x.pool.pool.accepted[c.place]? = some e
  freed : x.freed = x.calls.filterMap Call.freed

section Steps

variable {x : Ordered} {s t : State} {a : Action} {w : ℕ}

theorem sequenced_init (n : ℕ) : Sequenced (.init n) where
  ledger := ledger_init n
  order := rfl
  entry w _ e he := by cases he
  once := List.nodup_nil
  called c hc := absurd hc List.not_mem_nil
  freed := rfl

/-- No step takes back what was accepted. -/
theorem accepted_next (h : next s a = some t) {i : ℕ} {e : StartEntry}
    (he : s.accepted[i]? = some e) : t.accepted[i]? = some e := by
  rcases next_cases h with ⟨-, d, woken, hadd⟩ | ⟨w, -, -, hworks⟩ | ⟨-, hdestroy⟩ | haside
  · obtain ⟨-, haccepted, -⟩ := addTask_cases hadd
    rw [haccepted, List.getElem?_append_left (List.getElem?_eq_some_iff.mp he).1]
    exact he
  · rwa [hworks.accepted]
  · rwa [hdestroy.frame.1]
  · rwa [haside.accepted]

/-- What is dequeued and what is queued stay the accepted tasks in their order, until the
destructor clears the queue. -/
theorem order_next {dequeued : List StartEntry} (h : next s a = some t)
    (horder : dequeued ++ s.tasks = s.accepted) (halive : t.dtor ≠ .returned) :
    dequeuedAfter s dequeued a ++ t.tasks = t.accepted := by
  cases a with
  | work w =>
    obtain ⟨-, h⟩ := Option.ite_none_right_eq_some.mp h
    have hworks := works_of_work h
    rw [hworks.tasks, hworks.accepted, dequeuedAfter]
    split
    · rw [List.append_assoc, ← List.drop_one, List.take_append_drop, horder]
    · exact horder
  | destroy =>
    have hdestroy : Destroys s t := destroys_of_destroy h
    cases hdestroy with
    | clear => exact absurd rfl halive
    | begin | wait | lock | stop | broadcast | join | joined => exact horder
  | _ =>
    rcases next_cases h with ⟨-, e, woken, hadd⟩ | ⟨w, -, heq, -⟩ | ⟨heq, -⟩ | haside
    · obtain ⟨htasks, haccepted, -⟩ := addTask_cases hadd
      rw [htasks, haccepted, ← horder, List.append_assoc]
      rfl
    · cases heq
    · cases heq
    · rw [haside.tasks, haside.accepted]
      exact horder

/-- What a thread holds changes in its own steps only. -/
theorem held_next (h : next s a = some t) (ha : a ≠ .work w) : t.held w = s.held w := by
  rcases next_worker h w with ⟨heq, -⟩ | hchanged
  · exact absurd heq ha
  · exact hchanged.held

/-- The variable of a thread holds the task that the thread is about to call. -/
theorem entry_next {entry : ℕ → Option StartEntry} (h : next s a = some t)
    (hentry : ∀ w ∈ s.started, ∀ e, s.held w = some e → entry w = some e)
    (hw : w ∈ t.started) {e : StartEntry} (he : t.held w = some e) :
    entryAfter s entry a w = some e := by
  rw [(next_frame h).2] at hw
  by_cases ha : a = .work w
  · subst ha
    obtain ⟨-, h⟩ := Option.ite_none_right_eq_some.mp h
    have hstep : t.held w = _ := Worker.step_held (works_of_work h).own
    rw [he] at hstep
    cases hpc : (s.worker w).pc with
    | inspect =>
      simp only [hpc] at hstep
      cases htasks : s.tasks with
      | nil => simp [htasks] at hstep
      | cons d rest =>
        rw [htasks, List.head?_cons] at hstep
        simp only [entryAfter, hpc, htasks, hstep, Function.update_self]
    | busy d => simp [hpc] at hstep
    | _ =>
      simp only [hpc] at hstep
      simp only [entryAfter, hpc]
      exact hentry w hw e (by rw [State.held, hpc, hstep])
  · rw [held_next h ha] at he
    have hsame : entryAfter s entry a w = entry w := by
      cases a with
      | work v =>
        have hwv : w ≠ v := fun heq => ha (by rw [heq])
        cases hpc : (s.worker v).pc with
        | inspect =>
          cases htasks : s.tasks with
          | nil => simp only [entryAfter, hpc, htasks]
          | cons d rest =>
            simp only [entryAfter, hpc, htasks]
            exact Function.update_of_ne hwv _ _
        | _ => simp only [entryAfter, hpc]
      | _ => rfl
    rw [hsame]
    exact hentry w hw e he

/-- A step calls at most one task, that of its thread. -/
theorem callsOf_cases (entry : ℕ → Option StartEntry) (ticket : ℕ → ℕ) (h : next s a = some t) :
    callsOf s entry ticket a = [] ∧
        (∀ finished, finishedAfter s ticket finished a = finished) ∨
      ∃ w e, w ∈ s.started ∧ s.held w = some e ∧ callsOf s entry ticket a = [⟨ticket w, entry w⟩] ∧
        ∀ finished, finishedAfter s ticket finished a = insert (ticket w) finished := by
  cases a with
  | work w =>
    obtain ⟨hw, -⟩ := Option.ite_none_right_eq_some.mp h
    cases hpc : (s.worker w).pc with
    | busy e =>
      refine Or.inr ⟨w, e, hw, by rw [State.held, hpc]; rfl, ?_, fun finished => ?_⟩
      · simp only [callsOf, hpc]
      · simp only [finishedAfter, hpc]
    | _ =>
      refine Or.inl ⟨?_, fun finished => ?_⟩
      · simp only [callsOf, hpc]
      · simp only [finishedAfter, hpc]
  | _ => exact Or.inl ⟨rfl, fun _ => rfl⟩

/-- A step that clears no queue leaves the destructor short of its end. -/
theorem not_clearing (h : next s a = some t) (halive : t.dtor ≠ .returned) :
    a = .destroy → s.dtor = .clearing → s.tasks = [] := by
  rintro rfl hdtor
  cases destroys_of_destroy h with
  | clear => exact absurd rfl halive
  | begin hpc | wait _ _ hpc | lock hpc | stop _ _ hpc | broadcast hpc | join _ _ hpc
  | joined hpc =>
    rw [hpc] at hdtor
    cases hdtor

theorem finishedAfter_calls {calls : List Call} {entry : ℕ → Option StartEntry} {ticket : ℕ → ℕ}
    (h : next s a = some t) : finishedAfter s ticket (calls.map Call.place).toFinset a =
      ((calls ++ callsOf s entry ticket a).map Call.place).toFinset := by
  rcases callsOf_cases entry ticket h with
    ⟨hnone, hfinished⟩ | ⟨w, e, -, -, hone, hfinished⟩
  · rw [hnone, hfinished, List.append_nil]
  · rw [hone, hfinished, List.map_append, List.toFinset_append, Finset.insert_eq,
      Finset.union_comm]
    rfl

theorem Sequenced.pool (hx : Sequenced x) (h : next x.pool.pool a = some t)
    (halive : t.dtor ≠ .returned) : Sequenced (x.after ⟨t, x.pool.resize⟩ (.pool a)) := by
  have hledger := hx.ledger.next (not_clearing h halive) h
  have hcalled : ∀ c ∈ x.calls, ∃ e, c.entry = some e ∧ t.accepted[c.place]? = some e := by
    intro c hc
    obtain ⟨e, he, hplace⟩ := hx.called c hc
    exact ⟨e, he, accepted_next h hplace⟩
  constructor
  case ledger =>
    rw [finishedAfter_calls h] at hledger
    exact hledger
  case order => exact order_next h hx.order halive
  case entry => exact fun w hw e he => entry_next h hx.entry hw he
  case freed => exact (congrArg (· ++ _) hx.freed).trans (List.filterMap_append ..).symm
  case once =>
    rcases callsOf_cases x.entry x.ticket h with
      ⟨hnone, -⟩ | ⟨w, e, hw, he, hone, -⟩
    · simpa [Ordered.after, hnone] using hx.once
    · have hnew : x.ticket w ∉ x.calls.map Call.place := by
        have htaken := (hx.ledger.taken w hw (by rw [he]; rfl)).2
        rwa [List.mem_toFinset] at htaken
      simpa [Ordered.after, hone] using hx.once.concat hnew
  case called =>
    intro c hc
    rcases List.mem_append.mp hc with hc | hc
    · exact hcalled c hc
    · rcases callsOf_cases x.entry x.ticket h with
        ⟨hnone, -⟩ | ⟨w, e, hw, he, hone, -⟩
      · rw [hnone] at hc
        cases hc
      · rw [hone] at hc
        obtain rfl := List.mem_singleton.mp hc
        exact ⟨e, hx.entry w hw e he, accepted_next h (hx.ledger.place w hw e he)⟩

/-- A step of `set_workers` takes nothing from the queue or from a thread, and the threads
that it starts hold nothing. -/
structure Resizes (s t : State) : Prop where
  tasks : t.tasks = s.tasks
  accepted : t.accepted = s.accepted
  started : s.started ⊆ t.started
  held : ∀ w ∈ s.started, t.held w = s.held w
  new : ∀ w ∈ t.started, w ∉ s.started → t.held w = none

theorem resizes_of_held (htasks : t.tasks = s.tasks) (haccepted : t.accepted = s.accepted)
    (hstarted : t.started = s.started) (hheld : t.held = s.held) : Resizes s t where
  tasks := htasks
  accepted := haccepted
  started := by rw [hstarted]
  held w _ := by rw [hheld]
  new w hw hnot := absurd (hstarted ▸ hw) hnot

/-- Setting a flag of a worker changes nothing that its thread holds. -/
theorem held_setWorker {y : Worker} (hpc : y.pc = (s.worker w).pc) :
    (s.setWorker w y).held = s.held := by
  funext v
  by_cases hvw : v = w
  · subst hvw
    simp [State.held, State.setWorker, hpc]
  · simp [State.held, State.setWorker, hvw]

theorem resizes_start (hw : w ∉ s.started) : Resizes s (Resizable.start s w) where
  tasks := rfl
  accepted := rfl
  started := Finset.subset_insert _ _
  held v hv := by
    have hvw : v ≠ w := fun heq => hw (heq ▸ hv)
    simp [State.held, Resizable.start, State.setWorker, hvw]
  new v hv hnot := by
    have hvw : v = w := (Finset.mem_insert.mp hv).resolve_right hnot
    subst hvw
    simp [State.held, Resizable.start, State.setWorker, WorkerPc.held]

theorem resizes_resizeStep {x y : Resizable} {thread : ℕ} (h : x.resizeStep thread = some y) :
    Resizes x.pool y.pool := by
  cases Resizable.round_of_resizeStep h with
  | detach _ _ _ _ _ | clear _ _ _ => exact resizes_of_held rfl rfl rfl (held_setWorker rfl)
  | shrunk _ => exact resizes_of_held rfl rfl rfl (held_changed (changed_notifyAll x.pool))
  | start _ _ hthread => exact resizes_start hthread
  | grown _ => exact resizes_of_held rfl rfl rfl rfl

theorem resizes_of_begins {x y : Resizable} {wks : ℕ} (h : Resizable.Begins x wks y) :
    Resizes x.pool y.pool := by
  cases h with
  | same _ | shrink _ | grow _ => exact resizes_of_held rfl rfl rfl rfl

theorem Sequenced.resizes (hx : Sequenced x) {y : Resizable} (h : Resizes x.pool.pool y.pool) :
    Sequenced { x with pool := y } where
  ledger := hx.ledger.resized h.tasks h.accepted h.started h.held h.new
  order := by
    rw [h.tasks, h.accepted]
    exact hx.order
  entry w hw e he := by
    have hold : w ∈ x.pool.pool.started := by
      by_contra hnot
      rw [h.new w hw hnot] at he
      cases he
    rw [h.held w hold] at he
    exact hx.entry w hold e he
  once := hx.once
  called c hc := by
    rw [h.accepted]
    exact hx.called c hc
  freed := hx.freed

/-- The destructor does not come back from its end. -/
theorem returned_next (h : next s a = some t) (ht : t.dtor ≠ .returned) : s.dtor ≠ .returned := by
  intro hs
  rcases next_dtor h with hsame | hnotified | ⟨-, hdestroy⟩
  · exact ht (hsame.trans hs)
  · rw [hs] at hnotified
    exact ht hnotified
  · cases hdestroy with
    | begin hpc | wait _ _ hpc | lock hpc | stop _ _ hpc | broadcast hpc | join _ _ hpc
    | joined hpc | clear hpc =>
      rw [hs] at hpc
      cases hpc

theorem sequenced_next {y : Ordered} {b : ResizeAction} (hx : x.Alive → Sequenced x)
    (h : x.next b = some y) (hy : y.Alive) : Sequenced y := by
  obtain ⟨z, hz, rfl⟩ := Option.map_eq_some_iff.mp h
  cases b with
  | pool a =>
    obtain ⟨-, t, ht, rfl⟩ := Resizable.next_pool hz
    exact (hx (returned_next ht hy)).pool ht hy
  | setWorkers wks =>
    obtain ⟨⟨-, -, hidle⟩, hz⟩ := Option.ite_none_right_eq_some.mp hz
    cases hz
    have halive : x.Alive := by simp [Ordered.Alive, hidle]
    exact (hx halive).resizes (resizes_of_begins (x.pool.begins_setWorkers wks))
  | resize thread =>
    have hz : x.pool.resizeStep thread = some z := hz
    have halive : x.Alive := by
      rw [Ordered.Alive, ← (Resizable.dtor_resizeStep hz).2]
      exact hy
    exact (hx halive).resizes (resizes_resizeStep hz)

end Steps

section Results

variable {x : Ordered}

/-- The queue has been left by as many tasks as there are before its front. -/
theorem Sequenced.dequeued_eq (hx : Sequenced x) {i : ℕ} (hi : i < x.pool.pool.front) :
    x.dequeued[i]? = x.pool.pool.accepted[i]? := by
  have hlen : x.pool.pool.front = x.dequeued.length := by
    rw [State.front, ← hx.order, List.length_append, Nat.add_sub_cancel]
  rw [← hx.order, List.getElem?_append_left (hlen ▸ hi)]

/-- Where no function was added twice, calls of its task are calls at the place of it. -/
theorem count_freed {accepted : List StartEntry} (hdistinct : DistinctFns accepted) {i fn : ℕ}
    (hi : accepted[i]? = some (.function fn)) {calls : List Call}
    (hcalls : ∀ c ∈ calls, ∃ e, c.entry = some e ∧ accepted[c.place]? = some e) :
    (calls.filterMap Call.freed).count fn = (calls.map Call.place).count i := by
  induction calls with
  | nil => rfl
  | cons c calls ih =>
    have hrest := ih fun d hd => hcalls d (List.mem_cons_of_mem c hd)
    obtain ⟨e, he, hplace⟩ := hcalls c List.mem_cons_self
    have hfreed : c.freed = e.fn := by rw [Call.freed, he, Option.bind_some]
    have hiff : e.fn = some fn ↔ c.place = i := by
      constructor
      · intro hfn
        cases e with
        | raw entry param => cases hfn
        | function f =>
          obtain rfl := Option.some.inj hfn
          exact hdistinct _ _ _ hplace hi
      · rintro rfl
        rw [hi] at hplace
        rw [← Option.some.inj hplace]
        rfl
    rw [List.filterMap_cons, hfreed, List.map_cons, List.count_cons, ← hrest]
    by_cases hplace : c.place = i
    · simp [hiff.mpr hplace, hplace]
    · cases hfn : e.fn with
      | none => simp [hplace]
      | some f =>
        have hne : f ≠ fn := fun heq => hplace (hiff.mp (by rw [hfn, heq]))
        simp [hplace, hne]

theorem Sequenced.inOrder (hx : Sequenced x) : InOrder x where
  order := hx.order
  once := hx.once
  called c hc := by
    obtain ⟨e, he, hplace⟩ := hx.called c hc
    have hpast : c.place < x.pool.pool.front :=
      hx.ledger.past c.place (List.mem_toFinset.mpr (List.mem_map_of_mem hc))
    exact ⟨e, he, (hx.dequeued_eq hpast).trans hplace⟩
  frees fn hfn := by
    rw [hx.freed] at hfn
    obtain ⟨c, hc, hfreed⟩ := List.mem_filterMap.mp hfn
    obtain ⟨e, he, -⟩ := hx.called c hc
    rw [Call.freed, he, Option.bind_some] at hfreed
    cases e with
    | raw entry param => cases hfreed
    | function f =>
      obtain rfl := Option.some.inj hfreed
      exact ⟨c, hc, he⟩
  freedOnce hdistinct i fn hi := by
    rw [hx.freed]
    exact count_freed hdistinct hi hx.called
  unfreed hdistinct w hw fn hheld := by
    have hplace := hx.ledger.place w hw _ hheld
    have hnot := (hx.ledger.taken w hw (by rw [hheld]; rfl)).2
    rw [List.mem_toFinset] at hnot
    rw [hx.freed, ← List.count_eq_zero, count_freed hdistinct hplace hx.called,
      List.count_eq_zero]
    exact hnot

end Results

/-- For any number of workers, however it is changed, the tasks are dequeued in the order in
which they were enqueued, each is called at most once, and only this call frees its
function. -/
theorem tasks_inOrder (n : ℕ) (as : List ResizeAction) :
    Throughout Ordered.next (fun x => x.Alive → InOrder x) (.init n) as := by
  have hkeeps : Throughout Ordered.next (fun x => x.Alive → Sequenced x) (.init n) as :=
    throughout_of_keeps (fun _ _ _ hx h hy => sequenced_next hx h hy) fun _ => sequenced_init n
  exact hkeeps.mono fun x hx halive => (hx halive).inOrder

end BoxUtils.ThreadPool
