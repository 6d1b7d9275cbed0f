import BoxUtils.ThreadPool

/-!
What one step of a thread pool can do to each of its parts: the record of a
worker, the queue, the list of workers, and the workers that the destructor has
still to join. The results about sleeping, waiting and stopping workers are
derived from these lemmas.
-/
namespace BoxUtils.ThreadPool

/-- What one step of its own thread makes of a worker that finds this queue. -/
def Worker.step (x : Worker) (tasks : List StartEntry) : Option Worker :=
  match x.pc with
  | .loop => some { x with pc := if x.running then .inspect else .leaving }
  | .inspect =>
    match tasks with
    | [] => some { x with pc := .setting }
    | e :: _ => some { x with pc := .claimed e }
  | .setting => some { x with pc := .sleepy }
  | .sleepy => some { x with pc := .blocked }
  | .blocked => none
  | .claimed e => some { x with isFree := false, pc := .busy e }
  | .busy _ => some { x with pc := .invoked }
  | .invoked => some { x with isFree := true, pc := .loop }
  | .leaving =>
    if x.detached then some { x with pc := .exited, deletes := x.deletes + 1 }
    else some { x with pc := .exited }
  | .exited => none

/-- The steps of its own thread by name. -/
inductive Worker.Steps (x : Worker) (tasks : List StartEntry) : Worker → Prop
  | goOn : x.pc = .loop → x.running = true → Steps x tasks { x with pc := .inspect }
  | stop : x.pc = .loop → x.running = false → Steps x tasks { x with pc := .leaving }
  | findNone : x.pc = .inspect → tasks = [] → Steps x tasks { x with pc := .setting }
  | claim (e : StartEntry) (rest : List StartEntry) : x.pc = .inspect → tasks = e :: rest →
      Steps x tasks { x with pc := .claimed e }
  | set : x.pc = .setting → Steps x tasks { x with pc := .sleepy }
  | block : x.pc = .sleepy → Steps x tasks { x with pc := .blocked }
  | begin (e : StartEntry) : x.pc = .claimed e →
      Steps x tasks { x with isFree := false, pc := .busy e }
  | invoke (e : StartEntry) : x.pc = .busy e → Steps x tasks { x with pc := .invoked }
  | finish : x.pc = .invoked → Steps x tasks { x with isFree := true, pc := .loop }
  | delete : x.pc = .leaving → x.detached = true →
      Steps x tasks { x with pc := .exited, deletes := x.deletes + 1 }
  | leave : x.pc = .leaving → x.detached = false → Steps x tasks { x with pc := .exited }

theorem Worker.steps_of_step {x y : Worker} {tasks : List StartEntry}
    (h : x.step tasks = some y) : x.Steps tasks y := by
  unfold step at h
  split at h
  case h_1 hpc =>
    by_cases hrunning : x.running
    · rw [if_pos hrunning] at h
      cases h
      exact Steps.goOn hpc hrunning
    · rw [if_neg hrunning] at h
      cases h
      exact Steps.stop hpc (Bool.eq_false_of_not_eq_true hrunning)
  case h_2 hpc =>
    split at h
    · cases h
      exact Steps.findNone hpc rfl
    · cases h
      exact Steps.claim _ _ hpc rfl
  case h_3 hpc =>
    cases h
    exact Steps.set hpc
  case h_4 hpc =>
    cases h
    exact Steps.block hpc
  case h_5 => cases h
  case h_6 e hpc =>
    cases h
    exact Steps.begin e hpc
  case h_7 e hpc =>
    cases h
    exact Steps.invoke e hpc
  case h_8 hpc =>
    cases h
    exact Steps.finish hpc
  case h_9 hpc =>
    split at h
    case isTrue hdetached =>
      cases h
      exact Steps.delete hpc hdetached
    case isFalse hdetached =>
      cases h
      exact Steps.leave hpc (Bool.eq_false_of_not_eq_true hdetached)
  case h_10 => cases h

/-- What other threads make of a worker: they wake it, stop it or delete it. -/
inductive Worker.Changed : Worker → Worker → Prop
  | same (x : Worker) : Changed x x
  | woken (x : Worker) : x.pc = .blocked → Changed x { x with pc := .loop }
  | stopped (x : Worker) : Changed x { x with running := false }
  | deleted (x : Worker) : x.pc = .exited → Changed x { x with deletes := x.deletes + 1 }

section Work

variable {s t : State} {w : ℕ}

/-- The effect of a step of the thread of a worker. -/
structure Works (s : State) (w : ℕ) (t : State) : Prop where
  own : (s.worker w).step s.tasks = some (t.worker w)
  others : ∀ v, v ≠ w → t.worker v = s.worker v
  tasks : t.tasks = if (s.worker w).pc = .inspect then s.tasks.tail else s.tasks
  accepted : t.accepted = s.accepted
  invoked : t.invoked =
    match (s.worker w).pc with
    | .busy e => s.invoked ++ [e]
    | _ => s.invoked
  workers : t.workers = s.workers
  started : t.started = s.started
  emptyEvent : t.emptyEvent = (s.emptyEvent || decide ((s.worker w).pc = .setting))
  dtor : t.dtor =
    if (s.worker w).pc = .setting ∧ s.emptyEvent = false then s.dtor.notified else s.dtor
  waiter : t.waiter =
    if (s.worker w).pc = .setting ∧ s.emptyEvent = false then
      fun k => (s.waiter k).notified
    else s.waiter

/-- What a worker does to the pool in its step, unless it sets the event. -/
def State.worked (s : State) (w : ℕ) (x : Worker) : State :=
  { s.setWorker w x with
    tasks := if (s.worker w).pc = .inspect then s.tasks.tail else s.tasks
    invoked :=
      match (s.worker w).pc with
      | .busy e => s.invoked ++ [e]
      | _ => s.invoked }

theorem works_worked {x : Worker} (hstep : (s.worker w).step s.tasks = some x)
    (hsetting : (s.worker w).pc ≠ .setting) : Works s w (s.worked w x) := by
  constructor
  case own => simpa [State.worked, State.setWorker] using hstep
  case others =>
    intro v hv
    simp [State.worked, State.setWorker, hv]
  case emptyEvent => simp [State.worked, State.setWorker, hsetting]
  case dtor => simp [State.worked, State.setWorker, hsetting]
  case waiter => simp [State.worked, State.setWorker, hsetting]
  all_goals rfl

/-- Where a worker neither takes a task nor calls one, only its record changes. -/
theorem works_setWorker {x : Worker} (hstep : (s.worker w).step s.tasks = some x)
    (hinspect : (s.worker w).pc ≠ .inspect) (hsetting : (s.worker w).pc ≠ .setting)
    (hbusy : ∀ e, (s.worker w).pc ≠ .busy e) : Works s w (s.setWorker w x) := by
  have hworks := works_worked hstep hsetting
  unfold State.worked at hworks
  rw [if_neg hinspect] at hworks
  split at hworks
  case h_1 e hpc => exact absurd hpc (hbusy e)
  case h_2 => exact hworks

theorem setEvent_eq (s : State) : s.setEvent = { s with
    emptyEvent := true
    waiter := if s.emptyEvent = false then fun k => (s.waiter k).notified else s.waiter
    dtor := if s.emptyEvent = false then s.dtor.notified else s.dtor } := by
  unfold State.setEvent
  cases h : s.emptyEvent with
  | true =>
    obtain ⟨⟩ := s
    simpa using h
  | false => rfl

/-- A worker sets the event. -/
theorem Works.setting (hpc : (s.worker w).pc = .setting) :
    Works s w (s.setEvent.moveWorker w .sleepy) := by
  rw [setEvent_eq]
  constructor
  case own => simp [State.moveWorker, State.setWorker, Worker.step, hpc]
  case others =>
    intro v hv
    simp [State.moveWorker, State.setWorker, hv]
  case tasks => simp [State.moveWorker, State.setWorker, hpc]
  case emptyEvent => simp [State.moveWorker, State.setWorker, hpc]
  case dtor => simp [State.moveWorker, State.setWorker, hpc]
  case waiter => simp [State.moveWorker, State.setWorker, hpc]
  case invoked => simp [State.moveWorker, State.setWorker, hpc]
  all_goals rfl

theorem works_of_work (h : s.work w = some t) : Works s w t := by
  unfold State.work at h
  split at h
  case h_2 hpc =>
    split at h
    case h_1 htasks =>
      cases h
      have hworks : Works s w (s.worked w { s.worker w with pc := .setting }) :=
        works_worked (by simp [Worker.step, hpc, htasks]) (by simp [hpc])
      have htail : s.tasks.tail = s.tasks := by rw [htasks, List.tail_nil]
      simp only [State.worked, hpc, ↓reduceIte, htail] at hworks
      exact hworks
    case h_2 e rest htasks =>
      cases h
      have hworks : Works s w (s.worked w { s.worker w with pc := .claimed e }) :=
        works_worked (by simp [Worker.step, hpc, htasks]) (by simp [hpc])
      have htail : s.tasks.tail = rest := by rw [htasks, List.tail_cons]
      simp only [State.worked, hpc, ↓reduceIte, htail] at hworks
      exact hworks
  case h_3 hpc =>
    cases h
    exact Works.setting hpc
  case h_7 e hpc =>
    cases h
    have hworks : Works s w (s.worked w { s.worker w with pc := .invoked }) :=
      works_worked (by simp [Worker.step, hpc]) (by simp [hpc])
    simp only [State.worked, hpc, reduceCtorEq, ↓reduceIte] at hworks
    exact hworks
  case h_9 hpc =>
    split at h
    case isTrue hdetached =>
      cases h
      apply works_setWorker <;> simp [Worker.step, hpc, hdetached]
    case isFalse hdetached =>
      cases h
      apply works_setWorker <;> simp [Worker.step, hpc, hdetached]
  case h_5 | h_10 => cases h
  all_goals
    rename_i hpc
    cases h
    apply works_setWorker <;> simp [Worker.step, hpc]

end Work

section Held

/-- The task each worker holds. -/
def State.held (s : State) : ℕ → Option StartEntry := fun w => (s.worker w).pc.held

variable {x y : Worker} {tasks : List StartEntry} {s t : State} {w : ℕ}

theorem Worker.Changed.held (h : x.Changed y) : y.pc.held = x.pc.held := by
  cases h with
  | woken hpc => rw [hpc]; rfl
  | same | stopped | deleted => rfl

/-- What a worker holds after its step. -/
theorem Worker.step_held (h : x.step tasks = some y) : y.pc.held =
    match x.pc with
    | .inspect => tasks.head?
    | .busy _ => none
    | pc => pc.held := by
  cases Worker.steps_of_step h with
  | claim e rest hpc htasks =>
    rw [hpc, htasks]
    rfl
  | goOn hpc _ | stop hpc _ | findNone hpc htasks | set hpc | block hpc | begin e hpc
  | invoke e hpc | finish hpc | delete hpc _ | leave hpc _ => simp_all [WorkerPc.held]

theorem held_changed (h : ∀ v, (s.worker v).Changed (t.worker v)) : t.held = s.held := by
  funext v
  exact (h v).held

theorem Works.held_of_ne (h : Works s w t) {v : ℕ} (hv : v ≠ w) : t.held v = s.held v := by
  unfold State.held
  rw [h.others v hv]

theorem Works.held (h : Works s w t) : t.held = Function.update s.held w (t.worker w).pc.held := by
  funext v
  by_cases hv : v = w
  · subst hv
    rw [Function.update_self]
    rfl
  · rw [Function.update_of_ne hv]
    exact h.held_of_ne hv

end Held

section Next

variable {s t : State} {a : Action}

theorem Worker.Changed.setWorker {w : ℕ} {x : Worker} (h : (s.worker w).Changed x) (v : ℕ) :
    (s.worker v).Changed ((s.setWorker w x).worker v) := by
  by_cases hv : v = w
  · subst hv
    simpa [State.setWorker] using h
  · simpa [State.setWorker, hv] using Worker.Changed.same (s.worker v)

theorem WorkerPc.notified_of_ne {pc : WorkerPc} (h : pc ≠ .blocked) : pc.notified = pc := by
  cases pc <;> first | rfl | exact absurd rfl h

theorem changed_notifyAll (s : State) (v : ℕ) : (s.worker v).Changed (s.notifyAll.worker v) := by
  by_cases hpc : (s.worker v).pc = .blocked
  · have hwoken := Worker.Changed.woken _ hpc
    simpa [State.notifyAll, hpc, WorkerPc.notified] using hwoken
  · have hsame : s.notifyAll.worker v = s.worker v := by
      simp only [State.notifyAll, WorkerPc.notified_of_ne hpc]
    rw [hsame]
    exact Worker.Changed.same _

/-- The effect of the section of `add_task`. -/
theorem addTask_cases {e : StartEntry} {woken : Option ℕ} (h : s.addTask e woken = some t) :
    t.tasks = s.tasks ++ [e] ∧ t.accepted = s.accepted ++ [e] ∧ t.invoked = s.invoked ∧
      t.workers = s.workers ∧ t.started = s.started ∧ t.dtor = s.dtor ∧ t.waiter = s.waiter ∧
      (s.tasks = [] ∧ s.CanNotify woken ∧ t.worker = (s.notifyOne woken).worker ∨
        s.tasks ≠ [] ∧ t.worker = s.worker) := by
  unfold State.addTask at h
  split at h
  case isTrue hempty =>
    have hnil : s.tasks = [] := by simpa using hempty
    split at h
    case isTrue hcan =>
      cases h
      cases woken with
      | none => exact ⟨rfl, rfl, rfl, rfl, rfl, rfl, rfl, Or.inl ⟨hnil, hcan, rfl⟩⟩
      | some w => exact ⟨rfl, rfl, rfl, rfl, rfl, rfl, rfl, Or.inl ⟨hnil, hcan, rfl⟩⟩
    case isFalse => cases h
  case isFalse hempty =>
    have hne : s.tasks ≠ [] := by simpa using hempty
    split at h
    · cases h
      exact ⟨rfl, rfl, rfl, rfl, rfl, rfl, rfl, Or.inr ⟨hne, rfl⟩⟩
    · cases h

theorem changed_addTask {e : StartEntry} {woken : Option ℕ} (h : s.addTask e woken = some t)
    (v : ℕ) : (s.worker v).Changed (t.worker v) := by
  obtain ⟨-, -, -, -, -, -, -, hworker⟩ := addTask_cases h
  rcases hworker with ⟨-, hcan, hworker⟩ | ⟨-, hworker⟩
  · rw [hworker]
    cases woken with
    | none => exact Worker.Changed.same _
    | some w => exact (Worker.Changed.woken _ hcan.2).setWorker v
  · rw [hworker]
    exact Worker.Changed.same _

/-- The steps of the destructor by name. -/
inductive Destroys (s : State) : State → Prop
  | begin : s.dtor = .idle → Destroys s { s with dtor := .waiting .entered }
  | wait (pc pc' : WaitPc) : s.dtor = .waiting pc → s.waitStep pc = some pc' →
      Destroys s { s with dtor := .waiting pc' }
  | lock : s.dtor = .waiting .done →
      Destroys s { s with selfMtx := true, dtor := .stopping s.workers }
  | stop (w : ℕ) (rest : List ℕ) : s.dtor = .stopping (w :: rest) →
      Destroys s
        { s.setWorker w { s.worker w with running := false } with dtor := .stopping rest }
  | broadcast : s.dtor = .stopping [] →
      Destroys s { s.notifyAll with dtor := .joining s.workers }
  | join (w : ℕ) (rest : List ℕ) : s.dtor = .joining (w :: rest) → (s.worker w).pc = .exited →
      Destroys s
        { s.setWorker w { s.worker w with deletes := (s.worker w).deletes + 1 } with
          dtor := .joining rest }
  | joined : s.dtor = .joining [] → Destroys s { s with dtor := .clearing }
  | clear : s.dtor = .clearing →
      Destroys s { s with tasks := [], selfMtx := false, dtor := .returned }

theorem destroys_of_destroy (h : s.destroy = some t) : Destroys s t := by
  unfold State.destroy at h
  split at h
  case h_1 hdtor =>
    cases h
    exact Destroys.begin hdtor
  case h_2 hdtor =>
    split at h
    · cases h
    · cases h
      exact Destroys.lock hdtor
  case h_3 pc _ hdtor =>
    obtain ⟨pc', hpc', rfl⟩ := Option.map_eq_some_iff.mp h
    exact Destroys.wait pc pc' hdtor hpc'
  case h_4 w rest hdtor =>
    cases h
    exact Destroys.stop w rest hdtor
  case h_5 hdtor =>
    cases h
    exact Destroys.broadcast hdtor
  case h_6 w rest hdtor =>
    split at h
    case isTrue hexit =>
      cases h
      exact Destroys.join w rest hdtor hexit
    case isFalse => cases h
  case h_7 hdtor =>
    cases h
    exact Destroys.joined hdtor
  case h_8 hdtor =>
    cases h
    exact Destroys.clear hdtor
  case h_9 => cases h

theorem Destroys.changed (h : Destroys s t) (v : ℕ) : (s.worker v).Changed (t.worker v) := by
  cases h with
  | stop w rest => exact (Worker.Changed.stopped _).setWorker v
  | broadcast => exact changed_notifyAll s v
  | join w rest _ hexit => exact (Worker.Changed.deleted _ hexit).setWorker v
  | begin | wait | lock | joined | clear => exact Worker.Changed.same _

/-- The effect of a step of the destructor on the other parts. -/
theorem Destroys.frame (h : Destroys s t) :
    t.accepted = s.accepted ∧ t.invoked = s.invoked ∧ t.workers = s.workers ∧
      t.started = s.started ∧ t.waiter = s.waiter ∧
      (t.tasks = s.tasks ∨ s.dtor = .clearing ∧ t.tasks = []) := by
  cases h with
  | clear hdtor => exact ⟨rfl, rfl, rfl, rfl, rfl, Or.inr ⟨hdtor, rfl⟩⟩
  | begin | wait | lock | stop | broadcast | join | joined =>
    exact ⟨rfl, rfl, rfl, rfl, rfl, Or.inl rfl⟩

/-- A step that adds no task and is none of a worker or of the destructor. -/
structure Aside (s t : State) : Prop where
  tasks : t.tasks = s.tasks
  accepted : t.accepted = s.accepted
  invoked : t.invoked = s.invoked
  workers : t.workers = s.workers
  started : t.started = s.started
  dtor : t.dtor = s.dtor
  changed : ∀ v, (s.worker v).Changed (t.worker v)

theorem aside_waiter (s : State) (f : ℕ → WaitPc) : Aside s { s with waiter := f } :=
  ⟨rfl, rfl, rfl, rfl, rfl, rfl, fun _ => Worker.Changed.same _⟩

/-- A step adds a task, is one of a worker or of the destructor, or goes aside. -/
theorem next_cases (h : next s a = some t) :
    (s.dtor = .idle ∧ ∃ e woken, s.addTask e woken = some t) ∨
      (∃ w ∈ s.started, a = .work w ∧ Works s w t) ∨
      (a = .destroy ∧ Destroys s t) ∨ Aside s t := by
  cases a with
  | addTask e woken =>
    obtain ⟨hidle, h⟩ := Option.ite_none_right_eq_some.mp h
    exact Or.inl ⟨hidle, e, woken, h⟩
  | addFunction fn woken =>
    cases fn with
    | none =>
      cases h
      exact Or.inr (Or.inr (Or.inr (aside_waiter s s.waiter)))
    | some f =>
      obtain ⟨hidle, h⟩ := Option.ite_none_right_eq_some.mp h
      exact Or.inl ⟨hidle, .function f, woken, h⟩
  | work w =>
    obtain ⟨hw, h⟩ := Option.ite_none_right_eq_some.mp h
    exact Or.inr (Or.inl ⟨w, hw, rfl, works_of_work h⟩)
  | wake w =>
    obtain ⟨hblocked, h⟩ := Option.ite_none_right_eq_some.mp h
    cases h
    have hwoken := Worker.Changed.woken _ hblocked.2
    exact Or.inr (Or.inr (Or.inr ⟨rfl, rfl, rfl, rfl, rfl, rfl, hwoken.setWorker⟩))
  | callWait k =>
    obtain ⟨-, h⟩ := Option.ite_none_right_eq_some.mp h
    cases h
    exact Or.inr (Or.inr (Or.inr (aside_waiter s _)))
  | wait k =>
    obtain ⟨pc, -, rfl⟩ := Option.map_eq_some_iff.mp h
    exact Or.inr (Or.inr (Or.inr (aside_waiter s _)))
  | destroy => exact Or.inr (Or.inr (Or.inl ⟨rfl, destroys_of_destroy h⟩))

/-- A worker makes a step of its own, or another thread changes it. -/
theorem next_worker (h : next s a = some t) (v : ℕ) :
    a = .work v ∧ Works s v t ∨ (s.worker v).Changed (t.worker v) := by
  rcases next_cases h with ⟨-, e, woken, hadd⟩ | ⟨w, -, rfl, hworks⟩ | ⟨-, hdestroy⟩ | haside
  · exact Or.inr (changed_addTask hadd v)
  · by_cases hv : v = w
    · subst hv
      exact Or.inl ⟨rfl, hworks⟩
    · rw [hworks.others v hv]
      exact Or.inr (Worker.Changed.same _)
  · exact Or.inr (hdestroy.changed v)
  · exact Or.inr (haside.changed v)

/-- No step changes the list of workers or starts a thread. -/
theorem next_frame (h : next s a = some t) : t.workers = s.workers ∧ t.started = s.started := by
  rcases next_cases h with ⟨-, e, woken, hadd⟩ | ⟨w, -, rfl, hworks⟩ | ⟨-, hdestroy⟩ | haside
  · obtain ⟨-, -, -, hworkers, hstarted, -⟩ := addTask_cases hadd
    exact ⟨hworkers, hstarted⟩
  · exact ⟨hworks.workers, hworks.started⟩
  · obtain ⟨-, -, hworkers, hstarted, -⟩ := hdestroy.frame
    exact ⟨hworkers, hstarted⟩
  · exact ⟨haside.workers, haside.started⟩

end Next

section Workers

variable {x y : Worker} {tasks : List StartEntry}

/-- A worker blocks only by a step of its own, from where it has decided to sleep. -/
theorem Worker.step_blocked (h : x.step tasks = some y) (hy : y.pc = .blocked) :
    x.pc = .sleepy := by
  cases Worker.steps_of_step h with
  | block hpc => exact hpc
  | _ => cases hy

theorem Worker.Changed.blocked (h : x.Changed y) (hy : y.pc = .blocked) : x.pc = .blocked := by
  cases h with
  | same => exact hy
  | woken hpc => exact hpc
  | stopped => exact hy
  | deleted => exact hy

/-- A worker does not change the flags that others set. -/
theorem Worker.step_flags (h : x.step tasks = some y) :
    y.running = x.running ∧ y.detached = x.detached := by
  cases Worker.steps_of_step h <;> exact ⟨rfl, rfl⟩

/-- A thread that has left `worker_main` does not come back. -/
theorem Worker.Changed.exited (h : x.Changed y) (hx : x.pc = .exited) : y.pc = .exited := by
  cases h with
  | same => exact hx
  | woken hpc => simp [hx] at hpc
  | stopped => exact hx
  | deleted => exact hx

theorem Worker.Changed.detached (h : x.Changed y) : y.detached = x.detached := by
  cases h <;> rfl

variable {s t : State} {a : Action} {w : ℕ}

theorem next_exited (h : next s a = some t) (hw : (s.worker w).pc = .exited) :
    (t.worker w).pc = .exited := by
  rcases next_worker h w with ⟨-, hworks⟩ | hchanged
  · have hown := hworks.own
    simp [Worker.step, hw] at hown
  · exact hchanged.exited hw

theorem next_detached (h : next s a = some t) (w : ℕ) :
    (t.worker w).detached = (s.worker w).detached := by
  rcases next_worker h w with ⟨-, hworks⟩ | hchanged
  · exact (Worker.step_flags hworks.own).2
  · exact hchanged.detached

end Workers

section Joining

variable {s t : State} {a : Action}

/-- The workers the destructor has still to join, once it has stopped them. -/
def DtorPc.remaining : DtorPc → Option (List ℕ)
  | .joining rest => some rest
  | .clearing | .returned => some []
  | _ => none

theorem DtorPc.remaining_notified (pc : DtorPc) : pc.notified.remaining = pc.remaining := by
  cases pc <;> rfl

/-- Where a step leaves the destructor: only its own steps move it on, and the others may
notify it. -/
theorem next_dtor (h : next s a = some t) :
    t.dtor = s.dtor ∨ t.dtor = s.dtor.notified ∨ (a = .destroy ∧ Destroys s t) := by
  rcases next_cases h with ⟨-, e, woken, hadd⟩ | ⟨w, -, rfl, hworks⟩ | hdestroy | haside
  · obtain ⟨-, -, -, -, -, hdtor, -⟩ := addTask_cases hadd
    exact Or.inl hdtor
  · rw [hworks.dtor]
    split
    · exact Or.inr (Or.inl rfl)
    · exact Or.inl rfl
  · exact Or.inr (Or.inr hdestroy)
  · exact Or.inl haside.dtor

/-- The workers left to join after a step were left before it, or are the whole list
at the broadcast, or one of them has been joined. -/
theorem next_remaining {rest : List ℕ} (h : next s a = some t)
    (hrest : t.dtor.remaining = some rest) :
    s.dtor.remaining = some rest ∨ (s.dtor = .stopping [] ∧ rest = s.workers) ∨
      ∃ w, s.dtor.remaining = some (w :: rest) ∧ (s.worker w).pc = .exited := by
  rcases next_dtor h with hsame | hnotified | ⟨-, hdestroy⟩
  · exact Or.inl (hsame ▸ hrest)
  · rw [hnotified, DtorPc.remaining_notified] at hrest
    exact Or.inl hrest
  · cases hdestroy with
    | broadcast hdtor =>
      cases hrest
      exact Or.inr (Or.inl ⟨hdtor, rfl⟩)
    | join w rest' hdtor hexit =>
      cases hrest
      exact Or.inr (Or.inr ⟨w, by rw [hdtor]; rfl, hexit⟩)
    | joined hdtor | clear hdtor => exact Or.inl (by rw [hdtor]; exact hrest)
    | begin | wait | lock | stop => cases hrest

/-- Only the destructor itself begins. -/
theorem next_idle (h : next s a = some t) (ha : a ≠ .destroy) (hidle : s.dtor = .idle) :
    t.dtor = .idle := by
  rcases next_dtor h with hsame | hnotified | ⟨hdestroy, -⟩
  · rw [hsame, hidle]
  · rw [hnotified, hidle]
    rfl
  · exact absurd hdestroy ha

/-- The destructor has joined all of these workers that it has not still to join. -/
def JoinedAll (s : State) (among : ℕ → Prop) : Prop :=
  ∀ rest, s.dtor.remaining = some rest → ∀ w, among w → w ∈ rest ∨ (s.worker w).pc = .exited

theorem joinedAll_of_idle {among : ℕ → Prop} (h : s.dtor = .idle) : JoinedAll s among := by
  intro rest hrest
  rw [h] at hrest
  cases hrest

theorem JoinedAll.next {among : ℕ → Prop} (hs : JoinedAll s among)
    (hlisted : ∀ w, among w → w ∈ s.workers) (h : next s a = some t) : JoinedAll t among := by
  intro rest hrest w hw
  rcases next_remaining h hrest with hsame | ⟨-, rfl⟩ | ⟨v, hmore, hexit⟩
  · exact (hs rest hsame w hw).imp id (next_exited h)
  · exact Or.inl (hlisted w hw)
  · rcases hs (v :: rest) hmore w hw with hmem | hpc
    · rcases List.mem_cons.mp hmem with rfl | hmem
      · exact Or.inr (next_exited h hexit)
      · exact Or.inl hmem
    · exact Or.inr (next_exited h hpc)

/-- The destructor has joined every listed worker that it has not still to join. -/
def Joined (s : State) : Prop := JoinedAll s (· ∈ s.workers)

theorem Joined.next (hs : Joined s) (h : next s a = some t) : Joined t := by
  unfold Joined
  rw [(next_frame h).1]
  exact JoinedAll.next hs (fun _ hw => hw) h

end Joining

end BoxUtils.ThreadPool
