import BoxUtils.ThreadPoolResize

/-!
Who deletes the records of the workers. Only the destructor deletes listed ones, after it
has joined their threads, and only its own thread deletes a detached one. A shrinking
`set_workers` sets the flag `detached` before it clears the flag `running`, and a thread
looks at `detached` after it has found `running` cleared, so that it has never left before
the pool is done with its record.
-/
namespace BoxUtils.ThreadPool

open Runs

/-- A pool with what the last call of `set_workers` was called with and found. -/
structure Records where
  pool : Resizable
  before : List ℕ
  wanted : ℕ

namespace Records

/-- The constructor calls `set_workers_lockfree` for an empty list. -/
def init (n : ℕ) : Records := ⟨Resizable.init n, [], n⟩

def next (x : Records) (a : ResizeAction) : Option Records :=
  (Resizable.next x.pool a).map fun y =>
    match a with
    | .setWorkers wks => ⟨y, x.pool.pool.workers, wks⟩
    | .pool _ | .resize _ => { x with pool := y }

end Records

/-- The record that the pool writes to or deletes in a step. -/
def Resizable.accessed (x : Resizable) : ResizeAction → Option ℕ
  | .resize _ =>
    match x.resize with
    | .shrinking (_ + 1) => x.pool.workers.head?
    | .clearing w _ => some w
    | _ => none
  | .pool .destroy =>
    match x.pool.dtor with
    | .stopping (w :: _) | .joining (w :: _) => some w
    | _ => none
  | _ => none

/-- The destructor has not begun to delete the workers. -/
def DtorPc.BeforeDeletes (pc : DtorPc) : Prop := pc.remaining = none

/-- The list is as long as it was to be: its front is gone, or there are new workers at
its end. -/
structure ResizedTo (before : List ℕ) (wanted : ℕ) (workers : List ℕ) : Prop where
  length : workers.length = wanted
  shrunk : wanted ≤ before.length → workers = before.drop (before.length - wanted)
  grown : before.length ≤ wanted → before <+: workers

/-- After each call the list has been resized, and its members are the workers that were
never detached. -/
structure Kept (x : Records) : Prop where
  resized : x.pool.resize = .idle → ResizedTo x.before x.wanted x.pool.pool.workers
  members : ∀ w ∈ x.pool.pool.started,
    w ∈ x.pool.pool.workers ↔ (x.pool.pool.worker w).detached = false
  once : ∀ w ∈ x.pool.pool.started, (x.pool.pool.worker w).deletes ≤ 1
  present : x.pool.pool.dtor.BeforeDeletes → ∀ w ∈ x.pool.pool.workers,
    (x.pool.pool.worker w).deletes = 0

/-- The pool uses no record that is deleted. A detached worker is deleted by its own thread,
a listed one by the destructor when the thread has left. -/
structure DisposesOnce (x : Records) (a : ResizeAction) (y : Records) : Prop where
  accessed : ∀ w, x.pool.accessed a = some w → (x.pool.pool.worker w).deletes = 0
  disposer : ∀ w ∈ x.pool.pool.started,
    (y.pool.pool.worker w).deletes ≠ (x.pool.pool.worker w).deletes →
      a = .pool (.work w) ∧ (x.pool.pool.worker w).detached = true ∨
      a = .pool .destroy ∧ w ∈ x.pool.pool.workers ∧ (x.pool.pool.worker w).pc = .exited

/-- The invariant of the records. -/
structure Recorded (x : Resizable) : Prop where
  listed : ∀ w, w ∈ x.pool.workers ↔
    w ∈ x.pool.started ∧ (x.pool.worker w).detached = false
  nodup : x.pool.workers.Nodup
  once : ∀ w ∈ x.pool.started, (x.pool.worker w).deletes ≤ 1
  unexited : ∀ w ∈ x.pool.started, (x.pool.worker w).pc ≠ .exited →
    (x.pool.worker w).deletes = 0
  unjoined : ∀ w ∈ x.pool.workers, (∀ rest, x.pool.dtor.remaining = some rest → w ∈ rest) →
    (x.pool.worker w).deletes = 0
  remaining : ∀ rest, x.pool.dtor.remaining = some rest → rest.Sublist x.pool.workers
  stopping : ∀ rest, x.pool.dtor = .stopping rest → rest.Sublist x.pool.workers
  running : x.pool.dtor = .idle → ∀ w,
    w ∈ x.pool.workers ∨ (∃ count, x.resize = .clearing w count) →
      (x.pool.worker w).running = true ∧ (x.pool.worker w).pc ≠ .leaving ∧
        (x.pool.worker w).pc ≠ .exited
  clearing : ∀ w count, x.resize = .clearing w count → w ∈ x.pool.started ∧
    (x.pool.worker w).detached = true
  alone : x.resize ≠ .idle → x.pool.dtor = .idle

section Records

variable {x y : Resizable} {s t : State} {a : Action} {w : ℕ}

theorem recorded_init (n : ℕ) : Recorded (.init n) where
  listed w := by simp [Resizable.init, init]
  nodup := List.nodup_range
  once w _ := Nat.zero_le 1
  unexited w _ _ := rfl
  unjoined w _ _ := rfl
  remaining rest h := by cases h
  stopping rest h := by cases h
  running _ w _ := by simp [Resizable.init, init]
  clearing w count h := by cases h
  alone h := absurd rfl h

/-- A step of a thread deletes its record exactly when it leaves detached. -/
theorem Worker.step_deletes {v v' : Worker} {tasks : List StartEntry}
    (h : v.step tasks = some v') : v'.deletes = v.deletes ∨
      v.pc = .leaving ∧ v.detached = true ∧ v'.pc = .exited ∧ v'.deletes = v.deletes + 1 := by
  cases Worker.steps_of_step h with
  | delete hpc hdetached => exact Or.inr ⟨hpc, hdetached, rfl, rfl⟩
  | _ => exact Or.inl rfl

/-- A thread makes no step from where it has left. -/
theorem Worker.step_unexited {v v' : Worker} {tasks : List StartEntry}
    (h : v.step tasks = some v') : v.pc ≠ .exited := by
  intro hpc
  simp [Worker.step, hpc] at h

/-- A thread whose flag is set does not leave. -/
theorem Worker.step_running {v v' : Worker} {tasks : List StartEntry}
    (h : v.step tasks = some v') (hrunning : v.running = true) (hpc : v.pc ≠ .leaving) :
    v'.pc ≠ .leaving ∧ v'.pc ≠ .exited := by
  cases Worker.steps_of_step h with
  | stop _ hstop => cases hstop.symm.trans hrunning
  | delete hleaving _ | leave hleaving _ => exact absurd hleaving hpc
  | _ => exact ⟨nofun, nofun⟩

/-- What a step other than one of the destructor makes of a worker. -/
theorem worker_next (h : next s a = some t) (ha : a ≠ .destroy) (v : ℕ) :
    a = .work v ∧ (s.worker v).step s.tasks = some (t.worker v) ∨ t.worker v = s.worker v ∨
      (s.worker v).pc = .blocked ∧ t.worker v = { s.worker v with pc := .loop } := by
  have hmove : ∀ {w : ℕ}, (s.worker w).pc = .blocked →
      (s.moveWorker w .loop).worker v = s.worker v ∨ (s.worker v).pc = .blocked ∧
        (s.moveWorker w .loop).worker v = { s.worker v with pc := .loop } := by
    intro w hw
    by_cases hvw : v = w
    · subst hvw
      exact Or.inr ⟨hw, by simp [State.moveWorker, State.setWorker]⟩
    · exact Or.inl (by simp [State.moveWorker, State.setWorker, hvw])
  have hadd : ∀ {e : StartEntry} {woken : Option ℕ}, s.addTask e woken = some t →
      t.worker v = s.worker v ∨
        (s.worker v).pc = .blocked ∧ t.worker v = { s.worker v with pc := .loop } := by
    intro e woken h
    obtain ⟨-, -, -, -, -, -, -, ⟨-, hcan, hworker⟩ | ⟨-, hworker⟩⟩ := addTask_cases h
    · rw [hworker]
      cases woken with
      | none => exact Or.inl rfl
      | some w => exact hmove hcan.2
    · exact Or.inl (by rw [hworker])
  cases a with
  | work w =>
    obtain ⟨-, h⟩ := Option.ite_none_right_eq_some.mp h
    have hworks := works_of_work h
    by_cases hvw : v = w
    · subst hvw
      exact Or.inl ⟨rfl, hworks.own⟩
    · exact Or.inr (Or.inl (hworks.others v hvw))
  | addTask e woken =>
    obtain ⟨-, h⟩ := Option.ite_none_right_eq_some.mp h
    exact Or.inr (hadd h)
  | addFunction fn woken =>
    cases fn with
    | none =>
      cases h
      exact Or.inr (Or.inl rfl)
    | some f =>
      obtain ⟨-, h⟩ := Option.ite_none_right_eq_some.mp h
      exact Or.inr (hadd h)
  | wake w =>
    obtain ⟨hw, h⟩ := Option.ite_none_right_eq_some.mp h
    cases h
    exact Or.inr (hmove hw.2)
  | callWait k =>
    obtain ⟨-, h⟩ := Option.ite_none_right_eq_some.mp h
    cases h
    exact Or.inr (Or.inl rfl)
  | wait k =>
    obtain ⟨pc, -, rfl⟩ := Option.map_eq_some_iff.mp h
    exact Or.inr (Or.inl rfl)
  | destroy => exact absurd rfl ha

/-- A record is deleted in such a step by its own thread alone, which leaves detached. -/
theorem deletes_next (h : next s a = some t) (ha : a ≠ .destroy) (v : ℕ) :
    (t.worker v).deletes = (s.worker v).deletes ∨
      a = .work v ∧ (s.worker v).pc = .leaving ∧ (s.worker v).detached = true ∧
        (t.worker v).pc = .exited ∧ (t.worker v).deletes = (s.worker v).deletes + 1 := by
  rcases worker_next h ha v with ⟨rfl, hstep⟩ | hsame | ⟨-, hwoken⟩
  · exact (Worker.step_deletes hstep).imp id fun hleft => ⟨rfl, hleft⟩
  · exact Or.inl (by rw [hsame])
  · exact Or.inl (by rw [hwoken])

theorem unexited_next (h : next s a = some t) (ha : a ≠ .destroy) {v : ℕ}
    (hpc : (t.worker v).pc ≠ .exited) : (s.worker v).pc ≠ .exited := by
  rcases worker_next h ha v with ⟨-, hstep⟩ | hsame | ⟨hblocked, -⟩
  · exact Worker.step_unexited hstep
  · rwa [hsame] at hpc
  · simp [hblocked]

/-- The destructor is where it was, but that its wait may have been ended. -/
theorem dtor_next (h : next s a = some t) (ha : a ≠ .destroy) :
    t.dtor.remaining = s.dtor.remaining ∧ (∀ rest, t.dtor = .stopping rest → s.dtor = t.dtor) ∧
      (t.dtor = .idle → s.dtor = .idle) := by
  rcases next_dtor h with hsame | hnotified | ⟨heq, -⟩
  · rw [hsame]
    exact ⟨rfl, fun _ _ => rfl, id⟩
  · rw [hnotified]
    refine ⟨DtorPc.remaining_notified _, ?_, ?_⟩
    · cases s.dtor <;> simp [DtorPc.notified]
    · cases s.dtor <;> simp [DtorPc.notified]
  · exact absurd heq ha

theorem Recorded.quiet (hx : Recorded x) (h : ThreadPool.next x.pool a = some t)
    (ha : a ≠ .destroy) : Recorded ⟨t, x.resize⟩ := by
  obtain ⟨hworkers, hstarted⟩ := next_frame h
  obtain ⟨hremaining, hstopping, hidle⟩ := dtor_next h ha
  constructor
  case listed =>
    intro w
    simp only [hworkers, hstarted, next_detached h w]
    exact hx.listed w
  case nodup =>
    simp only [hworkers]
    exact hx.nodup
  case once =>
    intro w hw
    rw [hstarted] at hw
    rcases deletes_next h ha w with hsame | ⟨-, hpc, -, -, hdeleted⟩
    · rw [hsame]
      exact hx.once w hw
    · rw [hdeleted, hx.unexited w hw (by simp [hpc])]
  case unexited =>
    intro w hw hpc
    rw [hstarted] at hw
    have hbefore := hx.unexited w hw (unexited_next h ha hpc)
    rcases deletes_next h ha w with hsame | ⟨-, -, -, hexited, -⟩
    · rw [hsame, hbefore]
    · exact absurd hexited hpc
  case unjoined =>
    intro w hw hrest
    rw [hworkers] at hw
    rw [hremaining] at hrest
    rcases deletes_next h ha w with hsame | ⟨-, -, hdetached, -⟩
    · rw [hsame]
      exact hx.unjoined w hw hrest
    · rw [((hx.listed w).mp hw).2] at hdetached
      cases hdetached
  case remaining =>
    intro rest hrest
    rw [hremaining] at hrest
    rw [hworkers]
    exact hx.remaining rest hrest
  case stopping =>
    intro rest hrest
    rw [hworkers]
    exact hx.stopping rest ((hstopping rest hrest).trans hrest)
  case running =>
    intro hdtor w hw
    rw [hworkers] at hw
    obtain ⟨hrunning, hleaving, hexited⟩ := hx.running (hidle hdtor) w hw
    rcases worker_next h ha w with ⟨-, hstep⟩ | hsame | ⟨-, hwoken⟩
    · exact ⟨(Worker.step_flags hstep).1.trans hrunning,
        Worker.step_running hstep hrunning hleaving⟩
    · rw [hsame]
      exact ⟨hrunning, hleaving, hexited⟩
    · rw [hwoken]
      exact ⟨hrunning, by simp, by simp⟩
  case clearing =>
    intro w count hresize
    obtain ⟨hw, hdetached⟩ := hx.clearing w count hresize
    exact ⟨hstarted ▸ hw, (next_detached h w).trans hdetached⟩
  case alone => exact fun hresize => next_idle h ha (hx.alone hresize)

/-- A step of the destructor that deletes nothing. -/
theorem Recorded.goOn (hx : Recorded x) (hresize : x.resize = .idle)
    (hworkers : t.workers = x.pool.workers) (hstarted : t.started = x.pool.started)
    (hsame : ∀ v, (t.worker v).detached = (x.pool.worker v).detached ∧
      (t.worker v).deletes = (x.pool.worker v).deletes ∧
      ((t.worker v).pc ≠ .exited → (x.pool.worker v).pc ≠ .exited))
    (hremaining : ∀ rest, t.dtor.remaining = some rest → rest.Sublist x.pool.workers)
    (hbefore : x.pool.dtor.remaining = none ∨ x.pool.dtor.remaining = t.dtor.remaining)
    (hstopping : ∀ rest, t.dtor = .stopping rest → rest.Sublist x.pool.workers)
    (hbegun : t.dtor ≠ .idle) : Recorded ⟨t, x.resize⟩ := by
  constructor
  case listed =>
    intro w
    simp only [hworkers, hstarted, (hsame w).1]
    exact hx.listed w
  case nodup =>
    simp only [hworkers]
    exact hx.nodup
  case once =>
    intro w hw
    rw [(hsame w).2.1]
    exact hx.once w (hstarted ▸ hw)
  case unexited =>
    intro w hw hpc
    rw [(hsame w).2.1]
    exact hx.unexited w (hstarted ▸ hw) ((hsame w).2.2 hpc)
  case unjoined =>
    intro w hw hrest
    rw [(hsame w).2.1]
    refine hx.unjoined w (hworkers ▸ hw) fun rest hr => ?_
    rcases hbefore with hnone | heq
    · rw [hnone] at hr
      cases hr
    · exact hrest rest (heq ▸ hr)
  case remaining =>
    intro rest hrest
    rw [hworkers]
    exact hremaining rest hrest
  case stopping =>
    intro rest hrest
    rw [hworkers]
    exact hstopping rest hrest
  case running => exact fun hidle => absurd hidle hbegun
  case clearing =>
    intro w count hclearing
    have hclearing : x.resize = .clearing w count := hclearing
    rw [hresize] at hclearing
    cases hclearing
  case alone => exact fun hbusy => absurd hresize hbusy

/-- The destructor deletes the first of the workers that it has still to join. -/
theorem Recorded.join (hx : Recorded x) (hresize : x.resize = .idle) {rest : List ℕ}
    (hdtor : x.pool.dtor = .joining (w :: rest)) (hexit : (x.pool.worker w).pc = .exited) :
    Recorded ⟨{ x.pool.setWorker w { x.pool.worker w with
      deletes := (x.pool.worker w).deletes + 1 } with dtor := .joining rest }, x.resize⟩ := by
  have hsublist : (w :: rest).Sublist x.pool.workers := hx.remaining _ (by rw [hdtor]; rfl)
  have hw : w ∈ x.pool.workers := hsublist.subset List.mem_cons_self
  have hnot : w ∉ rest := (List.nodup_cons.mp (hsublist.nodup hx.nodup)).1
  have hzero : (x.pool.worker w).deletes = 0 := by
    refine hx.unjoined w hw fun r hr => ?_
    rw [hdtor] at hr
    obtain rfl := Option.some.inj hr
    exact List.mem_cons_self
  constructor
  case listed =>
    intro v
    by_cases hvw : v = w
    · subst hvw
      simpa [State.setWorker] using hx.listed v
    · simpa [State.setWorker, hvw] using hx.listed v
  case nodup => exact hx.nodup
  case once =>
    intro v hv
    by_cases hvw : v = w
    · subst hvw
      simp [State.setWorker, hzero]
    · simpa [State.setWorker, hvw] using hx.once v hv
  case unexited =>
    intro v hv hpc
    by_cases hvw : v = w
    · subst hvw
      simp [State.setWorker, hexit] at hpc
    · simp only [State.setWorker, Function.update_of_ne hvw] at hpc ⊢
      exact hx.unexited v hv hpc
  case unjoined =>
    intro v hv hrest
    have hvrest : v ∈ rest := hrest rest rfl
    have hvw : v ≠ w := fun heq => hnot (heq ▸ hvrest)
    simp only [State.setWorker, Function.update_of_ne hvw]
    refine hx.unjoined v hv fun r hr => ?_
    rw [hdtor] at hr
    obtain rfl := Option.some.inj hr
    exact List.mem_cons_of_mem w hvrest
  case remaining =>
    intro r hr
    obtain rfl := Option.some.inj hr
    exact (List.sublist_cons_self w rest).trans hsublist
  case stopping => exact fun r hr => by cases hr
  case running => exact fun hidle => by cases hidle
  case clearing =>
    intro v count hclearing
    have hclearing : x.resize = .clearing v count := hclearing
    rw [hresize] at hclearing
    cases hclearing
  case alone => exact fun hbusy => absurd hresize hbusy

theorem Recorded.destroy (hx : Recorded x) (hresize : x.resize = .idle)
    (h : Destroys x.pool t) : Recorded ⟨t, x.resize⟩ := by
  have hkeep : ∀ v, (x.pool.worker v).detached = (x.pool.worker v).detached ∧
      (x.pool.worker v).deletes = (x.pool.worker v).deletes ∧
      ((x.pool.worker v).pc ≠ .exited → (x.pool.worker v).pc ≠ .exited) :=
    fun v => ⟨rfl, rfl, id⟩
  cases h with
  | begin hdtor | wait _ _ hdtor =>
    exact hx.goOn hresize rfl rfl hkeep (fun r hr => by cases hr)
      (Or.inl (by rw [hdtor]; rfl)) (fun r hr => by cases hr) (by simp)
  | lock hdtor =>
    refine hx.goOn hresize rfl rfl hkeep (fun r hr => by cases hr)
      (Or.inl (by rw [hdtor]; rfl)) (fun r hr => ?_) (by simp)
    obtain rfl := DtorPc.stopping.inj hr
    exact List.Sublist.refl _
  | stop w rest hdtor =>
    refine hx.goOn hresize rfl rfl (fun v => ?_) (fun r hr => by cases hr)
      (Or.inl (by rw [hdtor]; rfl)) (fun r hr => ?_) (by simp)
    · by_cases hvw : v = w
      · subst hvw
        simp [State.setWorker]
      · simp [State.setWorker, hvw]
    · obtain rfl := DtorPc.stopping.inj hr
      exact (List.sublist_cons_self w rest).trans (hx.stopping _ hdtor)
  | broadcast hdtor =>
    refine hx.goOn hresize rfl rfl (fun v => ⟨rfl, rfl, fun hpc hexit => hpc ?_⟩) (fun r hr => ?_)
      (Or.inl (by rw [hdtor]; rfl)) (fun r hr => by cases hr) (by simp)
    · simp [State.notifyAll, hexit, WorkerPc.notified]
    · obtain rfl := Option.some.inj hr
      exact List.Sublist.refl _
  | join w rest hdtor hexit => exact hx.join hresize hdtor hexit
  | joined hdtor | clear hdtor =>
    refine hx.goOn hresize rfl rfl hkeep (fun r hr => ?_)
      (Or.inr (by rw [hdtor]; rfl)) (fun r hr => by cases hr) (by simp)
    obtain rfl := Option.some.inj hr
    exact List.nil_sublist _

/-- A step of `set_workers` while the destructor has not begun. -/
theorem recorded_of_idle {resize : ResizePc} (hdtor : t.dtor = .idle)
    (hlisted : ∀ w, w ∈ t.workers ↔ w ∈ t.started ∧ (t.worker w).detached = false)
    (hnodup : t.workers.Nodup)
    (hdeletes : ∀ w ∈ t.started, (t.worker w).deletes ≤ 1 ∧
      ((t.worker w).pc ≠ .exited → (t.worker w).deletes = 0))
    (hrunning : ∀ w, w ∈ t.workers ∨ (∃ count, resize = .clearing w count) →
      (t.worker w).running = true ∧ (t.worker w).pc ≠ .leaving ∧ (t.worker w).pc ≠ .exited)
    (hclearing : ∀ w count, resize = .clearing w count →
      w ∈ t.started ∧ (t.worker w).detached = true) : Recorded ⟨t, resize⟩ where
  listed := hlisted
  nodup := hnodup
  once w hw := (hdeletes w hw).1
  unexited w hw := (hdeletes w hw).2
  unjoined w hw _ :=
    (hdeletes w ((hlisted w).mp hw).1).2 (hrunning w (Or.inl hw)).2.2
  remaining r hr := by
    have hr : t.dtor.remaining = some r := hr
    rw [hdtor] at hr
    cases hr
  stopping r hr := by
    have hr : t.dtor = .stopping r := hr
    rw [hdtor] at hr
    cases hr
  running _ := hrunning
  clearing := hclearing
  alone _ := hdtor

theorem Recorded.deletes (hx : Recorded x) : ∀ w ∈ x.pool.started, (x.pool.worker w).deletes ≤ 1 ∧
    ((x.pool.worker w).pc ≠ .exited → (x.pool.worker w).deletes = 0) :=
  fun w hw => ⟨hx.once w hw, hx.unexited w hw⟩

/-- The front worker is detached, and its flag `running` is still set. -/
theorem Recorded.detach (hx : Recorded x) (hdtor : x.pool.dtor = .idle) {rest : List ℕ}
    (hworkers : x.pool.workers = w :: rest) (count : ℕ) :
    Recorded ⟨Resizable.detach x.pool w rest, .clearing w count⟩ := by
  have hnodup := hx.nodup
  rw [hworkers, List.nodup_cons] at hnodup
  have hw : w ∈ x.pool.workers := by rw [hworkers]; exact List.mem_cons_self
  have hpc : ∀ v, ((Resizable.detach x.pool w rest).worker v).pc = (x.pool.worker v).pc ∧
      ((Resizable.detach x.pool w rest).worker v).deletes = (x.pool.worker v).deletes ∧
      ((Resizable.detach x.pool w rest).worker v).running = (x.pool.worker v).running := by
    intro v
    by_cases hvw : v = w
    · subst hvw
      simp [Resizable.detach, State.setWorker]
    · simp [Resizable.detach, State.setWorker, hvw]
  refine recorded_of_idle ?_ (fun v => ?_) ?_ (fun v hv => ?_) (fun v hv => ?_) fun v c hc => ?_
  · exact hdtor
  · by_cases hvw : v = w
    · subst hvw
      simpa [Resizable.detach, State.setWorker] using hnodup.1
    · have hlisted := hx.listed v
      rw [hworkers, List.mem_cons, or_iff_right hvw] at hlisted
      simpa [Resizable.detach, State.setWorker, hvw] using hlisted
  · exact hnodup.2
  · rw [(hpc v).1, (hpc v).2.1]
    exact hx.deletes v hv
  · rw [(hpc v).1, (hpc v).2.2]
    refine hx.running hdtor v (Or.inl ?_)
    rcases hv with hv | ⟨c, hc⟩
    · rw [hworkers]
      exact List.mem_cons_of_mem w hv
    · obtain ⟨rfl, -⟩ := ResizePc.clearing.inj hc
      exact hw
  · obtain ⟨rfl, -⟩ := ResizePc.clearing.inj hc
    exact ⟨((hx.listed w).mp hw).1, by simp [Resizable.detach, State.setWorker]⟩

/-- The flag `running` of a detached worker is cleared, and the pool is done with it. -/
theorem Recorded.clear (hx : Recorded x) (hdtor : x.pool.dtor = .idle) {count : ℕ}
    (hresize : x.resize = .clearing w count) :
    Recorded ⟨x.pool.setWorker w { x.pool.worker w with running := false }, .shrinking count⟩ := by
  have hdetached := (hx.clearing w count hresize).2
  refine recorded_of_idle ?_ (fun v => ?_) ?_ (fun v hv => ?_) (fun v hv => ?_) fun v c hc => ?_
  · exact hdtor
  · by_cases hvw : v = w
    · subst hvw
      simpa [State.setWorker] using hx.listed v
    · simpa [State.setWorker, hvw] using hx.listed v
  · exact hx.nodup
  · by_cases hvw : v = w
    · subst hvw
      simpa [State.setWorker] using hx.deletes v hv
    · simpa [State.setWorker, hvw] using hx.deletes v hv
  · rcases hv with hv | ⟨c, hc⟩
    · have hvw : v ≠ w := by
        rintro rfl
        rw [((hx.listed v).mp hv).2] at hdetached
        cases hdetached
      simpa [State.setWorker, hvw] using hx.running hdtor v (Or.inl hv)
    · cases hc
  · cases hc

/-- A new thread is started, with a record of its own. -/
theorem Recorded.start (hx : Recorded x) (hdtor : x.pool.dtor = .idle)
    (hw : w ∉ x.pool.started) (count : ℕ) :
    Recorded ⟨Resizable.start x.pool w, .growing count⟩ := by
  have hnot : w ∉ x.pool.workers := fun hmem => hw ((hx.listed w).mp hmem).1
  have hother : ∀ v, v ≠ w → (Resizable.start x.pool w).worker v = x.pool.worker v := by
    intro v hvw
    simp [Resizable.start, State.setWorker, hvw]
  have hself : (Resizable.start x.pool w).worker w = ⟨true, true, false, .loop, 0⟩ := by
    simp [Resizable.start, State.setWorker]
  refine recorded_of_idle ?_ (fun v => ?_) ?_ (fun v hv => ?_) (fun v hv => ?_) fun v c hc => ?_
  · exact hdtor
  · by_cases hvw : v = w
    · subst hvw
      simp [Resizable.start, State.setWorker]
    · rw [hother v hvw]
      simpa [Resizable.start, State.setWorker, hvw] using hx.listed v
  · simpa [Resizable.start] using hx.nodup.concat hnot
  · by_cases hvw : v = w
    · subst hvw
      simp [hself]
    · rw [hother v hvw]
      exact hx.deletes v (Finset.mem_of_mem_insert_of_ne hv hvw)
  · by_cases hvw : v = w
    · subst hvw
      simp [hself]
    · rw [hother v hvw]
      refine hx.running hdtor v (Or.inl ?_)
      rcases hv with hv | ⟨c, hc⟩
      · simpa [Resizable.start, State.setWorker, hvw] using hv
      · cases hc
  · cases hc

/-- At its ends a call wakes workers at most. -/
theorem Recorded.woken {resize : ResizePc} (hx : Recorded x) (hidle : x.pool.dtor = .idle)
    (hdtor : t.dtor = .idle)
    (hworkers : t.workers = x.pool.workers) (hstarted : t.started = x.pool.started)
    (hworker : ∀ v, t.worker v = { x.pool.worker v with pc := (t.worker v).pc } ∧
      ((t.worker v).pc = (x.pool.worker v).pc ∨
        (x.pool.worker v).pc = .blocked ∧ (t.worker v).pc = .loop))
    (hresize : ∀ w count, resize ≠ .clearing w count) : Recorded ⟨t, resize⟩ := by
  have hflags : ∀ v, (t.worker v).detached = (x.pool.worker v).detached ∧
      (t.worker v).running = (x.pool.worker v).running ∧
      (t.worker v).deletes = (x.pool.worker v).deletes := by
    intro v
    rw [(hworker v).1]
    exact ⟨rfl, rfl, rfl⟩
  refine recorded_of_idle hdtor (fun v => ?_) ?_ (fun v hv => ?_) (fun v hv => ?_)
    fun v c hc => absurd hc (hresize v c)
  · rw [hworkers, hstarted, (hflags v).1]
    exact hx.listed v
  · rw [hworkers]
    exact hx.nodup
  · rw [hstarted] at hv
    rw [(hflags v).2.2]
    refine ⟨hx.once v hv, fun hpc => hx.unexited v hv ?_⟩
    rcases (hworker v).2 with hsame | ⟨hblocked, -⟩
    · rwa [← hsame]
    · simp [hblocked]
  · have hlisted : v ∈ x.pool.workers := by
      rcases hv with hv | ⟨c, hc⟩
      · exact hworkers ▸ hv
      · exact absurd hc (hresize v c)
    obtain ⟨hrunning, hpc⟩ := hx.running hidle v (Or.inl hlisted)
    rw [(hflags v).2.1]
    refine ⟨hrunning, ?_⟩
    rcases (hworker v).2 with hsame | ⟨-, hloop⟩
    · rwa [hsame]
    · simp [hloop]

theorem Recorded.begins {wks : ℕ} (hx : Recorded x) (hdtor : x.pool.dtor = .idle)
    (h : Resizable.Begins x wks y) : Recorded y := by
  cases h with
  | same _ => exact hx
  | shrink _ | grow _ =>
    exact hx.woken hdtor hdtor rfl rfl (fun v => ⟨rfl, Or.inl rfl⟩) nofun

theorem Recorded.resizeStep {thread : ℕ} (hx : Recorded x) (h : x.resizeStep thread = some y) :
    Recorded y := by
  have hdtor := hx.alone (Resizable.dtor_resizeStep h).1
  cases Resizable.round_of_resizeStep h with
  | detach w count rest _ hworkers => exact hx.detach hdtor hworkers count
  | clear w count hresize => exact hx.clear hdtor hresize
  | shrunk _ =>
    refine hx.woken hdtor hdtor rfl rfl (fun v => ⟨rfl, ?_⟩) nofun
    by_cases hpc : (x.pool.worker v).pc = .blocked
    · exact Or.inr ⟨hpc, by simp [State.notifyAll, hpc, WorkerPc.notified]⟩
    · exact Or.inl (WorkerPc.notified_of_ne hpc)
  | start count _ hthread => exact hx.start hdtor hthread count
  | grown _ => exact hx.woken hdtor hdtor rfl rfl (fun v => ⟨rfl, Or.inl rfl⟩) nofun

theorem Recorded.next {b : ResizeAction} (hx : Recorded x) (h : Resizable.next x b = some y) :
    Recorded y := by
  cases b with
  | pool a =>
    obtain ⟨ha, t, ht, rfl⟩ := Resizable.next_pool h
    by_cases hdestroy : a = .destroy
    · subst hdestroy
      have hresize : x.resize = .idle := by
        by_contra hbusy
        exact ha ⟨rfl, hbusy⟩
      exact hx.destroy hresize (destroys_of_destroy ht)
    · exact hx.quiet ht hdestroy
  | setWorkers wks =>
    obtain ⟨⟨hresize, -, hdtor⟩, h⟩ := Option.ite_none_right_eq_some.mp h
    cases h
    exact hx.begins hdtor (x.begins_setWorkers wks)
  | resize thread => exact hx.resizeStep h

end Records

section Resizing

/-- How far a call has come: what is left of the front of the list, or how many workers are
still to be started. -/
def Progress (before : List ℕ) (wanted : ℕ) (workers : List ℕ) : ResizePc → Prop
  | .idle => ResizedTo before wanted workers
  | .shrinking count | .clearing _ count => wanted + count ≤ before.length ∧
    workers = before.drop (before.length - (wanted + count))
  | .growing count => before <+: workers ∧ workers.length + count = wanted

variable {before workers : List ℕ} {wanted : ℕ} {x y : Resizable}

theorem resizedTo_of_shrunk (hle : wanted ≤ before.length)
    (hworkers : workers = before.drop (before.length - wanted)) :
    ResizedTo before wanted workers where
  length := by
    rw [hworkers, List.length_drop]
    omega
  shrunk _ := hworkers
  grown hge := by rw [hworkers, Nat.sub_eq_zero_of_le hge, List.drop_zero]

theorem resizedTo_of_grown (hfront : before <+: workers) (hlength : workers.length = wanted) :
    ResizedTo before wanted workers where
  length := hlength
  shrunk hle := by
    have heq : before = workers := hfront.eq_of_length_le (hlength ▸ hle)
    rw [heq, hlength, Nat.sub_self, List.drop_zero]
  grown _ := hfront

/-- A call that begins has still the whole list before it. -/
theorem progress_of_begins {wks : ℕ} (hresize : x.resize = .idle)
    (h : Resizable.Begins x wks y) : Progress x.pool.workers wks y.pool.workers y.resize := by
  cases h with
  | same hsame =>
    rw [hresize]
    exact resizedTo_of_grown (List.prefix_refl _) hsame.symm
  | shrink hless =>
    have hall : wks + (x.pool.workers.length - wks) = x.pool.workers.length := by omega
    refine ⟨hall.le, ?_⟩
    rw [hall, Nat.sub_self, List.drop_zero]
  | grow hle => exact ⟨List.prefix_refl _, Nat.add_sub_of_le hle⟩

theorem progress_resizeStep {thread : ℕ} (hx : Progress before wanted x.pool.workers x.resize)
    (h : x.resizeStep thread = some y) : Progress before wanted y.pool.workers y.resize := by
  cases Resizable.round_of_resizeStep h with
  | detach w count rest hresize hworkers =>
    rw [hresize, hworkers] at hx
    obtain ⟨hle, heq⟩ := hx
    refine ⟨by omega, ?_⟩
    have hone : before.length - (wanted + count) =
        before.length - (wanted + (count + 1)) + 1 := by
      omega
    rw [hone, ← List.tail_drop, ← heq]
    rfl
  | clear w count hresize =>
    rw [hresize] at hx
    exact hx
  | shrunk hresize =>
    rw [hresize] at hx
    exact resizedTo_of_shrunk hx.1 hx.2
  | start count hresize _ =>
    rw [hresize] at hx
    obtain ⟨hfront, hlength⟩ := hx
    refine ⟨hfront.trans (List.prefix_append _ _), ?_⟩
    simp only [Resizable.start, List.length_append, List.length_singleton]
    omega
  | grown hresize =>
    rw [hresize] at hx
    exact resizedTo_of_grown hx.1 hx.2

end Resizing

section Disposal

variable {x y : Records} {b : ResizeAction}

/-- The invariant of the runs with the calls of `set_workers`. -/
structure Records.Sound (x : Records) : Prop where
  recorded : Recorded x.pool
  progress : Progress x.before x.wanted x.pool.pool.workers x.pool.resize

theorem Records.sound_init (n : ℕ) : (Records.init n).Sound where
  recorded := recorded_init n
  progress := resizedTo_of_grown List.nil_prefix List.length_range

theorem Records.Sound.next (hx : x.Sound) (h : x.next b = some y) : y.Sound := by
  obtain ⟨z, hz, rfl⟩ := Option.map_eq_some_iff.mp h
  have hrecorded := hx.recorded.next hz
  cases b with
  | pool a =>
    refine ⟨hrecorded, ?_⟩
    obtain ⟨-, t, ht, rfl⟩ := Resizable.next_pool hz
    simp only [(next_frame ht).1]
    exact hx.progress
  | setWorkers wks =>
    refine ⟨hrecorded, ?_⟩
    obtain ⟨⟨hresize, -⟩, hz⟩ := Option.ite_none_right_eq_some.mp hz
    cases hz
    exact progress_of_begins hresize (Resizable.begins_setWorkers _ wks)
  | resize thread => exact ⟨hrecorded, progress_resizeStep hx.progress hz⟩

theorem Records.Sound.kept (hx : x.Sound) : Kept x where
  resized hidle := by
    have hprogress := hx.progress
    rw [hidle] at hprogress
    exact hprogress
  members w hw := by
    rw [hx.recorded.listed w]
    exact and_iff_right hw
  once := hx.recorded.once
  present hbefore w hw := by
    refine hx.recorded.unjoined w hw fun rest hrest => ?_
    rw [hbefore] at hrest
    cases hrest

/-- Before the destructor begins to delete workers, the listed ones are there. -/
theorem Recorded.listed_present {x : Resizable} (hx : Recorded x)
    (hbefore : x.pool.dtor.remaining = none) {w : ℕ} (hw : w ∈ x.pool.workers) :
    (x.pool.worker w).deletes = 0 :=
  hx.unjoined w hw fun rest hrest => by
    rw [hbefore] at hrest
    cases hrest

/-- The record that the pool uses in a step is there. -/
theorem Recorded.accessed_present {x z : Resizable} (hx : Recorded x)
    (h : Resizable.next x b = some z) {w : ℕ} (hw : x.accessed b = some w) :
    (x.pool.worker w).deletes = 0 := by
  cases b with
  | setWorkers wks => cases hw
  | resize thread =>
    have hdtor := hx.alone (Resizable.dtor_resizeStep h).1
    simp only [Resizable.accessed] at hw
    split at hw
    · exact hx.listed_present (by rw [hdtor]; rfl) (List.mem_of_mem_head? hw)
    · rename_i v count hresize
      obtain rfl := Option.some.inj hw
      exact hx.unexited v (hx.clearing v count hresize).1
        (hx.running hdtor v (Or.inr ⟨count, hresize⟩)).2.2
    · cases hw
  | pool a =>
    cases a with
    | destroy =>
      simp only [Resizable.accessed] at hw
      split at hw
      · rename_i v rest hdtor
        obtain rfl := Option.some.inj hw
        exact hx.listed_present (by rw [hdtor]; rfl)
          ((hx.stopping _ hdtor).subset List.mem_cons_self)
      · rename_i v rest hdtor
        obtain rfl := Option.some.inj hw
        have hremaining : x.pool.dtor.remaining = some (v :: rest) := by rw [hdtor]; rfl
        refine hx.unjoined v ((hx.remaining _ hremaining).subset List.mem_cons_self) fun r hr => ?_
        rw [hremaining] at hr
        obtain rfl := Option.some.inj hr
        exact List.mem_cons_self
      · cases hw
    | _ => cases hw

/-- A step of the destructor deletes the record of the worker that it has joined. -/
theorem Recorded.destroy_disposer {x : Resizable} (hx : Recorded x) {t : State}
    (h : Destroys x.pool t) {w : ℕ}
    (hdeleted : (t.worker w).deletes ≠ (x.pool.worker w).deletes) :
    w ∈ x.pool.workers ∧ (x.pool.worker w).pc = .exited := by
  cases h with
  | join v rest hdtor hexit =>
    by_cases hwv : w = v
    · subst hwv
      exact ⟨(hx.remaining _ (by rw [hdtor]; rfl)).subset List.mem_cons_self, hexit⟩
    · simp [State.setWorker, hwv] at hdeleted
  | stop v rest =>
    by_cases hwv : w = v
    · subst hwv
      simp [State.setWorker] at hdeleted
    · simp [State.setWorker, hwv] at hdeleted
  | begin | wait | lock | broadcast | joined | clear => exact absurd rfl hdeleted

/-- A call of `set_workers` deletes no record. -/
theorem deletes_resizeStep {x z : Resizable} {thread w : ℕ} (h : x.resizeStep thread = some z)
    (hw : w ∈ x.pool.started) : (z.pool.worker w).deletes = (x.pool.worker w).deletes := by
  have hset : ∀ {v : ℕ} {c : Worker}, c.deletes = (x.pool.worker v).deletes →
      ((x.pool.setWorker v c).worker w).deletes = (x.pool.worker w).deletes := by
    intro v c hc
    by_cases hwv : w = v
    · subst hwv
      simpa [State.setWorker] using hc
    · simp [State.setWorker, hwv]
  cases Resizable.round_of_resizeStep h with
  | detach _ _ _ _ _ | clear _ _ _ => exact hset rfl
  | shrunk _ | grown _ => rfl
  | start _ _ hthread =>
    have hwt : w ≠ thread := fun heq => hthread (heq ▸ hw)
    simp [Resizable.start, State.setWorker, hwt]

theorem deletes_of_begins {x z : Resizable} {wks : ℕ} (h : Resizable.Begins x wks z) (w : ℕ) :
    (z.pool.worker w).deletes = (x.pool.worker w).deletes := by
  cases h with
  | same _ | shrink _ | grow _ => rfl

theorem Records.Sound.disposesOnce (hx : x.Sound) (h : x.next b = some y) :
    DisposesOnce x b y := by
  obtain ⟨z, hz, rfl⟩ := Option.map_eq_some_iff.mp h
  refine ⟨fun w hw => hx.recorded.accessed_present hz hw, fun w hw hdeleted => ?_⟩
  cases b with
  | setWorkers wks =>
    obtain ⟨-, hz⟩ := Option.ite_none_right_eq_some.mp hz
    cases hz
    exact absurd (deletes_of_begins (x.pool.begins_setWorkers wks) w) hdeleted
  | resize thread => exact absurd (deletes_resizeStep hz hw) hdeleted
  | pool a =>
    obtain ⟨-, t, ht, rfl⟩ := Resizable.next_pool hz
    by_cases hdestroy : a = .destroy
    · subst hdestroy
      exact Or.inr ⟨rfl, hx.recorded.destroy_disposer (destroys_of_destroy ht) hdeleted⟩
    · rcases deletes_next ht hdestroy w with hsame | ⟨rfl, -, hdetached, -⟩
      · exact absurd hsame hdeleted
      · exact Or.inl ⟨rfl, hdetached⟩

end Disposal

section Sizes

/-- The numbers that `set_workers` is called with are of type `unsigned int`. -/
def Unsigned (_ : Records) : ResizeAction → Prop
  | .setWorkers wks => wks < UInt32.size
  | _ => True

theorem Progress.length_le {before workers : List ℕ} {wanted : ℕ} {resize : ResizePc}
    (h : Progress before wanted workers resize) : workers.length ≤ max before.length wanted := by
  cases resize with
  | idle => exact h.length.le.trans (le_max_right _ _)
  | shrinking count | clearing w count =>
    rw [h.2, List.length_drop]
    omega
  | growing count =>
    have hlength := h.2
    omega

/-- What the last call was called with and found is of type `unsigned int`. -/
structure Records.Fits (x : Records) : Prop where
  sound : x.Sound
  before : x.before.length < UInt32.size
  wanted : x.wanted < UInt32.size

theorem Records.Fits.length {x : Records} (hx : x.Fits) :
    x.pool.pool.workers.length < UInt32.size :=
  hx.sound.progress.length_le.trans_lt (max_lt hx.before hx.wanted)

theorem Records.Fits.next {x y : Records} {b : ResizeAction} (hx : x.Fits) (hb : Unsigned x b)
    (h : x.next b = some y) : y.Fits := by
  have hsound := hx.sound.next h
  obtain ⟨z, -, rfl⟩ := Option.map_eq_some_iff.mp h
  cases b with
  | setWorkers wks => exact ⟨hsound, hx.length, hb⟩
  | pool | resize => exact ⟨hsound, hx.before, hx.wanted⟩

/-- The length of the list is never cut when it is taken for an `unsigned int`, so that the
differences of `set_workers_lockfree` are those of the numbers. -/
theorem workers_fit {n : ℕ} (hn : n < UInt32.size) {as : List ResizeAction}
    (h : StepsMeet Records.next Unsigned (.init n) as) :
    Throughout Records.next (fun x => x.pool.pool.workers.length < UInt32.size) (.init n) as := by
  have hinit : (Records.init n).Fits := ⟨Records.sound_init n, Nat.succ_pos _, hn⟩
  have hfits : Throughout Records.next Records.Fits (.init n) as :=
    throughout_of_stepsMeet (fun _ _ _ hx hb hstep => Records.Fits.next hx hb hstep) hinit h
  exact hfits.mono fun _ hx => hx.length

end Sizes

/-- For any calls of `set_workers`, in any interleaving with the workers and followed by the
destructor, the list is what the calls have made of it, and every record has one disposer
and is not used by the pool any more when it is gone. -/
theorem records_disposed (n : ℕ) (as : List ResizeAction) :
    Throughout Records.next Kept (.init n) as ∧
      StepsMeet Records.next (fun x a => ∀ y, x.next a = some y → DisposesOnce x a y)
        (.init n) as := by
  constructor
  · have hsound : Throughout Records.next Records.Sound (.init n) as :=
      throughout_of_keeps (fun _ _ _ hx h => Records.Sound.next hx h) (Records.sound_init n)
    exact hsound.mono fun _ hx => hx.kept
  · exact stepsMeet_of_keeps (fun _ _ _ hx h => Records.Sound.next hx h)
      (fun _ _ _ hx _ _ h => hx.disposesOnce h) (Records.sound_init n)

end BoxUtils.ThreadPool
