import BoxUtils.ThreadPoolSteps

/-!
A thread pool whose number of workers is changed while it runs. A shrinking
`set_workers` detaches workers and takes them out of the list, so the destructor,
which joins the workers of the list, does not wait for them.
-/
namespace BoxUtils.ThreadPool

open Runs

/-- Where a call of `set_workers` is; one at a time, as it holds `self_mtx`. -/
inductive ResizePc
  | idle
  | shrinking (count : ℕ)
  /-- The worker has been detached, and its flag is to be cleared. -/
  | clearing (w count : ℕ)
  | growing (count : ℕ)
  deriving DecidableEq, Repr

structure Resizable where
  pool : State
  resize : ResizePc

inductive ResizeAction
  | pool (a : Action)
  | setWorkers (wks : ℕ)
  /-- A step of the call in progress; a thread that it starts is this one. -/
  | resize (thread : ℕ)
  deriving DecidableEq, Repr

namespace Resizable

def init (n : ℕ) : Resizable := ⟨ThreadPool.init n, .idle⟩

/-- The beginning of `set_workers_lockfree`. -/
def setWorkers (x : Resizable) (wks : ℕ) : Resizable :=
  let size := x.pool.workers.length
  if wks = size then x
  else if wks < size then ⟨{ x.pool with selfMtx := true }, .shrinking (size - wks)⟩
  else ⟨{ x.pool with selfMtx := true }, .growing (wks - size)⟩

/-- The front worker is taken out of the list and detached. -/
def detach (s : State) (w : ℕ) (rest : List ℕ) : State :=
  { s.setWorker w { s.worker w with detached := true } with workers := rest }

/-- A new worker is started and put at the end of the list. -/
def start (s : State) (w : ℕ) : State :=
  { s.setWorker w ⟨true, true, false, .loop, 0⟩ with
    started := insert w s.started
    workers := s.workers ++ [w] }

/-- The loops of `set_workers_lockfree`, one round in one step, but for the flag that is
cleared when the worker has been detached. -/
def resizeStep (x : Resizable) (thread : ℕ) : Option Resizable :=
  match x.resize with
  | .idle => none
  | .shrinking (count + 1) =>
    match x.pool.workers with
    | [] => none
    | w :: rest => some ⟨detach x.pool w rest, .clearing w count⟩
  | .clearing w count =>
    some ⟨x.pool.setWorker w { x.pool.worker w with running := false }, .shrinking count⟩
  | .shrinking 0 => some ⟨{ x.pool.notifyAll with selfMtx := false }, .idle⟩
  | .growing (count + 1) =>
    if thread ∈ x.pool.started then none else some ⟨start x.pool thread, .growing count⟩
  | .growing 0 => some ⟨{ x.pool with selfMtx := false }, .idle⟩

/-- The destructor runs when no call of `set_workers` is in progress, and none begins
after it. -/
def next (x : Resizable) : ResizeAction → Option Resizable
  | .pool a =>
    if a = .destroy ∧ x.resize ≠ .idle then none
    else (ThreadPool.next x.pool a).map fun s => ⟨s, x.resize⟩
  | .setWorkers wks =>
    if x.resize = .idle ∧ x.pool.selfMtx = false ∧ x.pool.dtor = .idle then some (x.setWorkers wks)
    else none
  | .resize thread => x.resizeStep thread

/-- When the destructor has returned, every thread that was started has left `worker_main`. -/
def OutlivedByNone (x : Resizable) : Prop :=
  x.pool.dtor = .returned → ∀ w ∈ x.pool.started, (x.pool.worker w).pc = .exited

/-- When the destructor comes to its last step, every detached worker has left. -/
def DetachedLeft (x : Resizable) : ResizeAction → Prop
  | .pool .destroy => x.pool.dtor = .clearing →
      ∀ w ∈ x.pool.started, (x.pool.worker w).detached = true → (x.pool.worker w).pc = .exited
  | _ => True

/-- Every thread is one of a listed worker or of a detached one, and the destructor has
joined the listed ones as far as it has come. -/
structure Owned (x : Resizable) : Prop where
  owned : ∀ w ∈ x.pool.started, w ∈ x.pool.workers ∨ (x.pool.worker w).detached = true
  joined : Joined x.pool
  alone : x.resize ≠ .idle → x.pool.dtor = .idle

section Steps

variable {x y : Resizable} {s t : State} {a : Action}

theorem owned_init (n : ℕ) : Owned (init n) := by
  constructor
  · intro w hw
    left
    simpa [init, ThreadPool.init] using hw
  · exact joinedAll_of_idle rfl
  · intro h
    exact absurd rfl h

/-- The ways in which a call of `set_workers` begins. -/
inductive Begins (x : Resizable) (wks : ℕ) : Resizable → Prop
  | same : wks = x.pool.workers.length → Begins x wks x
  | shrink : wks < x.pool.workers.length →
      Begins x wks ⟨{ x.pool with selfMtx := true }, .shrinking (x.pool.workers.length - wks)⟩
  | grow : x.pool.workers.length ≤ wks →
      Begins x wks ⟨{ x.pool with selfMtx := true }, .growing (wks - x.pool.workers.length)⟩

theorem begins_setWorkers (x : Resizable) (wks : ℕ) : Begins x wks (x.setWorkers wks) := by
  unfold setWorkers
  dsimp only
  split
  case isTrue hsame => exact Begins.same hsame
  case isFalse =>
    split
    case isTrue hless => exact Begins.shrink hless
    case isFalse hless => exact Begins.grow (Nat.le_of_not_lt hless)

/-- The rounds of its loops by name. -/
inductive Round (x : Resizable) (thread : ℕ) : Resizable → Prop
  | detach (w count : ℕ) (rest : List ℕ) : x.resize = .shrinking (count + 1) →
      x.pool.workers = w :: rest →
      Round x thread ⟨Resizable.detach x.pool w rest, .clearing w count⟩
  | clear (w count : ℕ) : x.resize = .clearing w count →
      Round x thread
        ⟨x.pool.setWorker w { x.pool.worker w with running := false }, .shrinking count⟩
  | shrunk : x.resize = .shrinking 0 →
      Round x thread ⟨{ x.pool.notifyAll with selfMtx := false }, .idle⟩
  | start (count : ℕ) : x.resize = .growing (count + 1) → thread ∉ x.pool.started →
      Round x thread ⟨Resizable.start x.pool thread, .growing count⟩
  | grown : x.resize = .growing 0 → Round x thread ⟨{ x.pool with selfMtx := false }, .idle⟩

theorem round_of_resizeStep {thread : ℕ} (h : x.resizeStep thread = some y) :
    Round x thread y := by
  unfold resizeStep at h
  split at h
  case h_1 => cases h
  case h_2 count hresize =>
    split at h
    case h_1 => cases h
    case h_2 w rest hworkers =>
      cases h
      exact Round.detach w count rest hresize hworkers
  case h_3 w count hresize =>
    cases h
    exact Round.clear w count hresize
  case h_4 hresize =>
    cases h
    exact Round.shrunk hresize
  case h_5 count hresize =>
    split at h
    · cases h
    case isFalse hthread =>
      cases h
      exact Round.start count hresize hthread
  case h_6 hresize =>
    cases h
    exact Round.grown hresize

/-- A step of `set_workers` takes no thread out of the list without detaching it. -/
theorem owned_resizeStep {thread : ℕ} (hx : Owned x) (h : x.resizeStep thread = some y) :
    ∀ w ∈ y.pool.started, w ∈ y.pool.workers ∨ (y.pool.worker w).detached = true := by
  intro w hw
  cases round_of_resizeStep h with
  | detach v count rest _ hworkers =>
    by_cases hwv : w = v
    · subst hwv
      right
      simp [detach, State.setWorker]
    · have howned := hx.owned w hw
      rw [hworkers, List.mem_cons] at howned
      simpa [detach, State.setWorker, hwv] using howned
  | clear v count _ =>
    by_cases hwv : w = v
    · subst hwv
      simpa [State.setWorker] using hx.owned w hw
    · simpa [State.setWorker, hwv] using hx.owned w hw
  | start count _ _ =>
    by_cases hwt : w = thread
    · subst hwt
      left
      simp [start]
    · have hold : w ∈ x.pool.started := Finset.mem_of_mem_insert_of_ne hw hwt
      have howned := hx.owned w hold
      simp only [start, State.setWorker, Function.update_of_ne hwt, List.mem_append]
      exact howned.imp Or.inl id
  | shrunk _ | grown _ => exact hx.owned w hw

/-- The call of `set_workers` leaves the destructor alone. -/
theorem dtor_resizeStep {thread : ℕ} (h : x.resizeStep thread = some y) :
    x.resize ≠ .idle ∧ y.pool.dtor = x.pool.dtor := by
  cases round_of_resizeStep h with
  | detach _ _ _ hresize _ | clear _ _ hresize | shrunk hresize | start _ hresize _
  | grown hresize => exact ⟨by simp [hresize], rfl⟩

theorem Owned.pool (hx : Owned x) (ha : ¬ (a = .destroy ∧ x.resize ≠ .idle))
    (h : ThreadPool.next x.pool a = some s) : Owned ⟨s, x.resize⟩ := by
  constructor
  · obtain ⟨hworkers, hstarted⟩ := next_frame h
    intro w hw
    simp only [hworkers, next_detached h w]
    exact hx.owned w (hstarted ▸ hw)
  · exact hx.joined.next h
  · intro hresize
    apply next_idle h _ (hx.alone hresize)
    intro heq
    exact ha ⟨heq, hresize⟩

theorem Begins.dtor {wks : ℕ} (h : Begins x wks y) : y.pool.dtor = x.pool.dtor := by
  cases h with
  | same _ | shrink _ | grow _ => rfl

theorem Owned.begins {wks : ℕ} (hx : Owned x) (hidle : x.pool.dtor = .idle)
    (h : Begins x wks y) : Owned y := by
  cases h with
  | same _ => exact hx
  | shrink _ | grow _ => exact ⟨hx.owned, joinedAll_of_idle hidle, fun _ => hidle⟩

/-- A step of the pool, which is not the destructor's during a call of `set_workers`. -/
theorem next_pool (h : next x (.pool a) = some y) : ¬ (a = .destroy ∧ x.resize ≠ .idle) ∧
    ∃ s, ThreadPool.next x.pool a = some s ∧ y = ⟨s, x.resize⟩ := by
  obtain ⟨ha, h⟩ := Option.ite_none_left_eq_some.mp h
  obtain ⟨s, hs, rfl⟩ := Option.map_eq_some_iff.mp h
  exact ⟨ha, s, hs, rfl⟩

theorem Owned.next {b : ResizeAction} (hx : Owned x) (h : next x b = some y) : Owned y := by
  cases b with
  | pool a =>
    obtain ⟨ha, s, hs, rfl⟩ := next_pool h
    exact hx.pool ha hs
  | setWorkers wks =>
    obtain ⟨hfree, h⟩ := Option.ite_none_right_eq_some.mp h
    cases h
    exact hx.begins hfree.2.2 (begins_setWorkers x wks)
  | resize thread =>
    have h' : x.resizeStep thread = some y := h
    obtain ⟨hresize, hdtor⟩ := dtor_resizeStep h'
    have hidle : y.pool.dtor = .idle := hdtor.trans (hx.alone hresize)
    exact ⟨owned_resizeStep hx h', joinedAll_of_idle hidle, fun _ => hidle⟩

/-- The destructor's last step is the only one that makes it return. -/
theorem returned_cases (h : ThreadPool.next s a = some t) (ht : t.dtor = .returned) :
    s.dtor = .returned ∨ a = .destroy ∧ s.dtor = .clearing := by
  rcases next_dtor h with hsame | hnotified | ⟨ha, hdestroy⟩
  · exact Or.inl (hsame ▸ ht)
  · left
    rw [hnotified] at ht
    cases hdtor : s.dtor with
    | returned => rfl
    | _ =>
      rw [hdtor] at ht
      cases ht
  · cases hdestroy with
    | clear hdtor => exact Or.inr ⟨ha, hdtor⟩
    | begin | wait | lock | stop | broadcast | join | joined => cases ht

/-- At its last step the destructor has joined the listed workers, so that all threads have
left if and only if the detached ones have. -/
theorem outlivedByNone_clearing (hx : Owned x) (hdtor : x.pool.dtor = .clearing)
    (h : x.pool.destroy = some s) :
    OutlivedByNone ⟨s, x.resize⟩ ↔ DetachedLeft x (.pool .destroy) := by
  have hs : s = { x.pool with tasks := [], selfMtx := false, dtor := .returned } := by
    simp only [State.destroy, hdtor, Option.some.injEq] at h
    exact h.symm
  subst hs
  constructor
  · intro hnone _ w hw _
    exact hnone rfl w hw
  · intro hleft _ w hw
    rcases hx.owned w hw with hlisted | hdetached
    · rcases hx.joined [] (by rw [hdtor]; rfl) w hlisted with hrest | hexit
      · cases hrest
      · exact hexit
    · exact hleft hdtor w hw hdetached

/-- Any other step of the pool leaves it as it is. -/
theorem outlivedByNone_pool (hnone : OutlivedByNone x) (h : ThreadPool.next x.pool a = some s)
    (hlast : ¬ (a = .destroy ∧ x.pool.dtor = .clearing)) : OutlivedByNone ⟨s, x.resize⟩ := by
  intro hret w hw
  have hbefore := (returned_cases h hret).resolve_right hlast
  have hstarted : w ∈ x.pool.started := (next_frame h).2 ▸ hw
  exact next_exited h (hnone hbefore w hstarted)

theorem outlivedByNone_next_iff {b : ResizeAction} (hx : Owned x) (hnone : OutlivedByNone x)
    (h : next x b = some y) : OutlivedByNone y ↔ DetachedLeft x b := by
  cases b with
  | pool a =>
    obtain ⟨-, s, hs, rfl⟩ := next_pool h
    by_cases hlast : a = .destroy ∧ x.pool.dtor = .clearing
    · obtain ⟨rfl, hdtor⟩ := hlast
      exact outlivedByNone_clearing hx hdtor hs
    · refine iff_of_true (outlivedByNone_pool hnone hs hlast) ?_
      cases a with
      | destroy => exact fun hdtor => absurd ⟨rfl, hdtor⟩ hlast
      | _ => trivial
  | setWorkers wks =>
    obtain ⟨hfree, h⟩ := Option.ite_none_right_eq_some.mp h
    cases h
    refine iff_of_true (fun hret => ?_) trivial
    rw [(begins_setWorkers x wks).dtor, hfree.2.2] at hret
    cases hret
  | resize thread =>
    obtain ⟨hresize, hdtor⟩ := dtor_resizeStep h
    refine iff_of_true (fun hret => ?_) trivial
    rw [hdtor, hx.alone hresize] at hret
    cases hret

end Steps

/-- No thread outlives its pool if and only if, whenever the destructor comes to its last
step, every worker that was detached has left `worker_main`. -/
theorem outlivedByNone_iff (n : ℕ) (as : List ResizeAction) :
    Throughout next OutlivedByNone (init n) as ↔ StepsMeet next DetachedLeft (init n) as := by
  have hinit : OutlivedByNone (init n) := by
    intro hret
    cases hret
  apply throughout_iff_of_step_iff (I := Owned) _ _ (owned_init n) hinit
  · intro x b y hx h
    exact hx.next h
  · intro x b y hx hnone h
    exact outlivedByNone_next_iff hx hnone h

/-- The only worker is detached after it has tested its flag, and the pool is destroyed. -/
def outlivingTrace : List ResizeAction :=
  [.pool (.work 0), .setWorkers 0, .resize 0, .resize 0, .resize 0] ++
    List.replicate 6 (.pool .destroy)

theorem pool_outlived :
    ¬ ∀ (n : ℕ) (as : List ResizeAction), Throughout next OutlivedByNone (init n) as := by
  intro h
  have hlast : ∃ x, run next (init 1) outlivingTrace = some x ∧ x.pool.dtor = .returned ∧
      0 ∈ x.pool.started ∧ (x.pool.worker 0).pc = .inspect :=
    ⟨_, rfl, by decide, by decide, by decide⟩
  obtain ⟨x, hx, hret, hstarted, hpc⟩ := hlast
  have hexit := (h 1 outlivingTrace).final hx hret 0 hstarted
  rw [hpc] at hexit
  cases hexit

/-- A call of `set_workers` asks for no fewer workers than there are. -/
def NeverShrinks (x : Resizable) : ResizeAction → Prop
  | .setWorkers wks => x.pool.workers.length ≤ wks
  | _ => True

/-- No worker has been detached, and no call that detaches any is in progress. -/
structure NoneDetached (x : Resizable) : Prop where
  attached : ∀ w, (x.pool.worker w).detached = false
  resize : x.resize = .idle ∨ ∃ count, x.resize = .growing count

section Growing

variable {x y : Resizable} {b : ResizeAction}

theorem noneDetached_init (n : ℕ) : NoneDetached (init n) :=
  ⟨fun _ => rfl, Or.inl rfl⟩

theorem NoneDetached.begins {wks : ℕ} (hx : NoneDetached x)
    (hwks : x.pool.workers.length ≤ wks) (h : Begins x wks y) : NoneDetached y := by
  cases h with
  | same _ => exact hx
  | shrink hless => exact absurd hless (Nat.not_lt_of_le hwks)
  | grow _ => exact ⟨hx.attached, Or.inr ⟨_, rfl⟩⟩

theorem NoneDetached.round {thread : ℕ} (hx : NoneDetached x) (h : Round x thread y) :
    NoneDetached y := by
  cases h with
  | detach _ _ _ hresize _ | clear _ _ hresize | shrunk hresize =>
    rcases hx.resize with hidle | ⟨count, hgrows⟩
    · rw [hidle] at hresize
      cases hresize
    · rw [hgrows] at hresize
      cases hresize
  | start count _ _ =>
    refine ⟨fun w => ?_, Or.inr ⟨count, rfl⟩⟩
    by_cases hwt : w = thread
    · subst hwt
      simp [start, State.setWorker]
    · simpa [start, State.setWorker, hwt] using hx.attached w
  | grown _ => exact ⟨hx.attached, Or.inl rfl⟩

theorem NoneDetached.next (hx : NoneDetached x) (hG : NeverShrinks x b)
    (h : next x b = some y) : NoneDetached y := by
  cases b with
  | pool a =>
    obtain ⟨-, s, hs, rfl⟩ := next_pool h
    exact ⟨fun w => (next_detached hs w).trans (hx.attached w), hx.resize⟩
  | setWorkers wks =>
    obtain ⟨-, h⟩ := Option.ite_none_right_eq_some.mp h
    cases h
    exact hx.begins hG (begins_setWorkers x wks)
  | resize thread => exact hx.round (round_of_resizeStep h)

theorem NoneDetached.left (hx : NoneDetached x) (b : ResizeAction) : DetachedLeft x b := by
  unfold DetachedLeft
  split
  · intro _ w _ hdetached
    rw [hx.attached w] at hdetached
    cases hdetached
  · trivial

end Growing

/-- So no thread outlives a pool whose users never ask for fewer workers than there are. -/
theorem outlivedByNone_of_neverShrinks (n : ℕ) (as : List ResizeAction)
    (h : StepsMeet next NeverShrinks (init n) as) : Throughout next OutlivedByNone (init n) as := by
  have hinit : OutlivedByNone (init n) := by
    intro hret
    cases hret
  have hkept : Throughout next (fun x => Owned x ∧ NoneDetached x ∧ OutlivedByNone x)
      (init n) as := by
    apply throughout_of_stepsMeet _ ⟨owned_init n, noneDetached_init n, hinit⟩ h
    rintro x b y ⟨howned, hattached, hnone⟩ hG hstep
    have hleft := hattached.left b
    exact ⟨howned.next hstep, hattached.next hG hstep,
      (outlivedByNone_next_iff howned hnone hstep).mpr hleft⟩
  exact hkept.mono fun x hx => hx.2.2

end Resizable

end BoxUtils.ThreadPool
