import BoxUtils.Event
import BoxUtils.Timer

/-!
The timer thread against the calls of `Timer::Create` and `Timer::Delete`, step by
step. The thread tests for timers under the mutex and then waits for the event; the
calls change the list under the mutex and never touch the event, which only the
destructor sets. The event is the one of sync/sem.cpp: thread 0 there is the timer
thread, thread 1 the one that runs the destructor.
-/
namespace BoxUtils.TimerThread

open Runs Function
open Event (NotifyPending)
open Timer (TimerData)

/-- Where the timer thread is in `TimerImpl::run`. -/
inductive Pc
  | test
  | lock
  | inspect
  | wait
  | waiting
  | clear
  | timedWait
  | timedWaiting
  | clearAgain
  | exited
  deriving DecidableEq, Repr

inductive Call
  | create (node : ℕ) (ms : ℤ) (callback : Option ℕ) (param : ℕ)
  | delete (id : Option ℕ)
  deriving DecidableEq, Repr

/-- Where another thread is in its call, if it is in one. -/
inductive CallerPc
  | idle
  | calling (call : Call)
  | holding (call : Call)
  | edited (call : Call)
  | returning (call : Call)
  deriving DecidableEq, Repr

structure State where
  timers : List TimerData
  mtx : Bool
  running : Bool
  event : Event.State
  pc : Pc
  caller : ℕ → CallerPc

def init : State := ⟨[], false, true, Event.init, .test, fun _ => .idle⟩

inductive Action
  | test
  | lock
  | seeEmpty
  | pass (durMs : ℤ) (call : ℕ → Timer.Call)
  | wait
  | block
  | wake
  | resume
  | timeout
  | clear
  | timedWait
  | call (c : ℕ) (call : Call)
  | enter (c : ℕ)
  | edit (c : ℕ)
  | unlock (c : ℕ)
  | ret (c : ℕ)
  | stop
  | setStore
  | setNotify

namespace State

def setCaller (s : State) (c : ℕ) (pc : CallerPc) : State :=
  { s with caller := update s.caller c pc }

/-- A call without a callback or without an id returns at once. -/
def begin (s : State) (c : ℕ) (call : Call) : State :=
  match call with
  | .create _ _ none _ | .delete none => s.setCaller c (.returning call)
  | .create _ _ (some _) _ | .delete (some _) => s.setCaller c (.calling call)

/-- What a call does while it holds the mutex. -/
def edit (s : State) : Call → Option (List TimerData)
  | .create node ms callback param =>
    if ∀ timer ∈ s.timers, timer.node ≠ node then
      some (Timer.create s.timers node ms callback param).1
    else none
  | .delete id => some (Timer.delete s.timers id).timers

/-- A step of thread t in the event, after which the timer thread goes on as told. -/
def eventStep (s : State) (a : Event.Action) (goOn : Event.Pc → Pc) : Option State :=
  (Event.next s.event a).map fun event => { s with event := event, pc := goOn (event.pc 0) }

end State

def next (s : State) : Action → Option State
  | .test =>
    if s.pc = .test then some { s with pc := if s.running then .lock else .exited } else none
  | .lock =>
    if s.pc = .lock ∧ s.mtx = false then some { s with mtx := true, pc := .inspect } else none
  | .seeEmpty =>
    if s.pc = .inspect ∧ s.timers = [] then some { s with mtx := false, pc := .wait } else none
  | .pass durMs call =>
    if s.pc = .inspect ∧ s.timers ≠ [] then
      some { s with
        timers := (Timer.visitAll durMs call s.timers 0).1
        mtx := false
        pc := .clear }
    else none
  | .wait =>
    if s.pc = .wait then
      s.eventStep (.waitTest 0 false) fun event => if event = .idle then .test else .waiting
    else none
  | .block => s.eventStep (.block 0) fun _ => s.pc
  | .wake => s.eventStep (.wake 0) fun _ => s.pc
  -- the timed wait returns true here, and the event is cleared once more
  | .resume =>
    s.eventStep (.resume 0) fun _ => if s.pc = .timedWaiting then .clearAgain else .test
  | .timeout => s.eventStep (.timeout 0) fun _ => .test
  | .clear =>
    if s.pc = .clear then s.eventStep (.clear 0) fun _ => .timedWait
    else if s.pc = .clearAgain then s.eventStep (.clear 0) fun _ => .test
    else none
  | .timedWait =>
    if s.pc = .timedWait then
      s.eventStep (.waitTest 0 true) fun event =>
        if event = .idle then .clearAgain else .timedWaiting
    else none
  | .call c call => if s.caller c = .idle then some (s.begin c call) else none
  | .enter c =>
    match s.caller c with
    | .calling call =>
      if s.mtx then none else some { s.setCaller c (.holding call) with mtx := true }
    | _ => none
  | .edit c =>
    match s.caller c with
    | .holding call =>
      (s.edit call).map fun timers => { s.setCaller c (.edited call) with timers := timers }
    | _ => none
  | .unlock c =>
    match s.caller c with
    | .edited call => some { s.setCaller c (.returning call) with mtx := false }
    | _ => none
  | .ret c =>
    match s.caller c with
    | .returning _ => some (s.setCaller c .idle)
    | _ => none
  -- the destructor
  | .stop => if s.running then some { s with running := false } else none
  | .setStore => if s.running then none else s.eventStep (.setStore 1) fun _ => s.pc
  | .setNotify => if s.running then none else s.eventStep (.setNotify 1) fun _ => s.pc

/-- The caller is in a call of `Create`. -/
def CallerPc.Creates : CallerPc → Prop
  | .calling (.create ..) | .holding (.create ..) | .edited (.create ..)
  | .returning (.create ..) => True
  | _ => False

/-- The thread is blocked in the wait without a timeout. -/
def Sleeps (s : State) : Prop := s.event.pc 0 = .blocked false

/-- A call of `Create` or a notification of the event is in progress. -/
def InProgress (s : State) : Prop := (∃ c, (s.caller c).Creates) ∨ NotifyPending s.event

def NeverSleepsOnWork (s : State) : Prop := Sleeps s → s.timers ≠ [] → InProgress s

/-- The thread blocks, and `Create` returns while it is blocked, only when no timer is
listed or another call of `Create` or a notification is in progress. -/
def LeavesNoWork (s : State) : Action → Prop
  | .block => s.event.pc 0 = .tested false → s.timers ≠ [] → InProgress s
  | .ret c => (s.caller c).Creates → Sleeps s → s.timers ≠ [] →
    InProgress (s.setCaller c .idle)
  | _ => True

section Steps

variable {s t : State}

/-- A step that puts nobody to sleep, brings no timer and ends nothing that is in
progress. -/
theorem NeverSleepsOnWork.keep (h : NeverSleepsOnWork s) (hsleeps : Sleeps t → Sleeps s)
    (htimers : t.timers ≠ [] → s.timers ≠ []) (hprogress : InProgress s → InProgress t) :
    NeverSleepsOnWork t :=
  fun hs ht => hprogress (h (hsleeps hs) (htimers ht))

theorem eventStep_cases {a : Event.Action} {goOn : Event.Pc → Pc}
    (h : s.eventStep a goOn = some t) :
    ∃ event, Event.next s.event a = some event ∧
      t = { s with event := event, pc := goOn (event.pc 0) } := by
  obtain ⟨event, hevent, rfl⟩ := Option.map_eq_some_iff.mp h
  exact ⟨event, hevent, rfl⟩

theorem clear_cases (h : next s .clear = some t) :
    s.pc = .clear ∧ s.eventStep (.clear 0) (fun _ => .timedWait) = some t ∨
      s.pc = .clearAgain ∧ s.eventStep (.clear 0) (fun _ => .test) = some t := by
  simp only [next] at h
  split at h
  case isTrue hpc => exact Or.inl ⟨hpc, h⟩
  case isFalse => exact Or.inr (Option.ite_none_right_eq_some.mp h)

theorem enter_cases {c : ℕ} (h : next s (.enter c) = some t) :
    ∃ call, s.caller c = .calling call ∧
      t = { s.setCaller c (.holding call) with mtx := true } := by
  simp only [next] at h
  split at h
  case h_1 call hc =>
    obtain ⟨-, h⟩ := Option.ite_none_left_eq_some.mp h
    exact ⟨call, hc, (Option.some.inj h).symm⟩
  case h_2 => cases h

theorem edit_cases {c : ℕ} (h : next s (.edit c) = some t) :
    ∃ call timers, s.caller c = .holding call ∧ s.edit call = some timers ∧
      t = { s.setCaller c (.edited call) with timers := timers } := by
  simp only [next] at h
  split at h
  case h_1 call hc =>
    obtain ⟨timers, hedit, rfl⟩ := Option.map_eq_some_iff.mp h
    exact ⟨call, timers, hc, hedit, rfl⟩
  case h_2 => cases h

theorem unlock_cases {c : ℕ} (h : next s (.unlock c) = some t) :
    ∃ call, s.caller c = .edited call ∧
      t = { s.setCaller c (.returning call) with mtx := false } := by
  simp only [next] at h
  split at h
  case h_1 call hc => exact ⟨call, hc, (Option.some.inj h).symm⟩
  case h_2 => cases h

theorem ret_cases {c : ℕ} (h : next s (.ret c) = some t) : t = s.setCaller c .idle := by
  simp only [next] at h
  split at h
  case h_1 => exact (Option.some.inj h).symm
  case h_2 => cases h

theorem NeverSleepsOnWork.eventStep (h : NeverSleepsOnWork s) {a : Event.Action}
    {goOn : Event.Pc → Pc} (hstep : s.eventStep a goOn = some t) (ha : a.Quiet) :
    NeverSleepsOnWork t := by
  obtain ⟨event, hevent, rfl⟩ := eventStep_cases hstep
  have hcalm := Event.calms_of_next hevent ha
  refine h.keep (hcalm.blocked 0 false) id fun hprogress => ?_
  rcases hprogress with hcreates | hpending
  · exact Or.inl hcreates
  · exact Or.inr (hcalm.pending hpending)

/-- A caller moves on, and is still in the same call of `Create` if it was in one. -/
theorem inProgress_setCaller {c : ℕ} {pc : CallerPc} (h : InProgress s)
    (hpc : (s.caller c).Creates → pc.Creates) : InProgress (s.setCaller c pc) := by
  rcases h with ⟨d, hd⟩ | hpending
  · refine Or.inl ⟨d, ?_⟩
    by_cases hdc : d = c
    · subst d
      simpa [State.setCaller] using hpc hd
    · simpa [State.setCaller, hdc] using hd
  · exact Or.inr hpending

theorem NeverSleepsOnWork.setCaller (h : NeverSleepsOnWork s) (c : ℕ) (pc : CallerPc)
    (hpc : (s.caller c).Creates → pc.Creates) : NeverSleepsOnWork (s.setCaller c pc) :=
  h.keep id id fun hprogress => inProgress_setCaller hprogress hpc

/-- What a call does to the list: `Create` may add a timer, `Delete` only takes one out. -/
theorem NeverSleepsOnWork.edit (h : NeverSleepsOnWork s) {c : ℕ} {call : Call}
    {timers : List TimerData} (hc : s.caller c = .holding call)
    (hedit : s.edit call = some timers) :
    NeverSleepsOnWork { s.setCaller c (.edited call) with timers := timers } := by
  cases call with
  | create node ms callback param =>
    exact fun _ _ => Or.inl ⟨c, by simp [State.setCaller, CallerPc.Creates]⟩
  | delete node =>
    obtain rfl := Option.some.inj hedit
    refine (h.setCaller c (.edited (.delete node)) ?_).keep id ?_ id
    · simp [hc, CallerPc.Creates]
    · rintro htimers hempty
      have hsub : (Timer.delete s.timers node).timers.Sublist s.timers := Timer.delete_sublist node
      have hnil : s.timers = [] := hempty
      rw [hnil, List.sublist_nil] at hsub
      exact htimers (by simpa [hnil] using hsub)

theorem step_neverSleepsOnWork {a : Action} (h : NeverSleepsOnWork s) (hG : LeavesNoWork s a)
    (hstep : next s a = some t) : NeverSleepsOnWork t := by
  cases a with
  | test | lock | seeEmpty | stop =>
    obtain ⟨-, hstep⟩ := Option.ite_none_right_eq_some.mp hstep
    obtain rfl := Option.some.inj hstep
    exact h
  | pass durMs call =>
    obtain ⟨hok, hstep⟩ := Option.ite_none_right_eq_some.mp hstep
    obtain rfl := Option.some.inj hstep
    exact h.keep id (fun _ => hok.2) id
  | wait | timedWait =>
    obtain ⟨-, hstep⟩ := Option.ite_none_right_eq_some.mp hstep
    exact h.eventStep hstep trivial
  | block =>
    simp only [next] at hstep
    obtain ⟨event, hevent, rfl⟩ := eventStep_cases hstep
    obtain ⟨timed, htested, rfl⟩ := Event.block_cases hevent
    intro hsleeps htimers
    have huntimed : timed = false := by simpa [Sleeps] using hsleeps
    subst huntimed
    rcases hG htested htimers with hcreates | hpending
    · exact Or.inl hcreates
    · exact Or.inr (Event.notifyPending_move hpending (by simp [htested]))
  | wake | resume | timeout =>
    simp only [next] at hstep
    exact h.eventStep hstep trivial
  | clear =>
    rcases clear_cases hstep with ⟨-, hstep⟩ | ⟨-, hstep⟩
    · exact h.eventStep hstep trivial
    · exact h.eventStep hstep trivial
  | call c call =>
    obtain ⟨hidle, hstep⟩ := Option.ite_none_right_eq_some.mp hstep
    obtain rfl := Option.some.inj hstep
    have hnot : ¬ (s.caller c).Creates := by simp [hidle, CallerPc.Creates]
    unfold State.begin
    split <;> exact h.setCaller _ _ fun hcreates => absurd hcreates hnot
  | enter c =>
    obtain ⟨call, hc, rfl⟩ := enter_cases hstep
    refine (h.setCaller c (.holding call) ?_).keep id id id
    rw [hc]
    cases call <;> exact id
  | edit c =>
    obtain ⟨call, timers, hc, hedit, rfl⟩ := edit_cases hstep
    exact h.edit hc hedit
  | unlock c =>
    obtain ⟨call, hc, rfl⟩ := unlock_cases hstep
    refine (h.setCaller c (.returning call) ?_).keep id id id
    rw [hc]
    cases call <;> exact id
  | ret c =>
    obtain rfl := ret_cases hstep
    intro hsleeps htimers
    by_cases hcreates : (s.caller c).Creates
    · exact hG hcreates hsleeps htimers
    · exact inProgress_setCaller (h hsleeps htimers) fun hc => absurd hc hcreates
  | setStore =>
    obtain ⟨-, hstep⟩ := Option.ite_none_left_eq_some.mp hstep
    obtain ⟨event, hevent, rfl⟩ := eventStep_cases hstep
    rcases Event.setStore_cases hevent with rfl | rfl
    · exact h
    · exact fun _ _ => Or.inr ⟨1, by simp⟩
  | setNotify =>
    obtain ⟨-, hstep⟩ := Option.ite_none_left_eq_some.mp hstep
    obtain ⟨event, hevent, rfl⟩ := eventStep_cases hstep
    obtain rfl := Event.setNotify_cases hevent
    have hawake := Event.not_blocked_notified (t := 1) s.event.pc 0 false
    exact fun hsleeps => absurd hsleeps hawake

/-- Where the thread blocks on timers, or is left with them, it sleeps on work. -/
theorem leaves_work {a : Action} (hstep : next s a = some t) (hG : ¬ LeavesNoWork s a) :
    ¬ NeverSleepsOnWork t := by
  cases a with
  | block =>
    simp only [next] at hstep
    obtain ⟨event, hevent, rfl⟩ := eventStep_cases hstep
    obtain ⟨timed, htested, rfl⟩ := Event.block_cases hevent
    simp only [LeavesNoWork, Classical.not_imp] at hG
    obtain ⟨huntimed, htimers, hnot⟩ := hG
    rw [htested] at huntimed
    cases huntimed
    intro h
    rcases h (by simp [Sleeps]) htimers with hcreates | ⟨u, hu⟩
    · exact hnot (Or.inl hcreates)
    · have hu0 : u ≠ 0 := by
        rintro rfl
        simp at hu
      exact hnot (Or.inr ⟨u, by simpa [hu0] using hu⟩)
  | ret c =>
    obtain rfl := ret_cases hstep
    simp only [LeavesNoWork, Classical.not_imp] at hG
    obtain ⟨-, hsleeps, htimers, hnot⟩ := hG
    exact fun h => hnot (h hsleeps htimers)
  | _ => exact absurd trivial hG

end Steps

/-- The thread never sleeps on work in a run if and only if it never blocks with a timer
listed and no call of `Create` ends with one listed and the thread blocked, where no
other call or notification is in progress. -/
theorem neverSleepsOnWork_iff (as : List Action) :
    Throughout next NeverSleepsOnWork init as ↔ StepsMeet next LeavesNoWork init as :=
  throughout_iff_stepsMeet (fun _ _ _ h hG hstep => step_neverSleepsOnWork h hG hstep)
    (fun _ h => h) (fun _ _ _ _ hstep hG => leaves_work hstep hG) (fun _ ht => absurd rfl ht)

/-- The thread waits for the event when the first timer is created. -/
def sleepingTrace : List Action :=
  [.test, .lock, .seeEmpty, .wait, .block, .call 0 (.create 0 1000 (some 0) 0), .enter 0,
    .edit 0, .unlock 0, .ret 0]

theorem sleeps_on_work : ¬ ∀ as : List Action, Throughout next NeverSleepsOnWork init as := by
  intro h
  let call : Call := .create 0 1000 (some 0) 0
  let caller : ℕ → CallerPc := update (update (update (update (update (fun _ => .idle)
    0 (.calling call)) 0 (.holding call)) 0 (.edited call)) 0 (.returning call)) 0 .idle
  let s : State := ⟨[⟨0, some 0, 1000, none, 0⟩], false, true,
    (Event.init.move 0 (.tested false)).move 0 (.blocked false), .waiting, caller⟩
  have hlast : run next init sleepingTrace = some s := rfl
  rcases (h sleepingTrace).final hlast rfl (List.cons_ne_nil _ _) with ⟨c, hc⟩ | ⟨u, hu⟩
  · have hidle : s.caller c = .idle := by
      simp only [s, caller, update_idem]
      by_cases hc0 : c = 0 <;> simp [hc0]
    rw [hidle] at hc
    exact hc
  · have hnot : s.event.pc u ≠ .notifying := by
      by_cases hu0 : u = 0 <;> simp [s, Event.init, hu0]
    exact hnot hu

/-- No timer is put on the list from the thread's test on until it is back from the wait
without a timeout. -/
def CreatesAwake (s : State) : Action → Prop
  | .edit c => (s.caller c).Creates → s.pc ≠ .wait ∧ s.pc ≠ .waiting
  | _ => True

/-- The places of the wait without a timeout. -/
def Waits (pc : Event.Pc) : Prop := pc = .tested false ∨ pc = .blocked false

/-- The thread is in that wait only after a test that found no timer, and there is still
none. -/
structure WaitsOnNone (s : State) : Prop where
  waiting : Waits (s.event.pc 0) → s.pc = .waiting
  empty : s.pc = .wait ∨ s.pc = .waiting → s.timers = []

section Awake

variable {s t : State}

theorem waitsOnNone_of_away (hwaits : ¬ Waits (s.event.pc 0))
    (hpc : s.pc ≠ .wait ∧ s.pc ≠ .waiting) : WaitsOnNone s :=
  ⟨fun h => absurd h hwaits, fun h => absurd h (by simp [hpc])⟩

theorem waitsOnNone_init : WaitsOnNone init :=
  waitsOnNone_of_away (by simp [Waits, init, Event.init]) (by simp [init])

/-- Elsewhere the thread is not in the wait. -/
theorem WaitsOnNone.not_waits (h : WaitsOnNone s) {pc : Pc} (hpc : s.pc = pc)
    (hne : pc ≠ .waiting) : ¬ Waits (s.event.pc 0) :=
  fun hwaits => hne (hpc.symm.trans (h.waiting hwaits))

theorem WaitsOnNone.event (h : WaitsOnNone s) {event : Event.State}
    (hevent : Waits (event.pc 0) → Waits (s.event.pc 0)) :
    WaitsOnNone { s with event := event } :=
  ⟨fun hwaits => h.waiting (hevent hwaits), h.empty⟩

theorem WaitsOnNone.edit (h : WaitsOnNone s) {c : ℕ} {call : Call} {timers : List TimerData}
    (hc : s.caller c = .holding call) (hG : CreatesAwake s (.edit c))
    (hedit : s.edit call = some timers) :
    WaitsOnNone { s.setCaller c (.edited call) with timers := timers } := by
  refine ⟨h.waiting, fun hpc => ?_⟩
  cases call with
  | create node ms callback param =>
    obtain ⟨hwait, hwaiting⟩ := hG (by rw [hc]; trivial)
    rcases hpc with hpc | hpc
    · exact absurd hpc hwait
    · exact absurd hpc hwaiting
  | delete node =>
    obtain rfl := Option.some.inj hedit
    have hsub : (Timer.delete s.timers node).timers.Sublist s.timers := Timer.delete_sublist node
    rw [h.empty hpc] at hsub ⊢
    exact List.sublist_nil.mp hsub

theorem WaitsOnNone.next {a : Action} (h : WaitsOnNone s) (hG : CreatesAwake s a)
    (hstep : next s a = some t) : WaitsOnNone t := by
  cases a with
  | test =>
    obtain ⟨hpc, hstep⟩ := Option.ite_none_right_eq_some.mp hstep
    obtain rfl := Option.some.inj hstep
    exact waitsOnNone_of_away (h.not_waits hpc (by simp)) (by cases s.running <;> simp)
  | lock | pass durMs call =>
    obtain ⟨⟨hpc, -⟩, hstep⟩ := Option.ite_none_right_eq_some.mp hstep
    obtain rfl := Option.some.inj hstep
    exact waitsOnNone_of_away (h.not_waits hpc (by simp)) (by simp)
  | seeEmpty =>
    obtain ⟨⟨hpc, hempty⟩, hstep⟩ := Option.ite_none_right_eq_some.mp hstep
    obtain rfl := Option.some.inj hstep
    exact ⟨fun hwaits => absurd hwaits (h.not_waits hpc (by simp)), fun _ => hempty⟩
  | wait =>
    obtain ⟨hpc, hstep⟩ := Option.ite_none_right_eq_some.mp hstep
    obtain ⟨event, hevent, rfl⟩ := eventStep_cases hstep
    obtain ⟨hidle, ⟨-, rfl⟩ | ⟨-, rfl⟩⟩ := Event.move_of_next hevent
    · exact waitsOnNone_of_away (h.not_waits hpc (by simp)) (by simp [hidle])
    · exact ⟨fun _ => by simp, fun _ => h.empty (Or.inl hpc)⟩
  | timedWait =>
    obtain ⟨hpc, hstep⟩ := Option.ite_none_right_eq_some.mp hstep
    obtain ⟨event, hevent, rfl⟩ := eventStep_cases hstep
    obtain ⟨hidle, ⟨-, rfl⟩ | ⟨-, rfl⟩⟩ := Event.move_of_next hevent
    · exact waitsOnNone_of_away (h.not_waits hpc (by simp)) (by simp [hidle])
    · exact waitsOnNone_of_away (by simp [Waits]) (by simp)
  | block =>
    simp only [TimerThread.next] at hstep
    obtain ⟨event, hevent, rfl⟩ := eventStep_cases hstep
    obtain ⟨timed, htested, rfl⟩ := Event.block_cases hevent
    exact h.event (by simp [Waits, htested])
  | wake =>
    simp only [TimerThread.next] at hstep
    obtain ⟨event, hevent, rfl⟩ := eventStep_cases hstep
    obtain ⟨timed, -, rfl⟩ := Event.move_of_next hevent
    exact h.event (by simp [Waits])
  | resume =>
    simp only [TimerThread.next] at hstep
    obtain ⟨event, hevent, rfl⟩ := eventStep_cases hstep
    obtain ⟨timed, -, rfl⟩ := Event.move_of_next hevent
    exact waitsOnNone_of_away (by simp [Waits])
      (by by_cases hpc : s.pc = .timedWaiting <;> simp [hpc])
  | timeout =>
    simp only [TimerThread.next] at hstep
    obtain ⟨event, hevent, rfl⟩ := eventStep_cases hstep
    obtain ⟨-, rfl⟩ := Event.move_of_next hevent
    exact waitsOnNone_of_away (by simp [Waits]) (by simp)
  | clear =>
    rcases clear_cases hstep with ⟨hpc, hstep⟩ | ⟨hpc, hstep⟩
    · obtain ⟨event, hevent, rfl⟩ := eventStep_cases hstep
      obtain ⟨-, rfl⟩ := Event.clear_cases hevent
      exact waitsOnNone_of_away (h.not_waits hpc (by simp)) (by simp)
    · obtain ⟨event, hevent, rfl⟩ := eventStep_cases hstep
      obtain ⟨-, rfl⟩ := Event.clear_cases hevent
      exact waitsOnNone_of_away (h.not_waits hpc (by simp)) (by simp)
  | call c call =>
    obtain ⟨-, hstep⟩ := Option.ite_none_right_eq_some.mp hstep
    obtain rfl := Option.some.inj hstep
    unfold State.begin
    split <;> exact ⟨h.waiting, h.empty⟩
  | enter c =>
    obtain ⟨call, -, rfl⟩ := enter_cases hstep
    exact ⟨h.waiting, h.empty⟩
  | edit c =>
    obtain ⟨call, timers, hc, hedit, rfl⟩ := edit_cases hstep
    exact h.edit hc hG hedit
  | unlock c =>
    obtain ⟨call, -, rfl⟩ := unlock_cases hstep
    exact ⟨h.waiting, h.empty⟩
  | ret c =>
    obtain rfl := ret_cases hstep
    exact ⟨h.waiting, h.empty⟩
  | stop =>
    obtain ⟨-, hstep⟩ := Option.ite_none_right_eq_some.mp hstep
    obtain rfl := Option.some.inj hstep
    exact ⟨h.waiting, h.empty⟩
  | setStore =>
    obtain ⟨-, hstep⟩ := Option.ite_none_left_eq_some.mp hstep
    obtain ⟨event, hevent, rfl⟩ := eventStep_cases hstep
    rcases Event.setStore_cases hevent with rfl | rfl
    · exact h
    · exact h.event (by simp)
  | setNotify =>
    obtain ⟨-, hstep⟩ := Option.ite_none_left_eq_some.mp hstep
    obtain ⟨event, hevent, rfl⟩ := eventStep_cases hstep
    obtain rfl := Event.setNotify_cases hevent
    refine h.event ?_
    cases hpc : s.event.pc 0 <;> simp [Waits, Event.Pc.notified, hpc]

end Awake

/-- So the thread never sleeps on work as long as no timer is created between its test and
its wake-up. -/
theorem neverSleepsOnWork_of_createsAwake (as : List Action)
    (h : StepsMeet next CreatesAwake init as) : Throughout next NeverSleepsOnWork init as := by
  have hkept : Throughout next WaitsOnNone init as :=
    throughout_of_stepsMeet (fun _ _ _ hs hG hstep => hs.next hG hstep) waitsOnNone_init h
  refine hkept.mono fun s hs hsleeps htimers => ?_
  have hwaiting := hs.waiting (Or.inr hsleeps)
  exact absurd (hs.empty (Or.inr hwaiting)) htimers

end BoxUtils.TimerThread
