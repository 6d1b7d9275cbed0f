import BoxUtils.Timer
import Mathlib.Data.List.Nodup
import Mathlib.Logic.Function.Basic

/-!
When the callbacks of the timers are called. A pass takes the nanoseconds since
the last one for microseconds and subtracts them from every timer, also from one
that was created in between; the first pass counts from the clock's zero. Beside
the list stands what is needed to say when a timer is due: the reading of the
clock at which it was armed and the interval it was armed with.
-/
namespace BoxUtils.Timer

open Runs Function

/-- How a timer was armed, by `Create` or by what its callback returned. -/
structure Arm where
  time : ℤ
  interval : ℤ
  /-- The passes count for the timer from this reading on. -/
  since : ℤ
  deriving DecidableEq, Repr

def Arm.due (arm : Arm) : ℤ := arm.time + 1000 * arm.interval

/-- A callback that was called, and the time before which it must not be. -/
structure Fired where
  due : ℤ
  time : ℤ
  deriving DecidableEq, Repr

structure Watched where
  state : State
  arm : ℕ → Arm
  fired : List Fired

def Watched.init (start : ℤ) : Watched := ⟨Timer.init start, fun _ => ⟨0, 0, 0⟩, []⟩

/-- The timers whose time a pass at this reading finds over. -/
def State.over (s : State) (now : ℤ) : List TimerData :=
  s.timers.filter fun timer => timer.ms - (now - s.timep) ≤ 0

/-- The time between the two readings of a pass is counted by no pass. -/
def armAfter (s : State) (arm : ℕ → Arm) : Action → ℕ → Arm
  | .create time node ms callback _ =>
    if callback = none then arm else update arm node ⟨time, ms, s.timep⟩
  | .pass now now' call => fun node =>
    if node ∈ (s.over now).map TimerData.node then
      ⟨(call node).time, (call node).returned, now'⟩
    else { arm node with since := (arm node).since + (now' - now) }
  | .delete _ => arm

def firedBy (s : State) (arm : ℕ → Arm) : Action → List Fired
  | .pass now _ call =>
    ((s.over now).filter fun timer => timer.callback ≠ none).map fun timer =>
      ⟨(arm timer.node).due, (call timer.node).time⟩
  | _ => []

def Watched.next (w : Watched) (a : Action) : Option Watched :=
  (Timer.next w.state a).map fun s =>
    ⟨s, armAfter w.state w.arm a, w.fired ++ firedBy w.state w.arm a⟩

/-- No callback has been called before it was due. -/
def NoneEarly (w : Watched) : Prop := ∀ f ∈ w.fired, f.due ≤ f.time

/-- No pass reads the clock when a timer's number of microseconds has gone by in
nanoseconds since the reading it is counted from, but the timer is not due yet. -/
def OutsideWindows (w : Watched) : Action → Prop
  | .pass now _ call => ∀ timer ∈ w.state.timers,
    (w.arm timer.node).since + (w.arm timer.node).interval ≤ now →
      (w.arm timer.node).due ≤ (call timer.node).time
  | _ => True

/-- The time that is left of a timer is its interval without the nanoseconds from the
reading it is counted from to the last pass. -/
def Arm.Tells (arm : Arm) (timep : ℤ) (timer : TimerData) : Prop :=
  timer.callback ≠ none ∧ timer.ms = arm.interval - (timep - arm.since)

structure Counted (w : Watched) : Prop where
  apart : Apart w.state
  tells : ∀ timer ∈ w.state.timers, (w.arm timer.node).Tells w.state.timep timer

section Steps

variable {w v : Watched} {a : Action}

theorem counted_init (start : ℤ) : Counted (Watched.init start) where
  apart := List.nodup_nil
  tells _ htimer := absurd htimer List.not_mem_nil

/-- The code finds the time of a timer over when its window has been reached. -/
theorem Counted.mem_over (h : Counted w) {timer : TimerData} {now : ℤ} :
    timer ∈ w.state.over now ↔ timer ∈ w.state.timers ∧
      (w.arm timer.node).since + (w.arm timer.node).interval ≤ now := by
  simp only [State.over, List.mem_filter, decide_eq_true_eq]
  refine and_congr_right fun htimer => ?_
  rw [(h.tells timer htimer).2]
  constructor <;> intro hle <;> omega

/-- The node of a timer tells whether its time is over. -/
theorem Apart.node_mem_over {s : State} (h : Apart s) {timer : TimerData} {now : ℤ}
    (htimer : timer ∈ s.timers) :
    timer.node ∈ (s.over now).map TimerData.node ↔ timer.ms - (now - s.timep) ≤ 0 := by
  constructor
  · intro hmem
    obtain ⟨other, hother, hnode⟩ := List.mem_map.mp hmem
    obtain ⟨hlisted, hover⟩ := List.mem_filter.mp hother
    obtain rfl : other = timer := List.inj_on_of_nodup_map h hlisted htimer hnode
    exact of_decide_eq_true hover
  · intro hover
    exact List.mem_map_of_mem (List.mem_filter.mpr ⟨htimer, decide_eq_true hover⟩)

/-- A timer is armed when it is created, and the others stay as they are. -/
theorem Counted.create (h : Counted w) {time ms : ℤ} {node param : ℕ} {callback : Option ℕ}
    (hfree : w.state.Free node) {timer : TimerData}
    (htimer : timer ∈ (w.state.create time node ms callback param).timers) :
    (armAfter w.state w.arm (.create time node ms callback param) timer.node).Tells
      w.state.timep timer := by
  simp only [State.create, Timer.create, armAfter] at htimer ⊢
  by_cases hnull : callback = none
  · rw [if_pos hnull] at htimer ⊢
    exact h.tells timer htimer
  · rw [if_neg hnull] at htimer ⊢
    rcases List.mem_cons.mp htimer with rfl | hold
    · simp [Arm.Tells, hnull]
    · rw [update_of_ne (hfree timer hold)]
      exact h.tells timer hold

/-- A pass arms the timers whose time it finds over and counts for the others. -/
theorem Counted.pass (h : Counted w) {now now' : ℤ} {call : ℕ → Call} {timer : TimerData}
    (htimer : timer ∈ (w.state.pass now now' call).timers) :
    (armAfter w.state w.arm (.pass now now' call) timer.node).Tells
      (w.state.pass now now' call).timep timer := by
  by_cases hempty : w.state.timers = []
  · simp [State.pass, hempty] at htimer
  · simp only [State.pass, if_neg hempty, armAfter] at htimer ⊢
    obtain ⟨old, hold, ms, rfl, hover, hleft⟩ := visitAll_mem htimer
    obtain ⟨hcallback, hms⟩ := h.tells old hold
    by_cases hdue : old.ms - (now - w.state.timep) ≤ 0
    · rw [if_pos ((h.apart.node_mem_over hold).mpr hdue)]
      exact ⟨hcallback, by simp [hover hdue hcallback]⟩
    · rw [if_neg fun hmem => hdue ((h.apart.node_mem_over hold).mp hmem)]
      refine ⟨hcallback, ?_⟩
      simp only [hleft hdue, hms]
      omega

theorem Counted.next (h : Counted w) (hstep : w.next a = some v) : Counted v := by
  obtain ⟨t, ht, rfl⟩ := Option.map_eq_some_iff.mp hstep
  refine ⟨h.apart.next ht, fun timer htimer => ?_⟩
  cases a with
  | create time node ms callback param =>
    obtain ⟨hfree, rfl⟩ := next_cases ht
    exact h.create hfree htimer
  | pass now now' call =>
    have hpass : t = w.state.pass now now' call := next_cases ht
    subst hpass
    exact h.pass htimer
  | delete k =>
    obtain ⟨id, -, rfl⟩ := next_cases ht
    exact h.tells timer ((delete_sublist id).subset htimer)

/-- A step calls no callback too early if and only if it is outside the windows. -/
theorem Counted.firedBy_iff (h : Counted w) :
    (∀ f ∈ firedBy w.state w.arm a, f.due ≤ f.time) ↔ OutsideWindows w a := by
  cases a with
  | pass now now' call =>
    simp only [firedBy, List.forall_mem_map, List.mem_filter, h.mem_over, OutsideWindows,
      decide_eq_true_eq]
    constructor
    · intro hall timer htimer hover
      exact hall timer ⟨⟨htimer, hover⟩, (h.tells timer htimer).1⟩
    · intro hall timer htimer
      exact hall timer htimer.1.1 htimer.1.2
  | create time node ms callback param | delete k =>
    exact iff_of_true (fun f hf => absurd hf List.not_mem_nil) trivial

theorem noneEarly_next_iff (h : Counted w) (hw : NoneEarly w) (hstep : w.next a = some v) :
    NoneEarly v ↔ OutsideWindows w a := by
  obtain ⟨t, -, rfl⟩ := Option.map_eq_some_iff.mp hstep
  rw [← h.firedBy_iff, NoneEarly]
  simp only [List.mem_append]
  constructor
  · intro hall f hf
    exact hall f (Or.inr hf)
  · rintro hall f (hf | hf)
    · exact hw f hf
    · exact hall f hf

end Steps

/-- Wherever the clock starts, no callback is called before it is due if and only if no
pass falls into the window of a timer. -/
theorem noneEarly_iff (start : ℤ) (as : List Action) :
    Throughout Watched.next NoneEarly (Watched.init start) as ↔
      StepsMeet Watched.next OutsideWindows (Watched.init start) as := by
  apply throughout_iff_of_step_iff (I := Counted)
  · intro w a v hw hstep
    exact hw.next hstep
  · intro w a v hw hearly hstep
    exact noneEarly_next_iff hw hearly hstep
  · exact counted_init start
  · exact fun _ hf => absurd hf List.not_mem_nil

/-- A timer of a millisecond is called back a microsecond after it was created. -/
theorem called_early : ¬ ∀ (start : ℤ) (as : List Action),
    Throughout Watched.next NoneEarly (Watched.init start) as := by
  intro h
  let as : List Action := [.create 0 0 1000 (some 0) 0, .pass 1000 1000 fun _ => ⟨1000, 0⟩]
  have hlast : (run Watched.next (Watched.init 0) as).map Watched.fired =
      some [⟨1000000, 1000⟩] := by
    decide
  obtain ⟨w, hw, hfired⟩ := Option.map_eq_some_iff.mp hlast
  have hlate := (h 0 as).final hw ⟨1000000, 1000⟩ (by simp [hfired])
  exact absurd hlate (by decide)

end BoxUtils.Timer
