import BoxUtils.Atexit
import BoxUtils.Runs

/-!
Registrations while the program exits. `exit` calls `call_handlers` once for each time it
was handed to `atexit`; the handlers it runs may register others, and so may exit functions
that run after it has returned. The walk frees the node of a handler when the handler has
returned, and leaves `exit_handlers` pointing to the first of the nodes it has freed.
-/
namespace BoxUtils.Atexit

open Runs

/-- Where `call_handlers` is. -/
inductive Phase
  | idle
  /-- The handler of this node is running. -/
  | inside (current : ℕ)
  | returned
  deriving DecidableEq, Repr

def Phase.isInside : Phase → Bool
  | .inside _ => true
  | _ => false

structure Exit where
  state : State
  phase : Phase
  /-- How often `call_handlers` has been called. -/
  walks : ℕ
  /-- A step has read or written a node that was freed. -/
  faulted : Bool

inductive Action
  | register (r : Registration)
  /-- The library calls `call_handlers`. -/
  | exit
  /-- The handler that is running returns to the walk. -/
  | handlerReturns
  deriving DecidableEq, Repr

def Exit.start : Exit := ⟨init, .idle, 0, false⟩

section Source

/-- The walk at its next node, whose function it calls. -/
def enter (s : State) : Ptr → Option Phase
  | none => some .returned
  | some current => do
    let _ ← s.heap.cell current
    some (.inside current)

/-- What the walk does when the function has returned. -/
def leave (s : State) (current : ℕ) : Option (State × Ptr) := do
  let node ← s.heap.cell current
  let temp := node.next
  let heap ← s.heap.free current
  some ({ s with heap := heap }, temp)

/-- There is no result for a step that uses a freed node. -/
def act (x : Exit) : Action → Option Exit
  | .register r => do
    let s ← perform r x.state
    some { x with state := s }
  | .exit => do
    let phase ← enter x.state x.state.exitHandlers
    some { x with phase := phase, walks := x.walks + 1 }
  | .handlerReturns =>
    match x.phase with
    | .inside current => do
      let (s, temp) ← leave x.state current
      let phase ← enter s temp
      some { x with state := s, phase := phase }
    | _ => none

def Enabled (x : Exit) : Action → Prop
  | .register _ => True
  | .exit => x.phase.isInside = false ∧ x.walks < x.state.stdcAtexit
  | .handlerReturns => x.phase.isInside = true

instance (x : Exit) (a : Action) : Decidable (Enabled x a) := by
  cases a <;> dsimp only [Enabled] <;> infer_instance

/-- A run ends with the first step that uses a freed node. -/
def next (x : Exit) (a : Action) : Option Exit :=
  if x.faulted = false ∧ Enabled x a then some ((act x a).getD { x with faulted := true })
  else none

/-- The stepwise walk does what the loop of `call_handlers` does. -/
theorem callLoop_leave (fuel : ℕ) (s : State) (current : ℕ) (calls : List (Fn × Ptr)) :
    callLoop (fuel + 1) s.heap (some current) calls = (do
      let node ← s.heap.cell current
      let (s, temp) ← leave s current
      callLoop fuel s.heap temp (calls ++ [(node.fn, node.param)])) := by
  cases hcell : s.heap.cell current with
  | none => simp only [callLoop, leave, hcell, Option.bind_eq_bind, Option.bind_none]
  | some node =>
    simp only [callLoop, leave, hcell, Heap.free_eq hcell, Option.bind_eq_bind, Option.bind_some]

end Source

/-- A registration does not come after the walk, or has nothing to register. -/
def BeforeReturn (x : Exit) : Action → Prop
  | .register (.ex none _ _) => True
  | .register _ => x.phase ≠ .returned
  | _ => True

instance (x : Exit) (a : Action) : Decidable (BeforeReturn x a) := by
  cases a with
  | register r =>
    cases r with
    | ex fn param nice => cases fn <;> dsimp only [BeforeReturn] <;> infer_instance
    | atexit fn nice => dsimp only [BeforeReturn]; infer_instance
    | once fn nice => dsimp only [BeforeReturn]; infer_instance
  | exit => dsimp only [BeforeReturn]; infer_instance
  | handlerReturns => dsimp only [BeforeReturn]; infer_instance

section Invariant

/-- The walk is over, and the list starts with a node that it has freed. -/
def Dangling (s : State) : Prop := ∃ a, s.exitHandlers = some a ∧ s.heap.cell a = none

/-- `call_handlers` was handed to `atexit` once if there is a list. -/
def Scheduled (s : State) : Prop :=
  s.stdcAtexit = if s.exitHandlers.isSome then 1 else 0

/-- What holds of the list by the place where the walk is. -/
def Sound (x : Exit) : Prop :=
  x.faulted = false ∧ Scheduled x.state ∧
    match x.phase with
    | .idle => x.walks = 0 ∧ ∃ hs, Shows x.state hs
    | .inside current => x.walks = 1 ∧ x.state.exitHandlers = some current ∧
        ∃ h hs, Shows x.state (h :: hs)
    | .returned => x.walks = 1 ∧ Dangling x.state

theorem sound_start : Sound Exit.start := ⟨rfl, rfl, rfl, [], rfl⟩

variable {s t : State} {x y : Exit} {a : Action}

/-- Registering changes the head of an empty list only. -/
theorem boxAtexitEx_head (fn : Option Fn) (param : Ptr) (nice : ℤ)
    (h : boxAtexitEx fn param nice s = some t) (hscheduled : Scheduled s) :
    Scheduled t ∧ (s.exitHandlers ≠ none → t.exitHandlers = s.exitHandlers) := by
  cases fn with
  | none =>
    obtain rfl : s = t := Option.some.inj h
    exact ⟨hscheduled, fun _ => rfl⟩
  | some f =>
    by_cases hnone : s.exitHandlers = none
    · simp only [boxAtexitEx, if_pos hnone, Option.some.injEq] at h
      subst h
      unfold Scheduled at hscheduled ⊢
      rw [hnone] at hscheduled
      constructor
      · simp [hscheduled]
      · intro hsome
        exact absurd hnone hsome
    · simp only [boxAtexitEx, if_neg hnone] at h
      obtain ⟨heap, -, hset⟩ := Option.bind_eq_some_iff.mp h
      obtain rfl := Option.some.inj hset
      exact ⟨hscheduled, fun _ => rfl⟩

theorem perform_head {r : Registration} (h : perform r s = some t) (hscheduled : Scheduled s) :
    Scheduled t ∧ (s.exitHandlers ≠ none → t.exitHandlers = s.exitHandlers) := by
  cases r with
  | atexit fn nice => exact boxAtexitEx_head (some .stdcHandler) fn nice h hscheduled
  | ex fn param nice => exact boxAtexitEx_head fn param nice h hscheduled
  | once fn nice =>
    obtain ⟨found, -, hfound⟩ := Option.bind_eq_some_iff.mp h
    cases found with
    | true =>
      obtain rfl : s = t := Option.some.inj hfound
      exact ⟨hscheduled, fun _ => rfl⟩
    | false => exact boxAtexitEx_head (some .stdcHandler) fn nice hfound hscheduled

/-- Behind the walk every registration that has a function reads the freed head. -/
theorem perform_dangling (hdangling : Dangling s) (r : Registration) :
    perform r s = match r with
      | .ex none _ _ => some s
      | _ => none := by
  obtain ⟨a, hhead, hdead⟩ := hdangling
  have hex : ∀ fn param nice, boxAtexitEx (some fn) param nice s = none := by
    intro fn param nice
    have hsome : s.exitHandlers ≠ none := by
      rw [hhead]
      exact Option.some_ne_none a
    simp only [boxAtexitEx, if_neg hsome]
    simp only [insertLoop, hhead, hdead, Option.bind_eq_bind, Option.bind_some, Option.bind_none]
  cases r with
  | atexit fn nice => exact hex .stdcHandler fn nice
  | ex fn param nice =>
    cases fn with
    | none => rfl
    | some fn => exact hex fn param nice
  | once fn nice =>
    simp only [perform, boxAtexitOnce, onceLoop, hhead, hdead, Option.bind_eq_bind,
      Option.bind_none]

/-- A step either has its result or is the first to use a freed node. -/
theorem next_cases (hstep : next x a = some y) : Enabled x a ∧
    ((∃ z, act x a = some z ∧ y = z) ∨ act x a = none ∧ y.faulted = true) := by
  obtain ⟨⟨-, henabled⟩, hstep⟩ := Option.ite_none_right_eq_some.mp hstep
  refine ⟨henabled, ?_⟩
  cases hact : act x a with
  | none =>
    rw [hact] at hstep
    obtain rfl := Option.some.inj hstep
    exact Or.inr ⟨rfl, rfl⟩
  | some z =>
    rw [hact] at hstep
    exact Or.inl ⟨z, rfl, (Option.some.inj hstep).symm⟩

theorem register_sound {r : Registration} (h : Sound x)
    (hbefore : BeforeReturn x (.register r)) : ∃ y, act x (.register r) = some y ∧ Sound y := by
  obtain ⟨hfault, hscheduled, hphase⟩ := h
  cases hp : x.phase with
  | idle =>
    rw [hp] at hphase
    obtain ⟨hwalks, hs, hshows⟩ := hphase
    obtain ⟨t, ht, hshows'⟩ := perform_shows hshows r
    obtain ⟨hsched, -⟩ := perform_head ht hscheduled
    refine ⟨{ x with state := t }, by simp only [act, ht, Option.bind_eq_bind, Option.bind_some],
      hfault, hsched, ?_⟩
    dsimp only
    rw [hp]
    exact ⟨hwalks, _, hshows'⟩
  | inside current =>
    rw [hp] at hphase
    obtain ⟨hwalks, hhead, h, hs, hshows⟩ := hphase
    obtain ⟨t, ht, hshows'⟩ := perform_shows hshows r
    obtain ⟨hsched, hkeep⟩ := perform_head ht hscheduled
    have hsome : x.state.exitHandlers ≠ none := by
      rw [hhead]
      exact Option.some_ne_none current
    refine ⟨{ x with state := t }, by simp only [act, ht, Option.bind_eq_bind, Option.bind_some],
      hfault, hsched, ?_⟩
    dsimp only
    rw [hp]
    exact ⟨hwalks, (hkeep hsome).trans hhead, h, _, hshows'⟩
  | returned =>
    rw [hp] at hphase
    have hperform := perform_dangling hphase.2 r
    have hnothing : perform r x.state = some x.state := by
      cases r with
      | atexit fn nice => exact absurd hp hbefore
      | once fn nice => exact absurd hp hbefore
      | ex fn param nice =>
        cases fn with
        | none => rfl
        | some fn => exact absurd hp hbefore
    refine ⟨x, by simp only [act, hnothing, Option.bind_eq_bind, Option.bind_some],
      hfault, hscheduled, ?_⟩
    rw [hp]
    exact hphase

theorem exit_sound (h : Sound x) (henabled : Enabled x .exit) :
    ∃ y, act x .exit = some y ∧ Sound y := by
  obtain ⟨hfault, hscheduled, hphase⟩ := h
  obtain ⟨hoff, hwalks⟩ := henabled
  have hone : x.state.stdcAtexit ≤ 1 := by
    rw [hscheduled]
    split <;> omega
  cases hp : x.phase with
  | inside current =>
    rw [hp] at hoff
    cases hoff
  | returned =>
    rw [hp] at hphase
    have hdone : x.walks = 1 := hphase.1
    omega
  | idle =>
    rw [hp] at hphase
    obtain ⟨hzero, hs, hshows⟩ := hphase
    cases hs with
    | nil =>
      have hnone : x.state.exitHandlers = none := hshows
      unfold Scheduled at hscheduled
      rw [hnone] at hscheduled
      have hnever : x.state.stdcAtexit = 0 := hscheduled
      omega
    | cons h hs =>
      obtain ⟨a, hhead, hcell⟩ := hshows
      refine ⟨{ x with phase := .inside a, walks := x.walks + 1 }, ?_, hfault, hscheduled, ?_⟩
      · simp only [act, enter, hhead, hcell, Option.bind_eq_bind, Option.bind_some]
      · have hfirst : x.walks + 1 = 1 := by rw [hzero]
        exact ⟨hfirst, hhead, h, hs, a, hhead, hcell⟩

theorem handlerReturns_sound (h : Sound x) (henabled : Enabled x .handlerReturns) :
    ∃ y, act x .handlerReturns = some y ∧ Sound y := by
  obtain ⟨hfault, hscheduled, hphase⟩ := h
  cases hp : x.phase with
  | idle =>
    rw [Enabled, hp] at henabled
    cases henabled
  | returned =>
    rw [Enabled, hp] at henabled
    cases henabled
  | inside current =>
    rw [hp] at hphase
    obtain ⟨hwalks, hhead, h, hs, a, ha, hcell⟩ := hphase
    obtain rfl : current = a := Option.some.inj (hhead.symm.trans ha)
    -- the list ends behind its first node, whatever was registered
    refine ⟨{ x with
      state := { x.state with heap := x.state.heap.erase current }
      phase := .returned }, ?_, hfault, hscheduled, ?_⟩
    · simp only [act, hp, leave, enter, hcell, Heap.free_eq hcell, Option.bind_eq_bind,
        Option.bind_some]
    · exact ⟨hwalks, current, hhead, Heap.cell_erase_self _ _⟩

theorem act_sound (h : Sound x) (hbefore : BeforeReturn x a) (henabled : Enabled x a) :
    ∃ y, act x a = some y ∧ Sound y := by
  cases a with
  | register r => exact register_sound h hbefore
  | exit => exact exit_sound h henabled
  | handlerReturns => exact handlerReturns_sound h henabled

theorem step_sound (h : Sound x) (hbefore : BeforeReturn x a) (hstep : next x a = some y) :
    Sound y := by
  obtain ⟨henabled, hcases⟩ := next_cases hstep
  obtain ⟨z, hz, hsound⟩ := act_sound h hbefore henabled
  rcases hcases with ⟨w, hw, rfl⟩ | ⟨hnone, -⟩
  · obtain rfl : z = y := Option.some.inj (hz.symm.trans hw)
    exact hsound
  · rw [hz] at hnone
    cases hnone

/-- A late registration uses the freed head. -/
theorem late_faults (h : Sound x) (hstep : next x a = some y) (hlate : ¬ BeforeReturn x a) :
    y.faulted = true := by
  obtain ⟨-, hcases⟩ := next_cases hstep
  obtain ⟨-, -, hphase⟩ := h
  have hnone : act x a = none := by
    cases a with
    | exit => exact absurd trivial hlate
    | handlerReturns => exact absurd trivial hlate
    | register r =>
      have hreturned : x.phase = .returned := by
        cases r with
        | atexit fn nice => exact not_not.mp hlate
        | once fn nice => exact not_not.mp hlate
        | ex fn param nice =>
          cases fn with
          | none => exact absurd trivial hlate
          | some fn => exact not_not.mp hlate
      rw [hreturned] at hphase
      have hperform := perform_dangling hphase.2 r
      have hfail : perform r x.state = none := by
        cases r with
        | atexit fn nice => exact hperform
        | once fn nice => exact hperform
        | ex fn param nice =>
          cases fn with
          | none => exact absurd trivial hlate
          | some fn => exact hperform
      simp only [act, hfail, Option.bind_eq_bind, Option.bind_none]
  rcases hcases with ⟨z, hz, -⟩ | ⟨-, hfaulted⟩
  · rw [hnone] at hz
    cases hz
  · exact hfaulted

end Invariant

/-- No step uses a freed node if and only if no registration that has a function comes
after `call_handlers` has returned. -/
theorem no_freed_node_iff (as : List Action) :
    Throughout next (fun x => x.faulted = false) Exit.start as ↔
      StepsMeet next BeforeReturn Exit.start as := by
  apply throughout_iff_stepsMeet (I := Sound)
  · intro x a y h hbefore hstep
    exact step_sound h hbefore hstep
  · intro x h
    exact h.1
  · intro x a y h hstep hlate hclean
    rw [late_faults h hstep hlate] at hclean
    cases hclean
  · exact sound_start

/-- An exit function registers a handler after the walk. -/
theorem late_registration_uses_freed :
    ¬ ∀ as : List Action, Throughout next (fun x => x.faulted = false) Exit.start as := by
  intro h
  have hrun := h [.register (.atexit (some 1) 0), .exit, .handlerReturns,
    .register (.atexit (some 2) 0)]
  have hsome : ∃ y, run next Exit.start [.register (.atexit (some 1) 0), .exit, .handlerReturns,
      .register (.atexit (some 2) 0)] = some y ∧ y.faulted = true := ⟨_, rfl, rfl⟩
  obtain ⟨y, hy, hfaulted⟩ := hsome
  have hclean := hrun.final hy
  rw [hfaulted] at hclean
  cases hclean

end BoxUtils.Atexit
