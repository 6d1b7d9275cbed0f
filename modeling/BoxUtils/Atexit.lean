import BoxUtils.Heap
import Mathlib.Data.Int.Notation
import Mathlib.Data.List.Perm.Basic

/-!
The exit handlers of libc/atexit.c: a singly linked list of heap nodes that
starts at `exit_handlers`, the three registration functions and the walk that
`exit` runs. Every registration after the first one meets a list of a single
node; it links its new node in front of that node and has no previous node to
link it to, so the head of the list stays what it was. The handlers that the
walk reaches are therefore never more than the first one registered.
-/
namespace BoxUtils.Atexit

/-- A `void (*)(void*)` that is not null. -/
inductive Fn
  | stdcHandler
  | user (addr : ℕ)
  deriving DecidableEq, Repr

/-- A pointer that may be null. -/
abbrev Ptr := Option ℕ

structure BoxExitHandler where
  fn : Fn
  param : Ptr
  nice : ℤ
  next : Ptr
  deriving DecidableEq, Repr

structure State where
  heap : Heap BoxExitHandler
  exitHandlers : Ptr
  /-- How often `call_handlers` was handed to `atexit`. -/
  stdcAtexit : ℕ

def init : State := ⟨Heap.empty, none, 0⟩

section Registration

/-- The loop `while (true)` of `Box_atexit_ex`. -/
def insertLoop (fn : Fn) (param : Ptr) (nice : ℤ) :
    ℕ → Heap BoxExitHandler → Ptr → Ptr → Option (Heap BoxExitHandler)
  | 0, _, _, _ => none
  | fuel + 1, heap, current, prev => do
    let cur ← current
    let node ← heap.cell cur
    if node.nice ≥ nice ∨ node.next = none then
      let hd := heap.fresh
      let heap := heap.alloc ⟨fn, param, nice, current⟩
      match prev with
      | some p => heap.modify p fun n => { n with next := some hd }
      -- without a previous node the head of the list is not updated
      | none => some heap
    else
      insertLoop fn param nice fuel heap node.next current

/-- `Box_atexit_ex`; the loop visits at most one node for each address in use. -/
def boxAtexitEx (fn : Option Fn) (param : Ptr) (nice : ℤ) (s : State) : Option State :=
  match fn with
  | none => some s
  | some f =>
    if s.exitHandlers = none then
      some ⟨s.heap.alloc ⟨f, param, nice, none⟩, some s.heap.fresh, s.stdcAtexit + 1⟩
    else do
      let heap ← insertLoop f param nice (s.heap.fresh + 1) s.heap s.exitHandlers none
      some { s with heap := heap }

/-- `Box_atexit`; the function travels as the parameter of the adapter. -/
def boxAtexit (fn : Ptr) (nice : ℤ) (s : State) : Option State :=
  boxAtexitEx (some .stdcHandler) fn nice s

/-- The search loop of `Box_atexit_once`. -/
def onceLoop (fn : Ptr) (heap : Heap BoxExitHandler) : ℕ → Ptr → Option Bool
  | _, none => some false
  | 0, some _ => none
  | fuel + 1, some current => do
    let node ← heap.cell current
    if node.fn = .stdcHandler ∧ node.param = fn then some true
    else onceLoop fn heap fuel node.next

def boxAtexitOnce (fn : Ptr) (nice : ℤ) (s : State) : Option State := do
  if ← onceLoop fn s.heap (s.heap.fresh + 1) s.exitHandlers then some s
  else boxAtexitEx (some .stdcHandler) fn nice s

/-- One call of a registration function. -/
inductive Registration
  | atexit (fn : Ptr) (nice : ℤ)
  | once (fn : Ptr) (nice : ℤ)
  | ex (fn : Option Fn) (param : Ptr) (nice : ℤ)
  deriving DecidableEq, Repr

def perform : Registration → State → Option State
  | .atexit fn nice => boxAtexit fn nice
  | .once fn nice => boxAtexitOnce fn nice
  | .ex fn param nice => boxAtexitEx fn param nice

def performAll : List Registration → State → Option State
  | [], s => some s
  | r :: rs, s => (perform r s).bind (performAll rs)

end Registration

section Walk

/-- The loop of `call_handlers`, with the calls it has made so far. -/
def callLoop : ℕ → Heap BoxExitHandler → Ptr → List (Fn × Ptr) →
    Option (Heap BoxExitHandler × List (Fn × Ptr))
  | _, heap, none, calls => some (heap, calls)
  | 0, _, some _, _ => none
  | fuel + 1, heap, some current, calls => do
    let node ← heap.cell current
    let temp := node.next
    let heap ← heap.free current
    callLoop fuel heap temp (calls ++ [(node.fn, node.param)])

/-- The calls made by `call_handlers`, which frees the nodes as it goes. -/
def callHandlers (s : State) : Option (State × List (Fn × Ptr)) := do
  let (heap, calls) ← callLoop (s.heap.fresh + 1) s.heap s.exitHandlers []
  some ({ s with heap := heap }, calls)

end Walk

section Meaning

/-- A handler as it was registered. -/
structure Handler where
  fn : Fn
  param : Ptr
  nice : ℤ
  deriving DecidableEq, Repr

def Handler.call (h : Handler) : Fn × Ptr := (h.fn, h.param)

/-- What a call is meant to add to the handlers registered before it. -/
def Registration.adds : Registration → List Handler → List Handler
  | .atexit fn nice, _ => [⟨.stdcHandler, fn, nice⟩]
  | .once fn nice, hs =>
    if (Fn.stdcHandler, fn) ∈ hs.map Handler.call then [] else [⟨.stdcHandler, fn, nice⟩]
  | .ex none _ _, _ => []
  | .ex (some fn) param nice, _ => [⟨fn, param, nice⟩]

/-- The handlers a sequence of calls registers, after those in `hs`. -/
def registeredFrom (hs : List Handler) : List Registration → List Handler
  | [] => hs
  | r :: rs => registeredFrom (hs ++ r.adds hs) rs

def registered (rs : List Registration) : List Handler := registeredFrom [] rs

/-- The walk calls every registered handler once, in an order of nice values. -/
def CallsAllInOrder (rs : List Registration) : Prop :=
  ∃ (s t : State) (calls : List (Fn × Ptr)) (hs : List Handler), performAll rs init = some s ∧
    callHandlers s = some (t, calls) ∧ hs.Perm (registered rs) ∧
    hs.Pairwise (fun a b => a.nice ≤ b.nice) ∧ calls = hs.map Handler.call

end Meaning

section Visible

/-- The list in memory shows just the first handler that was registered. -/
def Shows (s : State) : List Handler → Prop
  | [] => s.exitHandlers = none
  | h :: _ => ∃ a, s.exitHandlers = some a ∧ s.heap.cell a = some ⟨h.fn, h.param, h.nice, none⟩

theorem Shows.append {s : State} {h : Handler} {hs : List Handler} (hsh : Shows s (h :: hs))
    (more : List Handler) : Shows s (h :: hs ++ more) := hsh

/-- A second node is linked in front of the first one and then lost. -/
theorem boxAtexitEx_keeps_head {s : State} {h : Handler} {hs : List Handler}
    (hsh : Shows s (h :: hs)) (fn : Fn) (param : Ptr) (nice : ℤ) :
    ∃ t, boxAtexitEx (some fn) param nice s = some t ∧ Shows t (h :: hs) := by
  obtain ⟨a, hfirst, hcell⟩ := hsh
  refine ⟨{ s with heap := s.heap.alloc ⟨fn, param, nice, some a⟩ }, ?_, a, hfirst,
    Heap.cell_alloc_of_live _ hcell⟩
  simp [boxAtexitEx, insertLoop, hfirst, hcell]

theorem boxAtexitEx_shows {s : State} {hs : List Handler} (hsh : Shows s hs) (fn : Fn)
    (param : Ptr) (nice : ℤ) :
    ∃ t, boxAtexitEx (some fn) param nice s = some t ∧ Shows t (hs ++ [⟨fn, param, nice⟩]) := by
  cases hs with
  | nil =>
    have hempty : s.exitHandlers = none := hsh
    exact ⟨⟨s.heap.alloc ⟨fn, param, nice, none⟩, some s.heap.fresh, s.stdcAtexit + 1⟩,
      by simp [boxAtexitEx, hempty], s.heap.fresh, rfl, Heap.cell_alloc_self _ _⟩
  | cons h hs =>
    obtain ⟨t, ht, hshows⟩ := boxAtexitEx_keeps_head hsh fn param nice
    exact ⟨t, ht, hshows.append _⟩

theorem onceLoop_shows {s : State} {h : Handler} {hs : List Handler} (hsh : Shows s (h :: hs))
    (fn : Ptr) : onceLoop fn s.heap (s.heap.fresh + 1) s.exitHandlers =
      some (decide (h.call = (.stdcHandler, fn))) := by
  obtain ⟨a, hfirst, hcell⟩ := hsh
  simp only [hfirst, onceLoop, hcell, bind, Option.bind, Handler.call, Prod.mk.injEq]
  by_cases hmatch : h.fn = .stdcHandler ∧ h.param = fn
  · simp [hmatch]
  · simp [hmatch]

/-- One call keeps the first handler visible, whatever it was meant to add. -/
theorem perform_shows {s : State} {hs : List Handler} (hsh : Shows s hs) (r : Registration) :
    ∃ t, perform r s = some t ∧ Shows t (hs ++ r.adds hs) := by
  cases r with
  | atexit fn nice => exact boxAtexitEx_shows hsh .stdcHandler fn nice
  | ex fn param nice =>
    cases fn with
    | none => exact ⟨s, rfl, by simpa [Registration.adds] using hsh⟩
    | some fn => exact boxAtexitEx_shows hsh fn param nice
  | once fn nice =>
    cases hs with
    | nil =>
      have hempty : s.exitHandlers = none := hsh
      have hloop : onceLoop fn s.heap (s.heap.fresh + 1) s.exitHandlers = some false := by
        simp [hempty, onceLoop]
      obtain ⟨t, ht, hshows⟩ := boxAtexitEx_shows hsh .stdcHandler fn nice
      exact ⟨t, by simp [perform, boxAtexitOnce, hloop, ht], hshows⟩
    | cons h hs =>
      have hloop := onceLoop_shows hsh fn
      by_cases hmatch : h.call = (.stdcHandler, fn)
      · exact ⟨s, by simp [perform, boxAtexitOnce, hloop, hmatch], hsh.append _⟩
      · obtain ⟨t, ht, hshows⟩ := boxAtexitEx_keeps_head hsh .stdcHandler fn nice
        exact ⟨t, by simp [perform, boxAtexitOnce, hloop, hmatch, ht], hshows.append _⟩

theorem performAll_shows (rs : List Registration) {s : State} {hs : List Handler}
    (hsh : Shows s hs) :
    ∃ t, performAll rs s = some t ∧ Shows t (registeredFrom hs rs) := by
  induction rs generalizing s hs with
  | nil => exact ⟨s, rfl, hsh⟩
  | cons r rs ih =>
    obtain ⟨m, hm, hshm⟩ := perform_shows hsh r
    obtain ⟨t, ht, hsht⟩ := ih hshm
    exact ⟨t, by simp [performAll, hm, ht], hsht⟩

theorem callHandlers_shows {s : State} {hs : List Handler} (hsh : Shows s hs) :
    ∃ t, callHandlers s = some (t, (hs.take 1).map Handler.call) := by
  cases hs with
  | nil =>
    have hempty : s.exitHandlers = none := hsh
    refine ⟨s, ?_⟩
    simp only [callHandlers, callLoop, hempty, bind, Option.bind, List.take_nil, List.map_nil]
    rw [← hempty]
  | cons h hs =>
    obtain ⟨a, hfirst, hcell⟩ := hsh
    refine ⟨{ s with heap := s.heap.erase a }, ?_⟩
    simp [callHandlers, callLoop, hfirst, hcell, Heap.free_eq hcell, Handler.call]

/-- The walk calls the first registered handler and no other. -/
theorem callHandlers_calls_first (rs : List Registration) :
    ∃ s t, performAll rs init = some s ∧
      callHandlers s = some (t, ((registered rs).take 1).map Handler.call) := by
  have hinit : Shows init [] := rfl
  obtain ⟨s, hs, hshows⟩ := performAll_shows rs hinit
  obtain ⟨t, ht⟩ := callHandlers_shows hshows
  exact ⟨s, t, hs, ht⟩

end Visible

section Order

theorem registered_length_le (rs : List Registration) (h : CallsAllInOrder rs) :
    (registered rs).length ≤ 1 := by
  obtain ⟨s, t, calls, hs, hrun, hwalk, hperm, -, hcalls⟩ := h
  obtain ⟨s', t', hrun', hwalk'⟩ := callHandlers_calls_first rs
  obtain rfl : s' = s := Option.some.inj (hrun'.symm.trans hrun)
  have hlog := (Prod.mk.inj (Option.some.inj (hwalk'.symm.trans hwalk))).2
  have hlen := congrArg List.length (hlog.trans hcalls)
  rw [List.length_map, List.length_map, hperm.length_eq, List.length_take] at hlen
  omega

/-- All registered handlers are called in order exactly when no call after the
first effective one was meant to add another handler. -/
theorem callsAllInOrder_iff (rs : List Registration) :
    CallsAllInOrder rs ↔ (registered rs).length ≤ 1 := by
  refine ⟨registered_length_le rs, fun hone => ?_⟩
  obtain ⟨s, t, hrun, hwalk⟩ := callHandlers_calls_first rs
  have htake : (registered rs).take 1 = registered rs := List.take_of_length_le hone
  refine ⟨s, t, _, registered rs, hrun, by rw [hwalk, htake], List.Perm.refl _, ?_, rfl⟩
  match registered rs, hone with
  | [], _ => exact List.Pairwise.nil
  | [h], _ => exact List.pairwise_singleton _ h

/-- Of two handlers with nice 0 and 1 the second one is never called. -/
theorem second_handler_lost : ¬ ∀ rs : List Registration, CallsAllInOrder rs := by
  intro h
  have hlen := registered_length_le _ (h [.atexit (some 1) 0, .atexit (some 2) 1])
  exact absurd hlen (by decide)

end Order

end BoxUtils.Atexit
