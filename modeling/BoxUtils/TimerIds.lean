import BoxUtils.Timer
import Mathlib.Data.List.Nodup
import Mathlib.Logic.Function.Basic

/-!
What the id of a timer stands for. An id is the address of a node, and the node of
a timer that has gone may be given to a later one, so the history keeps which call
of `Create` made the timer of each node. `Delete` finds the node with the address
it is given, whoever made it, and reads that node after it has erased it.
-/
namespace BoxUtils.Timer

open Runs Function

/-- The list with its history: which call of `Create` made the timer of a node. -/
structure Made where
  state : State
  maker : ℕ → ℕ

def Made.init (start : ℤ) : Made := ⟨Timer.init start, fun _ => 0⟩

def makerAfter (m : Made) : Action → ℕ → ℕ
  | .create _ node _ callback _ =>
    if callback = none then m.maker else update m.maker node m.state.ids.length
  | _ => m.maker

def Made.next (m : Made) (a : Action) : Option Made :=
  (Timer.next m.state a).map fun s => ⟨s, makerAfter m a⟩

/-- The timer that the k-th call of `Create` made is in the list. -/
def Made.Pending (m : Made) (k : ℕ) : Prop := ∃ timer ∈ m.state.timers, m.maker timer.node = k

/-- The answer tells whether the k-th timer was pending; it is removed, and no other. -/
structure DeletesOwn (m : Made) (k : ℕ) (d : Deletion) : Prop where
  answer_iff : d.answer = true ↔ m.Pending k
  removed : m.Pending k → d.timers = m.state.timers.filter fun timer => m.maker timer.node ≠ k
  unchanged : ¬ m.Pending k → d.timers = m.state.timers

/-- A call of `Delete` with the id from the k-th `Create` is precise. -/
def DeletesPrecisely (m : Made) : Action → Prop
  | .delete k => ∀ id, m.state.ids[k]? = some id →
    DeletesOwn m k (delete m.state.timers id) ∧
      (delete m.state.timers id).readsErased = false
  | _ => True

/-- `Delete` is only called with ids at which no timer is pending. -/
def DeletesMissing (m : Made) : Action → Prop
  | .delete k => ∀ id, m.state.ids[k]? = some id → ∀ timer ∈ m.state.timers, some timer.node ≠ id
  | _ => True

/-- The call of `Create` that made a timer has returned the address of its node. -/
structure Named (m : Made) : Prop where
  apart : Apart m.state
  made : ∀ timer ∈ m.state.timers, m.state.ids[m.maker timer.node]? = some (some timer.node)

section Deletions

variable {timers : List TimerData} {timer : TimerData} {id : Option ℕ}

/-- With its address only one node goes. -/
theorem eraseP_node (h : (timers.map TimerData.node).Nodup) (node : ℕ) :
    timers.eraseP (fun timer => timer.node = node) =
      timers.filter fun timer => timer.node ≠ node := by
  induction timers with
  | nil => rfl
  | cons timer rest ih =>
    obtain ⟨hnot, hrest⟩ := List.nodup_cons.mp h
    by_cases hnode : timer.node = node
    · subst hnode
      have hkeep : rest.filter (fun other => other.node ≠ timer.node) = rest := by
        refine List.filter_eq_self.mpr fun other hother => ?_
        refine decide_eq_true fun heq => hnot ?_
        exact heq ▸ List.mem_map_of_mem hother
      rw [List.eraseP_cons_of_pos (by simp), List.filter_cons_of_neg (by simp), hkeep]
    · rw [List.eraseP_cons_of_neg (by simpa using hnode),
        List.filter_cons_of_pos (by simpa using hnode), ih hrest]

/-- A call of `Delete` that finds the address erases the node and reads it afterwards. -/
theorem delete_found (h : (timers.map TimerData.node).Nodup) (htimer : timer ∈ timers) :
    delete timers (some timer.node) =
      ⟨true, timers.filter fun other => other.node ≠ timer.node, true⟩ := by
  have hfound : (timers.find? fun other => other.node = timer.node).isSome := by
    rw [List.find?_isSome]
    exact ⟨timer, htimer, by simp⟩
  obtain ⟨found, hfound⟩ := Option.isSome_iff_exists.mp hfound
  have hgone : (timers.filter fun other => other.node ≠ timer.node).find?
      (fun other => other.node = timer.node) = none := by
    rw [List.find?_eq_none]
    intro other hother
    simpa using (List.mem_filter.mp hother).2
  simp only [delete, hfound, eraseP_node h, hgone, decide_true]

end Deletions

section Steps

variable {m n : Made} {a : Action} {k : ℕ} {id : Option ℕ}

theorem named_init (start : ℤ) : Named (Made.init start) where
  apart := List.nodup_nil
  made _ htimer := absurd htimer List.not_mem_nil

theorem Named.next (h : Named m) (hstep : m.next a = some n) : Named n := by
  obtain ⟨s, hs, rfl⟩ := Option.map_eq_some_iff.mp hstep
  refine ⟨h.apart.next hs, fun timer htimer => ?_⟩
  cases a with
  | create time node ms callback param =>
    obtain ⟨hfree, rfl⟩ := next_cases hs
    simp only [State.create, Timer.create, makerAfter] at htimer ⊢
    by_cases hnull : callback = none
    · rw [if_pos hnull] at htimer ⊢
      rw [if_pos hnull]
      exact (List.getElem?_append_left (List.getElem?_eq_some_iff.mp (h.made timer htimer)).1).trans
        (h.made timer htimer)
    · rw [if_neg hnull] at htimer ⊢
      rw [if_neg hnull]
      rcases List.mem_cons.mp htimer with rfl | hold
      · simp
      · rw [update_of_ne (hfree timer hold)]
        exact (List.getElem?_append_left
          (List.getElem?_eq_some_iff.mp (h.made timer hold)).1).trans (h.made timer hold)
  | pass now now' call =>
    have hpass : s = m.state.pass now now' call := next_cases hs
    subst hpass
    by_cases hempty : m.state.timers = []
    · simp [State.pass, hempty] at htimer
    · simp only [State.pass, if_neg hempty] at htimer ⊢
      obtain ⟨old, hold, ms, rfl, -⟩ := visitAll_mem htimer
      exact h.made old hold
  | delete k =>
    obtain ⟨id, -, rfl⟩ := next_cases hs
    exact h.made timer ((delete_sublist id).subset htimer)

/-- The id of a pending timer is the address of a node. -/
theorem Named.listed (h : Named m) (hid : m.state.ids[k]? = some id) {timer : TimerData}
    (htimer : timer ∈ m.state.timers) (hmaker : m.maker timer.node = k) : some timer.node = id := by
  have hmade := h.made timer htimer
  rw [hmaker, hid] at hmade
  exact (Option.some.inj hmade).symm

/-- `Delete` answers and removes as it should if and only if the node at the address, if
there is one, is the one that the same call of `Create` made. -/
theorem Named.deletesOwn_iff (h : Named m) (hid : m.state.ids[k]? = some id) :
    DeletesOwn m k (delete m.state.timers id) ↔
      ∀ timer ∈ m.state.timers, some timer.node = id → m.maker timer.node = k := by
  constructor
  · rintro hown timer htimer rfl
    have hfound := delete_found h.apart htimer
    obtain ⟨other, hother, hmaker⟩ := hown.answer_iff.mp (by rw [hfound])
    have hnode : other.node = timer.node := Option.some.inj (h.listed hid hother hmaker)
    rwa [hnode] at hmaker
  · intro hsame
    by_cases hlisted : ∃ timer ∈ m.state.timers, some timer.node = id
    · obtain ⟨timer, htimer, rfl⟩ := hlisted
      have hmaker : m.maker timer.node = k := hsame timer htimer rfl
      have hpending : m.Pending k := ⟨timer, htimer, hmaker⟩
      rw [delete_found h.apart htimer]
      refine ⟨iff_of_true rfl hpending, fun _ => ?_, fun hnot => absurd hpending hnot⟩
      refine List.filter_congr fun other hother => ?_
      refine decide_eq_decide.mpr (not_congr ⟨fun hnode => ?_, fun hother' => ?_⟩)
      · rwa [hnode]
      · exact Option.some.inj (h.listed hid hother hother')
    · have hmissing : ∀ timer ∈ m.state.timers, some timer.node ≠ id :=
        fun timer htimer heq => hlisted ⟨timer, htimer, heq⟩
      have hnot : ¬ m.Pending k := fun ⟨timer, htimer, hmaker⟩ =>
        hmissing timer htimer (h.listed hid htimer hmaker)
      rw [delete_missing hmissing]
      exact ⟨iff_of_false Bool.false_ne_true hnot, fun hp => absurd hp hnot, fun _ => rfl⟩

/-- `Delete` reads no erased node if and only if it finds none to erase. -/
theorem Named.readsErased_iff (h : Named m) :
    (delete m.state.timers id).readsErased = false ↔
      ∀ timer ∈ m.state.timers, some timer.node ≠ id := by
  constructor
  · rintro hreads timer htimer rfl
    rw [delete_found h.apart htimer] at hreads
    cases hreads
  · intro hmissing
    rw [delete_missing hmissing]

theorem Named.precise_iff (h : Named m) : DeletesPrecisely m a ↔ DeletesMissing m a := by
  cases a with
  | delete k =>
    refine forall₂_congr fun id hid => ?_
    rw [h.deletesOwn_iff hid, h.readsErased_iff]
    constructor
    · exact fun hboth => hboth.2
    · exact fun hmissing => ⟨fun timer htimer heq => absurd heq (hmissing timer htimer), hmissing⟩
  | _ => exact Iff.rfl

end Steps

/-- In a run of the timers every `Delete` is precise if and only if none is given the
address of a node that is in the list. -/
theorem deletesPrecisely_iff (start : ℤ) (as : List Action) :
    StepsMeet Made.next DeletesPrecisely (Made.init start) as ↔
      StepsMeet Made.next DeletesMissing (Made.init start) as :=
  stepsMeet_iff_stepsMeet (I := Named) (fun _ _ _ h _ hstep => h.next hstep)
    (fun _ _ _ h _ => h.precise_iff) (named_init start)

/-- The only timer is deleted, and its node is read once more. -/
theorem erased_node_read : ¬ ∀ (start : ℤ) (as : List Action),
    StepsMeet Made.next DeletesPrecisely (Made.init start) as := by
  intro h
  obtain ⟨-, hrest⟩ := h 0 [.create 0 0 1000 (some 0) 0, .delete 0] _ rfl
  obtain ⟨hprecise, -⟩ := hrest _ rfl
  exact Bool.noConfusion (hprecise (some 0) rfl).2

end BoxUtils.Timer
