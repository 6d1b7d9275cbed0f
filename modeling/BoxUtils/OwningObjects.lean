import BoxUtils.Runs
import Mathlib.Data.Finset.Erase
import Mathlib.Data.Finset.Insert
import Mathlib.Data.List.Count
import Mathlib.Logic.Function.Basic

/-!
Objects that own a handle of the system, close it when they are destroyed, and may
close it, give it away or pass it on before. What the code keeps of a handle is its
value; the history numbers the handles that were taken over, says which of them each
object owns, and records the closings. Every handle is closed exactly once when no
object closes a handle twice and each object that is destroyed with a handle closes it.
-/
namespace BoxUtils.Owning

open Runs Function

/-- A class of such objects: the value that stands for no handle, the values that `close`
passes on, those an object may take over, and whether an object can be moved. -/
structure Kind (D : Type*) where
  none : D
  closes : D → Bool
  takes : D → Bool
  moves : Bool
  none_kept : closes none = false

/-- A call of the system's close: the handle that the object owns, and the value. -/
structure Closing (D : Type*) where
  owned : Option ℕ
  value : D
  deriving DecidableEq

structure State (D : Type*) where
  live : Finset ℕ
  value : ℕ → D
  /-- The values of the handles, in the order in which they were first taken over. -/
  taken : List D
  owns : ℕ → Option ℕ
  closed : List (Closing D)
  /-- The handles owned by objects that have been destroyed. -/
  ended : List ℕ

inductive Op (D : Type*)
  | construct (o : ℕ) (d : D)
  /-- An object takes over a handle that was detached before. -/
  | adopt (o r : ℕ)
  | move (o src : ℕ)
  | detach (o : ℕ)
  | close (o : ℕ)
  | destroy (o : ℕ)
  deriving DecidableEq, Repr

variable {D : Type*}

/-- How often the handle has been closed. -/
def State.closes (s : State D) (r : ℕ) : ℕ :=
  s.closed.countP fun c => c.owned = some r

namespace Kind

variable (K : Kind D)

def init : State D := ⟨∅, fun _ => K.none, [], fun _ => Option.none, [], []⟩

def closeHandle (s : State D) (o : ℕ) : State D :=
  if K.closes (s.value o) then { s with closed := s.closed ++ [⟨s.owns o, s.value o⟩] } else s

/-- The end of an object, which closes the handle it still has. -/
def endObject (s : State D) (o : ℕ) : State D :=
  { K.closeHandle s o with
    live := s.live.erase o
    ended := s.ended ++ (s.owns o).toList }

def next (s : State D) : Op D → Option (State D)
  | .construct o d =>
    if o ∉ s.live ∧ K.takes d then
      some { s with
        live := insert o s.live
        value := update s.value o d
        taken := s.taken ++ [d]
        owns := update s.owns o (some s.taken.length) }
    else Option.none
  | .adopt o r =>
    if o ∉ s.live ∧ ∀ p ∈ s.live, s.owns p ≠ some r then
      s.taken[r]?.map fun d =>
        { s with
          live := insert o s.live
          value := update s.value o d
          owns := update s.owns o (some r) }
    else Option.none
  | .move o src =>
    if K.moves ∧ o ∉ s.live ∧ src ∈ s.live then
      some { s with
        live := insert o s.live
        value := update (update s.value src K.none) o (s.value src)
        owns := update (update s.owns src Option.none) o (s.owns src) }
    else Option.none
  | .detach o =>
    if o ∈ s.live then
      some { s with
        value := update s.value o K.none
        owns := update s.owns o Option.none }
    else Option.none
  | .close o => if o ∈ s.live then some (K.closeHandle s o) else Option.none
  | .destroy o => if o ∈ s.live then some (K.endObject s o) else Option.none

end Kind

/-- Each closing is of a handle that its object owns, no handle is closed twice, and one
that its object owned to the end has been closed. -/
structure ClosedOnce (s : State D) : Prop where
  own : ∀ c ∈ s.closed, ∃ r, c.owned = some r ∧ s.taken[r]? = some c.value
  atMostOnce : ∀ r, s.closes r ≤ 1
  ended : ∀ r ∈ s.ended, s.closes r = 1

/-- A handle is only closed when it has not been closed yet, and an object that still
owns a handle is only destroyed when it will be closed now and has not been before. -/
def ClosesInTurn (K : Kind D) (s : State D) : Op D → Prop
  | .close o => ∀ r, s.owns o = some r → K.closes (s.value o) → s.closes r = 0
  | .destroy o => ∀ r, s.owns o = some r → K.closes (s.value o) ∧ s.closes r = 0
  | _ => True

/-- What a closing passed on is a value of that kind. -/
def Passed (K : Kind D) (s : State D) : Prop := ∀ c ∈ s.closed, K.closes c.value

/-- A live object has the value of the handle it owns, or the one for no handle. -/
def Held (K : Kind D) (s : State D) : Prop :=
  ∀ o ∈ s.live, match s.owns o with
    | some r => s.taken[r]? = some (s.value o)
    | none => s.value o = K.none

section Steps

variable {K : Kind D} {s t : State D} {a : Op D} {o r : ℕ}

theorem Held.of_closes (h : Held K s) (ho : o ∈ s.live) (hcloses : K.closes (s.value o)) :
    ∃ r, s.owns o = some r ∧ s.taken[r]? = some (s.value o) := by
  have hheld := h o ho
  cases howns : s.owns o with
  | some r =>
    rw [howns] at hheld
    exact ⟨r, rfl, hheld⟩
  | none =>
    rw [howns] at hheld
    simp only at hheld
    rw [hheld, K.none_kept] at hcloses
    cases hcloses

/-- A live object changes, or a new one joins, together with what it owns. -/
theorem Held.update (h : Held K s) {v : D} {w : Option ℕ}
    (hnew : match w with
      | some r => s.taken[r]? = some v
      | none => v = K.none) :
    Held K { s with
      live := insert o s.live, value := update s.value o v, owns := update s.owns o w } := by
  intro p hp
  by_cases hpo : p = o
  · subst p
    simpa using hnew
  · have hold := h p (Finset.mem_of_mem_insert_of_ne hp hpo)
    simpa [hpo] using hold

theorem Held.appendTaken (h : Held K s) (d : D) : Held K { s with taken := s.taken ++ [d] } := by
  intro p hp
  have hold := h p hp
  cases howns : s.owns p with
  | none =>
    rw [howns] at hold
    exact hold
  | some r =>
    rw [howns] at hold
    simp only
    exact (List.getElem?_append_left (List.getElem?_eq_some_iff.mp hold).1).trans hold

theorem closeHandle_closes (r : ℕ) : (K.closeHandle s o).closes r =
    s.closes r + if K.closes (s.value o) ∧ s.owns o = some r then 1 else 0 := by
  unfold Kind.closeHandle State.closes
  by_cases hcloses : K.closes (s.value o)
  · by_cases howns : s.owns o = some r <;> simp [hcloses, howns, List.countP_append]
  · simp [hcloses]

/-- The object's handle is closed once more, in the cases the class names. -/
theorem closeHandle_frame : (K.closeHandle s o).live = s.live ∧
    (K.closeHandle s o).value = s.value ∧ (K.closeHandle s o).owns = s.owns ∧
    (K.closeHandle s o).taken = s.taken ∧ (K.closeHandle s o).ended = s.ended := by
  unfold Kind.closeHandle
  split <;> exact ⟨rfl, rfl, rfl, rfl, rfl⟩

theorem close_cases (hstep : K.next s (.close o) = some t) :
    o ∈ s.live ∧ t = K.closeHandle s o := by
  obtain ⟨ho, hstep⟩ := Option.ite_none_right_eq_some.mp hstep
  exact ⟨ho, (Option.some.inj hstep).symm⟩

theorem destroy_cases (hstep : K.next s (.destroy o) = some t) :
    o ∈ s.live ∧ t = K.endObject s o := by
  obtain ⟨ho, hstep⟩ := Option.ite_none_right_eq_some.mp hstep
  exact ⟨ho, (Option.some.inj hstep).symm⟩

theorem Held.next (h : Held K s) (hstep : K.next s a = some t) : Held K t := by
  cases a with
  | construct o d =>
    obtain ⟨-, hstep⟩ := Option.ite_none_right_eq_some.mp hstep
    obtain rfl := Option.some.inj hstep
    exact (h.appendTaken d).update (by simp)
  | adopt o r =>
    obtain ⟨-, hstep⟩ := Option.ite_none_right_eq_some.mp hstep
    obtain ⟨d, hd, rfl⟩ := Option.map_eq_some_iff.mp hstep
    exact h.update hd
  | move o src =>
    obtain ⟨hok, hstep⟩ := Option.ite_none_right_eq_some.mp hstep
    obtain rfl := Option.some.inj hstep
    have hsrc := h src hok.2.2
    have hemptied := h.update (o := src) (v := K.none) (w := none) rfl
    rw [Finset.insert_eq_self.mpr hok.2.2] at hemptied
    exact hemptied.update hsrc
  | detach o =>
    obtain ⟨ho, hstep⟩ := Option.ite_none_right_eq_some.mp hstep
    obtain rfl := Option.some.inj hstep
    have hemptied := h.update (o := o) (v := K.none) (w := none) rfl
    rwa [Finset.insert_eq_self.mpr ho] at hemptied
  | close o =>
    obtain ⟨-, rfl⟩ := close_cases hstep
    obtain ⟨hlive, hvalue, howns, htaken, -⟩ := closeHandle_frame (K := K) (s := s) (o := o)
    unfold Held
    rwa [hlive, hvalue, howns, htaken]
  | destroy o =>
    obtain ⟨-, rfl⟩ := destroy_cases hstep
    obtain ⟨-, hvalue, howns, htaken, -⟩ := closeHandle_frame (K := K) (s := s) (o := o)
    intro p hp
    simp only [Kind.endObject, hvalue, howns, htaken]
    exact h p (Finset.mem_of_mem_erase hp)

theorem Passed.closeHandle (h : Passed K s) : Passed K (K.closeHandle s o) := by
  unfold Kind.closeHandle
  split
  case isTrue hcloses =>
    intro c hc
    rcases List.mem_append.mp hc with hold | hnew
    · exact h c hold
    · obtain rfl := List.mem_singleton.mp hnew
      exact hcloses
  case isFalse => exact h

/-- The other operations close nothing. -/
theorem next_frame (hclose : ∀ o, a ≠ .close o) (hdestroy : ∀ o, a ≠ .destroy o)
    (hstep : K.next s a = some t) :
    t.closed = s.closed ∧ t.ended = s.ended ∧ ∃ new, t.taken = s.taken ++ new := by
  cases a with
  | construct o d =>
    obtain ⟨-, hstep⟩ := Option.ite_none_right_eq_some.mp hstep
    obtain rfl := Option.some.inj hstep
    exact ⟨rfl, rfl, [d], rfl⟩
  | move o src | detach o =>
    obtain ⟨-, hstep⟩ := Option.ite_none_right_eq_some.mp hstep
    obtain rfl := Option.some.inj hstep
    exact ⟨rfl, rfl, [], by simp⟩
  | adopt o r =>
    obtain ⟨-, hstep⟩ := Option.ite_none_right_eq_some.mp hstep
    obtain ⟨d, -, rfl⟩ := Option.map_eq_some_iff.mp hstep
    exact ⟨rfl, rfl, [], by simp⟩
  | close o => exact absurd rfl (hclose o)
  | destroy o => exact absurd rfl (hdestroy o)

theorem Passed.next (h : Passed K s) (hstep : K.next s a = some t) : Passed K t := by
  cases a with
  | close o =>
    obtain ⟨-, rfl⟩ := close_cases hstep
    exact h.closeHandle
  | destroy o =>
    obtain ⟨-, rfl⟩ := destroy_cases hstep
    exact h.closeHandle (o := o)
  | _ =>
    obtain ⟨hclosed, -⟩ := next_frame (by simp) (by simp) hstep
    unfold Passed
    rwa [hclosed]

/-- A handle that has been closed has a value that closings pass on. -/
theorem Passed.closes_value (h : Passed K s) (hs : ClosedOnce s) {d : D}
    (hd : s.taken[r]? = some d) (hclosed : 0 < s.closes r) : K.closes d := by
  obtain ⟨c, hc, howned⟩ := List.countP_pos_iff.mp hclosed
  obtain ⟨q, hq, hvalue⟩ := hs.own c hc
  obtain rfl : q = r := Option.some.inj (hq.symm.trans (of_decide_eq_true howned))
  obtain rfl : d = c.value := Option.some.inj (hd.symm.trans hvalue)
  exact h c hc

theorem closedOnce_closeHandle_iff (h : Held K s) (ho : o ∈ s.live) (hs : ClosedOnce s) :
    ClosedOnce (K.closeHandle s o) ↔
      ∀ r, s.owns o = some r → K.closes (s.value o) → s.closes r = 0 := by
  constructor
  · intro hclosed r howns hcloses
    have hle := hclosed.atMostOnce r
    rw [closeHandle_closes, if_pos ⟨hcloses, howns⟩] at hle
    omega
  · intro hfirst
    obtain ⟨-, -, -, htaken, hended⟩ := closeHandle_frame (K := K) (s := s) (o := o)
    refine ⟨fun c hc => ?_, fun r => ?_, fun r hr => ?_⟩
    · rw [htaken]
      unfold Kind.closeHandle at hc
      split at hc
      case isTrue hcloses =>
        rcases List.mem_append.mp hc with hold | hnew
        · exact hs.own c hold
        · obtain rfl := List.mem_singleton.mp hnew
          exact h.of_closes ho hcloses
      case isFalse => exact hs.own c hc
    · rw [closeHandle_closes]
      have hle := hs.atMostOnce r
      split
      case isTrue hnow => rw [hfirst r hnow.2 hnow.1]
      case isFalse => exact hle
    · rw [hended] at hr
      have hone := hs.ended r hr
      rw [closeHandle_closes, hone]
      split
      case isTrue hnow =>
        have hzero := hfirst r hnow.2 hnow.1
        omega
      case isFalse => rfl

/-- The end of an object is in order when its closing is and leaves its handle closed. -/
theorem closedOnce_endObject_iff (h : Held K s) (hp : Passed K s) (ho : o ∈ s.live)
    (hs : ClosedOnce s) : ClosedOnce (K.endObject s o) ↔
      ∀ r, s.owns o = some r → K.closes (s.value o) ∧ s.closes r = 0 := by
  constructor
  · intro hclosed r howns
    have hone : (K.closeHandle s o).closes r = 1 :=
      hclosed.ended r (List.mem_append_right _ (by simp [howns]))
    have htaken : s.taken[r]? = some (s.value o) := by
      have hheld := h o ho
      rwa [howns] at hheld
    rw [closeHandle_closes] at hone
    by_cases hcloses : K.closes (s.value o)
    · rw [if_pos ⟨hcloses, howns⟩] at hone
      exact ⟨hcloses, by omega⟩
    · rw [if_neg fun hnow => hcloses hnow.1] at hone
      exact absurd (hp.closes_value hs htaken (by omega)) hcloses
  · intro hlast
    have hclose := (closedOnce_closeHandle_iff h ho hs).mpr fun r howns _ => (hlast r howns).2
    obtain ⟨-, -, -, -, hended⟩ := closeHandle_frame (K := K) (s := s) (o := o)
    refine ⟨hclose.own, hclose.atMostOnce, fun r hr => ?_⟩
    rcases List.mem_append.mp hr with hold | hnew
    · exact hclose.ended r (by rwa [hended])
    · have howns : s.owns o = some r := Option.mem_toList.mp hnew
      obtain ⟨hcloses, hzero⟩ := hlast r howns
      have hone : (K.closeHandle s o).closes r = 1 := by
        rw [closeHandle_closes, if_pos ⟨hcloses, howns⟩, hzero]
      exact hone

theorem closedOnce_next_iff (h : Held K s) (hp : Passed K s) (hs : ClosedOnce s)
    (hstep : K.next s a = some t) : ClosedOnce t ↔ ClosesInTurn K s a := by
  cases a with
  | close o =>
    obtain ⟨ho, rfl⟩ := close_cases hstep
    exact closedOnce_closeHandle_iff h ho hs
  | destroy o =>
    obtain ⟨ho, rfl⟩ := destroy_cases hstep
    exact closedOnce_endObject_iff h hp ho hs
  | _ =>
    obtain ⟨hclosed, hended, new, htaken⟩ := next_frame (by simp) (by simp) hstep
    refine iff_of_true ⟨fun c hc => ?_, fun r => ?_, fun r hr => ?_⟩ trivial
    · rw [hclosed] at hc
      obtain ⟨r, howned, hvalue⟩ := hs.own c hc
      refine ⟨r, howned, ?_⟩
      rw [htaken]
      exact (List.getElem?_append_left (List.getElem?_eq_some_iff.mp hvalue).1).trans hvalue
    · unfold State.closes
      rw [hclosed]
      exact hs.atMostOnce r
    · unfold State.closes
      rw [hclosed]
      rw [hended] at hr
      exact hs.ended r hr

end Steps

/-- Over any sequence of operations every handle is closed exactly once if and only if
each closing and each end of an object comes in its turn. -/
theorem closedOnce_run_iff (K : Kind D) (as : List (Op D)) :
    Throughout K.next ClosedOnce K.init as ↔ StepsMeet K.next (ClosesInTurn K) K.init as := by
  have hinit : Held K K.init ∧ Passed K K.init :=
    ⟨fun o ho => absurd ho (Finset.notMem_empty o), fun c hc => absurd hc List.not_mem_nil⟩
  have hclosed : ClosedOnce K.init :=
    ⟨fun c hc => absurd hc List.not_mem_nil, fun r => Nat.zero_le 1,
      fun r hr => absurd hr List.not_mem_nil⟩
  apply throughout_iff_of_step_iff (I := fun s => Held K s ∧ Passed K s) _ _ hinit hclosed
  · intro s a t hs hstep
    exact ⟨hs.1.next hstep, hs.2.next hstep⟩
  · intro s a t hs hclosed hstep
    exact closedOnce_next_iff hs.1 hs.2 hclosed hstep

end BoxUtils.Owning
