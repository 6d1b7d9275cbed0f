import BoxUtils.Loops
import BoxUtils.Timer

/-!
One pass of the timer thread over its list, with the iterator of the loop. Erasing a node
gives the iterator to the next one, so after it the loop does not advance. A callback may
do anything to the world and return anything; the list is locked meanwhile.
-/
namespace BoxUtils.Timer

open Loops

/-- The functions of the timers, in a world that they may read and change. -/
structure Functions (W : Type*) where
  callback : TimerData → W → W × ℤ
  deleteFn : TimerData → W → W

/-- What the pass does to the outside, by the node of the timer. -/
inductive Happening
  | called (node : ℕ) (returned : ℤ)
  | deleted (node : ℕ)
  deriving DecidableEq, Repr

structure Effects (W : Type*) where
  sleepMs : ℤ
  world : W
  log : List Happening

/-- The variables of the loop; `end()` is the length of the list. -/
structure Visiting (W : Type*) where
  timers : List TimerData
  iter : ℕ
  effects : Effects W

section Source

variable {W : Type*} (durMs : ℤ) (F : Functions W)

/-- The callback of a timer that has one, and the time that it has then. -/
def callBack (timer : TimerData) (e : Effects W) : ℤ × Effects W :=
  if timer.callback ≠ none then
    let (world, ms) := F.callback timer e.world
    (ms, { e with world := world, log := e.log ++ [.called timer.node ms] })
  else (timer.ms, e)

/-- The `delete_fn` of a timer that has one. -/
def cancel (timer : TimerData) (e : Effects W) : Effects W :=
  if timer.deleteFn ≠ none then
    { e with world := F.deleteFn timer e.world, log := e.log ++ [.deleted timer.node] }
  else e

/-- The body of the loop for one timer: what is left of it, and the effects. -/
def treat (timer : TimerData) (e : Effects W) : Option TimerData × Effects W :=
  if timer.ms - durMs ≤ 0 then
    let (ms, e) := callBack F timer e
    if ms = 0 then (none, cancel F timer e) else (some { timer with ms := ms }, e)
  else
    let ms := timer.ms - durMs
    (some { timer with ms := ms },
      { e with sleepMs := if ms < e.sleepMs ∨ e.sleepMs ≠ 0 then ms else e.sleepMs })

/-- One turn of the loop over `timers`. -/
def visitTurn (v : Visiting W) : Turn (Visiting W) (Visiting W) :=
  match v.timers[v.iter]? with
  | none => .done v
  | some timer =>
    match treat durMs F timer v.effects with
    | (none, e) => .again ⟨v.timers.eraseIdx v.iter, v.iter, e⟩
    | (some kept, e) => .again ⟨v.timers.set v.iter kept, v.iter + 1, e⟩

end Source

section Traversal

variable {W : Type*} {durMs : ℤ} {F : Functions W}

/-- Each timer treated in turn, without an iterator. -/
def treatAll (durMs : ℤ) (F : Functions W) :
    List TimerData → Effects W → List TimerData × Effects W
  | [], e => ([], e)
  | timer :: rest, e =>
    let (kept, e) := treat durMs F timer e
    let (timers, e) := treatAll durMs F rest e
    (kept.toList ++ timers, e)

/-- The loop visits what is left of the list once, and leaves alone what it has passed. -/
theorem visitTurn_yields (front rest : List TimerData) (e : Effects W) :
    Yields (visitTurn durMs F) ⟨front ++ rest, front.length, e⟩
      ⟨front ++ (treatAll durMs F rest e).1, (front ++ (treatAll durMs F rest e).1).length,
        (treatAll durMs F rest e).2⟩ := by
  induction rest generalizing front e with
  | nil =>
    have hend : (front ++ [])[front.length]? = none := by
      rw [List.append_nil]
      exact List.getElem?_eq_none le_rfl
    simp only [treatAll, List.append_nil] at hend ⊢
    apply Yields.done
    simp only [visitTurn, hend]
  | cons timer rest ih =>
    have hread : (front ++ timer :: rest)[front.length]? = some timer := by
      rw [List.getElem?_append_right le_rfl, Nat.sub_self, List.getElem?_cons_zero]
    cases htreat : treat durMs F timer e with
    | mk kept e' =>
      simp only [treatAll, htreat]
      cases kept with
      | none =>
        refine Yields.again ?_ (ih front e')
        simp only [visitTurn, hread, htreat]
        rw [List.eraseIdx_append_of_length_le le_rfl, Nat.sub_self, List.eraseIdx_cons_zero]
      | some kept =>
        have hnext := ih (front ++ [kept]) e'
        rw [List.append_assoc, List.length_append, List.length_singleton] at hnext
        simp only [Option.toList_some, List.singleton_append, List.append_assoc] at hnext ⊢
        refine Yields.again ?_ hnext
        simp only [visitTurn, hread, htreat]
        rw [List.set_append_right _ _ le_rfl, Nat.sub_self, List.set_cons_zero]

end Traversal

section Treatment

/-- A timer of the list, with what its callback has returned if it was called. -/
abbrev Mark := TimerData × Option ℤ

/-- A timer that was not called waits for less time, one that was waits for the time that
was returned, and zero takes it out of the list. -/
def kept (durMs : ℤ) (mark : Mark) : Option TimerData :=
  match mark.2 with
  | none => some { mark.1 with ms := mark.1.ms - durMs }
  | some ms => if ms = 0 then none else some { mark.1 with ms := ms }

def happenings (mark : Mark) : List Happening :=
  match mark.2 with
  | none => []
  | some ms =>
    .called mark.1.node ms :: if ms = 0 ∧ mark.1.deleteFn ≠ none then [.deleted mark.1.node] else []

/-- The node whose callback was called. -/
def Happening.callee : Happening → Option ℕ
  | .called node _ => some node
  | .deleted _ => none

variable {W : Type*} {durMs : ℤ} {F : Functions W} {timers : List TimerData}

/-- The world after a timer: a timer that was called has run its callback, and one that
returned zero its `delete_fn` as well. -/
def worldAfter (F : Functions W) (world : W) (mark : Mark) : W :=
  match mark.2 with
  | none => world
  | some ms =>
    let world := (F.callback mark.1 world).1
    if ms = 0 ∧ mark.1.deleteFn ≠ none then F.deleteFn mark.1 world else world

/-- What is marked was returned by the callbacks, each run in the world that the timers
before it in the list have left. -/
def Answered (F : Functions W) : W → List Mark → Prop
  | _, [] => True
  | world, mark :: marks =>
    (∀ ms, mark.2 = some ms → (F.callback mark.1 world).2 = ms) ∧
      Answered F (worldAfter F world mark) marks

/-- The callbacks were run on the world in list order and are marked with what they returned.
The world, the list and the log are what the marks say, and exactly the timers that are due
are marked as called. -/
structure Treated (durMs : ℤ) (F : Functions W) (world : W) (timers : List TimerData)
    (marks : List Mark) (v : Visiting W) : Prop where
  marked : marks.map Prod.fst = timers
  due : ∀ mark ∈ marks, mark.2.isSome ↔ mark.1.ms ≤ durMs
  answered : Answered F world marks
  world : v.effects.world = marks.foldl (worldAfter F) world
  left : v.timers = marks.filterMap (kept durMs)
  log : v.effects.log = marks.flatMap happenings
  calls : v.effects.log.filterMap Happening.callee =
    (timers.filter fun timer => timer.ms ≤ durMs).map TimerData.node
  positive : ∀ mark ∈ marks, mark.2 = none → 0 < mark.1.ms - durMs

theorem callBack_eq {timer : TimerData} (hcallback : timer.callback ≠ none) (e : Effects W) :
    callBack F timer e = ((F.callback timer e.world).2,
      { e with
        world := (F.callback timer e.world).1
        log := e.log ++ [.called timer.node (F.callback timer e.world).2] }) :=
  if_pos hcallback

theorem cancel_world (timer : TimerData) (e : Effects W) :
    (cancel F timer e).world =
      if timer.deleteFn ≠ none then F.deleteFn timer e.world else e.world := by
  unfold cancel
  split <;> rfl

theorem cancel_log (timer : TimerData) (e : Effects W) :
    (cancel F timer e).log =
      e.log ++ if timer.deleteFn ≠ none then [.deleted timer.node] else [] := by
  unfold cancel
  split
  · rfl
  · exact (List.append_nil e.log).symm

/-- What the body does to one timer, by the three ways it can go. -/
theorem treat_spec (durMs : ℤ) (F : Functions W) {timer : TimerData}
    (hcallback : timer.callback ≠ none) (e : Effects W) :
    ∃ answer : Option ℤ, (answer.isSome ↔ timer.ms ≤ durMs) ∧
      (∀ ms, answer = some ms → (F.callback timer e.world).2 = ms) ∧
      (treat durMs F timer e).1 = kept durMs (timer, answer) ∧
      (treat durMs F timer e).2.world = worldAfter F e.world (timer, answer) ∧
      (treat durMs F timer e).2.log = e.log ++ happenings (timer, answer) := by
  by_cases hdue : timer.ms - durMs ≤ 0
  · have hle : timer.ms ≤ durMs := by omega
    refine ⟨some (F.callback timer e.world).2, ⟨fun _ => hle, fun _ => rfl⟩,
      fun ms => Option.some.inj, ?_⟩
    rw [treat, if_pos hdue, callBack_eq hcallback]
    by_cases hzero : (F.callback timer e.world).2 = 0
    · simp only [hzero, if_true, kept, worldAfter, happenings, cancel_world, cancel_log, true_and,
        List.append_assoc, List.singleton_append]
    · simp only [hzero, if_false, kept, worldAfter, happenings, false_and, and_self]
  · have hlt : ¬ timer.ms ≤ durMs := by omega
    refine ⟨none, ⟨fun h => absurd h Bool.false_ne_true, fun h => absurd h hlt⟩,
      fun ms h => absurd h (Option.some_ne_none ms).symm, ?_⟩
    rw [treat, if_neg hdue]
    exact ⟨rfl, rfl, (List.append_nil e.log).symm⟩

theorem treatAll_spec (durMs : ℤ) (F : Functions W)
    (hcallback : ∀ timer ∈ timers, timer.callback ≠ none) (e : Effects W) :
    ∃ marks : List Mark, marks.map Prod.fst = timers ∧
      (∀ mark ∈ marks, mark.2.isSome ↔ mark.1.ms ≤ durMs) ∧
      Answered F e.world marks ∧
      (treatAll durMs F timers e).1 = marks.filterMap (kept durMs) ∧
      (treatAll durMs F timers e).2.world = marks.foldl (worldAfter F) e.world ∧
      (treatAll durMs F timers e).2.log = e.log ++ marks.flatMap happenings := by
  induction timers generalizing e with
  | nil => exact ⟨[], rfl, by simp, trivial, rfl, rfl, by simp [treatAll]⟩
  | cons timer rest ih =>
    obtain ⟨answer, hanswer, hreturned, hkept, hworld, hlog⟩ :=
      treat_spec durMs F (hcallback timer List.mem_cons_self) e
    obtain ⟨marks, hmarks, hdue, hanswered, hleft, hworlds, hlogs⟩ :=
      ih (fun t ht => hcallback t (List.mem_cons_of_mem timer ht)) (treat durMs F timer e).2
    rw [hworld] at hanswered hworlds
    refine ⟨(timer, answer) :: marks, ?_, ?_, ⟨hreturned, hanswered⟩, ?_, ?_, ?_⟩
    · rw [List.map_cons, hmarks]
    · intro mark hmark
      rcases List.mem_cons.mp hmark with rfl | hmem
      · exact hanswer
      · exact hdue mark hmem
    · simp only [treatAll, hleft, hkept]
      rw [List.filterMap_cons]
      cases kept durMs (timer, answer) <;> rfl
    · simp only [treatAll, hworlds, List.foldl_cons]
    · simp only [treatAll, hlogs, hlog, List.flatMap_cons, List.append_assoc]

theorem callees_happenings (mark : Mark) :
    (happenings mark).filterMap Happening.callee = if mark.2.isSome then [mark.1.node] else [] := by
  obtain ⟨timer, answer⟩ := mark
  cases answer with
  | none => rfl
  | some ms =>
    simp only [happenings, List.filterMap_cons, Happening.callee, Option.isSome_some, if_true]
    split <;> rfl

theorem callees_flatMap {marks : List Mark}
    (hdue : ∀ mark ∈ marks, mark.2.isSome ↔ mark.1.ms ≤ durMs) :
    (marks.flatMap happenings).filterMap Happening.callee =
      ((marks.map Prod.fst).filter fun timer => timer.ms ≤ durMs).map TimerData.node := by
  induction marks with
  | nil => rfl
  | cons mark marks ih =>
    have hrest := ih fun m hm => hdue m (List.mem_cons_of_mem mark hm)
    have hmark := hdue mark List.mem_cons_self
    rw [List.flatMap_cons, List.filterMap_append, hrest, callees_happenings, List.map_cons,
      List.filter_cons]
    by_cases hcalled : mark.1.ms ≤ durMs
    · rw [if_pos (hmark.mpr hcalled), if_pos (decide_eq_true hcalled)]
      rfl
    · rw [if_neg (mt hmark.mp hcalled), if_neg (by simpa using hcalled)]
      rfl

/-- A pass ends, and it treats every timer of the list once. -/
theorem pass_treats_once (durMs : ℤ) (F : Functions W)
    (hcallback : ∀ timer ∈ timers, timer.callback ≠ none) (sleepMs : ℤ) (world : W) :
    ∃ v marks, Yields (visitTurn durMs F) ⟨timers, 0, ⟨sleepMs, world, []⟩⟩ v ∧
      Treated durMs F world timers marks v := by
  obtain ⟨marks, hmarks, hdue, hanswered, hleft, hworld, hlog⟩ :=
    treatAll_spec durMs F hcallback ⟨sleepMs, world, []⟩
  refine ⟨_, marks, visitTurn_yields [] timers ⟨sleepMs, world, []⟩, hmarks, hdue, hanswered,
    hworld, hleft, hlog, ?_, ?_⟩
  · rw [hlog, List.nil_append, callees_flatMap hdue, hmarks]
  · intro mark hmark hnone
    have hnot : ¬ mark.1.ms ≤ durMs := by
      rw [← hdue mark hmark, hnone]
      exact Bool.false_ne_true
    omega

/-- One timer is done, one is set again, and one has to wait; the world counts the calls. -/
theorem pass_treats_once_three :
    let timers : List TimerData :=
      [⟨1, some 1, 3, some 7, 0⟩, ⟨2, some 1, 9, none, 0⟩, ⟨3, some 2, 5, none, 0⟩]
    let F : Functions ℕ := ⟨fun timer calls => (calls + 1, if timer.node = 1 then 0 else 4),
      fun _ calls => calls + 10⟩
    ∃ v marks, Yields (visitTurn 5 F) ⟨timers, 0, ⟨0, 0, []⟩⟩ v ∧
      Treated 5 F 0 timers marks v :=
  pass_treats_once 5 ⟨fun timer calls => (calls + 1, if timer.node = 1 then 0 else 4),
    fun _ calls => calls + 10⟩ (by decide) 0 0

end Treatment

section Passes

variable {W : Type*} {durMs : ℤ} {call : ℕ → Call}

/-- Callbacks that do nothing but return what is given for their node. -/
def answering (W : Type*) (call : ℕ → Call) : Functions W where
  callback timer world := (world, (call timer.node).returned)
  deleteFn _ world := world

theorem treat_answering (durMs : ℤ) (call : ℕ → Call) (timer : TimerData) (e : Effects W) :
    (treat durMs (answering W call) timer e).1 = (visit durMs call timer e.sleepMs).1 ∧
      (treat durMs (answering W call) timer e).2.sleepMs =
        (visit durMs call timer e.sleepMs).2 := by
  have hms : (callBack (answering W call) timer e).1 =
      if timer.callback ≠ none then (call timer.node).returned else timer.ms := by
    unfold callBack
    split <;> rfl
  have hsleep : (callBack (answering W call) timer e).2.sleepMs = e.sleepMs := by
    unfold callBack
    split <;> rfl
  have hcancel : ∀ e : Effects W, (cancel (answering W call) timer e).sleepMs = e.sleepMs := by
    intro e
    unfold cancel
    split <;> rfl
  unfold treat visit
  split
  · cases hback : callBack (answering W call) timer e with
    | mk ms e' =>
      rw [hback] at hms hsleep
      rw [← hms, ← hsleep]
      by_cases hzero : ms = 0
      · simp only [hzero, if_true, hcancel, and_self]
      · simp only [hzero, if_false, and_self]
  · exact ⟨rfl, rfl⟩

theorem treatAll_answering (timers : List TimerData) (e : Effects W) :
    ((treatAll durMs (answering W call) timers e).1,
      (treatAll durMs (answering W call) timers e).2.sleepMs) =
        visitAll durMs call timers e.sleepMs := by
  induction timers generalizing e with
  | nil => rfl
  | cons timer rest ih =>
    obtain ⟨hkept, hsleep⟩ := treat_answering durMs call timer e
    have hrest := ih (treat durMs (answering W call) timer e).2
    simp only [visitAll, treatAll, ← hkept, ← hsleep, ← hrest]

/-- The passes of the timer thread, which go through the list by recursion, leave the list
and the sleeping time that the loop with its iterator leaves. -/
theorem visitTurn_visitAll (timers : List TimerData) (sleepMs : ℤ) (world : W) :
    ∃ v, Yields (visitTurn durMs (answering W call)) ⟨timers, 0, ⟨sleepMs, world, []⟩⟩ v ∧
      (v.timers, v.effects.sleepMs) = visitAll durMs call timers sleepMs :=
  ⟨_, visitTurn_yields [] timers ⟨sleepMs, world, []⟩, treatAll_answering timers _⟩

end Passes

end BoxUtils.Timer
