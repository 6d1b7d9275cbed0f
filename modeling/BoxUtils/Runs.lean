import Mathlib.Data.List.Basic
import Mathlib.Tactic.Common

/-!
Runs of a labelled system whose step function is partial: an action that is
not enabled has no successor. A property holds throughout a run when every
visited state has it, and a step condition is met by a run when every step
taken starts in a state that meets it. The rules below turn facts about one
step into facts about whole runs, in both directions.
-/
namespace BoxUtils.Runs

variable {S A : Type*} (next : S → A → Option S)

/-- Performs the actions in order; there is no result once one is not enabled. -/
def run : S → List A → Option S
  | s, [] => some s
  | s, a :: as => (next s a).bind fun t => run t as

/-- The starting state and every state visited afterwards have the property. -/
def Throughout (P : S → Prop) : S → List A → Prop
  | s, [] => P s
  | s, a :: as => P s ∧ ∀ t, next s a = some t → Throughout P t as

/-- Every step that is taken starts in a state that meets the condition. -/
def StepsMeet (G : S → A → Prop) : S → List A → Prop
  | _, [] => True
  | s, a :: as => ∀ t, next s a = some t → G s a ∧ StepsMeet G t as

/-- Whether a given run meets a decidable condition can be computed. -/
instance StepsMeet.decidable (G : S → A → Prop) [∀ s a, Decidable (G s a)] :
    ∀ s as, Decidable (StepsMeet next G s as)
  | _, [] => isTrue trivial
  | s, a :: as =>
    match hs : next s a with
    | none => isTrue fun t ht => by rw [hs] at ht; cases ht
    | some t =>
      have := StepsMeet.decidable G t as
      if h : G s a ∧ StepsMeet next G t as then
        isTrue fun u hu => by
          obtain rfl : t = u := Option.some.inj (hs.symm.trans hu)
          exact h
      else isFalse fun hmeet => h (hmeet t hs)

variable {next}

theorem run_cons {s u : S} {a : A} {as : List A} (h : run next s (a :: as) = some u) :
    ∃ t, next s a = some t ∧ run next t as = some u :=
  Option.bind_eq_some_iff.mp h

theorem run_append {s u : S} {as bs : List A} (h : run next s (as ++ bs) = some u) :
    ∃ t, run next s as = some t ∧ run next t bs = some u := by
  induction as generalizing s with
  | nil => exact ⟨s, rfl, h⟩
  | cons a as ih =>
    obtain ⟨m, hm, hrest⟩ := run_cons h
    obtain ⟨t, hrun, hafter⟩ := ih hrest
    exact ⟨t, by rw [run, hm, Option.bind_some, hrun], hafter⟩

/-- What is left of a run meets the condition where the run has got to. -/
theorem StepsMeet.after {G : S → A → Prop} {s t : S} {as bs : List A}
    (h : StepsMeet next G s (as ++ bs)) (hrun : run next s as = some t) :
    StepsMeet next G t bs := by
  induction as generalizing s with
  | nil =>
    obtain rfl : s = t := Option.some.inj hrun
    exact h
  | cons a as ih =>
    obtain ⟨m, hm, hrest⟩ := run_cons hrun
    exact ih (h m hm).2 hrest

theorem StepsMeet.cons {G : S → A → Prop} {s t : S} {a : A} {as : List A}
    (hstep : next s a = some t) (hG : G s a) (h : StepsMeet next G t as) :
    StepsMeet next G s (a :: as) := by
  intro u hu
  obtain rfl : t = u := Option.some.inj (hstep.symm.trans hu)
  exact ⟨hG, h⟩

theorem Throughout.start {P : S → Prop} {s : S} {as : List A}
    (h : Throughout next P s as) : P s := by
  cases as with
  | nil => exact h
  | cons a as => exact h.1

theorem Throughout.final {P : S → Prop} {s t : S} {as : List A}
    (h : Throughout next P s as) (hrun : run next s as = some t) : P t := by
  induction as generalizing s with
  | nil =>
    obtain rfl : s = t := Option.some.inj hrun
    exact h
  | cons a as ih =>
    obtain ⟨m, hm, hrest⟩ := run_cons hrun
    exact ih (h.2 m hm) hrest

theorem Throughout.mono {P Q : S → Prop} {s : S} {as : List A}
    (h : Throughout next P s as) (hPQ : ∀ s, P s → Q s) : Throughout next Q s as := by
  induction as generalizing s with
  | nil => exact hPQ s h
  | cons a as ih => exact ⟨hPQ s h.1, fun t ht => ih (h.2 t ht)⟩

/-- What every step keeps, whatever the action, a whole run keeps. -/
theorem run_keeps {I : S → Prop} (hstep : ∀ s a t, I s → next s a = some t → I t)
    {s t : S} {as : List A} (hs : I s) (hrun : run next s as = some t) : I t := by
  induction as generalizing s with
  | nil =>
    obtain rfl : s = t := Option.some.inj hrun
    exact hs
  | cons a as ih =>
    obtain ⟨m, hm, hrest⟩ := run_cons hrun
    exact ih (hstep s a m hs hm) hrest

/-- And so it holds in every state that the run visits. -/
theorem throughout_of_keeps {I : S → Prop} (hstep : ∀ s a t, I s → next s a = some t → I t)
    {s : S} {as : List A} (hs : I s) : Throughout next I s as := by
  induction as generalizing s with
  | nil => exact hs
  | cons a as ih => exact ⟨hs, fun t ht => ih (hstep s a t hs ht)⟩

/-- Under an invariant that every step keeps, a run meets what every such step meets. -/
theorem stepsMeet_of_keeps {I : S → Prop} {G : S → A → Prop}
    (hstep : ∀ s a t, I s → next s a = some t → I t)
    (hmeets : ∀ s a t, I s → next s a = some t → G s a) {s : S} {as : List A} (hs : I s) :
    StepsMeet next G s as := by
  induction as generalizing s with
  | nil => trivial
  | cons a as ih => exact fun t ht => ⟨hmeets s a t hs ht, ih (hstep s a t hs ht)⟩

section Invariants

variable {I : S → Prop} {G : S → A → Prop}

/-- An invariant kept by every step that meets the condition holds throughout
each run whose steps meet it. -/
theorem throughout_of_stepsMeet
    (hstep : ∀ s a t, I s → G s a → next s a = some t → I t)
    {s : S} {as : List A} (hs : I s) (hG : StepsMeet next G s as) :
    Throughout next I s as := by
  induction as generalizing s with
  | nil => exact hs
  | cons a as ih =>
    refine ⟨hs, fun t ht => ?_⟩
    obtain ⟨hsa, hrest⟩ := hG t ht
    exact ih (hstep s a t hs hsa ht) hrest

/-- Conversely, where a step outside the condition at once breaks the property,
a run that has the property throughout meets the condition at every step. -/
theorem stepsMeet_of_throughout {P : S → Prop}
    (hstep : ∀ s a t, I s → G s a → next s a = some t → I t)
    (hbreak : ∀ s a t, I s → next s a = some t → ¬ G s a → ¬ P t)
    {s : S} {as : List A} (hs : I s) (hP : Throughout next P s as) :
    StepsMeet next G s as := by
  induction as generalizing s with
  | nil => trivial
  | cons a as ih =>
    intro t ht
    have htail : Throughout next P t as := hP.2 t ht
    have hsa : G s a := by
      by_contra hnot
      exact hbreak s a t hs ht hnot htail.start
    exact ⟨hsa, ih (hstep s a t hs hsa ht) htail⟩

/-- The condition is exact when it keeps an invariant that gives the property
and every step outside it breaks the property. -/
theorem throughout_iff_stepsMeet {P : S → Prop}
    (hstep : ∀ s a t, I s → G s a → next s a = some t → I t)
    (hIP : ∀ s, I s → P s)
    (hbreak : ∀ s a t, I s → next s a = some t → ¬ G s a → ¬ P t)
    {s : S} {as : List A} (hs : I s) :
    Throughout next P s as ↔ StepsMeet next G s as :=
  ⟨stepsMeet_of_throughout hstep hbreak hs,
    fun hG => (throughout_of_stepsMeet hstep hs hG).mono hIP⟩

/-- The condition is exact when, under an invariant that every step keeps, a step keeps the
property if and only if it meets the condition. -/
theorem throughout_iff_of_step_iff {P : S → Prop}
    (hstep : ∀ s a t, I s → next s a = some t → I t)
    (hiff : ∀ s a t, I s → P s → next s a = some t → (P t ↔ G s a))
    {s : S} {as : List A} (hs : I s) (hP : P s) :
    Throughout next P s as ↔ StepsMeet next G s as := by
  apply throughout_iff_stepsMeet (I := fun s => I s ∧ P s) _ _ _ ⟨hs, hP⟩
  · intro s a t h hG ht
    exact ⟨hstep s a t h.1 ht, (hiff s a t h.1 h.2 ht).mpr hG⟩
  · exact fun s h => h.2
  · intro s a t h ht hnot hPt
    exact hnot ((hiff s a t h.1 h.2 ht).mp hPt)

/-- Two conditions on steps are met by the same runs when an invariant that the one
keeps makes them agree on every step that is taken. -/
theorem stepsMeet_iff_stepsMeet {F : S → A → Prop}
    (hstep : ∀ s a t, I s → G s a → next s a = some t → I t)
    (hagree : ∀ s a t, I s → next s a = some t → (F s a ↔ G s a))
    {s : S} {as : List A} (hs : I s) : StepsMeet next F s as ↔ StepsMeet next G s as := by
  induction as generalizing s with
  | nil => exact Iff.rfl
  | cons a as ih =>
    constructor
    · intro h t ht
      obtain ⟨hF, hrest⟩ := h t ht
      have hG : G s a := (hagree s a t hs ht).mp hF
      exact ⟨hG, (ih (hstep s a t hs hG ht)).mp hrest⟩
    · intro h t ht
      obtain ⟨hG, hrest⟩ := h t ht
      exact ⟨(hagree s a t hs ht).mpr hG, (ih (hstep s a t hs hG ht)).mpr hrest⟩

end Invariants

section Simulation

variable {V : Type*}

/-- The states a specification may reach when it allows several outcomes of an action. -/
def Reaches (spec : V → A → V → Prop) : V → List A → V → Prop
  | v, [], w => v = w
  | v, a :: as, w => ∃ m, spec v a m ∧ Reaches spec m as w

theorem Reaches.append {spec : V → A → V → Prop} {v m w : V} {as bs : List A}
    (h : Reaches spec v as m) (hnext : Reaches spec m bs w) : Reaches spec v (as ++ bs) w := by
  induction as generalizing v with
  | nil =>
    obtain rfl : v = m := h
    exact hnext
  | cons a as ih =>
    obtain ⟨u, hspec, hrest⟩ := h
    exact ⟨u, hspec, ih hrest⟩

/-- When each step is matched by one of the specification, so is each run. -/
theorem run_simulated {R : S → V → Prop} {spec : V → A → V → Prop}
    (hstep : ∀ s v a t, R s v → next s a = some t → ∃ w, spec v a w ∧ R t w)
    {s t : S} {v : V} {as : List A} (hR : R s v) (hrun : run next s as = some t) :
    ∃ w, Reaches spec v as w ∧ R t w := by
  induction as generalizing s v with
  | nil =>
    obtain rfl : s = t := Option.some.inj hrun
    exact ⟨v, rfl, hR⟩
  | cons a as ih =>
    obtain ⟨m, hm, hrest⟩ := run_cons hrun
    obtain ⟨u, hspec, hu⟩ := hstep s v a m hR hm
    obtain ⟨w, hreach, hw⟩ := ih hu hrest
    exact ⟨w, ⟨u, hspec, hreach⟩, hw⟩

end Simulation

end BoxUtils.Runs
