import BoxUtils.RefPtrCounts

/-!
`RefPtr` handles that are empty. A handle is emptied by being moved from and by
`reset()`, and may then be used in every operation. The moves, the destructor and
`reset()` test for the null pointer; the copies do not, and `reset(ptr)` does nothing
on an empty handle. Where the code follows a null pointer the operation has no result,
and the state stays as it is for the rest of the sequence.
-/
namespace BoxUtils.RefPtr

open Runs Counting

/-- Handles are constructed once and used while they live, and raw pointers are fresh;
handles may be empty everywhere. -/
def Used (s : State) : Op → Prop
  | .make h p => h ∉ s.live ∧ p ∉ s.managed
  | .copyConstruct h src | .moveConstruct h src => h ∉ s.live ∧ src ∈ s.live
  | .copyAssign h src | .moveAssign h src => h ∈ s.live ∧ src ∈ s.live
  | .reset h | .destroy h => h ∈ s.live
  | .resetPtr h p => h ∈ s.live ∧ p ∉ s.managed

instance (s : State) : ∀ op, Decidable (Used s op)
  | .make _ _ | .copyConstruct _ _ | .moveConstruct _ _ | .copyAssign _ _ | .moveAssign _ _
  | .resetPtr _ _ => inferInstanceAs (Decidable (_ ∧ _))
  | .reset h | .destroy h => inferInstanceAs (Decidable (h ∈ s.live))

def nextUsed (s : State) (op : Op) : Option State :=
  if Used s op then some ((perform s op).getD s) else none

/-- What an operation leaves: a copy or move of an empty handle is empty, and after
`reset(ptr)` the handle owns the object, alone. -/
def Leaves (s t : State) : Op → Prop
  | .copyConstruct h src | .moveConstruct h src | .copyAssign h src | .moveAssign h src =>
    (s.handle src).ptr = none → t.handle h = ⟨none, none⟩
  | .resetPtr h p =>
    p ∉ t.deleted ∧ ∃ c, t.handle h = ⟨some c, some p⟩ ∧ t.counts.cell c = some 1
  | _ => True

def SafeOnEmpty (s : State) (op : Op) : Prop := ∃ t, perform s op = some t ∧ Leaves s t op

/-- Copies are taken of handles that are not empty, and `reset(ptr)` is called on handles
that share their object with another one. -/
def AvoidsEmpty (s : State) : Op → Prop
  | .copyConstruct _ src => (s.handle src).ptr ≠ none
  | .copyAssign h src => h ≠ src → (s.handle src).ptr ≠ none
  | .resetPtr h _ => ∃ c, s.counter h = some c ∧ 1 < refs s.live s.counter c
  | _ => True

section Operations

variable {obj : ℕ → ℕ} {s t : State} {h src p : ℕ} {op : Op}

/-- An empty handle has neither pointer. -/
theorem Owned.handle_eq (w : Owned s.live obj s) (hh : h ∈ s.live)
    (hnull : (s.handle h).ptr = none) : s.handle h = ⟨none, none⟩ :=
  congrArg₂ Handle.mk ((w.null_iff hh).mp hnull) hnull

theorem Owned.moveConstruct_leaves (w : Owned s.live obj s)
    (hused : Used s (.moveConstruct h src)) : SafeOnEmpty s (.moveConstruct h src) := by
  obtain ⟨hh, hsrc⟩ := hused
  have hne : h ≠ src := by
    rintro rfl
    exact hh hsrc
  refine ⟨_, rfl, fun hnull => ?_⟩
  simp [State.setHandle, hne, w.handle_eq hsrc hnull]

theorem Owned.moveAssign_leaves (w : Owned s.live obj s)
    (hused : Used s (.moveAssign h src)) : SafeOnEmpty s (.moveAssign h src) := by
  obtain ⟨hh, hsrc⟩ := hused
  by_cases heq : h = src
  · subst heq
    exact ⟨s, by simp [perform], w.handle_eq hsrc⟩
  · obtain ⟨m, hm, -, hkeep, -, -⟩ := w.reset hh
    refine ⟨_, by simp [perform, heq, hm]; rfl, fun hnull => ?_⟩
    simp [State.setHandle, heq, hkeep src (Ne.symm heq), w.handle_eq hsrc hnull]

/-- A copy of an empty handle follows its null count pointer. -/
theorem Owned.copyConstruct_iff (w : Owned s.live obj s) (hused : Used s (.copyConstruct h src)) :
    SafeOnEmpty s (.copyConstruct h src) ↔ (s.handle src).ptr ≠ none := by
  obtain ⟨hh, hsrc⟩ := hused
  constructor
  · rintro ⟨t, ht, -⟩ hnull
    simp [perform, State.retain, w.handle_eq hsrc hnull] at ht
  · intro hptr
    obtain ⟨t, ht, -⟩ := w.copyConstruct ⟨hh, hsrc, hptr⟩
    exact ⟨t, ht, fun hnull => absurd hnull hptr⟩

theorem Owned.copyAssign_iff (w : Owned s.live obj s) (hused : Used s (.copyAssign h src)) :
    SafeOnEmpty s (.copyAssign h src) ↔ (h ≠ src → (s.handle src).ptr ≠ none) := by
  obtain ⟨hh, hsrc⟩ := hused
  by_cases heq : h = src
  · subst heq
    exact iff_of_true ⟨s, by simp [perform], w.handle_eq hsrc⟩ fun hne => absurd rfl hne
  · constructor
    · rintro ⟨t, ht, -⟩ - hnull
      obtain ⟨m, hm, -, hkeep, -, -⟩ := w.reset hh
      have hsource : m.handle src = ⟨none, none⟩ := by
        rw [hkeep src (Ne.symm heq), w.handle_eq hsrc hnull]
      simp [perform, heq, hm, State.retain, hsource] at ht
    · intro hptr
      obtain ⟨t, ht, -⟩ := w.copyAssign ⟨hh, hsrc, hptr heq⟩
      exact ⟨t, ht, fun hnull => absurd hnull (hptr heq)⟩

/-- The new object is owned after `reset(ptr)` unless the handle was empty, when nothing
is done, or owned its object alone, when the new one is deleted. -/
theorem Owned.resetPtr_iff (w : Owned s.live obj s) (hused : Used s (.resetPtr h p)) :
    SafeOnEmpty s (.resetPtr h p) ↔ AvoidsEmpty s (.resetPtr h p) := by
  obtain ⟨hh, hp⟩ := hused
  cases hc : s.counter h with
  | none =>
    have hnull : (s.handle h).ptr = none := (w.null_iff hh).mpr hc
    refine iff_of_false ?_ ?_
    · rintro ⟨t, ht, -, c, hhandle, -⟩
      rw [perform, State.resetPtr, if_pos hnull] at ht
      obtain rfl := Option.some.inj ht
      simp [hhandle] at hnull
    · rintro ⟨c, hc', -⟩
      rw [hc] at hc'
      cases hc'
  | some c =>
    have hptr : (s.handle h).ptr ≠ none := fun hnull => by
      have hnone : s.counter h = none := (w.null_iff hh).mp hnull
      rw [hc] at hnone
      cases hnone
    have hcount : (s.handle h).refcount = some c := hc
    have hcell := w.cell_counter hh hc
    constructor
    · rintro ⟨t, ht, halive, -⟩
      refine ⟨c, hc, ?_⟩
      by_contra hlast
      have hnot : ¬ ResetsShared s (.resetPtr h p) := fun hshared => hlast (hshared c hc)
      obtain ⟨t', ht', -, hdeleted, -⟩ := resetPtr_last w ⟨hh, hptr, hp⟩ hnot
      obtain rfl : t' = t := Option.some.inj (ht'.symm.trans ht)
      exact halive hdeleted
    · rintro ⟨d, hd, hmore⟩
      obtain rfl : c = d := Option.some.inj (hc.symm.trans hd)
      have hrelease := State.release_shared (some p) hcell (by omega)
      refine ⟨_, by rw [perform, State.resetPtr, if_neg hptr, hcount, hrelease]; rfl, ?_, ?_⟩
      · exact w.unmanaged p hp
      · exact ⟨_, by simp [State.adopt, State.setHandle]; rfl, by simp [State.adopt]⟩

theorem Owned.op_safe_iff (w : Owned s.live obj s) (hused : Used s op) :
    SafeOnEmpty s op ↔ AvoidsEmpty s op := by
  cases op with
  | make h p => exact iff_of_true ⟨_, rfl, trivial⟩ trivial
  | copyConstruct h src => exact w.copyConstruct_iff hused
  | moveConstruct h src => exact iff_of_true (w.moveConstruct_leaves hused) trivial
  | copyAssign h src => exact w.copyAssign_iff hused
  | moveAssign h src => exact iff_of_true (w.moveAssign_leaves hused) trivial
  | reset h =>
    obtain ⟨t, ht, -⟩ := w.reset hused
    exact iff_of_true ⟨t, ht, trivial⟩ trivial
  | resetPtr h p => exact w.resetPtr_iff hused
  | destroy h =>
    obtain ⟨t, ht, -⟩ := w.destroy hused
    exact iff_of_true ⟨t, ht, trivial⟩ trivial

/-- An operation that avoids empty handles is one of those that keep the counts, or copies
a handle onto itself. -/
theorem Owned.nextUsed (w : Owned s.live obj s) (hG : AvoidsEmpty s op)
    (hstep : nextUsed s op = some t) : Valid t := by
  obtain ⟨hused, hstep⟩ := Option.ite_none_right_eq_some.mp hstep
  obtain rfl := Option.some.inj hstep
  by_cases hself : ∃ h, op = .copyAssign h h
  · obtain ⟨h, rfl⟩ := hself
    exact ⟨obj, by simpa [perform] using w⟩
  · have hlegal : Legal s op ∧ ResetsShared s op := by
      cases op with
      | copyConstruct h src => exact ⟨⟨hused.1, hused.2, hG⟩, trivial⟩
      | copyAssign h src =>
        have hne : h ≠ src := by
          rintro rfl
          exact hself ⟨h, rfl⟩
        exact ⟨⟨hused.1, hused.2, hG hne⟩, trivial⟩
      | resetPtr h p =>
        obtain ⟨c, hc, hmore⟩ := hG
        refine ⟨⟨hused.1, fun hnull => ?_, hused.2⟩, fun d hd => ?_⟩
        · have hnone : s.counter h = none := (w.null_iff hused.1).mp hnull
          rw [hc] at hnone
          cases hnone
        · rw [hc] at hd
          cases hd
          exact hmore
      | _ => exact ⟨hused, trivial⟩
    obtain ⟨t, obj', ht, hown⟩ := step_owned w hlegal.1 hlegal.2
    rw [ht]
    exact ⟨obj', hown⟩

end Operations

/-- Over any sequence of operations on handles that may be empty, every operation is safe
if and only if no empty handle is copied and `reset(ptr)` is only called on handles that
share their object. -/
theorem safeOnEmpty_iff (ops : List Op) :
    StepsMeet nextUsed SafeOnEmpty init ops ↔ StepsMeet nextUsed AvoidsEmpty init ops := by
  apply stepsMeet_iff_stepsMeet (I := Valid) _ _ ⟨id, owned_init⟩
  · rintro s op t ⟨obj, w⟩ hG hstep
    exact w.nextUsed hG hstep
  · rintro s op t ⟨obj, w⟩ hstep
    obtain ⟨hused, hstep⟩ := Option.ite_none_right_eq_some.mp hstep
    exact w.op_safe_iff hused

/-- A handle that was reset is copied. -/
theorem empty_copied : ¬ ∀ ops : List Op, StepsMeet nextUsed SafeOnEmpty init ops := by
  intro h
  obtain ⟨-, hrest⟩ := h [.make 0 1, .reset 0, .copyConstruct 1 0] _ rfl
  obtain ⟨-, hrest⟩ := hrest _ rfl
  obtain ⟨⟨t, ht, -⟩, -⟩ := hrest _ rfl
  cases ht

end BoxUtils.RefPtr
