import BoxUtils.Iconv

/-!
What a conversion makes of its output. The running pointer is rebuilt from its offset after
each resize, and the counter of the bytes follows it; nothing is appended to the output
before the loop is over, so that an exception leaves it alone.
-/
namespace BoxUtils.Iconv

section Source

/-- The output string in a state; it is touched by the `append` behind the loop only. -/
def State.out (s : State) (out : List UInt8) : List UInt8 :=
  if s.thrown = none ∧ s.input = [] then out ++ s.output else out

/-- The state after so many rounds, when the calls of `iconv` do what they are said to. -/
def rounds (str : List UInt8) (calls : ℕ → Answer) : ℕ → Option State
  | 0 => some (init str)
  | i + 1 => (rounds str calls i).bind fun s => next s (calls i)

end Source

/-- Every call that is made conforms and writes inside the vector. -/
def Behaves (str : List UInt8) (calls : ℕ → Answer) : Prop :=
  ∀ i s, rounds str calls i = some s → s.Calling → Conforms s (calls i) ∧ Inside s (calls i)

/-- Every call that is offered 100 bytes or more consumes some input. -/
def Consumes (str : List UInt8) (calls : ℕ → Answer) : Prop :=
  ∀ i s, rounds str calls i = some s → s.Calling → 100 ≤ s.outsize → 0 < (calls i).consumed

/-- What the calls of the first rounds wrote. -/
def produced (calls : ℕ → Answer) (i : ℕ) : List UInt8 :=
  (List.range i).flatMap fun j => (calls j).written

/-- The bytes of a conversion, added to an output string. -/
structure AccountsForAll (str out : List UInt8) (calls : ℕ → Answer) : Prop where
  head : ∀ i s, rounds str calls i = some s → s.thrown = none → s.outputByte = s.outbuf
  done : ∀ i s, rounds str calls i = some s → s.thrown = none → s.input = [] →
    s.out out = out ++ produced calls i
  unchanged : ∀ i s, rounds str calls i = some s → s.thrown ≠ none → s.out out = out
  terminates : Consumes str calls → ∃ i s, i ≤ str.length + 1 ∧ rounds str calls i = some s ∧
    ¬ s.Calling

section Rounds

variable {s t : State} {a : Answer} {str out : List UInt8} {calls : ℕ → Answer} {i : ℕ}

/-- The invariant of the loop, with all that has been written so far. -/
theorem rounds_accounted (h : Behaves str calls) (hrounds : rounds str calls i = some s) :
    Accounted s ∧ (s.thrown = none → s.output = produced calls i) := by
  induction i generalizing s with
  | zero =>
    obtain rfl := Option.some.inj hrounds
    exact ⟨accounted_init str, fun _ => rfl⟩
  | succ i ih =>
    obtain ⟨m, hm, hstep⟩ := Option.bind_eq_some_iff.mp hrounds
    obtain ⟨haccounted, houtput⟩ := ih hm
    have hcalling := (next_cases hstep).1
    have hin := (h i m hm hcalling).2
    refine ⟨next_accounted haccounted hin hstep, fun hthrown => ?_⟩
    rw [step_output hin (haccounted.counted hcalling.2) hstep hthrown, houtput hcalling.2,
      produced, produced, List.range_succ, List.flatMap_append, List.flatMap_singleton]

theorem next_defined (hcalling : s.Calling) (hconf : Conforms s a) : ∃ t, next s a = some t := by
  unfold next
  rw [if_pos ⟨hcalling, hconf⟩]
  cases a.status with
  | success => exact ⟨_, rfl⟩
  | e2big => exact ⟨_, rfl⟩
  | failure errno => exact ⟨_, rfl⟩

/-- The loop goes on only after a resize, which leaves at least 100 bytes to offer. -/
theorem next_calling (hstep : next s a = some t) (hcalling : t.Calling) :
    t.input.length = s.input.length - a.consumed ∧ 100 ≤ t.outsize := by
  obtain ⟨-, hconf, hcases⟩ := next_cases hstep
  rcases hcases with ⟨hstatus, rfl⟩ | ⟨-, size, hsize, rfl⟩ | ⟨errno, -, rfl⟩
  · have hall := hconf.2.2 hstatus
    have hempty : s.input.drop a.consumed = [] := List.drop_eq_nil_of_le (Nat.le_of_eq hall.symm)
    exact absurd hempty hcalling.1
  · refine ⟨List.length_drop, ?_⟩
    change 100 ≤ size
    omega
  · cases hcalling.2

/-- Each round but the first takes some of the input, until the loop is over. -/
theorem rounds_end (h : Behaves str calls) (hconsumes : Consumes str calls) (i : ℕ) :
    (∃ s, rounds str calls i = some s ∧ s.Calling ∧ s.input.length + (i - 1) ≤ str.length ∧
        (0 < i → 100 ≤ s.outsize)) ∨
      ∃ j s, j ≤ i ∧ rounds str calls j = some s ∧ ¬ s.Calling := by
  induction i with
  | zero =>
    by_cases hcalling : (init str).Calling
    · exact Or.inl ⟨init str, rfl, hcalling, Nat.le_refl _, nofun⟩
    · exact Or.inr ⟨0, init str, Nat.le_refl _, rfl, hcalling⟩
  | succ i ih =>
    rcases ih with ⟨s, hs, hcalling, hbound, hoffer⟩ | ⟨j, s, hj, hs, hdone⟩
    · obtain ⟨t, ht⟩ := next_defined hcalling (h i s hs hcalling).1
      have hrounds : rounds str calls (i + 1) = some t := by rw [rounds, hs, Option.bind_some, ht]
      by_cases hagain : t.Calling
      · obtain ⟨hinput, hmore⟩ := next_calling ht hagain
        refine Or.inl ⟨t, hrounds, hagain, ?_, fun _ => hmore⟩
        by_cases hi : 0 < i
        · have hconsumed := hconsumes i s hs hcalling (hoffer hi)
          have hleft := List.length_pos_iff.mpr hagain.1
          omega
        · omega
      · exact Or.inr ⟨i + 1, t, Nat.le_refl _, hrounds, hagain⟩
    · exact Or.inr ⟨j, s, Nat.le_succ_of_le hj, hs, hdone⟩

/-- No call is made once the loop is over. -/
theorem rounds_after {j : ℕ} (hs : rounds str calls i = some s) (hdone : ¬ s.Calling)
    (hij : i < j) : rounds str calls j = none := by
  induction hij with
  | refl =>
    rw [rounds, hs, Option.bind_some, next]
    exact if_neg fun hand => hdone hand.1
  | step _ ih => rw [rounds, ih, Option.bind_none]

end Rounds

/-- A conversion by an `iconv` that conforms and writes inside the vector. -/
theorem accountsForAll {str : List UInt8} {calls : ℕ → Answer} (h : Behaves str calls)
    (out : List UInt8) : AccountsForAll str out calls := by
  constructor
  · intro i s hs hthrown
    exact (rounds_accounted h hs).1.counted hthrown
  · intro i s hs hthrown hinput
    rw [State.out, if_pos ⟨hthrown, hinput⟩, (rounds_accounted h hs).2 hthrown]
  · intro i s hs hthrown
    rw [State.out, if_neg fun hand => hthrown hand.1]
  · intro hconsumes
    rcases rounds_end h hconsumes (str.length + 1) with ⟨s, hs, hcalling, hbound, -⟩ | hdone
    · have hleft := List.length_pos_iff.mpr hcalling.1
      omega
    · exact hdone

/-- A byte order mark fills the vector before the "a" is converted. -/
def markFirst : ℕ → Answer
  | 0 => ⟨0, [255, 254], .e2big⟩
  | _ + 1 => ⟨1, [97, 0], .success⟩

theorem markFirst_behaves : Behaves [97] markFirst := by
  intro i s hs hcalling
  match i with
  | 0 =>
    obtain rfl := Option.some.inj (show some _ = some s from hs)
    decide
  | 1 =>
    obtain rfl := Option.some.inj (show some _ = some s from hs)
    decide
  | 2 =>
    obtain rfl := Option.some.inj (show some _ = some s from hs)
    exact absurd hcalling (by decide)
  | n + 3 =>
    obtain ⟨t, ht, hdone⟩ : ∃ t, rounds [97] markFirst 2 = some t ∧ ¬ t.Calling :=
      ⟨_, rfl, by decide⟩
    have hnone := rounds_after (j := n + 3) ht hdone (by omega)
    cases hnone.symm.trans hs

theorem accountsForAll_mark : AccountsForAll [97] [98] markFirst :=
  accountsForAll markFirst_behaves [98]

end BoxUtils.Iconv
