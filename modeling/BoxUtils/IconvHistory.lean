import BoxUtils.Iconv

/-!
One `Iconv` object over many conversions. The library's converter is any
deterministic machine that keeps to the contract of `iconv`: `iconv_open` puts it
in its initial state and each call advances it. `convert` neither resets it before
the loop nor after it, so a conversion starts where the one before stopped, on its
normal end and on an exception alike. `reset` is left to the caller.
-/
namespace BoxUtils.Iconv

open Runs

structure Codec (Q : Type*) where
  start : Q
  /-- A call with this input and this much space. -/
  call : Q → List UInt8 → ℕ → Answer × Q
  consumed_le : ∀ q input space, (call q input space).1.consumed ≤ input.length
  written_le : ∀ q input space, (call q input space).1.written.length ≤ space
  success : ∀ q input space, (call q input space).1.status = .success →
    (call q input space).1.consumed = input.length

/-- How a conversion ends. -/
inductive Result
  | bytes (out : List UInt8)
  | error (errno : ℤ)
  /-- The output vector was overrun. -/
  | undefined
  deriving DecidableEq, Repr

def State.result (s : State) : Result :=
  if s.overrun then .undefined
  else match s.thrown with
    | some errno => .error errno
    | none => .bytes s.output

inductive Call
  | convert (str : List UInt8)
  | reset
  deriving DecidableEq, Repr

section Source

variable {Q : Type*} (codec : Codec Q)

/-- The loop of `convert`, for at most so many rounds. -/
def convertLoop : ℕ → State → Q → Option (State × Q)
  | rounds, s, q =>
    if s.Calling then
      match rounds with
      | 0 => none
      | rounds + 1 =>
        let (answer, q) := codec.call q s.input s.outsize
        (next s answer).bind fun s => convertLoop rounds s q
    else some (s, q)

/-- `convert` started in the state q ends this way and leaves the machine in q'. -/
def Converts (q : Q) (str : List UInt8) (result : Result) (q' : Q) : Prop :=
  ∃ rounds s, convertLoop codec rounds (init str) q = some (s, q') ∧ s.result = result

/-- A call on the object, which is over when it has returned or thrown. -/
def After (q : Q) : Call → Q → Prop
  | .convert str, q' => ∃ result, result ≠ .undefined ∧ Converts codec q str result q'
  | .reset, q' => q' = codec.start

end Source

section Histories

variable {Q : Type*} (codec : Codec Q)

/-- The answers to calls of `iconv` one after the other. -/
def answers : Q → List (List UInt8 × ℕ) → List Answer
  | _, [] => []
  | q, (input, space) :: calls =>
    (codec.call q input space).1 :: answers (codec.call q input space).2 calls

/-- States that no calls of `iconv` tell apart. -/
def Alike (q q' : Q) : Prop := ∀ calls, answers codec q calls = answers codec q' calls

/-- Converting these inputs on a fresh descriptor ends in a state like the initial one. -/
def Restores (strs : List (List UInt8)) : Prop :=
  ∀ q, Reaches (After codec) codec.start (strs.map .convert) q → Alike codec q codec.start

def collect (strs : List (List UInt8)) : Call → List (List UInt8)
  | .convert str => strs ++ [str]
  | .reset => []

/-- What has been converted since the descriptor was opened or reset. -/
def sinceReset (history : List Call) : List (List UInt8) := history.foldl collect []

/-- The conversion of this input ends in the same ways from both states. -/
def SameResults (q q' : Q) (str : List UInt8) : Prop :=
  ∀ result, (∃ t, Converts codec q str result t) ↔ ∃ t, Converts codec q' str result t

end Histories

section Proofs

variable {Q : Type*} {codec : Codec Q} {q q' t : Q} {s u : State} {rounds : ℕ}

theorem Alike.refl (q : Q) : Alike codec q q := fun _ => rfl

theorem Alike.symm (h : Alike codec q q') : Alike codec q' q := fun calls => (h calls).symm

theorem Alike.trans (h : Alike codec q q') (h' : Alike codec q' t) : Alike codec q t :=
  fun calls => (h calls).trans (h' calls)

/-- A call answers the same in both states and leaves states that are alike again. -/
theorem Alike.call (h : Alike codec q q') (input : List UInt8) (space : ℕ) :
    (codec.call q input space).1 = (codec.call q' input space).1 ∧
      Alike codec (codec.call q input space).2 (codec.call q' input space).2 := by
  have hcons : ∀ calls,
      (codec.call q input space).1 :: answers codec (codec.call q input space).2 calls =
        (codec.call q' input space).1 :: answers codec (codec.call q' input space).2 calls :=
    fun calls => h ((input, space) :: calls)
  constructor
  · exact (List.cons.inj (hcons [])).1
  · intro calls
    exact (List.cons.inj (hcons calls)).2

theorem convertLoop_done (hdone : ¬ s.Calling) :
    convertLoop codec rounds s q = some (s, q) := by
  cases rounds with
  | zero => rw [convertLoop, if_neg hdone]
  | succ rounds => rw [convertLoop, if_neg hdone]

theorem convertLoop_round (hcalling : s.Calling) :
    convertLoop codec (rounds + 1) s q =
      (next s (codec.call q s.input s.outsize).1).bind fun u =>
        convertLoop codec rounds u (codec.call q s.input s.outsize).2 := by
  rw [convertLoop, if_pos hcalling]

theorem convertLoop_none (hcalling : s.Calling) : convertLoop codec 0 s q = none := by
  rw [convertLoop, if_pos hcalling]

theorem convertLoop_alike (h : Alike codec q q')
    (hloop : convertLoop codec rounds s q = some (u, t)) :
    ∃ t', convertLoop codec rounds s q' = some (u, t') ∧ Alike codec t t' := by
  induction rounds generalizing s q q' with
  | zero =>
    by_cases hcalling : s.Calling
    · rw [convertLoop_none hcalling] at hloop
      cases hloop
    · rw [convertLoop_done hcalling] at hloop
      obtain ⟨rfl, rfl⟩ := Prod.mk.inj (Option.some.inj hloop)
      exact ⟨q', convertLoop_done hcalling, h⟩
  | succ rounds ih =>
    by_cases hcalling : s.Calling
    · obtain ⟨hanswer, halike⟩ := h.call s.input s.outsize
      rw [convertLoop_round hcalling] at hloop
      obtain ⟨m, hm, hrest⟩ := Option.bind_eq_some_iff.mp hloop
      obtain ⟨t', hloop', ht'⟩ := ih halike hrest
      refine ⟨t', ?_, ht'⟩
      rw [convertLoop_round hcalling, ← hanswer, hm, Option.bind_some]
      exact hloop'
    · rw [convertLoop_done hcalling] at hloop
      obtain ⟨rfl, rfl⟩ := Prod.mk.inj (Option.some.inj hloop)
      exact ⟨q', convertLoop_done hcalling, h⟩

theorem Alike.converts (h : Alike codec q q') {str : List UInt8} {result : Result}
    (hconv : Converts codec q str result t) :
    ∃ t', Converts codec q' str result t' ∧ Alike codec t t' := by
  obtain ⟨rounds, s, hloop, hresult⟩ := hconv
  obtain ⟨t', hloop', halike⟩ := convertLoop_alike h hloop
  exact ⟨t', ⟨rounds, s, hloop', hresult⟩, halike⟩

/-- Conversions do not tell states apart that calls do not. -/
theorem Alike.sameResults (h : Alike codec q q') (str : List UInt8) :
    SameResults codec q q' str := by
  intro result
  constructor
  · rintro ⟨t, ht⟩
    obtain ⟨t', ht', -⟩ := h.converts ht
    exact ⟨t', ht'⟩
  · rintro ⟨t, ht⟩
    obtain ⟨t', ht', -⟩ := h.symm.converts ht
    exact ⟨t', ht'⟩

theorem convertLoop_le {r : State × Q} {more : ℕ} (hle : rounds ≤ more)
    (h : convertLoop codec rounds s q = some r) : convertLoop codec more s q = some r := by
  induction rounds generalizing s q more with
  | zero =>
    by_cases hcalling : s.Calling
    · rw [convertLoop_none hcalling] at h
      cases h
    · rw [convertLoop_done hcalling] at h ⊢
      exact h
  | succ rounds ih =>
    by_cases hcalling : s.Calling
    · obtain ⟨more, rfl⟩ := Nat.exists_eq_add_of_lt hle
      have hmore : rounds ≤ rounds + more := Nat.le_add_right rounds more
      rw [convertLoop_round hcalling] at h ⊢
      obtain ⟨m, hm, hrest⟩ := Option.bind_eq_some_iff.mp h
      rw [hm, Option.bind_some]
      exact ih hmore hrest
    · rw [convertLoop_done hcalling] at h ⊢
      exact h

/-- A conversion ends in one way. -/
theorem Converts.unique {str : List UInt8} {result result' : Result}
    (h : Converts codec q str result t) (h' : Converts codec q str result' q') :
    result = result' ∧ t = q' := by
  obtain ⟨rounds, s, hloop, rfl⟩ := h
  obtain ⟨rounds', s', hloop', rfl⟩ := h'
  have hone := convertLoop_le (Nat.le_max_left rounds rounds') hloop
  have htwo := convertLoop_le (Nat.le_max_right rounds rounds') hloop'
  obtain ⟨rfl, rfl⟩ := Prod.mk.inj (Option.some.inj (hone.symm.trans htwo))
  exact ⟨rfl, rfl⟩

/-- The state depends on the calls since the last reset only. The induction runs over
the calls, with the inputs collected so far. -/
theorem reaches_collect {history : List Call} (strs : List (List UInt8))
    (hstrs : Reaches (After codec) codec.start (strs.map .convert) q)
    (hreach : Reaches (After codec) q history t) :
    Reaches (After codec) codec.start ((history.foldl collect strs).map .convert) t := by
  induction history generalizing q strs with
  | nil =>
    obtain rfl : q = t := hreach
    exact hstrs
  | cons call history ih =>
    obtain ⟨m, hafter, hrest⟩ := hreach
    refine ih _ ?_ hrest
    cases call with
    | convert str =>
      have hlast : Reaches (After codec) q [.convert str] m := ⟨m, hafter, rfl⟩
      have hboth := hstrs.append hlast
      rw [collect, List.map_append]
      exact hboth
    | reset =>
      obtain rfl : m = codec.start := hafter
      exact rfl

/-- Inputs that each restore the initial state do so one after the other. -/
theorem restores_of_each {strs : List (List UInt8)} (h : ∀ str ∈ strs, Restores codec [str]) :
    Restores codec strs := by
  have hall : ∀ q, Alike codec q codec.start → ∀ t,
      Reaches (After codec) q (strs.map .convert) t → Alike codec t codec.start := by
    induction strs with
    | nil =>
      intro q halike t hreach
      obtain rfl : q = t := hreach
      exact halike
    | cons str strs ih =>
      intro q halike t hreach
      obtain ⟨m, ⟨result, hdefined, hconv⟩, hrest⟩ := hreach
      obtain ⟨m', hconv', hm⟩ := halike.converts hconv
      have hfresh : Alike codec m' codec.start :=
        h str (by simp) m' ⟨m', ⟨result, hdefined, hconv'⟩, rfl⟩
      exact ih (fun s hs => h s (by simp [hs])) m (hm.trans hfresh) t hrest
  intro q hreach
  exact hall codec.start (Alike.refl _) q hreach

end Proofs

section Results

variable {Q : Type*} (codec : Codec Q) {q : Q} {history : List Call}

/-- Where the inputs since the last reset lead a fresh descriptor back to a state like the
initial one, a conversion ends as on a fresh descriptor. -/
theorem convert_independent_of_history (hreach : Reaches (After codec) codec.start history q)
    (hrestores : Restores codec (sinceReset history)) (str : List UInt8) :
    SameResults codec q codec.start str := by
  have hsince := reaches_collect [] (rfl : codec.start = codec.start) hreach
  exact (hrestores q hsince).sameResults str

/-- After a reset nothing of the history is left, whatever was converted before. -/
theorem restores_sinceReset_append (history : List Call) :
    Restores codec (sinceReset (history ++ [.reset])) := by
  rw [sinceReset, List.foldl_append]
  intro q hreach
  obtain rfl : codec.start = q := hreach
  exact Alike.refl _

end Results

section Shifting

/-- An encoding with two shift states: 14 and 15 switch, and are not output. -/
def shift : Bool → List UInt8 → List UInt8 × Bool
  | q, [] => ([], q)
  | q, b :: input =>
    if b = 14 then shift true input
    else if b = 15 then shift false input
    else ((if q then b + 128 else b) :: (shift q input).1, (shift q input).2)

theorem length_shift_le (q : Bool) (input : List UInt8) :
    (shift q input).1.length ≤ input.length := by
  induction input generalizing q with
  | nil => exact Nat.le_refl 0
  | cons b input ih =>
    have htrue := ih true
    have hfalse := ih false
    have hsame := ih q
    rw [shift]
    split_ifs <;> (simp only [List.length_cons]; omega)

/-- The converter of this encoding; it wants space for the whole input. -/
def shiftCodec : Codec Bool where
  start := false
  call q input space :=
    if input.length ≤ space then
      (⟨input.length, (shift q input).1, .success⟩, (shift q input).2)
    else (⟨0, [], .e2big⟩, q)
  consumed_le q input space := by
    split
    · exact Nat.le_refl _
    · exact Nat.zero_le _
  written_le q input space := by
    have hlen := length_shift_le q input
    split <;> (simp only [List.length_nil]; omega)
  success q input space := by
    split
    · intro _
      rfl
    · intro h
      cases h

/-- "SO" leaves the second shift state; "SO a SI" comes back. -/
theorem shift_out : Converts shiftCodec false [14] (.bytes []) true := by
  refine ⟨1, _, rfl, ?_⟩
  decide

theorem shift_in : Converts shiftCodec false [14, 97, 15] (.bytes [225]) false := by
  refine ⟨1, _, rfl, ?_⟩
  decide

/-- What was converted before the reset is no matter, and "SO a SI" restores the state. -/
theorem convert_independent_shift :
    ∃ q, Reaches (After shiftCodec) shiftCodec.start
        [.convert [14], .reset, .convert [14, 97, 15]] q ∧
      ∀ str, SameResults shiftCodec q shiftCodec.start str := by
  have hreach : Reaches (After shiftCodec) shiftCodec.start
      [.convert [14], .reset, .convert [14, 97, 15]] false :=
    ⟨true, ⟨.bytes [], by decide, shift_out⟩, false, rfl, false,
      ⟨.bytes [225], by decide, shift_in⟩, rfl⟩
  have hrestores : Restores shiftCodec [[14, 97, 15]] := by
    rintro q ⟨m, ⟨result, -, hconv⟩, rfl⟩
    obtain ⟨-, rfl⟩ := hconv.unique shift_in
    exact Alike.refl _
  exact ⟨false, hreach, convert_independent_of_history shiftCodec hreach hrestores⟩

/-- After "SO" the letter a is converted to another byte than on a fresh descriptor. -/
theorem convert_depends_on_history :
    ¬ ∀ (codec : Codec Bool) (history : List Call) (q : Bool),
      Reaches (After codec) codec.start history q →
        ∀ str, SameResults codec q codec.start str := by
  intro h
  have hreach : Reaches (After shiftCodec) shiftCodec.start [.convert [14]] true :=
    ⟨true, ⟨.bytes [], by decide, shift_out⟩, rfl⟩
  have hshifted : Converts shiftCodec true [97] (.bytes [225]) true := ⟨1, _, rfl, by decide⟩
  have hfresh : Converts shiftCodec false [97] (.bytes [97]) false := ⟨1, _, rfl, by decide⟩
  obtain ⟨t, ht⟩ := (h shiftCodec [.convert [14]] true hreach [97] (.bytes [225])).mp
    ⟨true, hshifted⟩
  have hsame := (ht.unique hfresh).1
  cases hsame

end Shifting

end BoxUtils.Iconv
