import BoxUtils.Runs
import Mathlib.Data.Int.Notation
import Mathlib.Data.Nat.Notation

/-!
The loop of `Iconv::convert`. The library function is any that conforms to its
contract: an action is what one call did. When the output space is used up the
vector is resized, and the space that is offered from then on counts the bytes
that have been written already as if they were free.
-/
namespace BoxUtils.Iconv

open Runs

inductive Status
  | success
  | e2big
  | failure (errno : ℤ)
  deriving DecidableEq, Repr

/-- What a call of `iconv` did: how much it consumed, what it wrote, how it ended. -/
structure Answer where
  consumed : ℕ
  written : List UInt8
  status : Status
  deriving DecidableEq, Repr

structure State where
  /-- The bytes from `inbuf` on; `insize` is their number. -/
  input : List UInt8
  outbufVec : List UInt8
  /-- The distance of `outbuf` from the start of the vector. -/
  outbuf : ℕ
  outsize : ℕ
  outputByte : ℕ
  /-- Some call has written past the end of the vector. -/
  overrun : Bool
  thrown : Option ℤ
  deriving DecidableEq, Repr

def init (str : List UInt8) : State where
  input := str
  outbufVec := List.replicate (str.length * 2) 0
  outbuf := 0
  outsize := str.length * 2
  outputByte := 0
  overrun := false
  thrown := none

/-- The loop goes on to another call. -/
def State.Calling (s : State) : Prop := s.input ≠ [] ∧ s.thrown = none

instance (s : State) : Decidable s.Calling := inferInstanceAs (Decidable (_ ∧ _))

/-- What the contract of `iconv` allows for the space that is offered. -/
def Conforms (s : State) (a : Answer) : Prop :=
  a.consumed ≤ s.input.length ∧ a.written.length ≤ s.outsize ∧
    (a.status = .success → a.consumed = s.input.length)

instance (s : State) (a : Answer) : Decidable (Conforms s a) :=
  inferInstanceAs (Decidable (_ ∧ _ ∧ _))

/-- Bytes written at a place in the vector, as far as they lie in it. -/
def store (vec : List UInt8) (place : ℕ) (bytes : List UInt8) : List UInt8 :=
  (vec.take place ++ bytes ++ vec.drop (place + bytes.length)).take vec.length

/-- `outbuf_vec.resize(size)`. -/
def resize (vec : List UInt8) (size : ℕ) : List UInt8 :=
  vec.take size ++ List.replicate (size - vec.length) 0

/-- What the call itself changes; `tmp` is the space it leaves. -/
def State.call (s : State) (a : Answer) : State :=
  { s with
    input := s.input.drop a.consumed
    outbufVec := store s.outbufVec s.outbuf a.written
    outbuf := s.outbuf + a.written.length
    overrun := s.overrun || decide (s.outbufVec.length < s.outbuf + a.written.length) }

/-- One round of the loop. -/
def next (s : State) (a : Answer) : Option State :=
  if s.Calling ∧ Conforms s a then
    let tmp := s.outsize - a.written.length
    let outputByte := s.outputByte + (s.outsize - tmp)
    let t := s.call a
    match a.status with
    | .success => some { t with outputByte := outputByte, outsize := tmp }
    | .e2big =>
      let outsize := tmp + (t.outbufVec.length + 100)
      some { t with
        outputByte := outputByte
        outsize := outsize
        outbufVec := resize t.outbufVec outsize }
    | .failure errno => some { t with thrown := some errno }
  else none

/-- What `convert` appends to its output at the end of the loop. -/
def State.output (s : State) : List UInt8 := s.outbufVec.take s.outputByte

/-- What a call writes lies in the vector. -/
def Inside (s : State) (a : Answer) : Prop := s.outbuf + a.written.length ≤ s.outbufVec.length

instance (s : State) (a : Answer) : Decidable (Inside s a) := inferInstanceAs (Decidable (_ ≤ _))

/-- Every call is offered no more than the rest of the vector, and none has written past it. -/
def OffersRoom (s : State) : Prop :=
  s.overrun = false ∧ (s.Calling → s.outbuf + s.outsize ≤ s.outbufVec.length)

/-- The space only runs out, with input left, while nothing has been written yet. -/
def GrowsUnwritten (s : State) (a : Answer) : Prop :=
  a.status = .e2big → a.consumed < s.input.length → s.outbuf + a.written.length = 0

section Vector

variable {vec bytes : List UInt8} {place size : ℕ}

theorem length_store (h : place + bytes.length ≤ vec.length) :
    (store vec place bytes).length = vec.length := by
  unfold store
  simp only [List.length_take, List.length_append, List.length_drop]
  omega

theorem length_resize (vec : List UInt8) (size : ℕ) : (resize vec size).length = size := by
  unfold resize
  simp only [List.length_append, List.length_take, List.length_replicate]
  omega

/-- Bytes are put behind those that stand before them. -/
theorem take_store (h : place + bytes.length ≤ vec.length) :
    (store vec place bytes).take (place + bytes.length) = vec.take place ++ bytes := by
  have hlen : (vec.take place ++ bytes).length = place + bytes.length := by
    rw [List.length_append, List.length_take]
    omega
  unfold store
  rw [List.take_take, Nat.min_eq_left h, ← hlen, List.take_left]

theorem take_resize {n : ℕ} (hn : n ≤ vec.length) (hsize : vec.length ≤ size) :
    (resize vec size).take n = vec.take n := by
  unfold resize
  rw [List.take_of_length_le hsize, List.take_append_of_le_length hn]

end Vector

section Steps

variable {s t : State} {a : Answer}

/-- What one round does, by how the call ended. -/
theorem next_cases (h : next s a = some t) : s.Calling ∧ Conforms s a ∧
    ((a.status = .success ∧ t = { s.call a with
        outputByte := s.outputByte + a.written.length
        outsize := s.outsize - a.written.length }) ∨
      (a.status = .e2big ∧ ∃ size, size = s.outsize - a.written.length +
          ((s.call a).outbufVec.length + 100) ∧ t = { s.call a with
        outputByte := s.outputByte + a.written.length
        outsize := size
        outbufVec := resize (s.call a).outbufVec size }) ∨
      ∃ errno, a.status = .failure errno ∧ t = { s.call a with thrown := some errno }) := by
  obtain ⟨hcond, h⟩ := Option.ite_none_right_eq_some.mp h
  obtain ⟨hcalling, hconf⟩ := hcond
  have hspent : s.outsize - (s.outsize - a.written.length) = a.written.length := by
    have := hconf.2.1
    omega
  refine ⟨hcalling, hconf, ?_⟩
  dsimp only at h
  rw [hspent] at h
  cases hstatus : a.status with
  | success =>
    rw [hstatus] at h
    exact Or.inl ⟨rfl, (Option.some.inj h).symm⟩
  | e2big =>
    rw [hstatus] at h
    exact Or.inr (Or.inl ⟨rfl, _, rfl, (Option.some.inj h).symm⟩)
  | failure errno =>
    rw [hstatus] at h
    exact Or.inr (Or.inr ⟨errno, rfl, (Option.some.inj h).symm⟩)

/-- The counter is where the pointer is, and that is in the vector. -/
structure Accounted (s : State) : Prop where
  filled : s.outbuf ≤ s.outbufVec.length
  counted : s.thrown = none → s.outputByte = s.outbuf

theorem accounted_init (str : List UInt8) : Accounted (init str) :=
  ⟨Nat.zero_le _, fun _ => rfl⟩

theorem next_accounted (h : Accounted s) (hin : Inside s a) (hstep : next s a = some t) :
    Accounted t := by
  obtain ⟨hcalling, -, hcases⟩ := next_cases hstep
  have hcount := h.counted hcalling.2
  have hlen : (s.call a).outbufVec.length = s.outbufVec.length := length_store hin
  rcases hcases with ⟨-, rfl⟩ | ⟨-, size, hsize, rfl⟩ | ⟨errno, -, rfl⟩
  · constructor
    · exact hlen ▸ hin
    · intro _
      change s.outputByte + a.written.length = s.outbuf + a.written.length
      rw [hcount]
  · constructor
    · change s.outbuf + a.written.length ≤ (resize _ size).length
      rw [length_resize]
      have hin : s.outbuf + a.written.length ≤ s.outbufVec.length := hin
      omega
    · intro _
      change s.outputByte + a.written.length = s.outbuf + a.written.length
      rw [hcount]
  · exact ⟨hlen ▸ hin, nofun⟩

/-- The space that is offered is the rest of the vector, and all that was written
before it is counted. -/
structure Fits (s : State) : Prop where
  clean : s.overrun = false
  room : s.Calling → s.outbuf + s.outsize = s.outbufVec.length
  filled : s.outbuf ≤ s.outbufVec.length
  counted : s.thrown = none → s.outputByte = s.outbuf

theorem fits_init (str : List UInt8) : Fits (init str) := by
  have haccounted := accounted_init str
  refine ⟨rfl, ?_, haccounted.filled, haccounted.counted⟩
  intro _
  simp [init]

/-- A call keeps within the space it was offered. -/
theorem Fits.call (h : Fits s) (hcalling : s.Calling) (hconf : Conforms s a) :
    Inside s a ∧ (s.call a).overrun = false ∧
      (s.call a).outbufVec.length = s.outbufVec.length := by
  have hroom := h.room hcalling
  have hwritten := hconf.2.1
  have hwithin : s.outbuf + a.written.length ≤ s.outbufVec.length := by omega
  refine ⟨hwithin, ?_, length_store hwithin⟩
  unfold State.call
  simp only [h.clean, Bool.false_or, decide_eq_false_iff_not]
  omega

theorem step_fits (h : Fits s) (hG : GrowsUnwritten s a) (hstep : next s a = some t) :
    Fits t := by
  obtain ⟨hcalling, hconf, hcases⟩ := next_cases hstep
  obtain ⟨hwithin, hclean, hlen⟩ := h.call hcalling hconf
  have haccounted : Accounted t := next_accounted ⟨h.filled, h.counted⟩ hwithin hstep
  have hroom := h.room hcalling
  have hconsumed : (s.call a).input ≠ [] → a.consumed < s.input.length := by
    intro hleft
    exact Nat.lt_of_not_le fun hle => hleft (List.drop_eq_nil_of_le hle)
  refine ⟨?_, ?_, haccounted.filled, haccounted.counted⟩
  · rcases hcases with ⟨-, rfl⟩ | ⟨-, size, -, rfl⟩ | ⟨errno, -, rfl⟩
    · exact hclean
    · exact hclean
    · exact hclean
  · intro hnext
    have hwritten := hconf.2.1
    rcases hcases with ⟨-, rfl⟩ | ⟨hstatus, size, hsize, rfl⟩ | ⟨errno, -, rfl⟩
    · change s.outbuf + a.written.length + (s.outsize - a.written.length) =
        (s.call a).outbufVec.length
      omega
    · have hzero := hG hstatus (hconsumed hnext.1)
      change s.outbuf + a.written.length + size = _
      rw [length_resize]
      omega
    · cases hnext.2

theorem Fits.offersRoom (h : Fits s) : OffersRoom s :=
  ⟨h.clean, fun hcalling => Nat.le_of_eq (h.room hcalling)⟩

/-- After a resize behind output the next call is offered too much. -/
theorem grown_overreports (hstep : next s a = some t) (hG : ¬ GrowsUnwritten s a) :
    ¬ OffersRoom t := by
  unfold GrowsUnwritten at hG
  simp only [not_forall] at hG
  obtain ⟨hstatus, hleft, hwritten⟩ := hG
  obtain ⟨hcalling, -, hcases⟩ := next_cases hstep
  rcases hcases with ⟨hother, -⟩ | ⟨-, size, -, rfl⟩ | ⟨errno, hother, -⟩
  · rw [hstatus] at hother
    cases hother
  · intro hoffers
    have hnonempty : (s.call a).input ≠ [] := by
      change s.input.drop a.consumed ≠ []
      rw [ne_eq, List.drop_eq_nil_iff]
      omega
    have hroom := hoffers.2 ⟨hnonempty, hcalling.2⟩
    change s.outbuf + a.written.length + size ≤ (resize _ size).length at hroom
    rw [length_resize] at hroom
    omega
  · rw [hstatus] at hother
    cases hother

/-- One round appends to the output what its call wrote, if that stayed inside the vector. -/
theorem step_output (hwithin : Inside s a) (hcount : s.outputByte = s.outbuf)
    (hstep : next s a = some t) (hthrown : t.thrown = none) :
    t.output = s.output ++ a.written := by
  obtain ⟨-, -, hcases⟩ := next_cases hstep
  have hstore := take_store hwithin
  unfold State.output
  rcases hcases with ⟨-, rfl⟩ | ⟨-, size, hsize, rfl⟩ | ⟨errno, -, rfl⟩
  · change (store _ _ _).take (s.outputByte + a.written.length) = _
    rw [hcount]
    exact hstore
  · change (resize (store _ _ _) size).take (s.outputByte + a.written.length) = _
    change size = _ + ((store _ _ _).length + 100) at hsize
    rw [length_store hwithin] at hsize
    rw [hcount, take_resize]
    · exact hstore
    · rwa [length_store hwithin]
    · rw [length_store hwithin]
      omega
  · cases hthrown

end Steps

/-- No call is offered more than the rest of the vector if and only if the space never
runs out behind output that is already there, with input left. -/
theorem offersRoom_iff (str : List UInt8) (answers : List Answer) :
    Throughout next OffersRoom (init str) answers ↔
      StepsMeet next GrowsUnwritten (init str) answers :=
  throughout_iff_stepsMeet (fun _ _ _ h hG hstep => step_fits h hG hstep)
    (fun _ h => h.offersRoom) (fun _ _ _ _ hstep hG => grown_overreports hstep hG)
    (fits_init str)

/-- Four bytes are written for "ab" before the space runs out; the second call is
offered 104 bytes of a vector that has 100 left. -/
theorem offer_past_vector :
    ¬ ∀ (str : List UInt8) (answers : List Answer),
      Throughout next OffersRoom (init str) answers := by
  intro h
  have hlast := (h [97, 98] [⟨0, [255, 254, 0, 0], .e2big⟩]).2 _ rfl
  have hroom := hlast.2 (by decide)
  exact absurd hroom (by decide)

end BoxUtils.Iconv
