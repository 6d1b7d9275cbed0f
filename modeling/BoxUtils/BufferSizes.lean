import BoxUtils.BufferRuns

/-!
Buffers whose callers pass any value of `size_t`. The space test of `write`, the new
capacity of `extend` and with it the one of `append` are sums that may pass the range and
wrap around. A request that is too large is then taken for one that fits, and the copy
leaves the block; where `extend` wraps, more bytes may be in use than the block has.
-/
namespace BoxUtils.Buffers

open Runs Function

section Property

/-- The objects are there, or not yet there, and every size is a value of `size_t`. -/
def Callable (s : State) : Action → Prop
  | .write o data => ∃ b ∈ s.buffer o, data.length < sizeRange
  | .append o data => ∃ b ∈ s.buffer o, data.length < sizeRange
  | .extend o size => ∃ b ∈ s.buffer o, size < sizeRange
  | a => Allowed s a

instance (s : State) : ∀ a, Decidable (Callable s a)
  | .construct .. | .copy .. | .move .. | .destroy .. | .write .. | .append .. | .extend ..
  | .resize .. | .clear .. | .detach .. | .moveForward .. | .fill .. => by
    dsimp only [Callable]
    infer_instance

variable (C : Allocator)

/-- A call that goes wrong leaves the state as it was; the property below is lost then. -/
def wideNext (s : State) (a : Action) : Option State :=
  if Callable s a then some ((perform C s a).getD s) else none

/-- `write` copies and reports as many bytes as there is room for. -/
def WritesExactly (s t : State) : Action → Prop
  | .write o data =>
    ∃ b ∈ s.buffer o, ∃ b' ∈ t.buffer o,
      t.returned = s.returned ++ [min data.length (b.memSize - b.usedSize)] ∧
        b'.usedSize = b.usedSize + min data.length (b.memSize - b.usedSize) ∧
        bytesAt t.memory b'.mem b'.usedSize = (bytesAt s.memory b.mem b.usedSize).map
          (· ++ data.take (b.memSize - b.usedSize))
  | _ => True

/-- The call copies nothing out of its block, and no buffer has more bytes in use than it has. -/
def StaysWithin (s : State) (a : Action) : Prop :=
  ∃ t ∈ perform C s a, WritesExactly s t a ∧ ∀ o, ∀ b ∈ t.buffer o, b.usedSize ≤ b.memSize

/-- The sums of the call stay in the range of `size_t`, or it makes no difference. -/
def SumsFit (s : State) : Action → Prop
  | .write o data => ∃ b ∈ s.buffer o, b.full ∨ b.usedSize + data.length < sizeRange
  | .append o data => ∃ b ∈ s.buffer o,
      b.usedSize + data.length ≤ b.memSize ∨ b.memSize + data.length < sizeRange
  | .extend o size => ∃ b ∈ s.buffer o, b.usedSize ≤ wrap (b.memSize + size)
  | _ => True

instance (s : State) : ∀ a, Decidable (SumsFit s a)
  | .construct .. | .copy .. | .move .. | .destroy .. | .write .. | .append .. | .extend ..
  | .resize .. | .clear .. | .detach .. | .moveForward .. | .fill .. => by
    dsimp only [SumsFit]
    infer_instance

end Property

section Overruns

variable {C : Allocator} {H : Memory} {b : Buffer} {v : Bounded} {data : List UInt8}

theorem memcpy_overrun {mem : Option ℕ} {block bytes : List UInt8} {offset : ℕ}
    (hblock : blockAt H mem = some block) (hover : block.length < offset + bytes.length)
    (hbytes : bytes ≠ []) : memcpy H mem offset bytes = none := by
  cases mem with
  | none => exact if_neg hbytes
  | some a =>
    have hcell : H.cell a = some block := hblock
    simp only [memcpy, hcell, Option.bind_eq_bind, Option.bind_some,
      if_neg (Nat.not_le.mpr hover)]

/-- A request that wraps around passes the space test. -/
theorem write_overrun (h : Holds H b v) (hfull : ¬ b.full) (hdata : data.length < sizeRange)
    (hover : sizeRange ≤ b.usedSize + data.length) : b.write H data = none := by
  obtain ⟨block, hblock, hlen, -⟩ := h.block
  have hused := h.used_le
  have hrange := h.range
  have hwrap : wrap (b.usedSize + data.length) = b.usedSize + data.length - sizeRange := by
    rw [wrap, Nat.mod_eq_sub_mod hover, Nat.mod_eq_of_lt (by omega)]
  have hcopy : memcpy H b.mem b.usedSize data = none := by
    apply memcpy_overrun hblock
    · omega
    · rintro rfl
      rw [List.length_nil] at hover
      omega
  rw [Buffer.write, if_neg hfull, if_neg (by rw [hwrap]; omega), hcopy]
  rfl

/-- The block that a capacity which wraps around asks for is shorter than what is appended. -/
theorem append_overrun (C : Allocator) (h : Holds H b v) (hdata : data.length < sizeRange)
    (hroom : v.room < data.length) (hover : sizeRange ≤ b.memSize + data.length) :
    b.append C H data = none := by
  obtain ⟨block, hblock, hlen, -⟩ := h.block
  have hrange := h.range
  have hzero : data.length ≠ 0 := by omega
  have hyes : data.length > b.availableSize := by
    rw [Buffer.availableSize, room_eq h]
    exact hroom
  obtain ⟨H', mem', spare, hrealloc, hnew, hsize, -⟩ :=
    realloc_spec C hblock (wrap (data.length + b.memSize))
  have hwrap : wrap (data.length + b.memSize) = data.length + b.memSize - sizeRange := by
    rw [wrap, Nat.mod_eq_sub_mod (by omega), Nat.mod_eq_of_lt (by omega)]
  have hcopy : memcpy H' mem' b.usedSize data = none := by
    apply memcpy_overrun hnew
    · rw [List.length_append]
      omega
    · rintro rfl
      exact hzero rfl
  simp only [Buffer.append, if_pos hyes, Buffer.extend, if_neg hzero, hrealloc,
    Option.bind_eq_bind, Option.bind_some, hcopy, Option.bind_none]

/-- Extending to a capacity that does not fall below the bytes in use is resizing to it,
whether the sum has wrapped around or not. -/
theorem extend_eq_resize {size : ℕ} (hsize : size ≠ 0)
    (hused : b.usedSize ≤ wrap (b.memSize + size)) :
    b.extend C H size = b.resize C H (wrap (b.memSize + size)) := by
  have hkeep : ¬ b.usedSize > wrap (b.memSize + size) := Nat.not_lt.mpr hused
  simp only [Buffer.extend, if_neg hsize, Buffer.resize, Nat.add_comm size, if_neg hkeep]

end Overruns

section Steps

variable {C : Allocator} {s t : State} {M : Model} {a : Action}

theorem Allowed.fits (h : Represents s M) (ha : Allowed s a)
    (hwrites : ∀ t, perform C s a = some t → WritesExactly s t a) :
    ∃ t N, perform C s a = some t ∧ Represents t N ∧ WritesExactly s t a := by
  obtain ⟨t, N, hperform, -, hrep⟩ := perform_spec (C := C) h ha
  exact ⟨t, N, hperform, hrep, hwrites t hperform⟩

/-- A call whose sums fit has a result, and the buffers hold lists afterwards. -/
theorem fits_spec (C : Allocator) (h : Represents s M) (hcall : Callable s a)
    (hfit : SumsFit s a) :
    ∃ t N, perform C s a = some t ∧ Represents t N ∧ WritesExactly s t a := by
  cases a with
  | write o data =>
    obtain ⟨b, hb, hsum⟩ := hfit
    obtain ⟨v, ho, hv, hholds⟩ := h.get hb
    obtain ⟨H', b', hwrite, hholds', htouch⟩ := write_spec hholds hsum
    have hrep := h.change ho hholds' htouch
    have hroom : v.room = b.memSize - b.usedSize := by
      rw [hholds.usedSize, hholds.capacity, Bounded.room]
    refine ⟨{ s.set o (H', b') with returned := s.returned ++ [min data.length v.room] },
      { M.set o (v.write data) with returned := M.returned ++ [min data.length v.room] }, ?_,
      ⟨hrep.holds, hrep.absent, hrep.own, ?_⟩, b, hb, b', by simp [State.set], ?_, ?_, ?_⟩
    · simp only [perform, ho, hwrite, Option.bind_eq_bind, Option.bind_some]
    · rw [h.returned]
    · rw [hroom]
    · rw [hholds'.usedSize, hholds.usedSize, ← hholds.usedSize, ← hroom, hholds.usedSize]
      simp only [Bounded.write, List.length_append, List.length_take, Nat.min_comm]
    · rw [hholds.bytesAt, Option.map_some, ← hroom]
      exact hholds'.bytesAt
  | append o data =>
    obtain ⟨b, hb, hsum⟩ := hfit
    exact Allowed.fits h ⟨b, hb, hsum⟩ fun _ _ => trivial
  | extend o size =>
    obtain ⟨b, hb, hsum⟩ := hfit
    obtain ⟨v, ho, hv, hholds⟩ := h.get hb
    by_cases hzero : size = 0
    · exact Allowed.fits h ⟨b, hb, by rw [hzero]; exact hholds.range⟩ fun _ _ => trivial
    · have hlt : wrap (b.memSize + size) < sizeRange := Nat.mod_lt _ (by decide)
      obtain ⟨H', b', hresize, hholds', htouch⟩ := resize_spec C hholds hlt
      refine ⟨s.set o (H', b'), _, ?_, h.change ho hholds' htouch, trivial⟩
      simp only [perform, ho, extend_eq_resize hzero hsum, hresize, Option.bind_eq_bind,
        Option.bind_some]
  | construct o size => exact Allowed.fits h hcall fun _ _ => trivial
  | copy o src => exact Allowed.fits h hcall fun _ _ => trivial
  | move o src => exact Allowed.fits h hcall fun _ _ => trivial
  | destroy o => exact Allowed.fits h hcall fun _ _ => trivial
  | resize o newSize => exact Allowed.fits h hcall fun _ _ => trivial
  | clear o => exact Allowed.fits h hcall fun _ _ => trivial
  | detach o => exact Allowed.fits h hcall fun _ _ => trivial
  | moveForward o byte => exact Allowed.fits h hcall fun _ _ => trivial
  | fill o bytes => exact Allowed.fits h hcall fun _ _ => trivial

theorem write_fits (C : Allocator) (h : Represents s M) {o : ℕ} {data : List UInt8}
    (hcall : Callable s (.write o data)) (hstays : StaysWithin C s (.write o data)) :
    SumsFit s (.write o data) := by
  obtain ⟨b, hb, hlen⟩ := hcall
  obtain ⟨v, ho, hv, hholds⟩ := h.get hb
  refine ⟨b, hb, ?_⟩
  by_contra hsum
  rw [not_or, Nat.not_lt] at hsum
  have hnone := write_overrun hholds hsum.1 hlen hsum.2
  obtain ⟨t, hperform, -⟩ := hstays
  rw [perform, ho, Option.bind_eq_bind, Option.bind_some, hnone] at hperform
  cases hperform

theorem append_fits (C : Allocator) (h : Represents s M) {o : ℕ} {data : List UInt8}
    (hcall : Callable s (.append o data)) (hstays : StaysWithin C s (.append o data)) :
    SumsFit s (.append o data) := by
  obtain ⟨b, hb, hlen⟩ := hcall
  obtain ⟨v, ho, hv, hholds⟩ := h.get hb
  refine ⟨b, hb, ?_⟩
  by_contra hsum
  obtain ⟨hroom, hover⟩ := not_or.mp hsum
  have hle := hholds.used_le
  have hroom : v.room < data.length := by
    rw [Bounded.room, ← hholds.usedSize, ← hholds.capacity]
    omega
  have hnone := append_overrun C hholds hlen hroom (Nat.not_lt.mp hover)
  obtain ⟨t, hperform, -⟩ := hstays
  rw [perform, ho, Option.bind_eq_bind, Option.bind_some, hnone] at hperform
  cases hperform

/-- Whatever `extend` does to the capacity, the same bytes are in use. -/
theorem extend_fits (C : Allocator) (h : Represents s M) {o size : ℕ}
    (hcall : Callable s (.extend o size)) (hstays : StaysWithin C s (.extend o size)) :
    SumsFit s (.extend o size) := by
  obtain ⟨b, hb, -⟩ := hcall
  obtain ⟨v, ho, hv, hholds⟩ := h.get hb
  obtain ⟨block, hblock, -⟩ := hholds.block
  obtain ⟨t, hperform, -, hused⟩ := hstays
  refine ⟨b, hb, ?_⟩
  by_cases hzero : size = 0
  · rw [hzero, Nat.add_zero, wrap_of_lt hholds.range]
    exact hholds.used_le
  · obtain ⟨H', mem', spare, hrealloc, -⟩ := realloc_spec C hblock (wrap (size + b.memSize))
    simp only [perform, ho, Buffer.extend, if_neg hzero, hrealloc, Option.bind_eq_bind,
      Option.bind_some] at hperform
    obtain rfl := Option.some.inj hperform
    exact hused o { b with mem := mem', memSize := wrap (b.memSize + size) } (by simp [State.set])

/-- A step stays within the blocks if and only if its sums fit. -/
theorem staysWithin_iff (C : Allocator) (h : Represents s M) (hcall : Callable s a) :
    StaysWithin C s a ↔ SumsFit s a := by
  constructor
  · intro hstays
    cases a with
    | write o data => exact write_fits C h hcall hstays
    | append o data => exact append_fits C h hcall hstays
    | extend o size => exact extend_fits C h hcall hstays
    | _ => trivial
  · intro hfit
    obtain ⟨t, N, hperform, hrep, hwrites⟩ := fits_spec C h hcall hfit
    refine ⟨t, hperform, hwrites, ?_⟩
    intro o b hb
    obtain ⟨v, -, hholds⟩ := hrep.holds o b hb
    exact hholds.used_le

end Steps

/-- All calls of a run copy within their blocks, and leave no more bytes in use than there
are, if and only if in each of them the sums fit. -/
theorem stays_within_iff (C : Allocator) (as : List Action) :
    StepsMeet (wideNext C) (StaysWithin C) State.init as ↔
      StepsMeet (wideNext C) SumsFit State.init as := by
  apply stepsMeet_iff_stepsMeet (I := fun s => ∃ M, Represents s M)
  · rintro s a t ⟨M, hrep⟩ hfit hstep
    obtain ⟨hcall, hstep⟩ := Option.ite_none_right_eq_some.mp hstep
    obtain ⟨u, N, hperform, hrep', -⟩ := fits_spec C hrep hcall hfit
    rw [hperform, Option.getD_some] at hstep
    obtain rfl := Option.some.inj hstep
    exact ⟨N, hrep'⟩
  · rintro s a t ⟨M, hrep⟩ hstep
    exact staysWithin_iff C hrep (Option.ite_none_right_eq_some.mp hstep).1
  · exact ⟨Model.init, Represents.init⟩

/-- One byte of two is in use, and 2^64 - 1 bytes are to be written behind it. -/
theorem write_wraps :
    ¬ ∀ (C : Allocator) (as : List Action),
      StepsMeet (wideNext C) (StaysWithin C) State.init as := by
  intro h
  let C : Allocator := ⟨fun _ _ => 0, false, true⟩
  let data : List UInt8 := List.replicate (2 ^ 64 - 1) 0
  have hlen : data.length = 2 ^ 64 - 1 := List.length_replicate
  have hrange : data.length < sizeRange := by
    rw [hlen]
    decide
  have hreached : (run (wideNext C) State.init [.construct 0 2, .append 0 [1]]).map
      (fun s => (s.buffer 0, s.memory.cell 0)) = some (some ⟨some 0, 2, 1⟩, some [1, 0]) := by
    decide +kernel
  obtain ⟨s, hrun, hs⟩ := Option.map_eq_some_iff.mp hreached
  obtain ⟨ho, hcell⟩ := Prod.mk.inj hs
  have hmeet := (h C ([.construct 0 2, .append 0 [1]] ++ [.write 0 data])).after hrun
  obtain ⟨⟨t, hperform, -⟩, -⟩ := hmeet _ (if_pos ⟨_, ho, hrange⟩)
  have hholds : Holds s.memory ⟨some 0, 2, 1⟩ ⟨[1], 2, by decide⟩ :=
    Holds.of_split ⟨[1], 2, by decide⟩ [0] hcell rfl rfl (by decide)
  have hover := write_overrun hholds (by decide) hrange (by rw [hlen]; decide)
  rw [perform, ho, Option.bind_eq_bind, Option.bind_some, hover] at hperform
  cases hperform

end BoxUtils.Buffers
