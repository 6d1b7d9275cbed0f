import BoxUtils.BufferRuns
import Mathlib.Data.Nat.ModEq

/-!
The buffer of elements, a template over the byte buffer. The constructor, `extend`,
`resize` and the three sizes convert between elements and bytes. `append` and `write`
hand the number of elements on as a number of bytes, and `write` returns the number of
bytes that it gets back.
-/
namespace BoxUtils.Buffers

open Runs Function

/-- A value of a type that has k bytes. -/
abbrev Element (k : ℕ) := { bytes : List UInt8 // bytes.length = k }

/-- An array of elements in memory. -/
def bytesOf {k : ℕ} (elems : List (Element k)) : List UInt8 := elems.flatMap Subtype.val

inductive TAction (k : ℕ)
  | construct (o size : ℕ)
  | append (o : ℕ) (elems : List (Element k))
  | write (o : ℕ) (elems : List (Element k))
  | extend (o size : ℕ)
  | resize (o size : ℕ)
  | clear (o : ℕ)
  deriving DecidableEq

namespace TBuffer

section Source

variable (k : ℕ)

def size (b : Buffer) : ℕ := b.usedSize / k

def capacity (b : Buffer) : ℕ := b.memSize / k

def availableSize (b : Buffer) : ℕ := b.availableSize / k

variable {k}

/-- The call of `Buffer` that a method consists of. -/
def call : TAction k → Action
  | .construct o size => .construct o (wrap (size * k))
  | .append o elems => .append o ((bytesOf elems).take elems.length)
  | .write o elems => .write o ((bytesOf elems).take elems.length)
  | .extend o size => .extend o (wrap (size * k))
  | .resize o size => .resize o (wrap (size * k))
  | .clear o => .clear o

/-- No number of bytes exceeds the range of `size_t`. -/
def InRange : TAction k → Prop
  | .construct _ size => size * k < sizeRange
  | .extend _ size => size * k < sizeRange
  | .resize _ size => size * k < sizeRange
  | _ => True

instance (a : TAction k) : Decidable (InRange a) := by
  cases a <;> dsimp only [InRange] <;> infer_instance

def tnext (C : Allocator) (s : State) (a : TAction k) : Option State :=
  if InRange a then next C s (call a) else none

end Source

section Law

/-- The first n pieces of k bytes. -/
def chunks (k n : ℕ) (bytes : List UInt8) : List (List UInt8) :=
  (List.range n).map fun i => (bytes.drop (i * k)).take k

/-- The elements of a buffer, as `data()` and `size()` show them. -/
def stored (k : ℕ) (H : Memory) (b : Buffer) : Option (List (List UInt8)) :=
  (blockAt H b.mem).map (chunks k (size k b))

variable {k : ℕ} (C : Allocator)

/-- `append` adds all the elements; `write` adds and reports those there is room for. -/
def AddsElements (s : State) : TAction k → Prop
  | .append o elems =>
    ∃ b ∈ s.buffer o, ∃ t ∈ tnext C s (.append o elems), ∃ b' ∈ t.buffer o,
      size k b' = size k b + elems.length ∧
        stored k t.memory b' = (stored k s.memory b).map (· ++ elems.map Subtype.val)
  | .write o elems =>
    ∃ b ∈ s.buffer o, ∃ t ∈ tnext C s (.write o elems), ∃ b' ∈ t.buffer o,
      t.returned = s.returned ++ [min elems.length (availableSize k b)] ∧
        size k b' = size k b + min elems.length (availableSize k b) ∧
        stored k t.memory b' = (stored k s.memory b).map
          (· ++ (elems.take (availableSize k b)).map Subtype.val)
  | _ => True

instance (s : State) (a : TAction k) : Decidable (AddsElements C s a) := by
  cases a <;> dsimp only [AddsElements] <;> infer_instance

/-- The elements are single bytes, or there is nothing to add. -/
def CountsBytes (s : State) : TAction k → Prop
  | .append _ elems => k = 1 ∨ elems = []
  | .write o elems => k = 1 ∨ elems = [] ∨ ∃ b ∈ s.buffer o, b.full
  | _ => True

instance (s : State) (a : TAction k) : Decidable (CountsBytes s a) := by
  cases a <;> dsimp only [CountsBytes] <;> infer_instance

end Law

section Chunks

variable {k m n : ℕ} {a b : List UInt8}

theorem chunks_append (ha : a.length = m * k) (b : List UInt8) :
    chunks k (m + n) (a ++ b) = chunks k m a ++ chunks k n b := by
  simp only [chunks, List.range_add, List.map_append, List.map_map]
  congr 1
  · apply List.map_congr_left
    intro i hi
    have hlt : i < m := List.mem_range.mp hi
    have hend : (i + 1) * k ≤ m * k := Nat.mul_le_mul_right k hlt
    have hsucc : (i + 1) * k = i * k + k := Nat.succ_mul i k
    rw [List.drop_append_of_le_length (by omega), List.take_append_of_le_length]
    rw [List.length_drop]
    omega
  · apply List.map_congr_left
    intro i _
    have hidx : (m + i) * k = a.length + i * k := by rw [ha, Nat.add_mul]
    show ((a ++ b).drop ((m + i) * k)).take k = _
    rw [hidx, List.drop_append, List.drop_eq_nil_of_le (by omega), List.nil_append,
      Nat.add_sub_cancel_left]

theorem bytesOf_cons (e : Element k) (elems : List (Element k)) :
    bytesOf (e :: elems) = e.1 ++ bytesOf elems := List.flatMap_cons

/-- Cutting an array into elements gives the elements of the array. -/
theorem chunks_bytesOf (elems : List (Element k)) :
    chunks k elems.length (bytesOf elems) = elems.map Subtype.val := by
  induction elems with
  | nil => rfl
  | cons e elems ih =>
    have hlen : e.1.length = 1 * k := by rw [e.2, Nat.one_mul]
    have hone : chunks k 1 e.1 = [e.1] := by
      simp [chunks, List.take_of_length_le (Nat.le_of_eq e.2)]
    rw [List.length_cons, Nat.add_comm, bytesOf_cons, chunks_append hlen, hone, ih]
    rfl

theorem bytesOf_length (elems : List (Element k)) :
    (bytesOf elems).length = elems.length * k := by
  induction elems with
  | nil => simp [bytesOf]
  | cons e elems ih =>
    rw [bytesOf_cons, List.length_append, ih, e.2, List.length_cons, Nat.succ_mul, Nat.add_comm]

/-- What is cut into pieces ends within the first of two parts. -/
theorem chunks_left (hn : n * k ≤ a.length) (b : List UInt8) :
    chunks k n (a ++ b) = chunks k n a := by
  apply List.map_congr_left
  intro i hi
  have hlt : i < n := List.mem_range.mp hi
  have hend : (i + 1) * k ≤ n * k := Nat.mul_le_mul_right k hlt
  have hsucc : (i + 1) * k = i * k + k := Nat.succ_mul i k
  rw [List.drop_append_of_le_length (by omega), List.take_append_of_le_length]
  rw [List.length_drop]
  omega

end Chunks

section Steps

variable {k : ℕ} {C : Allocator} {s t : State} {M N : Model} {a : TAction k} {H : Memory}
  {b : Buffer} {v : Bounded}

theorem stored_eq (h : Holds H b v) :
    stored k H b = some (chunks k (v.contents.length / k) v.contents) := by
  obtain ⟨spare, hblock, -⟩ := h.split
  have hcut : v.contents.length / k * k ≤ v.contents.length := Nat.div_mul_le_self _ k
  rw [stored, hblock, Option.map_some, size, h.usedSize, chunks_left hcut spare]

theorem size_eq (h : Holds H b v) : size k b = v.contents.length / k := by
  rw [size, h.usedSize]

theorem availableSize_eq (h : Holds H b v) : availableSize k b = v.room / k := by
  rw [availableSize, Buffer.availableSize, room_eq h]

/-- A buffer is full when there is no room left. -/
theorem full_iff (h : Holds H b v) : b.full ↔ v.room = 0 := by
  have hused := h.usedSize
  have hcap := h.capacity
  have hle := h.used_le
  simp only [Buffer.full, decide_eq_true_eq, Bounded.room]
  omega

/-- A number of bytes that does not wrap around is one of whole elements. -/
theorem dvd_wrap {size : ℕ} (hrange : size * k < sizeRange) : k ∣ wrap (size * k) := by
  rw [wrap_of_lt hrange]
  exact Nat.dvd_mul_left k size

/-- Every buffer has room for and contains whole elements only. -/
def Whole (k : ℕ) (M : Model) : Prop :=
  ∀ o v, M.value o = some v → k ∣ v.capacity ∧ k ∣ v.contents.length

theorem Whole.set (h : Whole k M) {o : ℕ} (hcap : k ∣ v.capacity)
    (hlen : k ∣ v.contents.length) : Whole k (M.set o v) := by
  intro p w hw
  by_cases hpo : p = o
  · subst p
    obtain rfl : v = w := by simpa [Model.set] using hw
    exact ⟨hcap, hlen⟩
  · exact h p w (by simpa [Model.set, hpo] using hw)

/-- The bytes handed on are all the bytes of the elements where there are none or where
each is one byte. -/
theorem take_bytesOf (elems : List (Element k)) (h : k = 1 ∨ elems = []) :
    (bytesOf elems).take elems.length = bytesOf elems := by
  apply List.take_of_length_le
  rw [bytesOf_length]
  rcases h with hk | hnil
  · subst hk
    rw [Nat.mul_one]
  · rw [hnil, List.length_nil, Nat.zero_mul]

theorem length_take_bytesOf (hk : 1 ≤ k) (elems : List (Element k)) :
    ((bytesOf elems).take elems.length).length = elems.length := by
  rw [List.length_take, bytesOf_length]
  exact Nat.min_eq_left (Nat.le_mul_of_pos_right _ hk)

theorem tnext_spec (hrep : Represents s M) (hstep : tnext C s a = some t) :
    InRange a ∧ next C s (call a) = some t ∧ ∃ N, Spec M (call a) N ∧ Represents t N := by
  obtain ⟨hrange, hnext⟩ := Option.ite_none_right_eq_some.mp hstep
  exact ⟨hrange, hnext, next_spec hrep hnext⟩

/-- A step that counts right, or does not add anything, keeps the elements whole. -/
theorem whole_step (hk : 1 ≤ k) (hwhole : Whole k M) (hrep : Represents s M)
    (hcounts : CountsBytes s a) (hrange : InRange a) (hspec : Spec M (call a) N) :
    Whole k N := by
  cases a with
  | construct o size =>
    cases hspec with
    | construct => exact hwhole.set (dvd_wrap hrange) (Nat.dvd_zero k)
  | append o elems =>
    cases hspec with
    | append hv =>
      obtain ⟨hcap, hlen⟩ := hwhole o _ hv
      rw [take_bytesOf elems hcounts]
      rcases hcounts with hone | hnil
      · subst hone
        exact hwhole.set (Nat.one_dvd _) (Nat.one_dvd _)
      · subst hnil
        simpa [Bounded.append, bytesOf] using hwhole.set hcap hlen
  | write o elems =>
    cases hspec with
    | write hv =>
      obtain ⟨hcap, hlen⟩ := hwhole o _ hv
      refine hwhole.set (M := M) hcap ?_
      rw [Bounded.write, List.length_append]
      rcases hcounts with hone | hnil | ⟨b, hb, hfull⟩
      · subst hone
        exact Nat.one_dvd _
      · subst hnil
        simpa [bytesOf] using hlen
      · obtain ⟨w, -, hw, hholds⟩ := hrep.get hb
        have hroom : w.room = 0 := (full_iff hholds).mp hfull
        obtain rfl := Option.some.inj (hv.symm.trans hw)
        simpa [hroom] using hlen
  | extend o size =>
    cases hspec with
    | extend hv =>
      obtain ⟨hcap, hlen⟩ := hwhole o _ hv
      exact hwhole.set (Nat.dvd_add hcap (dvd_wrap hrange)) hlen
  | resize o size =>
    cases hspec with
    | resize hv =>
      obtain ⟨hcap, hlen⟩ := hwhole o _ hv
      have hnew : k ∣ wrap (size * k) := dvd_wrap hrange
      refine hwhole.set hnew ?_
      rw [Bounded.resize, List.length_take]
      rcases Nat.le_total (wrap (size * k)) _ with hle | hle
      · rw [Nat.min_eq_left hle]
        exact hnew
      · rw [Nat.min_eq_right hle]
        exact hlen
  | clear o =>
    cases hspec with
    | clear hv =>
      obtain ⟨hcap, -⟩ := hwhole o _ hv
      exact hwhole.set hcap (Nat.dvd_zero k)

end Steps

section Agreement

variable {k : ℕ} {C : Allocator} {s t : State} {M : Model} {a : TAction k} {v : Bounded}

theorem bytesOf_take (elems : List (Element k)) (n : ℕ) :
    bytesOf (elems.take n) = (bytesOf elems).take (n * k) := by
  induction elems generalizing n with
  | nil => simp [bytesOf]
  | cons e elems ih =>
    cases n with
    | zero => simp [bytesOf]
    | succ n =>
      have hlen : (n + 1) * k = e.1.length + n * k := by rw [e.2, Nat.succ_mul, Nat.add_comm]
      rw [List.take_succ_cons, bytesOf_cons, bytesOf_cons, ih, hlen,
        List.take_length_add_append]

/-- Adding n bytes adds n elements only where an element is a byte. -/
theorem eq_one_of_div {m n : ℕ} (hdvd : k ∣ m) (h : (m + n) / k = m / k + n) :
    k = 1 ∨ n = 0 := by
  rw [Nat.add_div_of_dvd_right hdvd] at h
  have hself : n / k = n := Nat.add_left_cancel h
  exact (Nat.div_eq_self.mp hself).symm

/-- Elements behind whole elements are counted and read as such. -/
theorem size_whole (hk : 1 ≤ k) (c : List UInt8)
    (elems : List (Element k)) :
    (c ++ bytesOf elems).length / k = c.length / k + elems.length := by
  rw [List.length_append, bytesOf_length, Nat.add_mul_div_right _ _ hk]

theorem chunks_whole (hk : 1 ≤ k) {c : List UInt8} (hdvd : k ∣ c.length)
    (elems : List (Element k)) :
    chunks k ((c ++ bytesOf elems).length / k) (c ++ bytesOf elems) =
      chunks k (c.length / k) c ++ elems.map Subtype.val := by
  have hlen : c.length = c.length / k * k := (Nat.div_mul_cancel hdvd).symm
  rw [size_whole hk, chunks_append hlen, chunks_bytesOf]

theorem value_some (hrep : Represents s M) {o : ℕ} (hv : M.value o = some v) :
    ∃ b, s.buffer o = some b ∧ Holds s.memory b v := by
  cases hb : s.buffer o with
  | none =>
    rw [hrep.absent o hb] at hv
    cases hv
  | some b =>
    obtain ⟨w, hw, hholds⟩ := hrep.holds o b hb
    obtain rfl := Option.some.inj (hv.symm.trans hw)
    exact ⟨b, rfl, hholds⟩

theorem append_agrees (hk : 1 ≤ k) (hrep : Represents s M) (hwhole : Whole k M) {o : ℕ}
    {elems : List (Element k)} (hstep : tnext C s (.append o elems) = some t) :
    AddsElements C s (.append o elems) ↔ k = 1 ∨ elems = [] := by
  obtain ⟨-, -, N, hspec, hrep'⟩ := tnext_spec hrep hstep
  cases hspec with
  | append hv =>
    rename_i v
    obtain ⟨-, hdvd⟩ := hwhole o v hv
    obtain ⟨b, hb, hholds⟩ := value_some hrep hv
    obtain ⟨b', hb', hholds'⟩ := value_some (o := o)
      (v := v.append ((bytesOf elems).take elems.length)) hrep' (by simp [Model.set])
    have hiff : AddsElements C s (.append o elems) ↔
        size k b' = size k b + elems.length ∧
          stored k t.memory b' = (stored k s.memory b).map (· ++ elems.map Subtype.val) := by
      simp only [AddsElements, hb, hstep, hb', Option.mem_def, Option.some.injEq,
        exists_eq_left']
    rw [hiff, size_eq hholds, size_eq hholds', stored_eq hholds, stored_eq hholds',
      Option.map_some, Option.some.injEq]
    simp only [Bounded.append]
    constructor
    · rintro ⟨hsize, -⟩
      rw [List.length_append, length_take_bytesOf hk] at hsize
      rcases eq_one_of_div hdvd hsize with hone | hnone
      · exact Or.inl hone
      · exact Or.inr (List.length_eq_zero_iff.mp hnone)
    · intro hcounts
      rw [take_bytesOf elems hcounts]
      exact ⟨size_whole hk _ elems, chunks_whole hk hdvd elems⟩

theorem write_agrees (hk : 1 ≤ k) (hrep : Represents s M) (hwhole : Whole k M) {o : ℕ}
    {elems : List (Element k)} (hstep : tnext C s (.write o elems) = some t) :
    AddsElements C s (.write o elems) ↔ k = 1 ∨ elems = [] ∨ ∃ b ∈ s.buffer o, b.full := by
  obtain ⟨-, -, N, hspec, hrep'⟩ := tnext_spec hrep hstep
  cases hspec with
  | write hv =>
    rename_i v
    obtain ⟨-, hdvd⟩ := hwhole o v hv
    obtain ⟨b, hb, hholds⟩ := value_some hrep hv
    obtain ⟨b', hb', hholds'⟩ := value_some (o := o)
      (v := v.write ((bytesOf elems).take elems.length)) hrep' (by simp [Model.set])
    have hreturned : t.returned = s.returned ++
        [min ((bytesOf elems).take elems.length).length v.room] := by
      rw [hrep'.returned, hrep.returned]
    have hiff : AddsElements C s (.write o elems) ↔
        t.returned = s.returned ++ [min elems.length (availableSize k b)] ∧
          size k b' = size k b + min elems.length (availableSize k b) ∧
          stored k t.memory b' = (stored k s.memory b).map
            (· ++ (elems.take (availableSize k b)).map Subtype.val) := by
      simp only [AddsElements, hb, hstep, hb', Option.mem_def, Option.some.injEq,
        exists_eq_left']
    have hfull : (∃ b ∈ s.buffer o, b.full) ↔ v.room = 0 := by
      simp only [hb, Option.mem_def, Option.some.injEq, exists_eq_left', full_iff hholds]
    rw [hiff, hfull, hreturned, length_take_bytesOf hk, availableSize_eq hholds,
      size_eq hholds, size_eq hholds', stored_eq hholds, stored_eq hholds', Option.map_some,
      Option.some.injEq]
    simp only [Bounded.write, List.append_cancel_left_eq, List.cons.injEq, and_true]
    constructor
    · rintro ⟨hmin, hsize, -⟩
      rw [List.length_append, List.length_take, length_take_bytesOf hk, ← hmin,
        Nat.min_comm] at hsize
      rcases eq_one_of_div hdvd hsize with hone | hnone
      · exact Or.inl hone
      · right
        rcases Nat.eq_zero_or_pos elems.length with hlen | hlen
        · exact Or.inl (List.length_eq_zero_iff.mp hlen)
        · right
          omega
    · intro hcounts
      have htake : ((bytesOf elems).take elems.length).take v.room =
          bytesOf (elems.take (v.room / k)) := by
        rw [bytesOf_take]
        rcases hcounts with hone | hnil | hnone
        · subst hone
          rw [take_bytesOf elems (Or.inl rfl), Nat.div_one, Nat.mul_one]
        · simp [hnil, bytesOf]
        · simp [hnone]
      have hlen : (elems.take (v.room / k)).length = min elems.length (v.room / k) := by
        rw [List.length_take, Nat.min_comm]
      rw [htake]
      refine ⟨?_, ?_, chunks_whole hk hdvd _⟩
      · rcases hcounts with hone | hnil | hnone
        · subst hone
          rw [Nat.div_one]
        · simp [hnil]
        · simp [hnone]
      · rw [size_whole hk, hlen]

theorem adds_iff_counts (hk : 1 ≤ k) (hrep : Represents s M) (hwhole : Whole k M)
    (hstep : tnext C s a = some t) : AddsElements C s a ↔ CountsBytes s a := by
  cases a with
  | construct o size => exact Iff.rfl
  | append o elems => exact append_agrees hk hrep hwhole hstep
  | write o elems => exact write_agrees hk hrep hwhole hstep
  | extend o size => exact Iff.rfl
  | resize o size => exact Iff.rfl
  | clear o => exact Iff.rfl

end Agreement

/-- The calls of a run add elements as they should if and only if each of them adds single
bytes, or nothing, or writes to a full buffer. -/
theorem adds_elements_iff (C : Allocator) {k : ℕ} (hk : 1 ≤ k) (as : List (TAction k)) :
    StepsMeet (tnext C) (AddsElements C) State.init as ↔
      StepsMeet (tnext C) CountsBytes State.init as := by
  apply stepsMeet_iff_stepsMeet (I := fun s => ∃ M, Represents s M ∧ Whole k M)
  · rintro s a t ⟨M, hrep, hwhole⟩ hcounts hstep
    obtain ⟨hrange, -, N, hspec, hrep'⟩ := tnext_spec hrep hstep
    exact ⟨N, hrep', whole_step hk hwhole hrep hcounts hrange hspec⟩
  · rintro s a t ⟨M, hrep, hwhole⟩ hstep
    exact adds_iff_counts hk hrep hwhole hstep
  · refine ⟨Model.init, Represents.init, ?_⟩
    intro o v hv
    cases hv

/-- Two bytes are appended and written as elements. -/
theorem adds_elements_bytes :
    StepsMeet (tnext ⟨fun _ _ => 0, false, true⟩) (AddsElements ⟨fun _ _ => 0, false, true⟩)
      State.init
      [.construct 0 1, .append 0 [(⟨[7], rfl⟩ : Element 1), ⟨[8], rfl⟩], .extend 0 1,
        .write 0 [⟨[9], rfl⟩, ⟨[10], rfl⟩]] :=
  (adds_elements_iff _ (Nat.le_refl 1) _).mpr (by decide +kernel)

/-- An element of two bytes is appended by its first byte. -/
theorem adds_elements_half :
    ¬ ∀ (C : Allocator) (k : ℕ) (as : List (TAction k)), 1 ≤ k →
      StepsMeet (tnext C) (AddsElements C) State.init as := by
  intro h
  have hadds := h ⟨fun _ _ => 0, false, true⟩ 2 [.construct 0 2, .append 0 [⟨[7, 8], rfl⟩]]
    (by omega)
  exact absurd hadds (by decide +kernel)

end TBuffer

end BoxUtils.Buffers
