import BoxUtils.Heap
import Mathlib.Algebra.Group.Nat.Defs
import Mathlib.Data.List.Basic

/-!
The byte buffer of buffer.cpp. A `Buffer` is a pointer to a block with the size
of the block and the number of bytes in use. Sizes are counted modulo the range
of `size_t`. What fresh memory contains, and whether an allocation of no bytes
gives a null pointer, is left open. Allocations succeed.

What a buffer is for is said by `Bounded`, a list of bytes with a capacity. Each
operation is shown to do to the block what the operation on the list says, and to
touch no other block.
-/
namespace BoxUtils.Buffers

/-- The number of values of `size_t`. -/
def sizeRange : ℕ := 2 ^ 64

def wrap (n : ℕ) : ℕ := n % sizeRange

abbrev Memory := Heap (List UInt8)

/-- The parts of the allocator that the standard leaves open: the bytes of fresh memory by
the address of the block and the offset, and whether `malloc(0)`, and `realloc` of a block to
zero bytes, give a null pointer. -/
structure Allocator where
  junk : ℕ → ℕ → UInt8
  mallocZeroIsNull : Bool
  reallocZeroIsNull : Bool

structure Buffer where
  mem : Option ℕ
  memSize : ℕ
  usedSize : ℕ
  deriving DecidableEq, Repr

section Library

variable (C : Allocator)

/-- A new block of n bytes, the first of which are given. -/
def allocate (zeroIsNull : Bool) (H : Memory) (bytes : List UInt8) (n : ℕ) :
    Memory × Option ℕ :=
  if n = 0 ∧ zeroIsNull then (H, none)
  else
    (H.alloc (bytes ++ (List.range' bytes.length (n - bytes.length)).map (C.junk H.fresh)),
      some H.fresh)

def malloc (H : Memory) (n : ℕ) : Memory × Option ℕ := allocate C C.mallocZeroIsNull H [] n

/-- The block at a pointer; there are no bytes at a null pointer. -/
def blockAt (H : Memory) : Option ℕ → Option (List UInt8)
  | none => some []
  | some a => H.cell a

def free (H : Memory) : Option ℕ → Option Memory
  | none => some H
  | some a => H.free a

/-- The block always moves, and the old one is gone. For a null pointer it is `malloc`. -/
def realloc (H : Memory) (mem : Option ℕ) (n : ℕ) : Option (Memory × Option ℕ) := do
  let old ← blockAt H mem
  let H ← free H mem
  let zeroIsNull := if mem = none then C.mallocZeroIsNull else C.reallocZeroIsNull
  some (allocate C zeroIsNull H (old.take n) n)

/-- `memcpy(mem + offset, …)` from bytes that lie elsewhere. -/
def memcpy (H : Memory) (mem : Option ℕ) (offset : ℕ) (bytes : List UInt8) : Option Memory :=
  match mem with
  | none => if bytes = [] then some H else none
  | some a => do
    let block ← H.cell a
    if offset + bytes.length ≤ block.length then
      some (H.put a (block.take offset ++ bytes ++ block.drop (offset + bytes.length)))
    else none

/-- The first n bytes at a pointer. -/
def bytesAt (H : Memory) (mem : Option ℕ) (n : ℕ) : Option (List UInt8) := do
  let block ← blockAt H mem
  if n ≤ block.length then some (block.take n) else none

end Library

section Source

variable (C : Allocator)

namespace Buffer

def availableSize (b : Buffer) : ℕ := wrap (b.memSize + sizeRange - b.usedSize)

def full (b : Buffer) : Bool := b.memSize = b.usedSize

/-- `Buffer(size)`. -/
def construct (H : Memory) (size : ℕ) : Memory × Buffer :=
  let (H, mem) := malloc C H size
  (H, ⟨mem, size, 0⟩)

/-- `Buffer(const Buffer &)`. -/
def copy (H : Memory) (buffer : Buffer) : Option (Memory × Buffer) := do
  let (H, mem) := malloc C H buffer.memSize
  let bytes ← bytesAt H buffer.mem buffer.usedSize
  let H ← memcpy H mem 0 bytes
  some (H, ⟨mem, buffer.memSize, buffer.usedSize⟩)

/-- `Buffer(Buffer &&)`: the new buffer and what is left of the old one. -/
def move (buffer : Buffer) : Buffer × Buffer := (buffer, ⟨none, 0, 0⟩)

/-- `~Buffer()`. -/
def destroy (H : Memory) (b : Buffer) : Option Memory := free H b.mem

def extend (H : Memory) (b : Buffer) (size : ℕ) : Option (Memory × Buffer) :=
  if size = 0 then some (H, b)
  else do
    let (H, mem) ← realloc C H b.mem (wrap (size + b.memSize))
    some (H, { b with mem := mem, memSize := wrap (b.memSize + size) })

def resize (H : Memory) (b : Buffer) (newSize : ℕ) : Option (Memory × Buffer) := do
  let (H, mem) ← realloc C H b.mem newSize
  let usedSize := if b.usedSize > newSize then newSize else b.usedSize
  some (H, ⟨mem, newSize, usedSize⟩)

/-- The number is the one that `write` returns. -/
def write (H : Memory) (b : Buffer) (data : List UInt8) : Option ((Memory × Buffer) × ℕ) :=
  if b.full then some ((H, b), 0)
  else if wrap (b.usedSize + data.length) > b.memSize then do
    let copyByte := wrap (b.memSize + sizeRange - b.usedSize)
    let H ← memcpy H b.mem b.usedSize (data.take copyByte)
    some ((H, { b with usedSize := wrap (b.usedSize + copyByte) }), copyByte)
  else do
    let H ← memcpy H b.mem b.usedSize data
    some ((H, { b with usedSize := wrap (b.usedSize + data.length) }), data.length)

def append (H : Memory) (b : Buffer) (data : List UInt8) : Option (Memory × Buffer) := do
  let (H, b) ← if data.length > b.availableSize then b.extend C H data.length else some (H, b)
  let H ← memcpy H b.mem b.usedSize data
  some (H, { b with usedSize := wrap (b.usedSize + data.length) })

/-- The pointer goes to the caller. -/
def detach (b : Buffer) : Buffer × Option ℕ := (⟨none, 0, 0⟩, b.mem)

def moveForward (b : Buffer) (byte : ℕ) : Buffer :=
  { b with usedSize := wrap (b.usedSize + byte) }

def clear (b : Buffer) : Buffer := { b with usedSize := 0 }

end Buffer

end Source

section Abstract

/-- A list of bytes with room for more. -/
structure Bounded where
  contents : List UInt8
  capacity : ℕ
  bounded : contents.length ≤ capacity

namespace Bounded

def room (v : Bounded) : ℕ := v.capacity - v.contents.length

def empty (capacity : ℕ) : Bounded := ⟨[], capacity, Nat.zero_le _⟩

/-- Appends what there is room for. -/
def write (v : Bounded) (data : List UInt8) : Bounded where
  contents := v.contents ++ data.take v.room
  capacity := v.capacity
  bounded := by
    have hle := v.bounded
    simp only [room, List.length_append, List.length_take]
    omega

/-- Appends all the bytes and grows by their number where they do not fit. -/
def append (v : Bounded) (data : List UInt8) : Bounded where
  contents := v.contents ++ data
  capacity := if data.length ≤ v.room then v.capacity else v.capacity + data.length
  bounded := by
    have hle := v.bounded
    have hroom : v.room = v.capacity - v.contents.length := rfl
    rw [List.length_append]
    split
    · omega
    · omega

def extend (v : Bounded) (size : ℕ) : Bounded where
  contents := v.contents
  capacity := v.capacity + size
  bounded := Nat.le_add_right_of_le v.bounded

def resize (v : Bounded) (newSize : ℕ) : Bounded where
  contents := v.contents.take newSize
  capacity := newSize
  bounded := List.length_take_le newSize v.contents

def clear (v : Bounded) : Bounded := empty v.capacity

/-- Appends bytes that are in the room already. -/
def advance (v : Bounded) (bytes : List UInt8) (h : bytes.length ≤ v.room) : Bounded where
  contents := v.contents ++ bytes
  capacity := v.capacity
  bounded := by
    have hle := v.bounded
    rw [List.length_append]
    rw [room] at h
    omega

end Bounded

/-- The block has exactly `memSize` bytes, of which the first `usedSize` are the list. -/
structure Holds (H : Memory) (b : Buffer) (v : Bounded) : Prop where
  used_le : b.usedSize ≤ b.memSize
  block : ∃ block, blockAt H b.mem = some block ∧ block.length = b.memSize ∧
    block.take b.usedSize = v.contents
  capacity : b.memSize = v.capacity
  range : b.memSize < sizeRange

end Abstract

/-- Between two states of the memory only the block at `mem` may have changed, and `mem'`
is that pointer, a null pointer or a new one. -/
structure Touches (H H' : Memory) (mem mem' : Option ℕ) : Prop where
  frame : ∀ a bytes, mem ≠ some a → H.cell a = some bytes → H'.cell a = some bytes
  pointer : ∀ a, mem' = some a → mem = some a ∨ H.cell a = none

section Blocks

variable {C : Allocator} {H H' : Memory} {mem mem' : Option ℕ}

theorem Touches.refl (H : Memory) (mem : Option ℕ) : Touches H H mem mem :=
  ⟨fun _ _ _ hcell => hcell, fun _ hmem => Or.inl hmem⟩

theorem Touches.trans {H'' : Memory} {mem'' : Option ℕ} (h : Touches H H' mem mem')
    (h' : Touches H' H'' mem' mem'') : Touches H H'' mem mem'' := by
  constructor
  · intro a bytes hne hcell
    have hcell' := h.frame a bytes hne hcell
    have hne' : mem' ≠ some a := by
      intro hmem
      rcases h.pointer a hmem with hold | hnew
      · exact hne hold
      · rw [hcell] at hnew
        cases hnew
    exact h'.frame a bytes hne' hcell'
  · intro a hmem
    rcases h'.pointer a hmem with hold | hnew
    · exact h.pointer a hold
    · by_contra hnot
      push Not at hnot
      obtain ⟨bytes, hcell⟩ := Option.ne_none_iff_exists'.mp hnot.2
      rw [h.frame a bytes hnot.1 hcell] at hnew
      cases hnew

/-- Giving the pointer up changes nothing. -/
theorem Touches.toNull (H : Memory) (mem : Option ℕ) : Touches H H mem none :=
  ⟨fun _ _ _ hcell => hcell, fun _ hmem => by cases hmem⟩

theorem allocate_spec (C : Allocator) (zeroIsNull : Bool) (H : Memory) (bytes : List UInt8)
    {n : ℕ} (hn : bytes.length ≤ n) :
    ∃ spare, blockAt (allocate C zeroIsNull H bytes n).1 (allocate C zeroIsNull H bytes n).2 =
        some (bytes ++ spare) ∧ bytes.length + spare.length = n ∧
      Touches H (allocate C zeroIsNull H bytes n).1 none (allocate C zeroIsNull H bytes n).2 := by
  rw [allocate]
  split
  case isTrue hnull =>
    have hlen : bytes.length = 0 := by omega
    have hnil : bytes = [] := List.length_eq_zero_iff.mp hlen
    refine ⟨[], ?_, ?_, Touches.refl H none⟩
    · rw [hnil]
      rfl
    · rw [hlen, hnull.1]
      rfl
  case isFalse =>
    refine ⟨_, Heap.cell_alloc_self H _, ?_, ?_, ?_⟩
    · rw [List.length_map, List.length_range']
      omega
    · intro a block _ hcell
      exact Heap.cell_alloc_of_live _ hcell
    · intro a hmem
      have ha : H.fresh = a := Option.some.inj hmem
      right
      rw [← ha]
      exact H.unused _ (Nat.le_refl _)

/-- Giving a block back touches no other one. -/
theorem free_spec {block : List UInt8} (hblock : blockAt H mem = some block) :
    ∃ H', free H mem = some H' ∧ Touches H H' mem none := by
  cases mem with
  | none => exact ⟨H, rfl, Touches.toNull H none⟩
  | some a =>
    refine ⟨H.erase a, Heap.free_eq hblock, ?_, ?_⟩
    · intro b bytes hne hcell
      have hba : b ≠ a := fun h => hne (by rw [h])
      rw [Heap.cell_erase_of_ne H hba, hcell]
    · intro b hmem
      cases hmem

theorem realloc_spec (C : Allocator) {old : List UInt8} (hold : blockAt H mem = some old)
    (n : ℕ) :
    ∃ H' mem' spare, realloc C H mem n = some (H', mem') ∧
      blockAt H' mem' = some (old.take n ++ spare) ∧ (old.take n).length + spare.length = n ∧
      Touches H H' mem mem' := by
  obtain ⟨H₁, hfree, htouch⟩ := free_spec hold
  have hle : (old.take n).length ≤ n := List.length_take_le n old
  obtain ⟨spare, hblock, hlen, hnew⟩ := allocate_spec C
    (if mem = none then C.mallocZeroIsNull else C.reallocZeroIsNull) H₁ _ hle
  refine ⟨_, _, spare, ?_, hblock, hlen, htouch.trans hnew⟩
  simp only [realloc, hold, hfree, Option.bind_eq_bind, Option.bind_some]

theorem memcpy_spec (front : List UInt8) {spare bytes : List UInt8}
    (hblock : blockAt H mem = some (front ++ spare)) (hfit : bytes.length ≤ spare.length) :
    ∃ H', memcpy H mem front.length bytes = some H' ∧
      blockAt H' mem = some (front ++ bytes ++ spare.drop bytes.length) ∧
      Touches H H' mem mem := by
  cases mem with
  | none =>
    have hnil : front ++ spare = [] := (Option.some.inj hblock).symm
    obtain ⟨rfl, rfl⟩ := List.append_eq_nil_iff.mp hnil
    have hbytes : bytes = [] := List.length_eq_zero_iff.mp (Nat.le_zero.mp hfit)
    subst bytes
    exact ⟨H, rfl, rfl, Touches.refl H none⟩
  | some a =>
    have hcell : H.cell a = some (front ++ spare) := hblock
    have hbound : front.length + bytes.length ≤ (front ++ spare).length := by
      rw [List.length_append]
      omega
    have hput : memcpy H (some a) front.length bytes =
        some (H.put a (front ++ bytes ++ spare.drop bytes.length)) := by
      simp only [memcpy, hcell, Option.bind_eq_bind, Option.bind_some, if_pos hbound,
        List.take_left, List.drop_append, Nat.add_sub_cancel_left]
      rw [List.drop_eq_nil_of_le (by omega), List.nil_append]
    refine ⟨_, hput, Heap.cell_put_self hcell _, ?_, ?_⟩
    · intro b block hne hb
      have hba : b ≠ a := fun h => hne (by rw [h])
      rw [Heap.cell_put_of_ne H _ hba, hb]
    · intro b hmem
      exact Or.inl hmem

end Blocks

section Operations

variable {C : Allocator} {H H' : Memory} {b : Buffer} {v : Bounded}

theorem wrap_of_lt {n : ℕ} (hn : n < sizeRange) : wrap n = n := Nat.mod_eq_of_lt hn

theorem Holds.usedSize (h : Holds H b v) : b.usedSize = v.contents.length := by
  obtain ⟨block, -, hlen, htake⟩ := h.block
  have hle := h.used_le
  rw [← htake, List.length_take]
  omega

/-- The block is the list and the bytes that are not in use. -/
theorem Holds.split (h : Holds H b v) :
    ∃ spare, blockAt H b.mem = some (v.contents ++ spare) ∧ spare.length = v.room := by
  obtain ⟨block, hblock, hlen, htake⟩ := h.block
  have hused := h.usedSize
  have hcap := h.capacity
  refine ⟨block.drop b.usedSize, ?_, ?_⟩
  · rw [← htake, List.take_append_drop]
    exact hblock
  · rw [List.length_drop, Bounded.room]
    omega

theorem Holds.of_split {mem : Option ℕ} {capacity : ℕ} (v : Bounded) (spare : List UInt8)
    (hblock : blockAt H mem = some (v.contents ++ spare)) (hspare : spare.length = v.room)
    (hcap : capacity = v.capacity) (hrange : capacity < sizeRange) :
    Holds H ⟨mem, capacity, v.contents.length⟩ v := by
  have hbound := v.bounded
  have hlen : (v.contents ++ spare).length = capacity := by
    rw [List.length_append, hspare, Bounded.room]
    omega
  constructor
  · show v.contents.length ≤ capacity
    omega
  · exact ⟨_, hblock, hlen, List.take_left⟩
  · exact hcap
  · exact hrange

/-- A buffer whose block was not touched. -/
theorem Holds.frame {mem mem' : Option ℕ} (h : Holds H b v) (htouch : Touches H H' mem mem')
    (hother : ∀ a, b.mem = some a → mem ≠ some a) : Holds H' b v := by
  obtain ⟨block, hblock, hlen, htake⟩ := h.block
  refine ⟨h.used_le, ⟨block, ?_, hlen, htake⟩, h.capacity, h.range⟩
  cases hmem : b.mem with
  | none =>
    rw [hmem] at hblock
    exact hblock
  | some a =>
    rw [hmem] at hblock
    exact htouch.frame a block (hother a hmem) hblock

theorem Holds.bytesAt (h : Holds H b v) : bytesAt H b.mem b.usedSize = some v.contents := by
  obtain ⟨block, hblock, hlen, htake⟩ := h.block
  have hle := h.used_le
  have hbound : b.usedSize ≤ block.length := by omega
  simp only [Buffers.bytesAt, hblock, Option.bind_eq_bind, Option.bind_some, if_pos hbound, htake]

/-- A buffer without a block holds nothing. -/
theorem holds_null (H : Memory) : Holds H ⟨none, 0, 0⟩ (Bounded.empty 0) :=
  Holds.of_split (Bounded.empty 0) [] rfl rfl rfl (by decide)

theorem construct_spec (C : Allocator) (H : Memory) {size : ℕ} (hsize : size < sizeRange) :
    Holds (Buffer.construct C H size).1 (Buffer.construct C H size).2 (Bounded.empty size) ∧
      Touches H (Buffer.construct C H size).1 none (Buffer.construct C H size).2.mem := by
  obtain ⟨spare, hblock, hlen, htouch⟩ := allocate_spec C C.mallocZeroIsNull H []
    (Nat.zero_le size)
  have hspare : spare.length = (Bounded.empty size).room := by
    change spare.length = size
    simpa using hlen
  exact ⟨Holds.of_split (Bounded.empty size) spare hblock hspare rfl hsize, htouch⟩

theorem copy_spec (C : Allocator) (h : Holds H b v) :
    ∃ H' b', Buffer.copy C H b = some (H', b') ∧ Holds H' b' v ∧ Touches H H' none b'.mem := by
  have hused := h.usedSize
  have hle := h.used_le
  obtain ⟨spare, hnew, hspare, htouch⟩ :=
    allocate_spec C C.mallocZeroIsNull H [] (Nat.zero_le b.memSize)
  have hkept := h.frame htouch fun a _ hnone => by cases hnone
  have hroom : spare.length = b.memSize := by simpa using hspare
  have hfit : v.contents.length ≤ spare.length := by omega
  obtain ⟨H', hcopy, hblock', htouch'⟩ := memcpy_spec [] hnew hfit
  refine ⟨H', ⟨(malloc C H b.memSize).2, b.memSize, b.usedSize⟩, ?_, ?_, htouch.trans htouch'⟩
  · have hbytes : bytesAt (malloc C H b.memSize).1 b.mem b.usedSize = some v.contents :=
      hkept.bytesAt
    have hcopy' : memcpy (malloc C H b.memSize).1 (malloc C H b.memSize).2 0 v.contents =
        some H' := hcopy
    simp only [Buffer.copy, hbytes, Option.bind_eq_bind, Option.bind_some, hcopy']
  · rw [hused]
    refine Holds.of_split v (spare.drop v.contents.length) hblock' ?_ h.capacity h.range
    rw [List.length_drop, hroom, h.capacity, Bounded.room]

theorem extend_spec (C : Allocator) (h : Holds H b v) {size : ℕ}
    (hsize : b.memSize + size < sizeRange) :
    ∃ H' b', b.extend C H size = some (H', b') ∧ Holds H' b' (v.extend size) ∧
      Touches H H' b.mem b'.mem := by
  have hused := h.usedSize
  have hcap := h.capacity
  obtain ⟨spare, hblock, hroom⟩ := h.split
  rw [Bounded.room] at hroom
  have hbound := v.bounded
  by_cases hzero : size = 0
  · subst size
    exact ⟨H, b, rfl, h, Touches.refl H b.mem⟩
  · obtain ⟨H', mem', junk, hrealloc, hnew, hlen, htouch⟩ :=
      realloc_spec C hblock (wrap (size + b.memSize))
    have hwrap : wrap (size + b.memSize) = v.capacity + size := by
      rw [wrap_of_lt (by omega), hcap, Nat.add_comm]
    have hkeep : (v.contents ++ spare).take (wrap (size + b.memSize)) = v.contents ++ spare := by
      apply List.take_of_length_le
      rw [List.length_append]
      omega
    rw [hkeep] at hnew hlen
    rw [List.append_assoc] at hnew
    refine ⟨H', ⟨mem', wrap (b.memSize + size), v.contents.length⟩, ?_, ?_, htouch⟩
    · simp only [Buffer.extend, if_neg hzero, hrealloc, Option.bind_eq_bind, Option.bind_some,
        hused]
    · refine Holds.of_split (v.extend size) _ hnew ?_ ?_ ?_
      · rw [List.length_append] at hlen ⊢
        change spare.length + junk.length = v.capacity + size - v.contents.length
        omega
      · change wrap (b.memSize + size) = v.capacity + size
        rw [wrap_of_lt hsize, hcap]
      · rw [wrap_of_lt hsize]
        exact hsize

theorem resize_spec (C : Allocator) (h : Holds H b v) {newSize : ℕ}
    (hsize : newSize < sizeRange) :
    ∃ H' b', b.resize C H newSize = some (H', b') ∧ Holds H' b' (v.resize newSize) ∧
      Touches H H' b.mem b'.mem := by
  have hused := h.usedSize
  obtain ⟨spare, hblock, hroom⟩ := h.split
  obtain ⟨H', mem', junk, hrealloc, hnew, hlen, htouch⟩ := realloc_spec C hblock newSize
  have hcontents : (if b.usedSize > newSize then newSize else b.usedSize) =
      (v.resize newSize).contents.length := by
    change _ = (v.contents.take newSize).length
    rw [hused, List.length_take]
    split <;> omega
  have hsplit : (v.contents ++ spare).take newSize =
      v.contents.take newSize ++ spare.take (newSize - v.contents.length) := List.take_append
  rw [hsplit] at hnew hlen
  rw [List.append_assoc] at hnew
  refine ⟨H', ⟨mem', newSize, (v.resize newSize).contents.length⟩, ?_, ?_, htouch⟩
  · simp only [Buffer.resize, hrealloc, Option.bind_eq_bind, Option.bind_some, hcontents]
  · refine Holds.of_split (v.resize newSize) _ hnew ?_ rfl hsize
    change _ = newSize - (v.contents.take newSize).length
    simp only [List.length_append] at hlen ⊢
    omega

/-- Copying bytes behind the list, as far as there is room for them, and counting them. -/
theorem store_spec (h : Holds H b v) {data : List UInt8} (hfit : data.length ≤ v.room) :
    ∃ H', memcpy H b.mem b.usedSize data = some H' ∧
      Holds H' { b with usedSize := wrap (b.usedSize + data.length) } (v.advance data hfit) ∧
      Touches H H' b.mem b.mem := by
  have hused := h.usedSize
  have hcap := h.capacity
  have hrange := h.range
  have hbound := v.bounded
  obtain ⟨spare, hblock, hroom⟩ := h.split
  have hspare : data.length ≤ spare.length := by omega
  obtain ⟨H', hcopy, hblock', htouch⟩ := memcpy_spec _ hblock hspare
  rw [Bounded.room] at hfit hroom
  have hcount : wrap (b.usedSize + data.length) = (v.contents ++ data).length := by
    rw [wrap_of_lt (by omega), hused, List.length_append]
  refine ⟨H', by rw [hused]; exact hcopy, ?_, htouch⟩
  rw [hcount]
  refine Holds.of_split (v.advance data _) _ hblock' ?_ hcap hrange
  change _ = v.capacity - (v.contents ++ data).length
  rw [List.length_drop, List.length_append]
  omega

theorem room_eq (h : Holds H b v) : wrap (b.memSize + sizeRange - b.usedSize) = v.room := by
  have hused := h.usedSize
  have hcap := h.capacity
  have hrange := h.range
  have hle := h.used_le
  have hsum : b.memSize + sizeRange - b.usedSize = (b.memSize - b.usedSize) + sizeRange := by
    omega
  rw [hsum, wrap, Nat.add_mod_right, Nat.mod_eq_of_lt (by omega), hused, hcap, Bounded.room]

theorem write_spec (h : Holds H b v) {data : List UInt8}
    (hdata : b.full ∨ b.usedSize + data.length < sizeRange) :
    ∃ H' b', b.write H data = some ((H', b'), min data.length v.room) ∧
      Holds H' b' (v.write data) ∧ Touches H H' b.mem b'.mem := by
  have hused := h.usedSize
  have hcap := h.capacity
  have hbound := v.bounded
  have hroom : v.room = v.capacity - v.contents.length := rfl
  by_cases hfull : b.memSize = b.usedSize
  · have hnone : v.room = 0 := by omega
    have hsame : v.write data = v := by
      simp only [Bounded.write, hnone, List.take_zero, List.append_nil]
    refine ⟨H, b, ?_, ?_, Touches.refl H b.mem⟩
    · simp [Buffer.write, Buffer.full, hfull, hnone]
    · rw [hsame]
      exact h
  · have hfit : (data.take v.room).length ≤ v.room := List.length_take_le _ _
    obtain ⟨H', hcopy, hholds, htouch⟩ := store_spec h hfit
    refine ⟨H', _, ?_, hholds, htouch⟩
    have hfull' : b.full = false := decide_eq_false hfull
    have hwrap := wrap_of_lt (hdata.resolve_left (by rw [hfull']; exact Bool.false_ne_true))
    simp only [Buffer.write, hfull', Bool.false_eq_true, if_false]
    by_cases hover : wrap (b.usedSize + data.length) > b.memSize
    · have hcount : (data.take v.room).length = v.room := by
        rw [List.length_take]
        omega
      have hmin : min data.length v.room = v.room := by omega
      rw [if_pos hover, room_eq h, hcopy, hmin, hcount]
      rfl
    · have hall : data.take v.room = data := List.take_of_length_le (by omega)
      have hmin : min data.length v.room = data.length := by omega
      rw [hall] at hcopy ⊢
      rw [if_neg hover, hcopy, hmin]
      rfl

theorem append_spec (C : Allocator) (h : Holds H b v) {data : List UInt8}
    (hdata : data.length ≤ v.room ∨ b.memSize + data.length < sizeRange) :
    ∃ H' b', b.append C H data = some (H', b') ∧ Holds H' b' (v.append data) ∧
      Touches H H' b.mem b'.mem := by
  have hbound := v.bounded
  have hroom : v.room = v.capacity - v.contents.length := rfl
  by_cases hfit : data.length ≤ v.room
  · obtain ⟨H', hcopy, hholds, htouch⟩ := store_spec h hfit
    have hsame : v.append data = v.advance data hfit := by
      simp only [Bounded.append, if_pos hfit, Bounded.advance]
    have hno : ¬ data.length > b.availableSize := by
      rw [Buffer.availableSize, room_eq h]
      omega
    refine ⟨H', { b with usedSize := wrap (b.usedSize + data.length) }, ?_, ?_, htouch⟩
    · simp only [Buffer.append, if_neg hno, Option.bind_eq_bind, Option.bind_some, hcopy]
    · rw [hsame]
      exact hholds
  · obtain ⟨H₁, b₁, hextend, hholds₁, htouch₁⟩ :=
      extend_spec C h (hdata.resolve_left hfit)
    have hfit₁ : data.length ≤ (v.extend data.length).room := by
      change data.length ≤ v.capacity + data.length - v.contents.length
      omega
    obtain ⟨H', hcopy, hholds, htouch⟩ := store_spec hholds₁ hfit₁
    have hsame : v.append data = (v.extend data.length).advance data hfit₁ := by
      simp only [Bounded.append, if_neg hfit, Bounded.advance, Bounded.extend]
    have hyes : data.length > b.availableSize := by
      rw [Buffer.availableSize, room_eq h]
      omega
    refine ⟨H', { b₁ with usedSize := wrap (b₁.usedSize + data.length) }, ?_, ?_,
      htouch₁.trans htouch⟩
    · simp only [Buffer.append, if_pos hyes, hextend, Option.bind_eq_bind, Option.bind_some, hcopy]
    · rw [hsame]
      exact hholds

theorem clear_spec (h : Holds H b v) : Holds H b.clear v.clear := by
  obtain ⟨block, hblock, hlen, -⟩ := h.block
  constructor
  · exact Nat.zero_le _
  · exact ⟨block, hblock, hlen, rfl⟩
  · exact h.capacity
  · exact h.range

/-- Moving forward takes bytes of the room into the list. -/
theorem moveForward_spec (h : Holds H b v) {n : ℕ} (hn : n ≤ v.room) :
    ∃ bytes, ∃ hfit : bytes.length ≤ v.room, bytes.length = n ∧
      Holds H (b.moveForward n) (v.advance bytes hfit) := by
  have hused := h.usedSize
  have hcap := h.capacity
  have hrange := h.range
  have hbound := v.bounded
  obtain ⟨spare, hblock, hspare⟩ := h.split
  have hroom : v.room = v.capacity - v.contents.length := rfl
  have hlen : (spare.take n).length = n := by
    rw [List.length_take]
    omega
  have hcount : wrap (b.usedSize + n) = (v.contents ++ spare.take n).length := by
    rw [wrap_of_lt (by omega), hused, List.length_append, hlen]
  refine ⟨spare.take n, by omega, hlen, ?_⟩
  rw [Buffer.moveForward, hcount]
  refine Holds.of_split (v.advance (spare.take n) _) (spare.drop n) ?_ ?_ hcap hrange
  · change blockAt H b.mem = some (v.contents ++ spare.take n ++ spare.drop n)
    rw [List.append_assoc, List.take_append_drop]
    exact hblock
  · change _ = v.capacity - (v.contents ++ spare.take n).length
    rw [List.length_drop, List.length_append, hlen]
    omega

/-- What a caller writes behind the bytes in use is not in the list yet. -/
theorem fill_spec (h : Holds H b v) {bytes : List UInt8} (hfit : bytes.length ≤ v.room) :
    ∃ H', memcpy H b.mem b.usedSize bytes = some H' ∧ Holds H' b v ∧
      Touches H H' b.mem b.mem := by
  have hused := h.usedSize
  obtain ⟨spare, hblock, hspare⟩ := h.split
  have hfit : bytes.length ≤ spare.length := by omega
  obtain ⟨H', hcopy, hblock', htouch⟩ := memcpy_spec _ hblock hfit
  rw [List.append_assoc] at hblock'
  refine ⟨H', by rw [hused]; exact hcopy, ?_, htouch⟩
  have hholds := Holds.of_split v _ hblock' (by
    rw [List.length_append, List.length_drop]
    omega) h.capacity h.range
  rw [← hused] at hholds
  exact hholds

/-- Moving forward over what was just written there takes these bytes into the list. -/
theorem moveForward_fill_spec (h : Holds H b v) {bytes : List UInt8}
    (hfit : bytes.length ≤ v.room) :
    ∃ H', memcpy H b.mem b.usedSize bytes = some H' ∧
      Holds H' (b.moveForward bytes.length) (v.advance bytes hfit) := by
  obtain ⟨H', hcopy, hholds, -⟩ := store_spec h hfit
  exact ⟨H', hcopy, hholds⟩

end Operations

end BoxUtils.Buffers
