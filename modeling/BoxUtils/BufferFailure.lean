import BoxUtils.Buffer

/-!
Buffers that grow when `realloc` fails. It then gives a null pointer and leaves the old
block alone. `extend` and `resize` store what it gives before anything is asked, and the
new capacity after it, and `append` copies through the new pointer.
-/
namespace BoxUtils.Buffers

/-- Any function that may stand for `realloc`. -/
abbrev Realloc := Memory → Option ℕ → ℕ → Option (Memory × Option ℕ)

/-- A call of one of the functions that get to `realloc`. -/
inductive Growth
  | extend (size : ℕ)
  | resize (newSize : ℕ)
  | append (data : List UInt8)
  deriving DecidableEq, Repr

namespace Buffer

section Source

variable (realloc : Realloc)

def extendWith (H : Memory) (b : Buffer) (size : ℕ) : Option (Memory × Buffer) :=
  if size = 0 then some (H, b)
  else do
    let (H, mem) ← realloc H b.mem (wrap (size + b.memSize))
    some (H, { b with mem := mem, memSize := wrap (b.memSize + size) })

def resizeWith (H : Memory) (b : Buffer) (newSize : ℕ) : Option (Memory × Buffer) := do
  let (H, mem) ← realloc H b.mem newSize
  let usedSize := if b.usedSize > newSize then newSize else b.usedSize
  some (H, ⟨mem, newSize, usedSize⟩)

def appendWith (H : Memory) (b : Buffer) (data : List UInt8) : Option (Memory × Buffer) := do
  let (H, b) ← if data.length > b.availableSize then b.extendWith realloc H data.length
    else some (H, b)
  let H ← memcpy H b.mem b.usedSize data
  some (H, { b with usedSize := wrap (b.usedSize + data.length) })

def grow (H : Memory) (b : Buffer) : Growth → Option (Memory × Buffer)
  | .extend size => b.extendWith realloc H size
  | .resize newSize => b.resizeWith realloc H newSize
  | .append data => b.appendWith realloc H data

end Source

section Success

variable (C : Allocator) (H : Memory) (b : Buffer)

/-- With a `realloc` that succeeds these are the operations on buffers. -/
theorem grow_realloc (call : Growth) :
    b.grow (realloc C) H call =
      match call with
      | .extend size => b.extend C H size
      | .resize newSize => b.resize C H newSize
      | .append data => b.append C H data := by
  cases call <;> rfl

end Success

end Buffer

section Failure

/-- A null pointer, and the old block as it was. -/
def reallocFails : Realloc := fun H _ _ => some (H, none)

/-- The call gets to `realloc`. -/
def Reallocates (b : Buffer) : Growth → Prop
  | .extend size => size ≠ 0
  | .resize _ => True
  | .append data => b.availableSize < data.length

instance (b : Buffer) (call : Growth) : Decidable (Reallocates b call) := by
  cases call <;> dsimp only [Reallocates] <;> infer_instance

def Growth.InRange : Growth → Prop
  | .extend size => size < sizeRange
  | .resize newSize => newSize < sizeRange
  | .append data => data.length < sizeRange

instance (call : Growth) : Decidable call.InRange := by
  cases call <;> dsimp only [Growth.InRange] <;> infer_instance

/-- The failing call leaves the memory and the buffer as they were. -/
def FailsCleanly (H : Memory) (b : Buffer) (call : Growth) : Prop :=
  b.grow reallocFails H call = some (H, b)

/-- A buffer without a block is resized to the capacity that it says it has. -/
def ResizesNothing (b : Buffer) (call : Growth) : Prop :=
  call = .resize b.memSize ∧ b.mem = none ∧ b.usedSize ≤ b.memSize

instance (b : Buffer) (call : Growth) : Decidable (ResizesNothing b call) :=
  inferInstanceAs (Decidable (_ ∧ _ ∧ _))

variable {H : Memory} {b : Buffer} {size : ℕ}

/-- The capacity grows although the block is lost. -/
theorem extendWith_fails (hsize : size ≠ 0) :
    b.extendWith reallocFails H size =
      some (H, { b with mem := none, memSize := wrap (b.memSize + size) }) := if_neg hsize

theorem not_failsCleanly_extend (hb : b.memSize < sizeRange) (hrange : size < sizeRange)
    (hsize : size ≠ 0) : ¬ FailsCleanly H b (.extend size) := by
  intro hclean
  have hsame := (extendWith_fails hsize).symm.trans hclean
  have hcapacity : wrap (b.memSize + size) = b.memSize :=
    congrArg (fun r : Memory × Buffer => r.2.memSize) (Option.some.inj hsame)
  rw [wrap] at hcapacity
  by_cases hsum : b.memSize + size < sizeRange
  · rw [Nat.mod_eq_of_lt hsum] at hcapacity
    omega
  · rw [Nat.mod_eq_sub_mod (Nat.not_lt.mp hsum), Nat.mod_eq_of_lt (by omega)] at hcapacity
    omega

/-- Bytes are copied through the null pointer. -/
theorem not_failsCleanly_append {data : List UInt8} (hdata : b.availableSize < data.length) :
    ¬ FailsCleanly H b (.append data) := by
  intro hclean
  have hlen : data.length ≠ 0 := Nat.ne_zero_of_lt hdata
  have hcopy : memcpy H none b.usedSize data = none :=
    if_neg fun hnil => hlen (congrArg List.length hnil)
  have hnone : b.appendWith reallocFails H data = none := by
    simp only [Buffer.appendWith, gt_iff_lt, if_pos hdata, extendWith_fails hlen,
      Option.bind_eq_bind, Option.bind_some, hcopy, Option.bind_none]
  cases hnone.symm.trans hclean

theorem failsCleanly_resize_iff :
    FailsCleanly H b (.resize size) ↔ ResizesNothing b (.resize size) := by
  have hresult : b.grow reallocFails H (.resize size) =
      some (H, ⟨none, size, if b.usedSize > size then size else b.usedSize⟩) := rfl
  obtain ⟨mem, memSize, usedSize⟩ := b
  rw [FailsCleanly, ResizesNothing, hresult]
  simp only [Option.some.injEq, Prod.mk.injEq, true_and, Buffer.mk.injEq, Growth.resize.injEq]
  constructor
  · rintro ⟨rfl, rfl, hused⟩
    refine ⟨rfl, rfl, ?_⟩
    split at hused
    · exact Nat.le_of_eq hused.symm
    · omega
  · rintro ⟨rfl, rfl, hused⟩
    exact ⟨rfl, rfl, if_neg (Nat.not_lt.mpr hused)⟩

/-- A call in which `realloc` fails changes nothing if and only if it resizes a buffer without
a block to the capacity that it has. -/
theorem fails_cleanly_iff (H : Memory) {b : Buffer} {call : Growth} (hb : b.memSize < sizeRange)
    (hrange : call.InRange) (hcall : Reallocates b call) :
    FailsCleanly H b call ↔ ResizesNothing b call := by
  cases call with
  | extend size =>
    constructor
    · intro hclean
      exact absurd hclean (not_failsCleanly_extend hb hrange hcall)
    · intro h
      cases h.1
  | resize newSize => exact failsCleanly_resize_iff
  | append data =>
    constructor
    · intro hclean
      exact absurd hclean (not_failsCleanly_append hcall)
    · intro h
      cases h.1

/-- Extending a buffer that has two of four bytes in use. -/
theorem fails_cleanly_four :
    FailsCleanly (Heap.empty.alloc [1, 2, 0, 0]) ⟨some 0, 4, 2⟩ (.extend 3) ↔
      ResizesNothing ⟨some 0, 4, 2⟩ (.extend 3) :=
  fails_cleanly_iff (Heap.empty.alloc [1, 2, 0, 0]) (by decide) (by decide) (by decide)

/-- The block of this buffer is lost. -/
theorem block_lost :
    ¬ ∀ (H : Memory) (b : Buffer) (call : Growth), b.memSize < sizeRange → call.InRange →
      Reallocates b call → FailsCleanly H b call := by
  intro h
  have hclean := h (Heap.empty.alloc [1, 2, 0, 0]) ⟨some 0, 4, 2⟩ (.extend 3) (by decide)
    (by decide) (by decide)
  exact not_failsCleanly_extend (by decide) (by decide) (by decide) hclean

end Failure

end BoxUtils.Buffers
