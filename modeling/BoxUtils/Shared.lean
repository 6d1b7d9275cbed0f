import BoxUtils.Heap
import Mathlib.Data.Int.Notation

/-!
Values in cells that several handles share. A cell counts its handles; a handle may be
copied, which shares the cell, or dropped, and the value goes with the last handle. What
is written through one handle is read through all of them.
-/
namespace BoxUtils.Shared

variable {V : Type*}

structure Cell (V : Type*) where
  value : V
  refcount : ℤ
  deriving DecidableEq

abbrev Cells (V : Type*) := Heap (Cell V)

/-- A new cell, at the address that comes with it, with a first handle. -/
def make (H : Cells V) (v : V) : Cells V × ℕ := (H.alloc ⟨v, 1⟩, H.fresh)

def share (H : Cells V) (a : ℕ) : Option (Cells V) :=
  H.modify a fun c => { c with refcount := c.refcount + 1 }

def read (H : Cells V) (a : ℕ) : Option V := (H.cell a).map Cell.value

def write (H : Cells V) (a : ℕ) (v : V) : Option (Cells V) :=
  H.modify a fun c => { c with value := v }

/-- A handle goes; the value is given back when it was the last one. -/
def drop (H : Cells V) (a : ℕ) : Option (Cells V × Option V) := do
  let c ← H.cell a
  if c.refcount - 1 ≤ 0 then some (H.erase a, some c.value)
  else some (H.put a { c with refcount := c.refcount - 1 }, none)

variable {H : Cells V} {a : ℕ} {v w : V} {k : ℤ}

theorem read_eq (h : H.cell a = some ⟨v, k⟩) : read H a = some v := by
  simp [read, h]

theorem read_eq_some_iff : read H a = some v ↔ ∃ k, H.cell a = some ⟨v, k⟩ := by
  constructor
  · intro h
    obtain ⟨⟨w, k⟩, hcell, rfl⟩ := Option.map_eq_some_iff.mp h
    exact ⟨k, hcell⟩
  · rintro ⟨k, hcell⟩
    exact read_eq hcell

theorem read_put (h : H.cell a = some ⟨v, k⟩) (c : Cell V) (b : ℕ) :
    read (H.put a c) b = if b = a then some c.value else read H b := by
  unfold read
  by_cases hba : b = a
  · rw [if_pos hba, hba, Heap.cell_put_self h, Option.map_some]
  · rw [if_neg hba, Heap.cell_put_of_ne H c hba]

/-- Counting does not change what is read. -/
theorem read_put_same (h : H.cell a = some ⟨v, k⟩) (k' : ℤ) (b : ℕ) :
    read (H.put a ⟨v, k'⟩) b = read H b := by
  rw [read_put h]
  split
  case isTrue hba => rw [hba, read_eq h]
  case isFalse => rfl

theorem read_make (H : Cells V) (v : V) (b : ℕ) :
    read (make H v).1 b = if b = H.fresh then some v else read H b := by
  unfold read make
  by_cases hb : b = H.fresh
  · rw [if_pos hb, hb, Heap.cell_alloc_self, Option.map_some]
  · rw [if_neg hb, Heap.cell_alloc_of_ne H _ hb]

theorem read_erase (H : Cells V) (a b : ℕ) :
    read (H.erase a) b = if b = a then none else read H b := by
  unfold read
  by_cases hba : b = a
  · rw [if_pos hba, hba, Heap.cell_erase_self, Option.map_none]
  · rw [if_neg hba, Heap.cell_erase_of_ne H hba]

theorem share_eq (h : H.cell a = some ⟨v, k⟩) : share H a = some (H.put a ⟨v, k + 1⟩) :=
  Heap.modify_eq h _

theorem write_eq (h : H.cell a = some ⟨v, k⟩) : write H a w = some (H.put a ⟨w, k⟩) :=
  Heap.modify_eq h _

theorem drop_last (h : H.cell a = some ⟨v, 1⟩) : drop H a = some (H.erase a, some v) := by
  simp [drop, h]

theorem drop_shared (h : H.cell a = some ⟨v, k⟩) (hk : 1 < k) :
    drop H a = some (H.put a ⟨v, k - 1⟩, none) := by
  have hmore : ¬ k - 1 ≤ 0 := by omega
  simp only [drop, h, Option.bind_eq_bind, Option.bind_some, if_neg hmore]

end BoxUtils.Shared
