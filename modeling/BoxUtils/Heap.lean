import Mathlib.Data.Nat.Notation
import Mathlib.Logic.Function.Basic
import Mathlib.Tactic.Common

/-!
A heap of cells at natural-number addresses. An address is handed out once and
never again, so a cell that was freed stays recognisable: reading it, writing
it or freeing it a second time has no result. The field `unused` keeps every
address not handed out so far without a cell.
-/
namespace BoxUtils

structure Heap (V : Type*) where
  cell : ℕ → Option V
  fresh : ℕ
  unused : ∀ a, fresh ≤ a → cell a = none

namespace Heap

variable {V : Type*}

def empty : Heap V := ⟨fun _ => none, 0, fun _ _ => rfl⟩

theorem lt_fresh {h : Heap V} {a : ℕ} {v : V} (ha : h.cell a = some v) : a < h.fresh := by
  by_contra hle
  have hnone := h.unused a (Nat.le_of_not_lt hle)
  rw [ha] at hnone
  cases hnone

/-- Hands out the next address with the given contents. -/
def alloc (h : Heap V) (v : V) : Heap V where
  cell := Function.update h.cell h.fresh (some v)
  fresh := h.fresh + 1
  unused a ha := by
    rw [Function.update_of_ne (by omega)]
    exact h.unused a (by omega)

/-- Overwrites a cell; addresses not handed out are left alone. -/
def put (h : Heap V) (a : ℕ) (v : V) : Heap V where
  cell := if a < h.fresh then Function.update h.cell a (some v) else h.cell
  fresh := h.fresh
  unused b hb := by
    split
    · rw [Function.update_of_ne (by omega)]
      exact h.unused b hb
    · exact h.unused b hb

def erase (h : Heap V) (a : ℕ) : Heap V where
  cell := Function.update h.cell a none
  fresh := h.fresh
  unused b hb := by
    by_cases hab : b = a
    · subst b
      simp
    · rw [Function.update_of_ne hab]
      exact h.unused b hb

/-- Changes a live cell; there is no result for a cell that is not live. -/
def modify (h : Heap V) (a : ℕ) (f : V → V) : Option (Heap V) :=
  (h.cell a).map fun v => h.put a (f v)

/-- Gives a live cell back; freeing it again has no result. -/
def free (h : Heap V) (a : ℕ) : Option (Heap V) :=
  (h.cell a).map fun _ => h.erase a

@[simp] theorem fresh_alloc (h : Heap V) (v : V) : (h.alloc v).fresh = h.fresh + 1 := rfl

@[simp] theorem cell_alloc_self (h : Heap V) (v : V) : (h.alloc v).cell h.fresh = some v := by
  simp [alloc]

theorem cell_alloc_of_ne (h : Heap V) (v : V) {a : ℕ} (ha : a ≠ h.fresh) :
    (h.alloc v).cell a = h.cell a := by
  simp [alloc, ha]

/-- A new cell leaves every live cell as it was. -/
theorem cell_alloc_of_live {h : Heap V} (v : V) {a : ℕ} {w : V} (ha : h.cell a = some w) :
    (h.alloc v).cell a = some w := by
  rw [cell_alloc_of_ne h v (Nat.ne_of_lt (lt_fresh ha)), ha]

theorem cell_put_self {h : Heap V} {a : ℕ} {w : V} (ha : h.cell a = some w) (v : V) :
    (h.put a v).cell a = some v := by
  simp [put, lt_fresh ha]

theorem cell_put_of_ne (h : Heap V) (v : V) {a b : ℕ} (hab : b ≠ a) :
    (h.put a v).cell b = h.cell b := by
  unfold put
  split
  · simp [hab]
  · rfl

theorem cell_put {h : Heap V} {a : ℕ} {w : V} (ha : h.cell a = some w) (v : V) :
    (h.put a v).cell = Function.update h.cell a (some v) := by
  simp [put, lt_fresh ha]

/-- Overwriting a live cell leaves the same cells live. -/
theorem cell_put_eq_none_iff {h : Heap V} {a b : ℕ} {w : V} (ha : h.cell a = some w) (v : V) :
    (h.put a v).cell b = none ↔ h.cell b = none := by
  rw [cell_put ha]
  by_cases hab : b = a
  · subst b
    simp [ha]
  · rw [Function.update_of_ne hab]

@[simp] theorem cell_erase_self (h : Heap V) (a : ℕ) : (h.erase a).cell a = none := by
  simp [erase]

theorem cell_erase_of_ne (h : Heap V) {a b : ℕ} (hab : b ≠ a) :
    (h.erase a).cell b = h.cell b := by
  simp [erase, hab]

/-- A cell that is still there after another one was freed. -/
theorem cell_of_erase {h : Heap V} {a b : ℕ} {v : V} (hb : (h.erase a).cell b = some v) :
    b ≠ a ∧ h.cell b = some v := by
  by_cases hab : b = a
  · rw [hab, cell_erase_self] at hb
    cases hb
  · rw [cell_erase_of_ne h hab] at hb
    exact ⟨hab, hb⟩

theorem live_of_erase {h : Heap V} {a b : ℕ} (hb : (h.erase a).cell b ≠ none) :
    h.cell b ≠ none := by
  obtain ⟨v, hv⟩ := Option.ne_none_iff_exists'.mp hb
  simp [(cell_of_erase hv).2]

/-- A change that frees no cell and makes none leaves the same cells live. -/
theorem isSome_eq_of_live {h h' : Heap V} {a : ℕ} (hdead : h.cell a = none → h'.cell a = none)
    (hlive : ∀ v, h.cell a = some v → ∃ v', h'.cell a = some v') :
    (h'.cell a).isSome = (h.cell a).isSome := by
  cases ha : h.cell a with
  | none => rw [hdead ha]
  | some v =>
    obtain ⟨v', hv'⟩ := hlive v ha
    rw [hv']
    rfl

theorem modify_eq {h : Heap V} {a : ℕ} {v : V} (ha : h.cell a = some v) (f : V → V) :
    h.modify a f = some (h.put a (f v)) := by
  simp [modify, ha]

theorem modify_dead {h : Heap V} {a : ℕ} (ha : h.cell a = none) (f : V → V) :
    h.modify a f = none := by
  simp [modify, ha]

/-- Changing a live cell changes that cell and no other. -/
theorem exists_modify {h : Heap V} {a : ℕ} (ha : h.cell a ≠ none) (f : V → V) :
    ∃ h', h.modify a f = some h' ∧
      ∀ b, h'.cell b = (h.cell b).map fun v => if b = a then f v else v := by
  obtain ⟨v, hv⟩ := Option.ne_none_iff_exists'.mp ha
  refine ⟨_, modify_eq hv f, fun b => ?_⟩
  rw [cell_put hv]
  by_cases hab : b = a
  · subst b
    simp [hv]
  · simp [hab]

theorem free_eq {h : Heap V} {a : ℕ} {v : V} (ha : h.cell a = some v) :
    h.free a = some (h.erase a) := by
  simp [free, ha]

/-- What an address holds has the property, if it holds anything. -/
def At (h : Heap V) (a : ℕ) (P : V → Prop) : Prop := ∀ v, h.cell a = some v → P v

/-- Every cell has the property. -/
def Everywhere (h : Heap V) (P : V → Prop) : Prop := ∀ a, h.At a P

section Cells

variable {P : V → Prop} {h h' : Heap V} {a b : ℕ} {v : V}

theorem everywhere_empty (P : V → Prop) : (empty : Heap V).Everywhere P := fun _ _ hv => by cases hv

theorem At.alloc (ha : h.At a P) (hv : P v) : (h.alloc v).At a P := by
  intro w hw
  by_cases hfresh : a = h.fresh
  · subst a
    obtain rfl : v = w := Option.some.inj ((cell_alloc_self h v).symm.trans hw)
    exact hv
  · exact ha w ((cell_alloc_of_ne h v hfresh).symm.trans hw)

theorem At.put (ha : h.At a P) (hv : P v) : (h.put b v).At a P := by
  intro w hw
  unfold Heap.put at hw
  split at hw
  · by_cases hab : a = b
    · subst a
      obtain rfl : v = w := by simpa using hw
      exact hv
    · exact ha w (by simpa [hab] using hw)
  · exact ha w hw

theorem At.erase (ha : h.At a P) (b : ℕ) : (h.erase b).At a P :=
  fun w hw => ha w (cell_of_erase hw).2

theorem At.modify {f : V → V} (ha : h.At a P) (hmodify : h.modify b f = some h')
    (hf : ∀ w, P w → P (f w)) : h'.At a P := by
  obtain ⟨w, hw, rfl⟩ := Option.map_eq_some_iff.mp hmodify
  intro u hu
  by_cases hab : a = b
  · subst a
    obtain rfl : f w = u := Option.some.inj ((cell_put_self hw _).symm.trans hu)
    exact hf w (ha w hw)
  · exact ha u ((cell_put_of_ne h _ hab).symm.trans hu)

theorem At.free (ha : h.At a P) (hfree : h.free b = some h') : h'.At a P := by
  obtain ⟨w, -, rfl⟩ := Option.map_eq_some_iff.mp hfree
  exact ha.erase b

end Cells

end Heap

end BoxUtils
