import Mathlib.Data.Finset.Card
import Mathlib.Data.Int.Notation
import Mathlib.Logic.Function.Basic

/-!
Counting the members of a finite set that refer to one target. A member refers
to at most one target at a time; the count of a target changes by one when a
member joins, leaves or is redirected, and by nothing otherwise. Stored counts
are exact when every target that is referred to has a cell with its count and
no other target has a cell; the rules at the end keep them so under the steps
of reference counting.
-/
namespace BoxUtils.Counting

variable {H B : Type*} [DecidableEq B]

/-- The number of members of S that refer to b. -/
def refs (S : Finset H) (tgt : H → Option B) (b : B) : ℕ :=
  (S.filter fun h => tgt h = some b).card

/-- One for a reference to b, zero for anything else. -/
def one (x : Option B) (b : B) : ℕ := if x = some b then 1 else 0

@[simp] theorem one_none (b : B) : one none b = 0 := rfl

@[simp] theorem one_self (b : B) : one (some b) b = 1 := by simp [one]

theorem one_of_ne {a b : B} (hab : a ≠ b) : one (some a) b = 0 := by simp [one, hab]

@[simp] theorem refs_empty (tgt : H → Option B) (b : B) : refs ∅ tgt b = 0 := rfl

theorem refs_congr {S : Finset H} {tgt tgt' : H → Option B} (h : ∀ x ∈ S, tgt x = tgt' x) (b : B) :
    refs S tgt b = refs S tgt' b := by
  unfold refs
  congr 1
  apply Finset.filter_congr
  intro x hx
  rw [h x hx]

theorem refs_pos_iff (S : Finset H) (tgt : H → Option B) (b : B) :
    0 < refs S tgt b ↔ ∃ x ∈ S, tgt x = some b := by
  simp [refs, Finset.card_pos, Finset.Nonempty]

theorem refs_eq_zero_iff (S : Finset H) (tgt : H → Option B) (b : B) :
    refs S tgt b = 0 ↔ ∀ x ∈ S, tgt x ≠ some b := by
  simp [refs, Finset.filter_eq_empty_iff]

section Change

variable [DecidableEq H]

theorem refs_erase {S : Finset H} {x : H} (hx : x ∈ S) (tgt : H → Option B) (b : B) :
    refs (S.erase x) tgt b + one (tgt x) b = refs S tgt b := by
  unfold refs one
  rw [Finset.filter_erase]
  by_cases hb : tgt x = some b
  · have hmem : x ∈ S.filter fun h => tgt h = some b := Finset.mem_filter.mpr ⟨hx, hb⟩
    rw [if_pos hb, Finset.card_erase_add_one hmem]
  · have hmem : x ∉ S.filter fun h => tgt h = some b := fun h => hb (Finset.mem_filter.mp h).2
    rw [if_neg hb, Finset.erase_eq_of_notMem hmem]
    rfl

/-- A redirected member is not counted for its old target any more. -/
theorem refs_erase_update (S : Finset H) (x : H) (tgt : H → Option B) (y : Option B) (b : B) :
    refs (S.erase x) (Function.update tgt x y) b = refs (S.erase x) tgt b := by
  apply refs_congr
  intro z hz
  rw [Function.update_of_ne (Finset.ne_of_mem_erase hz)]

theorem refs_update {S : Finset H} {x : H} (hx : x ∈ S) (tgt : H → Option B) (y : Option B)
    (b : B) :
    refs S (Function.update tgt x y) b + one (tgt x) b = refs S tgt b + one y b := by
  have hnew := refs_erase hx (Function.update tgt x y) b
  have hold := refs_erase hx tgt b
  rw [refs_erase_update, Function.update_self] at hnew
  omega

theorem refs_insert {S : Finset H} {x : H} (hx : x ∉ S) (tgt : H → Option B) (y : Option B)
    (b : B) :
    refs (insert x S) (Function.update tgt x y) b = refs S tgt b + one y b := by
  have h := refs_erase (Finset.mem_insert_self x S) (Function.update tgt x y) b
  rw [refs_erase_update, Function.update_self, Finset.erase_insert hx] at h
  exact h.symm

theorem refs_erase_of_ne {S : Finset H} {x : H} (hx : x ∈ S) {tgt : H → Option B} {b c : B}
    (hb : tgt x = some b) (hcb : c ≠ b) : refs (S.erase x) tgt c = refs S tgt c := by
  rw [← refs_erase hx tgt c, hb, one_of_ne (Ne.symm hcb)]
  rfl

theorem refs_insert_of_ne {S : Finset H} {x : H} (hx : x ∉ S) (tgt : H → Option B) {b c : B}
    (hcb : c ≠ b) : refs (insert x S) (Function.update tgt x (some b)) c = refs S tgt c := by
  rw [refs_insert hx, one_of_ne (Ne.symm hcb)]
  rfl

end Change

section Cells

variable {S : Finset H} {tgt : H → Option B} {cell : B → Option ℤ} {x : H} {b : B}

/-- The cells hold the counts of the targets that are referred to, and no others. -/
def Exact (S : Finset H) (tgt : H → Option B) (cell : B → Option ℤ) : Prop :=
  ∀ b, cell b = if refs S tgt b = 0 then none else some (refs S tgt b : ℤ)

theorem Exact.cell_of_ref (h : Exact S tgt cell) (hx : x ∈ S) (hb : tgt x = some b) :
    cell b = some (refs S tgt b : ℤ) := by
  have hpos : 0 < refs S tgt b := (refs_pos_iff S tgt b).mpr ⟨x, hx, hb⟩
  rw [h b, if_neg (by omega)]

theorem Exact.refs_of_cell (h : Exact S tgt cell) {k : ℤ} (hk : cell b = some k) :
    k = refs S tgt b := by
  rw [h b] at hk
  split at hk
  · cases hk
  · exact (Option.some.inj hk).symm

theorem Exact.refs_pos_of_cell (h : Exact S tgt cell) {k : ℤ} (hk : cell b = some k) :
    0 < refs S tgt b := by
  rw [h b] at hk
  split at hk
  · cases hk
  · omega

theorem Exact.refs_zero_of_none (h : Exact S tgt cell) (hk : cell b = none) :
    refs S tgt b = 0 := by
  rw [h b] at hk
  split at hk
  case isTrue hzero => exact hzero
  case isFalse => cases hk

theorem Exact.congr {tgt' : H → Option B} {cell' : B → Option ℤ} (h : Exact S tgt cell)
    (htgt : ∀ y ∈ S, tgt y = tgt' y) (hcell : ∀ b, cell' b = cell b) : Exact S tgt' cell' := by
  intro c
  rw [hcell c, h c, refs_congr htgt c]

/-- Only one target is referred to by another number of members. -/
theorem Exact.update {S' : Finset H} {tgt' : H → Option B} {count : Option ℤ}
    (h : Exact S tgt cell) (hother : ∀ c, c ≠ b → refs S' tgt' c = refs S tgt c)
    (hcount : count = if refs S' tgt' b = 0 then none else some (refs S' tgt' b : ℤ)) :
    Exact S' tgt' (Function.update cell b count) := by
  intro c
  by_cases hcb : c = b
  · subst c
    rw [Function.update_self]
    exact hcount
  · rw [Function.update_of_ne hcb, hother c hcb]
    exact h c

variable [DecidableEq H]

/-- A member without a target may leave. -/
theorem Exact.erase_null (h : Exact S tgt cell) (hx : x ∈ S) (hnull : tgt x = none) :
    Exact (S.erase x) tgt cell := by
  intro c
  have hc := refs_erase hx tgt c
  rw [hnull, one_none] at hc
  rw [h c, ← hc]
  rfl

/-- A member leaves a target that others still refer to. -/
theorem Exact.erase_shared (h : Exact S tgt cell) (hx : x ∈ S) (hb : tgt x = some b)
    (hmore : 1 < refs S tgt b) :
    Exact (S.erase x) tgt (Function.update cell b (some ((refs S tgt b : ℤ) - 1))) := by
  apply h.update fun c hcb => refs_erase_of_ne hx hb hcb
  have hleft := refs_erase hx tgt b
  rw [hb, one_self] at hleft
  rw [if_neg (by omega)]
  congr 1
  omega

/-- The last member that refers to a target leaves, and its cell goes with it. -/
theorem Exact.erase_last (h : Exact S tgt cell) (hx : x ∈ S) (hb : tgt x = some b)
    (hlast : refs S tgt b ≤ 1) : Exact (S.erase x) tgt (Function.update cell b none) := by
  apply h.update fun c hcb => refs_erase_of_ne hx hb hcb
  have hleft := refs_erase hx tgt b
  rw [hb, one_self] at hleft
  rw [if_pos (by omega)]

theorem Exact.insert_null (h : Exact S tgt cell) (hx : x ∉ S) :
    Exact (insert x S) (Function.update tgt x none) cell := by
  intro c
  rw [refs_insert hx, one_none]
  exact h c

/-- A new member joins those that refer to a target. -/
theorem Exact.insert_shared (h : Exact S tgt cell) (hx : x ∉ S) {k : ℤ}
    (hk : cell b = some k) :
    Exact (insert x S) (Function.update tgt x (some b))
      (Function.update cell b (some (k + 1))) := by
  apply h.update fun c hcb => refs_insert_of_ne hx tgt hcb
  rw [refs_insert hx, one_self, h.refs_of_cell hk, if_neg (by omega)]
  rfl

/-- A new member brings a new target. -/
theorem Exact.insert_fresh (h : Exact S tgt cell) (hx : x ∉ S) (hfresh : cell b = none) :
    Exact (insert x S) (Function.update tgt x (some b)) (Function.update cell b (some 1)) := by
  apply h.update fun c hcb => refs_insert_of_ne hx tgt hcb
  rw [refs_insert hx, one_self, h.refs_zero_of_none hfresh]
  rfl

/-- A new member takes over the target of another one. -/
theorem Exact.insert_moved (h : Exact S tgt cell) (hx : x ∉ S) {y : H} (hy : y ∈ S) :
    Exact (insert x S) (Function.update (Function.update tgt x (tgt y)) y none) cell := by
  intro c
  have hyx : y ≠ x := by
    intro heq
    subst heq
    exact hx hy
  have hmem : y ∈ insert x S := Finset.mem_insert_of_mem hy
  have hmove := refs_update hmem (Function.update tgt x (tgt y)) none c
  rw [Function.update_of_ne hyx, one_none, refs_insert hx] at hmove
  have heq : refs (insert x S) (Function.update (Function.update tgt x (tgt y)) y none) c =
      refs S tgt c := by omega
  rw [heq]
  exact h c

end Cells

end BoxUtils.Counting
