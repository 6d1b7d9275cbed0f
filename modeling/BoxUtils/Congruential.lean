import Mathlib.Algebra.Ring.GeomSum
import Mathlib.Data.ZMod.Basic
import Mathlib.Logic.Function.Iterate
import Mathlib.NumberTheory.Multiplicity
import Mathlib.RingTheory.Coprime.Lemmas
import Mathlib.RingTheory.Int.Basic

/-!
Linear congruential generators modulo a power of two. With a multiplier that leaves 1
modulo 4 and an odd increment the map is one cycle through all residues. The k-th iterate
adds a multiple of the geometric sum of the multiplier, in which 2 occurs as often as in k.
-/
namespace BoxUtils.Congruential

open Finset Function

variable {w : ℕ} {a c : ℤ}

/-- One step of the generator with multiplier a and increment c. -/
def advance (w : ℕ) (a c : ℤ) (x : ZMod (2 ^ w)) : ZMod (2 ^ w) := a * x + c

theorem iterate_advance (w : ℕ) (a c : ℤ) (k : ℕ) (x : ZMod (2 ^ w)) :
    (advance w a c)^[k] x = a ^ k * x + c * ∑ i ∈ range k, (a : ZMod (2 ^ w)) ^ i := by
  induction k with
  | zero => simp
  | succ k ih =>
    have hsum : ∑ i ∈ range (k + 1), (a : ZMod (2 ^ w)) ^ i =
        a * ∑ i ∈ range k, (a : ZMod (2 ^ w)) ^ i + 1 := by
      rw [sum_range_succ', pow_zero, mul_sum]
      simp only [pow_succ']
    rw [iterate_succ_apply', ih, advance, hsum, pow_succ']
    ring

/-- The factor 2 occurs in the geometric sum of a as often as in its length. -/
theorem emultiplicity_geom_sum (ha : 4 ∣ a - 1) (k : ℕ) :
    emultiplicity 2 (∑ i ∈ range k, a ^ i) = emultiplicity 2 (k : ℤ) := by
  by_cases hone : a = 1
  · simp [hone]
  · have hodd : ¬ 2 ∣ a := by omega
    have hlift : emultiplicity 2 (a ^ k - 1) =
        emultiplicity 2 (a - 1) + emultiplicity 2 (k : ℤ) := by
      simpa using Int.two_pow_sub_pow' k ha hodd
    have hfinite : emultiplicity 2 (a - 1) ≠ ⊤ := by
      rw [Ne, emultiplicity_eq_top, not_not]
      exact Int.finiteMultiplicity_iff.mpr ⟨by decide, sub_ne_zero.mpr hone⟩
    rw [← geom_sum_mul, emultiplicity_mul Int.prime_two, add_comm] at hlift
    exact ENat.add_right_injective_of_ne_top hfinite hlift

theorem two_pow_dvd_geom_sum (ha : 4 ∣ a - 1) (w k : ℕ) :
    (2 : ℤ) ^ w ∣ ∑ i ∈ range k, a ^ i ↔ 2 ^ w ∣ k := by
  rw [pow_dvd_iff_le_emultiplicity, emultiplicity_geom_sum ha, ← pow_dvd_iff_le_emultiplicity]
  exact_mod_cast Iff.rfl

/-- The periods of every residue are the multiples of the modulus. -/
theorem iterate_eq_self_iff (ha : 4 ∣ a - 1) (hc : Odd c) (x : ZMod (2 ^ w)) (k : ℕ) :
    (advance w a c)^[k] x = x ↔ 2 ^ w ∣ k := by
  obtain ⟨n, rfl⟩ : ∃ n : ℤ, (n : ZMod (2 ^ w)) = x := ⟨_, ZMod.intCast_zmod_cast x⟩
  let sum := ∑ i ∈ range k, a ^ i
  -- the iterate moves x by the sum times an odd number
  have hmove : a ^ k * n + c * sum - n = sum * ((a - 1) * n + c) := by
    have hpow : sum * (a - 1) = a ^ k - 1 := geom_sum_mul a k
    calc a ^ k * n + c * sum - n = (a ^ k - 1) * n + sum * c := by ring
      _ = sum * (a - 1) * n + sum * c := by rw [hpow]
      _ = sum * ((a - 1) * n + c) := by ring
  have hodd : Odd ((a - 1) * n + c) := by
    obtain ⟨b, hb⟩ := ha
    rw [hb]
    exact (even_iff_two_dvd.mpr ⟨2 * b * n, by ring⟩).add_odd hc
  have hcoprime : IsCoprime ((2 : ℤ) ^ w) ((a - 1) * n + c) :=
    (Int.isCoprime_two_left.mpr hodd).pow_left
  have hiter : (advance w a c)^[k] (n : ZMod (2 ^ w)) =
      ((a ^ k * n + c * sum : ℤ) : ZMod (2 ^ w)) := by
    rw [iterate_advance]
    push_cast [sum]
    rfl
  rw [hiter, ← sub_eq_zero, ← Int.cast_sub, hmove, ZMod.intCast_zmod_eq_zero_iff_dvd,
    Nat.cast_pow, Nat.cast_ofNat, ← two_pow_dvd_geom_sum ha]
  exact ⟨hcoprime.dvd_of_dvd_mul_right, fun hdvd => hdvd.mul_right _⟩

theorem iterate_ne (ha : 4 ∣ a - 1) (hc : Odd c) (x : ZMod (2 ^ w)) {i j : ℕ} (hij : i < j)
    (hj : j < 2 ^ w) : (advance w a c)^[i] x ≠ (advance w a c)^[j] x := by
  intro heq
  have hagain : (advance w a c)^[j - i] ((advance w a c)^[i] x) = (advance w a c)^[i] x := by
    rw [← iterate_add_apply, Nat.sub_add_cancel (Nat.le_of_lt hij), heq]
  have hdvd := (iterate_eq_self_iff ha hc _ _).mp hagain
  have hle := Nat.le_of_dvd (Nat.sub_pos_of_lt hij) hdvd
  omega

/-- Every residue comes up in the first round. -/
theorem exists_iterate_eq (ha : 4 ∣ a - 1) (hc : Odd c) (x y : ZMod (2 ^ w)) :
    ∃ k < 2 ^ w, (advance w a c)^[k] x = y := by
  let visit : Fin (2 ^ w) → ZMod (2 ^ w) := fun i => (advance w a c)^[i] x
  have hinjective : Injective visit := by
    intro i j hij
    rcases Nat.lt_trichotomy i j with hlt | heq | hgt
    · exact absurd hij (iterate_ne ha hc x hlt j.2)
    · exact Fin.ext heq
    · exact absurd hij.symm (iterate_ne ha hc x hgt i.2)
  have hcard : Fintype.card (Fin (2 ^ w)) = Fintype.card (ZMod (2 ^ w)) := by
    rw [Fintype.card_fin, ZMod.card]
  obtain ⟨i, hi⟩ := ((Fintype.bijective_iff_injective_and_card visit).mpr ⟨hinjective, hcard⟩).2 y
  exact ⟨i, i.2, hi⟩

section Machine

variable {m n : ℕ}

/-- Machine numbers of w bits are the residues. -/
theorem natCast_eq_iff (hm : m < 2 ^ w) (hn : n < 2 ^ w) : (m : ZMod (2 ^ w)) = n ↔ m = n := by
  rw [ZMod.natCast_eq_natCast_iff', Nat.mod_eq_of_lt hm, Nat.mod_eq_of_lt hn]

theorem advance_natCast (w a c n : ℕ) :
    (((n * a + c) % 2 ^ w : ℕ) : ZMod (2 ^ w)) = advance w a c n := by
  rw [ZMod.natCast_mod, advance]
  push_cast
  ring

end Machine

end BoxUtils.Congruential
