import BoxUtils.Congruential
import BoxUtils.Runs
import Mathlib.Data.Int.Notation

/-!
The generator in random.cpp, which the fallback of `Box_memrand` uses too. The seed goes
through one cycle of all 32-bit numbers, whatever is asked of it. The number that is
drawn from it is taken modulo `end + 1` and, if it is below the range, moved up by `begin`,
which can take it past the other end.
-/
namespace BoxUtils

structure Random where
  seed : UInt32
  deriving DecidableEq, Repr

namespace Random

open Congruential Runs

section Source

/-- A signed sum, which has no value outside of the range of an `int`. -/
def checked (v : ℤ) : Option ℤ := if -2147483648 ≤ v ∧ v ≤ 2147483647 then some v else none

/-- The operator `%` of signed numbers. -/
def remainder (a b : ℤ) : Option ℤ :=
  if b = 0 ∨ a = -2147483648 ∧ b = -1 then none else some (a.tmod b)

/-- The number drawn from a seed. -/
def drawn (seed : UInt32) : ℤ := (seed / 65536 % 32768).toNat

def randint (r : Random) (begin last : Int32) : Option (Random × ℤ) := do
  let r : Random := { r with seed := r.seed * 1103515245 + 12345 }
  let number := drawn r.seed
  let modulus ← checked (last.toInt + 1)
  let number ← remainder number modulus
  if number < begin.toInt then do
    let number ← checked (number + begin.toInt)
    some (r, number)
  else some (r, number)

/-- The loop of `Box_memrand` without `getrandom`: the bytes it writes, and the seed it leaves. -/
def memrandLoop : ℕ → UInt32 → List UInt8 × UInt32
  | 0, seed => ([], seed)
  | left + 1, seed =>
    let seed := seed * 1103515245 + 12345
    let byte := (seed / 65536 % 32768).toUInt8
    let (mem, seed) := memrandLoop left seed
    (byte :: mem, seed)

/-- The generator, for pairs of arguments. -/
def next (r : Random) (args : Int32 × Int32) : Option Random :=
  (randint r args.1 args.2).map Prod.fst

end Source

/-- The result is defined and in the range. -/
def StaysInRange (r : Random) (begin last : Int32) : Prop :=
  ∃ r' v, randint r begin last = some (r', v) ∧ begin.toInt ≤ v ∧ v ≤ last.toInt

/-- The seed of the next number. -/
def nextSeed (seed : UInt32) : UInt32 := seed * 1103515245 + 12345

section Range

variable {r : Random} {begin last : Int32}

theorem drawn_nonneg (seed : UInt32) : 0 ≤ drawn seed := Int.natCast_nonneg _

theorem drawn_lt (seed : UInt32) : drawn seed < 32768 := by
  have hmod : (seed / 65536 % 32768).toNat = (seed / 65536).toNat % 32768 := UInt32.toNat_mod ..
  rw [drawn, hmod]
  omega

/-- Every number below 32768 is drawn from some seed. -/
theorem exists_drawn {n : ℕ} (hn : n < 32768) : ∃ seed, drawn (nextSeed seed) = n := by
  have hinverse : (4005161829 : UInt32) * 1103515245 = 1 := by decide
  let seed := (UInt32.ofNat (n * 65536) - 12345) * 4005161829
  have hseed : nextSeed seed = UInt32.ofNat (n * 65536) := by
    rw [nextSeed, UInt32.mul_assoc, hinverse, UInt32.mul_one, UInt32.sub_add_cancel]
  refine ⟨seed, ?_⟩
  rw [hseed, drawn]
  simp
  omega

theorem checked_eq {v : ℤ} (hmin : -2147483648 ≤ v) (hmax : v ≤ 2147483647) :
    checked v = some v := if_pos ⟨hmin, hmax⟩

/-- `randint` where `end + 1` has a value and is not 0. -/
theorem randint_eq (hmax : last.toInt ≠ 2147483647) (hne : last.toInt ≠ -1) :
    randint r begin last =
      let n := (drawn (nextSeed r.seed)).tmod (last.toInt + 1)
      if n < begin.toInt then
        (checked (n + begin.toInt)).map fun v => (⟨nextSeed r.seed⟩, v)
      else some (⟨nextSeed r.seed⟩, n) := by
  have hmin := last.le_toInt
  have hlt := last.toInt_lt
  have hmodulus : checked (last.toInt + 1) = some (last.toInt + 1) :=
    checked_eq (by omega) (by omega)
  have hrem : remainder (drawn (nextSeed r.seed)) (last.toInt + 1) =
      some ((drawn (nextSeed r.seed)).tmod (last.toInt + 1)) := by
    have hnonneg := drawn_nonneg (nextSeed r.seed)
    exact if_neg (by omega)
  simp only [randint, hmodulus, Option.bind_eq_bind, Option.bind_some]
  rw [show remainder (drawn (r.seed * 1103515245 + 12345)) _ = _ from hrem, Option.bind_some]
  split
  · cases checked _ <;> rfl
  · rfl

theorem randint_undefined (h : last.toInt = 2147483647 ∨ last.toInt = -1) :
    randint r begin last = none := by
  rcases h with hmax | hzero
  · simp [randint, hmax, checked]
  · simp [randint, hzero, checked, remainder]

/-- A number stays in the range where `end` is not negative and not the greatest `int`, and
where the number is not moved past `end`. -/
theorem stays_iff (hle : begin.toInt ≤ last.toInt) : StaysInRange r begin last ↔
    0 ≤ last.toInt ∧ last.toInt < 2147483647 ∧
      (drawn (nextSeed r.seed) % (last.toInt + 1) < begin.toInt →
        drawn (nextSeed r.seed) % (last.toInt + 1) + begin.toInt ≤ last.toInt) := by
  have hnonneg := drawn_nonneg (nextSeed r.seed)
  have hlt := last.toInt_lt
  by_cases hundefined : last.toInt = 2147483647 ∨ last.toInt = -1
  · refine iff_of_false ?_ (by omega)
    rintro ⟨r', v, hsome, -⟩
    cases (randint_undefined hundefined).symm.trans hsome
  · rw [not_or] at hundefined
    have heq := @randint_eq r begin last hundefined.1 hundefined.2
    dsimp only at heq
    rcases Int.lt_or_le last.toInt 0 with hneg | hpos
    · -- the number is not negative and stays where it is
      have hrem := Int.tmod_nonneg (last.toInt + 1) hnonneg
      rw [if_neg (by omega)] at heq
      refine iff_of_false ?_ (by omega)
      rintro ⟨r', v, hsome, -, hv⟩
      obtain ⟨-, rfl⟩ := Prod.mk.inj (Option.some.inj (heq.symm.trans hsome))
      omega
    · rw [Int.tmod_eq_emod_of_nonneg hnonneg] at heq
      have hrem := Int.emod_nonneg (drawn (nextSeed r.seed)) (b := last.toInt + 1) (by omega)
      have hless := Int.emod_lt_of_pos (drawn (nextSeed r.seed)) (b := last.toInt + 1) (by omega)
      generalize drawn (nextSeed r.seed) % (last.toInt + 1) = n at heq hrem hless ⊢
      have hmax : last.toInt < 2147483647 := by omega
      simp only [hpos, hmax, true_and]
      by_cases hbelow : n < begin.toInt
      · rw [if_pos hbelow] at heq
        constructor
        · rintro ⟨r', v, hsome, -, hv⟩ -
          obtain ⟨v', hv', hpair⟩ := Option.map_eq_some_iff.mp (heq.symm.trans hsome)
          obtain ⟨-, rfl⟩ := Prod.mk.inj hpair
          obtain ⟨-, hsum⟩ := Option.ite_none_right_eq_some.mp hv'
          obtain rfl := Option.some.inj hsum
          exact hv
        · intro hmoved
          have hfits := hmoved hbelow
          rw [checked_eq (by omega) (by omega), Option.map_some] at heq
          exact ⟨_, _, heq, by omega, hfits⟩
      · rw [if_neg hbelow] at heq
        exact iff_of_true ⟨_, _, heq, by omega, by omega⟩ fun habove => absurd habove hbelow

/-- No seed leads out of the range if the greatest number that is moved up stays in it. -/
theorem stays_forall_iff (hle : begin.toInt ≤ last.toInt) :
    (∀ r, StaysInRange r begin last) ↔ 0 ≤ last.toInt ∧ last.toInt < 2147483647 ∧
      min (begin.toInt - 1) 32767 + begin.toInt ≤ last.toInt := by
  constructor
  · intro hall
    obtain ⟨hpos, hmax, -⟩ := (stays_iff hle).mp (hall ⟨0⟩)
    refine ⟨hpos, hmax, ?_⟩
    by_cases hbegin : begin.toInt ≤ 0
    · omega
    · obtain ⟨n, hn⟩ : ∃ n : ℕ, (n : ℤ) = min (begin.toInt - 1) 32767 :=
        ⟨_, Int.toNat_of_nonneg (by omega)⟩
      obtain ⟨seed, hseed⟩ := exists_drawn (n := n) (by omega)
      obtain ⟨-, -, hmoved⟩ := (stays_iff hle).mp (hall ⟨seed⟩)
      have hself : (n : ℤ) % (last.toInt + 1) = n := Int.emod_eq_of_lt (by omega) (by omega)
      rw [hseed, hself] at hmoved
      rw [← hn]
      exact hmoved (by omega)
  · rintro ⟨hpos, hmax, hbound⟩ r
    refine (stays_iff hle).mpr ⟨hpos, hmax, fun hbelow => ?_⟩
    have hlt := drawn_lt (nextSeed r.seed)
    have hquotient : 0 ≤ (last.toInt + 1) * (drawn (nextSeed r.seed) / (last.toInt + 1)) :=
      Int.mul_nonneg (by omega) (Int.ediv_nonneg (drawn_nonneg _) (by omega))
    have hsplit := Int.emod_add_mul_ediv (drawn (nextSeed r.seed)) (last.toInt + 1)
    omega

end Range

/-- Where a number stays in the range, for one seed and for all of them. -/
theorem staysInRange_iff {begin last : Int32} (hle : begin ≤ last) :
    (∀ r, StaysInRange r begin last ↔ 0 ≤ last.toInt ∧ last.toInt < 2147483647 ∧
      (drawn (nextSeed r.seed) % (last.toInt + 1) < begin.toInt →
        drawn (nextSeed r.seed) % (last.toInt + 1) + begin.toInt ≤ last.toInt)) ∧
    ((∀ r, StaysInRange r begin last) ↔ 0 ≤ last.toInt ∧ last.toInt < 2147483647 ∧
      min (begin.toInt - 1) 32767 + begin.toInt ≤ last.toInt) := by
  rw [Int32.le_iff_toInt_le] at hle
  exact ⟨fun r => stays_iff hle, stays_forall_iff hle⟩

/-- A roll of the dice. -/
theorem staysInRange_dice : StaysInRange ⟨0⟩ 1 6 :=
  (staysInRange_iff (show (1 : Int32) ≤ 6 by decide)).2.mpr (by decide) ⟨0⟩

/-- In the range from 6 to 8 the seed 15 gives 5, which is moved up to 11. -/
theorem number_past_end : ¬ ∀ (r : Random) (begin last : Int32), begin ≤ last →
    StaysInRange r begin last := by
  intro h
  obtain ⟨r', v, hsome, -, hv⟩ := h ⟨15⟩ 6 8 (by decide)
  have hresult : (randint ⟨15⟩ 6 8).map Prod.snd = some 11 := by decide
  rw [hsome, Option.map_some] at hresult
  obtain rfl := Option.some.inj hresult
  exact absurd hv (by decide)

/-- The seeds of a generator, and of the fallback of `Box_memrand`, go through one cycle. -/
structure FullPeriod (r : Random) : Prop where
  period : ∀ args r', run next r args = some r' → (r'.seed = r.seed ↔ 2 ^ 32 ∣ args.length)
  occurs : ∀ args r', run next r args = some r' → 2 ^ 32 ≤ args.length → ∀ seed,
    ∃ k < 2 ^ 32, ∃ q, run next r (args.take k) = some q ∧ q.seed = seed
  runs : ∀ k, ∃ args r', args.length = k ∧ run next r args = some r'
  fallback : ∀ n, (memrandLoop n r.seed).2 = r.seed ↔ 2 ^ 32 ∣ n
  fallback_occurs : ∀ seed, ∃ n < 2 ^ 32, (memrandLoop n r.seed).2 = seed

section Period

variable {r r' : Random} {seed : UInt32}

/-- A call leaves the next seed, whatever the range. -/
theorem randint_seed {begin last : Int32} {v : ℤ} (h : randint r begin last = some (r', v)) :
    r'.seed = nextSeed r.seed := by
  obtain ⟨modulus, -, h⟩ := Option.bind_eq_some_iff.mp h
  obtain ⟨number, -, h⟩ := Option.bind_eq_some_iff.mp h
  split at h
  · obtain ⟨moved, -, h⟩ := Option.bind_eq_some_iff.mp h
    obtain ⟨rfl, -⟩ := Prod.mk.inj (Option.some.inj h)
    rfl
  · obtain ⟨rfl, -⟩ := Prod.mk.inj (Option.some.inj h)
    rfl

theorem run_seed {args : List (Int32 × Int32)} (h : run next r args = some r') :
    r'.seed = nextSeed^[args.length] r.seed := by
  induction args generalizing r with
  | nil =>
    obtain rfl := Option.some.inj h
    rfl
  | cons arg args ih =>
    obtain ⟨q, hq, hrest⟩ := run_cons h
    obtain ⟨⟨q', v⟩, hcall, rfl⟩ := Option.map_eq_some_iff.mp hq
    rw [ih hrest, List.length_cons, Function.iterate_succ_apply, randint_seed hcall]

theorem memrandLoop_seed (n : ℕ) (seed : UInt32) :
    (memrandLoop n seed).2 = nextSeed^[n] seed := by
  induction n generalizing seed with
  | zero => rfl
  | succ n ih => rw [memrandLoop, Function.iterate_succ_apply, ← ih, nextSeed]

/-- A seed as a residue. -/
def residue (seed : UInt32) : ZMod (2 ^ 32) := seed.toNat

theorem residue_inj {x y : UInt32} : residue x = residue y ↔ x = y := by
  rw [residue, residue, natCast_eq_iff x.toNat_lt y.toNat_lt, UInt32.toNat_inj]

theorem residue_nextSeed : Function.Semiconj residue nextSeed
    (advance 32 (1103515245 : ℕ) (12345 : ℕ)) := by
  intro seed
  have hseed : (nextSeed seed).toNat = (seed.toNat * 1103515245 + 12345) % 2 ^ 32 := by
    rw [nextSeed, UInt32.toNat_add, UInt32.toNat_mul, Nat.mod_add_mod]
    simp only [UInt32.reduceToNat]
  rw [residue, residue, ← advance_natCast, hseed]

theorem residue_iterate (k : ℕ) (seed : UInt32) : residue (nextSeed^[k] seed) =
    (advance 32 (1103515245 : ℕ) (12345 : ℕ))^[k] (residue seed) :=
  residue_nextSeed.iterate_right k seed

theorem iterate_nextSeed_eq_iff (k : ℕ) (seed : UInt32) :
    nextSeed^[k] seed = seed ↔ 2 ^ 32 ∣ k := by
  rw [← residue_inj, residue_iterate]
  exact iterate_eq_self_iff (by decide) (by decide) _ k

theorem exists_iterate_nextSeed (seed seed' : UInt32) :
    ∃ k < 2 ^ 32, nextSeed^[k] seed = seed' := by
  obtain ⟨k, hk, heq⟩ := exists_iterate_eq (w := 32) (a := (1103515245 : ℕ)) (c := (12345 : ℕ))
    (by decide) (by decide) (residue seed) (residue seed')
  exact ⟨k, hk, residue_inj.mp ((residue_iterate k seed).trans heq)⟩

/-- `randint(0, 0)` returns. -/
theorem exists_run (r : Random) (k : ℕ) :
    ∃ args r', args.length = k ∧ run next r args = some r' := by
  induction k generalizing r with
  | zero => exact ⟨[], r, rfl, rfl⟩
  | succ k ih =>
    have hcall : randint r 0 0 = some (⟨nextSeed r.seed⟩, 0) := by
      rw [randint_eq (by decide) (by decide)]
      simp
    obtain ⟨args, r', hlength, hrun⟩ := ih ⟨nextSeed r.seed⟩
    refine ⟨(0, 0) :: args, r', by rw [List.length_cons, hlength], ?_⟩
    rw [run, next, hcall, Option.map_some, Option.bind_some, hrun]

end Period

/-- The seed comes back after every 2 ^ 32 numbers and not before, and takes every value. -/
theorem fullPeriod (r : Random) : FullPeriod r := by
  constructor
  · intro args r' hrun
    rw [run_seed hrun, iterate_nextSeed_eq_iff]
  · intro args r' hrun hlength seed
    obtain ⟨k, hk, hseed⟩ := exists_iterate_nextSeed r.seed seed
    have hsplit : run next r (args.take k ++ args.drop k) = some r' := by
      rwa [List.take_append_drop]
    obtain ⟨q, hq, -⟩ := run_append hsplit
    refine ⟨k, hk, q, hq, ?_⟩
    rw [run_seed hq, List.length_take, Nat.min_eq_left (Nat.le_trans (Nat.le_of_lt hk) hlength),
      hseed]
  · exact exists_run r
  · intro n
    rw [memrandLoop_seed, iterate_nextSeed_eq_iff]
  · intro seed
    obtain ⟨n, hn, hseed⟩ := exists_iterate_nextSeed r.seed seed
    exact ⟨n, hn, (memrandLoop_seed n r.seed).trans hseed⟩

end Random

end BoxUtils
