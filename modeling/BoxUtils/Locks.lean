import Mathlib.Data.Nat.Notation
import Mathlib.Logic.Function.Basic

/-!
A mutex and the places in the code where a thread holds it. The mutex is owned when its
holder is the one thread that stands at such a place. Only two kinds of moves change that:
to lock a free mutex and come to such a place, and to unlock the mutex and leave it.
-/
namespace BoxUtils.Locks

open Function

variable {T P : Type*} {Holds : P → Prop} {mutex : Option T} {pc pc' : T → P} {t u : T} {p : P}

/-- The mutex is held by the threads that stand where they hold it, and by nobody else. -/
def Owned (Holds : P → Prop) (mutex : Option T) (pc : T → P) : Prop :=
  ∀ t, mutex = some t ↔ Holds (pc t)

theorem owned_free (h : ∀ t, ¬ Holds (pc t)) : Owned Holds none pc :=
  fun t => iff_of_false (Option.some_ne_none t).symm (h t)

namespace Owned

/-- No two threads stand where they hold the mutex. -/
theorem exclusive (h : Owned Holds mutex pc) (ht : Holds (pc t)) (hu : Holds (pc u)) : t = u :=
  Option.some.inj (((h t).mpr ht).symm.trans ((h u).mpr hu))

theorem keep (h : Owned Holds mutex pc) (hpc : ∀ t, Holds (pc' t) ↔ Holds (pc t)) :
    Owned Holds mutex pc' :=
  fun t => (h t).trans (hpc t).symm

variable [DecidableEq T]

/-- A thread moves on, and holds the mutex where it comes to if it held it before. -/
theorem move (h : Owned Holds mutex pc) (hp : Holds p ↔ Holds (pc t)) :
    Owned Holds mutex (update pc t p) := by
  apply h.keep
  intro u
  by_cases hut : u = t
  · subst u
    rw [update_self]
    exact hp
  · rw [update_of_ne hut]

theorem lock (h : Owned Holds none pc) (hp : Holds p) : Owned Holds (some t) (update pc t p) := by
  intro u
  by_cases hut : u = t
  · subst u
    rw [update_self]
    exact iff_of_true rfl hp
  · have hu : ¬ Holds (pc u) := fun hholds => Option.some_ne_none u ((h u).mpr hholds).symm
    rw [update_of_ne hut]
    exact iff_of_false (fun heq => hut (Option.some.inj heq).symm) hu

theorem unlock (h : Owned Holds mutex pc) (ht : Holds (pc t)) (hp : ¬ Holds p) :
    Owned Holds none (update pc t p) := by
  apply owned_free
  intro u
  by_cases hut : u = t
  · subst u
    rw [update_self]
    exact hp
  · rw [update_of_ne hut]
    exact fun hu => hut (h.exclusive hu ht)

end Owned

end BoxUtils.Locks
