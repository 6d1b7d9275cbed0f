import BoxUtils.RefPtr
import Mathlib.Data.Finset.Card
import Mathlib.Data.Finset.Range

/-!
The counted pointer of refptr.hpp where the managed objects have such pointers as members.
The last pointer to an object deletes it, which ends its members, and these may delete
further objects. The counts stay exact along this cascade, and it takes away nothing that
pointers outside it still lead to.
-/
namespace BoxUtils.RefPtrGraph

open RefPtr Counting

structure State where
  refptrs : Heap Handle
  counts : Heap ℤ
  /-- The pointers that an object has as members, in the order in which they are destroyed. -/
  objects : Heap (List ℕ)

section Source

namespace State

def setCount (s : State) (c : ℕ) (k : ℤ) : State := { s with counts := s.counts.put c k }

def eraseHandle (s : State) (m : ℕ) : State := { s with refptrs := s.refptrs.erase m }

def eraseObject (s : State) (X : ℕ) : State := { s with objects := s.objects.erase X }

end State

/-- The destructor of a pointer, whose life ends where its destructor starts. -/
def destructor (release : State → ℕ → Option ℕ → Option State) (s : State) (m : ℕ) :
    Option State := do
  let x ← s.refptrs.cell m
  match x.refcount with
  | none => some (s.eraseHandle m)
  | some c => release (s.eraseHandle m) c x.ptr

def destroyMembers (release : State → ℕ → Option ℕ → Option State) :
    List ℕ → State → Option State
  | [], s => some s
  | m :: members, s => do
    let s ← destructor release s m
    destroyMembers release members s

/-- `delete ptr;` -/
def deletePtr (release : State → ℕ → Option ℕ → Option State) (s : State) :
    Option ℕ → Option State
  | none => some s
  | some p => do
    let members ← s.objects.cell p
    destroyMembers release members (s.eraseObject p)

/-- `(*refcount) --; if(*refcount <= 0){ delete ptr; delete refcount; }` -/
def release : ℕ → State → ℕ → Option ℕ → Option State
  | 0, _, _, _ => none
  | depth + 1, s, refcount, ptr => do
    let k ← s.counts.cell refcount
    let s := s.setCount refcount (k - 1)
    if k - 1 ≤ 0 then
      let s ← deletePtr (release depth) s ptr
      let counts ← s.counts.free refcount
      some { s with counts := counts }
    else some s

namespace State

def setHandle (s : State) (h : ℕ) (x : Handle) : Option State :=
  (s.refptrs.modify h fun _ => x).map fun refptrs => { s with refptrs := refptrs }

/-- The cascade gets as many levels as there ever were objects. -/
def reset (s : State) (h : ℕ) : Option State := do
  let x ← s.refptrs.cell h
  if x.ptr = none then some s
  else
    let c ← x.refcount
    let s ← release (s.objects.fresh + 1) s c x.ptr
    s.setHandle h ⟨none, none⟩

def copyAssign (s : State) (h src : ℕ) : Option State :=
  if h = src then some s
  else do
    let s ← s.reset h
    let x ← s.refptrs.cell src
    let s ← s.setHandle h x
    let c ← x.refcount
    let counts ← s.counts.modify c (· + 1)
    some { s with counts := counts }

def moveAssign (s : State) (h src : ℕ) : Option State :=
  if h = src then some s
  else do
    let s ← s.reset h
    let x ← s.refptrs.cell src
    let s ← s.setHandle h x
    s.setHandle src ⟨none, none⟩

end State

end Source

/-- The counter of a pointer that is there. -/
def State.counter (s : State) (m : ℕ) : Option ℕ := (s.refptrs.cell m).bind Handle.refcount

/-- How many pointers refer to a counter, h left out. -/
def State.refs (s : State) (h c : ℕ) : ℕ :=
  Counting.refs ((Finset.range s.refptrs.fresh).erase h) s.counter c

/-- The counts are exact up to one reference that has been given up and the pointer h,
and the members of objects refer to objects of lower rank. The counter c is that of the
object `obj c`. -/
structure Counted (obj rank : ℕ → ℕ) (h : ℕ) (pending : Option ℕ) (s : State) : Prop where
  linked : ∀ m x, m ≠ h → s.refptrs.cell m = some x → x = ⟨none, none⟩ ∨
    ∃ c, x = ⟨some c, some (obj c)⟩ ∧ s.counts.cell c ≠ none ∧ s.objects.cell (obj c) ≠ none
  exact : ∀ c k, s.counts.cell c = some k → k = s.refs h c + one pending c
  alive : ∀ X, s.objects.cell X ≠ none → ∃ c, obj c = X ∧ (0 < s.refs h c ∨ pending = some c)
  single : ∀ c c', s.counts.cell c ≠ none → s.counts.cell c' ≠ none → obj c = obj c' → c = c'
  members : ∀ X l, s.objects.cell X = some l → l.Nodup ∧ ∀ m ∈ l, s.refptrs.cell m ≠ none
  apart : ∀ X Y l l' m, s.objects.cell X = some l → s.objects.cell Y = some l' →
    m ∈ l → m ∈ l' → X = Y
  descends : ∀ X l m c, s.objects.cell X = some l → m ∈ l → m ≠ h → s.counter m = some c →
    rank (obj c) < rank X

/-- What the cascade does to the rest: pointers, objects and counters stay as they are or
go. Objects that go have at most rank r, and their members go with them. -/
structure Shrinks (rank : ℕ → ℕ) (h r : ℕ) (pending : Option ℕ) (ended : List ℕ) (s t : State) :
    Prop where
  fresh : t.refptrs.fresh = s.refptrs.fresh
  object : ∀ X, t.objects.cell X = s.objects.cell X ∨ t.objects.cell X = none ∧ rank X ≤ r
  handle : ∀ m, t.refptrs.cell m = s.refptrs.cell m ∨ t.refptrs.cell m = none ∧
    (m ∈ ended ∨ ∃ X l, s.objects.cell X = some l ∧ m ∈ l ∧ t.objects.cell X = none)
  gone : ∀ X l, s.objects.cell X = some l → t.objects.cell X = none → ∀ m ∈ l,
    t.refptrs.cell m = none
  ended : ∀ m ∈ ended, t.refptrs.cell m = none
  count : ∀ c, s.refs h c = 0 → pending ≠ some c → t.counts.cell c = s.counts.cell c

section Shrinking

variable {obj rank : ℕ → ℕ} {h r r' m c X : ℕ} {pending pending' : Option ℕ}
variable {l l' : List ℕ} {s t u : State} {x : Handle}

theorem counter_eq (hm : s.refptrs.cell m = some x) : s.counter m = x.refcount := by
  rw [State.counter, hm, Option.bind_some]

theorem Shrinks.counter (w : Shrinks rank h r pending l s t) (m : ℕ) :
    t.counter m = s.counter m ∨ t.counter m = none := by
  rcases w.handle m with hsame | ⟨hnone, -⟩
  · exact .inl (by rw [State.counter, hsame, State.counter])
  · exact .inr (by rw [State.counter, hnone, Option.bind_none])

/-- A counter that no pointer refers to is not referred to later. -/
theorem Shrinks.refs_zero (w : Shrinks rank h r pending l s t) (hzero : s.refs h c = 0) :
    t.refs h c = 0 := by
  rw [State.refs, refs_eq_zero_iff] at hzero ⊢
  intro m hm
  rw [w.fresh] at hm
  rcases w.counter m with hsame | hnone
  · rw [hsame]
    exact hzero m hm
  · rw [hnone]
    exact (Option.some_ne_none c).symm

theorem Shrinks.object_eq (w : Shrinks rank h r pending l s t) (hX : t.objects.cell X = some l') :
    s.objects.cell X = some l' := by
  rcases w.object X with hsame | ⟨hnone, -⟩
  · rw [← hsame, hX]
  · rw [hnone] at hX
    cases hX

theorem Shrinks.refl (s : State) : Shrinks rank h r pending [] s s where
  fresh := rfl
  object _ := .inl rfl
  handle _ := .inl rfl
  gone X l hX hnone := by
    rw [hX] at hnone
    cases hnone
  ended _ hm := absurd hm List.not_mem_nil
  count _ _ _ := rfl

/-- Two parts of a cascade; what the second has been given up was referred to before the
first. -/
theorem Shrinks.trans {top : ℕ} (w : Shrinks rank h r pending l s t)
    (w' : Shrinks rank h r' pending' l' t u) (hr : r ≤ top) (hr' : r' ≤ top)
    (hgiven : ∀ c, s.refs h c = 0 → pending' ≠ some c) :
    Shrinks rank h top pending (l ++ l') s u where
  fresh := w'.fresh.trans w.fresh
  object X := by
    rcases w'.object X with hsame | hgone
    · rw [hsame]
      exact (w.object X).imp_right fun hand => ⟨hand.1, hand.2.trans hr⟩
    · exact .inr ⟨hgone.1, hgone.2.trans hr'⟩
  handle m := by
    rcases w'.handle m with hsame | ⟨hnone, hwhy⟩
    · rw [hsame]
      refine (w.handle m).imp_right fun ⟨hnone, hwhy⟩ => ⟨hnone, ?_⟩
      rcases hwhy with hend | ⟨X, k, hX, hm, hgone⟩
      · exact .inl (List.mem_append_left _ hend)
      · refine .inr ⟨X, k, hX, hm, ?_⟩
        rcases w'.object X with hsame' | ⟨hnone', -⟩
        · rw [hsame', hgone]
        · exact hnone'
    · refine .inr ⟨hnone, ?_⟩
      rcases hwhy with hend | ⟨X, k, hX, hm, hgone⟩
      · exact .inl (List.mem_append_right _ hend)
      · exact .inr ⟨X, k, w.object_eq hX, hm, hgone⟩
  gone X k hX hnone m hm := by
    cases hmid : t.objects.cell X with
    | none =>
      have hdead := w.gone X k hX hmid m hm
      rcases w'.handle m with hsame | ⟨hnone', -⟩
      · rw [hsame, hdead]
      · exact hnone'
    | some k' =>
      obtain rfl : k = k' := Option.some.inj (hX.symm.trans (w.object_eq hmid))
      exact w'.gone X k hmid hnone m hm
  ended m hm := by
    rcases List.mem_append.mp hm with hfirst | hsecond
    · have hdead := w.ended m hfirst
      rcases w'.handle m with hsame | ⟨hnone', -⟩
      · rw [hsame, hdead]
      · exact hnone'
    · exact w'.ended m hsecond
  count c hzero hpending := by
    rw [w'.count c (w.refs_zero hzero) (hgiven c hzero), w.count c hzero hpending]

end Shrinking

section Cascade

variable {obj rank : ℕ → ℕ} {h r m c n X : ℕ} {pending : Option ℕ} {l : List ℕ} {s t : State}
variable {x : Handle}

theorem counter_eraseHandle (s : State) (m : ℕ) :
    (s.eraseHandle m).counter = Function.update s.counter m none := by
  funext y
  by_cases hym : y = m
  · rw [hym, Function.update_self, State.counter, State.eraseHandle, Heap.cell_erase_self,
      Option.bind_none]
  · rw [Function.update_of_ne hym, State.counter, State.eraseHandle, Heap.cell_erase_of_ne _ hym,
      State.counter]

theorem refs_eraseHandle (hm : s.refptrs.cell m = some x) (hmh : m ≠ h) (c : ℕ) :
    (s.eraseHandle m).refs h c + one x.refcount c = s.refs h c := by
  have hmem : m ∈ (Finset.range s.refptrs.fresh).erase h :=
    Finset.mem_erase.mpr ⟨hmh, Finset.mem_range.mpr (Heap.lt_fresh hm)⟩
  have hcount := refs_update hmem s.counter none c
  rw [one_none, counter_eq hm, Nat.add_zero] at hcount
  rw [State.refs, counter_eraseHandle]
  exact hcount

/-- A pointer that no object has ends: its reference is given up. -/
theorem Counted.eraseHandle (w : Counted obj rank h none s) (hm : s.refptrs.cell m = some x)
    (hmh : m ≠ h) (hout : ∀ X l, s.objects.cell X = some l → m ∉ l) :
    Counted obj rank h x.refcount (s.eraseHandle m) where
  linked y z hyh hz := w.linked y z hyh (Heap.cell_of_erase hz).2
  exact c k hk := by
    have hexact := w.exact c k hk
    have hrefs := refs_eraseHandle hm hmh c
    rw [one_none] at hexact
    omega
  alive X hX := by
    obtain ⟨c, hc, hpos⟩ := w.alive X hX
    have hrefs := refs_eraseHandle hm hmh c
    refine ⟨c, hc, ?_⟩
    rcases hpos with hpos | hnone
    · by_cases hxc : x.refcount = some c
      · exact .inr hxc
      · have hzero : one x.refcount c = 0 := by simp [one, hxc]
        exact .inl (by omega)
    · cases hnone
  single := w.single
  members X l hX := by
    obtain ⟨hnodup, hlive⟩ := w.members X l hX
    refine ⟨hnodup, fun y hy => ?_⟩
    have hym : y ≠ m := by
      rintro rfl
      exact hout X l hX hy
    rw [State.eraseHandle, Heap.cell_erase_of_ne _ hym]
    exact hlive y hy
  apart := w.apart
  descends X l y c hX hy hyh hc := by
    rw [counter_eraseHandle] at hc
    by_cases hym : y = m
    · rw [hym, Function.update_self] at hc
      cases hc
    · rw [Function.update_of_ne hym] at hc
      exact w.descends X l y c hX hy hyh hc

theorem shrinks_eraseHandle (s : State) (m : ℕ) :
    Shrinks rank h r none [m] s (s.eraseHandle m) where
  fresh := rfl
  object _ := .inl rfl
  handle y := by
    by_cases hym : y = m
    · exact .inr ⟨by rw [hym, State.eraseHandle, Heap.cell_erase_self],
        .inl (List.mem_singleton.mpr hym)⟩
    · exact .inl (Heap.cell_erase_of_ne _ hym)
  gone X l hX hnone := by
    rw [State.eraseHandle, hX] at hnone
    cases hnone
  ended y hy := by
    rw [List.mem_singleton.mp hy, State.eraseHandle, Heap.cell_erase_self]
  count _ _ _ := rfl

/-- With n levels a release comes to its end and takes objects up to its own rank. -/
def Releases (obj rank : ℕ → ℕ) (h n : ℕ) : Prop :=
  ∀ s c, Counted obj rank h (some c) s → s.counts.cell c ≠ none →
    s.objects.cell (obj c) ≠ none → rank (obj c) < n →
    (∀ Y l, s.objects.cell Y = some l → h ∈ l → rank (obj c) < rank Y) →
    ∃ t, release n s c (some (obj c)) = some t ∧ Counted obj rank h none t ∧
      Shrinks rank h (rank (obj c)) (some c) [] s t

/-- The destructor of one pointer. -/
theorem destructor_spec (hn : Releases obj rank h n) (w : Counted obj rank h none s)
    (hm : s.refptrs.cell m = some x) (hmh : m ≠ h)
    (hout : ∀ X l, s.objects.cell X = some l → m ∉ l)
    (hrank : ∀ c, s.counter m = some c → rank (obj c) < r) (hr : r ≤ n)
    (hh : ∀ Y l, s.objects.cell Y = some l → h ∈ l → r ≤ rank Y) :
    ∃ t, destructor (release n) s m = some t ∧ Counted obj rank h none t ∧
      Shrinks rank h r none [m] s t := by
  have w₁ := w.eraseHandle hm hmh hout
  rcases w.linked m x hmh hm with rfl | ⟨c, rfl, hcount, hobject⟩
  · exact ⟨s.eraseHandle m, by rw [destructor, hm]; rfl, w₁, shrinks_eraseHandle s m⟩
  · have hlow := hrank c (counter_eq hm)
    obtain ⟨t, hrelease, wt, hshrink⟩ := hn (s.eraseHandle m) c w₁ hcount hobject (by omega)
      fun Y l hY hmem => lt_of_lt_of_le hlow (hh Y l hY hmem)
    refine ⟨t, by rw [destructor, hm]; exact hrelease, wt, ?_⟩
    refine (shrinks_eraseHandle (r := r) s m).trans hshrink le_rfl hlow.le fun c' hzero heq => ?_
    -- the counter of m was referred to
    obtain rfl := Option.some.inj heq
    have hrefs := refs_eraseHandle hm hmh c
    rw [one_self] at hrefs
    omega

theorem destroyMembers_spec (hn : Releases obj rank h n) (hr : r ≤ n)
    (w : Counted obj rank h none s) (hnodup : l.Nodup)
    (hlive : ∀ m ∈ l, m ≠ h ∧ s.refptrs.cell m ≠ none ∧
      (∀ X k, s.objects.cell X = some k → m ∉ k) ∧ ∀ c, s.counter m = some c → rank (obj c) < r)
    (hh : ∀ Y k, s.objects.cell Y = some k → h ∈ k → r ≤ rank Y) :
    ∃ t, destroyMembers (release n) l s = some t ∧ Counted obj rank h none t ∧
      Shrinks rank h r none l s t := by
  induction l generalizing s with
  | nil => exact ⟨s, rfl, w, Shrinks.refl s⟩
  | cons m l ih =>
    obtain ⟨hmh, hcell, hout, hrank⟩ := hlive m List.mem_cons_self
    obtain ⟨hmem, hnodup⟩ := List.nodup_cons.mp hnodup
    obtain ⟨x, hm⟩ := Option.ne_none_iff_exists'.mp hcell
    obtain ⟨t, hend, wt, hshrink⟩ := destructor_spec hn w hm hmh hout hrank hr hh
    -- the members that are left are where they were
    have hleft : ∀ y ∈ l, y ≠ h ∧ t.refptrs.cell y ≠ none ∧
        (∀ X k, t.objects.cell X = some k → y ∉ k) ∧
        ∀ c, t.counter y = some c → rank (obj c) < r := by
      intro y hy
      obtain ⟨hyh, hycell, hyout, hyrank⟩ := hlive y (List.mem_cons_of_mem m hy)
      have hsame : t.refptrs.cell y = s.refptrs.cell y := by
        rcases hshrink.handle y with hsame | ⟨-, hend | ⟨X, k, hX, hk, -⟩⟩
        · exact hsame
        · obtain rfl := List.mem_singleton.mp hend
          exact absurd hy hmem
        · exact absurd hk (hyout X k hX)
      refine ⟨hyh, by rwa [hsame], fun X k hX => hyout X k (hshrink.object_eq hX), fun c hc => ?_⟩
      rw [State.counter, hsame] at hc
      exact hyrank c hc
    obtain ⟨u, hrest, wu, hshrink'⟩ := ih wt hnodup hleft
      fun Y k hY => hh Y k (hshrink.object_eq hY)
    refine ⟨u, ?_, wu, ?_⟩
    · rw [destroyMembers, hend]
      exact hrest
    · exact hshrink.trans hshrink' le_rfl le_rfl fun c _ => (Option.some_ne_none c).symm

theorem cell_setCount {k : ℤ} (hc : s.counts.cell c = some k) (k' : ℤ) (c' : ℕ) :
    (s.setCount c k').counts.cell c' = if c' = c then some k' else s.counts.cell c' := by
  by_cases hcc : c' = c
  · rw [if_pos hcc, hcc, State.setCount, Heap.cell_put_self hc]
  · rw [if_neg hcc, State.setCount, Heap.cell_put_of_ne _ _ hcc]

theorem live_setCount {k : ℤ} (hc : s.counts.cell c = some k) (k' : ℤ) (c' : ℕ) :
    (s.setCount c k').counts.cell c' ≠ none ↔ s.counts.cell c' ≠ none := by
  rw [cell_setCount hc]
  split
  case isTrue heq => simp [heq, hc]
  case isFalse => exact Iff.rfl

/-- The counter that has been counted down is exact again. -/
theorem Counted.exact_setCount {k : ℤ} (w : Counted obj rank h (some c) s)
    (hc : s.counts.cell c = some k) {c' : ℕ} {k' : ℤ}
    (hk' : (s.setCount c (k - 1)).counts.cell c' = some k') :
    k' = s.refs h c' + one none c' := by
  rw [cell_setCount hc] at hk'
  split at hk'
  case isTrue heq =>
    obtain rfl := Option.some.inj hk'
    have hexact := w.exact c k hc
    rw [one_self] at hexact
    rw [heq, one_none]
    omega
  case isFalse hne =>
    have hother := w.exact c' k' hk'
    rwa [one_of_ne (Ne.symm hne)] at hother

/-- Others refer to the object, which stays. -/
theorem Counted.setCount {k : ℤ} (w : Counted obj rank h (some c) s)
    (hc : s.counts.cell c = some k) (hpos : 0 < s.refs h c) :
    Counted obj rank h none (s.setCount c (k - 1)) where
  linked m x hmh hx := by
    refine (w.linked m x hmh hx).imp_right fun ⟨c', heq, hcount, hobject⟩ => ⟨c', heq, ?_, hobject⟩
    exact (live_setCount hc _ c').mpr hcount
  exact c' k' hk' := w.exact_setCount hc hk'
  alive X hX := by
    obtain ⟨c', hc', hwhy⟩ := w.alive X hX
    refine ⟨c', hc', .inl ?_⟩
    rcases hwhy with hpos' | heq
    · exact hpos'
    · obtain rfl := Option.some.inj heq
      exact hpos
  single c' c'' h₁ h₂ :=
    w.single c' c'' ((live_setCount hc _ c').mp h₁) ((live_setCount hc _ c'').mp h₂)
  members := w.members
  apart := w.apart
  descends := w.descends

theorem object_of_erase {Y : ℕ} (h : (s.eraseObject X).objects.cell Y = some l) :
    Y ≠ X ∧ s.objects.cell Y = some l :=
  Heap.cell_of_erase h

theorem refs_pos (hmh : m ≠ h) (hc : s.counter m = some c) : 0 < s.refs h c := by
  obtain ⟨x, hx, -⟩ := Option.bind_eq_some_iff.mp hc
  exact (refs_pos_iff _ _ _).mpr
    ⟨m, Finset.mem_erase.mpr ⟨hmh, Finset.mem_range.mpr (Heap.lt_fresh hx)⟩, hc⟩

/-- Nobody refers to the object, which goes. -/
theorem Counted.eraseObject {k : ℤ} (w : Counted obj rank h (some c) s)
    (hc : s.counts.cell c = some k) (hzero : s.refs h c = 0) :
    Counted obj rank h none ((s.setCount c (k - 1)).eraseObject (obj c)) where
  linked m x hmh hx := by
    refine (w.linked m x hmh hx).imp_right fun ⟨c', heq, hcount, hobject⟩ => ⟨c', heq, ?_, ?_⟩
    · exact (live_setCount hc _ c').mpr hcount
    · have hne : obj c' ≠ obj c := by
        intro hsame
        obtain rfl := w.single c' c hcount (by simp [hc]) hsame
        have hpos := refs_pos (s := s) hmh ((counter_eq hx).trans (by rw [heq]))
        omega
      rwa [State.eraseObject, Heap.cell_erase_of_ne _ hne]
  exact c' k' hk' := w.exact_setCount hc hk'
  alive X hX := by
    obtain ⟨l, hX⟩ := Option.ne_none_iff_exists'.mp hX
    obtain ⟨hne, hX⟩ := object_of_erase hX
    obtain ⟨c', hc', hwhy⟩ := w.alive X (Option.ne_none_iff_exists'.mpr ⟨l, hX⟩)
    refine ⟨c', hc', ?_⟩
    rcases hwhy with hpos | heq
    · exact .inl hpos
    · obtain rfl := Option.some.inj heq
      exact absurd hc'.symm hne
  single c' c'' h₁ h₂ :=
    w.single c' c'' ((live_setCount hc _ c').mp h₁) ((live_setCount hc _ c'').mp h₂)
  members X l hX := w.members X l (object_of_erase hX).2
  apart X Y l l' m hX hY := w.apart X Y l l' m (object_of_erase hX).2 (object_of_erase hY).2
  descends X l m c' hX := w.descends X l m c' (object_of_erase hX).2

/-- The counter goes as well when nobody refers to it. -/
theorem Counted.eraseCount (w : Counted obj rank h none s) (hzero : s.refs h c = 0) :
    Counted obj rank h none { s with counts := s.counts.erase c } where
  linked m x hmh hx := by
    refine (w.linked m x hmh hx).imp_right fun ⟨c', heq, hcount, hobject⟩ => ⟨c', heq, ?_, hobject⟩
    have hpos := refs_pos (s := s) hmh ((counter_eq hx).trans (by rw [heq]))
    have hne : c' ≠ c := by
      rintro rfl
      omega
    rwa [Heap.cell_erase_of_ne _ hne]
  exact c' k hk := w.exact c' k (Heap.cell_of_erase hk).2
  alive := w.alive
  single c' c'' h₁ h₂ :=
    w.single c' c'' (Heap.live_of_erase h₁) (Heap.live_of_erase h₂)
  members := w.members
  apart := w.apart
  descends := w.descends

theorem shrinks_setCount {k : ℤ} (hc : s.counts.cell c = some k) (k' : ℤ) :
    Shrinks rank h r (some c) [] s (s.setCount c k') where
  fresh := rfl
  object _ := .inl rfl
  handle _ := .inl rfl
  gone X l hX hnone := by
    rw [State.setCount, hX] at hnone
    cases hnone
  ended _ hm := absurd hm List.not_mem_nil
  count c' _ hne := by
    rw [cell_setCount hc, if_neg fun heq => hne (by rw [heq])]

/-- A cascade that starts with the object of a counter, as a whole. -/
theorem Shrinks.ofErase {k k' : ℤ} (hl : s.objects.cell (obj c) = some l)
    (hc : s.counts.cell c = some k)
    (w : Shrinks rank h (rank (obj c)) none l ((s.setCount c k').eraseObject (obj c)) t) :
    Shrinks rank h (rank (obj c)) (some c) [] s { t with counts := t.counts.erase c } where
  fresh := w.fresh
  object X := by
    by_cases hX : X = obj c
    · refine .inr ⟨?_, by rw [hX]⟩
      rcases w.object X with hsame | ⟨hnone, -⟩
      · exact hsame.trans (by rw [hX, State.eraseObject, Heap.cell_erase_self])
      · exact hnone
    · refine (w.object X).imp_left fun hsame => hsame.trans ?_
      exact Heap.cell_erase_of_ne _ hX
  handle m := by
    refine (w.handle m).imp_right fun ⟨hnone, hwhy⟩ => ⟨hnone, .inr ?_⟩
    rcases hwhy with hmem | ⟨X, l', hX, hm, hgone⟩
    · refine ⟨obj c, l, hl, hmem, ?_⟩
      rcases w.object (obj c) with hsame | ⟨hnone', -⟩
      · exact hsame.trans (Heap.cell_erase_self _ _)
      · exact hnone'
    · exact ⟨X, l', (object_of_erase hX).2, hm, hgone⟩
  gone X l' hX hnone m hm := by
    by_cases hXc : X = obj c
    · rw [hXc] at hX
      obtain rfl := Option.some.inj (hX.symm.trans hl)
      exact w.ended m hm
    · exact w.gone X l' ((Heap.cell_erase_of_ne _ hXc).trans hX) hnone m hm
  ended _ hm := absurd hm List.not_mem_nil
  count c' hzero hne := by
    have hcc : c' ≠ c := fun heq => hne (by rw [heq])
    have hkept := w.count c' hzero (Option.some_ne_none c').symm
    exact (Heap.cell_erase_of_ne _ hcc).trans (hkept.trans ((cell_setCount hc k' c').trans
      (if_neg hcc)))

theorem releases_succ (hn : Releases obj rank h n) : Releases obj rank h (n + 1) := by
  intro s c w hcount hobject hrank hh
  obtain ⟨k, hc⟩ := Option.ne_none_iff_exists'.mp hcount
  obtain ⟨l, hl⟩ := Option.ne_none_iff_exists'.mp hobject
  have hexact := w.exact c k hc
  rw [one_self] at hexact
  by_cases hzero : s.refs h c = 0
  · -- the last reference: the object, its members and the counter go
    have hlast : k - 1 ≤ 0 := by omega
    have w₁ := w.eraseObject hc hzero
    obtain ⟨hnodup, hmembers⟩ := w.members (obj c) l hl
    have hleft : ∀ m ∈ l, m ≠ h ∧ s.refptrs.cell m ≠ none ∧
        (∀ X l', ((s.setCount c (k - 1)).eraseObject (obj c)).objects.cell X = some l' → m ∉ l') ∧
        ∀ c', s.counter m = some c' → rank (obj c') < rank (obj c) := by
      intro m hm
      have hmh : m ≠ h := by
        rintro rfl
        exact absurd (hh (obj c) l hl hm) (Nat.lt_irrefl _)
      refine ⟨hmh, hmembers m hm, fun X l' hX hmem => ?_, fun c' =>
        w.descends (obj c) l m c' hl hm hmh⟩
      obtain ⟨hne, hX⟩ := object_of_erase hX
      exact hne (w.apart X (obj c) l' l m hX hl hmem hm)
    obtain ⟨t, hdestroy, wt, hshrink⟩ := destroyMembers_spec (r := rank (obj c)) hn (by omega) w₁
      hnodup hleft fun Y l' hY hmem => (hh Y l' (object_of_erase hY).2 hmem).le
    have hct : t.counts.cell c = some (k - 1) := by
      rw [hshrink.count c hzero (Option.some_ne_none c).symm]
      exact (cell_setCount hc (k - 1) c).trans (if_pos rfl)
    refine ⟨{ t with counts := t.counts.erase c }, ?_, wt.eraseCount (hshrink.refs_zero hzero), ?_⟩
    · have hdelete : deletePtr (release n) (s.setCount c (k - 1)) (some (obj c)) = some t := by
        rw [deletePtr, show (s.setCount c (k - 1)).objects.cell (obj c) = some l from hl]
        exact hdestroy
      simp only [release, hc, Option.bind_eq_bind, Option.bind_some, if_pos hlast]
      rw [hdelete, Option.bind_some, Heap.free_eq hct, Option.bind_some]
    · exact hshrink.ofErase hl hc
  · have hmore : ¬ k - 1 ≤ 0 := by omega
    refine ⟨s.setCount c (k - 1), ?_, w.setCount hc (by omega), shrinks_setCount hc _⟩
    simp only [release, hc, Option.bind_eq_bind, Option.bind_some, if_neg hmore]

theorem releases (obj rank : ℕ → ℕ) (h n : ℕ) : Releases obj rank h n := by
  induction n with
  | zero => exact fun s c _ _ _ hlt => absurd hlt (Nat.not_lt_zero _)
  | succ n ih => exact releases_succ ih

end Cascade

end BoxUtils.RefPtrGraph
