import BoxUtils.RefPtrGraph
import Mathlib.Logic.Relation
import Mathlib.Tactic.IntervalCases

/-!
Assignments from a pointer that the old target of the assigned pointer contains, directly
or further down. `operator=` gives up the old target first and reads its source then, so
the source has to be kept alive by another pointer.
-/
namespace BoxUtils.RefPtrGraph

open RefPtr Counting

/-- A member of object X refers to object Y. -/
def Refers (s : State) (X Y : ℕ) : Prop :=
  ∃ l m x, s.objects.cell X = some l ∧ m ∈ l ∧ s.refptrs.cell m = some x ∧ x.ptr = some Y

/-- An acyclic graph of objects, each pointer empty or with the counter of a live object,
and all counts exact. The counter c is that of the object `obj c`. -/
structure Graph (obj : ℕ → ℕ) (s : State) : Prop where
  linked : ∀ m x, s.refptrs.cell m = some x → x = ⟨none, none⟩ ∨
    ∃ c, x = ⟨some c, some (obj c)⟩ ∧ s.counts.cell c ≠ none ∧ s.objects.cell (obj c) ≠ none
  exact : ∀ c k, s.counts.cell c = some k →
    k = Counting.refs (Finset.range s.refptrs.fresh) s.counter c
  alive : ∀ X, s.objects.cell X ≠ none → ∃ c, obj c = X ∧
    0 < Counting.refs (Finset.range s.refptrs.fresh) s.counter c
  single : ∀ c c', s.counts.cell c ≠ none → s.counts.cell c' ≠ none → obj c = obj c' → c = c'
  members : ∀ X l, s.objects.cell X = some l → l.Nodup ∧ ∀ m ∈ l, s.refptrs.cell m ≠ none
  apart : ∀ X Y l l' m, s.objects.cell X = some l → s.objects.cell Y = some l' →
    m ∈ l → m ∈ l' → X = Y
  acyclic : ∀ X, ¬ Relation.TransGen (Refers s) X X

/-- The object is reachable from the pointer h. -/
def Reachable (s : State) (h X : ℕ) : Prop :=
  ∃ x p, s.refptrs.cell h = some x ∧ x.ptr = some p ∧ Relation.ReflTransGen (Refers s) p X

/-- A path leads to the object from a pointer that is no member, and h is not on it. -/
inductive Kept (s : State) (h : ℕ) : ℕ → Prop
  | root {m X : ℕ} {x : Handle} (hm : s.refptrs.cell m = some x) (hmh : m ≠ h)
      (hX : x.ptr = some X) (hout : ∀ Y l, s.objects.cell Y = some l → m ∉ l) : Kept s h X
  | member {Y m X : ℕ} {l : List ℕ} {x : Handle} (hY : Kept s h Y)
      (hl : s.objects.cell Y = some l) (hmem : m ∈ l) (hm : s.refptrs.cell m = some x)
      (hmh : m ≠ h) (hX : x.ptr = some X) : Kept s h X

/-- The assignment has a result, and h refers to what the source referred to before, an
object that is alive. -/
def Safe (s : State) (h src : ℕ) (result : Option State) : Prop :=
  ∃ t x, s.refptrs.cell src = some x ∧ result = some t ∧ t.refptrs.cell h = some x ∧
    ∀ X, x.ptr = some X → t.objects.cell X ≠ none

section Ranks

variable {obj : ℕ → ℕ} {s : State} {h X Y : ℕ} {x : Handle}

open Classical in
/-- The number of objects below an object. -/
noncomputable def rank (s : State) (X : ℕ) : ℕ :=
  ((Finset.range s.objects.fresh).filter (Relation.TransGen (Refers s) X)).card

theorem rank_le (s : State) (X : ℕ) : rank s X ≤ s.objects.fresh := by
  classical
  refine (Finset.card_filter_le _ _).trans ?_
  rw [Finset.card_range]

theorem Graph.rank_lt (g : Graph obj s) (hXY : Refers s X Y) : rank s Y < rank s X := by
  classical
  obtain ⟨l, m, x, -, -, hm, hY⟩ := id hXY
  have hlive : s.objects.cell Y ≠ none := by
    rcases g.linked m x hm with rfl | ⟨c, rfl, -, hobject⟩
    · cases hY
    · obtain rfl := Option.some.inj hY
      exact hobject
  obtain ⟨k, hk⟩ := Option.ne_none_iff_exists'.mp hlive
  apply Finset.card_lt_card
  refine (Finset.ssubset_iff_of_subset fun Z hZ => ?_).mpr ⟨Y, ?_, ?_⟩
  · obtain ⟨hrange, hbelow⟩ := Finset.mem_filter.mp hZ
    exact Finset.mem_filter.mpr ⟨hrange, Relation.TransGen.head hXY hbelow⟩
  · exact Finset.mem_filter.mpr ⟨Finset.mem_range.mpr (Heap.lt_fresh hk),
      Relation.TransGen.single hXY⟩
  · exact fun hmem => g.acyclic Y (Finset.mem_filter.mp hmem).2

/-- The count of the target of h is that of the others, and one for h itself. -/
theorem refs_add_one (hh : s.refptrs.cell h = some x) (c : ℕ) :
    s.refs h c + one x.refcount c =
      Counting.refs (Finset.range s.refptrs.fresh) s.counter c := by
  have hmem : h ∈ Finset.range s.refptrs.fresh := Finset.mem_range.mpr (Heap.lt_fresh hh)
  have hcount := refs_erase hmem s.counter c
  rwa [counter_eq hh] at hcount

/-- The graph with the reference of h given up. -/
theorem Graph.counted (g : Graph obj s) (hh : s.refptrs.cell h = some x) :
    Counted obj (rank s) h x.refcount s where
  linked m y _ hy := g.linked m y hy
  exact c k hk := by
    have hexact := g.exact c k hk
    have hcount := refs_add_one hh c
    omega
  alive X hX := by
    obtain ⟨c, hc, hpos⟩ := g.alive X hX
    have hcount := refs_add_one hh c
    refine ⟨c, hc, ?_⟩
    by_cases hxc : x.refcount = some c
    · exact .inr hxc
    · have hzero : one x.refcount c = 0 := by simp [one, hxc]
      exact .inl (by omega)
  single := g.single
  members := g.members
  apart := g.apart
  descends X l m c hX hm _ hc := by
    obtain ⟨y, hy, hcount⟩ := Option.bind_eq_some_iff.mp hc
    rcases g.linked m y hy with rfl | ⟨c', rfl, -, -⟩
    · cases hcount
    · obtain rfl : c' = c := Option.some.inj hcount
      exact g.rank_lt ⟨l, m, _, hX, hm, hy, rfl⟩

end Ranks

section Cascade

variable {obj : ℕ → ℕ} {s t : State} {h m c X : ℕ} {l : List ℕ} {x : Handle}

/-- Giving up the target of h takes its course and leaves h itself alone. -/
theorem Graph.release (g : Graph obj s) (hh : s.refptrs.cell h = some ⟨some c, some (obj c)⟩)
    (hcount : s.counts.cell c ≠ none) (hobject : s.objects.cell (obj c) ≠ none) :
    ∃ t, release (s.objects.fresh + 1) s c (some (obj c)) = some t ∧
      Counted obj (rank s) h none t ∧
      Shrinks (rank s) h (rank s (obj c)) (some c) [] s t ∧
      t.refptrs.cell h = s.refptrs.cell h := by
  have habove : ∀ Y l, s.objects.cell Y = some l → h ∈ l → rank s (obj c) < rank s Y :=
    fun Y l hY hmem => g.rank_lt ⟨l, h, _, hY, hmem, hh, rfl⟩
  have hroom : rank s (obj c) < s.objects.fresh + 1 := by
    have := rank_le s (obj c)
    omega
  obtain ⟨t, hrelease, wt, hshrink⟩ := releases obj (rank s) h (s.objects.fresh + 1) s c
    (g.counted hh) hcount hobject hroom habove
  refine ⟨t, hrelease, wt, hshrink, ?_⟩
  rcases hshrink.handle h with hsame | ⟨-, hend | ⟨Y, l, hY, hmem, hgone⟩⟩
  · exact hsame
  · cases hend
  · -- the object that has h as a member is too high
    have hlow := habove Y l hY hmem
    rcases hshrink.object Y with hsame | ⟨-, hle⟩
    · rw [hgone, hY] at hsame
      cases hsame
    · omega

variable {r : ℕ} {pending : Option ℕ}

/-- The members of an object that stays stay as they are. -/
theorem Shrinks.member_eq {rank : ℕ → ℕ} (w : Shrinks rank h r pending [] s t) (g : Graph obj s)
    (hX : t.objects.cell X = some l) (hm : m ∈ l) : t.refptrs.cell m = s.refptrs.cell m := by
  rcases w.handle m with hsame | ⟨-, hend | ⟨Y, l', hY, hmem, hgone⟩⟩
  · exact hsame
  · cases hend
  · obtain rfl := g.apart Y X l' l m hY (w.object_eq hX) hmem hm
    rw [hgone] at hX
    cases hX

/-- What a pointer other than h refers to is alive. -/
theorem Counted.target_live {rank : ℕ → ℕ} (w : Counted obj rank h none t) (hmh : m ≠ h)
    (hm : t.refptrs.cell m = some x) (hX : x.ptr = some X) : t.objects.cell X ≠ none := by
  rcases w.linked m x hmh hm with rfl | ⟨c, rfl, -, hobject⟩
  · cases hX
  · obtain rfl := Option.some.inj hX
    exact hobject

/-- The objects that are left when h has given up its target are those that are kept. -/
theorem Shrinks.live_iff {rank : ℕ → ℕ} (hshrink : Shrinks rank h r pending [] s t)
    (g : Graph obj s) (wt : Counted obj rank h none t) (bound : ℕ) (hbound : ∀ X, rank X ≤ bound) :
    t.objects.cell X ≠ none ↔ Kept s h X := by
  constructor
  · intro hX
    obtain ⟨n, hn⟩ : ∃ n, bound - rank X = n := ⟨_, rfl⟩
    -- up from the object, along pointers to it
    induction n using Nat.strong_induction_on generalizing X with
    | _ n ih =>
      obtain ⟨c, rfl, hpos | hnone⟩ := wt.alive X hX
      · obtain ⟨m, hmem, hcounter⟩ := (refs_pos_iff _ _ _).mp hpos
        have hmh := Finset.ne_of_mem_erase hmem
        obtain ⟨x, hm, hc⟩ := Option.bind_eq_some_iff.mp hcounter
        have hptr : x.ptr = some (obj c) := by
          rcases wt.linked m x hmh hm with rfl | ⟨c', rfl, -, -⟩
          · cases hc
          · obtain rfl : c' = c := Option.some.inj hc
            rfl
        have hms : s.refptrs.cell m = some x := by
          rcases hshrink.handle m with hsame | ⟨hgone, -⟩
          · rw [← hsame, hm]
          · rw [hgone] at hm
            cases hm
        by_cases hin : ∃ Y l, t.objects.cell Y = some l ∧ m ∈ l
        · obtain ⟨Y, l, hY, hml⟩ := hin
          have hup := wt.descends Y l m c hY hml hmh hcounter
          have htop := hbound Y
          exact .member (ih (bound - rank Y) (by omega) (by simp [hY]) rfl)
            (hshrink.object_eq hY) hml hms hmh hptr
        · refine .root hms hmh hptr fun Y l hY hml => ?_
          cases hlive : t.objects.cell Y with
          | none =>
            rw [hshrink.gone Y l hY hlive m hml] at hm
            cases hm
          | some l' =>
            obtain rfl := Option.some.inj (hY.symm.trans (hshrink.object_eq hlive))
            exact hin ⟨Y, l, hlive, hml⟩
      · cases hnone
  · intro hkept
    induction hkept with
    | @root m X x hm hmh hX hout =>
      have hmt : t.refptrs.cell m = some x := by
        rcases hshrink.handle m with hsame | ⟨-, hend | ⟨Y, l, hY, hmem, -⟩⟩
        · rw [hsame, hm]
        · cases hend
        · exact absurd hmem (hout Y l hY)
      exact wt.target_live hmh hmt hX
    | @member Y m X l x _ hl hmem hm hmh hX ih =>
      obtain ⟨l', hY⟩ := Option.ne_none_iff_exists'.mp ih
      obtain rfl := Option.some.inj (hl.symm.trans (hshrink.object_eq hY))
      exact wt.target_live hmh ((hshrink.member_eq g hY hmem).trans hm) hX

end Cascade

section Assignments

variable {obj : ℕ → ℕ} {s t : State} {h m src X : ℕ} {l : List ℕ} {x y : Handle}

theorem setHandle_eq (hm : s.refptrs.cell m = some x) (y : Handle) :
    s.setHandle m y = some { s with refptrs := s.refptrs.put m y } := by
  rw [State.setHandle, Heap.modify_eq hm, Option.map_some]

/-- A pointer in an object that h leads to is not h itself. -/
theorem Graph.source_ne (g : Graph obj s) (hX : Reachable s h X)
    (hl : s.objects.cell X = some l) (hm : src ∈ l) : h ≠ src := by
  rintro rfl
  obtain ⟨x, p, hh, hp, hpath⟩ := hX
  exact g.acyclic X (Relation.TransGen.head' ⟨l, h, x, hl, hm, hh, hp⟩ hpath)

/-- After `reset()` of h the rest of the cascade is as without it, and h is empty. -/
theorem Graph.reset (g : Graph obj s) (hX : Reachable s h X) :
    ∃ t y r c, s.reset h = some { t with refptrs := t.refptrs.put h ⟨none, none⟩ } ∧
      t.refptrs.cell h = some y ∧ Counted obj (rank s) h none t ∧
      Shrinks (rank s) h r (some c) [] s t := by
  obtain ⟨x, p, hh, hp, -⟩ := hX
  rcases g.linked h x hh with rfl | ⟨c, rfl, hcount, hobject⟩
  · cases hp
  · obtain ⟨t, hrelease, wt, hshrink, hsame⟩ := g.release hh hcount hobject
    have ht := hsame.trans hh
    refine ⟨t, _, _, c, ?_, ht, wt, hshrink⟩
    rw [State.reset, hh]
    change ((RefPtrGraph.release (s.objects.fresh + 1) s c (some (obj c))).bind fun t =>
      t.setHandle h ⟨none, none⟩) = _
    rw [hrelease, Option.bind_some, setHandle_eq ht]

/-- The source went with its object: both assignments read it where it was. -/
theorem assign_dead (hne : h ≠ src) (hreset : s.reset h = some t)
    (hsrc : t.refptrs.cell src = none) :
    s.copyAssign h src = none ∧ s.moveAssign h src = none := by
  constructor
  · rw [State.copyAssign, if_neg hne, hreset]
    change ((t.refptrs.cell src).bind _) = none
    rw [hsrc, Option.bind_none]
  · rw [State.moveAssign, if_neg hne, hreset]
    change ((t.refptrs.cell src).bind _) = none
    rw [hsrc, Option.bind_none]

theorem copyAssign_eq (hne : h ≠ src) (hreset : s.reset h = some t)
    (hh : t.refptrs.cell h = some y) (hsrc : t.refptrs.cell src = some x) :
    s.copyAssign h src = x.refcount.bind fun c => (t.counts.modify c (· + 1)).map fun counts =>
      { t with refptrs := t.refptrs.put h x, counts := counts } := by
  rw [State.copyAssign, if_neg hne, hreset]
  change ((t.refptrs.cell src).bind fun x => (t.setHandle h x).bind fun u =>
    x.refcount.bind fun c => (u.counts.modify c (· + 1)).bind fun counts =>
      some { u with counts := counts }) = _
  rw [hsrc, Option.bind_some, setHandle_eq hh, Option.bind_some]
  simp only [Option.map_eq_bind, Function.comp_def]

theorem moveAssign_eq (hne : h ≠ src) (hreset : s.reset h = some t)
    (hh : t.refptrs.cell h = some y) (hsrc : t.refptrs.cell src = some x) :
    s.moveAssign h src =
      some { t with refptrs := (t.refptrs.put h x).put src ⟨none, none⟩ } := by
  have hsrc' : (t.refptrs.put h x).cell src = some x := by
    rw [Heap.cell_put_of_ne _ _ hne.symm, hsrc]
  rw [State.moveAssign, if_neg hne, hreset]
  change ((t.refptrs.cell src).bind fun x => (t.setHandle h x).bind fun u =>
    u.setHandle src ⟨none, none⟩) = _
  rw [hsrc, Option.bind_some, setHandle_eq hh, Option.bind_some]
  exact setHandle_eq hsrc' _

end Assignments

section Containment

variable {obj : ℕ → ℕ} {s t : State} {h src X : ℕ} {l : List ℕ} {x y : Handle}

/-- A pointer that is not empty can be copied: its counter is there. -/
theorem Counted.safe_copyAssign {rank : ℕ → ℕ} (w : Counted obj rank h none t) (hne : h ≠ src)
    (hreset : s.reset h = some { t with refptrs := t.refptrs.put h ⟨none, none⟩ })
    (hh : t.refptrs.cell h = some y) (hsrc : s.refptrs.cell src = some x)
    (ht : t.refptrs.cell src = some x) :
    Safe s h src (s.copyAssign h src) ↔ x.refcount ≠ none := by
  have hempty := Heap.cell_put_self hh ⟨none, none⟩
  have hkeep := Heap.cell_put_of_ne t.refptrs ⟨none, none⟩ hne.symm
  rw [copyAssign_eq hne hreset hempty (hkeep.trans ht)]
  constructor
  · rintro ⟨u, z, -, hu, -⟩ hnone
    rw [hnone, Option.bind_none] at hu
    cases hu
  · intro hsome
    rcases w.linked src x hne.symm ht with rfl | ⟨c, rfl, hcount, hobject⟩
    · exact absurd rfl hsome
    · obtain ⟨k, hk⟩ := Option.ne_none_iff_exists'.mp hcount
      refine ⟨{ t with
        refptrs := (t.refptrs.put h ⟨none, none⟩).put h ⟨some c, some (obj c)⟩
        counts := t.counts.put c (k + 1) }, _, hsrc, ?_, ?_, fun X hX => ?_⟩
      · rw [Option.bind_some, Heap.modify_eq hk, Option.map_some]
      · exact Heap.cell_put_self hempty _
      · obtain rfl := Option.some.inj hX
        exact hobject

theorem Counted.safe_moveAssign {rank : ℕ → ℕ} (w : Counted obj rank h none t) (hne : h ≠ src)
    (hreset : s.reset h = some { t with refptrs := t.refptrs.put h ⟨none, none⟩ })
    (hh : t.refptrs.cell h = some y) (hsrc : s.refptrs.cell src = some x)
    (ht : t.refptrs.cell src = some x) : Safe s h src (s.moveAssign h src) := by
  have hempty := Heap.cell_put_self hh ⟨none, none⟩
  have hkeep := Heap.cell_put_of_ne t.refptrs ⟨none, none⟩ hne.symm
  rw [moveAssign_eq hne hreset hempty (hkeep.trans ht)]
  refine ⟨_, x, hsrc, rfl, ?_, fun X hX => w.target_live hne.symm ht hX⟩
  rw [Heap.cell_put_of_ne _ _ hne, Heap.cell_put_self hempty]

/-- An assignment from a pointer in an object that h leads to does what it is meant to
exactly if that object is kept by another pointer. A copy must not be of an empty one. -/
theorem safe_iff (g : Graph obj s) (hX : Reachable s h X) (hl : s.objects.cell X = some l)
    (hm : src ∈ l) (hsrc : s.refptrs.cell src = some x) :
    (Safe s h src (s.copyAssign h src) ↔ Kept s h X ∧ x.refcount ≠ none) ∧
      (Safe s h src (s.moveAssign h src) ↔ Kept s h X) := by
  have hne := g.source_ne hX hl hm
  obtain ⟨t, y, r, c, hreset, hh, wt, hshrink⟩ := g.reset hX
  have hlive := hshrink.live_iff (X := X) g wt s.objects.fresh (rank_le s)
  by_cases hkept : Kept s h X
  · -- the object stays, and the source with it
    obtain ⟨l', hl'⟩ := Option.ne_none_iff_exists'.mp (hlive.mpr hkept)
    obtain rfl := Option.some.inj (hl.symm.trans (hshrink.object_eq hl'))
    have ht : t.refptrs.cell src = some x := (hshrink.member_eq g hl' hm).trans hsrc
    rw [wt.safe_copyAssign hne hreset hh hsrc ht]
    exact ⟨⟨fun hsome => ⟨hkept, hsome⟩, And.right⟩,
      ⟨fun _ => hkept, fun _ => wt.safe_moveAssign hne hreset hh hsrc ht⟩⟩
  · have hdead : t.objects.cell X = none := by
      by_contra hX'
      exact hkept (hlive.mp hX')
    have hgone := hshrink.gone X l hl hdead src hm
    have hkeep := Heap.cell_put_of_ne t.refptrs ⟨none, none⟩ hne.symm
    obtain ⟨hcopy, hmove⟩ := assign_dead hne hreset (hkeep.trans hgone)
    have hunsafe : ¬ Safe s h src none := by
      rintro ⟨_, _, -, hnone, -⟩
      cases hnone
    rw [hcopy, hmove]
    exact ⟨⟨fun hsafe => absurd hsafe hunsafe, fun hand => absurd hand.1 hkept⟩,
      ⟨fun hsafe => absurd hsafe hunsafe, fun hk => absurd hk hkept⟩⟩

/-- A list of two nodes: pointer 0 holds node 0, whose member 1 holds node 1. -/
def walk : State where
  refptrs := (Heap.empty.alloc ⟨some 0, some 0⟩).alloc ⟨some 1, some 1⟩
  counts := (Heap.empty.alloc 1).alloc 1
  objects := (Heap.empty.alloc [1]).alloc []

theorem walk_refers {X Y : ℕ} (hXY : Refers walk X Y) : X < Y := by
  obtain ⟨l, m, x, hl, hm, hx, hY⟩ := hXY
  have hlt : X < 2 := Heap.lt_fresh hl
  interval_cases X
  · obtain rfl : [1] = l := Option.some.inj hl
    obtain rfl := List.mem_singleton.mp hm
    obtain rfl : (⟨some 1, some 1⟩ : Handle) = x := Option.some.inj hx
    obtain rfl : 1 = Y := Option.some.inj hY
    omega
  · obtain rfl : [] = l := Option.some.inj hl
    cases hm

theorem walk_graph : Graph id walk where
  linked m x hx := by
    have hlt : m < 2 := Heap.lt_fresh hx
    interval_cases m
    · exact .inr ⟨0, (Option.some.inj hx).symm, by decide, by decide⟩
    · exact .inr ⟨1, (Option.some.inj hx).symm, by decide, by decide⟩
  exact c k hk := by
    have hlt : c < 2 := Heap.lt_fresh hk
    interval_cases c
    · obtain rfl : 1 = k := Option.some.inj hk
      decide
    · obtain rfl : 1 = k := Option.some.inj hk
      decide
  alive X hX := by
    obtain ⟨l, hl⟩ := Option.ne_none_iff_exists'.mp hX
    have hlt : X < 2 := Heap.lt_fresh hl
    interval_cases X
    · exact ⟨0, rfl, by decide⟩
    · exact ⟨1, rfl, by decide⟩
  single _ _ _ _ heq := heq
  members X l hl := by
    have hlt : X < 2 := Heap.lt_fresh hl
    interval_cases X
    · obtain rfl : [1] = l := Option.some.inj hl
      decide
    · obtain rfl : [] = l := Option.some.inj hl
      decide
  apart X Y l l' m hX hY hm hm' := by
    have hlt : X < 2 := Heap.lt_fresh hX
    have hlt' : Y < 2 := Heap.lt_fresh hY
    interval_cases X <;> interval_cases Y
    · rfl
    · obtain rfl : [] = l' := Option.some.inj hY
      cases hm'
    · obtain rfl : [] = l := Option.some.inj hX
      cases hm
    · rfl
  acyclic X hcycle := by
    have hless : ∀ Y Z, Relation.TransGen (Refers walk) Y Z → Y < Z := by
      intro Y Z hpath
      induction hpath with
      | single hstep => exact walk_refers hstep
      | tail _ hstep ih => exact ih.trans (walk_refers hstep)
    exact absurd (hless X X hcycle) (Nat.lt_irrefl X)

theorem walk_reachable : Reachable walk 0 0 := ⟨_, 0, rfl, rfl, .refl⟩

/-- The step p = p->next down the list. -/
theorem safe_iff_walk :
    (Safe walk 0 1 (walk.copyAssign 0 1) ↔ Kept walk 0 0 ∧ some 1 ≠ none) ∧
      (Safe walk 0 1 (walk.moveAssign 0 1) ↔ Kept walk 0 0) :=
  safe_iff walk_graph walk_reachable (l := [1]) rfl List.mem_cons_self (x := ⟨some 1, some 1⟩) rfl

/-- It frees the node, and the pointer in it, before it reads that pointer. -/
theorem walk_unsafe :
    ¬ ∀ (obj : ℕ → ℕ) (s : State) (h src X : ℕ) (l : List ℕ) (x : Handle), Graph obj s →
      Reachable s h X → s.objects.cell X = some l → src ∈ l → s.refptrs.cell src = some x →
      x.refcount ≠ none →
      Safe s h src (s.copyAssign h src) ∧ Safe s h src (s.moveAssign h src) := by
  intro hall
  obtain ⟨⟨t, -, -, hresult, -⟩, -⟩ := hall id walk 0 1 0 [1] ⟨some 1, some 1⟩ walk_graph
    walk_reachable rfl List.mem_cons_self rfl (Option.some_ne_none 1)
  have hnone : (walk.copyAssign 0 1).isSome = false := by decide
  rw [hresult] at hnone
  cases hnone

end Containment

end BoxUtils.RefPtrGraph
