import BoxUtils.RefPtr

/-!
The counts of `RefPtr` over all sequences of operations. The invariant speaks of
a set of handles, so that a handle can be taken out of it while it releases its
object and be put back with other pointers. Every operation keeps it except
`reset(ptr)` on a handle that owns its object alone.
-/
namespace BoxUtils.RefPtr

open Runs Counting

/-- The invariant behind the counts, for the handles in S. The object that a
count cell stands for is given by `obj`; it is deleted when the cell is freed. -/
structure Owned (S : Finset ℕ) (obj : ℕ → ℕ) (s : State) : Prop where
  exact : Exact S s.counter s.counts.cell
  pairs : ∀ h ∈ S, s.object h = (s.counter h).map obj
  inj : ∀ c c', c < s.counts.fresh → c' < s.counts.fresh → obj c = obj c' → c = c'
  managed_iff : ∀ p, p ∈ s.managed ↔ ∃ c < s.counts.fresh, obj c = p
  kept : ∀ c, s.counts.cell c ≠ none → obj c ∉ s.deleted
  gone : ∀ c < s.counts.fresh, s.counts.cell c = none → s.deleted.count (obj c) = 1
  unmanaged : ∀ p, p ∉ s.managed → p ∉ s.deleted

theorem owned_init : Owned ∅ id init where
  exact c := by simp [init, Heap.empty]
  pairs h hh := absurd hh (Finset.notMem_empty h)
  inj c c' hc := absurd hc (Nat.not_lt_zero c)
  managed_iff p := by simp [init, Heap.empty]
  kept c _ := by simp [init]
  gone c hc := absurd hc (Nat.not_lt_zero c)
  unmanaged p _ := by simp [init]

section Handles

variable {S : Finset ℕ} {obj : ℕ → ℕ} {s t : State} {h src c p : ℕ}

theorem counter_setHandle (x : Handle) :
    (s.setHandle h x).counter = Function.update s.counter h x.refcount := by
  funext v
  by_cases hv : v = h
  · subst v
    simp [State.counter, State.setHandle]
  · simp [State.counter, State.setHandle, hv]

theorem object_setHandle (x : Handle) :
    (s.setHandle h x).object = Function.update s.object h x.ptr := by
  funext v
  by_cases hv : v = h
  · subst v
    simp [State.object, State.setHandle]
  · simp [State.object, State.setHandle, hv]

/-- A handle gets two pointers that belong together. -/
theorem pairs_setHandle {x : Handle} (hpairs : ∀ v ∈ S, s.object v = (s.counter v).map obj)
    (hx : x.ptr = x.refcount.map obj) :
    ∀ v ∈ insert h S, (s.setHandle h x).object v = ((s.setHandle h x).counter v).map obj := by
  intro v hv
  rw [counter_setHandle, object_setHandle]
  by_cases hvh : v = h
  · subst v
    simpa only [Function.update_self] using hx
  · rw [Function.update_of_ne hvh, Function.update_of_ne hvh]
    exact hpairs v (Finset.mem_of_mem_insert_of_ne hv hvh)

theorem Owned.null_iff (w : Owned S obj s) (hh : h ∈ S) :
    s.object h = none ↔ s.counter h = none := by
  rw [w.pairs h hh, Option.map_eq_none_iff]

/-- The cell of a handle that is not empty is live. -/
theorem Owned.cell_counter (w : Owned S obj s) (hh : h ∈ S) (hc : s.counter h = some c) :
    s.counts.cell c = some (refs S s.counter c : ℤ) := w.exact.cell_of_ref hh hc

theorem Owned.refs_object (w : Owned S obj s) (hc : c < s.counts.fresh) :
    refs S s.object (obj c) = refs S s.counter c := by
  unfold refs
  congr 1
  apply Finset.filter_congr
  intro v hv
  rw [w.pairs v hv]
  constructor
  · intro hmap
    obtain ⟨d, hd, hobj⟩ := Option.map_eq_some_iff.mp hmap
    have hdlt : d < s.counts.fresh := Heap.lt_fresh (w.cell_counter hv hd)
    rw [hd, w.inj d c hdlt hc hobj]
  · intro hv'
    rw [hv']
    rfl

/-- Handles may be constructed and destroyed around the invariant. -/
theorem Owned.setLive (w : Owned S obj s) (L : Finset ℕ) : Owned S obj { s with live := L } :=
  ⟨w.exact, w.pairs, w.inj, w.managed_iff, w.kept, w.gone, w.unmanaged⟩

theorem Owned.erase_null (w : Owned S obj s) (hh : h ∈ S) (hnull : s.counter h = none) :
    Owned (S.erase h) obj s :=
  ⟨w.exact.erase_null hh hnull, fun v hv => w.pairs v (Finset.mem_of_mem_erase hv),
    w.inj, w.managed_iff, w.kept, w.gone, w.unmanaged⟩

theorem Owned.insert_null (w : Owned S obj s) (hh : h ∉ S) :
    Owned (insert h S) obj (s.setHandle h ⟨none, none⟩) where
  exact := by
    rw [counter_setHandle]
    exact w.exact.insert_null hh
  pairs := pairs_setHandle w.pairs rfl
  inj := w.inj
  managed_iff := w.managed_iff
  kept := w.kept
  gone := w.gone
  unmanaged := w.unmanaged

/-- A handle joins those that share an object. -/
theorem Owned.insert_shared (w : Owned S obj s) (hh : h ∉ S) (hsrc : src ∈ S)
    (hc : s.counter src = some c) :
    ∃ t, (s.setHandle h (s.handle src)).retain (s.handle src).refcount = some t ∧
      t.live = s.live ∧ Owned (insert h S) obj t := by
  have hcell := w.cell_counter hsrc hc
  refine ⟨{ s.setHandle h (s.handle src) with counts := s.counts.put c (refs S s.counter c + 1) },
    ?_, rfl, ?_⟩
  · have hc' : (s.handle src).refcount = some c := hc
    have hcell' : (s.setHandle h (s.handle src)).counts.cell c = some (refs S s.counter c : ℤ) :=
      hcell
    simp only [State.retain, hc', bind, Option.bind, Heap.modify_eq hcell']
    rfl
  · refine ⟨?_, pairs_setHandle w.pairs (w.pairs src hsrc), w.inj, w.managed_iff,
      fun d hd => w.kept d fun hnone => hd ?_, fun d hd hnone => w.gone d hd ?_, w.unmanaged⟩
    · change Exact (insert h S) (s.setHandle h (s.handle src)).counter _
      have hkeep : (s.handle src).refcount = some c := hc
      rw [counter_setHandle, Heap.cell_put hcell, hkeep]
      exact w.exact.insert_shared hh hcell
    · exact (Heap.cell_put_eq_none_iff hcell _).mpr hnone
    · exact (Heap.cell_put_eq_none_iff hcell _).mp hnone

/-- A handle takes over the pointers of another one. -/
theorem Owned.insert_moved (w : Owned S obj s) (hh : h ∉ S) (hsrc : src ∈ S) :
    Owned (insert h S) obj ((s.setHandle h (s.handle src)).setHandle src ⟨none, none⟩) where
  exact := by
    rw [counter_setHandle, counter_setHandle]
    exact w.exact.insert_moved hh hsrc
  pairs v hv := by
    have hmoved := pairs_setHandle (h := h) w.pairs (w.pairs src hsrc)
    exact pairs_setHandle (h := src) hmoved rfl v (Finset.mem_insert_of_mem hv)
  inj := w.inj
  managed_iff := w.managed_iff
  kept := w.kept
  gone := w.gone
  unmanaged := w.unmanaged

theorem Owned.inj_fresh (w : Owned S obj s) (hp : p ∉ s.managed) {d d' : ℕ}
    (hd : d < s.counts.fresh + 1) (hd' : d' < s.counts.fresh + 1)
    (heq : Function.update obj s.counts.fresh p d = Function.update obj s.counts.fresh p d') :
    d = d' := by
  have hobj : ∀ e, e < s.counts.fresh → obj e ≠ p := fun e he heq =>
    hp ((w.managed_iff p).mpr ⟨e, he, heq⟩)
  by_cases h1 : d = s.counts.fresh
  · by_cases h2 : d' = s.counts.fresh
    · rw [h1, h2]
    · subst d
      rw [Function.update_self, Function.update_of_ne h2] at heq
      exact absurd heq.symm (hobj d' (by omega))
  · by_cases h2 : d' = s.counts.fresh
    · subst d'
      rw [Function.update_self, Function.update_of_ne h1] at heq
      exact absurd heq (hobj d (by omega))
    · rw [Function.update_of_ne h1, Function.update_of_ne h2] at heq
      exact w.inj d d' (by omega) (by omega) heq

theorem Owned.managed_fresh (w : Owned S obj s) (q : ℕ) :
    q ∈ s.managed ++ [p] ↔
      ∃ d < s.counts.fresh + 1, Function.update obj s.counts.fresh p d = q := by
  rw [List.mem_append, List.mem_singleton, w.managed_iff q]
  constructor
  · rintro (⟨d, hd, rfl⟩ | rfl)
    · exact ⟨d, by omega, Function.update_of_ne (Nat.ne_of_lt hd) _ _⟩
    · exact ⟨s.counts.fresh, by omega, Function.update_self _ _ _⟩
  · rintro ⟨d, hd, heq⟩
    by_cases h1 : d = s.counts.fresh
    · subst d
      exact Or.inr (by rw [← heq, Function.update_self])
    · rw [Function.update_of_ne h1] at heq
      exact Or.inl ⟨d, by omega, heq⟩

/-- A handle gets a fresh object with a count cell of its own. -/
theorem Owned.insert_fresh (w : Owned S obj s) (hh : h ∉ S) (hp : p ∉ s.managed) :
    Owned (insert h S) (Function.update obj s.counts.fresh p) (s.adopt h p) := by
  have hfresh : s.counts.cell s.counts.fresh = none := s.counts.unused _ (Nat.le_refl _)
  have hpairs : ∀ v ∈ S, s.object v = (s.counter v).map (Function.update obj s.counts.fresh p) := by
    intro v hv
    rw [w.pairs v hv]
    cases hcv : s.counter v with
    | none => rfl
    | some d =>
      have hd : d < s.counts.fresh := Heap.lt_fresh (w.cell_counter hv hcv)
      simp [Nat.ne_of_lt hd]
  refine ⟨?_, pairs_setHandle hpairs (by simp), fun d d' hd hd' heq => w.inj_fresh hp hd hd' heq,
    w.managed_fresh, fun d hd => ?_, fun d hd hnone => ?_, fun q hq => ?_⟩
  · change Exact (insert h S) (s.setHandle h ⟨some s.counts.fresh, some p⟩).counter _
    rw [counter_setHandle]
    exact w.exact.insert_fresh hh hfresh
  · change Function.update obj s.counts.fresh p d ∉ s.deleted
    by_cases h1 : d = s.counts.fresh
    · subst d
      rw [Function.update_self]
      exact w.unmanaged p hp
    · rw [Function.update_of_ne h1]
      simp only [State.adopt, Heap.cell_alloc_of_ne _ _ h1] at hd
      exact w.kept d hd
  · have h1 : d ≠ s.counts.fresh := by
      intro heq
      subst heq
      simp [State.adopt] at hnone
    simp only [State.adopt, Heap.fresh_alloc, Heap.cell_alloc_of_ne _ _ h1] at hd hnone
    change s.deleted.count (Function.update obj s.counts.fresh p d) = 1
    rw [Function.update_of_ne h1]
    exact w.gone d (by omega) hnone
  · simp only [State.adopt, List.mem_append, not_or] at hq
    exact w.unmanaged q hq.1

/-- Releasing a handle's object: the other handles keep the invariant. -/
theorem Owned.release (w : Owned S obj s) (hh : h ∈ S) (hc : s.counter h = some c) :
    ∃ t, s.release (s.handle h).refcount (s.handle h).ptr = some t ∧ t.live = s.live ∧
      t.handle = s.handle ∧ t.managed = s.managed ∧ Owned (S.erase h) obj t := by
  have hcell := w.cell_counter hh hc
  have hlt : c < s.counts.fresh := Heap.lt_fresh hcell
  have hcount : (s.handle h).refcount = some c := hc
  have hptr : (s.handle h).ptr = some (obj c) := by
    have hpair := w.pairs h hh
    rw [hc] at hpair
    exact hpair
  have hpairs : ∀ v ∈ S.erase h, s.object v = (s.counter v).map obj :=
    fun v hv => w.pairs v (Finset.mem_of_mem_erase hv)
  by_cases hlast : refs S s.counter c ≤ 1
  · have hkept : obj c ∉ s.deleted := w.kept c (by simp [hcell])
    refine ⟨{ s with deleted := s.deleted ++ [obj c], counts := s.counts.erase c }, ?_, rfl, rfl,
      rfl, ⟨w.exact.erase_last hh hc hlast, hpairs, w.inj, w.managed_iff, fun d hd => ?_,
        fun d hd hnone => ?_, fun q hq => ?_⟩⟩
    · rw [hcount, hptr]
      exact State.release_last hcell (by omega) hkept
    · change obj d ∉ s.deleted ++ [obj c]
      have hdc : d ≠ c := by
        intro heq
        subst heq
        simp at hd
      rw [Heap.cell_erase_of_ne _ hdc] at hd
      have hdlt : d < s.counts.fresh := by
        obtain ⟨k, hk⟩ := Option.ne_none_iff_exists'.mp hd
        exact Heap.lt_fresh hk
      simp only [List.mem_append, List.mem_singleton, not_or]
      exact ⟨w.kept d hd, fun heq => hdc (w.inj d c hdlt hlt heq)⟩
    · change (s.deleted ++ [obj c]).count (obj d) = 1
      rw [List.count_append, List.count_singleton]
      by_cases hdc : d = c
      · subst d
        simp [List.count_eq_zero.mpr hkept]
      · have hobj : obj c ≠ obj d := fun heq => hdc (w.inj d c hd hlt heq.symm)
        rw [Heap.cell_erase_of_ne _ hdc] at hnone
        simp [w.gone d hd hnone, hobj]
    · change q ∉ s.deleted ++ [obj c]
      simp only [List.mem_append, List.mem_singleton, not_or]
      refine ⟨w.unmanaged q hq, ?_⟩
      intro heq
      subst heq
      exact hq ((w.managed_iff _).mpr ⟨c, hlt, rfl⟩)
  · have hmore : 1 < refs S s.counter c := Nat.lt_of_not_le hlast
    refine ⟨{ s with counts := s.counts.put c (refs S s.counter c - 1) }, ?_, rfl, rfl, rfl,
      ⟨?_, hpairs, w.inj, w.managed_iff, fun d hd => w.kept d fun hnone => hd ?_,
        fun d hd hnone => w.gone d hd ?_, w.unmanaged⟩⟩
    · rw [hcount]
      exact State.release_shared _ hcell (by omega)
    · change Exact (S.erase h) s.counter (s.counts.put c (refs S s.counter c - 1)).cell
      rw [Heap.cell_put hcell]
      exact w.exact.erase_shared hh hc hmore
    · exact (Heap.cell_put_eq_none_iff hcell _).mpr hnone
    · exact (Heap.cell_put_eq_none_iff hcell _).mp hnone

/-- Emptying a handle takes it out of the invariant, and it is null then. -/
theorem Owned.reset (w : Owned S obj s) (hh : h ∈ S) :
    ∃ t, s.reset h = some t ∧ t.live = s.live ∧ (∀ v, v ≠ h → t.handle v = s.handle v) ∧
      t.handle h = ⟨none, none⟩ ∧ Owned (S.erase h) obj t := by
  cases hc : s.counter h with
  | none =>
    have hnull : s.object h = none := (w.null_iff hh).mpr hc
    refine ⟨s, if_pos hnull, rfl, fun _ _ => rfl, ?_, w.erase_null hh hc⟩
    exact congrArg₂ Handle.mk hc hnull
  | some c =>
    have hnull : (s.handle h).ptr ≠ none := fun hnull => by
      have hcount : s.counter h = none := (w.null_iff hh).mp hnull
      rw [hc] at hcount
      cases hcount
    obtain ⟨t, ht, hlive, hhandle, -, hown⟩ := w.release hh hc
    refine ⟨t.setHandle h ⟨none, none⟩, ?_, hlive, fun v hv => ?_, ?_, ?_⟩
    · rw [State.reset, if_neg hnull]
      simp [ht]
    · simp [State.setHandle, hv, hhandle]
    · simp [State.setHandle]
    · have hnew := hown.insert_null (Finset.notMem_erase h S)
      have herase := hnew.erase_null (Finset.mem_insert_self h _) (by simp [counter_setHandle])
      rwa [Finset.erase_insert (Finset.notMem_erase h S)] at herase

/-- A null handle that was taken out may come back. -/
theorem Owned.restore_null (w : Owned (S.erase h) obj s) (hh : h ∈ S)
    (hnull : s.handle h = ⟨none, none⟩) : Owned S obj s := by
  have hnew := w.insert_null (Finset.notMem_erase h S)
  have hself : s.setHandle h ⟨none, none⟩ = s := by
    rw [State.setHandle, ← hnull, Function.update_eq_self]
  rwa [hself, Finset.insert_erase hh] at hnew

end Handles

section Operations

variable {obj : ℕ → ℕ} {s t : State} {h src c p : ℕ}

theorem Owned.copyConstruct (w : Owned s.live obj s)
    (hlegal : Legal s (.copyConstruct h src)) :
    ∃ t, perform s (.copyConstruct h src) = some t ∧ Owned t.live obj t := by
  obtain ⟨hh, hsrc, hptr⟩ := hlegal
  have hnull : s.counter src ≠ none := fun hnone => hptr ((w.null_iff hsrc).mpr hnone)
  obtain ⟨c, hc⟩ := Option.ne_none_iff_exists'.mp hnull
  obtain ⟨t, ht, hlive, hown⟩ := (w.setLive (insert h s.live)).insert_shared hh hsrc hc
  refine ⟨t, ht, ?_⟩
  rw [hlive]
  exact hown

theorem Owned.copyAssign (w : Owned s.live obj s) (hlegal : Legal s (.copyAssign h src)) :
    ∃ t, perform s (.copyAssign h src) = some t ∧ Owned t.live obj t := by
  obtain ⟨hh, hsrc, hptr⟩ := hlegal
  by_cases heq : h = src
  · exact ⟨s, by simp [perform, heq], w⟩
  obtain ⟨m, hm, hlive, hkeep, hnull, hown⟩ := w.reset hh
  have hsrc' : src ∈ s.live.erase h := Finset.mem_erase.mpr ⟨Ne.symm heq, hsrc⟩
  have hne : m.counter src ≠ none := fun hnone => by
    rw [State.counter, hkeep src (Ne.symm heq)] at hnone
    exact hptr ((w.null_iff hsrc).mpr hnone)
  obtain ⟨c, hc⟩ := Option.ne_none_iff_exists'.mp hne
  obtain ⟨t, ht, hlive', hown'⟩ := hown.insert_shared (Finset.notMem_erase h s.live) hsrc' hc
  refine ⟨t, by simp [perform, heq, hm, ht], ?_⟩
  rw [hlive', hlive]
  rwa [Finset.insert_erase hh] at hown'

theorem Owned.moveAssign (w : Owned s.live obj s) (hlegal : Legal s (.moveAssign h src)) :
    ∃ t, perform s (.moveAssign h src) = some t ∧ Owned t.live obj t := by
  obtain ⟨hh, hsrc⟩ := hlegal
  by_cases heq : h = src
  · exact ⟨s, by simp [perform, heq], w⟩
  obtain ⟨m, hm, hlive, -, -, hown⟩ := w.reset hh
  have hsrc' : src ∈ s.live.erase h := Finset.mem_erase.mpr ⟨Ne.symm heq, hsrc⟩
  have hmoved := hown.insert_moved (Finset.notMem_erase h s.live) hsrc'
  refine ⟨_, by simp [perform, heq, hm]; rfl, ?_⟩
  change Owned m.live obj _
  rw [hlive]
  rwa [Finset.insert_erase hh] at hmoved

theorem Owned.destroy (w : Owned s.live obj s) (hlegal : Legal s (.destroy h)) :
    ∃ t, perform s (.destroy h) = some t ∧ Owned t.live obj t := by
  have hh : h ∈ s.live := hlegal
  cases hc : s.counter h with
  | none =>
    have hcount : (s.handle h).refcount = none := hc
    exact ⟨{ s with live := s.live.erase h }, by simp [perform, hcount],
      (w.erase_null hh hc).setLive _⟩
  | some c =>
    have hcount : (s.handle h).refcount = some c := hc
    obtain ⟨t, ht, hlive, -, -, hown⟩ := w.release hh hc
    rw [hcount] at ht
    refine ⟨{ t with live := t.live.erase h }, by simp [perform, hcount, ht], ?_⟩
    rw [hlive]
    exact hown.setLive _

/-- Replacing a shared object gives the handle the new one and leaves the others the old. -/
theorem Owned.resetPtr (w : Owned s.live obj s) (hlegal : Legal s (.resetPtr h p))
    (hshared : ResetsShared s (.resetPtr h p)) :
    ∃ t obj', perform s (.resetPtr h p) = some t ∧ Owned t.live obj' t := by
  obtain ⟨hh, hptr, hp⟩ := hlegal
  have hne : s.counter h ≠ none := fun hnone => hptr ((w.null_iff hh).mpr hnone)
  obtain ⟨c, hc⟩ := Option.ne_none_iff_exists'.mp hne
  have hcell := w.cell_counter hh hc
  have hmore : 1 < refs s.live s.counter c := hshared c hc
  have hcount : (s.handle h).refcount = some c := hc
  obtain ⟨t, ht, hlive, -, hmanaged, hown⟩ := w.release hh hc
  -- with a count above one the two versions of the release do the same
  have hrelease : s.release (s.handle h).refcount (some p) = some t := by
    rw [← ht, hcount, State.release_shared _ hcell (by omega),
      State.release_shared _ hcell (by omega)]
  have hfresh := hown.insert_fresh (Finset.notMem_erase h s.live) (p := p) (by rwa [hmanaged])
  refine ⟨t.adopt h p, Function.update obj t.counts.fresh p, ?_, ?_⟩
  · rw [perform, State.resetPtr, if_neg hptr]
    simp [hrelease]
  · change Owned t.live _ _
    rw [hlive]
    rwa [Finset.insert_erase hh] at hfresh

theorem step_owned {op : Op} (w : Owned s.live obj s) (hlegal : Legal s op)
    (hG : ResetsShared s op) : ∃ t obj', perform s op = some t ∧ Owned t.live obj' t := by
  cases op with
  | make h p =>
    obtain ⟨hh, hp⟩ := hlegal
    exact ⟨_, _, rfl, (w.setLive (insert h s.live)).insert_fresh hh hp⟩
  | copyConstruct h src =>
    obtain ⟨t, ht, hown⟩ := w.copyConstruct hlegal
    exact ⟨t, obj, ht, hown⟩
  | moveConstruct h src =>
    obtain ⟨hh, hsrc⟩ := hlegal
    exact ⟨_, obj, rfl, (w.setLive (insert h s.live)).insert_moved hh hsrc⟩
  | copyAssign h src =>
    obtain ⟨t, ht, hown⟩ := w.copyAssign hlegal
    exact ⟨t, obj, ht, hown⟩
  | moveAssign h src =>
    obtain ⟨t, ht, hown⟩ := w.moveAssign hlegal
    exact ⟨t, obj, ht, hown⟩
  | reset h =>
    obtain ⟨t, ht, hlive, -, hnull, hown⟩ := w.reset hlegal
    refine ⟨t, obj, ht, ?_⟩
    rw [hlive]
    exact hown.restore_null hlegal hnull
  | resetPtr h p => exact w.resetPtr hlegal hG
  | destroy h =>
    obtain ⟨t, ht, hown⟩ := w.destroy hlegal
    exact ⟨t, obj, ht, hown⟩

/-- The last owner deletes the new object and keeps a pointer to it. -/
theorem resetPtr_last (w : Owned s.live obj s) (hlegal : Legal s (.resetPtr h p))
    (hlast : ¬ ResetsShared s (.resetPtr h p)) :
    ∃ t, perform s (.resetPtr h p) = some t ∧ p ∈ t.managed ∧ p ∈ t.deleted ∧
      0 < refs t.live t.object p := by
  obtain ⟨hh, hptr, hp⟩ := hlegal
  simp only [ResetsShared, not_forall, Nat.not_lt] at hlast
  obtain ⟨c, hc, hone⟩ := hlast
  have hcell := w.cell_counter hh hc
  have hcount : (s.handle h).refcount = some c := hc
  have hrelease := State.release_last hcell (by omega) (w.unmanaged p hp)
  let m : State := { s with deleted := s.deleted ++ [p], counts := s.counts.erase c }
  refine ⟨m.adopt h p, ?_, ?_, ?_, ?_⟩
  · rw [perform, State.resetPtr, if_neg hptr]
    simp [hcount, hrelease, m]
  · exact List.mem_append_right _ (List.mem_singleton_self p)
  · exact List.mem_append_right _ (List.mem_singleton_self p)
  · rw [refs_pos_iff]
    exact ⟨h, hh, by simp [State.object, State.adopt, State.setHandle]⟩

theorem Owned.countsExactly (w : Owned s.live obj s) : CountsExactly s where
  counts_eq c k hk := w.exact.refs_of_cell hk
  null_iff h hh := w.null_iff hh
  deleted_once p hp := by
    obtain ⟨c, hc, rfl⟩ := (w.managed_iff p).mp hp
    rw [w.refs_object hc]
    by_cases hnone : s.counts.cell c = none
    · rw [w.gone c hc hnone, if_pos (w.exact.refs_zero_of_none hnone)]
    · obtain ⟨k, hk⟩ := Option.ne_none_iff_exists'.mp hnone
      have hpos := w.exact.refs_pos_of_cell hk
      rw [if_neg (by omega)]
      exact List.count_eq_zero.mpr (w.kept c hnone)
  safe op hlegal := by
    by_cases hG : ResetsShared s op
    · obtain ⟨t, -, ht, -⟩ := step_owned w hlegal hG
      exact Option.isSome_of_eq_some ht
    · cases op with
      | resetPtr h p =>
        obtain ⟨t, ht, -⟩ := resetPtr_last w hlegal hG
        exact Option.isSome_of_eq_some ht
      | _ => exact absurd trivial hG

end Operations

/-- The invariant of a reachable state. -/
def Valid (s : State) : Prop := ∃ obj, Owned s.live obj s

theorem next_cases {s t : State} {op : Op} (hstep : next s op = some t) :
    Legal s op ∧ perform s op = some t := by
  obtain ⟨hlegal, hstep⟩ := Option.ite_none_right_eq_some.mp hstep
  exact ⟨hlegal, hstep⟩

theorem step_valid {s t : State} {op : Op} (hs : Valid s) (hG : ResetsShared s op)
    (hstep : next s op = some t) : Valid t := by
  obtain ⟨obj, w⟩ := hs
  obtain ⟨hlegal, hperform⟩ := next_cases hstep
  obtain ⟨t', obj', ht', w'⟩ := step_owned w hlegal hG
  obtain rfl : t' = t := Option.some.inj (ht'.symm.trans hperform)
  exact ⟨obj', w'⟩

/-- A `reset(ptr)` by the last owner leaves a held object deleted. -/
theorem resetPtr_last_breaks {s t : State} {op : Op} (hs : Valid s)
    (hstep : next s op = some t) (hG : ¬ ResetsShared s op) : ¬ CountsExactly t := by
  obtain ⟨obj, w⟩ := hs
  obtain ⟨hlegal, hperform⟩ := next_cases hstep
  cases op with
  | resetPtr h p =>
    obtain ⟨t', ht', hmanaged, hdeleted, hpos⟩ := resetPtr_last w hlegal hG
    obtain rfl : t' = t := Option.some.inj (ht'.symm.trans hperform)
    intro hexact
    have hcount := hexact.deleted_once p hmanaged
    rw [if_neg (by omega), List.count_eq_zero] at hcount
    exact hcount hdeleted
  | _ => exact absurd trivial hG

/-- Over any sequence of operations the counts and the deletions are exact in every
state if and only if `reset(ptr)` is only called on handles that share their object. -/
theorem pointerCounts_iff (ops : List Op) :
    Throughout next CountsExactly init ops ↔ StepsMeet next ResetsShared init ops :=
  throughout_iff_stepsMeet (fun _ _ _ hs hG hstep => step_valid hs hG hstep)
    (fun _ hs => hs.elim fun _ w => w.countsExactly)
    (fun _ _ _ hs hstep hG => resetPtr_last_breaks hs hstep hG) ⟨id, owned_init⟩

/-- Object 1 is replaced by object 2, which is deleted at once. -/
theorem new_object_deleted : ¬ ∀ ops : List Op, Throughout next CountsExactly init ops := by
  intro h
  let ops : List Op := [.make 0 1, .resetPtr 0 2]
  have hlast : (run next init ops).map
      (fun s => (s.managed, s.deleted, refs s.live s.object 2)) = some ([1, 2], [2], 1) := by
    decide
  obtain ⟨s, hs, hfinal⟩ := Option.map_eq_some_iff.mp hlast
  simp only [Prod.mk.injEq] at hfinal
  obtain ⟨hmanaged, hdeleted, hrefs⟩ := hfinal
  have honce := ((h ops).final hs).deleted_once 2 (by simp [hmanaged])
  rw [hrefs, hdeleted] at honce
  exact absurd honce (by decide)

end BoxUtils.RefPtr
