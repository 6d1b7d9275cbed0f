import BoxUtils.MultiTransfers

/-!
Each step of the objects and the handles is a step of the transfers, and so is each run.
-/
namespace BoxUtils.Multi

open Runs Function

/-- A handle is there as long as its transfer, with its owner in the option, and the owner has
the handle and the user data. -/
structure Keeps (easies : ℕ → Option CurlEasy) (easy : ℕ → Option Easy)
    (transfer : ℕ → Option Transfer) : Prop where
  handles : ∀ h, easies h = (transfer h).map fun t => ⟨some t.owner, t.multi⟩
  objects : ∀ o h u, easy o = some ⟨some h, u⟩ ↔ ∃ k, transfer h = some ⟨o, u, k⟩

structure Represents {C : Type} (lib : LibCurl C) (s : State C) (v : Transfers) : Prop where
  keeps : Keeps (lib.handles s.curl).easy s.easy v.transfer
  queue : (lib.handles s.curl).queue = v.queue
  multi : s.multi = v.multi
  got : s.got = v.got

section Keeping

variable {easies : ℕ → Option CurlEasy} {easy : ℕ → Option Easy} {transfer : ℕ → Option Transfer}
  {o h : ℕ} {u k : Option ℕ} {x : Option Easy}

theorem Keeps.free_iff (hkeeps : Keeps easies easy transfer) :
    easies h = none ↔ transfer h = none := by
  rw [hkeeps.handles, Option.map_eq_none_iff]

/-- An object gets a handle, or changes its own. -/
theorem Keeps.put (hkeeps : Keeps easies easy transfer)
    (hhandle : ∀ i w, easy o = some ⟨some i, w⟩ → i = h)
    (howner : ∀ t, transfer h = some t → t.owner = o) :
    Keeps (update easies h (some ⟨some o, k⟩)) (update easy o (some ⟨some h, u⟩))
      (update transfer h (some ⟨o, u, k⟩)) := by
  constructor
  · intro i
    rcases eq_or_ne i h with rfl | hne
    · rw [update_self, update_self, Option.map_some]
    · rw [update_of_ne hne, update_of_ne hne, hkeeps.handles]
  · intro p i w
    rcases eq_or_ne p o with rfl | hp
    · rw [update_self]
      rcases eq_or_ne i h with rfl | hi
      · simp
      · rw [update_of_ne hi]
        constructor
        · intro heq
          cases heq
          exact absurd rfl hi
        · intro hi'
          exact absurd (hhandle i w ((hkeeps.objects p i w).mpr hi')) hi
    · rw [update_of_ne hp]
      rcases eq_or_ne i h with rfl | hi
      · rw [hkeeps.objects, update_self]
        constructor
        · rintro ⟨j, hj⟩
          exact absurd (howner _ hj) hp
        · rintro ⟨j, hj⟩
          cases hj
          exact absurd rfl hp
      · rw [update_of_ne hi, hkeeps.objects]

/-- A handle goes, and its object keeps none. -/
theorem Keeps.vacate (hkeeps : Keeps easies easy transfer) (ho : easy o = some ⟨some h, u⟩)
    (hx : ∀ e ∈ x, e.handle = none) :
    Keeps (update easies h none) (update easy o x) (update transfer h none) := by
  obtain ⟨k, hk⟩ := (hkeeps.objects o h u).mp ho
  constructor
  · intro i
    rcases eq_or_ne i h with rfl | hne
    · rw [update_self, update_self, Option.map_none]
    · rw [update_of_ne hne, update_of_ne hne, hkeeps.handles]
  · intro p i w
    rcases eq_or_ne p o with rfl | hp
    · rw [update_self]
      constructor
      · intro heq
        cases hx _ heq
      · rintro ⟨j, hj⟩
        rcases eq_or_ne i h with rfl | hi
        · rw [update_self] at hj
          cases hj
        · rw [update_of_ne hi] at hj
          cases ho.symm.trans ((hkeeps.objects p i w).mpr ⟨j, hj⟩)
          exact absurd rfl hi
    · rw [update_of_ne hp, hkeeps.objects]
      rcases eq_or_ne i h with rfl | hi
      · rw [update_self, hk]
        constructor
        · rintro ⟨j, hj⟩
          cases hj
          exact absurd rfl hp
        · rintro ⟨j, hj⟩
          cases hj
      · rw [update_of_ne hi]

/-- An object without a handle comes or goes. -/
theorem Keeps.without (hkeeps : Keeps easies easy transfer)
    (ho : ∀ e ∈ easy o, e.handle = none) (hx : ∀ e ∈ x, e.handle = none) :
    Keeps easies (update easy o x) transfer := by
  refine ⟨hkeeps.handles, fun p i w => ?_⟩
  rw [← hkeeps.objects]
  rcases eq_or_ne p o with rfl | hp
  · rw [update_self]
    constructor
    · intro heq
      cases hx _ heq
    · intro heq
      cases ho _ heq
  · rw [update_of_ne hp]

end Keeping

/-- What a call needs of the objects: the ones that it makes are not there yet, the ones that
it works on are there, and a handle is copied or reset only where there is one. -/
def Allowed {C : Type} (s : State C) : Action → Prop
  | .construct o => s.easy o = none
  | .move o src => s.easy o = none ∧ s.easy src ≠ none
  | .copy o src => s.easy o = none ∧ ∃ easy ∈ s.easy src, easy.handle ≠ none
  | .destroy o => s.easy o ≠ none
  | .reset o => ∃ easy ∈ s.easy o, easy.handle ≠ none
  | .constructMulti m => s.multi m = none
  | .moveMulti m src => s.multi m = none ∧ s.multi src ≠ none
  | .destroyMulti m | .perform m | .getMsg m => s.multi m ≠ none
  | .addHandle m o _ | .removeHandle m o => s.multi m ≠ none ∧ s.easy o ≠ none

section Steps

variable {C : Type} {lib : LibCurl C} {s t : State C} {v w : Transfers} {a : Action}
  {o src h m : ℕ} {u k : Option ℕ} {c : C} {easy : Easy} {X : Handles}

theorem Represents.sole (hr : Represents lib s v) (ho : s.easy o = some ⟨some h, u⟩) :
    ∃ k, v.Sole o h ⟨o, u, k⟩ := by
  obtain ⟨k, hk⟩ := (hr.keeps.objects o h u).mp ho
  refine ⟨k, hk, fun i => ⟨fun hi => ?_, fun hi => ?_⟩⟩
  · obtain ⟨⟨o', u', k'⟩, ht, rfl⟩ := Option.map_eq_some_iff.mp hi
    cases ho.symm.trans ((hr.keeps.objects o' i u').mpr ⟨k', ht⟩)
    rfl
  · rw [hi, Transfers.owner, hk, Option.map_some]

theorem Represents.lacks (hr : Represents lib s v) (ho : ∀ e ∈ s.easy o, e.handle = none) :
    v.Lacks o := by
  intro h hh
  obtain ⟨⟨o', u', k'⟩, ht, rfl⟩ := Option.map_eq_some_iff.mp hh
  cases ho _ ((hr.keeps.objects o' h u').mpr ⟨k', ht⟩)

theorem Represents.cell (hr : Represents lib s v) {t : Transfer} (ht : v.transfer h = some t) :
    (lib.handles s.curl).easy h = some ⟨some t.owner, t.multi⟩ := by
  rw [hr.keeps.handles, ht, Option.map_some]

/-- The handle of an object is there. -/
theorem Represents.hasEasy (hr : Represents lib s v) (ho : s.easy o = some easy) :
    HasEasy lib s.curl easy.handle := by
  intro h hh
  obtain ⟨handle, u⟩ := easy
  obtain rfl : handle = some h := hh
  obtain ⟨k, hk⟩ := (hr.keeps.objects o h u).mp ho
  rw [hr.cell hk]
  exact Option.some_ne_none _

theorem Represents.hasMulti (hr : Represents lib s v) (hv : v.Sound) (hm : s.multi m = some k) :
    HasMulti lib s.curl k := by
  intro i hi
  obtain rfl := Option.mem_def.mp hi
  rw [hr.queue]
  exact hv.multiLive m i (hr.multi ▸ hm)

theorem Represents.of_handles (hX : lib.handles t.curl = X)
    (hkeeps : Keeps X.easy t.easy w.transfer) (hqueue : X.queue = w.queue)
    (hmulti : t.multi = w.multi) (hgot : t.got = w.got) : Represents lib t w := by
  subst hX
  exact ⟨hkeeps, hqueue, hmulti, hgot⟩

/-- A change of the transfer of an object, which keeps its handle. -/
theorem Represents.adjust (hr : Represents lib s v) (ho : s.easy o = some ⟨some h, u⟩)
    (w k : Option ℕ) :
    Keeps (update (lib.handles s.curl).easy h (some ⟨some o, k⟩))
      (update s.easy o (some ⟨some h, w⟩)) (update v.transfer h (some ⟨o, w, k⟩)) := by
  obtain ⟨j, hj⟩ := (hr.keeps.objects o h u).mp ho
  apply hr.keeps.put
  · intro i x hi
    cases ho.symm.trans hi
    rfl
  · intro t ht
    obtain rfl := Option.some.inj (hj.symm.trans ht)
    rfl

/-- An action has a result, and the transfers have one that goes with it. -/
def Matches (lib : LibCurl C) (s : State C) (v : Transfers) (a : Action) : Prop :=
  ∃ t w, next lib s a = some t ∧ Transfers.Spec v a w ∧ Represents lib t w

/-- A new handle gets an object. -/
theorem Represents.wrap (hr : Represents lib s v) {h p : Option ℕ} (ho : s.easy o = none)
    (hfree : ∀ i ∈ h, (lib.handles s.curl).easy i = none)
    (hnew : lib.handles c = (lib.handles s.curl).new p h) :
    ∃ t, wrap lib { s with curl := c } o h = some t ∧ Represents lib t (v.begun o h) := by
  cases h with
  | none =>
    refine ⟨_, if_pos ?_, .of_handles ((lib.handles_setPrivate_null c o).trans hnew)
      (hr.keeps.without ?_ ?_) hr.queue hr.multi hr.got⟩
    · intro i hi
      cases hi
    · simp [ho]
    · simp
  | some h =>
    have hfree : (lib.handles s.curl).easy h = none := hfree h rfl
    have hcell : (lib.handles c).easy h = some ⟨p, none⟩ := by
      rw [hnew]
      exact update_self ..
    have hset : lib.handles (lib.setPrivate c (some h) o) =
        (lib.handles s.curl).setEasy h (some ⟨some o, none⟩) := by
      rw [lib.handles_setPrivate o hcell, hnew]
      simp only [Handles.new, Handles.setEasy, update_idem]
    refine ⟨_, if_pos ?_, .of_handles hset (hr.keeps.put ?_ ?_) hr.queue hr.multi hr.got⟩
    · intro i hi
      obtain rfl := Option.some.inj hi
      rw [hcell]
      exact Option.some_ne_none _
    · simp [ho]
    · simp [hr.keeps.free_iff.mp hfree]

theorem Represents.construct (hr : Represents lib s v) (ha : Allowed s (.construct o)) :
    Matches lib s v (.construct o) := by
  have ho : s.easy o = none := ha
  obtain ⟨hfree, hnew⟩ := lib.handles_easyInit s.curl
  obtain ⟨t, hwrap, ht⟩ := hr.wrap ho hfree hnew
  refine ⟨t, _, ?_, ⟨(lib.easyInit s.curl).2, fun i hi => ?_, rfl⟩, ht⟩
  · rw [next, if_pos ho]
    exact hwrap
  · exact hr.keeps.free_iff.mp (hfree i hi)

theorem Represents.copy (hr : Represents lib s v) (ha : Allowed s (.copy o src)) :
    Matches lib s v (.copy o src) := by
  obtain ⟨ho, ⟨handle, u⟩, hsrc, hhandle⟩ := ha
  obtain ⟨h, rfl⟩ := Option.ne_none_iff_exists'.mp hhandle
  obtain ⟨k, hsole⟩ := hr.sole hsrc
  obtain ⟨hfree, hnew⟩ := lib.handles_easyDuphandle (hr.cell hsole.1)
  obtain ⟨t, hwrap, ht⟩ := hr.wrap ho hfree hnew
  refine ⟨t, _, ?_, ⟨(lib.easyDuphandle s.curl h).2, fun i hi => ?_, rfl⟩, ht⟩
  · rw [next, if_pos ho, hsrc]
    exact (if_pos (hr.hasEasy hsrc)).trans hwrap
  · exact hr.keeps.free_iff.mp (hfree i hi)

theorem Represents.move (hr : Represents lib s v) (ha : Allowed s (.move o src)) :
    Matches lib s v (.move o src) := by
  obtain ⟨ho, hsrc⟩ := ha
  obtain ⟨⟨handle, u⟩, hsrc⟩ := Option.ne_none_iff_exists'.mp hsrc
  have hne : o ≠ src := by
    intro heq
    rw [heq, hsrc] at ho
    cases ho
  have hcall : next lib s (.move o src) = some { s with
      curl := lib.setPrivate s.curl handle o
      easy := update (update s.easy o (some ⟨handle, u⟩)) src (some ⟨none, none⟩) } := by
    rw [next, if_pos ho, hsrc]
    exact if_pos (hr.hasEasy hsrc)
  cases handle with
  | none =>
    refine ⟨_, v, hcall, ?_, .of_handles (lib.handles_setPrivate_null s.curl o) ?_ hr.queue
      hr.multi hr.got⟩
    · apply Eq.symm
      apply Transfers.Lacks.changed_eq
      apply hr.lacks
      simp [hsrc]
    · apply (hr.keeps.without _ _).without
      · simp [update_of_ne hne.symm, hsrc]
      · simp
      · simp [ho]
      · simp
  | some h =>
    obtain ⟨k, hsole⟩ := hr.sole hsrc
    refine ⟨_, { v with transfer := update v.transfer h (some ⟨o, u, k⟩) }, hcall, ?_,
      .of_handles (lib.handles_setPrivate o (hr.cell hsole.1)) ?_ hr.queue hr.multi hr.got⟩
    · exact (hsole.changed_eq (f := fun t => { t with owner := o })).symm
    · -- the source gives its handle up, and then the new object takes it
      have hgone := hr.keeps.vacate (x := some ⟨none, none⟩) hsrc (by simp)
      have hput := hgone.put (o := o) (h := h) (u := u) (k := k)
        (by simp [update_of_ne hne, ho]) (by simp)
      rw [update_idem, update_idem] at hput
      rwa [update_comm hne.symm] at hput

theorem Represents.destroy (hr : Represents lib s v) (hv : v.Sound) (ha : Allowed s (.destroy o)) :
    Matches lib s v (.destroy o) := by
  obtain ⟨⟨handle, u⟩, ho⟩ := Option.ne_none_iff_exists'.mp ha
  have hcall : next lib s (.destroy o) = some { s with
      curl := lib.easyCleanup s.curl handle
      easy := update s.easy o none } := by
    rw [next, ho]
    exact if_pos (hr.hasEasy ho)
  cases handle with
  | none =>
    refine ⟨_, v, hcall, ?_, .of_handles (lib.handles_easyCleanup_null s.curl) ?_ hr.queue
      hr.multi hr.got⟩
    · apply Eq.symm
      apply Transfers.Lacks.ended_eq
      apply hr.lacks
      simp [ho]
    · apply hr.keeps.without
      · simp [ho]
      · simp
  | some h =>
    obtain ⟨k, hsole⟩ := hr.sole ho
    have hkeeps : Keeps (update (lib.handles s.curl).easy h none) (update s.easy o none)
        (v.ended o).transfer := by
      rw [hsole.ended_transfer]
      exact hr.keeps.vacate ho (by simp)
    cases k with
    | none =>
      refine ⟨_, v.ended o, hcall, rfl, .of_handles
        (lib.handles_easyCleanup (hr.cell hsole.1) rfl) hkeeps ?_ hr.multi hr.got⟩
      rw [hsole.ended_queue hv]
      simpa [Handles.setEasy] using hr.queue
    | some i =>
      refine ⟨_, v.ended o, hcall, rfl, .of_handles
        (lib.handles_easyCleanup_added (hr.cell hsole.1) rfl) hkeeps ?_ hr.multi hr.got⟩
      rw [hsole.ended_queue hv, ← hr.queue]
      funext j
      rcases eq_or_ne j i with rfl | hne
      · simp [Handles.setEasy, Handles.forget, Handles.setQueue]
      · simp [Handles.setEasy, Handles.forget, Handles.setQueue, update_of_ne hne, hne.symm]

theorem Represents.reset (hr : Represents lib s v) (ha : Allowed s (.reset o)) :
    Matches lib s v (.reset o) := by
  obtain ⟨⟨handle, u⟩, ho, hhandle⟩ := ha
  obtain ⟨h, rfl⟩ := Option.ne_none_iff_exists'.mp hhandle
  obtain ⟨k, hsole⟩ := hr.sole ho
  have hreset := lib.handles_easyReset (hr.cell hsole.1)
  have hcell : (lib.handles (lib.easyReset s.curl h)).easy h = some ⟨none, k⟩ := by
    rw [hreset]
    exact update_self ..
  have hset : lib.handles (lib.setPrivate (lib.easyReset s.curl h) (some h) o) =
      (lib.handles s.curl).setEasy h (some ⟨some o, k⟩) := by
    rw [lib.handles_setPrivate o hcell, hreset]
    simp only [Handles.setEasy, update_idem]
  have hthere : HasEasy lib (lib.easyReset s.curl h) (some h) := by
    intro i hi
    obtain rfl := Option.some.inj hi
    rw [hcell]
    exact Option.some_ne_none _
  refine ⟨{ s with
      curl := lib.setPrivate (lib.easyReset s.curl h) (some h) o
      easy := update s.easy o (some ⟨some h, none⟩) },
    { v with transfer := update v.transfer h (some ⟨o, none, k⟩) }, ?_, ?_,
    .of_handles hset (hr.adjust ho none k) hr.queue hr.multi hr.got⟩
  · rw [next, ho]
    exact (if_pos (hr.hasEasy ho)).trans (if_pos hthere)
  · exact (hsole.changed_eq (f := fun t => { t with userdata := none })).symm

theorem Represents.constructMulti (hr : Represents lib s v) (ha : Allowed s (.constructMulti m)) :
    Matches lib s v (.constructMulti m) := by
  have hm : s.multi m = none := ha
  obtain ⟨hfree, hnew⟩ := lib.handles_multiInit s.curl
  refine ⟨{ s with
      curl := (lib.multiInit s.curl).1
      multi := update s.multi m (some (lib.multiInit s.curl).2) },
    v.opened m (lib.multiInit s.curl).2, ?_, ⟨(lib.multiInit s.curl).2, fun i hi => ?_, rfl⟩, ?_⟩
  · rw [next, if_pos hm]
  · rw [← hr.queue]
    exact hfree i hi
  · cases hk : (lib.multiInit s.curl).2 with
    | none =>
      rw [hk] at hnew
      exact .of_handles hnew hr.keeps hr.queue (by rw [hr.multi]; rfl) hr.got
    | some k =>
      rw [hk] at hnew
      refine .of_handles hnew hr.keeps ?_ (by rw [hr.multi]; rfl) hr.got
      rw [Handles.newMulti, Handles.setQueue, hr.queue]
      rfl

theorem Represents.moveMulti (hr : Represents lib s v) (ha : Allowed s (.moveMulti m src)) :
    Matches lib s v (.moveMulti m src) := by
  obtain ⟨hm, hsrc⟩ := ha
  obtain ⟨k, hsrc⟩ := Option.ne_none_iff_exists'.mp hsrc
  refine ⟨{ s with multi := update (update s.multi m (some k)) src (some none) }, _, ?_,
    ⟨k, hr.multi ▸ hsrc, rfl⟩, hr.keeps, hr.queue, ?_, hr.got⟩
  · rw [next, if_pos hm, hsrc]
    rfl
  · rw [hr.multi]

/-- The handles in a multi handle that is cleaned up are there as before. -/
theorem Keeps.closed (hkeeps : Keeps (lib.handles s.curl).easy s.easy v.transfer) (k : ℕ) :
    Keeps (fun h => ((lib.handles s.curl).easy h).map fun e =>
      if e.multi = some k then { e with multi := none } else e) s.easy
      (v.closed m (some k)).transfer := by
  constructor
  · intro h
    simp only [Transfers.closed, hkeeps.handles, Option.map_map]
    congr 1
    funext t
    by_cases hin : t.multi = some k
    · simp only [comp_apply, if_pos hin]
    · simp only [comp_apply, if_neg hin]
  · intro o h u
    apply (hkeeps.objects o h u).trans
    constructor
    · rintro ⟨j, hj⟩
      by_cases hin : j = some k
      · exact ⟨none, by simp only [Transfers.closed, hj, Option.map_some, if_pos hin]⟩
      · exact ⟨j, by simp only [Transfers.closed, hj, Option.map_some, if_neg hin]⟩
    · rintro ⟨j, hj⟩
      obtain ⟨t, ht, heq⟩ := Option.map_eq_some_iff.mp hj
      refine ⟨t.multi, ht.trans ?_⟩
      split at heq
      · cases heq
        rfl
      · rw [heq]

theorem Represents.destroyMulti (hr : Represents lib s v) (hv : v.Sound)
    (ha : Allowed s (.destroyMulti m)) : Matches lib s v (.destroyMulti m) := by
  obtain ⟨k, hm⟩ := Option.ne_none_iff_exists'.mp ha
  cases k with
  | none =>
    have hclosed : v.closed m none = { v with multi := update v.multi m none } := by
      simp only [Transfers.closed, Transfer.outside_eq, Option.map_id', reduceCtorEq, if_false]
    refine ⟨{ s with multi := update s.multi m none }, _, ?_, ⟨none, hr.multi ▸ hm, rfl⟩, ?_⟩
    · rw [next, hm]
      rfl
    · rw [hclosed]
      exact ⟨hr.keeps, hr.queue, by rw [hr.multi], hr.got⟩
  | some k =>
    have hthere := hr.hasMulti hv hm
    refine ⟨{ s with
        curl := lib.multiCleanup s.curl k
        multi := update s.multi m none }, _, ?_, ⟨some k, hr.multi ▸ hm, rfl⟩,
      .of_handles (lib.handles_multiCleanup (hthere k rfl)) (hr.keeps.closed k) ?_ ?_ hr.got⟩
    · rw [next, hm]
      exact if_pos hthere
    · funext i
      show update (lib.handles s.curl).queue k none i = if some i = some k then none else v.queue i
      rw [update_apply, hr.queue]
      simp only [Option.some.injEq]
    · rw [hr.multi]
      rfl

/-- The user data is kept for a call that has no effect on the handle as well. -/
theorem Represents.addHandle (hr : Represents lib s v) (hv : v.Sound)
    (ha : Allowed s (.addHandle m o u)) : Matches lib s v (.addHandle m o u) := by
  obtain ⟨hm, ho⟩ := ha
  obtain ⟨k, hm⟩ := Option.ne_none_iff_exists'.mp hm
  obtain ⟨⟨handle, u'⟩, ho⟩ := Option.ne_none_iff_exists'.mp ho
  have hcall : next lib s (.addHandle m o u) = some { s with
      easy := update s.easy o (some ⟨handle, u⟩)
      curl := lib.multiAddHandle s.curl k handle } := by
    rw [next, hm, ho]
    exact if_pos ⟨hr.hasMulti hv hm, hr.hasEasy ho⟩
  cases handle with
  | none =>
    refine ⟨_, v, hcall, ⟨k, hr.multi ▸ hm, ?_⟩,
      .of_handles (lib.handles_multiAddHandle_null (.inr rfl)) ?_ hr.queue hr.multi hr.got⟩
    · apply Eq.symm
      apply Transfers.Lacks.changed_eq
      apply hr.lacks
      simp [ho]
    · apply hr.keeps.without
      · simp [ho]
      · simp
  | some h =>
    obtain ⟨j, hsole⟩ := hr.sole ho
    have hcell := hr.cell hsole.1
    have hadd : lib.handles (lib.multiAddHandle s.curl k (some h)) =
        (lib.handles s.curl).setEasy h (some ⟨some o, j.or k⟩) := by
      cases k with
      | none =>
        rw [lib.handles_multiAddHandle_null (.inl rfl), Option.or_none, ← hcell,
          Handles.setEasy, update_eq_self]
      | some k => exact lib.handles_multiAddHandle hcell (hr.hasMulti hv hm k rfl)
    refine ⟨_, { v with transfer := update v.transfer h (some ⟨o, u, j.or k⟩) }, hcall,
      ⟨k, hr.multi ▸ hm, ?_⟩,
      .of_handles hadd (hr.adjust ho u (j.or k)) hr.queue hr.multi hr.got⟩
    exact (hsole.changed_eq (f := fun t => { t with userdata := u, multi := t.multi.or k })).symm

theorem Represents.removeHandle (hr : Represents lib s v) (hv : v.Sound)
    (ha : Allowed s (.removeHandle m o)) : Matches lib s v (.removeHandle m o) := by
  obtain ⟨hm, ho⟩ := ha
  obtain ⟨k, hm⟩ := Option.ne_none_iff_exists'.mp hm
  obtain ⟨⟨handle, u⟩, ho⟩ := Option.ne_none_iff_exists'.mp ho
  have hcall : next lib s (.removeHandle m o) =
      some { s with curl := lib.multiRemoveHandle s.curl k handle } := by
    rw [next, hm, ho]
    exact if_pos ⟨hr.hasMulti hv hm, hr.hasEasy ho⟩
  have hsame (hremoved : v.removed o k = v)
      (hremove : lib.handles (lib.multiRemoveHandle s.curl k handle) = lib.handles s.curl) :
      Matches lib s v (.removeHandle m o) :=
    ⟨_, v, hcall, ⟨k, hr.multi ▸ hm, hremoved.symm⟩,
      .of_handles hremove hr.keeps hr.queue hr.multi hr.got⟩
  cases handle with
  | none =>
    apply hsame
    · apply Transfers.Lacks.removed_eq
      apply hr.lacks
      simp [ho]
    · exact lib.handles_multiRemoveHandle_null (.inr rfl)
  | some h =>
    obtain ⟨j, hsole⟩ := hr.sole ho
    have hcell := hr.cell hsole.1
    cases k with
    | none =>
      exact hsame Transfers.removed_none (lib.handles_multiRemoveHandle_null (.inl rfl))
    | some i =>
      by_cases hj : j = some i
      · obtain ⟨queue, hqueue⟩ := Option.ne_none_iff_exists'.mp (hv.live h _ i hsole.1 hj)
        refine ⟨_, _, hcall, ⟨some i, hr.multi ▸ hm, (hsole.removed_eq hj hqueue).symm⟩,
          .of_handles (lib.handles_multiRemoveHandle hcell hj) ?_ ?_ hr.multi hr.got⟩
        · have hadjust := hr.adjust ho u none
          have heasy : update s.easy o (some ⟨some h, u⟩) = s.easy := by
            rw [← ho, update_eq_self]
          rwa [heasy] at hadjust
        · rw [Handles.forget, hr.queue, hqueue]
          simp only [Handles.setEasy, Handles.setQueue, hr.queue, Option.map_some]
      · apply hsame (hsole.removed_eq_self hv hj)
        exact lib.handles_multiRemoveHandle_other hcell (hr.hasMulti hv hm i rfl) hj

theorem Represents.perform (hr : Represents lib s v) (hv : v.Sound) (ha : Allowed s (.perform m)) :
    Matches lib s v (.perform m) := by
  obtain ⟨k, hm⟩ := Option.ne_none_iff_exists'.mp ha
  have hcall : next lib s (.perform m) = some { s with curl := lib.multiPerform s.curl k } := by
    rw [next, hm]
    exact if_pos (hr.hasMulti hv hm)
  cases k with
  | none =>
    exact ⟨_, v, hcall, .inl ⟨hr.multi ▸ hm, rfl⟩,
      .of_handles (lib.handles_multiPerform_null s.curl) hr.keeps hr.queue hr.multi hr.got⟩
  | some k =>
    obtain ⟨queue, hqueue⟩ := Option.ne_none_iff_exists'.mp (hr.hasMulti hv hm k rfl)
    obtain ⟨msgs, hmsgs, hperform⟩ := lib.handles_multiPerform hqueue
    refine ⟨_, _, hcall, .inr ⟨k, queue, msgs, hr.multi ▸ hm, hr.queue ▸ hqueue, ?_, rfl⟩,
      .of_handles hperform hr.keeps ?_ hr.multi hr.got⟩
    · intro msg hmsg
      obtain ⟨e, he, hk⟩ := hmsgs msg hmsg
      obtain ⟨t, ht, rfl⟩ := Option.map_eq_some_iff.mp ((hr.keeps.handles _).symm.trans he)
      exact ⟨t, ht, hk⟩
    · rw [Handles.setQueue, hr.queue]

/-- The option of the handle and the table of the objects lead to the transfer. -/
theorem Keeps.getRefFrom (hkeeps : Keeps (lib.handles s.curl).easy s.easy v.transfer)
    {t : Transfer} (ht : v.transfer h = some t) :
    getRefFrom lib s h = some t.owner ∧ s.easy t.owner = some ⟨some h, t.userdata⟩ := by
  refine ⟨?_, (hkeeps.objects t.owner h t.userdata).mpr ⟨t.multi, ht⟩⟩
  rw [Multi.getRefFrom, hkeeps.handles, ht]
  rfl

theorem hasMulti_of_queue {k : ℕ} {queue : List CurlMsg}
    (hqueue : (lib.handles c).queue k = some queue) : HasMulti lib c (some k) := by
  intro i hi
  obtain rfl := Option.some.inj hi
  rw [hqueue]
  exact Option.some_ne_none _

/-- The loop passes the messages of transfers that go on, and tells the first of the others. -/
theorem getMsg_told {k n : ℕ} {queue rest : List CurlMsg} {got : Got}
    (hkeeps : Keeps (lib.handles s.curl).easy s.easy v.transfer)
    (hqueue : (lib.handles s.curl).queue k = some queue)
    (htold : v.told m queue = some (got, rest)) (hn : queue.length < n) :
    ∃ c, getMsg lib m (some k) n s = some ({ s with curl := c }, got) ∧
      lib.handles c = (lib.handles s.curl).setQueue k (some rest) := by
  induction queue generalizing s n with
  | nil =>
    obtain ⟨n, rfl⟩ : ∃ i, n = i + 1 := ⟨n - 1, by omega⟩
    obtain ⟨hanswer, hsame⟩ := lib.handles_multiInfoRead_nil hqueue
    obtain ⟨rfl, rfl⟩ := Prod.mk.inj (Option.some.inj htold)
    rw [getMsg, if_pos (hasMulti_of_queue hqueue)]
    cases hread : lib.multiInfoRead s.curl (some k) with
    | mk c r =>
      rw [hread] at hanswer hsame
      obtain rfl := hanswer
      refine ⟨c, rfl, hsame.trans ?_⟩
      rw [Handles.setQueue, ← hqueue, update_eq_self]
  | cons msg queue ih =>
    obtain ⟨n, rfl⟩ : ∃ i, n = i + 1 := ⟨n - 1, by omega⟩
    obtain ⟨hanswer, hset⟩ := lib.handles_multiInfoRead hqueue
    rw [getMsg, if_pos (hasMulti_of_queue hqueue)]
    cases hread : lib.multiInfoRead s.curl (some k) with
    | mk c r =>
      rw [hread] at hanswer hset
      obtain rfl := hanswer
      dsimp only at hset ⊢
      have hkeeps' : Keeps (lib.handles c).easy s.easy v.transfer := by
        rw [hset]
        exact hkeeps
      cases hdone : msg.done with
      | false =>
        have hqueue' : (lib.handles c).queue k = some queue := by
          rw [hset]
          exact update_self ..
        rw [Transfers.told, List.dropWhile_cons_of_pos (by simp [hdone])] at htold
        obtain ⟨c', hrun, hc'⟩ := ih (s := { s with curl := c }) (n := n) hkeeps' hqueue' htold
          (Nat.lt_of_succ_lt_succ hn)
        refine ⟨c', hrun, hc'.trans ?_⟩
        rw [hset]
        simp only [Handles.setQueue, update_idem]
      | true =>
        rw [Transfers.told, List.dropWhile_cons_of_neg (by simp [hdone])] at htold
        obtain ⟨t, ht, heq⟩ := Option.map_eq_some_iff.mp htold
        obtain ⟨rfl, rfl⟩ := Prod.mk.inj heq
        obtain ⟨href, heasy⟩ := Keeps.getRefFrom (s := { s with curl := c }) hkeeps' ht
        refine ⟨c, ?_, hset⟩
        rw [Bool.not_true, if_neg Bool.false_ne_true, href]
        show ((s.easy t.owner).bind _) = _
        rw [heasy]
        rfl

theorem Represents.getMsg (hr : Represents lib s v) (hv : v.Sound) (ha : Allowed s (.getMsg m)) :
    Matches lib s v (.getMsg m) := by
  obtain ⟨k, hm⟩ := Option.ne_none_iff_exists'.mp ha
  cases k with
  | none =>
    obtain ⟨hanswer, hsame⟩ := lib.handles_multiInfoRead_null s.curl
    refine ⟨{ s with
        curl := (lib.multiInfoRead s.curl none).1
        got := s.got ++ [(none, 0)] }, _, ?_, .inl ⟨hr.multi ▸ hm, rfl⟩,
      .of_handles hsame hr.keeps hr.queue hr.multi ?_⟩
    · rw [next, hm]
      show ((Multi.getMsg lib m none (0 + 1) s).bind _) = _
      rw [Multi.getMsg, if_pos (hr.hasMulti hv hm)]
      cases hread : lib.multiInfoRead s.curl none with
      | mk c r =>
        rw [hread] at hanswer
        obtain rfl := hanswer
        rfl
    · rw [hr.got]
  | some k =>
    obtain ⟨queue, hqueue⟩ := Option.ne_none_iff_exists'.mp (hr.hasMulti hv hm k rfl)
    have hqueue' : v.queue k = some queue := hr.queue ▸ hqueue
    obtain ⟨⟨got, rest⟩, htold⟩ := hv.told_some m hqueue'
    have hturns : queue.length < turns lib s (some k) := by
      rw [turns, Option.bind_some, hqueue]
      exact Nat.lt_succ_self _
    obtain ⟨c, hget, hc⟩ := getMsg_told hr.keeps hqueue htold hturns
    refine ⟨{ s with
        curl := c
        got := s.got ++ [got] }, _, ?_,
      .inr ⟨k, queue, got, rest, hr.multi ▸ hm, hqueue', htold, rfl⟩,
      .of_handles hc hr.keeps ?_ hr.multi ?_⟩
    · rw [next, hm]
      show ((Multi.getMsg lib m (some k) (turns lib s (some k)) s).bind _) = _
      rw [hget]
      rfl
    · rw [Handles.setQueue, hr.queue]
    · rw [hr.got]

/-- Every action that is allowed has a result, which the transfers match. -/
theorem Represents.step (hr : Represents lib s v) (hv : v.Sound) (ha : Allowed s a) :
    Matches lib s v a := by
  cases a with
  | construct o => exact hr.construct ha
  | move o src => exact hr.move ha
  | copy o src => exact hr.copy ha
  | destroy o => exact hr.destroy hv ha
  | reset o => exact hr.reset ha
  | constructMulti m => exact hr.constructMulti ha
  | moveMulti m src => exact hr.moveMulti ha
  | destroyMulti m => exact hr.destroyMulti hv ha
  | addHandle m o userdata => exact hr.addHandle hv ha
  | removeHandle m o => exact hr.removeHandle hv ha
  | perform m => exact hr.perform hv ha
  | getMsg m => exact hr.getMsg hv ha

/-- And no other action has one. -/
theorem allowed_of_next (hnext : next lib s a = some t) : Allowed s a := by
  have hbound {α β : Type} {x : Option α} {f : α → Option β} {b : β} (hb : x.bind f = some b) :
      x ≠ none := by
    intro heq
    rw [heq] at hb
    cases hb
  cases a with
  | construct o | constructMulti m => exact (Option.ite_none_right_eq_some.mp hnext).1
  | move o src | moveMulti m src =>
    obtain ⟨ho, hnext⟩ := Option.ite_none_right_eq_some.mp hnext
    exact ⟨ho, hbound hnext⟩
  | copy o src =>
    obtain ⟨ho, hnext⟩ := Option.ite_none_right_eq_some.mp hnext
    obtain ⟨easy, hsrc, hnext⟩ := Option.bind_eq_some_iff.mp hnext
    exact ⟨ho, easy, hsrc, hbound hnext⟩
  | destroy o | destroyMulti m | perform m | getMsg m => exact hbound hnext
  | reset o =>
    obtain ⟨easy, ho, hnext⟩ := Option.bind_eq_some_iff.mp hnext
    exact ⟨easy, ho, hbound hnext⟩
  | addHandle m o userdata | removeHandle m o =>
    obtain ⟨k, hm, hnext⟩ := Option.bind_eq_some_iff.mp hnext
    exact ⟨Option.ne_none_iff_exists'.mpr ⟨k, hm⟩, hbound hnext⟩

theorem Represents.init : Represents lib (Multi.init lib) Transfers.init := by
  apply Represents.of_handles lib.handles_init _ rfl rfl rfl
  exact ⟨fun _ => rfl, by simp [Multi.init, Transfers.init]⟩

end Steps

section Runs

variable {C : Type} {lib : LibCurl C} {as : List Action} {s : State C}

theorem run_represents (hrun : run (next lib) (init lib) as = some s) :
    ∃ v, Reaches Transfers.Spec Transfers.init as v ∧ Represents lib s v ∧ v.Sound := by
  apply run_simulated (R := fun s v => Represents lib s v ∧ v.Sound) _
    ⟨Represents.init, Transfers.Sound.init⟩ hrun
  rintro s v a t ⟨hr, hv⟩ hnext
  obtain ⟨t', w, hnext', hspec, hw⟩ := hr.step hv (allowed_of_next hnext)
  obtain rfl := Option.some.inj (hnext.symm.trans hnext')
  exact ⟨w, hspec, hw, hspec.sound hv⟩

/-- Whatever the objects go through, in any order, the messages that the program is told are
those of its transfers. -/
theorem run_transfers (hrun : run (next lib) (init lib) as = some s) :
    ∃ v, Reaches Transfers.Spec Transfers.init as v ∧ Represents lib s v := by
  obtain ⟨v, hreach, hr, -⟩ := run_represents hrun
  exact ⟨v, hreach, hr⟩

/-- A transfer that was moved while it was in a multi handle is told with its new object. -/
theorem run_transfers_moved :
    ∃ s v, s.got = [(some ⟨0, 2, some 7, 0⟩, 0)] ∧
      Reaches Transfers.Spec Transfers.init [.constructMulti 0, .construct 1,
        .addHandle 0 1 (some 7), .move 2 1, .destroy 1, .perform 0, .getMsg 0] v ∧
      Represents LibCurl.plain s v := by
  have hrun : run (next LibCurl.plain) (init LibCurl.plain) [.constructMulti 0, .construct 1,
      .addHandle 0 1 (some 7), .move 2 1, .destroy 1, .perform 0, .getMsg 0] = some _ := rfl
  obtain ⟨v, hv⟩ := run_transfers hrun
  exact ⟨_, v, rfl, hv⟩

/-- After any run, a call has a result as soon as the objects that it works on are there: none
meets a handle, a queue or an object that is gone, and `get_msg` never throws. -/
theorem next_iff_allowed (hrun : run (next lib) (init lib) as = some s) (a : Action) :
    next lib s a ≠ none ↔ Allowed s a := by
  constructor
  · intro hne
    obtain ⟨t, ht⟩ := Option.ne_none_iff_exists'.mp hne
    exact allowed_of_next ht
  · intro ha
    obtain ⟨v, -, hr, hv⟩ := run_represents hrun
    obtain ⟨t, w, ht, -⟩ := hr.step hv ha
    rw [ht]
    exact Option.some_ne_none t

theorem next_iff_allowed_getMsg :
    ∃ s, run (next LibCurl.plain) (init LibCurl.plain) [.constructMulti 0, .construct 1,
        .addHandle 0 1 none, .perform 0, .move 2 1] = some s ∧
      (next LibCurl.plain s (.getMsg 0) ≠ none ↔ Allowed s (.getMsg 0)) := by
  have hrun : run (next LibCurl.plain) (init LibCurl.plain) [.constructMulti 0, .construct 1,
      .addHandle 0 1 none, .perform 0, .move 2 1] = some _ := rfl
  exact ⟨_, hrun, next_iff_allowed hrun (.getMsg 0)⟩

end Runs

section Draining

variable {C : Type} {lib : LibCurl C} {as : List Action} {s : State C} {v : Transfers} {m k n : ℕ}
  {queue : List CurlMsg}

/-- A message tells of a transfer that has finished, with the object that has its handle. -/
def TellsOf (s : State C) (m : ℕ) (cmsg : CurlMsg) (msg : MultiMsg) : Prop :=
  msg.multi = m ∧ msg.code = cmsg.result ∧
    s.easy msg.easy = some ⟨some cmsg.easyHandle, msg.userdata⟩

theorem filter_done (queue : List CurlMsg) :
    queue.filter (·.done) = (queue.dropWhile (!·.done)).filter (·.done) := by
  induction queue with
  | nil => rfl
  | cons msg queue ih =>
    cases hdone : msg.done with
    | false =>
      rw [List.dropWhile_cons_of_pos (by simp [hdone]), List.filter_cons_of_neg (by simp [hdone]),
        ih]
    | true => rw [List.dropWhile_cons_of_neg (by simp [hdone])]

/-- Each round tells the first of the finished transfers, until there is none. -/
theorem forMsg_drains (hkeeps : Keeps (lib.handles s.curl).easy s.easy v.transfer)
    (hm : s.multi m = some (some k)) (hqueue : (lib.handles s.curl).queue k = some queue)
    (hall : ∀ msg ∈ queue, ∃ t, v.transfer msg.easyHandle = some t) (hn : queue.length < n) :
    ∃ c msgs, forMsg lib m n s = some ({ s with curl := c }, msgs) ∧
      (lib.handles c).queue k = some [] ∧
      List.Forall₂ (TellsOf s m) (queue.filter (·.done)) msgs := by
  induction n generalizing s queue with
  | zero => omega
  | succ n ih =>
    have hturns : queue.length < turns lib s (some k) := by
      rw [turns, Option.bind_some, hqueue]
      exact Nat.lt_succ_self _
    have hsuffix := List.dropWhile_suffix (fun msg : CurlMsg => !msg.done) (l := queue)
    rw [filter_done, forMsg, hm, Option.bind_eq_bind, Option.bind_some]
    cases hdrop : queue.dropWhile (!·.done) with
    | nil =>
      have htold : v.told m queue = some ((none, 0), []) := by
        rw [Transfers.told, hdrop]
      obtain ⟨c, hget, hc⟩ := getMsg_told hkeeps hqueue htold hturns
      refine ⟨c, [], ?_, ?_, List.Forall₂.nil⟩
      · rw [hget]
        rfl
      · rw [hc]
        exact update_self ..
    | cons msg rest =>
      rw [hdrop] at hsuffix
      obtain ⟨t, ht⟩ := hall msg (hsuffix.subset List.mem_cons_self)
      have htold : v.told m queue =
          some ((some ⟨m, t.owner, t.userdata, msg.result⟩, rest.length), rest) := by
        rw [Transfers.told, hdrop]
        dsimp only
        rw [ht, Option.map_some]
      have hdone : msg.done = true := by
        have hhead := List.head?_dropWhile_not (fun msg : CurlMsg => !msg.done) queue
        rw [hdrop] at hhead
        simpa using hhead
      obtain ⟨c, hget, hc⟩ := getMsg_told hkeeps hqueue htold hturns
      have hkeeps' : Keeps (lib.handles c).easy s.easy v.transfer := by
        rw [hc]
        exact hkeeps
      have hrest : (lib.handles c).queue k = some rest := by
        rw [hc]
        exact update_self ..
      have hless : rest.length < n := by
        have hle := hsuffix.length_le
        rw [List.length_cons] at hle
        omega
      obtain ⟨c', msgs, hloop, hempty, htells⟩ := ih (s := { s with curl := c }) hkeeps' hm hrest
        (fun msg hmsg => hall msg (hsuffix.subset (List.mem_cons_of_mem _ hmsg))) hless
      refine ⟨c', ⟨m, t.owner, t.userdata, msg.result⟩ :: msgs, ?_, hempty, ?_⟩
      · rw [hget]
        show ((forMsg lib m n { s with curl := c }).bind _) = _
        rw [hloop]
        rfl
      · rw [List.filter_cons_of_pos hdone]
        refine List.Forall₂.cons ⟨rfl, rfl, ?_⟩ htells
        exact (hkeeps.objects t.owner msg.easyHandle t.userdata).mpr ⟨t.multi, ht⟩

/-- After any run, `for_msg` comes to its end, is called once with each transfer in the queue
that has finished, in order, and leaves the queue empty. -/
theorem forMsg_tells_each (hrun : run (next lib) (init lib) as = some s)
    (hm : s.multi m = some (some k)) :
    ∃ queue, (lib.handles s.curl).queue k = some queue ∧ ∀ n, queue.length < n →
      ∃ c msgs, forMsg lib m n s = some ({ s with curl := c }, msgs) ∧
        (lib.handles c).queue k = some [] ∧
        List.Forall₂ (TellsOf s m) (queue.filter (·.done)) msgs := by
  obtain ⟨v, -, hr, hv⟩ := run_represents hrun
  obtain ⟨queue, hqueue⟩ := Option.ne_none_iff_exists'.mp (hr.hasMulti hv hm k rfl)
  refine ⟨queue, hqueue, fun n hn => forMsg_drains hr.keeps hm hqueue (fun msg hmsg => ?_) hn⟩
  obtain ⟨t, ht, -⟩ := hv.queued k queue (hr.queue ▸ hqueue) msg hmsg
  exact ⟨t, ht⟩

theorem forMsg_tells_each_two :
    ∃ s k, s.multi 0 = some (some k) ∧
      ∃ queue, (LibCurl.plain.handles s.curl).queue k = some queue ∧ queue.length = 2 ∧
        ∀ n, 2 < n → ∃ c msgs, forMsg LibCurl.plain 0 n s = some ({ s with curl := c }, msgs) ∧
          List.Forall₂ (TellsOf s 0) (queue.filter (·.done)) msgs := by
  have hrun : run (next LibCurl.plain) (init LibCurl.plain) [.constructMulti 0, .construct 1,
      .construct 2, .addHandle 0 1 (some 7), .addHandle 0 2 none, .perform 0] = some _ := rfl
  obtain ⟨queue, hqueue, htells⟩ := forMsg_tells_each hrun (m := 0) (k := 0) rfl
  have hlength : queue.length = 2 := by
    obtain rfl := Option.some.inj hqueue
    rfl
  refine ⟨_, 0, rfl, queue, hqueue, hlength, fun n hn => ?_⟩
  obtain ⟨c, msgs, hloop, -, hmsgs⟩ := htells n (by omega)
  exact ⟨c, msgs, hloop, hmsgs⟩

end Draining

end BoxUtils.Multi
