import BoxUtils.RefData

/-!
The counts of `RefData` over all sequences of operations. As for the counted
pointer the invariant speaks of a set of handles. Assignment may use `reset()`
on a shared block, since it overwrites the pointer right away; called on its own
there, `reset()` leaves a pointer behind that the count no longer includes.
-/
namespace BoxUtils.RefData

open Runs Counting

variable {T : Type*}

/-- The count stored in each block. -/
def State.count (s : State T) : ℕ → Option ℤ := fun b => (s.blocks.cell b).map Data.refcount

theorem count_put {s : State T} {b : ℕ} {d : Data T} (hd : s.blocks.cell b = some d)
    (d' : Data T) :
    (fun c => ((s.blocks.put b d').cell c).map Data.refcount) =
      Function.update s.count b (some d'.refcount) := by
  funext c
  rw [Heap.cell_put hd]
  by_cases hcb : c = b
  · subst c
    simp
  · simp [State.count, hcb]

/-- The invariant behind the counts, for the handles in S. -/
structure Owned [DecidableEq T] (S : Finset ℕ) (s : State T) : Prop where
  exact : Exact S s.ptr s.count
  unique : ∀ e ∈ s.stored, ∀ e' ∈ s.stored, e.block = e'.block → e = e'
  used : ∀ e ∈ s.stored, e.block < s.blocks.fresh
  kept : ∀ b d, s.blocks.cell b = some d →
    ⟨b, d.deleteFn, d.data⟩ ∈ s.stored ∧ ⟨b, d.deleteFn, d.data⟩ ∉ s.calls
  gone : ∀ e ∈ s.stored, s.blocks.cell e.block = none → s.calls.count e = 1
  known : ∀ e ∈ s.calls, e ∈ s.stored

variable [DecidableEq T]

theorem owned_init : Owned ∅ (init : State T) where
  exact b := by simp [State.count, init, Heap.empty]
  unique e he := by simp [init] at he
  used e he := by simp [init] at he
  kept b d hd := by simp [init, Heap.empty] at hd
  gone e he := by simp [init] at he
  known e he := by simp [init] at he

section Handles

variable {S : Finset ℕ} {s : State T} {h src b : ℕ} {d : Data T}

theorem Owned.cell_ptr (w : Owned S s) (hh : h ∈ S) (hb : s.ptr h = some b) :
    ∃ d, s.blocks.cell b = some d ∧ d.refcount = refs S s.ptr b :=
  Option.map_eq_some_iff.mp (w.exact.cell_of_ref hh hb)

theorem Owned.setLive (w : Owned S s) (L : Finset ℕ) : Owned S { s with live := L } :=
  ⟨w.exact, w.unique, w.used, w.kept, w.gone, w.known⟩

theorem Owned.setPtr {S' : Finset ℕ} (w : Owned S s) {x : Option ℕ}
    (hexact : Exact S' (Function.update s.ptr h x) s.count) : Owned S' (s.setPtr h x) :=
  ⟨hexact, w.unique, w.used, w.kept, w.gone, w.known⟩

theorem Owned.erase_null (w : Owned S s) (hh : h ∈ S) (hnull : s.ptr h = none) :
    Owned (S.erase h) s :=
  ⟨w.exact.erase_null hh hnull, w.unique, w.used, w.kept, w.gone, w.known⟩

theorem Owned.insert_null (w : Owned S s) (hh : h ∉ S) : Owned (insert h S) (s.setPtr h none) :=
  w.setPtr (w.exact.insert_null hh)

/-- A handle that was taken out may be redirected before it comes back. -/
theorem Owned.redirect (w : Owned S s) (hh : h ∉ S) (x : Option ℕ) : Owned S (s.setPtr h x) :=
  w.setPtr <| w.exact.congr (fun v hv => by
    have hvh : v ≠ h := by
      intro heq
      subst heq
      exact hh hv
    rw [Function.update_of_ne hvh]) fun _ => rfl

theorem Owned.insert_moved (w : Owned S s) (hh : h ∉ S) (hsrc : src ∈ S) :
    Owned (insert h S) ((s.setPtr h (s.ptr src)).setPtr src none) :=
  ⟨w.exact.insert_moved hh hsrc, w.unique, w.used, w.kept, w.gone, w.known⟩

/-- Changing the count of a live block leaves its datum alone. -/
theorem Owned.putCount {S' : Finset ℕ} {ptr : ℕ → Option ℕ} (w : Owned S s)
    (hd : s.blocks.cell b = some d) {k : ℤ}
    (hexact : Exact S' ptr (Function.update s.count b (some k))) :
    Owned S' { s with ptr := ptr, blocks := s.blocks.put b { d with refcount := k } } := by
  refine ⟨?_, w.unique, w.used, fun c e hc => ?_, fun e he hnone => w.gone e he ?_, w.known⟩
  · rw [← count_put hd { d with refcount := k }] at hexact
    exact hexact
  · rw [Heap.cell_put hd] at hc
    by_cases hcb : c = b
    · subst c
      rw [Function.update_self] at hc
      obtain rfl := Option.some.inj hc
      exact w.kept b d hd
    · rw [Function.update_of_ne hcb] at hc
      exact w.kept c e hc
  · exact (Heap.cell_put_eq_none_iff hd _).mp hnone

/-- A handle joins those that refer to the block of another handle, if it has one. -/
theorem Owned.insert_shared (w : Owned S s) (hh : h ∉ S) (hsrc : src ∈ S) :
    ∃ t, (s.setPtr h (s.ptr src)).retain (s.ptr src) = some t ∧ t.live = s.live ∧
      Owned (insert h S) t := by
  cases hb : s.ptr src with
  | none => exact ⟨s.setPtr h none, rfl, rfl, w.insert_null hh⟩
  | some b =>
    obtain ⟨d, hd, hcount⟩ := w.cell_ptr hsrc hb
    have hcell : s.count b = some d.refcount := by simp [State.count, hd]
    have hd' : (s.setPtr h (some b)).blocks.cell b = some d := hd
    refine ⟨{ s.setPtr h (some b) with
      blocks := s.blocks.put b { d with refcount := d.refcount + 1 } }, ?_, rfl, ?_⟩
    · simp only [State.retain, Heap.modify_eq hd', bind, Option.bind]
      rfl
    · exact w.putCount hd (w.exact.insert_shared hh hcell)

/-- A handle gets a block of its own. -/
theorem Owned.insert_fresh (w : Owned S s) (hh : h ∉ S) (data : T) (fn : ℕ) :
    Owned (insert h S) (s.adopt h data fn) := by
  have hfresh : s.blocks.cell s.blocks.fresh = none := s.blocks.unused _ (Nat.le_refl _)
  have hcount : s.count s.blocks.fresh = none := by simp [State.count, hfresh]
  have hne : ∀ e ∈ s.stored, e.block ≠ s.blocks.fresh := fun e he => Nat.ne_of_lt (w.used e he)
  refine ⟨?_, fun e he e' he' heq => ?_, fun e he => ?_, fun c e hc => ?_, fun e he hnone => ?_,
    fun e he => List.mem_append_left _ (w.known e he)⟩
  · have hexact := w.exact.insert_fresh hh hcount
    refine hexact.congr (fun _ _ => rfl) fun c => ?_
    by_cases hc : c = s.blocks.fresh
    · subst c
      simp [State.count, State.adopt]
    · simp [State.count, State.adopt, Heap.cell_alloc_of_ne _ _ hc, hc]
  · rcases List.mem_append.mp he with he | he <;> rcases List.mem_append.mp he' with he' | he'
    · exact w.unique e he e' he' heq
    · obtain rfl := List.mem_singleton.mp he'
      exact absurd heq (hne e he)
    · obtain rfl := List.mem_singleton.mp he
      exact absurd heq.symm (hne e' he')
    · rw [List.mem_singleton.mp he, List.mem_singleton.mp he']
  · simp only [State.adopt, Heap.fresh_alloc]
    rcases List.mem_append.mp he with he | he
    · have := w.used e he
      omega
    · rw [List.mem_singleton.mp he]
      exact Nat.lt_succ_self _
  · by_cases hcf : c = s.blocks.fresh
    · subst c
      have hcell : (s.blocks.alloc ⟨data, fn, 1⟩).cell s.blocks.fresh = some e := hc
      rw [Heap.cell_alloc_self] at hcell
      obtain rfl := Option.some.inj hcell
      exact ⟨List.mem_append_right _ (List.mem_singleton_self _),
        fun hmem => hne _ (w.known _ hmem) rfl⟩
    · have hcell : (s.blocks.alloc ⟨data, fn, 1⟩).cell c = some e := hc
      rw [Heap.cell_alloc_of_ne _ _ hcf] at hcell
      exact ⟨List.mem_append_left _ (w.kept c e hcell).1, (w.kept c e hcell).2⟩
  · rcases List.mem_append.mp he with he | he
    · have hcell : (s.blocks.alloc ⟨data, fn, 1⟩).cell e.block = none := hnone
      rw [Heap.cell_alloc_of_ne _ _ (hne e he)] at hcell
      exact w.gone e he hcell
    · have hcell : (s.blocks.alloc ⟨data, fn, 1⟩).cell e.block = none := hnone
      rw [List.mem_singleton.mp he, Heap.cell_alloc_self] at hcell
      cases hcell

/-- Taking a handle off the count of its block. -/
theorem Owned.release (w : Owned S s) (hh : h ∈ S) (hb : s.ptr h = some b) :
    ∃ t last, s.release b = some (t, last) ∧ t.live = s.live ∧ t.ptr = s.ptr ∧
      (last = true ↔ refs S s.ptr b ≤ 1) ∧ Owned (S.erase h) t := by
  obtain ⟨d, hd, hcount⟩ := w.cell_ptr hh hb
  have hlt : b < s.blocks.fresh := Heap.lt_fresh hd
  by_cases hlast : refs S s.ptr b ≤ 1
  · obtain ⟨hstored, hcalls⟩ := w.kept b d hd
    refine ⟨{ s with blocks := s.blocks.erase b, calls := s.calls ++ [⟨b, d.deleteFn, d.data⟩] },
      true, ?_, rfl, rfl, by simp [hlast], ⟨?_, w.unique, w.used, fun c e hc => ?_,
        fun e he hnone => ?_, fun e he => ?_⟩⟩
    · exact State.release_last hd (by omega)
    · refine (w.exact.erase_last hh hb hlast).congr (fun _ _ => rfl) fun c => ?_
      by_cases hcb : c = b
      · subst c
        simp [State.count]
      · simp [State.count, Heap.cell_erase_of_ne _ hcb, hcb]
    · have hcb : c ≠ b := by
        intro heq
        subst heq
        simp at hc
      have hcell : s.blocks.cell c = some e := by
        rw [← Heap.cell_erase_of_ne s.blocks hcb]
        exact hc
      refine ⟨(w.kept c e hcell).1, fun hmem => ?_⟩
      rcases List.mem_append.mp hmem with hmem | hmem
      · exact (w.kept c e hcell).2 hmem
      · have hblock := congrArg Entry.block (List.mem_singleton.mp hmem)
        exact hcb hblock
    · rw [List.count_append, List.count_singleton]
      by_cases heb : e.block = b
      · obtain rfl : ⟨b, d.deleteFn, d.data⟩ = e := w.unique _ hstored e he heb.symm
        simp [List.count_eq_zero.mpr hcalls]
      · have hcell : s.blocks.cell e.block = none := by
          rw [← Heap.cell_erase_of_ne s.blocks heb]
          exact hnone
        have hne : (⟨b, d.deleteFn, d.data⟩ : Entry T) ≠ e := fun heq =>
          heb (congrArg Entry.block heq).symm
        simp [w.gone e he hcell, hne]
    · rcases List.mem_append.mp he with he | he
      · exact w.known e he
      · rw [List.mem_singleton.mp he]
        exact hstored
  · have hmore : 1 < refs S s.ptr b := Nat.lt_of_not_le hlast
    refine ⟨{ s with blocks := s.blocks.put b { d with refcount := d.refcount - 1 } },
      false, ?_, rfl, rfl, by simp [hlast], ?_⟩
    · exact State.release_shared hd (by omega)
    · have hexact := w.exact.erase_shared hh hb hmore
      rw [← hcount] at hexact
      exact w.putCount hd hexact

/-- After `reset()` the other handles are in order, whatever the handle points to. -/
theorem Owned.reset (w : Owned S s) (hh : h ∈ S) :
    ∃ t, s.reset h = some t ∧ t.live = s.live ∧ (∀ v, v ≠ h → t.ptr v = s.ptr v) ∧
      Owned (S.erase h) t ∧ ((∀ b, s.ptr h = some b → refs S s.ptr b ≤ 1) → t.ptr h = none) := by
  cases hb : s.ptr h with
  | none =>
    exact ⟨s, by simp [State.reset, hb], rfl, fun _ _ => rfl, w.erase_null hh hb, fun _ => hb⟩
  | some b =>
    obtain ⟨t, last, ht, hlive, hptr, hlast, hown⟩ := w.release hh hb
    refine ⟨if last then t.setPtr h none else t, by simp [State.reset, hb, ht], ?_, ?_, ?_, ?_⟩
    · cases last <;> exact hlive
    · intro v hv
      cases last <;> simp [State.setPtr, hptr, hv]
    · cases last
      · exact hown
      · exact hown.redirect (Finset.notMem_erase h S) none
    · intro halone
      have htrue : last = true := hlast.mpr (halone b rfl)
      simp [htrue, State.setPtr]

theorem Owned.restore_null (w : Owned (S.erase h) s) (hh : h ∈ S) (hnull : s.ptr h = none) :
    Owned S s := by
  have hnew := w.insert_null (Finset.notMem_erase h S)
  have hself : s.setPtr h none = s := by
    rw [State.setPtr, ← hnull, Function.update_eq_self]
  rwa [hself, Finset.insert_erase hh] at hnew

end Handles

section Operations

variable {s : State T} {h src : ℕ}

theorem Owned.copyAssign (w : Owned s.live s) (hh : h ∈ s.live) (hsrc : src ∈ s.live) :
    ∃ t, perform s (.copyAssign h src) = some t ∧ Owned t.live t := by
  by_cases heq : h = src
  · exact ⟨s, by simp [perform, heq], w⟩
  obtain ⟨m, hm, hlive, -, hown, -⟩ := w.reset hh
  have hsrc' : src ∈ s.live.erase h := Finset.mem_erase.mpr ⟨Ne.symm heq, hsrc⟩
  obtain ⟨t, ht, hlive', hown'⟩ := hown.insert_shared (Finset.notMem_erase h s.live) hsrc'
  refine ⟨t, by simp [perform, heq, hm, ht], ?_⟩
  rw [hlive', hlive]
  rwa [Finset.insert_erase hh] at hown'

theorem Owned.moveAssign (w : Owned s.live s) (hh : h ∈ s.live) (hsrc : src ∈ s.live) :
    ∃ t, perform s (.moveAssign h src) = some t ∧ Owned t.live t := by
  by_cases heq : h = src
  · exact ⟨s, by simp [perform, heq], w⟩
  obtain ⟨m, hm, hlive, -, hown, -⟩ := w.reset hh
  have hsrc' : src ∈ s.live.erase h := Finset.mem_erase.mpr ⟨Ne.symm heq, hsrc⟩
  have hmoved := hown.insert_moved (Finset.notMem_erase h s.live) hsrc'
  refine ⟨(m.setPtr h (m.ptr src)).setPtr src none, by simp [perform, heq, hm], ?_⟩
  change Owned m.live _
  rw [hlive]
  rwa [Finset.insert_erase hh] at hmoved

theorem Owned.resetValue (w : Owned s.live s) (hh : h ∈ s.live) (newVal : T) (fn : ℕ) :
    ∃ t, perform s (.resetValue h newVal (some fn)) = some t ∧ Owned t.live t := by
  cases hb : s.ptr h with
  | none =>
    refine ⟨s.adopt h newVal fn, by simp [perform, State.resetValue, hb], ?_⟩
    have hnew := (w.erase_null hh hb).insert_fresh (Finset.notMem_erase h s.live) newVal fn
    rwa [Finset.insert_erase hh] at hnew
  | some b =>
    obtain ⟨d, hd, -⟩ := w.cell_ptr hh hb
    obtain ⟨t, last, ht, hlive, -, -, hown⟩ := w.release hh hb
    refine ⟨(if last then t.setPtr h none else t).adopt h newVal fn,
      by simp [perform, State.resetValue, hb, hd, ht], ?_⟩
    have hkept : Owned (s.live.erase h) (if last then t.setPtr h none else t) := by
      cases last
      · exact hown
      · exact hown.redirect (Finset.notMem_erase h s.live) none
    have hnew := hkept.insert_fresh (Finset.notMem_erase h s.live) newVal fn
    rw [Finset.insert_erase hh] at hnew
    have hlive' : ((if last then t.setPtr h none else t).adopt h newVal fn).live = s.live := by
      cases last <;> exact hlive
    rwa [hlive']

theorem Owned.destroy (w : Owned s.live s) (hh : h ∈ s.live) :
    ∃ t, perform s (.destroy h) = some t ∧ Owned t.live t := by
  cases hb : s.ptr h with
  | none =>
    exact ⟨{ s with live := s.live.erase h }, by simp [perform, hb],
      (w.erase_null hh hb).setLive _⟩
  | some b =>
    obtain ⟨t, last, ht, hlive, -, -, hown⟩ := w.release hh hb
    refine ⟨{ t with live := t.live.erase h }, by simp [perform, hb, ht], ?_⟩
    rw [hlive]
    exact hown.setLive _

theorem step_owned {op : Op T} (w : Owned s.live s) (hlegal : Legal s op)
    (hG : ResetsAlone s op) : ∃ t, perform s op = some t ∧ Owned t.live t := by
  cases op with
  | make h data fn =>
    exact ⟨_, rfl, (w.setLive (insert h s.live)).insert_fresh hlegal data fn⟩
  | copyConstruct h src =>
    obtain ⟨hh, hsrc⟩ := hlegal
    obtain ⟨t, ht, hlive, hown⟩ := (w.setLive (insert h s.live)).insert_shared hh hsrc
    refine ⟨t, ht, ?_⟩
    rw [hlive]
    exact hown
  | moveConstruct h src =>
    obtain ⟨hh, hsrc⟩ := hlegal
    exact ⟨_, rfl, (w.setLive (insert h s.live)).insert_moved hh hsrc⟩
  | copyAssign h src => exact w.copyAssign hlegal.1 hlegal.2
  | moveAssign h src => exact w.moveAssign hlegal.1 hlegal.2
  | reset h =>
    obtain ⟨t, ht, hlive, -, hown, hnull⟩ := w.reset hlegal
    refine ⟨t, ht, ?_⟩
    rw [hlive]
    exact hown.restore_null hlegal (hnull hG)
  | resetValue h newVal fn =>
    obtain ⟨hh, hfn⟩ := hlegal
    cases fn with
    | none => exact absurd rfl hfn
    | some fn => exact w.resetValue hh newVal fn
  | destroy h => exact w.destroy hlegal

/-- On a shared block `reset()` lowers the count and leaves the pointer. -/
theorem reset_shared (w : Owned s.live s) (hlegal : Legal s (.reset h))
    (hG : ¬ ResetsAlone s (.reset h)) :
    ∃ t b d, perform s (.reset h) = some t ∧ t.blocks.cell b = some d ∧
      d.refcount ≠ refs t.live t.ptr b := by
  simp only [ResetsAlone, not_forall, Nat.not_le] at hG
  obtain ⟨b, hb, hmore⟩ := hG
  obtain ⟨d, hd, hcount⟩ := w.cell_ptr hlegal hb
  have hrelease := State.release_shared hd (by omega)
  refine ⟨{ s with blocks := s.blocks.put b { d with refcount := d.refcount - 1 } }, b,
    { d with refcount := d.refcount - 1 }, ?_, Heap.cell_put_self hd _, ?_⟩
  · simp [perform, State.reset, hb, hrelease]
  · change d.refcount - 1 ≠ refs s.live s.ptr b
    omega

theorem Owned.countsExactly (w : Owned s.live s) : CountsExactly s where
  counts_eq b d hd := w.exact.refs_of_cell (by simp [State.count, hd])
  block_live h hh b hb := by
    obtain ⟨d, hd, -⟩ := w.cell_ptr hh hb
    simp [hd]
  called_once e he := by
    cases hcell : s.blocks.cell e.block with
    | none =>
      have hzero := w.exact.refs_zero_of_none (b := e.block) (by simp [State.count, hcell])
      rw [if_pos hzero]
      exact w.gone e he hcell
    | some d =>
      have hpos := w.exact.refs_pos_of_cell (b := e.block) (k := d.refcount)
        (by simp [State.count, hcell])
      obtain ⟨hstored, hcalls⟩ := w.kept e.block d hcell
      have heq : (⟨e.block, d.deleteFn, d.data⟩ : Entry T) = e := w.unique _ hstored e he rfl
      rw [heq] at hcalls
      rw [if_neg (by omega)]
      exact List.count_eq_zero.mpr hcalls
  called_stored := w.known
  safe op hlegal := by
    by_cases hG : ResetsAlone s op
    · obtain ⟨t, ht, -⟩ := step_owned w hlegal hG
      exact Option.isSome_of_eq_some ht
    · cases op with
      | reset h =>
        obtain ⟨t, -, -, ht, -⟩ := reset_shared w hlegal hG
        exact Option.isSome_of_eq_some ht
      | _ => exact absurd trivial hG

end Operations

/-- The invariant of a reachable state. -/
def Valid (s : State T) : Prop := Owned s.live s

theorem step_valid {s t : State T} {op : Op T} (hs : Valid s) (hG : ResetsAlone s op)
    (hstep : next s op = some t) : Valid t := by
  obtain ⟨hlegal, hperform⟩ := next_cases hstep
  obtain ⟨t', ht', w⟩ := step_owned hs hlegal hG
  obtain rfl : t' = t := Option.some.inj (ht'.symm.trans hperform)
  exact w

theorem reset_shared_breaks {s t : State T} {op : Op T} (hs : Valid s)
    (hstep : next s op = some t) (hG : ¬ ResetsAlone s op) : ¬ CountsExactly t := by
  obtain ⟨hlegal, hperform⟩ := next_cases hstep
  cases op with
  | reset h =>
    obtain ⟨t', b, d, ht', hd, hne⟩ := reset_shared hs hlegal hG
    obtain rfl : t' = t := Option.some.inj (ht'.symm.trans hperform)
    exact fun hexact => hne (hexact.counts_eq b d hd)
  | _ => exact absurd trivial hG

/-- Over any sequence of operations the counts and the deleter calls are exact in
every state if and only if `reset()` is only called on handles that share nothing. -/
theorem blockCounts_iff (ops : List (Op T)) :
    Throughout next CountsExactly (init : State T) ops ↔ StepsMeet next ResetsAlone init ops :=
  throughout_iff_stepsMeet (fun _ _ _ hs hG hstep => step_valid hs hG hstep)
    (fun _ hs => hs.countsExactly) (fun _ _ _ hs hstep hG => reset_shared_breaks hs hstep hG)
    owned_init

/-- Two handles share a block, one is reset, and still points to it. -/
theorem reset_keeps_pointer :
    ¬ ∀ ops : List (Op ℕ), Throughout next CountsExactly (init : State ℕ) ops := by
  intro h
  let ops : List (Op ℕ) := [.make 0 5 1, .copyConstruct 1 0, .reset 0]
  have hlast : (run next (init : State ℕ) ops).map
      (fun s => (s.blocks.cell 0, refs s.live s.ptr 0)) = some (some ⟨5, 1, 1⟩, 2) := by
    decide
  obtain ⟨s, hs, hfinal⟩ := Option.map_eq_some_iff.mp hlast
  simp only [Prod.mk.injEq] at hfinal
  obtain ⟨hcell, hrefs⟩ := hfinal
  have hcount := ((h ops).final hs).counts_eq 0 _ hcell
  rw [hrefs] at hcount
  exact absurd hcount (by decide)

end BoxUtils.RefData
