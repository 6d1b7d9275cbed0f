import BoxUtils.CJsonSort

/-!
Sorting a list of items is sorting their names, with the nodes linked in the new order. The
loops come to an end, and nothing but links between the items is changed.
-/
namespace BoxUtils.CJson

open LinkedShapes MergeSorting

variable {H H' H₁ H₂ : Nodes} {caseSensitive : Bool} {p q e first second : Option ℕ}
variable {l l₁ l₂ xs ys : List ℕ} {a x y t : ℕ} {c v : CJSON}

section Rewiring

/-- Only the links between items of the list are changed. -/
structure Rewires (H H' : Nodes) (l : List ℕ) : Prop where
  fresh : H'.fresh = H.fresh
  others : ∀ y, y ∉ l → H'.cell y = H.cell y
  dead : ∀ y, H.cell y = none → H'.cell y = none
  items : ∀ y c, H.cell y = some c →
    ∃ prev next, H'.cell y = some { c with prev := prev, next := next }

theorem Rewires.refl (H : Nodes) (l : List ℕ) : Rewires H H l :=
  ⟨rfl, fun _ _ => rfl, fun _ h => h, fun _ c h => ⟨c.prev, c.next, h⟩⟩

theorem Rewires.trans (h₁ : Rewires H H₁ l₁) (h₂ : Rewires H₁ H₂ l₂) (hsub₁ : l₁ ⊆ l)
    (hsub₂ : l₂ ⊆ l) : Rewires H H₂ l where
  fresh := h₂.fresh.trans h₁.fresh
  others y hy := by
    rw [h₂.others y fun h => hy (hsub₂ h), h₁.others y fun h => hy (hsub₁ h)]
  dead y hy := h₂.dead y (h₁.dead y hy)
  items y c hc := by
    obtain ⟨prev₁, next₁, hc₁⟩ := h₁.items y c hc
    obtain ⟨prev₂, next₂, hc₂⟩ := h₂.items y _ hc₁
    exact ⟨prev₂, next₂, hc₂⟩

/-- A change of the links of one item. -/
theorem modify_rewires (hc : H.cell x = some c) (prev next : Option ℕ) {f : CJSON → CJSON}
    (hf : f c = { c with prev := prev, next := next }) :
    ∃ H', H.modify x f = some H' ∧ Rewires H H' [x] ∧
      H'.cell x = some { c with prev := prev, next := next } := by
  refine ⟨_, Heap.modify_eq hc f, ⟨rfl, fun y hy => ?_, fun y hy => ?_, fun y d hd => ?_⟩, ?_⟩
  · exact Heap.cell_put_of_ne H _ (by simpa using hy)
  · rwa [Heap.cell_put_eq_none_iff hc]
  · by_cases hyx : y = x
    · subst y
      obtain rfl := Option.some.inj (hc.symm.trans hd)
      exact ⟨prev, next, by rw [Heap.cell_put_self hc, hf]⟩
    · exact ⟨d.prev, d.next, by rw [Heap.cell_put_of_ne H _ hyx, hd]⟩
  · rw [Heap.cell_put_self hc, hf]

/-- An item whose name comes before that of another one. -/
def lessName (H : Nodes) (caseSensitive : Bool) (x y : ℕ) : Bool :=
  decide (compareStrings (nameOf H x) (nameOf H y) caseSensitive < 0)

theorem Rewires.lessName_eq (h : Rewires H H' l) (caseSensitive : Bool) :
    lessName H' caseSensitive = lessName H caseSensitive := by
  have hname : ∀ y, nameOf H' y = nameOf H y := by
    intro y
    cases hc : H.cell y with
    | none => rw [nameOf, nameOf, hc, h.dead y hc]
    | some c =>
      obtain ⟨prev, next, hc'⟩ := h.items y c hc
      rw [nameOf_eq hc, nameOf_eq hc']
  funext x y
  rw [lessName, lessName, hname, hname]

end Rewiring

section Lists

/-- A list that is not touched. -/
theorem Rewires.chain (h : Rewires H H' l) (hchain : Chain H q p xs e) (hdisjoint : xs.Disjoint l) :
    Chain H' q p xs e :=
  hchain.frame fun y hy u hu => ⟨u, (h.others y (hdisjoint hy)).trans hu, rfl, rfl⟩

/-- The last link of a list. -/
theorem chain_setEnd (h : Chain H q p (l ++ [t]) e)
    (hkeep : ∀ y ∈ l, H'.cell y = H.cell y) (hc : H.cell t = some c) {e' : Option ℕ}
    (hc' : H'.cell t = some { c with next := e' }) : Chain H' q p (l ++ [t]) e' := by
  obtain ⟨m, hl, hm, d, hd, hprev, -⟩ := Chain.append.mp h
  obtain rfl := Option.some.inj (hc.symm.trans hd)
  refine Chain.append.mpr ⟨m, hl.frame fun y hy u hu => ?_, hm, _, hc', hprev, rfl⟩
  exact ⟨u, (hkeep y hy).trans hu, rfl, rfl⟩

/-- The first link back of a list. -/
theorem chain_setStart (h : Chain H q p (x :: l) e)
    (hkeep : ∀ y ∈ l, H'.cell y = H.cell y) (hc : H.cell x = some c) {q' : Option ℕ}
    (hc' : H'.cell x = some { c with prev := q' }) : Chain H' q' p (x :: l) e := by
  obtain ⟨hp, d, hd, -, hl⟩ := h
  obtain rfl := Option.some.inj (hc.symm.trans hd)
  refine ⟨hp, _, hc', rfl, hl.frame fun y hy u hu => ?_⟩
  exact ⟨u, (hkeep y hy).trans hu, rfl, rfl⟩

end Lists

section Loops

/-- The test finds out whether the names ascend. -/
theorem testSorted_eq (caseSensitive : Bool) {rounds : ℕ} (h : Chain H q (some a) (a :: l) none)
    (hrounds : l.length + 1 ≤ rounds) :
    ∃ x, testSorted caseSensitive H rounds (some a) = some (some x) ∧
      isLastItem H (some x) = some (ascends (lessName H caseSensitive) (a :: l)) := by
  induction l generalizing q a rounds with
  | nil =>
    obtain ⟨rounds, rfl⟩ : ∃ n, rounds = n + 1 := ⟨rounds - 1, by omega⟩
    obtain ⟨-, c, hc, -, hnext⟩ := h
    have hnone : c.next = none := hnext
    refine ⟨a, ?_, ?_⟩
    · simp [testSorted, hc, hnone]
    · simp [isLastItem, hc, hnone, ascends]
  | cons b l ih =>
    rw [List.length_cons] at hrounds
    obtain ⟨rounds, rfl⟩ : ∃ n, rounds = n + 1 := ⟨rounds - 1, by omega⟩
    obtain ⟨-, c, hc, -, hrest⟩ := h
    have hnext : c.next = some b := hrest.1
    obtain ⟨d, hd⟩ := hrest.live List.mem_cons_self
    have hless : lessName H caseSensitive a b =
        decide (compareStrings c.string d.string caseSensitive < 0) := by
      rw [lessName, nameOf_eq hc, nameOf_eq hd]
    cases hcompare : lessName H caseSensitive a b with
    | false =>
      refine ⟨a, ?_, ?_⟩
      · rw [hcompare] at hless
        have hnot := of_decide_eq_false hless.symm
        simp only [testSorted, hc, hnext, hd, Option.bind_eq_bind, Option.bind_some, if_neg hnot]
      · simp [isLastItem, hc, hnext, ascends, hcompare]
    | true =>
      rw [hcompare] at hless
      have hyes := of_decide_eq_true hless.symm
      rw [linked_next, hnext] at hrest
      obtain ⟨x, htest, hlast⟩ := ih hrest (Nat.le_of_succ_le_succ hrounds)
      refine ⟨x, ?_, ?_⟩
      · simp only [testSorted, hc, hnext, hd, Option.bind_eq_bind, Option.bind_some, if_pos hyes,
          htest]
      · rw [hlast, ascends, hcompare, Bool.true_and]

/-- One pointer is at the middle when the other one, twice as fast, is at the end. -/
theorem findMiddle_eq (h : Chain H q p l none) {i rounds : ℕ} (hi : i ≤ middle l)
    (hrounds : middle l ≤ i + rounds) :
    findMiddle H rounds l[i]? l[2 * i]? = some l[middle l]? := by
  induction rounds generalizing i with
  | zero =>
    obtain rfl : i = middle l := by omega
    have hend : l[2 * middle l]? = none := by
      apply List.getElem?_eq_none
      rw [middle]
      omega
    rw [hend, findMiddle]
  | succ rounds ih =>
    cases hcurrent : l[2 * i]? with
    | none =>
      have hle := List.getElem?_eq_none_iff.mp hcurrent
      obtain rfl : i = middle l := by
        rw [middle] at hi ⊢
        omega
      rw [findMiddle]
    | some x =>
      have hlt := (List.getElem?_eq_some_iff.mp hcurrent).1
      have hil : i < l.length := by omega
      obtain ⟨s, hs⟩ : ∃ s, l[i]? = some s := ⟨l[i], List.getElem?_eq_getElem hil⟩
      obtain ⟨u, hu, -, hunext⟩ := h.links hs
      obtain ⟨w, hw, -, hwnext⟩ := h.links hcurrent
      rw [linked_next] at hunext hwnext
      have hi' : i + 1 ≤ middle l := by
        rw [middle]
        omega
      have hrest := ih hi' (by omega)
      rw [hs]
      simp only [findMiddle, hu, hw, Option.bind_eq_bind, Option.bind_some, hwnext, hunext]
      cases hsecond : l[2 * i + 1]? with
      | none =>
        have hend : l[2 * (i + 1)]? = none := by
          have hle := List.getElem?_eq_none_iff.mp hsecond
          apply List.getElem?_eq_none
          omega
        rw [hend, findMiddle] at hrest
        exact hrest
      | some y =>
        obtain ⟨z, hz, -, hznext⟩ := h.links hsecond
        rw [linked_next] at hznext
        simp only [hz, Option.bind_some, hznext]
        exact hrest

/-- The last item of one list and the first of another one get new links to each other. -/
theorem relink (hl₁ : Chain H none p (l₁ ++ [t]) e) (hl₂ : Chain H q second (x :: l₂) none)
    (hnodup : ((l₁ ++ [t]) ++ x :: l₂).Nodup) (n m : Option ℕ) :
    ∃ H₁ H₂, (H.modify t fun c => { c with next := n }) = some H₁ ∧
      (H₁.modify x fun c => { c with prev := m }) = some H₂ ∧ Rewires H H₂ [t, x] ∧
      Chain H₂ none p (l₁ ++ [t]) n ∧ Chain H₂ m second (x :: l₂) none := by
  have hapart : (∀ y ∈ l₁, y ≠ t ∧ y ≠ x) ∧ x ≠ t ∧ ∀ y ∈ l₂, y ≠ x ∧ y ≠ t := by
    simp only [List.nodup_append, List.nodup_cons, List.mem_append, List.mem_cons,
      List.not_mem_nil, or_false] at hnodup
    obtain ⟨⟨-, -, ht⟩, ⟨hx, -⟩, hdisjoint⟩ := hnodup
    refine ⟨fun y hy => ⟨ht y hy t rfl, hdisjoint y (Or.inl hy) x (Or.inl rfl)⟩,
      Ne.symm (hdisjoint t (Or.inr rfl) x (Or.inl rfl)), fun y hy => ⟨?_, ?_⟩⟩
    · exact fun heq => hx (heq ▸ hy)
    · exact Ne.symm (hdisjoint t (Or.inr rfl) y (Or.inr hy))
  obtain ⟨hfirst, htx, hsecond⟩ := hapart
  obtain ⟨d, hd⟩ := hl₁.live (List.mem_append_right l₁ List.mem_cons_self)
  obtain ⟨c, hc⟩ := hl₂.live List.mem_cons_self
  obtain ⟨H₁, hmodify₁, hrewires₁, hd₁⟩ := modify_rewires hd d.prev n
    (f := fun c => { c with next := n }) rfl
  have hc₁ : H₁.cell x = some c := (hrewires₁.others x (by simpa using htx)).trans hc
  obtain ⟨H₂, hmodify₂, hrewires₂, hc₂⟩ := modify_rewires hc₁ m c.next
    (f := fun c => { c with prev := m }) rfl
  have hkeep : ∀ y, y ≠ t → y ≠ x → H₂.cell y = H.cell y := by
    intro y hyt hyx
    rw [hrewires₂.others y (by simpa using hyx), hrewires₁.others y (by simpa using hyt)]
  have hd₂ := (hrewires₂.others t (by simpa using Ne.symm htx)).trans hd₁
  refine ⟨H₁, H₂, hmodify₁, hmodify₂, hrewires₁.trans hrewires₂ (by simp) (by simp), ?_, ?_⟩
  · exact chain_setEnd hl₁ (fun y hy => hkeep y (hfirst y hy).1 (hfirst y hy).2) hd hd₂
  · exact chain_setStart hl₂ (fun y hy => hkeep y (hsecond y hy).2 (hsecond y hy).1) hc hc₂

/-- The list is cut before an item that is not the first. -/
theorem splitLists_eq (h : Chain H none p ((l₁ ++ [t]) ++ x :: l₂) none) :
    ∃ H', splitLists H (some x) = some H' ∧ Rewires H H' [t, x] ∧
      Chain H' none p (l₁ ++ [t]) none ∧ Chain H' none (some x) (x :: l₂) none := by
  have hnodup := h.nodup
  obtain ⟨m, hl₁, hl₂⟩ := Chain.append.mp h
  have hlast : (l₁ ++ [t]).getLast?.or none = some t := by simp
  rw [hlast] at hl₂
  obtain ⟨rfl, c, hc, hprev, -⟩ := id hl₂
  have hp : c.prev = some t := hprev
  obtain ⟨H₁, H₂, h₁, h₂, hrewires, hfirst, hsecond⟩ := relink hl₁ hl₂ hnodup none none
  refine ⟨H₂, ?_, hrewires, hfirst, hsecond⟩
  simp only [splitLists, hc, hp, h₁, h₂, Option.bind_eq_bind, Option.bind_some]

/-- What was merged so far; the last item may have a link to what is behind it still. -/
structure MergedAs (H : Nodes) (merged : Merged) (l : List ℕ) : Prop where
  result : merged.1 = l.head?
  tail : merged.2 = l.getLast?
  chain : ∃ e, Chain H none merged.1 l e

theorem suffixObject_links {result : Option ℕ} (hl : Chain H none result l e)
    (hlast : l.getLast? = some t) (hx : Chain H q (some x) (x :: xs) none)
    (hnodup : (l ++ x :: xs).Nodup) :
    ∃ H', suffixObject H (some t) x = some H' ∧ Rewires H H' (l ++ [x]) ∧
      Chain H' none result l (some x) ∧ Chain H' (some t) (some x) (x :: xs) none := by
  obtain ⟨l, rfl⟩ := List.getLast?_eq_some_iff.mp hlast
  obtain ⟨H₁, H₂, h₁, h₂, hrewires, hfirst, hsecond⟩ := relink hl hx hnodup (some x) (some t)
  refine ⟨H₂, ?_, ?_, hfirst, hsecond⟩
  · simp only [suffixObject, h₁, h₂, Option.bind_eq_bind, Option.bind_some]
  · exact (Rewires.refl H (l ++ [t] ++ [x])).trans hrewires (fun _ h => h) (by simp)

/-- The smaller item goes to the end. -/
theorem appendSmaller_eq {merged : Merged} (hm : MergedAs H merged l)
    (hx : Chain H q p (x :: xs) none) (hq : l = [] → q = none)
    (hnodup : (l ++ x :: xs).Nodup) :
    ∃ H' merged' c, appendSmaller H x merged = some (H', merged') ∧ Rewires H H' (l ++ [x]) ∧
      MergedAs H' merged' (l ++ [x]) ∧ H'.cell x = some c ∧ Chain H' (some x) c.next xs none := by
  obtain ⟨rfl, c, hc, hprev, hxs⟩ := id hx
  obtain ⟨result, tail⟩ := merged
  obtain ⟨hresult, htail, e, hl⟩ := hm
  dsimp only at hresult htail hl
  cases l with
  | nil =>
    obtain rfl : result = none := hresult
    refine ⟨H, _, c, rfl, Rewires.refl H _, ⟨rfl, rfl, c.next, rfl, c, hc, ?_, rfl⟩, hc, hxs⟩
    rw [hprev, hq rfl]
  | cons y l =>
    obtain rfl : result = some y := hresult
    obtain ⟨t, ht⟩ : ∃ t, (y :: l).getLast? = some t := ⟨_, List.getLast?_cons⟩
    obtain ⟨H', hsuffix, hrewires, hl', hx'⟩ := suffixObject_links hl ht hx hnodup
    obtain ⟨-, c', hc', hprev', hxs'⟩ := hx'
    refine ⟨H', (some y, some x), c', ?_, hrewires, ⟨rfl, List.getLast?_concat.symm, c'.next, ?_⟩,
      hc', hxs'⟩
    · rw [htail, ht]
      simp only [appendSmaller, hsuffix, Option.bind_eq_bind, Option.bind_some]
    · refine Chain.append.mpr ⟨some x, hl', rfl, c', hc', ?_, rfl⟩
      rw [hprev', ht, Option.some_or]

/-- One list is empty when the loop ends, and the other one is not. -/
structure MergeEnds (H H' : Nodes) (first second : Option ℕ) (merged : Merged)
    (l xs ys whole : List ℕ) : Prop where
  merged : MergedAs H' merged l
  first : ∃ q, Chain H' q first xs none ∧ (l = [] → q = none)
  second : ∃ q, Chain H' q second ys none ∧ (l = [] → q = none)
  one : xs = [] ∧ ys ≠ [] ∨ xs ≠ [] ∧ ys = []
  rewires : Rewires H H' whole

theorem MergeEnds.after {merged : Merged} {whole whole₁ : List ℕ}
    (h : MergeEnds H₁ H' first second merged l xs ys whole₁) (hrewires : Rewires H H₁ l₁)
    (hsub₁ : l₁ ⊆ whole) (hsub : whole₁ ⊆ whole) :
    MergeEnds H H' first second merged l xs ys whole :=
  { h with rewires := hrewires.trans h.rewires hsub₁ hsub }

theorem mergeLoop_eq {rounds : ℕ} {merged : Merged} {q' : Option ℕ} (hm : MergedAs H merged l)
    (hxs : Chain H q first xs none) (hys : Chain H q' second ys none)
    (hq : l = [] → q = none ∧ q' = none) (hnodup : (l ++ xs ++ ys).Nodup)
    (hone : xs ≠ [] ∨ ys ≠ []) (hrounds : xs.length + ys.length ≤ rounds) :
    ∃ H' first' second' merged' l' xs' ys',
      mergeLoop caseSensitive rounds H first second merged =
        some (H', first', second', merged') ∧
      MergeEnds H H' first' second' merged' l' xs' ys' (l ++ xs ++ ys) ∧
      l' ++ (xs' ++ ys') = l ++ mergeLists (lessName H caseSensitive) xs ys := by
  induction rounds generalizing H l xs ys first second q q' merged with
  | zero =>
    cases xs with
    | cons x xs => simp at hrounds
    | nil =>
      cases ys with
      | cons y ys => simp at hrounds
      | nil => simp at hone
  | succ rounds ih =>
    cases xs with
    | nil =>
      obtain rfl : first = none := hxs
      refine ⟨H, none, second, merged, l, [], ys, ?_, ?_, ?_⟩
      · cases second <;> rfl
      · exact ⟨hm, ⟨q, rfl, fun h => (hq h).1⟩, ⟨q', hys, fun h => (hq h).2⟩,
          Or.inl ⟨rfl, hone.resolve_left (by simp)⟩, Rewires.refl H _⟩
      · simp [mergeLists]
    | cons x xs =>
      obtain ⟨rfl, c, hc, -⟩ := id hxs
      cases ys with
      | nil =>
        obtain rfl : second = none := hys
        refine ⟨H, some x, none, merged, l, x :: xs, [], rfl, ?_, ?_⟩
        · exact ⟨hm, ⟨q, hxs, fun h => (hq h).1⟩, ⟨q', rfl, fun h => (hq h).2⟩,
            Or.inr ⟨by simp, rfl⟩, Rewires.refl H _⟩
        · simp [mergeLists]
      | cons y ys =>
        obtain ⟨rfl, d, hd, -⟩ := id hys
        have hless : lessName H caseSensitive x y =
            decide (compareStrings c.string d.string caseSensitive < 0) := by
          rw [lessName, nameOf_eq hc, nameOf_eq hd]
        obtain ⟨hfirst, hsecond, hdisjoint⟩ := List.nodup_append'.mp hnodup
        have hsub : ∀ (w : ℕ) (ws : List ℕ), ∀ z ∈ l ++ [w], z ∈ l ++ w :: ws := by
          intro w ws z hz
          rw [List.append_cons]
          exact List.mem_append_left ws hz
        rw [List.length_cons, List.length_cons] at hrounds
        rw [mergeLists_cons]
        simp only [mergeLoop, hc, hd, Option.bind_eq_bind, Option.bind_some]
        cases hcompare : lessName H caseSensitive x y with
        | true =>
          rw [hcompare] at hless
          rw [if_pos (of_decide_eq_true hless.symm)]
          obtain ⟨H₁, merged₁, c₁, happend, hrewires, hm₁, hc₁, hxs₁⟩ :=
            appendSmaller_eq hm hxs (fun h => (hq h).1) hfirst
          have hys₁ := hrewires.chain hys fun z hz hz' => hdisjoint (hsub x xs z hz') hz
          obtain ⟨H', first', second', merged', l', xs', ys', hloop, hends, hlists⟩ :=
            ih hm₁ hxs₁ hys₁ (by simp) (by simpa using hnodup) (Or.inr (by simp)) (by simp; omega)
          refine ⟨H', first', second', merged', l', xs', ys', ?_, ?_, ?_⟩
          · simp only [happend, hc₁, hloop, Option.bind_some, if_true]
          · exact hends.after hrewires (by simp) (by simp)
          · rw [hlists, hrewires.lessName_eq, List.append_assoc]
            rfl
        | false =>
          rw [hcompare] at hless
          rw [if_neg (of_decide_eq_false hless.symm)]
          have hxy : x ≠ y := by
            rintro rfl
            exact hdisjoint (a := x) (by simp) List.mem_cons_self
          have hboth : (l ++ y :: ys).Nodup :=
            hnodup.sublist ((List.sublist_append_left l (x :: xs)).append (List.Sublist.refl _))
          obtain ⟨H₁, merged₁, d₁, happend, hrewires, hm₁, hd₁, hys₁⟩ :=
            appendSmaller_eq hm hys (fun h => (hq h).2) hboth
          have hxs₁ := hrewires.chain hxs fun z hz hz' => by
            rcases List.mem_append.mp hz' with hzl | hzy
            · exact (List.nodup_append'.mp hfirst).2.2 hzl hz
            · obtain rfl : z = y := by simpa using hzy
              exact hdisjoint (List.mem_append_right l hz) List.mem_cons_self
          have hperm : (l ++ [y] ++ (x :: xs) ++ ys).Perm (l ++ (x :: xs) ++ y :: ys) := by
            rw [List.append_assoc, List.append_assoc, List.append_assoc]
            apply List.Perm.append_left l
            show (y :: ((x :: xs) ++ ys)).Perm ((x :: xs) ++ y :: ys)
            exact List.perm_middle.symm
          obtain ⟨H', first', second', merged', l', xs', ys', hloop, hends, hlists⟩ :=
            ih hm₁ hxs₁ hys₁ (by simp) (hperm.nodup_iff.mpr hnodup) (Or.inl (by simp))
              (by simp; omega)
          refine ⟨H', first', second', merged', l', xs', ys', ?_, ?_, ?_⟩
          · simp only [happend, hd₁, hloop, Option.bind_some, if_neg hxy]
          · exact hends.after hrewires (by simp) hperm.subset
          · rw [hlists, hrewires.lessName_eq, List.append_assoc]
            rfl

/-- A list that is put behind another one. -/
theorem suffixObject_joins {result : Option ℕ} (hl : Chain H none result l e)
    (hlast : l.getLast? = some t) (hx : Chain H q (some x) (x :: xs) none)
    (hnodup : (l ++ x :: xs).Nodup) :
    ∃ H', suffixObject H (some t) x = some H' ∧ Rewires H H' (l ++ x :: xs) ∧
      Chain H' none result (l ++ x :: xs) none := by
  obtain ⟨H', hsuffix, hrewires, hl', hx'⟩ := suffixObject_links hl hlast hx hnodup
  refine ⟨H', hsuffix, (Rewires.refl H _).trans hrewires (fun _ h => h) (by simp), ?_⟩
  refine Chain.append.mpr ⟨some x, hl', ?_⟩
  rwa [hlast, Option.some_or]

/-- The rest of the list that is left goes behind what was merged. -/
theorem mergeRest_eq {merged : Merged} {whole : List ℕ}
    (h : MergeEnds H₁ H first second merged l xs ys whole) (hnodup : (l ++ (xs ++ ys)).Nodup)
    (hsub : l ++ (xs ++ ys) ⊆ whole) :
    ∃ H' result, mergeRest H first second merged = some (H', result) ∧ Rewires H H' whole ∧
      Chain H' none result (l ++ (xs ++ ys)) none := by
  obtain ⟨result, tail⟩ := merged
  obtain ⟨⟨hresult, htail, e, hl⟩, ⟨q, hxs, hq⟩, ⟨q', hys, hq'⟩, hone, -⟩ := h
  dsimp only at hresult htail hl
  have hbehind : ∀ {q p : Option ℕ} {z : ℕ} {zs : List ℕ}, l ≠ [] → Chain H q p (z :: zs) none →
      (l ++ z :: zs).Nodup → l ++ z :: zs ⊆ whole →
      ∃ H', suffixObject H tail z = some H' ∧ Rewires H H' whole ∧
        Chain H' none result (l ++ z :: zs) none := by
    intro q p z zs hne hz hnodup hsub
    obtain rfl := hz.1
    obtain ⟨t, ht⟩ := Option.ne_none_iff_exists'.mp (mt List.getLast?_eq_none_iff.mp hne)
    obtain ⟨H', hsuffix, hrewires, hjoined⟩ := suffixObject_joins hl ht hz hnodup
    rw [htail, ht]
    exact ⟨H', hsuffix, (Rewires.refl H whole).trans hrewires (fun _ h => h) hsub, hjoined⟩
  rcases hone with ⟨rfl, hne⟩ | ⟨hne, rfl⟩
  · obtain ⟨y, ys, rfl⟩ := List.exists_cons_of_ne_nil hne
    obtain rfl : first = none := hxs
    obtain ⟨rfl, -⟩ := id hys
    rw [List.nil_append] at hnodup hsub ⊢
    cases l with
    | nil =>
      obtain rfl : result = none := hresult
      obtain rfl := hq' rfl
      exact ⟨H, some y, rfl, Rewires.refl H whole, hys⟩
    | cons z l =>
      obtain rfl : result = some z := hresult
      obtain ⟨H', hsuffix, hrewires, hjoined⟩ := hbehind (by simp) hys hnodup hsub
      refine ⟨H', some z, ?_, hrewires, hjoined⟩
      simp only [mergeRest, appendRest, hsuffix, Option.bind_eq_bind, Option.bind_some]
  · obtain ⟨x, xs, rfl⟩ := List.exists_cons_of_ne_nil hne
    obtain rfl : second = none := hys
    obtain ⟨rfl, -⟩ := id hxs
    rw [List.append_nil] at hnodup hsub ⊢
    cases l with
    | nil =>
      obtain rfl : result = none := hresult
      obtain rfl := hq rfl
      exact ⟨H, some x, rfl, Rewires.refl H whole, hxs⟩
    | cons z l =>
      obtain rfl : result = some z := hresult
      obtain ⟨H', hsuffix, hrewires, hjoined⟩ := hbehind (by simp) hxs hnodup hsub
      refine ⟨H', some z, ?_, hrewires, hjoined⟩
      simp only [mergeRest, appendRest, hsuffix, Option.bind_eq_bind, Option.bind_some]

end Loops

section Sorts

/-- Two lists are merged. -/
theorem merge_halves {rounds : ℕ} (hxs : Chain H none first xs none)
    (hys : Chain H none second ys none) (hnodup : (xs ++ ys).Nodup) (hne : xs ≠ [])
    (hrounds : xs.length + ys.length ≤ rounds) :
    ∃ H₁ first' second' merged H' result,
      mergeLoop caseSensitive rounds H first second (none, none) =
        some (H₁, first', second', merged) ∧
      mergeRest H₁ first' second' merged = some (H', result) ∧ Rewires H H' (xs ++ ys) ∧
      Chain H' none result (mergeLists (lessName H caseSensitive) xs ys) none := by
  have hnothing : MergedAs H (none, none) [] := ⟨rfl, rfl, none, rfl⟩
  obtain ⟨H₁, first', second', merged, l', xs', ys', hloop, hends, hlists⟩ :=
    mergeLoop_eq hnothing hxs hys (fun _ => ⟨rfl, rfl⟩) hnodup (Or.inl hne) hrounds
  rw [List.nil_append] at hlists
  rw [List.nil_append] at hends
  have hperm : (l' ++ (xs' ++ ys')).Perm (xs ++ ys) := hlists ▸ mergeLists_perm
  obtain ⟨H', result, hrest, hrewires, hresult⟩ :=
    mergeRest_eq hends (hperm.nodup_iff.mpr hnodup) hperm.subset
  have hself : xs ++ ys ⊆ xs ++ ys := fun _ h => h
  exact ⟨H₁, first', second', merged, H', result, hloop, hrest,
    hends.rewires.trans hrewires hself hself, hlists ▸ hresult⟩

/-- A list that does not ascend is cut at its middle. -/
theorem exists_halves {less : ℕ → ℕ → Bool} (hl : ascends less l = false) :
    ∃ l₁ t x l₂, l.take (middle l) = l₁ ++ [t] ∧ l.drop (middle l) = x :: l₂ ∧
      l[middle l]? = some x := by
  have hlength := two_le_length hl
  have hpos : 0 < middle l := by
    rw [middle]
    omega
  have hlt : middle l < l.length := by
    rw [middle]
    omega
  have htake : l.take (middle l) ≠ [] := by
    apply List.ne_nil_of_length_pos
    rw [List.length_take]
    omega
  exact ⟨(l.take (middle l)).dropLast, (l.take (middle l)).getLast htake, l[middle l],
    l.drop (middle l + 1), (List.dropLast_append_getLast htake).symm,
    List.drop_eq_getElem_cons hlt, List.getElem?_eq_getElem hlt⟩

/-- The sort ends with the nodes linked in the order of the sorted names. -/
theorem sortList_eq (caseSensitive : Bool) {calls : ℕ} (h : Chain H none p l none)
    (hcalls : l.length ≤ calls) :
    ∃ H' p', sortList caseSensitive calls H p = some (H', p') ∧ Rewires H H' l ∧
      Chain H' none p' (sorted (lessName H caseSensitive) l) none := by
  induction calls generalizing H p l with
  | zero =>
    obtain rfl := List.eq_nil_of_length_eq_zero (Nat.le_zero.mp hcalls)
    obtain rfl : p = none := h
    refine ⟨H, none, rfl, Rewires.refl H [], ?_⟩
    rw [sorted_of_ascends rfl]
    rfl
  | succ calls ih =>
    cases l with
    | nil =>
      obtain rfl : p = none := h
      refine ⟨H, none, rfl, Rewires.refl H [], ?_⟩
      rw [sorted_of_ascends rfl]
      rfl
    | cons a l =>
      obtain ⟨rfl, c, hc, -, hnext⟩ := id h
      have hfresh := h.length_le
      obtain ⟨x, htest, hlast⟩ := testSorted_eq caseSensitive h hfresh
      simp only [sortList, hc, htest, hlast, Option.bind_eq_bind, Option.bind_some]
      cases hl : ascends (lessName H caseSensitive) (a :: l) with
      | true =>
        refine ⟨H, some a, ?_, Rewires.refl H _, ?_⟩
        · simp
        · rwa [sorted_of_ascends hl]
      | false =>
        have hmore : c.next ≠ none := by
          intro hnone
          rw [linked_next, hnone] at hnext
          cases l with
          | nil => cases hl
          | cons b l => cases hnext.1
        rw [if_neg hmore]
        obtain ⟨l₁, t, y, l₂, htake, hdrop, hmiddle⟩ := exists_halves hl
        have hhalves : l₁ ++ [t] ++ y :: l₂ = a :: l := by
          rw [← htake, ← hdrop, List.take_append_drop]
        have hlengths : l₁.length + l₂.length + 1 = l.length := by
          have := congrArg List.length hhalves
          simp only [List.length_append, List.length_cons, List.length_nil] at this
          omega
        have hfind : findMiddle H H.fresh (some a) (some a) = some (some y) := by
          have hle : middle (a :: l) ≤ 0 + H.fresh := by
            rw [middle]
            omega
          have hsteps := findMiddle_eq h (Nat.zero_le _) hle
          rwa [hmiddle] at hsteps
        rw [List.length_cons] at hcalls hfresh
        obtain ⟨hnodup₁, hnodup₂, hdisjoint⟩ :=
          List.nodup_append'.mp (hhalves ▸ h.nodup : (l₁ ++ [t] ++ y :: l₂).Nodup)
        obtain ⟨H₁, hsplit, hrewires₁, hfirst₁, hsecond₁⟩ := splitLists_eq (hhalves ▸ h)
        obtain ⟨H₂, first, hsort₂, hrewires₂, hfirst₂⟩ := ih hfirst₁ (by simp; omega)
        obtain ⟨H₃, second, hsort₃, hrewires₃, hsecond₃⟩ :=
          ih (hrewires₂.chain hsecond₁ hdisjoint.symm) (by simp; omega)
        have hfirst₃ := hrewires₃.chain hfirst₂ fun z hz hz' => hdisjoint (mem_sorted.mp hz) hz'
        rw [hrewires₁.lessName_eq] at hfirst₃
        rw [hrewires₂.lessName_eq, hrewires₁.lessName_eq] at hsecond₃
        have hless₃ : lessName H₃ caseSensitive = lessName H caseSensitive := by
          rw [hrewires₃.lessName_eq, hrewires₂.lessName_eq, hrewires₁.lessName_eq]
        have hperm := (sorted_perm (lessName H caseSensitive) (l₁ ++ [t])).append
          (sorted_perm (lessName H caseSensitive) (y :: l₂))
        rw [hhalves] at hperm
        have hsome : sorted (lessName H caseSensitive) (l₁ ++ [t]) ≠ [] := by
          apply List.ne_nil_of_length_pos
          simp [length_sorted]
        have hrounds : (sorted (lessName H caseSensitive) (l₁ ++ [t])).length +
            (sorted (lessName H caseSensitive) (y :: l₂)).length ≤ H₃.fresh := by
          rw [hrewires₃.fresh, hrewires₂.fresh, hrewires₁.fresh, length_sorted, length_sorted]
          simp only [List.length_append, List.length_cons, List.length_nil]
          omega
        obtain ⟨H₄, first', second', merged, H₅, result, hloop, hrest, hrewires₅, hresult⟩ :=
          merge_halves hfirst₃ hsecond₃ (hperm.nodup_iff.mpr h.nodup) hsome hrounds
        rw [hless₃, ← htake, ← hdrop, ← sorted_halves hl (two_le_length hl)] at hresult
        refine ⟨H₅, result, ?_, ?_, hresult⟩
        · simp only [hfind, hsplit, hsort₂, hsort₃, hloop, hrest, Option.bind_some,
            Bool.false_eq_true, if_false]
        · have hsub : l₁ ++ [t] ++ y :: l₂ ⊆ a :: l := by rw [hhalves]; exact fun _ h => h
          have hself : a :: l ⊆ a :: l := fun _ h => h
          have hcut := hrewires₁.trans hrewires₂ (fun z hz => hsub (by simp at hz ⊢; tauto))
            fun z hz => hsub (List.mem_append_left _ hz)
          have hsorts := hcut.trans hrewires₃ hself fun z hz => hsub (List.mem_append_right _ hz)
          exact hsorts.trans hrewires₅ hself hperm.subset

end Sorts

end BoxUtils.CJson
