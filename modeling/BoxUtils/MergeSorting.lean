import Mathlib.Data.List.Sort
import Mathlib.Data.Nat.Notation
import Mathlib.Tactic.Common

/-!
Merge sort by a comparison that says which of two elements is the smaller one. Lists that
ascend are left as they are, others are cut in the middle, and the halves are merged; a tie
goes to the second half. So the result is ordered, and elements that are tied come in the
opposite order.
-/
namespace BoxUtils.MergeSorting

variable {α : Type*}

/-- Each element is smaller than the next one. -/
def ascends (less : α → α → Bool) : List α → Bool
  | a :: b :: l => less a b && ascends less (b :: l)
  | _ => true

def middle (l : List α) : ℕ := (l.length + 1) / 2

/-- The elements of the first list go first where they are smaller. -/
def mergeLists (less : α → α → Bool) (first second : List α) : List α :=
  second.merge first fun b a => !less a b

def sorted (less : α → α → Bool) (l : List α) : List α :=
  if ascends less l then l
  else if 2 ≤ l.length then
    mergeLists less (sorted less (l.take (middle l))) (sorted less (l.drop (middle l)))
  else l
termination_by l.length
decreasing_by
  · rw [List.length_take, middle]
    omega
  · rw [List.length_drop, middle]
    omega

/-- Neither of two elements is smaller. -/
def tied (less : α → α → Bool) (a b : α) : Bool := !less a b && !less b a

/-- A comparison by some key. -/
structure WeakOrder (less : α → α → Bool) : Prop where
  asymm : ∀ a b, less a b = true → less b a = false
  trans : ∀ a b c, less b a = false → less c b = false → less c a = false

variable {less less' : α → α → Bool} {l l₁ l₂ : List α} {a b c : α}

section Orders

theorem WeakOrder.total (h : WeakOrder less) (a b : α) : (!less b a || !less a b) = true := by
  cases hba : less b a with
  | false => rfl
  | true => rw [h.asymm b a hba]; rfl

theorem WeakOrder.irrefl (h : WeakOrder less) (a : α) : less a a = false := by
  by_contra htrue
  exact htrue (h.asymm a a (by simpa using htrue))

theorem WeakOrder.of_less (h : WeakOrder less) (hab : less a b = true) (hcb : less c b = false) :
    less a c = true := by
  by_contra hac
  have := h.trans b c a hcb (by simpa using hac)
  rw [hab] at this
  cases this

theorem WeakOrder.trans_less (h : WeakOrder less) (hab : less a b = true)
    (hbc : less b c = true) : less a c = true := h.of_less hab (h.asymm b c hbc)

/-- A comparison of keys. -/
theorem WeakOrder.comap {β : Type*} (h : WeakOrder less) (key : β → α) :
    WeakOrder fun x y => less (key x) (key y) where
  asymm a b := h.asymm (key a) (key b)
  trans a b c := h.trans (key a) (key b) (key c)

theorem weakOrder_false : WeakOrder fun _ _ : α => false := ⟨nofun, fun _ _ _ _ _ => rfl⟩

theorem pairwise_ascends (h : WeakOrder less) (hl : ascends less l = true) :
    l.Pairwise fun a b => less a b = true := by
  induction l with
  | nil => exact List.Pairwise.nil
  | cons a l ih =>
    cases l with
    | nil => exact List.pairwise_singleton _ a
    | cons b l =>
      rw [ascends, Bool.and_eq_true] at hl
      have hrest := ih hl.2
      refine List.pairwise_cons.mpr ⟨fun c hc => ?_, hrest⟩
      rcases List.mem_cons.mp hc with rfl | hc
      · exact hl.1
      · exact h.trans_less hl.1 ((List.pairwise_cons.mp hrest).1 c hc)

end Orders

section Equations

theorem sorted_of_ascends (hl : ascends less l = true) : sorted less l = l := by
  rw [sorted, if_pos hl]

theorem sorted_halves (hl : ascends less l = false) (hlength : 2 ≤ l.length) :
    sorted less l =
      mergeLists less (sorted less (l.take (middle l))) (sorted less (l.drop (middle l))) := by
  rw [sorted, if_neg (by simp [hl]), if_pos hlength]

/-- A list that does not ascend has two elements at least. -/
theorem two_le_length (hl : ascends less l = false) : 2 ≤ l.length := by
  match l with
  | [] => cases hl
  | [a] => cases hl
  | a :: b :: l => simp

/-- The induction over the halves. -/
theorem halves_induction {P : List α → Prop} (less : α → α → Bool)
    (ascend : ∀ l, ascends less l = true → P l)
    (halves : ∀ l, ascends less l = false → P (l.take (middle l)) → P (l.drop (middle l)) → P l)
    (l : List α) : P l := by
  induction l using sorted.induct less with
  | case1 l hl => exact ascend l hl
  | case2 l hl hlength ih₁ ih₂ => exact halves l (by simpa using hl) ih₁ ih₂
  | case3 l hl hlength => exact absurd (two_le_length (by simpa using hl)) hlength

end Equations

section Sorting

theorem mergeLists_perm : (mergeLists less l₁ l₂).Perm (l₁ ++ l₂) := by
  apply (List.merge_perm_append _).trans
  exact List.perm_append_comm

theorem sorted_perm (less : α → α → Bool) (l : List α) : (sorted less l).Perm l := by
  induction l using halves_induction less with
  | ascend l hl => rw [sorted_of_ascends hl]
  | halves l hl ih₁ ih₂ =>
    rw [sorted_halves hl (two_le_length hl)]
    apply mergeLists_perm.trans
    have happend := ih₁.append ih₂
    rwa [List.take_append_drop] at happend

theorem mem_sorted : a ∈ sorted less l ↔ a ∈ l := (sorted_perm less l).mem_iff

theorem length_sorted (less : α → α → Bool) (l : List α) : (sorted less l).length = l.length :=
  (sorted_perm less l).length_eq

theorem ascends_congr (h : ∀ a ∈ l, ∀ b ∈ l, less a b = less' a b) :
    ascends less l = ascends less' l := by
  induction l with
  | nil => rfl
  | cons a l ih =>
    cases l with
    | nil => rfl
    | cons b l =>
      have hrest := ih fun x hx y hy =>
        h x (List.mem_cons_of_mem a hx) y (List.mem_cons_of_mem a hy)
      rw [ascends, ascends, h a (by simp) b (by simp), hrest]

theorem mergeLists_congr (h : ∀ a ∈ l₁, ∀ b ∈ l₂, less a b = less' a b) :
    mergeLists less l₁ l₂ = mergeLists less' l₁ l₂ := by
  have hmap : (l₂.merge l₁ fun b a => !less a b).map id =
      (l₂.map id).merge (l₁.map id) fun b a => !less' a b := by
    apply List.map_merge
    intro b hb a ha
    rw [h a ha b hb]
    rfl
  simpa [mergeLists] using hmap

/-- The comparison counts for the elements of the list only. -/
theorem sorted_congr (h : ∀ a ∈ l, ∀ b ∈ l, less a b = less' a b) :
    sorted less l = sorted less' l := by
  induction l using halves_induction less with
  | ascend l hl => rw [sorted_of_ascends hl, sorted_of_ascends (ascends_congr h ▸ hl)]
  | halves l hl ih₁ ih₂ =>
    have hl' : ascends less' l = false := (ascends_congr h).symm.trans hl
    have hfirst := ih₁ fun x hx y hy => h x (List.mem_of_mem_take hx) y (List.mem_of_mem_take hy)
    have hsecond := ih₂ fun x hx y hy => h x (List.mem_of_mem_drop hx) y (List.mem_of_mem_drop hy)
    rw [sorted_halves hl (two_le_length hl), sorted_halves hl' (two_le_length hl), ← hfirst,
      ← hsecond]
    apply mergeLists_congr
    intro a ha b hb
    have ha' := List.mem_of_mem_take (mem_sorted.mp ha)
    have hb' := List.mem_of_mem_drop (mem_sorted.mp hb)
    exact h a ha' b hb'

/-- Sorting by keys sorts the keys. -/
theorem map_sorted {β : Type*} (key : β → α) (l : List β) :
    (sorted (fun x y => less (key x) (key y)) l).map key = sorted less (l.map key) := by
  have hascends : ∀ l : List β,
      ascends (fun x y => less (key x) (key y)) l = ascends less (l.map key) := by
    intro l
    induction l with
    | nil => rfl
    | cons a l ih =>
      cases l with
      | nil => rfl
      | cons b l => rw [List.map_cons, List.map_cons, ascends, ascends, ih, List.map_cons]
  induction l using halves_induction fun x y => less (key x) (key y) with
  | ascend l hl => rw [sorted_of_ascends hl, sorted_of_ascends (hascends l ▸ hl)]
  | halves l hl ih₁ ih₂ =>
    have hl' : ascends less (l.map key) = false := (hascends l).symm.trans hl
    have hmiddle : middle (l.map key) = middle l := by rw [middle, middle, List.length_map]
    rw [sorted_halves hl (two_le_length hl), sorted_halves hl' (two_le_length hl'), hmiddle,
      ← List.map_take, ← List.map_drop, ← ih₁, ← ih₂]
    exact List.map_merge fun _ _ _ _ => rfl

theorem pairwise_mergeLists (h : WeakOrder less)
    (h₁ : l₁.Pairwise fun a b => less b a = false)
    (h₂ : l₂.Pairwise fun a b => less b a = false) :
    (mergeLists less l₁ l₂).Pairwise fun a b => less b a = false := by
  have hmerge : (l₂.merge l₁ fun a b => !less b a).Pairwise fun a b => (!less b a) = true := by
    apply List.pairwise_merge
    · intro a b c hab hbc
      simpa using h.trans a b c (by simpa using hab) (by simpa using hbc)
    · exact h.total
    · simpa using h₂
    · simpa using h₁
  simpa [mergeLists] using hmerge

/-- The result is ordered. -/
theorem pairwise_sorted (h : WeakOrder less) (l : List α) :
    (sorted less l).Pairwise fun a b => less b a = false := by
  induction l using halves_induction less with
  | ascend l hl =>
    rw [sorted_of_ascends hl]
    exact (pairwise_ascends h hl).imp fun {a b} hab => h.asymm a b hab
  | halves l hl ih₁ ih₂ =>
    rw [sorted_halves hl (two_le_length hl)]
    exact pairwise_mergeLists h ih₁ ih₂

theorem mergeLists_cons : mergeLists less (a :: l₁) (b :: l₂) =
    if less a b then a :: mergeLists less l₁ (b :: l₂)
    else b :: mergeLists less (a :: l₁) l₂ := by
  rw [mergeLists, List.cons_merge_cons]
  cases less a b <;> rfl

theorem WeakOrder.less_of_tied (h : WeakOrder less) {k : α} (ha : tied less k a = true)
    (hb : tied less k b = true) : less a b = false := by
  simp only [tied, Bool.and_eq_true, Bool.not_eq_true'] at ha hb
  exact h.trans b k a hb.1 ha.2

/-- Merged lists keep the order of elements that are tied, the second list going first. -/
theorem filter_mergeLists (h : WeakOrder less) (h₁ : l₁.Pairwise fun a b => less b a = false)
    (h₂ : l₂.Pairwise fun a b => less b a = false) (k : α) :
    (mergeLists less l₁ l₂).filter (tied less k) =
      l₂.filter (tied less k) ++ l₁.filter (tied less k) := by
  induction l₂ generalizing l₁ with
  | nil => simp [mergeLists]
  | cons b l₂ ih₂ =>
    induction l₁ with
    | nil => simp [mergeLists]
    | cons a l₁ ih₁ =>
      rw [mergeLists_cons]
      split
      · rename_i hab
        have hbehind : tied less k a = true → (b :: l₂).filter (tied less k) = [] := by
          intro ha
          apply List.filter_eq_nil_iff.mpr
          intro c hc hctied
          have hbc : less c b = false := by
            rcases List.mem_cons.mp hc with rfl | hc
            · exact h.irrefl c
            · exact (List.pairwise_cons.mp h₂).1 c hc
          have hac := h.of_less hab hbc
          rw [h.less_of_tied ha hctied] at hac
          cases hac
        have hrest := ih₁ (List.pairwise_cons.mp h₁).2
        cases ha : tied less k a with
        | false =>
          have hskip : ∀ l, (a :: l).filter (tied less k) = l.filter (tied less k) :=
            fun l => List.filter_cons_of_neg (by simp [ha])
          rw [hskip, hskip, hrest]
        | true =>
          rw [List.filter_cons_of_pos ha, hrest, hbehind ha, List.filter_cons_of_pos ha,
            List.nil_append, List.nil_append]
      · have hrest := ih₂ h₁ (List.pairwise_cons.mp h₂).2
        simp only [List.filter_cons] at hrest ⊢
        rw [hrest]
        cases tied less k b <;> rfl

/-- Elements that are tied come in the opposite order. -/
theorem filter_sorted (h : WeakOrder less) (k : α) (l : List α) :
    (sorted less l).filter (tied less k) = (l.filter (tied less k)).reverse := by
  induction l using halves_induction less with
  | ascend l hl =>
    rw [sorted_of_ascends hl]
    have hpairwise := (pairwise_ascends h hl).filter (tied less k)
    match hfilter : l.filter (tied less k) with
    | [] => rfl
    | [a] => rfl
    | a :: b :: rest =>
      -- no two elements of such a list are tied
      have hmem : ∀ c ∈ a :: b :: rest, tied less k c = true := by
        intro c hc
        exact (List.mem_filter.mp (hfilter ▸ hc)).2
      rw [hfilter] at hpairwise
      have hab := (List.pairwise_cons.mp hpairwise).1 b List.mem_cons_self
      rw [h.less_of_tied (hmem a (by simp)) (hmem b (by simp))] at hab
      cases hab
  | halves l hl ih₁ ih₂ =>
    rw [sorted_halves hl (two_le_length hl),
      filter_mergeLists h (pairwise_sorted h _) (pairwise_sorted h _), ih₁, ih₂,
      ← List.reverse_append, ← List.filter_append, List.take_append_drop]

/-- Without any smaller elements the list is reversed. -/
theorem sorted_tied (h : ∀ a ∈ l, ∀ b ∈ l, less a b = false) : sorted less l = l.reverse := by
  have hcongr : sorted less l = sorted (fun _ _ => false) l := sorted_congr h
  rw [hcongr]
  cases l with
  | nil => rw [sorted_of_ascends rfl, List.reverse_nil]
  | cons a l =>
    have hall : tied (fun _ _ : α => false) a = fun _ => true := rfl
    have hfilter := filter_sorted weakOrder_false a (a :: l)
    rwa [hall, List.filter_true, List.filter_true] at hfilter

end Sorting

end BoxUtils.MergeSorting
