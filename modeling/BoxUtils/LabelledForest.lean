import BoxUtils.Shape

/-!
Forests of labelled trees, in the form of the shapes: each node has a label, a
first child and a next sibling. A shape is read as such a forest when every
address has a label. The lists of siblings are searched for the first tree whose
label meets a condition, and the tree at one address is replaced.
-/
namespace BoxUtils

inductive Forest (L : Type*) where
  | nil
  | node (label : L) (child next : Forest L)
deriving DecidableEq

namespace Forest

variable {L : Type*} {P : L → Bool} {f g s t : Forest L} {l : L}

def append : Forest L → Forest L → Forest L
  | nil, g => g
  | node l c n, g => node l c (n.append g)

/-- The first tree on the top level whose label meets the condition. -/
def first (P : L → Bool) : Forest L → Option (L × Forest L)
  | nil => none
  | node l c n => if P l then some (l, c) else n.first P

/-- Takes this tree out. -/
def removeFirst (P : L → Bool) : Forest L → Forest L
  | nil => nil
  | node l c n => if P l then n else node l c (n.removeFirst P)

/-- The first tree. -/
def top : Forest L → Option (L × Forest L)
  | nil => none
  | node l c _ => some (l, c)

/-- The labels on the top level, in order. -/
def labels : Forest L → List L
  | nil => []
  | node l _ n => l :: n.labels

/-- Every label with the forest below it has the property. -/
def Everywhere (Q : L → Forest L → Prop) : Forest L → Prop
  | nil => True
  | node l c n => Q l c ∧ c.Everywhere Q ∧ n.Everywhere Q

instance decidableEverywhere {Q : L → Forest L → Prop} [∀ l c, Decidable (Q l c)] :
    ∀ f : Forest L, Decidable (f.Everywhere Q)
  | nil => isTrue trivial
  | node l c n =>
    have := decidableEverywhere (Q := Q) c
    have := decidableEverywhere (Q := Q) n
    inferInstanceAs (Decidable (Q l c ∧ c.Everywhere Q ∧ n.Everywhere Q))

theorem node_append (l : L) (c n g : Forest L) :
    (node l c n).append g = node l c (n.append g) := rfl

@[simp] theorem labels_append (f g : Forest L) : (f.append g).labels = f.labels ++ g.labels := by
  induction f with
  | nil => rfl
  | node l c n _ ih => rw [node_append, labels, labels, ih, List.cons_append]

theorem first_eq_none_iff : f.first P = none ↔ ∀ l ∈ f.labels, P l = false := by
  induction f with
  | nil => simp [first, labels]
  | node l c n _ ih =>
    rw [first, labels, List.forall_mem_cons]
    cases hl : P l with
    | false => simpa using ih
    | true => simp

theorem removeFirst_of_none (h : ∀ l ∈ f.labels, P l = false) : f.removeFirst P = f := by
  induction f with
  | nil => rfl
  | node l c n _ ih =>
    rw [labels, List.forall_mem_cons] at h
    rw [removeFirst, if_neg (by simp [h.1]), ih h.2]

/-- The search passes over a list without such a tree. -/
theorem first_append (h : ∀ l ∈ f.labels, P l = false) : (f.append g).first P = g.first P := by
  induction f with
  | nil => rfl
  | node l c n _ ih =>
    rw [labels, List.forall_mem_cons] at h
    rw [node_append, first, if_neg (by simp [h.1]), ih h.2]

theorem removeFirst_append (h : ∀ l ∈ f.labels, P l = false) :
    (f.append g).removeFirst P = f.append (g.removeFirst P) := by
  induction f with
  | nil => rfl
  | node l c n _ ih =>
    rw [labels, List.forall_mem_cons] at h
    rw [node_append, removeFirst, if_neg (by simp [h.1]), ih h.2, node_append]

theorem labels_removeFirst (P : L → Bool) (f : Forest L) :
    (f.removeFirst P).labels.Sublist f.labels := by
  induction f with
  | nil => exact List.Sublist.refl _
  | node m c n _ ih =>
    rw [removeFirst, labels]
    split
    · exact List.sublist_cons_self m n.labels
    · exact ih.cons_cons m

theorem first_append_or (f g : Forest L) : (f.append g).first P = (f.first P).or (g.first P) := by
  induction f with
  | nil => rfl
  | node m c n _ ih =>
    rw [node_append, first, first, ih]
    split <;> rfl

/-- Taking out another tree does not change what is found. -/
theorem first_removeFirst {R : L → Bool} (h : ∀ l, R l = true → P l = false) :
    (f.removeFirst R).first P = f.first P := by
  induction f with
  | nil => rfl
  | node m c n _ ih =>
    rw [removeFirst]
    split
    case isTrue hm => rw [first, if_neg (by simp [h m hm])]
    case isFalse => rw [first, first, ih]

section Everywhere

variable {Q : L → Forest L → Prop} {c : Forest L}

theorem Everywhere.mono {R : L → Forest L → Prop} (hf : f.Everywhere Q)
    (h : ∀ l c, Q l c → R l c) : f.Everywhere R := by
  induction f with
  | nil => trivial
  | node l c n ihc ihn => exact ⟨h l c hf.1, ihc hf.2.1, ihn hf.2.2⟩

theorem Everywhere.and {R : L → Forest L → Prop} (hf : f.Everywhere Q) (hr : f.Everywhere R) :
    f.Everywhere fun l c => Q l c ∧ R l c := by
  induction f with
  | nil => trivial
  | node l c n ihc ihn => exact ⟨⟨hf.1, hr.1⟩, ihc hf.2.1 hr.2.1, ihn hf.2.2 hr.2.2⟩

theorem Everywhere.append (hf : f.Everywhere Q) (hg : g.Everywhere Q) :
    (f.append g).Everywhere Q := by
  induction f with
  | nil => exact hg
  | node m c n _ ih =>
    obtain ⟨htop, hc, hn⟩ := hf
    exact ⟨htop, hc, ih hn⟩

theorem Everywhere.removeFirst (hf : f.Everywhere Q) : (f.removeFirst P).Everywhere Q := by
  induction f with
  | nil => exact hf
  | node m c n _ ih =>
    obtain ⟨htop, hc, hn⟩ := hf
    rw [Forest.removeFirst]
    split
    · exact hn
    · exact ⟨htop, hc, ih hn⟩

theorem Everywhere.first (hf : f.Everywhere Q) (h : f.first P = some (l, c)) :
    Q l c ∧ c.Everywhere Q := by
  induction f with
  | nil => cases h
  | node m d n _ ih =>
    obtain ⟨htop, hd, hn⟩ := hf
    rw [Forest.first] at h
    split at h
    · obtain ⟨rfl, rfl⟩ := Prod.mk.inj (Option.some.inj h)
      exact ⟨htop, hd⟩
    · exact ih hn h

end Everywhere

theorem first_node (hl : P l = true) (s t : Forest L) : (node l s t).first P = some (l, s) := by
  rw [first, if_pos hl]

theorem removeFirst_node (hl : P l = true) (s t : Forest L) :
    (node l s t).removeFirst P = t := by
  rw [removeFirst, if_pos hl]

end Forest

namespace Shape

variable {L : Type*} {f g : ℕ → L} {a : ℕ} {c s t : Shape} {l : L} {u : Forest L}

/-- The labels of a shape. -/
def read (f : ℕ → L) : Shape → Forest L
  | nil => .nil
  | node a c n => .node (f a) (c.read f) (n.read f)

/-- The labels of a shape, where another label and other labels below it stand at
one address. -/
def replace (f : ℕ → L) (a : ℕ) (l : L) (u : Forest L) : Shape → Forest L
  | nil => .nil
  | node b c n =>
    if b = a then .node l u (n.replace f a l u)
    else .node (f b) (c.replace f a l u) (n.replace f a l u)

theorem read_congr (h : ∀ y, 0 < t.count y → f y = g y) : t.read f = t.read g := by
  induction t with
  | nil => rfl
  | node a c n ihc ihn =>
    have htop : f a = g a := h a (by rw [count_node, if_pos rfl]; omega)
    rw [read, read, htop, ihc fun y hy => h y (by rw [count_node]; omega),
      ihn fun y hy => h y (by rw [count_node]; omega)]

@[simp] theorem read_append (s t : Shape) : (s.append t).read f = (s.read f).append (t.read f) := by
  induction s with
  | nil => rfl
  | node a c n _ ih => rw [append, read, read, ih, Forest.node_append]

@[simp] theorem labels_read (t : Shape) : (t.read f).labels = t.siblings.map f := by
  induction t with
  | nil => rfl
  | node a c n _ ih => rw [read, Forest.labels, ih, siblings, List.map_cons]

theorem replace_of_count_zero (ha : t.count a = 0) : t.replace f a l u = t.read f := by
  induction t with
  | nil => rfl
  | node b c n ihc ihn =>
    rw [count_node] at ha
    have hba : b ≠ a := by
      intro heq
      rw [if_pos heq] at ha
      omega
    rw [replace, if_neg hba, ihc (by omega), ihn (by omega), read]

/-- What holds everywhere in a shape holds at each of its nodes and below it. -/
theorem everywhere_children {Q : L → Forest L → Prop} (h : (t.read f).Everywhere Q)
    (ha : 0 < t.count a) :
    Q (f a) ((t.children a).read f) ∧ ((t.children a).read f).Everywhere Q := by
  induction t with
  | nil => cases ha
  | node b c n ihc ihn =>
    obtain ⟨htop, hc, hn⟩ := h
    rw [children]
    split
    case isTrue hba => exact hba ▸ ⟨htop, hc⟩
    case isFalse hba =>
      split
      case isTrue hpos => exact ihc hc hpos
      case isFalse hzero =>
        rw [count_node, if_neg hba] at ha
        exact ihn hn (by omega)

/-- A node with other children reads as the old shape with another tree there. -/
theorem read_setChildren (hd : t.Distinct) (ha : 0 < t.count a)
    (hkeep : ∀ y, 0 < t.count y → y ≠ a → (t.children a).count y = 0 → g y = f y) :
    (t.setChildren a c).read g = t.replace f a (g a) (c.read g) := by
  induction t with
  | nil => cases ha
  | node b d n ihd ihn =>
    rcases count_node_pos ha with rfl | ⟨hba, hpos⟩ | ⟨hba, hpos⟩
    · have hbehind : n.read g = n.replace f b (g b) (c.read g) := by
        rw [replace_of_count_zero hd.top.2]
        refine read_congr fun y hy => ?_
        obtain ⟨hby, hdy⟩ := hd.child_of_next hy
        exact hkeep y (by rw [count_node]; omega) (Ne.symm hby) (by rwa [children_top])
      rw [setChildren_top, replace, if_pos rfl, read, hbehind]
    · obtain ⟨-, hna⟩ := hd.next_of_child hpos
      rw [children_of_child hd hpos] at hkeep
      have hle := count_children_le d a
      have htop : g b = f b := by
        refine hkeep b (by rw [count_node, if_pos rfl]; omega) hba ?_
        have := hle b
        have := hd.top.1
        omega
      have hbehind : n.read g = n.read f := by
        refine read_congr fun y hy => ?_
        have hdy := (hd.child_of_next hy).2
        have := hle y
        refine hkeep y (by rw [count_node]; omega) ?_ (by omega)
        rintro rfl
        omega
      have ih := ihd hd.child hpos fun y hy => hkeep y (by rw [count_node]; omega)
      rw [setChildren_of_child hd hpos, replace, if_neg hba, read, ih, htop, hbehind,
        replace_of_count_zero hna]
    · obtain ⟨-, hda⟩ := hd.child_of_next hpos
      rw [children_of_next hd hpos] at hkeep
      have hle := count_children_le n a
      have htop : g b = f b := by
        refine hkeep b (by rw [count_node, if_pos rfl]; omega) hba ?_
        have := hle b
        have := hd.top.2
        omega
      have hbelow : d.read g = d.read f := by
        refine read_congr fun y hy => ?_
        have hny := (hd.next_of_child hy).2
        have := hle y
        refine hkeep y (by rw [count_node]; omega) ?_ (by omega)
        rintro rfl
        omega
      have ih := ihn hd.next hpos fun y hy => hkeep y (by rw [count_node]; omega)
      rw [setChildren_of_next hd hpos, replace, if_neg hba, read, ih, htop, hbelow,
        replace_of_count_zero hda]

end Shape

end BoxUtils
