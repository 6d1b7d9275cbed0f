import BoxUtils.CJsonUtils

/-!
What the cJSON functions leave alone without any assumption on the shape of the
nodes. Where the nodes from a bound on link to nodes from the bound on only, a
function that is called there changes no node before the bound.
-/
namespace BoxUtils.CJson

variable {N n : ℕ} {H H' H₁ H₂ : Nodes} {a b x : ℕ} {p q : Option ℕ} {v : CJSON}

section Bounds

def AtLeast (N : ℕ) (p : Option ℕ) : Prop := ∀ a, p = some a → N ≤ a

/-- A node with links to nodes from the bound on only. -/
structure LinksAtLeast (N : ℕ) (v : CJSON) : Prop where
  prev : AtLeast N v.prev
  next : AtLeast N v.next
  child : AtLeast N v.child

/-- The nodes from the bound on lead to such nodes only. -/
structure Confined (N : ℕ) (H : Nodes) : Prop where
  fresh : N ≤ H.fresh
  links : ∀ a v, N ≤ a → H.cell a = some v → LinksAtLeast N v

/-- No node before the bound was changed. -/
structure Beyond (N : ℕ) (H H' : Nodes) : Prop where
  confined : Confined N H'
  before : ∀ a, a < N → H'.cell a = H.cell a

theorem atLeast_none (N : ℕ) : AtLeast N none := fun _ h => by cases h

theorem atLeast_some (ha : N ≤ a) : AtLeast N (some a) := by
  rintro b h
  rwa [← Option.some.inj h]

theorem confined_fresh (H : Nodes) : Confined H.fresh H :=
  ⟨Nat.le_refl _, fun a _ ha hv => by
    rw [H.unused a ha] at hv
    cases hv⟩

theorem Beyond.refl (h : Confined N H) : Beyond N H H := ⟨h, fun _ _ => rfl⟩

theorem Beyond.trans (h₁ : Beyond N H H₁) (h₂ : Beyond N H₁ H₂) : Beyond N H H₂ :=
  ⟨h₂.confined, fun a ha => (h₂.before a ha).trans (h₁.before a ha)⟩

theorem put_beyond (h : Confined N H) (ha : N ≤ a) (hv : LinksAtLeast N v) :
    Beyond N H (H.put a v) := by
  refine ⟨⟨h.fresh, fun b u hb hu => ?_⟩, fun b hb => Heap.cell_put_of_ne H v (by omega)⟩
  by_cases hba : b = a
  · subst b
    by_cases hlt : a < H.fresh
    · rw [Heap.put] at hu
      simp only [if_pos hlt, Function.update_self] at hu
      rwa [← Option.some.inj hu]
    · rw [(H.put a v).unused a (by change H.fresh ≤ a; omega)] at hu
      cases hu
  · rw [Heap.cell_put_of_ne H v hba] at hu
    exact h.links b u hb hu

theorem modify_beyond {f : CJSON → CJSON} (h : Confined N H) (ha : N ≤ a)
    (hmodify : H.modify a f = some H') (hf : ∀ v, LinksAtLeast N v → LinksAtLeast N (f v)) :
    Beyond N H H' := by
  obtain ⟨v, hv, rfl⟩ := Option.map_eq_some_iff.mp hmodify
  exact put_beyond h ha (hf v (h.links a v ha hv))

theorem modifyPointer_beyond {f : CJSON → CJSON} (h : Confined N H) (hp : AtLeast N p)
    (hmodify : modifyPointer H p f = some H')
    (hf : ∀ v, LinksAtLeast N v → LinksAtLeast N (f v)) : Beyond N H H' := by
  cases p with
  | none =>
    obtain rfl := Option.some.inj hmodify
    exact Beyond.refl h
  | some a => exact modify_beyond h (hp a rfl) hmodify hf

theorem newItem_beyond (h : Confined N H) (hv : LinksAtLeast N v) :
    Beyond N H (newItem H v).1 ∧ N ≤ (newItem H v).2 := by
  have hfresh := h.fresh
  refine ⟨⟨⟨Nat.le_succ_of_le hfresh, fun b u hb hu => ?_⟩, fun b hb => ?_⟩, hfresh⟩
  · by_cases hbf : b = H.fresh
    · subst b
      rw [newItem, Heap.cell_alloc_self] at hu
      rwa [← Option.some.inj hu]
    · rw [newItem, Heap.cell_alloc_of_ne H v hbf] at hu
      exact h.links b u hb hu
  · exact Heap.cell_alloc_of_ne H v (by omega)

end Bounds

section Links

theorem suffixObject_beyond (h : Confined N H) (hp : AtLeast N p) (hb : N ≤ b)
    (hsuffix : suffixObject H p b = some H') : Beyond N H H' := by
  obtain ⟨a, rfl, hsuffix⟩ := Option.bind_eq_some_iff.mp hsuffix
  obtain ⟨H₁, h₁, h₂⟩ := Option.bind_eq_some_iff.mp hsuffix
  have hbeyond := modify_beyond h (hp a rfl) h₁ fun v hv => ⟨hv.prev, atLeast_some hb, hv.child⟩
  exact hbeyond.trans
    (modify_beyond hbeyond.confined hb h₂ fun v hv => ⟨hp, hv.next, hv.child⟩)

theorem crosswire_beyond (h : Confined N H) (ha : N ≤ a) (hp : AtLeast N p) (hb : N ≤ b)
    (hwire : crosswire H a p b = some H') : Beyond N H H' := by
  cases p with
  | none => exact modify_beyond h ha hwire fun v hv => ⟨hv.prev, hv.next, atLeast_some hb⟩
  | some l => exact suffixObject_beyond h hp hb hwire

theorem lastSibling_atLeast (h : Confined N H) (ha : N ≤ a)
    (hlast : lastSibling H n a = some b) : N ≤ b := by
  induction n generalizing a with
  | zero => cases hlast
  | succ n ih =>
    obtain ⟨v, hv, hlast⟩ := Option.bind_eq_some_iff.mp hlast
    cases hnext : v.next with
    | none =>
      rw [hnext] at hlast
      rwa [← Option.some.inj hlast]
    | some d =>
      rw [hnext] at hlast
      exact ih ((h.links a v ha hv).next d hnext) hlast

theorem addItemToArray_beyond {ok : Bool} (h : Confined N H) (ha : N ≤ a) (hb : N ≤ b)
    (hadd : addItemToArray H (some a) (some b) = some (H', ok)) : Beyond N H H' := by
  obtain ⟨v, hv, hadd⟩ := Option.bind_eq_some_iff.mp hadd
  cases hchild : v.child with
  | none =>
    rw [hchild] at hadd
    obtain ⟨H₁, h₁, h₂⟩ := Option.bind_eq_some_iff.mp hadd
    obtain ⟨rfl, -⟩ := Prod.mk.inj (Option.some.inj h₂)
    exact modify_beyond h ha h₁ fun v hv => ⟨hv.prev, hv.next, atLeast_some hb⟩
  | some d =>
    rw [hchild] at hadd
    obtain ⟨l, hl, hadd⟩ := Option.bind_eq_some_iff.mp hadd
    obtain ⟨H₁, h₁, h₂⟩ := Option.bind_eq_some_iff.mp hadd
    obtain ⟨rfl, -⟩ := Prod.mk.inj (Option.some.inj h₂)
    have hd := (h.links a v ha hv).child d hchild
    exact suffixObject_beyond h (atLeast_some (lastSibling_atLeast h hd hl)) hb h₁

theorem addItemToObject_beyond {ok : Bool} {string : Option Text} (h : Confined N H)
    (hp : AtLeast N p) (hb : N ≤ b)
    (hadd : addItemToObject H p string (some b) false = some (H', ok)) : Beyond N H H' := by
  cases p with
  | none =>
    obtain ⟨rfl, -⟩ := Prod.mk.inj (Option.some.inj hadd)
    exact Beyond.refl h
  | some a =>
    cases string with
    | none =>
      obtain ⟨rfl, -⟩ := Prod.mk.inj (Option.some.inj hadd)
      exact Beyond.refl h
    | some key =>
      obtain ⟨v, hv, hadd⟩ := Option.bind_eq_some_iff.mp hadd
      have hlinks := h.links b v hb hv
      have hput := put_beyond h hb (v := Json.withName v key)
        ⟨hlinks.prev, hlinks.next, hlinks.child⟩
      exact hput.trans (addItemToArray_beyond hput.confined (hp a rfl) hb hadd)

theorem detachItemViaPointer_beyond (h : Confined N H) (hp : AtLeast N p) (hq : AtLeast N q)
    {r : Option ℕ} (hdetach : detachItemViaPointer H p q = some (H', r)) :
    Beyond N H H' ∧ AtLeast N r := by
  cases p with
  | none =>
    obtain ⟨rfl, rfl⟩ := Prod.mk.inj (Option.some.inj hdetach)
    exact ⟨Beyond.refl h, atLeast_none N⟩
  | some a =>
    cases q with
    | none =>
      obtain ⟨rfl, rfl⟩ := Prod.mk.inj (Option.some.inj hdetach)
      exact ⟨Beyond.refl h, atLeast_none N⟩
    | some x =>
      have hx := hq x rfl
      obtain ⟨v, hv, hdetach⟩ := Option.bind_eq_some_iff.mp hdetach
      obtain ⟨H₁, h₁, hdetach⟩ := Option.bind_eq_some_iff.mp hdetach
      obtain ⟨v₁, hv₁, hdetach⟩ := Option.bind_eq_some_iff.mp hdetach
      obtain ⟨H₂, h₂, hdetach⟩ := Option.bind_eq_some_iff.mp hdetach
      obtain ⟨v₂, hv₂, hdetach⟩ := Option.bind_eq_some_iff.mp hdetach
      obtain ⟨H₃, h₃, hdetach⟩ := Option.bind_eq_some_iff.mp hdetach
      obtain ⟨H₄, h₄, hdetach⟩ := Option.bind_eq_some_iff.mp hdetach
      obtain ⟨rfl, rfl⟩ := Prod.mk.inj (Option.some.inj hdetach)
      have hl := h.links x v hx hv
      have hb₁ := modifyPointer_beyond h hl.prev h₁ fun u hu => ⟨hu.prev, hl.next, hu.child⟩
      have hl₁ := hb₁.confined.links x v₁ hx hv₁
      have hb₂ := modifyPointer_beyond hb₁.confined hl₁.next h₂ fun u hu =>
        ⟨hl₁.prev, hu.next, hu.child⟩
      have hl₂ := hb₂.confined.links x v₂ hx hv₂
      have hb₃ := modify_beyond hb₂.confined (hp a rfl) h₃ fun u hu => by
        split
        · exact ⟨hu.prev, hu.next, hl₂.next⟩
        · exact hu
      have hb₄ := modify_beyond hb₃.confined hx h₄ fun u hu =>
        ⟨atLeast_none N, atLeast_none N, hu.child⟩
      exact ⟨((hb₁.trans hb₂).trans hb₃).trans hb₄, hq⟩

end Links

section LookUp

variable {string : Option Text} {caseSensitive : Bool} {r : Option ℕ}

theorem seek_atLeast {goOn : CJSON → Option Bool} (h : Confined N H) (hp : AtLeast N p)
    (hseek : seek H goOn n p = some q) : AtLeast N q := by
  induction n generalizing p with
  | zero =>
    cases p with
    | none =>
      rw [← Option.some.inj hseek]
      exact atLeast_none N
    | some a => cases hseek
  | succ n ih =>
    cases p with
    | none =>
      rw [← Option.some.inj hseek]
      exact atLeast_none N
    | some a =>
      obtain ⟨v, hv, hseek⟩ := Option.bind_eq_some_iff.mp hseek
      obtain ⟨go, -, hseek⟩ := Option.bind_eq_some_iff.mp hseek
      split at hseek
      · exact ih (h.links a v (hp a rfl) hv).next hseek
      · rw [← Option.some.inj hseek]
        exact hp

theorem getObjectItem_atLeast (h : Confined N H) (hp : AtLeast N p)
    (hget : getObjectItem H p string caseSensitive = some q) : AtLeast N q := by
  cases p with
  | none =>
    rw [← Option.some.inj hget]
    exact atLeast_none N
  | some a =>
    cases string with
    | none =>
      rw [← Option.some.inj hget]
      exact atLeast_none N
    | some key =>
      obtain ⟨v, hv, hget⟩ := Option.bind_eq_some_iff.mp hget
      obtain ⟨current, hseek, hget⟩ := Option.bind_eq_some_iff.mp hget
      have hcurrent := seek_atLeast h (h.links a v (hp a rfl) hv).child hseek
      cases current with
      | none =>
        rw [← Option.some.inj hget]
        exact atLeast_none N
      | some x =>
        obtain ⟨w, -, hget⟩ := Option.bind_eq_some_iff.mp hget
        rw [← Option.some.inj hget]
        split
        · exact atLeast_none N
        · exact hcurrent

/-- The two functions that cut out a member, as the merge patch chooses between them. -/
theorem detachItem_beyond (h : Confined N H) (hp : AtLeast N p)
    (hdetach : (if caseSensitive then detachItemFromObjectCaseSensitive H p string
      else detachItemFromObject H p string) = some (H', r)) : Beyond N H H' ∧ AtLeast N r := by
  cases caseSensitive with
  | true =>
    obtain ⟨q, hget, hdetach⟩ := Option.bind_eq_some_iff.mp hdetach
    exact detachItemViaPointer_beyond h hp (getObjectItem_atLeast h hp hget) hdetach
  | false =>
    obtain ⟨q, hget, hdetach⟩ := Option.bind_eq_some_iff.mp hdetach
    exact detachItemViaPointer_beyond h hp (getObjectItem_atLeast h hp hget) hdetach

end LookUp

section Whole

variable {string : Option Text} {caseSensitive recurse : Bool} {r : Option ℕ}

theorem free_beyond (h : Confined N H) (ha : N ≤ a) (hfree : H.free a = some H') :
    Beyond N H H' := by
  obtain ⟨v, -, rfl⟩ := Option.map_eq_some_iff.mp hfree
  exact ⟨⟨h.fresh, fun b u hb hu => h.links b u hb (Heap.cell_of_erase hu).2⟩,
    fun b hb => Heap.cell_erase_of_ne H (by omega)⟩

theorem delete_beyond (h : Confined N H) (hp : AtLeast N p) (hdelete : delete n H p = some H') :
    Beyond N H H' := by
  induction n generalizing H H' p with
  | zero =>
    cases p with
    | none =>
      rw [← Option.some.inj hdelete]
      exact Beyond.refl h
    | some a => cases hdelete
  | succ n ih =>
    cases p with
    | none =>
      rw [← Option.some.inj hdelete]
      exact Beyond.refl h
    | some a =>
      have ha := hp a rfl
      obtain ⟨v, hv, hdelete⟩ := Option.bind_eq_some_iff.mp hdelete
      obtain ⟨H₁, h₁, hdelete⟩ := Option.bind_eq_some_iff.mp hdelete
      obtain ⟨H₂, h₂, hdelete⟩ := Option.bind_eq_some_iff.mp hdelete
      have hlinks := h.links a v ha hv
      have hb₁ : Beyond N H H₁ := by
        split at h₁
        · rw [← Option.some.inj h₁]
          exact Beyond.refl h
        · exact ih h hlinks.child h₁
      have hb₂ := free_beyond hb₁.confined ha h₂
      exact (hb₁.trans hb₂).trans (ih hb₂.confined hlinks.next hdelete)

theorem deleteItem_beyond (h : Confined N H) (hp : AtLeast N p)
    (hdelete : (if caseSensitive then deleteItemFromObjectCaseSensitive H p string
      else deleteItemFromObject H p string) = some H') : Beyond N H H' := by
  obtain ⟨H₁, q, hdetach, hdelete⟩ : ∃ H₁ q,
      (if caseSensitive then detachItemFromObjectCaseSensitive H p string
        else detachItemFromObject H p string) = some (H₁, q) ∧
      delete H₁.fresh H₁ q = some H' := by
    cases caseSensitive with
    | true =>
      obtain ⟨⟨H₁, q⟩, hdetach, hdelete⟩ := Option.bind_eq_some_iff.mp hdelete
      exact ⟨H₁, q, hdetach, hdelete⟩
    | false =>
      obtain ⟨⟨H₁, q⟩, hdetach, hdelete⟩ := Option.bind_eq_some_iff.mp hdelete
      exact ⟨H₁, q, hdetach, hdelete⟩
  obtain ⟨hb₁, hq⟩ := detachItem_beyond h hp hdetach
  exact hb₁.trans (delete_beyond hb₁.confined hq hdelete)

/-- With n rounds copies are made beyond the bound. -/
def DuplicatesBeyond (N n : ℕ) : Prop :=
  ∀ {H H' : Nodes} {p r : Option ℕ} {recurse : Bool}, Confined N H →
    duplicate n H p recurse = some (H', r) → Beyond N H H' ∧ AtLeast N r

def DuplicatesChildrenBeyond (N n : ℕ) : Prop :=
  ∀ {H H' : Nodes} {b : ℕ} {l p : Option ℕ}, Confined N H → N ≤ b → AtLeast N l →
    duplicateChildren n H b l p = some H' → Beyond N H H'

theorem duplicate_null (h : Confined N H)
    (hdup : duplicate n H none recurse = some (H', r)) : Beyond N H H' ∧ AtLeast N r := by
  cases n with
  | zero =>
    obtain ⟨rfl, rfl⟩ := Prod.mk.inj (Option.some.inj hdup)
    exact ⟨Beyond.refl h, atLeast_none N⟩
  | succ n =>
    obtain ⟨rfl, rfl⟩ := Prod.mk.inj (Option.some.inj hdup)
    exact ⟨Beyond.refl h, atLeast_none N⟩

theorem duplicateChildren_null {l : Option ℕ} (h : Confined N H)
    (hdup : duplicateChildren n H b l none = some H') : Beyond N H H' := by
  cases n with
  | zero =>
    rw [← Option.some.inj hdup]
    exact Beyond.refl h
  | succ n =>
    rw [← Option.some.inj hdup]
    exact Beyond.refl h

theorem duplicatesBeyond_succ (ih : DuplicatesChildrenBeyond N n) :
    DuplicatesBeyond N (n + 1) := by
  intro H H' p r recurse h hdup
  cases p with
  | none => exact duplicate_null h hdup
  | some a =>
    obtain ⟨v, -, hdup⟩ := Option.bind_eq_some_iff.mp hdup
    obtain ⟨H₂, h₂, hdup⟩ := Option.bind_eq_some_iff.mp hdup
    obtain ⟨rfl, rfl⟩ := Prod.mk.inj (Option.some.inj hdup)
    obtain ⟨hb₁, hnew⟩ := newItem_beyond h (v :=
      { type := v.type &&& ~~~cJSONIsReference, valueint := v.valueint,
        valuedouble := v.valuedouble, valuestring := v.valuestring, string := v.string })
      ⟨atLeast_none N, atLeast_none N, atLeast_none N⟩
    refine ⟨?_, atLeast_some hnew⟩
    split at h₂
    · exact hb₁.trans (ih hb₁.confined hnew (atLeast_none N) h₂)
    · rw [← Option.some.inj h₂]
      exact hb₁

theorem duplicatesChildrenBeyond_succ (ihdup : DuplicatesBeyond N n)
    (ih : DuplicatesChildrenBeyond N n) : DuplicatesChildrenBeyond N (n + 1) := by
  intro H H' b l p h hb hl hdup
  cases p with
  | none => exact duplicateChildren_null h hdup
  | some a =>
    obtain ⟨⟨H₁, q⟩, h₁, hdup⟩ := Option.bind_eq_some_iff.mp hdup
    obtain ⟨d, hq, hdup⟩ := Option.bind_eq_some_iff.mp hdup
    obtain ⟨H₂, h₂, hdup⟩ := Option.bind_eq_some_iff.mp hdup
    obtain ⟨v, -, hdup⟩ := Option.bind_eq_some_iff.mp hdup
    obtain ⟨hb₁, hd⟩ := ihdup h h₁
    have hb₂ := crosswire_beyond hb₁.confined hb hl (hd d hq) h₂
    rw [hq] at hd
    exact (hb₁.trans hb₂).trans (ih hb₂.confined hb hd hdup)

theorem duplicate_beyond (N n : ℕ) : DuplicatesBeyond N n ∧ DuplicatesChildrenBeyond N n := by
  induction n with
  | zero =>
    refine ⟨fun {H H' p r recurse} h hdup => ?_, fun {H H' b l p} h _ _ hdup => ?_⟩
    · cases p with
      | none => exact duplicate_null h hdup
      | some a => cases hdup
    · cases p with
      | none => exact duplicateChildren_null h hdup
      | some a => cases hdup
  | succ n ih =>
    exact ⟨duplicatesBeyond_succ ih.2, duplicatesChildrenBeyond_succ ih.1 ih.2⟩

end Whole

section Merging

variable {r : Option ℕ} {caseSensitive : Bool}

/-- With n rounds a target beyond the bound is merged there, whatever the patch is. -/
def MergesBeyond (N : ℕ) (caseSensitive : Bool) (n : ℕ) : Prop :=
  ∀ {H H' : Nodes} {p q r : Option ℕ}, Confined N H → AtLeast N p →
    mergePatch n H p q caseSensitive = some (H', r) → Beyond N H H' ∧ AtLeast N r

def MergesChildrenBeyond (N : ℕ) (caseSensitive : Bool) (n : ℕ) : Prop :=
  ∀ {H H' : Nodes} {p q r : Option ℕ}, Confined N H → AtLeast N p →
    mergeChildren n H p q caseSensitive = some (H', r) → Beyond N H H' ∧ AtLeast N r

theorem mergeTarget_beyond (h : Confined N H) (hp : AtLeast N p)
    (htarget : mergeTarget H p = some (H', r)) : Beyond N H H' ∧ AtLeast N r := by
  obtain ⟨object, -, htarget⟩ := Option.bind_eq_some_iff.mp htarget
  split at htarget
  · obtain ⟨rfl, rfl⟩ := Prod.mk.inj (Option.some.inj htarget)
    exact ⟨Beyond.refl h, hp⟩
  · obtain ⟨H₁, h₁, htarget⟩ := Option.bind_eq_some_iff.mp htarget
    obtain ⟨rfl, rfl⟩ := Prod.mk.inj (Option.some.inj htarget)
    have hb₁ := delete_beyond h hp h₁
    obtain ⟨hb₂, hnew⟩ := newItem_beyond hb₁.confined (v := { type := cJSONObject })
      ⟨atLeast_none N, atLeast_none N, atLeast_none N⟩
    exact ⟨hb₁.trans hb₂, atLeast_some hnew⟩

theorem mergesBeyond_succ (ih : MergesChildrenBeyond N caseSensitive n) :
    MergesBeyond N caseSensitive (n + 1) := by
  intro H H' p q r h hp hmerge
  obtain ⟨object, -, hmerge⟩ := Option.bind_eq_some_iff.mp hmerge
  split at hmerge
  · obtain ⟨H₁, h₁, hmerge⟩ := Option.bind_eq_some_iff.mp hmerge
    have hb₁ := delete_beyond h hp h₁
    obtain ⟨hb₂, hr⟩ := (duplicate_beyond N _).1 hb₁.confined hmerge
    exact ⟨hb₁.trans hb₂, hr⟩
  · obtain ⟨⟨H₁, t⟩, h₁, hmerge⟩ := Option.bind_eq_some_iff.mp hmerge
    obtain ⟨x, -, hmerge⟩ := Option.bind_eq_some_iff.mp hmerge
    obtain ⟨w, -, hmerge⟩ := Option.bind_eq_some_iff.mp hmerge
    obtain ⟨hb₁, ht⟩ := mergeTarget_beyond h hp h₁
    obtain ⟨hb₂, hr⟩ := ih hb₁.confined ht hmerge
    exact ⟨hb₁.trans hb₂, hr⟩

theorem mergeChildren_null_beyond (h : Confined N H) (hp : AtLeast N p)
    (hmerge : mergeChildren n H p none caseSensitive = some (H', r)) :
    Beyond N H H' ∧ AtLeast N r := by
  cases n with
  | zero =>
    obtain ⟨rfl, rfl⟩ := Prod.mk.inj (Option.some.inj hmerge)
    exact ⟨Beyond.refl h, hp⟩
  | succ n =>
    obtain ⟨rfl, rfl⟩ := Prod.mk.inj (Option.some.inj hmerge)
    exact ⟨Beyond.refl h, hp⟩

theorem mergesChildrenBeyond_succ (ihmerge : MergesBeyond N caseSensitive n)
    (ih : MergesChildrenBeyond N caseSensitive n) :
    MergesChildrenBeyond N caseSensitive (n + 1) := by
  intro H H' p q r h hp hmerge
  cases q with
  | none => exact mergeChildren_null_beyond h hp hmerge
  | some x =>
    obtain ⟨null, -, hmerge⟩ := Option.bind_eq_some_iff.mp hmerge
    split at hmerge
    · obtain ⟨w, -, hmerge⟩ := Option.bind_eq_some_iff.mp hmerge
      obtain ⟨H₁, h₁, hmerge⟩ := Option.bind_eq_some_iff.mp hmerge
      obtain ⟨w₁, -, hmerge⟩ := Option.bind_eq_some_iff.mp hmerge
      have hb₁ := deleteItem_beyond h hp h₁
      obtain ⟨hb₂, hr⟩ := ih hb₁.confined hp hmerge
      exact ⟨hb₁.trans hb₂, hr⟩
    · obtain ⟨w, -, hmerge⟩ := Option.bind_eq_some_iff.mp hmerge
      obtain ⟨⟨H₁, old⟩, h₁, hmerge⟩ := Option.bind_eq_some_iff.mp hmerge
      obtain ⟨⟨H₂, replacement⟩, h₂, hmerge⟩ := Option.bind_eq_some_iff.mp hmerge
      obtain ⟨hb₁, hold⟩ := detachItem_beyond h hp h₁
      obtain ⟨hb₂, hreplacement⟩ := ihmerge hb₁.confined hold h₂
      cases replacement with
      | none =>
        obtain ⟨rfl, rfl⟩ := Prod.mk.inj (Option.some.inj hmerge)
        exact ⟨hb₁.trans hb₂, atLeast_none N⟩
      | some b =>
        obtain ⟨w₂, -, hmerge⟩ := Option.bind_eq_some_iff.mp hmerge
        obtain ⟨⟨H₃, ok⟩, h₃, hmerge⟩ := Option.bind_eq_some_iff.mp hmerge
        obtain ⟨w₃, -, hmerge⟩ := Option.bind_eq_some_iff.mp hmerge
        have hb₃ := addItemToObject_beyond hb₂.confined hp (hreplacement b rfl) h₃
        obtain ⟨hb₄, hr⟩ := ih hb₃.confined hp hmerge
        exact ⟨((hb₁.trans hb₂).trans hb₃).trans hb₄, hr⟩

theorem mergePatch_beyond (N : ℕ) (caseSensitive : Bool) (n : ℕ) :
    MergesBeyond N caseSensitive n ∧ MergesChildrenBeyond N caseSensitive n := by
  induction n with
  | zero =>
    refine ⟨fun {H H' p q r} _ _ hmerge => ?_, fun {H H' p q r} h hp hmerge => ?_⟩
    · cases hmerge
    · cases q with
      | none => exact mergeChildren_null_beyond h hp hmerge
      | some x => cases hmerge
  | succ n ih => exact ⟨mergesBeyond_succ ih.2, mergesChildrenBeyond_succ ih.1 ih.2⟩

end Merging

end BoxUtils.CJson
