import BoxUtils.CJsonLinks
import BoxUtils.Json

/-!
The three ways of finding a key. `has` and `pop` compare names as they are and
stop at a child without a name, the operator `[]` compares them up to the case
of letters and passes over such a child. They agree on a key exactly when the
first child at which any of them could stop has that key as its name.
-/
namespace BoxUtils.Json

open CJson LinkedShapes

/-- A holder of an object with the given children. -/
def ObjectWith (H : Nodes) (holder : JsonHolder) (children : List ℕ) : Prop :=
  ∃ o v, holder.cjson = some o ∧ H.cell o = some v ∧ v.kind = cJSONObject ∧
    Chain H none v.child children none

/-- What the look-ups say about one key. -/
structure Agree (H : Nodes) (holder : JsonHolder) (key : Text) : Prop where
  has_defined : has H holder key ≠ .undefined
  has_iff : has H holder key = .value true ↔ lookUp H holder key ≠ .throws (.keyError key)
  pop_iff : lookUp H holder key ≠ .throws (.keyError key) ↔
    popKey H holder key ≠ .throws (.keyError key)
  same : ∀ child H' child', lookUp H holder key = .value child →
    popKey H holder key = .value (H', child') → child'.cjson = child.cjson

def lower (name : Text) : List UInt8 := name.1.map tolower

/-- A child without a name, or with a name that is the key up to case. -/
def nearKey (H : Nodes) (key : Text) (a : ℕ) : Bool :=
  (nameOf H a).all fun name => lower name = lower key

/-- The first child that has no name or a name equal to the key up to case, if
there is one, has exactly this key as its name. -/
def FirstExact (H : Nodes) (children : List ℕ) (key : Text) : Prop :=
  ∀ a, children.find? (nearKey H key) = some a → nameOf H a = some key

section Names

theorem tolower_ne_zero {c : UInt8} (hc : c ≠ 0) : tolower c ≠ 0 := by
  unfold tolower
  split
  case isTrue hletter =>
    intro h
    have hnat := congrArg UInt8.toNat h
    simp only [UInt8.le_iff_toNat_le, UInt8.toNat_add, UInt8.reduceToNat] at hletter hnat
    omega
  case isFalse => exact hc

theorem tolower_toNat_pos {c : UInt8} (hc : c ≠ 0) : 0 < (tolower c).toNat := by
  have hne := tolower_ne_zero hc
  have : (tolower c).toNat ≠ 0 := fun h => hne (UInt8.toNat_inj.mp h)
  omega

theorem compareLower_eq_zero_iff {s t : List UInt8} (hs : 0 ∉ s) (ht : 0 ∉ t) :
    compareLower s t = 0 ↔ s.map tolower = t.map tolower := by
  induction s generalizing t with
  | nil =>
    cases t with
    | nil => simp [compareLower]
    | cons b t =>
      have := tolower_toNat_pos (c := b) fun h => ht (by simp [h])
      simp only [compareLower, List.map_nil, List.map_cons, List.nil_eq, reduceCtorEq, iff_false]
      omega
  | cons a s ih =>
    cases t with
    | nil =>
      have := tolower_toNat_pos (c := a) fun h => hs (by simp [h])
      simp only [compareLower, List.map_nil, List.map_cons, reduceCtorEq, iff_false]
      omega
    | cons b t =>
      have ih' := ih (t := t) (fun h => hs (List.mem_cons_of_mem _ h))
        fun h => ht (List.mem_cons_of_mem _ h)
      by_cases hab : tolower a = tolower b
      · simp [compareLower, hab, ih']
      · have : (tolower a).toNat ≠ (tolower b).toNat := fun h => hab (UInt8.toNat_inj.mp h)
        rw [compareLower, if_neg hab]
        simp only [List.map_cons, List.cons.injEq, hab, false_and, iff_false]
        omega

theorem caseInsensitiveStrcmp_eq_zero_iff (s t : Text) :
    caseInsensitiveStrcmp (some s) (some t) = 0 ↔ lower s = lower t :=
  compareLower_eq_zero_iff s.2 t.2

end Names

section Results

variable {H : Nodes} {holder : JsonHolder} {children : List ℕ} {key : Text}

theorem checkIsObject_eq {o : ℕ} {v : CJSON} (ho : holder.cjson = some o) (hv : H.cell o = some v)
    (hkind : v.kind = cJSONObject) : checkIsObject H holder = .value () := by
  simp [checkIsObject, checkKind, deref, ho, hv, hkind]

theorem has_eq (h : ObjectWith H holder children) (key : Text) :
    has H holder key =
      match children.find? fun a => stops key true (nameOf H a) with
      | none => .value false
      | some a => if nameOf H a = none then .undefined else .value true := by
  obtain ⟨o, v, ho, hv, hkind, hchain⟩ := h
  have hstop : ∀ a ∈ children,
      decide ((H.cell a).bind (fun c => c.string.map fun name => decide (name ≠ key)) ≠
        some true) = stops key true (nameOf H a) := by
    intro a ha
    obtain ⟨u, hu⟩ := hchain.live ha
    rw [nameOf_eq hu, hu, stops]
    cases hname : u.string <;> simp [hname]
  have hseek := seek_eq (fun c => c.string.map fun name => decide (name ≠ key)) hchain
    hchain.length_le
  rw [List.find?_congr hstop] at hseek
  simp only [has, checkIsObject_eq ho hv hkind, Outcome.value_bind, deref, ho, hv,
    Option.bind_eq_bind, Option.bind_some, Outcome.lift_some, Outcome.pure_eq]
  rw [if_neg (by simp), hseek]
  cases hfind : children.find? fun a => stops key true (nameOf H a) with
  | none => rfl
  | some a =>
    obtain ⟨u, hu⟩ := hchain.live (List.mem_of_find?_eq_some hfind)
    simp only [hu, nameOf_eq hu, Option.bind_some]
    cases u.string <;> rfl

theorem lookUp_eq (h : ObjectWith H holder children) (key : Text) :
    lookUp H holder key =
      match children.find? fun a => stops key false (nameOf H a) with
      | none => .throws (.keyError key)
      | some a => .value ⟨some a, true⟩ := by
  obtain ⟨o, v, ho, hv, hkind, hchain⟩ := h
  simp only [lookUp, checkIsObject_eq ho hv hkind, Outcome.value_bind, ho,
    getObjectItem_eq hv hchain, Outcome.lift_some]
  cases hfind : children.find? fun a => stops key false (nameOf H a) with
  | none => rfl
  | some a =>
    have hstop := List.find?_some hfind
    cases hname : nameOf H a with
    | none => simp [hname, stops, caseInsensitiveStrcmp] at hstop
    | some name => simp [Option.filter, hname]

/-- `pop` takes the first child with this very name, if no child without a name
comes first. -/
theorem popKey_eq (h : ObjectWith H holder children) (key : Text) :
    match children.find? fun a => stops key true (nameOf H a) with
    | none => popKey H holder key = .throws (.keyError key)
    | some a =>
      if nameOf H a = none then popKey H holder key = .throws (.keyError key)
      else ∃ H', popKey H holder key = .value (H', ⟨some a, false⟩) := by
  obtain ⟨o, v, ho, hv, hkind, hchain⟩ := h
  simp only [popKey, checkIsObject_eq ho hv hkind, Outcome.value_bind, if_true,
    detachItemFromObjectCaseSensitive, ho, getObjectItem_eq hv hchain, Option.bind_eq_bind,
    Option.bind_some]
  cases hfind : children.find? fun a => stops key true (nameOf H a) with
  | none => rfl
  | some a =>
    have hmem := List.mem_of_find?_eq_some hfind
    obtain ⟨u, hu⟩ := hchain.live hmem
    obtain ⟨hprev, hnext⟩ := neighbours_live hchain hmem hu
    obtain ⟨H', hdetach, -⟩ :=
      detachItemViaPointer_detaches (o := o) (by simp [hv]) hu hprev hnext
    cases hname : nameOf H a with
    | none => simp [Option.filter, hname, detachItemViaPointer]
    | some name => simp [Option.filter, hname, hdetach]

/-- A search for less stops at the same child, if it may stop there. -/
theorem find?_of_imp {α : Type} {p q : α → Bool} {l : List α} {a : α}
    (hpq : ∀ b, p b → q b) (hq : l.find? q = some a) (ha : p a) : l.find? p = some a := by
  obtain ⟨-, before, behind, rfl, hbefore⟩ := List.find?_eq_some_iff_append.mp hq
  refine List.find?_eq_some_iff_append.mpr ⟨ha, before, behind, rfl, fun b hb => ?_⟩
  have := hbefore b hb
  cases hpb : p b with
  | false => rfl
  | true => simp [hpq b hpb] at this

/-- Every search stops near the key only. -/
theorem nearKey_of_stops (caseSensitive : Bool) (a : ℕ)
    (h : stops key caseSensitive (nameOf H a)) : nearKey H key a := by
  unfold nearKey
  cases hname : nameOf H a with
  | none => rfl
  | some name =>
    rw [hname] at h
    cases caseSensitive with
    | true => simp_all [stops]
    | false =>
      simp only [stops, Bool.false_eq_true, if_false, decide_eq_true_eq,
        caseInsensitiveStrcmp_eq_zero_iff] at h
      simp [h]

/-- Where the look-ups agree, the first child near the key carries it exactly. -/
theorem Agree.firstExact (hagree : Agree H holder key) (h : ObjectWith H holder children) :
    FirstExact H children key := by
  have hhas := has_eq h key
  have hlook := lookUp_eq h key
  have hpop := popKey_eq h key
  intro a hnear
  have hstop := List.find?_some hnear
  unfold nearKey at hstop
  cases hname : nameOf H a with
  | none =>
    -- `has` would compare a name that is not there
    rw [find?_of_imp (nearKey_of_stops true) hnear (by simp [hname, stops])] at hhas
    exact absurd (hhas.trans (by simp [hname])) hagree.has_defined
  | some name =>
    rw [hname, Option.all_some, decide_eq_true_eq] at hstop
    rw [find?_of_imp (nearKey_of_stops false) hnear
      (by simp [hname, stops, caseInsensitiveStrcmp_eq_zero_iff, hstop])] at hlook
    have hthrow : lookUp H holder key ≠ .throws (.keyError key) := by simp [hlook]
    rw [hagree.has_iff.mpr hthrow] at hhas
    cases hfind : children.find? fun a => stops key true (nameOf H a) with
    | none => simp [hfind] at hhas
    | some e =>
      have hexact := List.find?_some hfind
      simp only [hfind] at hhas hpop
      cases hename : nameOf H e with
      | none => simp [hename] at hhas
      | some ename =>
        rw [hename, if_neg (by simp)] at hpop
        obtain ⟨H', hpop⟩ := hpop
        obtain rfl : e = a := Option.some.inj (hagree.same _ _ _ hlook hpop)
        obtain rfl : ename = key := by simpa [stops, hename] using hexact
        rw [← hname, hename]

/-- Where the first child near the key carries it exactly, every look-up takes that child. -/
theorem FirstExact.agree (hfirst : FirstExact H children key) (h : ObjectWith H holder children) :
    Agree H holder key := by
  have hhas := has_eq h key
  have hlook := lookUp_eq h key
  have hpop := popKey_eq h key
  cases hnear : children.find? (nearKey H key) with
  | none =>
    have hnone : ∀ caseSensitive,
        children.find? (fun a => stops key caseSensitive (nameOf H a)) = none := by
      intro caseSensitive
      refine List.find?_eq_none.mpr fun a ha hstop => ?_
      exact List.find?_eq_none.mp hnear a ha (nearKey_of_stops caseSensitive a hstop)
    simp only [hnone] at hhas hlook hpop
    exact ⟨by simp [hhas], by simp [hhas, hlook], by simp [hlook, hpop], by simp [hlook]⟩
  | some a =>
    have hname := hfirst a hnear
    have hsome : ∀ caseSensitive,
        children.find? (fun a => stops key caseSensitive (nameOf H a)) = some a := by
      intro caseSensitive
      refine find?_of_imp (nearKey_of_stops caseSensitive) hnear ?_
      cases caseSensitive <;> simp [stops, hname, caseInsensitiveStrcmp_eq_zero_iff]
    simp only [hsome, hname] at hhas hlook hpop
    obtain ⟨H', hpop⟩ := hpop
    exact ⟨by simp [hhas], by simp [hhas, hlook], by simp [hlook, hpop], by simp_all⟩

/-- The look-ups agree on a key if and only if the first child that could be taken
for it carries it exactly. -/
theorem agree_iff (h : ObjectWith H holder children) (key : Text) :
    Agree H holder key ↔ FirstExact H children key :=
  ⟨fun hagree => hagree.firstExact h, fun hfirst => hfirst.agree h⟩

end Results

/-- An object whose only child has the given name. -/
def oneChild (name : Text) : Nodes :=
  (newItem (newItem Heap.empty { type := cJSONObject, child := some 1 }).1
    { type := cJSONNull, string := some name }).1

theorem oneChild_object (name : Text) : ObjectWith (oneChild name) ⟨some 0, false⟩ [1] :=
  ⟨0, { type := cJSONObject, child := some 1 }, rfl,
    by simp [oneChild, newItem, Heap.alloc, Heap.empty], by decide, rfl,
    { type := cJSONNull, string := some name },
    by simp [oneChild, newItem, Heap.alloc, Heap.empty], rfl, rfl⟩

theorem agree_on_only_key :
    Agree (oneChild ⟨[65], by decide⟩) ⟨some 0, false⟩ ⟨[65], by decide⟩ :=
  (agree_iff (oneChild_object _) _).mpr fun a ha => by
    obtain rfl : 1 = a := Option.some.inj ha
    decide

/-- The key "a" is found in an object with the key "A" by the operator only. -/
theorem look_ups_disagree :
    ¬ ∀ (H : Nodes) (holder : JsonHolder) (children : List ℕ) (key : Text),
      ObjectWith H holder children → Agree H holder key := by
  intro h
  have hagree := h (oneChild ⟨[65], by decide⟩) ⟨some 0, false⟩ [1] ⟨[97], by decide⟩
    (oneChild_object _)
  have hfound : lookUp (oneChild ⟨[65], by decide⟩) ⟨some 0, false⟩ ⟨[97], by decide⟩ =
      .value ⟨some 1, true⟩ := by decide
  have hhas : has (oneChild ⟨[65], by decide⟩) ⟨some 0, false⟩ ⟨[97], by decide⟩ =
      .value false := by decide
  have := hagree.has_iff.mpr (by simp [hfound])
  rw [hhas] at this
  cases this

end BoxUtils.Json
