import BoxUtils.CJsonLabels
import BoxUtils.JsonLookup

/-!
`pop` by key against `has`. Both search the children in their order, in loops of their
own; where all children have names they find the same child, in either case mode. What
`pop` then does to the links leaves the other children as a list in the old order.
-/
namespace BoxUtils.CJson

open LinkedShapes

/-- The loop of `cJSON_GetArraySize`. -/
def countSiblings (H : Nodes) : ℕ → ℕ → Option ℕ → Option ℕ
  | _, size, none => some size
  | 0, _, some _ => none
  | rounds + 1, size, some child => do
    let c ← H.cell child
    countSiblings H rounds (size + 1) c.next

/-- The number of children, converted to an `int`. -/
def getArraySize (H : Nodes) (array : Option ℕ) : Option Int32 :=
  match array with
  | none => some 0
  | some array => do
    let c ← H.cell array
    let size ← countSiblings H H.fresh 0 c.child
    some (Int32.ofNat size)

theorem countSiblings_eq {H : Nodes} {q p : Option ℕ} {l : List ℕ} {rounds : ℕ}
    (h : Chain H q p l none) (hn : l.length ≤ rounds) (size : ℕ) :
    countSiblings H rounds size p = some (size + l.length) := by
  induction l generalizing q p rounds size with
  | nil =>
    obtain rfl : p = none := h
    cases rounds <;> rfl
  | cons a l ih =>
    obtain ⟨rfl, v, hv, -, hrest⟩ := h
    obtain ⟨rounds, rfl⟩ : ∃ k, rounds = k + 1 := ⟨rounds - 1, by simp at hn; omega⟩
    have hcount := ih hrest (by simpa using hn) (size + 1)
    simp only [countSiblings, hv, Option.bind_eq_bind, Option.bind_some]
    rw [List.length_cons, Nat.add_comm l.length, ← Nat.add_assoc]
    exact hcount

end BoxUtils.CJson

namespace BoxUtils.Json

open CJson LinkedShapes

def size (H : Nodes) (holder : JsonHolder) : Outcome Int32 := do
  let c ← deref H holder
  if c.kind = cJSONObject ∨ c.kind = cJSONArray then getArraySize H holder.cjson
  else .throws (.typeError "Array or Object" (getTypeString c))

/-- The nodes that a call of `pop` leaves, also when it throws. -/
def nodesAfterPop (H : Nodes) (holder : JsonHolder) (key : Text) (caseSensitive : Bool) :
    Option Nodes :=
  match checkIsObject H holder with
  | .value _ =>
    (if caseSensitive then detachItemFromObjectCaseSensitive H holder.cjson (some key)
      else detachItemFromObject H holder.cjson (some key)).map Prod.fst
  | .throws _ => some H
  | .undefined => none

/-- The child's name matches the key in the given mode. -/
def matchesKey (H : Nodes) (key : Text) (caseSensitive : Bool) (a : ℕ) : Bool :=
  (nameOf H a).any fun name =>
    if caseSensitive then name = key else lower name = lower key

/-- The child keeps what it says and what is below it; only its neighbours may change. -/
def KeepsChild (H H' : Nodes) (b : ℕ) : Prop :=
  ∀ u, H.cell b = some u → ∃ u', H'.cell b = some u' ∧ u'.label = u.label ∧ u'.child = u.child

/-- What `pop` does to an object. -/
structure PopsExactly (H : Nodes) (holder : JsonHolder) (children : List ℕ) (key : Text)
    (caseSensitive : Bool) : Prop where
  has_defined : ∃ found, has H holder key caseSensitive = .value found
  throws_iff : popKey H holder key caseSensitive = .throws (.keyError key) ↔
    has H holder key caseSensitive = .value false
  unchanged : has H holder key caseSensitive = .value false →
    nodesAfterPop H holder key caseSensitive = some H
  pops : has H holder key caseSensitive ≠ .value false → ∃ a H',
    children.find? (matchesKey H key caseSensitive) = some a ∧
    popKey H holder key caseSensitive = .value (H', ⟨some a, false⟩) ∧
    nodesAfterPop H holder key caseSensitive = some H' ∧
    ObjectWith H' holder (children.erase a) ∧
    (∀ b ∈ children.erase a, holder.cjson ≠ some b → KeepsChild H H' b) ∧
    ∃ n n', size H holder = .value n ∧ size H' holder = .value n' ∧ n = n' + 1

section Pop

variable {H H' : Nodes} {holder : JsonHolder} {children : List ℕ} {key : Text}
variable {caseSensitive : Bool} {a : ℕ}

/-- On named children the searches stop at the matching ones. -/
theorem stops_eq (hnamed : ∀ a ∈ children, nameOf H a ≠ none) (ha : a ∈ children) :
    stops key caseSensitive (nameOf H a) = matchesKey H key caseSensitive a := by
  obtain ⟨name, hname⟩ := Option.ne_none_iff_exists'.mp (hnamed a ha)
  rw [matchesKey, hname, Option.any_some, stops]
  cases caseSensitive with
  | true => simp
  | false =>
    have hiff : lower name = lower key ↔ lower key = lower name := eq_comm
    simp [caseInsensitiveStrcmp_eq_zero_iff, hiff]

theorem find?_stops_eq (hnamed : ∀ a ∈ children, nameOf H a ≠ none) :
    (children.find? fun a => stops key caseSensitive (nameOf H a)) =
      children.find? (matchesKey H key caseSensitive) :=
  List.find?_congr fun _ ha => stops_eq hnamed ha

/-- The search of cJSON, on named children. -/
theorem getObjectItem_matches {o : ℕ} {v : CJSON} (hv : H.cell o = some v)
    (hchain : Chain H none v.child children none)
    (hnamed : ∀ a ∈ children, nameOf H a ≠ none) :
    getObjectItem H (some o) (some key) caseSensitive =
      some (children.find? (matchesKey H key caseSensitive)) := by
  rw [getObjectItem_eq hv hchain, find?_stops_eq hnamed]
  cases hfind : children.find? (matchesKey H key caseSensitive) with
  | none => rfl
  | some a =>
    have hname := hnamed a (List.mem_of_find?_eq_some hfind)
    simp [Option.filter, Option.isSome_iff_ne_none, hname]

theorem has_matches (h : ObjectWith H holder children)
    (hnamed : ∀ a ∈ children, nameOf H a ≠ none) :
    has H holder key caseSensitive =
      .value (children.find? (matchesKey H key caseSensitive)).isSome := by
  cases caseSensitive with
  | true =>
    rw [has_eq h, find?_stops_eq hnamed]
    cases hfind : children.find? (matchesKey H key true) with
    | none => rfl
    | some a => exact if_neg (hnamed a (List.mem_of_find?_eq_some hfind))
  | false =>
    obtain ⟨o, v, ho, hv, hkind, hchain⟩ := h
    simp only [has, checkIsObject_eq ho hv hkind, Outcome.value_bind, if_true, hasObjectItem, ho,
      getObjectItem_matches hv hchain hnamed, Option.bind_eq_bind, Option.bind_some,
      Outcome.lift_some]

/-- Without a match nothing is detached. -/
theorem pop_nothing (h : ObjectWith H holder children)
    (hnamed : ∀ a ∈ children, nameOf H a ≠ none)
    (hfind : children.find? (matchesKey H key caseSensitive) = none) :
    popKey H holder key caseSensitive = .throws (.keyError key) ∧
      nodesAfterPop H holder key caseSensitive = some H := by
  obtain ⟨o, v, ho, hv, hkind, hchain⟩ := h
  have hsearch : getObjectItem H (some o) (some key) caseSensitive =
      some (children.find? (matchesKey H key caseSensitive)) :=
    getObjectItem_matches hv hchain hnamed
  rw [hfind] at hsearch
  have hcheck := checkIsObject_eq ho hv hkind
  cases caseSensitive <;>
    simp [popKey, nodesAfterPop, hcheck, detachItemFromObject,
      detachItemFromObjectCaseSensitive, ho, hsearch, detachItemViaPointer]

/-- The child that matches is detached. -/
theorem pop_detaches {o : ℕ} {v w : CJSON} (ho : holder.cjson = some o) (hv : H.cell o = some v)
    (hkind : v.kind = cJSONObject) (hchain : Chain H none v.child children none)
    (hnamed : ∀ a ∈ children, nameOf H a ≠ none)
    (hfind : children.find? (matchesKey H key caseSensitive) = some a) (hw : H.cell a = some w) :
    ∃ H', detachItemViaPointer H (some o) (some a) = some (H', some a) ∧
      Detaches H H' a o w ∧
      popKey H holder key caseSensitive = .value (H', ⟨some a, false⟩) ∧
      nodesAfterPop H holder key caseSensitive = some H' := by
  obtain ⟨hprev, hnext⟩ := neighbours_live hchain (List.mem_of_find?_eq_some hfind) hw
  obtain ⟨H', hdetach, hlinks⟩ :=
    detachItemViaPointer_detaches (o := o) (by simp [hv]) hw hprev hnext
  have hsearch : getObjectItem H (some o) (some key) caseSensitive =
      some (children.find? (matchesKey H key caseSensitive)) :=
    getObjectItem_matches hv hchain hnamed
  rw [hfind] at hsearch
  have hcheck := checkIsObject_eq ho hv hkind
  refine ⟨H', hdetach, hlinks, ?_, ?_⟩ <;> cases caseSensitive <;>
    simp [popKey, nodesAfterPop, hcheck, detachItemFromObject,
      detachItemFromObjectCaseSensitive, ho, hsearch, hdetach]

theorem size_eq (h : ObjectWith H holder children) :
    size H holder = .value (Int32.ofNat children.length) := by
  obtain ⟨o, v, ho, hv, hkind, hchain⟩ := h
  simp [size, deref, ho, hv, hkind, getArraySize, countSiblings_eq hchain hchain.length_le]

/-- The object after one of its children was cut out. -/
theorem objectWith_detached {o : ℕ} {v w : CJSON} (ho : holder.cjson = some o)
    (hv : H.cell o = some v) (hkind : v.kind = cJSONObject)
    (hchain : Chain H none v.child children none) (ha : a ∈ children) (hw : H.cell a = some w)
    (hdetach : detachItemViaPointer H (some o) (some a) = some (H', some a))
    (hlinks : Detaches H H' a o w) : ObjectWith H' holder (children.erase a) := by
  obtain ⟨v', hv', -, -, hchild, -⟩ := hlinks.link o v hv
  obtain ⟨v'', hv'', hlabel⟩ := (detachItemViaPointer_relinks hdetach).label o v hv
  obtain rfl := Option.some.inj (hv'.symm.trans hv'')
  have hkind' : v'.kind = cJSONObject := (congrArg MergePatch.Label.kind hlabel).trans hkind
  refine ⟨o, v', ho, hv', hkind', ?_⟩
  obtain ⟨before, behind, rfl⟩ := List.append_of_mem ha
  have hnot : a ∉ before := fun hmem =>
    (List.nodup_append.mp hchain.nodup).2.2 a hmem a List.mem_cons_self rfl
  have herase : (before ++ a :: behind).erase a = before ++ behind := by
    rw [List.erase_append_right _ hnot, List.erase_cons_head]
  rw [herase]
  have hrest := hlinks.chain hw hchain fun _ _ => nofun
  simp only [true_and] at hchild
  have hchild : v'.child = if v.child = some a then w.next else v.child := hchild
  rw [hchild]
  exact hrest

theorem keepsChild_detached {o b : ℕ} {w : CJSON} (hob : o ≠ b)
    (hdetach : detachItemViaPointer H (some o) (some a) = some (H', some a))
    (hlinks : Detaches H H' a o w) : KeepsChild H H' b := by
  intro u hu
  obtain ⟨u', hu', -, -, hchild, -⟩ := hlinks.link b u hu
  obtain ⟨u'', hu'', hlabel⟩ := (detachItemViaPointer_relinks hdetach).label b u hu
  obtain rfl := Option.some.inj (hu'.symm.trans hu'')
  exact ⟨u', hu', hlabel, hchild.trans (if_neg fun h => hob h.1.symm)⟩

end Pop

/-- `pop` throws just when `has` finds no such key, and then leaves the object alone;
otherwise it takes the first matching child out of it. -/
theorem popKey_exact {H : Nodes} {holder : JsonHolder} {children : List ℕ}
    (h : ObjectWith H holder children) (hnamed : ∀ a ∈ children, nameOf H a ≠ none) (key : Text)
    (caseSensitive : Bool) : PopsExactly H holder children key caseSensitive := by
  have hhas : has H holder key caseSensitive =
      .value (children.find? (matchesKey H key caseSensitive)).isSome := has_matches h hnamed
  cases hfind : children.find? (matchesKey H key caseSensitive) with
  | none =>
    rw [hfind] at hhas
    obtain ⟨hpop, hleft⟩ := pop_nothing h hnamed hfind
    exact ⟨⟨_, hhas⟩, iff_of_true hpop hhas, fun _ => hleft, fun hne => absurd hhas hne⟩
  | some a =>
    rw [hfind] at hhas
    have hsize := size_eq h
    obtain ⟨o, v, ho, hv, hkind, hchain⟩ := h
    have ha := List.mem_of_find?_eq_some hfind
    obtain ⟨w, hw⟩ := hchain.live ha
    obtain ⟨H', hdetach, hlinks, hpop, hleft⟩ :=
      pop_detaches ho hv hkind hchain hnamed hfind hw
    have hnot : has H holder key caseSensitive ≠ .value false := by simp [hhas]
    have hthrow : popKey H holder key caseSensitive ≠ .throws (.keyError key) := by simp [hpop]
    have hafter := objectWith_detached ho hv hkind hchain ha hw hdetach hlinks
    refine ⟨⟨_, hhas⟩, iff_of_false hthrow hnot, fun hfalse => absurd hfalse hnot, fun _ => ?_⟩
    refine ⟨a, H', hfind, hpop, hleft, hafter, fun b _ hb => ?_, _, _, hsize, size_eq hafter, ?_⟩
    · refine keepsChild_detached (fun hob => hb ?_) hdetach hlinks
      rw [ho, hob]
    · have hlength : children.length = (children.erase a).length + 1 :=
        (List.length_erase_add_one ha).symm
      rw [hlength, Int32.ofNat_add]
      rfl

theorem popKey_exact_A :
    ObjectWith (oneChild ⟨[65], by decide⟩) ⟨some 0, false⟩ [1] ∧
      PopsExactly (oneChild ⟨[65], by decide⟩) ⟨some 0, false⟩ [1] ⟨[97], by decide⟩ false :=
  ⟨oneChild_object _, popKey_exact (oneChild_object _)
    (fun a ha => by
      obtain rfl : a = 1 := by simpa using ha
      decide) _ _⟩

end BoxUtils.Json
