import BoxUtils.JsonForest

/-!
Properties of what a node is worth: its type without the flags, and its number. The
functions that link, name and delete nodes keep such a property at every address, and one
that all nodes have is passed on to the nodes of a duplicate.
-/
namespace BoxUtils.CJson

open Heap

/-- The links, the strings and the flags of a node play no role. -/
def Intrinsic (P : CJSON → Prop) : Prop :=
  ∀ c d : CJSON, d.kind = c.kind → d.valueint = c.valueint → d.valuedouble = c.valuedouble →
    P c → P d

section Links

variable {P : CJSON → Prop} {H H' : Nodes} {a b : ℕ} {p q : Option ℕ}

theorem at_modifyPointer {f : CJSON → CJSON} (h : H.At a P)
    (hmodify : modifyPointer H p f = some H') (hf : ∀ c, P c → P (f c)) : H'.At a P := by
  cases p with
  | none =>
    obtain rfl := Option.some.inj hmodify
    exact h
  | some b => exact h.modify hmodify hf

variable (hP : Intrinsic P)

include hP

theorem at_suffixObject (h : H.At a P) (hs : suffixObject H p b = some H') : H'.At a P := by
  obtain ⟨x, -, hs⟩ := Option.bind_eq_some_iff.mp hs
  obtain ⟨H₁, hprev, hnext⟩ := Option.bind_eq_some_iff.mp hs
  have h₁ := h.modify hprev fun c => hP c _ rfl rfl rfl
  exact h₁.modify hnext fun c => hP c _ rfl rfl rfl

theorem at_crosswire (h : H.At a P) {newchild : ℕ} (hs : crosswire H b p newchild = some H') :
    H'.At a P := by
  cases p with
  | none => exact h.modify hs fun c => hP c _ rfl rfl rfl
  | some x => exact at_suffixObject hP h hs

theorem at_addItemToArray (h : H.At a P) {ok : Bool}
    (hadd : addItemToArray H p q = some (H', ok)) : H'.At a P := by
  unfold addItemToArray at hadd
  split at hadd
  · obtain ⟨c, -, hadd⟩ := Option.bind_eq_some_iff.mp hadd
    split at hadd
    · obtain ⟨H₁, hlink, hadd⟩ := Option.bind_eq_some_iff.mp hadd
      obtain ⟨rfl, -⟩ := Prod.mk.inj (Option.some.inj hadd)
      exact h.modify hlink fun c => hP c _ rfl rfl rfl
    · obtain ⟨last, -, hadd⟩ := Option.bind_eq_some_iff.mp hadd
      obtain ⟨H₁, hlink, hadd⟩ := Option.bind_eq_some_iff.mp hadd
      obtain ⟨rfl, -⟩ := Prod.mk.inj (Option.some.inj hadd)
      exact at_suffixObject hP h hlink
  · obtain ⟨rfl, -⟩ := Prod.mk.inj (Option.some.inj hadd)
    exact h

/-- The name and the flag of the name are no part of the value. -/
theorem everywhere_addItemToObject (h : H.Everywhere P) {key : Option Text} {ok : Bool}
    (hadd : addItemToObject H p key q false = some (H', ok)) : H'.Everywhere P := by
  unfold addItemToObject at hadd
  split at hadd
  · rename_i object string item
    obtain ⟨c, hc, hadd⟩ := Option.bind_eq_some_iff.mp hadd
    have hnamed : P (Json.withName c string) :=
      hP c _ (Json.kind_withName c string) rfl rfl (h item c hc)
    exact fun a => at_addItemToArray hP ((h a).put hnamed) hadd
  · obtain ⟨rfl, -⟩ := Prod.mk.inj (Option.some.inj hadd)
    exact h

theorem at_detachItemViaPointer (h : H.At a P) {r : Option ℕ}
    (hd : detachItemViaPointer H p q = some (H', r)) : H'.At a P := by
  unfold detachItemViaPointer at hd
  split at hd
  · obtain ⟨c, -, hd⟩ := Option.bind_eq_some_iff.mp hd
    obtain ⟨H₁, h₁, hd⟩ := Option.bind_eq_some_iff.mp hd
    obtain ⟨c, -, hd⟩ := Option.bind_eq_some_iff.mp hd
    obtain ⟨H₂, h₂, hd⟩ := Option.bind_eq_some_iff.mp hd
    obtain ⟨c, -, hd⟩ := Option.bind_eq_some_iff.mp hd
    obtain ⟨H₃, h₃, hd⟩ := Option.bind_eq_some_iff.mp hd
    obtain ⟨H₄, h₄, hd⟩ := Option.bind_eq_some_iff.mp hd
    obtain ⟨rfl, -⟩ := Prod.mk.inj (Option.some.inj hd)
    have hprev := at_modifyPointer h h₁ fun c => hP c _ rfl rfl rfl
    have hnext := at_modifyPointer hprev h₂ fun c => hP c _ rfl rfl rfl
    have hparent := hnext.modify h₃ fun d hd => by
      split
      · exact hP d _ rfl rfl rfl hd
      · exact hd
    exact hparent.modify h₄ fun c => hP c _ rfl rfl rfl
  · obtain ⟨rfl, -⟩ := Prod.mk.inj (Option.some.inj hd)
    exact h

theorem at_detachItemFromArray (h : H.At a P) {which : ℤ} {r : Option ℕ}
    (hd : detachItemFromArray H p which = some (H', r)) : H'.At a P := by
  unfold detachItemFromArray at hd
  split at hd
  · obtain ⟨rfl, -⟩ := Prod.mk.inj (Option.some.inj hd)
    exact h
  · obtain ⟨item, -, hd⟩ := Option.bind_eq_some_iff.mp hd
    exact at_detachItemViaPointer hP h hd

end Links

section Whole

variable {P : CJSON → Prop} {H H' : Nodes} {a n : ℕ} {p : Option ℕ}

theorem at_delete (h : H.At a P) (hd : delete n H p = some H') : H'.At a P := by
  induction n generalizing H H' p with
  | zero =>
    cases p with
    | none =>
      obtain rfl := Option.some.inj hd
      exact h
    | some x => cases hd
  | succ n ih =>
    cases p with
    | none =>
      obtain rfl := Option.some.inj hd
      exact h
    | some x =>
      obtain ⟨c, -, hd⟩ := Option.bind_eq_some_iff.mp hd
      obtain ⟨H₁, h₁, hd⟩ := Option.bind_eq_some_iff.mp hd
      obtain ⟨H₂, h₂, hd⟩ := Option.bind_eq_some_iff.mp hd
      have hchildren : H₁.At a P := by
        split at h₁
        · obtain rfl := Option.some.inj h₁
          exact h
        · exact ih h h₁
      exact ih (hchildren.free h₂) hd

variable (hP : Intrinsic P)

include hP

/-- With n rounds, a duplicate has nodes of the same values. -/
theorem everywhere_duplicate (n : ℕ) :
    (∀ {H H' : Nodes} {p q : Option ℕ} {recurse : Bool}, H.Everywhere P →
      duplicate n H p recurse = some (H', q) → H'.Everywhere P) ∧
    ∀ {H H' : Nodes} {newitem : ℕ} {next p : Option ℕ}, H.Everywhere P →
      duplicateChildren n H newitem next p = some H' → H'.Everywhere P := by
  induction n with
  | zero =>
    constructor
    · intro H H' p q recurse h hd
      cases p with
      | none =>
        obtain ⟨rfl, -⟩ := Prod.mk.inj (Option.some.inj hd)
        exact h
      | some x => cases hd
    · intro H H' newitem next p h hd
      cases p with
      | none =>
        obtain rfl := Option.some.inj hd
        exact h
      | some x => cases hd
  | succ n ih =>
    constructor
    · intro H H' p q recurse h hd
      cases p with
      | none =>
        obtain ⟨rfl, -⟩ := Prod.mk.inj (Option.some.inj hd)
        exact h
      | some x =>
        obtain ⟨c, hc, hd⟩ := Option.bind_eq_some_iff.mp hd
        obtain ⟨H₁, h₁, hd⟩ := Option.bind_eq_some_iff.mp hd
        obtain ⟨rfl, -⟩ := Prod.mk.inj (Option.some.inj hd)
        have hbare : P c.bare := hP c _ c.kind_bare rfl rfl (h x c hc)
        have hnew : (H.alloc c.bare).Everywhere P := fun a => (h a).alloc hbare
        split at h₁
        · exact ih.2 hnew h₁
        · obtain rfl := Option.some.inj h₁
          exact hnew
    · intro H H' newitem next p h hd
      cases p with
      | none =>
        obtain rfl := Option.some.inj hd
        exact h
      | some x =>
        obtain ⟨⟨H₁, r⟩, h₁, hd⟩ := Option.bind_eq_some_iff.mp hd
        obtain ⟨newchild, -, hd⟩ := Option.bind_eq_some_iff.mp hd
        obtain ⟨H₂, h₂, hd⟩ := Option.bind_eq_some_iff.mp hd
        obtain ⟨c, -, hd⟩ := Option.bind_eq_some_iff.mp hd
        have hchild := ih.1 h h₁
        exact ih.2 (fun a => at_crosswire hP (hchild a) h₂) hd

end Whole

end BoxUtils.CJson
