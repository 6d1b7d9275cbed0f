import BoxUtils.CJsonNodes

/-!
`cJSON_Compare`, which goes through two trees at once. With too few nested calls it has no
result; what it has said about two nodes is about their types and values, and about the
nodes below them.
-/
namespace BoxUtils.CJson

/-- The operator `==` on doubles, by which no NaN is equal to anything. -/
def Double.equals : Double → Double → Bool
  | .nan, _ => false
  | a, b => decide (a = b)

/-- The types that `cJSON_Compare` takes for valid. -/
def comparable : List (BitVec 32) :=
  [cJSONFalse, cJSONTrue, cJSONNull, cJSONNumber, cJSONString, cJSONRaw, cJSONArray, cJSONObject]

mutual

def compare (caseSensitive : Bool) : ℕ → Nodes → Option ℕ → Option ℕ → Option Bool
  | calls + 1, H, some a, some b => do
    let c ← H.cell a
    let d ← H.cell b
    if c.kind ≠ d.kind ∨ c.kind = cJSONInvalid then some false
    else if c.kind ∉ comparable then some false
    else if a = b then some true
    else if c.kind = cJSONFalse ∨ c.kind = cJSONTrue ∨ c.kind = cJSONNull then some true
    else if c.kind = cJSONNumber then some (c.valuedouble.equals d.valuedouble)
    else if c.kind = cJSONString ∨ c.kind = cJSONRaw then
      match c.valuestring, d.valuestring with
      | some s, some t => some (decide (s = t))
      | _, _ => some false
    else if c.kind = cJSONArray then compareElements caseSensitive calls H c.child d.child
    else do
      if ← compareMembers caseSensitive calls H c.child b then
        compareMembers caseSensitive calls H d.child a
      else some false
  | 0, _, some _, some _ => none
  | _, _, _, _ => some false

/-- The loop over the elements of two arrays. -/
def compareElements (caseSensitive : Bool) : ℕ → Nodes → Option ℕ → Option ℕ → Option Bool
  | calls + 1, H, some x, some y => do
    if ← compare caseSensitive calls H (some x) (some y) then
      let c ← H.cell x
      let d ← H.cell y
      compareElements caseSensitive calls H c.next d.next
    else some false
  | 0, _, some _, some _ => none
  -- one of the arrays may be longer
  | _, _, p, q => some (decide (p = q))

/-- The loop that looks for the members of one object in the other. -/
def compareMembers (caseSensitive : Bool) : ℕ → Nodes → Option ℕ → ℕ → Option Bool
  | _, _, none, _ => some true
  | 0, _, some _, _ => none
  | calls + 1, H, some x, object => do
    let c ← H.cell x
    match ← getObjectItem H (some object) c.string caseSensitive with
    | none => some false
    | some y => do
      if ← compare caseSensitive calls H (some x) (some y) then
        compareMembers caseSensitive calls H c.next object
      else some false

end

/-- What two nodes that are compared equal have in common. -/
inductive Alike (a b : ℕ) (c d : CJSON) : Prop
  | same (h : a = b)
  | number (hkind : c.kind = cJSONNumber) (h : c.valuedouble = d.valuedouble)
  | string (hkind : c.kind = cJSONString ∨ c.kind = cJSONRaw) {s : Text}
      (hc : c.valuestring = some s) (hd : d.valuestring = some s)
  | other (hkind : c.kind ∈ [cJSONFalse, cJSONTrue, cJSONNull, cJSONArray, cJSONObject])

variable {H : Nodes} {a b : ℕ} {p q : Option ℕ} {c d : CJSON} {caseSensitive : Bool}

theorem eq_of_equals {x y : Double} (h : x.equals y = true) : x = y := by
  cases x with
  | nan => cases h
  | infinite negative => exact of_decide_eq_true h
  | finite value => exact of_decide_eq_true h

theorem live_of_compare {calls : ℕ} (h : compare caseSensitive calls H p q = some true) :
    ∃ a b c d, p = some a ∧ q = some b ∧ H.cell a = some c ∧ H.cell b = some d := by
  cases p with
  | none => cases calls <;> cases h
  | some a =>
    cases q with
    | none => cases calls <;> cases h
    | some b =>
      cases calls with
      | zero => cases h
      | succ calls =>
        rw [compare] at h
        obtain ⟨c, hc, h⟩ := Option.bind_eq_some_iff.mp h
        obtain ⟨d, hd, h⟩ := Option.bind_eq_some_iff.mp h
        exact ⟨a, b, c, d, rfl, rfl, hc, hd⟩

/-- Nodes that are compared equal have one type, and the values that it makes use of. -/
theorem alike_of_compare {calls : ℕ} (hc : H.cell a = some c) (hd : H.cell b = some d)
    (h : compare caseSensitive calls H (some a) (some b) = some true) :
    c.kind = d.kind ∧ Alike a b c d := by
  cases calls with
  | zero => cases h
  | succ calls =>
    rw [compare, hc, hd] at h
    simp only [Option.bind_eq_bind, Option.bind_some] at h
    split at h
    · cases h
    · rename_i hkind
      simp only [not_or, not_not] at hkind
      refine ⟨hkind.1, ?_⟩
      split at h
      · cases h
      · split at h
        · rename_i hab
          exact .same hab
        · split at h
          · rename_i hliteral
            refine .other ?_
            rcases hliteral with hk | hk | hk <;> simp [hk]
          · split at h
            · rename_i hnumber
              exact .number hnumber (eq_of_equals (Option.some.inj h))
            · split at h
              · rename_i hstring
                split at h
                · rename_i s t hs ht
                  obtain rfl : s = t := of_decide_eq_true (Option.some.inj h)
                  exact .string hstring hs ht
                · cases h
              · rename_i hvalid _ _ hnumber hstring
                refine .other ?_
                simp only [comparable, List.mem_cons, List.not_mem_nil, or_false, not_not]
                  at hvalid
                simp only [List.mem_cons, List.not_mem_nil, or_false]
                tauto

/-- Two values `true` are compared equal. -/
theorem compare_true (hc : H.cell a = some c) (hd : H.cell b = some d)
    (hkind : c.kind = cJSONTrue) (hkind' : d.kind = cJSONTrue) :
    compare caseSensitive 1 H (some a) (some b) = some true := by
  rw [compare, hc, hd]
  have hinvalid : cJSONTrue ≠ cJSONInvalid := by decide
  have hvalid : cJSONTrue ∈ comparable := by decide
  simp [hkind, hkind', hinvalid, hvalid]

end BoxUtils.CJson
