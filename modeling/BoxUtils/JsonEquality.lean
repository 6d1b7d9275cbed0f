import BoxUtils.JsonBuilding

/-!
What readers can tell about equal values. The comparison of two nodes looks at their types,
at the doubles of numbers and at strings; the readers of an int and of a bool look at the
int beside the double. Of the nodes that can be built, only two that are `true` may be
equal and differ in that.
-/
namespace BoxUtils.Json

open CJson Runs

section Definitions

/-- `Json::cmp`. -/
def cmp (caseSensitive : Bool) (calls : ℕ) (H : Nodes) (p q : JsonHolder) : Option Bool :=
  compare caseSensitive calls H p.cjson q.cjson

/-- The operator `==` returns true. -/
def Equal (H : Nodes) (p q : JsonHolder) : Prop := ∃ calls, cmp true calls H p q = some true

/-- If the values are equal, no reader and no comparison with an int, a bool or a string
tells them apart. -/
def Indistinguishable (H : Nodes) (p q : JsonHolder) : Prop :=
  Equal H p q → ∀ v : Value, read H p v = read H q v ∧ equals H p v = equals H q v

/-- Two nodes that are `true` have the same number: the parser leaves 1 in it, and every other
function that makes a node leaves 0. -/
def SameTruth (H : Nodes) (p q : JsonHolder) : Prop :=
  ∀ c d, deref H p = some c → deref H q = some d → c.kind = cJSONTrue → d.kind = cJSONTrue →
    c.valueint = d.valueint

end Definitions

section Readers

variable {H : Nodes} {p q : JsonHolder} {c d : CJSON}

/-- What the readers make use of. -/
structure SameValue (c d : CJSON) : Prop where
  kind : c.kind = d.kind
  int : c.kind = cJSONNumber → c.valueint = d.valueint
  bool : isBool c → c.valueint = d.valueint
  string : c.kind = cJSONString → c.valuestring = d.valuestring

theorem isBool_eq (h : c.kind = d.kind) : isBool c = isBool d := by
  rw [isBool, isBool, boolBits_eq, boolBits_eq, h]

theorem getTypeString_eq (h : c.kind = d.kind) : getTypeString c = getTypeString d := by
  simp only [getTypeString, h]

/-- A type check that the nodes pass or fail together. -/
theorem checkKind_congr {α : Type} (hc : deref H p = some c) (hd : deref H q = some d)
    (hkind : c.kind = d.kind) {kind : BitVec 32} {excepted : String} {f g : Unit → Outcome α}
    (h : c.kind = kind → f () = g ()) :
    (checkKind kind excepted H p >>= f) = checkKind kind excepted H q >>= g := by
  rw [checkKind_eq hc, checkKind_eq hd, ← hkind, ← getTypeString_eq hkind]
  split
  · rfl
  · rename_i hk
    exact h (not_not.mp hk)

theorem readCString_congr (hc : deref H p = some c) (hd : deref H q = some d)
    (h : SameValue c d) : readCString H p = readCString H q :=
  checkKind_congr hc hd h.kind fun hk => by simp [hc, hd, h.string hk]

theorem readInt_congr (hc : deref H p = some c) (hd : deref H q = some d) (h : SameValue c d) :
    readInt H p = readInt H q :=
  checkKind_congr hc hd h.kind fun hk => by simp [hc, hd, h.int hk]

theorem readBool_congr (hc : deref H p = some c) (hd : deref H q = some d) (h : SameValue c d) :
    readBool H p = readBool H q := by
  rw [readBool, readBool, holds_eq isBool hc, holds_eq isBool hd, ← isBool_eq h.kind, hc, hd]
  simp only [Outcome.value_bind, Outcome.lift_some, ← getTypeString_eq h.kind]
  split
  · rename_i hbool
    rw [h.bool hbool]
  · rfl

theorem read_congr (hc : deref H p = some c) (hd : deref H q = some d) (h : SameValue c d)
    (v : Value) : read H p v = read H q v := by
  cases v with
  | int i => rw [read, read, readInt_congr hc hd h]
  | bool val => rw [read, read, readBool_congr hc hd h]
  | cstring str => rw [read, read, readCString_congr hc hd h]
  | string str => rw [read, read, readString, readString, readCString_congr hc hd h]

theorem equalsCString_congr (hc : deref H p = some c) (hd : deref H q = some d)
    (h : SameValue c d) (str : Text) : equalsCString H p str = equalsCString H q str := by
  rw [equalsCString, equalsCString, holds_eq isString hc, holds_eq isString hd, hc, hd]
  simp only [Outcome.value_bind, Outcome.lift_some, isString, ← h.kind]
  split
  · rename_i hk
    rw [h.string (by simpa using hk)]
  · rfl

theorem equals_congr (hc : deref H p = some c) (hd : deref H q = some d) (h : SameValue c d)
    (v : Value) : equals H p v = equals H q v := by
  cases v with
  | int i =>
    rw [equals, equals, equalsInt, equalsInt, holds_eq isNumber hc, holds_eq isNumber hd, hc, hd]
    simp only [Outcome.value_bind, Outcome.lift_some, isNumber, ← h.kind]
    split
    · rename_i hk
      rw [h.int (by simpa using hk)]
    · rfl
  | bool val =>
    rw [equals, equals, equalsBool, equalsBool, holds_eq isBool hc, holds_eq isBool hd,
      ← isBool_eq h.kind, hc, hd]
    simp only [Outcome.value_bind, Outcome.lift_some]
    split
    · rename_i hbool
      rw [h.bool hbool]
    · rfl
  | cstring str => exact equalsCString_congr hc hd h str
  | string str => exact equalsCString_congr hc hd h (cStr str)

end Readers

section Equality

variable {H : Nodes} {p q : JsonHolder} {a b : ℕ} {c d : CJSON} {truth : ℤ → Prop}

theorem isBool_iff (hjson : JsonType c) :
    isBool c = true ↔ c.kind = cJSONTrue ∨ c.kind = cJSONFalse := by
  rw [isBool, decide_eq_true_iff]
  exact (fits_bool_iff hjson true).symm

/-- Nodes that are built and compared equal have the same value, but for two that are
`true`. -/
theorem sameValue_of_alike (hbuilt : Built truth c) (hbuilt' : Built truth d)
    (hkind : c.kind = d.kind) (halike : Alike a b c d) (hne : a ≠ b)
    (htrue : c.kind = cJSONTrue → c.valueint = d.valueint) : SameValue c d := by
  cases halike with
  | same h => exact absurd h hne
  | number hk hdouble =>
    have hint : c.valueint = d.valueint := by
      rw [hbuilt.number hk, hbuilt'.number (hkind ▸ hk), hdouble]
    refine ⟨hkind, fun _ => hint, fun _ => hint, fun hs => ?_⟩
    exact absurd (hk.symm.trans hs) (by decide)
  | string hk hs ht =>
    have hjson : JsonType c := by
      rcases hk with hk | hk <;> simp [JsonType, hk]
    refine ⟨hkind, fun hnumber => ?_, fun hbool => ?_, fun _ => hs.trans ht.symm⟩
    · rcases hk with hk | hk <;> exact absurd (hk.symm.trans hnumber) (by decide)
    · rcases (isBool_iff hjson).mp hbool with hbool | hbool <;> rcases hk with hk | hk <;>
        exact absurd (hk.symm.trans hbool) (by decide)
  | other hk =>
    have hjson : JsonType c := by
      simp only [List.mem_cons, List.not_mem_nil, or_false] at hk
      rcases hk with hk | hk | hk | hk | hk <;> simp [JsonType, hk]
    have hnot : ∀ {kind}, kind ∉ [cJSONFalse, cJSONTrue, cJSONNull, cJSONArray, cJSONObject] →
        c.kind ≠ kind := fun hmem heq => hmem (heq ▸ hk)
    refine ⟨hkind, fun hnumber => ?_, fun hbool => ?_, fun hstring => ?_⟩
    · exact absurd hnumber (hnot (by decide))
    · rcases (isBool_iff hjson).mp hbool with htrue' | hfalse
      · exact htrue htrue'
      · rw [hbuilt.ofFalse hfalse, hbuilt'.ofFalse (hkind ▸ hfalse)]
    · exact absurd hstring (hnot (by decide))

/-- The same node says the same through every handle. -/
theorem read_same (hpq : p.cjson = q.cjson) (v : Value) :
    read H p v = read H q v ∧ equals H p v = equals H q v := by
  obtain ⟨x, r⟩ := p
  obtain ⟨y, r'⟩ := q
  obtain rfl : x = y := hpq
  cases v <;> exact ⟨rfl, rfl⟩

/-- Equal nodes that are built read alike, but for two that are `true`. -/
theorem indistinguishable_of_sameTruth (h : H.Everywhere (Built truth))
    (htruth : SameTruth H p q) : Indistinguishable H p q := by
  rintro ⟨calls, hcalls⟩ v
  obtain ⟨a, b, c, d, ha, hb, hc, hd⟩ := live_of_compare hcalls
  by_cases hab : a = b
  · exact read_same (by rw [ha, hb, hab]) v
  · have hcd : deref H p = some c := by simp [deref, ha, hc]
    have hdd : deref H q = some d := by simp [deref, hb, hd]
    rw [cmp, ha, hb] at hcalls
    obtain ⟨hkind, halike⟩ := alike_of_compare hc hd hcalls
    have hvalue := sameValue_of_alike (h a c hc) (h b d hd) hkind halike hab
      fun hk => htruth c d hcd hdd hk (hkind ▸ hk)
    exact ⟨read_congr hcd hdd hvalue v, equals_congr hcd hdd hvalue v⟩

/-- Two nodes that are `true` are equal, and a reader tells 0 from 1. -/
theorem sameTruth_of_indistinguishable (h : H.Everywhere (Built fun n => n = 0 ∨ n = 1))
    (hsame : Indistinguishable H p q) : SameTruth H p q := by
  intro c d hc hd hkind hkind'
  obtain ⟨a, ha, hca⟩ := Option.bind_eq_some_iff.mp hc
  obtain ⟨b, hb, hdb⟩ := Option.bind_eq_some_iff.mp hd
  have hequal : Equal H p q := by
    refine ⟨1, ?_⟩
    rw [cmp, ha, hb]
    exact compare_true hca hdb hkind hkind'
  have hread := (hsame hequal (.bool true)).1
  have hbool : ∀ {r : JsonHolder} {e : CJSON}, deref H r = some e → e.kind = cJSONTrue →
      read H r (.bool true) = .value (.bool (decide (e.valueint ≠ 0))) := by
    intro r e he hk
    have hjson : JsonType e := by simp [JsonType, hk]
    rw [read, readBool, holds_eq isBool he, (isBool_iff hjson).mpr (Or.inl hk), he]
    rfl
  rw [hbool hc hkind, hbool hd hkind'] at hread
  have hiff : decide (c.valueint ≠ 0) = decide (d.valueint ≠ 0) :=
    Value.bool.inj (Outcome.value.inj hread)
  rcases (h a c hca).ofTrue hkind with hc0 | hc1 <;>
    rcases (h b d hdb).ofTrue hkind' with hd0 | hd1 <;> simp_all

end Equality

section Runs

variable {strtod : List UInt8 → Double × ℕ}

/-- Every step leaves 0 or 1 in a node that is `true`. -/
theorem Build.makes_zero_or_one (a : Build) : a.Makes fun n => n = 0 ∨ n = 1 := by
  have hcreate : ∀ item : Creation, item.Makes fun n => n = 0 ∨ n = 1 := by
    intro item
    cases item with
    | true => exact Or.inl rfl
    | bool boolen => exact fun _ => Or.inl rfl
    | _ => trivial
  have hadd : ∀ item : Added, item.Makes fun n => n = 0 ∨ n = 1 := by
    intro item
    cases item with
    | bool val => exact hcreate (.bool val)
    | _ => trivial
  cases a with
  | basic op =>
    cases op with
    | create k item => exact hcreate item
    | _ => trivial
  | parse k str calls => exact Or.inr rfl
  | add array item => exact hadd item
  | addTo object key item => exact hadd item

/-- Where nothing is parsed, or no value `true` comes from elsewhere, equal values read alike. -/
theorem read_alike_of_one_truth {n : ℤ} {ops : List Build}
    (h : StepsMeet (nextBuild strtod) (fun _ a => a.Makes (· = n)) init ops) :
    Throughout (nextBuild strtod) (fun s => ∀ p q, Indistinguishable s.heap p q) init ops := by
  have hbuilt := throughout_of_stepsMeet (I := fun s => s.heap.Everywhere (Built (· = n)))
    (fun _ _ _ h hmakes hstep => built_nextBuild h hmakes hstep)
    (Heap.everywhere_empty (Built (· = n))) h
  refine hbuilt.mono fun s h p q => indistinguishable_of_sameTruth h ?_
  intro c d hc hd hkind hkind'
  obtain ⟨a, -, hca⟩ := Option.bind_eq_some_iff.mp hc
  obtain ⟨b, -, hdb⟩ := Option.bind_eq_some_iff.mp hd
  exact ((h a c hca).ofTrue hkind).trans ((h b d hdb).ofTrue hkind').symm

end Runs

/-- Whatever has been built, equal values read alike just when they are not two values
`true` with different numbers. -/
theorem equal_values_read_alike_iff (strtod : List UInt8 → Double × ℕ) (ops : List Build) :
    Throughout (nextBuild strtod)
      (fun s => ∀ p q, Indistinguishable s.heap p q ↔ SameTruth s.heap p q) init ops := by
  have hbuilt : Throughout (nextBuild strtod)
      (fun s => s.heap.Everywhere (Built fun n => n = 0 ∨ n = 1)) init ops :=
    throughout_of_keeps
      (fun _ a _ h hstep => built_nextBuild h a.makes_zero_or_one hstep) (Heap.everywhere_empty _)
  exact hbuilt.mono fun _ h p q =>
    ⟨sameTruth_of_indistinguishable h, indistinguishable_of_sameTruth h⟩

/-- One value `true` is parsed, and one created. -/
def twoTruths : List Build :=
  [.parse 0 ⟨[116, 114, 117, 101], by decide⟩ 1, .basic (.create 1 .true)]

/-- The parsed value reads as `true`, and the other one as `false`. -/
theorem two_truths_differ : ¬ ∀ (strtod : List UInt8 → Double × ℕ) (ops : List Build),
    Throughout (nextBuild strtod) (fun s => ∀ p q, Indistinguishable s.heap p q) init ops := by
  intro h
  have hreads : (run (nextBuild fun _ => (.finite 0, 0)) init twoTruths).map (fun s =>
      (cmp true 1 s.heap (s.holder 0) (s.holder 1), read s.heap (s.holder 0) (.bool true),
        read s.heap (s.holder 1) (.bool true))) =
      some (some true, .value (.bool true), .value (.bool false)) := by rfl
  obtain ⟨s, hrun, hs⟩ := Option.map_eq_some_iff.mp hreads
  obtain ⟨hequal, hreads⟩ := Prod.mk.inj hs
  obtain ⟨hparsed, hcreated⟩ := Prod.mk.inj hreads
  have hsame := ((h _ twoTruths).final hrun (s.holder 0) (s.holder 1) ⟨1, hequal⟩ (.bool true)).1
  cases hparsed.symm.trans (hsame.trans hcreated)

end BoxUtils.Json
