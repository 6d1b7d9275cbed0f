import Mathlib.Data.List.TakeWhile
import Mathlib.Tactic.NormNum
import BoxUtils.Json

/-!
Reading and writing the values of a Json handle. A number lives in two fields of
its node, a bool in the type of the node as well as in its number, a string in
memory of its own. The check before a bool is written has its sense inverted,
and the writer leaves the type bits alone.
-/
namespace BoxUtils.Json

open CJson LinkedShapes

/-- The value that is written or read. A C string lies in memory of its own, a
`std::string` may contain NULs. -/
inductive Value where
  | int (i : Int32)
  | bool (val : Bool)
  | cstring (str : Text)
  | string (str : List UInt8)
deriving DecidableEq

/-- What `c_str()` points to, up to the first NUL. -/
def cStr (str : List UInt8) : Text :=
  ⟨str.takeWhile (· ≠ 0), fun h => by simpa using List.mem_takeWhile_imp h⟩

section Types

def isNumber (c : CJSON) : Bool := c.kind = cJSONNumber

def isString (c : CJSON) : Bool := c.kind = cJSONString

def isTrue (c : CJSON) : Bool := c.kind = cJSONTrue

def isFalse (c : CJSON) : Bool := c.kind = cJSONFalse

def isBool (c : CJSON) : Bool := c.type &&& (cJSONTrue ||| cJSONFalse) ≠ 0

/-- A test of the node of a handle; a null pointer passes none. -/
def holds (test : CJSON → Bool) (H : Nodes) (holder : JsonHolder) : Outcome Bool :=
  match holder.cjson with
  | none => pure false
  | some _ => do
    let c ← deref H holder
    pure (test c)

def typeString (H : Nodes) (holder : JsonHolder) : Outcome String := do
  let c ← deref H holder
  pure (getTypeString c)

def checkIsString : Nodes → JsonHolder → Outcome Unit := checkKind cJSONString "String"

def checkIsNumber : Nodes → JsonHolder → Outcome Unit := checkKind cJSONNumber "Number"

/-- Unlike the other checks this one throws for the values of its own type. -/
def checkIsBool (H : Nodes) (holder : JsonHolder) : Outcome Unit := do
  let c ← deref H holder
  if c.type &&& (cJSONTrue ||| cJSONFalse) ≠ 0 then .throws (.typeError "Bool" (getTypeString c))
  else pure ()

end Types

section Reading

def readInt (H : Nodes) (holder : JsonHolder) : Outcome ℤ := do
  checkIsNumber H holder
  let c ← deref H holder
  pure c.valueint

def readBool (H : Nodes) (holder : JsonHolder) : Outcome Bool := do
  if ← holds isBool H holder then
    let c ← deref H holder
    pure (decide (c.valueint ≠ 0))
  else
    let c ← deref H holder
    .throws (.typeError "Bool" (getTypeString c))

def readCString (H : Nodes) (holder : JsonHolder) : Outcome (Option Text) := do
  checkIsString H holder
  let c ← deref H holder
  pure c.valuestring

/-- The assignment to a `std::string` reads the characters. -/
def readString (H : Nodes) (holder : JsonHolder) : Outcome (List UInt8) := do
  let rawStr ← readCString H holder
  let str ← rawStr
  pure str.1

/-- The operator `>>` into a variable of the type of the value. -/
def read (H : Nodes) (holder : JsonHolder) : Value → Outcome Value
  | .int _ => do pure (.int (Int32.ofInt (← readInt H holder)))
  | .bool _ => do pure (.bool (← readBool H holder))
  | .cstring _ => do
    let rawStr ← readCString H holder
    let str ← rawStr
    pure (.cstring str)
  | .string _ => do pure (.string (← readString H holder))

def equalsInt (H : Nodes) (holder : JsonHolder) (val : ℤ) : Outcome Bool := do
  if ← holds isNumber H holder then
    let c ← deref H holder
    pure (decide (c.valueint = val))
  else pure false

def equalsBool (H : Nodes) (holder : JsonHolder) (val : Bool) : Outcome Bool := do
  if ← holds isBool H holder then
    let c ← deref H holder
    pure (decide (c.valueint = val.toNat))
  else pure false

/-- `strcmp` has no result for a null pointer. -/
def equalsCString (H : Nodes) (holder : JsonHolder) (str : Text) : Outcome Bool := do
  if ← holds isString H holder then
    let c ← deref H holder
    let valuestring ← c.valuestring
    pure (decide (str = valuestring))
  else pure false

/-- The operator `==`. -/
def equals (H : Nodes) (holder : JsonHolder) : Value → Outcome Bool
  | .int i => equalsInt H holder i.toInt
  | .bool val => equalsBool H holder val
  | .cstring str => equalsCString H holder str
  | .string str => equalsCString H holder (cStr str)

end Reading

section Writing

/-- `cJSON_SetIntValue`: the int is assigned from the double. -/
def setIntValue (H : Nodes) (object : Option ℕ) (number : ℤ) : Option Nodes :=
  modifyPointer H object fun c =>
    { c with valuedouble := .finite number, valueint := (Double.finite number).toInt }

def writeInt (H : Nodes) (holder : JsonHolder) (i : Int32) : Outcome Nodes := do
  checkIsNumber H holder
  let H ← setIntValue H holder.cjson i.toInt
  pure H

def writeBool (H : Nodes) (holder : JsonHolder) (val : Bool) : Outcome Nodes := do
  checkIsBool H holder
  let H ← setIntValue H holder.cjson val.toNat
  pure H

/-- Writing a string frees the one before, also that of a string reference: `foreign`
tells for which nodes that buffer is no block of the allocator. -/
def writeCString (foreign : ℕ → Bool) (H : Nodes) (holder : JsonHolder) (str : Text) :
    Outcome Nodes := do
  checkIsString H holder
  let cjson ← holder.cjson
  let c ← H.cell cjson
  if c.valuestring ≠ none ∧ c.isReference ∧ foreign cjson then .undefined
  else pure (H.put cjson { c with valuestring := some str })

/-- The operator `<<`. -/
def write (foreign : ℕ → Bool) (H : Nodes) (holder : JsonHolder) : Value → Outcome Nodes
  | .int i => writeInt H holder i
  | .bool val => writeBool H holder val
  | .cstring str => writeCString foreign H holder str
  | .string str => writeCString foreign H holder (cStr str)

end Writing

section Law

/-- The types a Json value can have. -/
def JsonType (c : CJSON) : Prop :=
  c.kind ∈ [cJSONInvalid, cJSONFalse, cJSONTrue, cJSONNull, cJSONNumber, cJSONString,
    cJSONArray, cJSONObject, cJSONRaw]

instance (c : CJSON) : Decidable (JsonType c) := inferInstanceAs (Decidable (_ ∈ _))

def Value.typeName : Value → String
  | .int _ => "Number"
  | .bool _ => "Bool"
  | .cstring _ | .string _ => "String"

/-- The node has the type of the value. -/
def Value.Fits (c : CJSON) : Value → Prop
  | .int _ => c.kind = cJSONNumber
  | .bool _ => c.kind = cJSONTrue ∨ c.kind = cJSONFalse
  | .cstring _ | .string _ => c.kind = cJSONString

/-- What the types say about a node that holds the value. -/
def Value.TypeAgrees (H : Nodes) (holder : JsonHolder) (v : Value) : Prop :=
  typeString H holder = .value v.typeName ∧
    ∀ val, v = .bool val →
      holds isTrue H holder = .value val ∧ holds isFalse H holder = .value !val

/-- A value is written into a node of its type only, and then read back. -/
structure WriteReadLaw (foreign : ℕ → Bool) (H : Nodes) (holder : JsonHolder) (c : CJSON)
    (v : Value) : Prop where
  rejects : ¬ v.Fits c →
    write foreign H holder v = .throws (.typeError v.typeName (getTypeString c))
  accepts : v.Fits c → ∃ H', write foreign H holder v = .value H' ∧
    read H' holder v = .value v ∧ equals H' holder v = .value true ∧ v.TypeAgrees H' holder

/-- Where the law holds: never for a bool, always for an int; a string must not free a
buffer that is none of the allocator's, and must not contain a NUL. -/
def Value.Lawful (foreign : ℕ → Bool) (a : ℕ) (c : CJSON) : Value → Prop
  | .int _ => True
  | .bool _ => False
  | .cstring _ => c.kind = cJSONString → ¬ (c.valuestring ≠ none ∧ c.isReference ∧ foreign a)
  | .string str => c.kind = cJSONString →
      ¬ (c.valuestring ≠ none ∧ c.isReference ∧ foreign a) ∧ 0 ∉ str

variable {H : Nodes} {holder : JsonHolder} {a : ℕ} {c : CJSON} {foreign : ℕ → Bool}

theorem checkKind_eq (hc : deref H holder = some c) (kind : BitVec 32) (excepted : String) :
    checkKind kind excepted H holder =
      if c.kind ≠ kind then .throws (.typeError excepted (getTypeString c)) else .value () := by
  simp [checkKind, hc]

theorem holds_eq (test : CJSON → Bool) (hc : deref H holder = some c) :
    holds test H holder = .value (test c) := by
  cases ha : holder.cjson with
  | none => simp [deref, ha] at hc
  | some a => simp [holds, ha, hc]

theorem toInt_finite {n : ℤ} (hmin : intMin ≤ n) (hmax : n ≤ intMax) :
    (Double.finite n).toInt = n := by
  simp only [Double.toInt]
  norm_cast
  rw [Int.ceil_intCast, Int.floor_intCast]
  split_ifs <;> omega

theorem toInt_int32 (i : Int32) : (Double.finite (i.toInt : ℤ)).toInt = i.toInt := by
  have hmin := i.le_toInt
  have hmax := i.toInt_lt
  apply toInt_finite
  · unfold intMin
    omega
  · unfold intMax
    omega

theorem toInt_bool (val : Bool) : (Double.finite (val.toNat : ℤ)).toInt = val.toNat := by
  cases val <;> decide

/-- The node of the handle after a change of its values. -/
theorem setIntValue_eq (ha : holder.cjson = some a) (hc : H.cell a = some c) (number : ℤ) :
    setIntValue H holder.cjson number = some (H.put a { c with
      valuedouble := .finite number, valueint := (Double.finite number).toInt }) := by
  rw [ha, setIntValue, modifyPointer, Heap.modify_eq hc]

theorem deref_put (ha : holder.cjson = some a) (hc : H.cell a = some c) (d : CJSON) :
    deref (H.put a d) holder = some d := by
  simp [deref, ha, Heap.cell_put_self hc]

theorem int_law (ha : holder.cjson = some a) (hc : H.cell a = some c) (i : Int32) :
    WriteReadLaw foreign H holder c (.int i) := by
  have hderef : deref H holder = some c := by simp [deref, ha, hc]
  constructor
  · intro hfits
    have hkind : c.kind ≠ cJSONNumber := hfits
    simp [write, writeInt, checkIsNumber, checkKind_eq hderef, hkind, Value.typeName]
  · intro hfits
    have hkind : c.kind = cJSONNumber := hfits
    let d : CJSON := { c with valuedouble := .finite i.toInt, valueint := i.toInt }
    have hd := deref_put ha hc d
    have hdkind : d.kind = cJSONNumber := hkind
    refine ⟨H.put a d, ?_, ?_, ?_, ?_, ?_⟩
    · simp [write, writeInt, checkIsNumber, checkKind_eq hderef, hkind, setIntValue_eq ha hc,
        toInt_int32, d]
    · simp [read, readInt, checkIsNumber, checkKind_eq hd, hdkind, hd, d]
    · simp [equals, equalsInt, holds_eq isNumber hd, isNumber, hdkind, hd, d]
    · simp [typeString, hd, getTypeString, hdkind, Value.typeName]
    · intro val hval
      cases hval

theorem cStr_eq {str : List UInt8} (h : 0 ∉ str) : (cStr str).1 = str := by
  refine List.takeWhile_eq_self_iff.mpr fun b hb => ?_
  have hne : b ≠ 0 := by
    intro heq
    subst heq
    exact h hb
  simpa using hne

theorem writeCString_eq (foreign : ℕ → Bool) (ha : holder.cjson = some a)
    (hc : H.cell a = some c) (str : Text) :
    writeCString foreign H holder str =
      if c.kind ≠ cJSONString then .throws (.typeError "String" (getTypeString c))
      else if c.valuestring ≠ none ∧ c.isReference ∧ foreign a then .undefined
      else .value (H.put a { c with valuestring := some str }) := by
  have hderef : deref H holder = some c := by simp [deref, ha, hc]
  rw [writeCString, checkIsString, checkKind_eq hderef]
  split
  · rfl
  · simp [ha, hc]

/-- What is read from a string node. -/
theorem readCString_eq (hc : deref H holder = some c) (hkind : c.kind = cJSONString) :
    readCString H holder = .value c.valuestring := by
  simp [readCString, checkIsString, checkKind_eq hc, hkind, hc]

theorem equalsCString_eq (hc : deref H holder = some c) (hkind : c.kind = cJSONString)
    {held : Text} (hheld : c.valuestring = some held) (str : Text) :
    equalsCString H holder str = .value (decide (str = held)) := by
  simp [equalsCString, holds_eq isString hc, isString, hkind, hc, hheld]

theorem typeString_string (hc : deref H holder = some c) (hkind : c.kind = cJSONString) :
    typeString H holder = .value "String" := by
  rw [typeString, hc]
  simp [getTypeString, hkind, cJSONString, cJSONNumber]

theorem cstring_law (ha : holder.cjson = some a) (hc : H.cell a = some c) (str : Text)
    (hown : (Value.cstring str).Lawful foreign a c) :
    WriteReadLaw foreign H holder c (.cstring str) := by
  constructor
  · intro hfits
    exact (writeCString_eq _ ha hc str).trans (if_pos hfits)
  · intro hfits
    have hkind : c.kind = cJSONString := hfits
    let d : CJSON := { c with valuestring := some str }
    have hd := deref_put ha hc d
    refine ⟨H.put a d, ?_, ?_, ?_, ?_, fun val hval => by cases hval⟩
    · have hwrite := writeCString_eq foreign ha hc str
      rw [if_neg (not_not.mpr hkind), if_neg (hown hkind)] at hwrite
      exact hwrite
    · simp [read, readCString_eq hd hkind, d]
    · rw [equals, equalsCString_eq hd hkind rfl]
      simp
    · exact typeString_string hd hkind

theorem string_law (ha : holder.cjson = some a) (hc : H.cell a = some c) (str : List UInt8)
    (hlawful : (Value.string str).Lawful foreign a c) :
    WriteReadLaw foreign H holder c (.string str) := by
  constructor
  · intro hfits
    exact (writeCString_eq _ ha hc (cStr str)).trans (if_pos hfits)
  · intro hfits
    have hkind : c.kind = cJSONString := hfits
    obtain ⟨hown, hnul⟩ := hlawful hkind
    let d : CJSON := { c with valuestring := some (cStr str) }
    have hd := deref_put ha hc d
    refine ⟨H.put a d, ?_, ?_, ?_, ?_, fun val hval => by cases hval⟩
    · have hwrite := writeCString_eq foreign ha hc (cStr str)
      rw [if_neg (not_not.mpr hkind), if_neg hown] at hwrite
      exact hwrite
    · simp [read, readString, readCString_eq hd hkind, d, cStr_eq hnul]
    · rw [equals, equalsCString_eq hd hkind rfl]
      simp
    · exact typeString_string hd hkind

/-- A string with a NUL comes back cut off, one that replaces a foreign buffer not at all. -/
theorem lawful_of_law {v : Value} (ha : holder.cjson = some a) (hc : H.cell a = some c)
    (hbool : ∀ val, v ≠ .bool val) (hlaw : WriteReadLaw foreign H holder c v) :
    v.Lawful foreign a c := by
  cases v with
  | int i => trivial
  | bool val => exact absurd rfl (hbool val)
  | cstring str =>
    intro hkind hforeign
    obtain ⟨H', hwrite, -⟩ := hlaw.accepts hkind
    have heq := writeCString_eq foreign ha hc str
    rw [if_neg (not_not.mpr hkind), if_pos hforeign] at heq
    cases heq.symm.trans hwrite
  | string str =>
    intro hkind
    obtain ⟨H', hwrite, hread, -⟩ := hlaw.accepts hkind
    have heq := writeCString_eq foreign ha hc (cStr str)
    rw [if_neg (not_not.mpr hkind)] at heq
    by_cases hforeign : c.valuestring ≠ none ∧ c.isReference ∧ foreign a
    · rw [if_pos hforeign] at heq
      cases heq.symm.trans hwrite
    · refine ⟨hforeign, ?_⟩
      rw [if_neg hforeign] at heq
      cases heq.symm.trans hwrite
      have hd := deref_put ha hc { c with valuestring := some (cStr str) }
      have hback : (cStr str).1 = str := by
        simpa [read, readString, readCString_eq hd hkind] using hread
      rw [← hback]
      exact (cStr str).2

theorem boolBits_eq (c : CJSON) :
    c.type &&& (cJSONTrue ||| cJSONFalse) = c.kind &&& (cJSONTrue ||| cJSONFalse) := by
  rw [CJSON.kind, BitVec.and_assoc]
  rfl

theorem fits_bool_iff (hjson : JsonType c) (val : Bool) :
    (Value.bool val).Fits c ↔ c.type &&& (cJSONTrue ||| cJSONFalse) ≠ 0 := by
  rw [boolBits_eq]
  change (c.kind = cJSONTrue ∨ c.kind = cJSONFalse) ↔ _
  unfold JsonType at hjson
  simp only [List.mem_cons, List.not_mem_nil, or_false] at hjson
  rcases hjson with h | h | h | h | h | h | h | h | h <;> rw [h] <;> decide

theorem writeBool_eq (ha : holder.cjson = some a) (hc : H.cell a = some c) (val : Bool) :
    writeBool H holder val =
      if c.type &&& (cJSONTrue ||| cJSONFalse) ≠ 0 then
        .throws (.typeError "Bool" (getTypeString c))
      else .value (H.put a { c with valuedouble := .finite val.toNat, valueint := val.toNat }) := by
  have hderef : deref H holder = some c := by simp [deref, ha, hc]
  rw [writeBool, checkIsBool, hderef, setIntValue_eq ha hc, toInt_bool]
  simp only [Outcome.lift_some, Outcome.value_bind]
  split <;> rfl

/-- The check before a bool is written throws exactly where it should not. -/
theorem bool_unlawful (ha : holder.cjson = some a) (hc : H.cell a = some c) (hjson : JsonType c)
    (val : Bool) : ¬ WriteReadLaw foreign H holder c (.bool val) := by
  intro hlaw
  have heq := writeBool_eq ha hc val
  by_cases hfits : (Value.bool val).Fits c
  · obtain ⟨H', hwrite, -⟩ := hlaw.accepts hfits
    rw [if_pos ((fits_bool_iff hjson val).mp hfits)] at heq
    cases heq.symm.trans hwrite
  · have hwrite := hlaw.rejects hfits
    rw [if_neg fun hbits => hfits ((fits_bool_iff hjson val).mpr hbits)] at heq
    cases heq.symm.trans hwrite

end Law

/-- Writing and reading agree for every int, for no bool, and for every string that has
no NUL and does not take the place of a buffer that cannot be freed. -/
theorem writeReadLaw_iff (foreign : ℕ → Bool) {H : Nodes} {holder : JsonHolder} {a : ℕ}
    {c : CJSON} (ha : holder.cjson = some a) (hc : H.cell a = some c) (hjson : JsonType c)
    (v : Value) : WriteReadLaw foreign H holder c v ↔ v.Lawful foreign a c := by
  constructor
  · intro hlaw
    by_cases hbool : ∀ val, v ≠ .bool val
    · exact lawful_of_law ha hc hbool hlaw
    · simp only [not_forall, not_not] at hbool
      obtain ⟨val, rfl⟩ := hbool
      exact absurd hlaw (bool_unlawful ha hc hjson val)
  · intro hlawful
    cases v with
    | int i => exact int_law ha hc i
    | bool val => exact hlawful.elim
    | cstring str => exact cstring_law ha hc str hlawful
    | string str => exact string_law ha hc str hlawful

/-- The int 7 is written over the int 0. -/
theorem writeReadLaw_number :
    WriteReadLaw (fun _ => false) (createNumber Heap.empty (.finite 0)).1 ⟨some 0, false⟩
      { type := cJSONNumber } (.int 7) :=
  (writeReadLaw_iff (fun _ => false) rfl (by decide) (by decide) (.int 7)).mpr trivial

/-- The bool `true` does not take the value `false`. -/
theorem bool_not_written :
    ¬ ∀ (foreign : ℕ → Bool) (H : Nodes) (holder : JsonHolder) (a : ℕ) (c : CJSON) (v : Value),
      holder.cjson = some a → H.cell a = some c → JsonType c →
        WriteReadLaw foreign H holder c v := by
  intro h
  have hlaw := h (fun _ => false) (createTrue Heap.empty).1 ⟨some 0, false⟩ 0
    { type := cJSONTrue } (.bool false) rfl (by decide) (by decide)
  obtain ⟨H', hwrite, -⟩ := hlaw.accepts (Or.inl rfl)
  have hthrows : write (fun _ => false) (createTrue Heap.empty).1 ⟨some 0, false⟩ (.bool false) =
      .throws (.typeError "Bool" "Bool") := rfl
  cases hthrows.symm.trans hwrite

end BoxUtils.Json
