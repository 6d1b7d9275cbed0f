import BoxUtils.CJsonCompare
import BoxUtils.CJsonParse
import BoxUtils.Runs

/-!
Json values that are built in every way: by the parser, by the `Create` functions, by
adding to containers, by copying and by popping. The nodes of all of them carry numbers
that go together with their types; what differs is the number of a node that is `true`.
-/
namespace BoxUtils.Json

open CJson Runs

section Source

/-- The common form of the functions that add a new value to an array. -/
def State.addCreated (s : State) (array : ℕ) (item : Creation) : Outcome State := do
  checkIsArray s.heap (s.holder array)
  let (heap, cjson) ← create s.heap item
  let (heap, _) ← addItemToArray heap (s.holder array).cjson cjson
  pure { s with heap := heap }

def State.addString (s : State) (array : ℕ) (str : Text) : Outcome State :=
  s.addCreated array (.string str)

def State.addNumber (s : State) (array : ℕ) (number : Double) : Outcome State :=
  s.addCreated array (.number number)

def State.addNull (s : State) (array : ℕ) : Outcome State := s.addCreated array .null

def State.addBool (s : State) (array : ℕ) (val : Bool) : Outcome State :=
  s.addCreated array (.bool val)

/-- `cJSON_AddStringToObject` and its siblings, for an item that was created: it is deleted
when it cannot be added. -/
def addNewToObject (H : Nodes) (object : Option ℕ) (name : Option Text) (item : Option ℕ) :
    Option Nodes := do
  let (H, ok) ← addItemToObject H object name item false
  if ok then some H else delete H.fresh H item

/-- The common form of the functions that add a new member to an object. -/
def State.addCreatedTo (s : State) (object : ℕ) (key : Text) (item : Creation) :
    Outcome State := do
  checkIsObject s.heap (s.holder object)
  let (heap, cjson) ← create s.heap item
  let heap ← addNewToObject heap (s.holder object).cjson (some key) cjson
  pure { s with heap := heap }

def State.addStringTo (s : State) (object : ℕ) (key str : Text) : Outcome State :=
  s.addCreatedTo object key (.string str)

def State.addNullTo (s : State) (object : ℕ) (key : Text) : Outcome State :=
  s.addCreatedTo object key .null

def State.addBoolTo (s : State) (object : ℕ) (key : Text) (val : Bool) : Outcome State :=
  s.addCreatedTo object key (.bool val)

/-- A number goes through `cJSON_AddItemToObject`, which does not delete it. -/
def State.addNumberTo (s : State) (object : ℕ) (key : Text) (number : Double) :
    Outcome State := do
  checkIsObject s.heap (s.holder object)
  let (heap, cjson) ← create s.heap (.number number)
  let (heap, _) ← addItemToObject heap (s.holder object).cjson (some key) cjson false
  pure { s with heap := heap }

/-- The values that can be added without a handle. -/
inductive Added
  | string (str : Text)
  | number (number : Double)
  | null
  | bool (val : Bool)

def State.add (s : State) (array : ℕ) : Added → Outcome State
  | .string str => s.addString array str
  | .number number => s.addNumber array number
  | .null => s.addNull array
  | .bool val => s.addBool array val

def State.addTo (s : State) (object : ℕ) (key : Text) : Added → Outcome State
  | .string str => s.addStringTo object key str
  | .number number => s.addNumberTo object key number
  | .null => s.addNullTo object key
  | .bool val => s.addBoolTo object key val

variable (strtod : List UInt8 → Double × ℕ)

/-- `Json::ParseString` throws where cJSON returns a null pointer. -/
def State.parseString (s : State) (h : ℕ) (str : Text) (calls : ℕ) : Outcome State := do
  let (heap, cjson) ← parse strtod calls s.heap str
  match cjson with
  | none => pure { s with heap := heap }
  | some item => pure (s.construct h heap ⟨some item, false⟩)

/-- The ways to build a value. -/
inductive Build
  | basic (op : Op)
  | parse (h : ℕ) (str : Text) (calls : ℕ)
  | add (array : ℕ) (item : Added)
  | addTo (object : ℕ) (key : Text) (item : Added)

def Outcome.proceed (s : State) : Outcome State → State
  | .value t => t
  | .throws _ => s
  | .undefined => { s with undefined := true }

def nextBuild (s : State) : Build → Option State
  | .basic op => next s op
  | .parse h str calls =>
    if s.undefined = false ∧ h ∉ s.live then some ((s.parseString strtod h str calls).proceed s)
    else none
  | .add array item =>
    if s.undefined = false ∧ array ∈ s.live then some ((s.add array item).proceed s) else none
  | .addTo object key item =>
    if s.undefined = false ∧ object ∈ s.live then some ((s.addTo object key item).proceed s)
    else none

end Source

/-- The numbers of a node that go together with its type; which of them a value `true` has
depends on where it comes from. -/
structure Built (truth : ℤ → Prop) (c : CJSON) : Prop where
  number : c.kind = cJSONNumber → c.valueint = c.valuedouble.toInt
  ofFalse : c.kind = cJSONFalse → c.valueint = 0
  ofTrue : c.kind = cJSONTrue → truth c.valueint

/-- The number of a value `true` that is created is 0. -/
def Creation.Makes (truth : ℤ → Prop) : Creation → Prop
  | .true => truth 0
  | .bool boolen => boolen = Bool.true → truth 0
  | _ => True

def Added.Makes (truth : ℤ → Prop) : Added → Prop
  | .bool val => (Creation.bool val).Makes truth
  | _ => True

/-- That of one that is parsed is 1. -/
def Build.Makes (truth : ℤ → Prop) : Build → Prop
  | .basic (.create _ item) => item.Makes truth
  | .basic _ => True
  | .parse _ _ _ => truth 1
  | .add _ item | .addTo _ _ item => item.Makes truth

variable {truth : ℤ → Prop}

theorem intrinsic_built : Intrinsic (Built truth) := by
  intro c d hkind hint hdouble h
  constructor
  · intro hk
    rw [hint, hdouble]
    exact h.number (hkind ▸ hk)
  · intro hk
    rw [hint]
    exact h.ofFalse (hkind ▸ hk)
  · intro hk
    rw [hint]
    exact h.ofTrue (hkind ▸ hk)

/-- A node of another type makes no use of its numbers. -/
theorem built_of_kind {c : CJSON} (h : c.kind ∉ [cJSONNumber, cJSONFalse, cJSONTrue]) :
    Built truth c := by
  simp only [List.mem_cons, List.not_mem_nil, or_false, not_or] at h
  exact ⟨fun hk => absurd hk h.1, fun hk => absurd hk h.2.1, fun hk => absurd hk h.2.2⟩

theorem built_of_zero {c : CJSON} (h : c.valueint = 0)
    (hkind : c.kind ∉ [cJSONNumber, cJSONTrue]) : Built truth c := by
  simp only [List.mem_cons, List.not_mem_nil, or_false, not_or] at hkind
  exact ⟨fun hk => absurd hk hkind.1, fun _ => h, fun hk => absurd hk hkind.2⟩

theorem built_number (c : CJSON) (number : Double) :
    Built truth
      { c with valuedouble := number, valueint := number.toInt, type := cJSONNumber } := by
  have hkind : cJSONNumber &&& 0xFF = cJSONNumber := by decide
  refine ⟨fun _ => rfl, fun hk => ?_, fun hk => ?_⟩ <;>
    exact absurd (hkind.symm.trans hk) (by decide)

theorem built_true {c : CJSON} (hkind : c.kind = cJSONTrue) (h : truth c.valueint) :
    Built truth c := by
  refine ⟨fun hk => ?_, fun hk => ?_, fun _ => h⟩ <;>
    exact absurd (hkind.symm.trans hk) (by decide)

section Creating

variable {H H' : Nodes}

theorem built_newItem (h : H.Everywhere (Built truth)) {item : CJSON} (hitem : Built truth item) :
    (newItem H item).1.Everywhere (Built truth) := fun a => (h a).alloc hitem

theorem built_intArrayLoop {numbers : List ℤ} {a left i : ℕ} {p : Option ℕ}
    (h : H.Everywhere (Built truth)) (hloop : createIntArrayLoop numbers a left i p H = some H') :
    H'.Everywhere (Built truth) := by
  induction left generalizing H i p with
  | zero =>
    obtain rfl := Option.some.inj hloop
    exact h
  | succ left ih =>
    obtain ⟨number, -, hloop⟩ := Option.bind_eq_some_iff.mp hloop
    obtain ⟨H₁, hlink, hloop⟩ := Option.bind_eq_some_iff.mp hloop
    have hnew := built_newItem h (built_number {} (.finite number))
    refine ih (fun b => ?_) hloop
    split at hlink
    · exact (hnew b).modify hlink fun c => intrinsic_built c _ rfl rfl rfl
    · exact at_suffixObject intrinsic_built (hnew b) hlink

theorem built_create (h : H.Everywhere (Built truth)) {item : Creation} {p : Option ℕ}
    (hmakes : item.Makes truth) (hcreate : create H item = some (H', p)) :
    H'.Everywhere (Built truth) := by
  have hnew : ∀ {c : CJSON}, some ((newItem H c).map id some) = some (H', p) → Built truth c →
      H'.Everywhere (Built truth) := by
    intro c heq hc
    obtain ⟨rfl, -⟩ := Prod.mk.inj (Option.some.inj heq)
    exact built_newItem h hc
  cases item with
  | number number => exact hnew hcreate (built_number {} number)
  | null | false | table | array => exact hnew hcreate (built_of_zero rfl (by decide))
  | true => exact hnew hcreate (built_true (by decide) hmakes)
  | bool boolen =>
    cases boolen with
    | false => exact hnew hcreate (built_of_zero rfl (by decide))
    | true => exact hnew hcreate (built_true (by decide) (hmakes rfl))
  | string str =>
    have hkind : cJSONString &&& 0xFF ∉ [cJSONNumber, cJSONTrue] := by decide
    exact hnew hcreate (built_of_zero rfl hkind)
  | stringRef str =>
    have hkind : (cJSONString ||| cJSONIsReference) &&& 0xFF ∉ [cJSONNumber, cJSONTrue] := by
      decide
    exact hnew hcreate (built_of_zero rfl hkind)
  | intArray numbers count =>
    unfold create createIntArray at hcreate
    dsimp only at hcreate
    split at hcreate
    · obtain ⟨rfl, -⟩ := Prod.mk.inj (Option.some.inj hcreate)
      exact h
    · split at hcreate
      · obtain ⟨rfl, -⟩ := Prod.mk.inj (Option.some.inj hcreate)
        exact h
      · obtain ⟨H₁, hloop, hcreate⟩ := Option.bind_eq_some_iff.mp hcreate
        obtain ⟨rfl, -⟩ := Prod.mk.inj (Option.some.inj hcreate)
        have hnew := built_newItem h (built_of_zero (c := { type := cJSONArray }) rfl (by decide))
        exact built_intArrayLoop hnew hloop

end Creating

section Parsing

variable {strtod : List UInt8 → Double × ℕ} {H H' : Nodes} {item : ℕ} {b b' : Buffer} {ok : Bool}

/-- The number of a node has not been set. -/
def Unset (c : CJSON) : Prop := c.valueint = 0

theorem intrinsic_unset : Intrinsic Unset := fun _ _ _ hint _ h => hint.trans h

/-- The parser sets the type of a node whose number has not been set. -/
theorem built_modify {f : CJSON → CJSON} (h : H.Everywhere (Built truth)) (hitem : H.At item Unset)
    (hmodify : H.modify item f = some H') (hf : ∀ c, Unset c → Built truth (f c)) :
    H'.Everywhere (Built truth) := by
  obtain ⟨c, hc, rfl⟩ := Option.map_eq_some_iff.mp hmodify
  exact fun a => (h a).put (hf c (hitem c hc))

theorem parseString_built (h : H.Everywhere (Built truth)) (hitem : H.At item Unset)
    (hparse : CJson.parseString H item b = some (H', b', ok)) :
    H'.Everywhere (Built truth) ∧ H'.At item Unset := by
  unfold CJson.parseString at hparse
  split at hparse
  · obtain ⟨rfl, -⟩ := Prod.mk.inj (Option.some.inj hparse)
    exact ⟨h, hitem⟩
  · obtain ⟨H₁, hmodify, hparse⟩ := Option.bind_eq_some_iff.mp hparse
    obtain ⟨rfl, -⟩ := Prod.mk.inj (Option.some.inj hparse)
    have hkind : cJSONString &&& 0xFF ∉ [cJSONNumber, cJSONTrue] := by decide
    exact ⟨built_modify h hitem hmodify fun c hc => built_of_zero hc hkind,
      hitem.modify hmodify fun c hc => hc⟩

theorem parseName_built (h : H.Everywhere (Built truth)) (hitem : H.At item Unset)
    (hparse : parseName H item b = some (H', b', ok)) :
    H'.Everywhere (Built truth) ∧ H'.At item Unset := by
  obtain ⟨⟨H₁, b₁, ok₁⟩, hstring, hparse⟩ := Option.bind_eq_some_iff.mp hparse
  obtain ⟨h₁, hitem₁⟩ := parseString_built h hitem hstring
  dsimp only at hparse
  split at hparse
  · obtain ⟨rfl, -⟩ := Prod.mk.inj (Option.some.inj hparse)
    exact ⟨h₁, hitem₁⟩
  · obtain ⟨H₂, hmodify, hparse⟩ := Option.bind_eq_some_iff.mp hparse
    have h₂ : H₂.Everywhere (Built truth) :=
      fun a => (h₁ a).modify hmodify fun c => intrinsic_built c _ rfl rfl rfl
    have hitem₂ := hitem₁.modify hmodify fun c => intrinsic_unset c _ rfl rfl rfl
    split at hparse <;> obtain ⟨rfl, -⟩ := Prod.mk.inj (Option.some.inj hparse) <;>
      exact ⟨h₂, hitem₂⟩

theorem parseNumber_built (h : H.Everywhere (Built truth))
    (hparse : parseNumber strtod H item b = some (H', b', ok)) : H'.Everywhere (Built truth) := by
  unfold parseNumber at hparse
  dsimp only at hparse
  split at hparse
  · obtain ⟨rfl, -⟩ := Prod.mk.inj (Option.some.inj hparse)
    exact h
  · obtain ⟨H₁, hmodify, hparse⟩ := Option.bind_eq_some_iff.mp hparse
    obtain ⟨rfl, -⟩ := Prod.mk.inj (Option.some.inj hparse)
    exact fun a => (h a).modify hmodify fun c _ => built_number c _

theorem closeContainer_built {container : Container} {head : Option ℕ}
    (h : H.Everywhere (Built truth))
    (hclose : closeContainer container H item head b = some (H', b', ok)) :
    H'.Everywhere (Built truth) := by
  obtain ⟨H₁, hmodify, hclose⟩ := Option.bind_eq_some_iff.mp hclose
  obtain ⟨rfl, -⟩ := Prod.mk.inj (Option.some.inj hclose)
  have hkind : container.type &&& 0xFF ∉ [cJSONNumber, cJSONFalse, cJSONTrue] := by
    cases container <;> decide
  exact fun a => (h a).modify hmodify fun c _ => built_of_kind hkind

/-- A new element, behind the current one. -/
theorem attachNext_built (current : Option ℕ) (h : H.Everywhere (Built truth))
    (hlink : attachNext (newItem H {}).1 current H.fresh = some H') :
    H'.Everywhere (Built truth) ∧ H'.At H.fresh Unset := by
  have hnew := built_newItem h (built_of_zero (c := {}) rfl (by decide))
  have hunset : (newItem H {}).1.At H.fresh Unset := by
    intro c hc
    obtain rfl := Option.some.inj ((Heap.cell_alloc_self H _).symm.trans hc)
    rfl
  cases current with
  | none =>
    obtain rfl := Option.some.inj hlink
    exact ⟨hnew, hunset⟩
  | some x =>
    exact ⟨fun a => at_suffixObject intrinsic_built (hnew a) hlink,
      at_suffixObject intrinsic_unset hunset hlink⟩

variable (strtod) (truth)

/-- With n nested calls, a value is parsed into nodes that are built. -/
def ParsesValue (n : ℕ) : Prop :=
  ∀ {H H' : Nodes} {item : ℕ} {b b' : Buffer} {ok : Bool}, H.Everywhere (Built truth) →
    H.At item Unset → parseValue strtod n H item b = some (H', b', ok) → H'.Everywhere (Built truth)

def ParsesContainer (n : ℕ) : Prop :=
  ∀ {container : Container} {H H' : Nodes} {item : ℕ} {b b' : Buffer} {ok : Bool},
    H.Everywhere (Built truth) → parseContainer strtod container n H item b = some (H', b', ok) →
    H'.Everywhere (Built truth)

def ParsesElements (n : ℕ) : Prop :=
  ∀ {container : Container} {H H' : Nodes} {head head' current : Option ℕ} {b b' : Buffer}
    {ok : Bool}, H.Everywhere (Built truth) →
    parseElements strtod container n H head current b = some (H', head', b', ok) →
    H'.Everywhere (Built truth)

variable {truth} {strtod} {n : ℕ}

theorem parsesValue_succ (hone : truth 1) (ih : ParsesContainer truth strtod n) :
    ParsesValue truth strtod (n + 1) := by
  intro H H' item b b' ok h hitem hparse
  have hliteral : ∀ {f : CJSON → CJSON} {k : ℕ},
      ((H.modify item f).bind fun H => some (H, b.advance k, true)) = some (H', b', ok) →
      (∀ c, Unset c → Built truth (f c)) → H'.Everywhere (Built truth) := by
    intro f k heq hf
    obtain ⟨H₁, hmodify, heq⟩ := Option.bind_eq_some_iff.mp heq
    obtain ⟨rfl, -⟩ := Prod.mk.inj (Option.some.inj heq)
    exact built_modify h hitem hmodify hf
  rw [parseValue] at hparse
  split at hparse
  · have hkind : cJSONNull &&& 0xFF ∉ [cJSONNumber, cJSONTrue] := by decide
    exact hliteral hparse fun c hc => built_of_zero hc hkind
  · split at hparse
    · have hkind : cJSONFalse &&& 0xFF ∉ [cJSONNumber, cJSONTrue] := by decide
      exact hliteral hparse fun c hc => built_of_zero hc hkind
    · split at hparse
      · -- the only value with a number that is not there for it
        have hkind : cJSONTrue &&& 0xFF = cJSONTrue := by decide
        exact hliteral hparse fun c hc => built_true hkind hone
      · split at hparse
        · obtain ⟨rfl, -⟩ := Prod.mk.inj (Option.some.inj hparse)
          exact h
        · split at hparse
          · exact (parseString_built h hitem hparse).1
          · split at hparse
            · exact parseNumber_built h hparse
            · split at hparse
              · exact ih h hparse
              · split at hparse
                · exact ih h hparse
                · obtain ⟨rfl, -⟩ := Prod.mk.inj (Option.some.inj hparse)
                  exact h

theorem parsesContainer_succ (ih : ParsesElements truth strtod n) :
    ParsesContainer truth strtod (n + 1) := by
  intro container H H' item b b' ok h hparse
  have hsame : ∀ {c : Buffer}, some (H, c, false) = some (H', b', ok) →
      H'.Everywhere (Built truth) := by
    intro c heq
    obtain ⟨rfl, -⟩ := Prod.mk.inj (Option.some.inj heq)
    exact h
  rw [parseContainer] at hparse
  dsimp only at hparse
  split at hparse
  · exact hsame hparse
  · split at hparse
    · exact hsame hparse
    · split at hparse
      · exact hsame hparse
      · split at hparse
        · exact closeContainer_built h hparse
        · obtain ⟨⟨H₁, head, b₁, ok₁⟩, helements, hparse⟩ := Option.bind_eq_some_iff.mp hparse
          have h₁ := ih h helements
          dsimp only at hparse
          split at hparse
          · exact closeContainer_built h₁ hparse
          · obtain ⟨H₂, hdelete, hparse⟩ := Option.bind_eq_some_iff.mp hparse
            obtain ⟨rfl, -⟩ := Prod.mk.inj (Option.some.inj hparse)
            exact fun a => at_delete (h₁ a) hdelete

theorem parsesElements_succ (ihvalue : ParsesValue truth strtod n)
    (ih : ParsesElements truth strtod n) : ParsesElements truth strtod (n + 1) := by
  intro container H H' head head' current b b' ok h hparse
  rw [parseElements] at hparse
  obtain ⟨H₁, hlink, hparse⟩ := Option.bind_eq_some_iff.mp hparse
  obtain ⟨h₁, hitem₁⟩ := attachNext_built current h hlink
  obtain ⟨⟨H₂, b₂, ok₂⟩, hname, hparse⟩ := Option.bind_eq_some_iff.mp hparse
  have hnamed : H₂.Everywhere (Built truth) ∧ H₂.At H.fresh Unset := by
    cases container with
    | array =>
      obtain ⟨rfl, -⟩ := Prod.mk.inj (Option.some.inj hname)
      exact ⟨h₁, hitem₁⟩
    | object => exact parseName_built h₁ hitem₁ hname
  dsimp only at hparse
  split at hparse
  · obtain ⟨rfl, -⟩ := Prod.mk.inj (Option.some.inj hparse)
    exact hnamed.1
  · obtain ⟨⟨H₃, b₃, ok₃⟩, hvalue, hparse⟩ := Option.bind_eq_some_iff.mp hparse
    have h₃ := ihvalue hnamed.1 hnamed.2 hvalue
    dsimp only at hparse
    split at hparse
    · obtain ⟨rfl, -⟩ := Prod.mk.inj (Option.some.inj hparse)
      exact h₃
    · split at hparse
      · exact ih h₃ hparse
      · obtain ⟨rfl, -⟩ := Prod.mk.inj (Option.some.inj hparse)
        exact h₃

theorem parses (hone : truth 1) (n : ℕ) :
    ParsesValue truth strtod n ∧ ParsesContainer truth strtod n ∧
      ParsesElements truth strtod n := by
  induction n with
  | zero =>
    refine ⟨?_, ?_, ?_⟩
    · intro H H' item b b' ok h hitem hparse
      cases hparse
    · intro container H H' item b b' ok h hparse
      cases hparse
    · intro container H H' head head' current b b' ok h hparse
      cases hparse
  | succ n ih =>
    exact ⟨parsesValue_succ hone ih.2.1, parsesContainer_succ ih.2.2,
      parsesElements_succ ih.1 ih.2.2⟩

theorem built_parse {calls : ℕ} {value : Text} {p : Option ℕ} (h : H.Everywhere (Built truth))
    (hone : truth 1) (hparse : parse strtod calls H value = some (H', p)) :
    H'.Everywhere (Built truth) := by
  obtain ⟨hnew, hunset⟩ := attachNext_built none h rfl
  obtain ⟨⟨H₁, b₁, ok₁⟩, hvalue, hparse⟩ := Option.bind_eq_some_iff.mp hparse
  have h₁ := (parses hone calls).1 hnew hunset hvalue
  dsimp only at hparse
  split at hparse
  · obtain ⟨rfl, -⟩ := Prod.mk.inj (Option.some.inj hparse)
    exact h₁
  · obtain ⟨H₂, hdelete, hparse⟩ := Option.bind_eq_some_iff.mp hparse
    obtain ⟨rfl, -⟩ := Prod.mk.inj (Option.some.inj hparse)
    exact fun a => at_delete (h₁ a) hdelete

end Parsing

section Steps

theorem Outcome.bind_eq_value {α β : Type} {x : Outcome α} {f : α → Outcome β} {b : β}
    (h : x >>= f = .value b) : ∃ a, x = .value a ∧ f a = .value b := by
  cases x with
  | value a => exact ⟨a, rfl, h⟩
  | throws e => cases h
  | undefined => cases h

theorem Outcome.lift_bind_eq_value {α β : Type} {x : Option α} {f : α → Outcome β} {b : β}
    (h : (liftM x : Outcome α) >>= f = .value b) : ∃ a, x = some a ∧ f a = .value b := by
  cases x with
  | none => cases h
  | some a => exact ⟨a, rfl, h⟩

variable {strtod : List UInt8 → Double × ℕ} {s t : State}

theorem built_copy {H' : Nodes} {holder : JsonHolder} {p : Option ℕ}
    (h : s.heap.Everywhere (Built truth)) (hcopy : duplicateWhole s.heap holder = some (H', p)) :
    H'.Everywhere (Built truth) :=
  (everywhere_duplicate intrinsic_built _).1 h hcopy

theorem built_addItem {array json : ℕ} (h : s.heap.Everywhere (Built truth))
    (hadd : s.addItem array json = .value t) : t.heap.Everywhere (Built truth) := by
  obtain ⟨-, -, hadd⟩ := Outcome.bind_eq_value hadd
  split at hadd
  · obtain ⟨⟨H₁, ok⟩, hlink, hadd⟩ := Outcome.lift_bind_eq_value hadd
    obtain rfl := Outcome.value.inj hadd
    exact fun a => at_addItemToArray intrinsic_built (h a) hlink
  · obtain ⟨⟨H₁, p⟩, hcopy, hadd⟩ := Outcome.lift_bind_eq_value hadd
    obtain ⟨⟨H₂, ok⟩, hlink, hadd⟩ := Outcome.lift_bind_eq_value hadd
    obtain rfl := Outcome.value.inj hadd
    exact fun a => at_addItemToArray intrinsic_built (built_copy h hcopy a) hlink

theorem built_addItemTo {object json : ℕ} {key : Text} (h : s.heap.Everywhere (Built truth))
    (hadd : s.addItemTo object key json = .value t) : t.heap.Everywhere (Built truth) := by
  obtain ⟨-, -, hadd⟩ := Outcome.bind_eq_value hadd
  split at hadd
  · obtain ⟨⟨H₁, ok⟩, hlink, hadd⟩ := Outcome.lift_bind_eq_value hadd
    obtain rfl := Outcome.value.inj hadd
    exact everywhere_addItemToObject intrinsic_built h hlink
  · obtain ⟨⟨H₁, p⟩, hcopy, hadd⟩ := Outcome.lift_bind_eq_value hadd
    obtain ⟨⟨H₂, ok⟩, hlink, hadd⟩ := Outcome.lift_bind_eq_value hadd
    obtain rfl := Outcome.value.inj hadd
    exact everywhere_addItemToObject intrinsic_built (built_copy h hcopy) hlink

theorem built_popIndex {H' : Nodes} {holder r : JsonHolder} {val : ℤ}
    (h : s.heap.Everywhere (Built truth)) (hpop : popIndex s.heap holder val = .value (H', r)) :
    H'.Everywhere (Built truth) := by
  obtain ⟨-, -, hpop⟩ := Outcome.bind_eq_value hpop
  obtain ⟨⟨H₁, p⟩, hdetach, hpop⟩ := Outcome.lift_bind_eq_value hpop
  cases p with
  | none => cases hpop
  | some a =>
    obtain ⟨rfl, -⟩ := Prod.mk.inj (Outcome.value.inj hpop)
    exact fun a => at_detachItemFromArray intrinsic_built (h a) hdetach

theorem built_popKey {H' : Nodes} {holder r : JsonHolder} {key : Text} {caseSensitive : Bool}
    (h : s.heap.Everywhere (Built truth))
    (hpop : popKey s.heap holder key caseSensitive = .value (H', r)) :
    H'.Everywhere (Built truth) := by
  obtain ⟨-, -, hpop⟩ := Outcome.bind_eq_value hpop
  obtain ⟨⟨H₁, p⟩, hdetach, hpop⟩ := Outcome.lift_bind_eq_value hpop
  have h₁ : H₁.Everywhere (Built truth) := by
    intro a
    cases caseSensitive with
    | true =>
      obtain ⟨item, -, hdetach⟩ := Option.bind_eq_some_iff.mp hdetach
      exact at_detachItemViaPointer intrinsic_built (h a) hdetach
    | false =>
      obtain ⟨item, -, hdetach⟩ := Option.bind_eq_some_iff.mp hdetach
      exact at_detachItemViaPointer intrinsic_built (h a) hdetach
  cases p with
  | none => cases hpop
  | some a =>
    obtain ⟨rfl, -⟩ := Prod.mk.inj (Outcome.value.inj hpop)
    exact h₁

theorem built_perform {op : Op} (h : s.heap.Everywhere (Built truth))
    (hmakes : (Build.basic op).Makes truth) (hperform : perform s op = .value t) :
    t.heap.Everywhere (Built truth) := by
  cases op with
  | create k item =>
    obtain ⟨⟨H₁, p⟩, hcreate, hperform⟩ := Outcome.lift_bind_eq_value hperform
    obtain rfl := Outcome.value.inj hperform
    exact built_create h hmakes hcreate
  | copy k src =>
    obtain ⟨⟨H₁, p⟩, hcopy, hperform⟩ := Outcome.lift_bind_eq_value hperform
    obtain rfl := Outcome.value.inj hperform
    exact built_copy h hcopy
  | addItem array json => exact built_addItem h hperform
  | addItemTo object key json => exact built_addItemTo h hperform
  | popIndex k array val =>
    obtain ⟨⟨H₁, r⟩, hpop, hperform⟩ := Outcome.bind_eq_value hperform
    obtain rfl := Outcome.value.inj hperform
    exact built_popIndex h hpop
  | popKey k object key caseSensitive =>
    obtain ⟨⟨H₁, r⟩, hpop, hperform⟩ := Outcome.bind_eq_value hperform
    obtain rfl := Outcome.value.inj hperform
    exact built_popKey h hpop
  | destroy k =>
    obtain ⟨H₁, hdelete, hperform⟩ := Outcome.lift_bind_eq_value hperform
    obtain rfl := Outcome.value.inj hperform
    split at hdelete
    · obtain rfl := Option.some.inj hdelete
      exact h
    · exact fun a => at_delete (h a) hdelete

theorem built_addCreated {array : ℕ} {item : Creation} (h : s.heap.Everywhere (Built truth))
    (hmakes : item.Makes truth) (hadd : s.addCreated array item = .value t) :
    t.heap.Everywhere (Built truth) := by
  obtain ⟨-, -, hadd⟩ := Outcome.bind_eq_value hadd
  obtain ⟨⟨H₁, p⟩, hcreate, hadd⟩ := Outcome.lift_bind_eq_value hadd
  obtain ⟨⟨H₂, ok⟩, hlink, hadd⟩ := Outcome.lift_bind_eq_value hadd
  obtain rfl := Outcome.value.inj hadd
  exact fun a => at_addItemToArray intrinsic_built (built_create h hmakes hcreate a) hlink

theorem built_addNewToObject {H H' : Nodes} {object item : Option ℕ} {name : Option Text}
    (h : H.Everywhere (Built truth)) (hadd : addNewToObject H object name item = some H') :
    H'.Everywhere (Built truth) := by
  obtain ⟨⟨H₁, ok⟩, hlink, hadd⟩ := Option.bind_eq_some_iff.mp hadd
  have h₁ := everywhere_addItemToObject intrinsic_built h hlink
  dsimp only at hadd
  split at hadd
  · obtain rfl := Option.some.inj hadd
    exact h₁
  · exact fun a => at_delete (h₁ a) hadd

theorem built_addCreatedTo {object : ℕ} {key : Text} {item : Creation}
    (h : s.heap.Everywhere (Built truth)) (hmakes : item.Makes truth)
    (hadd : s.addCreatedTo object key item = .value t) : t.heap.Everywhere (Built truth) := by
  obtain ⟨-, -, hadd⟩ := Outcome.bind_eq_value hadd
  obtain ⟨⟨H₁, p⟩, hcreate, hadd⟩ := Outcome.lift_bind_eq_value hadd
  obtain ⟨H₂, hlink, hadd⟩ := Outcome.lift_bind_eq_value hadd
  obtain rfl := Outcome.value.inj hadd
  exact built_addNewToObject (built_create h hmakes hcreate) hlink

theorem built_addNumberTo {object : ℕ} {key : Text} {number : Double}
    (h : s.heap.Everywhere (Built truth)) (hadd : s.addNumberTo object key number = .value t) :
    t.heap.Everywhere (Built truth) := by
  obtain ⟨-, -, hadd⟩ := Outcome.bind_eq_value hadd
  obtain ⟨⟨H₁, p⟩, hcreate, hadd⟩ := Outcome.lift_bind_eq_value hadd
  obtain ⟨⟨H₂, ok⟩, hlink, hadd⟩ := Outcome.lift_bind_eq_value hadd
  obtain rfl := Outcome.value.inj hadd
  have hmakes : (Creation.number number).Makes truth := trivial
  exact everywhere_addItemToObject intrinsic_built (built_create h hmakes hcreate) hlink

theorem built_parseString {k : ℕ} {str : Text} {calls : ℕ} (h : s.heap.Everywhere (Built truth))
    (hone : truth 1) (hparse : s.parseString strtod k str calls = .value t) :
    t.heap.Everywhere (Built truth) := by
  obtain ⟨⟨H₁, p⟩, hparse₁, hparse⟩ := Outcome.lift_bind_eq_value hparse
  have h₁ := built_parse h hone hparse₁
  cases p with
  | none =>
    obtain rfl := Outcome.value.inj hparse
    exact h₁
  | some a =>
    obtain rfl := Outcome.value.inj hparse
    exact h₁

theorem built_proceed {x : Outcome State} (h : s.heap.Everywhere (Built truth))
    (hx : ∀ t, x = .value t → t.heap.Everywhere (Built truth)) :
    (x.proceed s).heap.Everywhere (Built truth) := by
  cases x with
  | value t => exact hx t rfl
  | throws e => exact h
  | undefined => exact h

theorem built_next {op : Op} (h : s.heap.Everywhere (Built truth))
    (hmakes : (Build.basic op).Makes truth) (hstep : next s op = some t) :
    t.heap.Everywhere (Built truth) := by
  obtain ⟨-, hstep⟩ := Option.ite_none_right_eq_some.mp hstep
  cases hperform : perform s op with
  | value u =>
    rw [hperform] at hstep
    obtain rfl := Option.some.inj hstep
    exact built_perform h hmakes hperform
  | throws e =>
    rw [hperform] at hstep
    obtain rfl := Option.some.inj hstep
    exact h
  | undefined =>
    rw [hperform] at hstep
    obtain rfl := Option.some.inj hstep
    exact h

/-- However a value is built, its nodes are. -/
theorem built_nextBuild {a : Build} (h : s.heap.Everywhere (Built truth))
    (hmakes : a.Makes truth) (hstep : nextBuild strtod s a = some t) :
    t.heap.Everywhere (Built truth) := by
  cases a with
  | basic op => exact built_next h hmakes hstep
  | parse k str calls =>
    obtain ⟨-, hstep⟩ := Option.ite_none_right_eq_some.mp hstep
    obtain rfl := Option.some.inj hstep
    exact built_proceed h fun t ht => built_parseString h hmakes ht
  | add array item =>
    obtain ⟨-, hstep⟩ := Option.ite_none_right_eq_some.mp hstep
    obtain rfl := Option.some.inj hstep
    refine built_proceed h fun t ht => ?_
    cases item <;> exact built_addCreated h (by exact hmakes) ht
  | addTo object key item =>
    obtain ⟨-, hstep⟩ := Option.ite_none_right_eq_some.mp hstep
    obtain rfl := Option.some.inj hstep
    refine built_proceed h fun t ht => ?_
    cases item with
    | number number => exact built_addNumberTo h ht
    | string str | null | bool val => exact built_addCreatedTo h (by exact hmakes) ht

end Steps

end BoxUtils.Json
