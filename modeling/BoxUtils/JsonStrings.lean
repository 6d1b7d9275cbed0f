import BoxUtils.CJsonParse
import BoxUtils.CMemory
import BoxUtils.Runs

/-!
The strings of Json values in memory. A string item points to a block of its own, or,
when it is a reference, to memory of the program; its name is a block of its own too.
Assigning a string gives the block before back, and only then copies the source into a
new one. Items are never told apart by the assignment, but `cJSON_Delete` leaves the
string of a reference alone. The names of the items in the states are those of their nodes.
-/
namespace BoxUtils.JsonStrings

open CJson CMemory Runs Function
open Json (Outcome getTypeString)

section Source

/-- The part of a node that a string item makes use of. -/
structure Item where
  type : BitVec 32
  valuestring : Option Pointer
  string : Option Pointer
deriving DecidableEq

namespace Item

def kind (item : Item) : BitVec 32 := item.type &&& 0xFF

def isReference (item : Item) : Bool := item.type &&& cJSONIsReference ≠ 0

def stringIsConst (item : Item) : Bool := item.type &&& cJSONStringIsConst ≠ 0

end Item

/-- `cJSON_strdup`, for a pointer that is not null. -/
def strdup (M : Memory) (string : Pointer) : Option (Memory × Pointer) := do
  let length ← strlen M string
  let (M, copy) := malloc M (length + 1)
  let M ← memcpy M copy string (length + 1)
  some (M, copy)

def createString (M : Memory) (string : Pointer) : Option (Memory × Item) := do
  let (M, valuestring) ← strdup M string
  some (M, ⟨cJSONString, some valuestring, none⟩)

def createStringReference (string : Option Pointer) : Item :=
  ⟨cJSONString ||| cJSONIsReference, string, none⟩

/-- The block that `parse_string` leaves. -/
def parseBlock (M : Memory) (literal : Literal) : Option (Memory × Pointer) := do
  let (M, output) := malloc M literal.size
  let M ← store M output ((literal.output ++ [0]).map some)
  some (M, output)

/-- An item with a string for its value; a member of an object has a name before it. -/
def parseItem (M : Memory) (name : Option Literal) (value : Literal) : Option (Memory × Item) :=
  match name with
  | none => do
    let (M, valuestring) ← parseBlock M value
    some (M, ⟨cJSONString, some valuestring, none⟩)
  | some name => do
    let (M, string) ← parseBlock M name
    let (M, valuestring) ← parseBlock M value
    some (M, ⟨cJSONString, some valuestring, some string⟩)

/-- Frees what a pointer points to, if it is not null and not to be left alone. -/
def freeUnless (kept : Bool) (M : Memory) (p : Option Pointer) : Option Memory :=
  match p with
  | none => some M
  | some p => if kept then some M else free M p

/-- `cJSON_Delete`, for the strings of an item. -/
def delete (M : Memory) (item : Item) : Option Memory := do
  let M ← freeUnless item.isReference M item.valuestring
  freeUnless item.stringIsConst M item.string

/-- The operator `<<` for a C string. -/
def writeString (M : Memory) (item : Item) (str : Pointer) : Outcome (Memory × Item) :=
  if item.kind ≠ cJSONString then
    .throws (.typeError "String" (getTypeString { type := item.type }))
  else do
    let M ← freeUnless false M item.valuestring
    let length ← strlen M str
    let (M, valuestring) := malloc M (length + 1)
    let M ← strcpy M valuestring str
    pure (M, { item with valuestring := some valuestring })

end Source

section Runs

/-- What is not in memory: the text that an item is to hold, the blocks of the program that
it has not freed, and for which item cJSON has allocated a block. -/
structure State where
  memory : Memory
  items : Heap Item
  assigned : ℕ → Option (List UInt8)
  held : Finset ℕ
  owner : ℕ → Option ℕ
  undefined : Bool

def init : State := ⟨Heap.empty, Heap.empty, fun _ => none, ∅, fun _ => none, false⟩

inductive Op
  /-- The program gets a block, fills one of its blocks, and frees one. -/
  | buffer (static : Bool) (bytes : List (Option UInt8))
  | fill (b : ℕ) (bytes : List (Option UInt8))
  | release (b : ℕ)
  | createString (str : Pointer)
  | createStringRef (str : Option Pointer)
  /-- The literals of the name and of the value, at their offsets in a text. -/
  | parse (content : List UInt8) (name : Option ℕ) (offset : ℕ)
  | set (a : ℕ) (str : Pointer)
  | destroy (a : ℕ)

namespace State

variable (s : State)

/-- The blocks that are new belong to an item. -/
def claim (M : Memory) (a b : ℕ) : Option ℕ :=
  if s.memory.fresh ≤ b ∧ b < M.fresh then some a else s.owner b

/-- A new item, which is to hold a text of its own unless it is a reference. -/
def join (t : Option (List UInt8)) : Memory × Item → State
  | (M, item) =>
    { s with
      memory := M
      items := s.items.alloc item
      assigned := update s.assigned s.items.fresh t
      owner := s.claim M s.items.fresh }

def orUndefined : Option State → State
  | some t => t
  | none => { s with undefined := true }

def set (a : ℕ) (item : Item) (str : Pointer) (t : List UInt8) : State :=
  match writeString s.memory item str with
  | .value (M, item) =>
    { s with
      memory := M
      items := s.items.put a item
      assigned := update s.assigned a (some t)
      owner := s.claim M a }
  | .throws _ => s
  | .undefined => { s with undefined := true }

def destroy (a : ℕ) (item : Item) : State :=
  s.orUndefined ((delete s.memory item).map fun M =>
    { s with memory := M, items := s.items.erase a })

end State

/-- A literal of a text; what cannot be parsed makes no item. -/
def literalAt (content : List UInt8) (offset : ℕ) : Option Literal :=
  (parseLiteral content offset).toOption

/-- A source has to be a C string when the call begins. -/
def perform (s : State) : Op → Option State
  | .buffer static bytes =>
    some { s with
      memory := s.memory.alloc ⟨static, bytes⟩
      held := insert s.memory.fresh s.held }
  | .fill b bytes =>
    if b ∈ s.held then
      (s.memory.modify b fun blk => { blk with bytes := bytes }).map fun M => { s with memory := M }
    else none
  | .release b =>
    if b ∈ s.held then
      (free s.memory ⟨b, 0⟩).map fun M => { s with memory := M, held := s.held.erase b }
    else none
  | .createString str => do
    let t ← text s.memory str
    some (s.orUndefined ((createString s.memory str).map (s.join (some t))))
  | .createStringRef str => some (s.join none (s.memory, createStringReference str))
  | .parse content none offset => do
    let value ← literalAt content offset
    some (s.orUndefined ((parseItem s.memory none value).map
      (s.join (some (value.output.takeWhile (· ≠ 0))))))
  | .parse content (some name) offset => do
    let name ← literalAt content name
    let value ← literalAt content offset
    some (s.orUndefined ((parseItem s.memory (some name) value).map
      (s.join (some (value.output.takeWhile (· ≠ 0))))))
  | .set a str => do
    let item ← s.items.cell a
    let t ← text s.memory str
    some (s.set a item str t)
  | .destroy a => do
    let item ← s.items.cell a
    some (s.destroy a item)

def next (s : State) (op : Op) : Option State := if s.undefined then none else perform s op

end Runs

section Law

/-- The strings of an item that `cJSON_Delete` frees. -/
def Item.owned (item : Item) : List Pointer :=
  (if item.isReference then [] else item.valuestring.toList) ++
    (if item.stringIsConst then [] else item.string.toList)

def Item.blocks (item : Item) : List ℕ := item.owned.map Pointer.block

/-- Nothing undefined has happened; each item holds the text last given to it in a string of
its own; the memory of the program is spared; and what was allocated for an item is there as
long as the item has it, so that it is freed exactly once. -/
structure Exact (s : State) : Prop where
  defined : s.undefined = false
  holds : ∀ a item, s.items.cell a = some item → ∀ t, s.assigned a = some t →
    ∃ p ∈ item.owned, item.valuestring = some p ∧ text s.memory p = some t
  spared : ∀ b ∈ s.held, s.memory.cell b ≠ none
  strings : ∀ b a, s.owner b = some a →
    (s.memory.cell b ≠ none ↔ ∃ item, s.items.cell a = some item ∧ b ∈ item.blocks)

/-- A string is assigned to items that are no references, and not from within the string
that it takes the place of. -/
def Careful (s : State) : Op → Prop
  | .set a str => ∀ item, s.items.cell a = some item →
      item.isReference = false ∧ ∀ p, item.valuestring = some p → str.block ≠ p.block
  | _ => True

/-- What holds of the strings of an item whatever is done to it. -/
structure Own (s : State) (a : ℕ) (item : Item) : Prop where
  kind : item.kind = cJSONString
  apart : item.blocks.Nodup
  own : ∀ p ∈ item.owned, p.offset = 0 ∧ s.owner p.block = some a

structure Kept (s : State) : Prop where
  item : ∀ a item, s.items.cell a = some item → Own s a item
  heap : ∀ b blk, s.memory.cell b = some blk → s.owner b ≠ none → blk.static = false
  owner : ∀ b a, s.owner b = some a → b < s.memory.fresh ∧ a < s.items.fresh
  held : ∀ b ∈ s.held, b < s.memory.fresh ∧ s.owner b = none

end Law

section Items

variable {M M' M₁ : Memory} {item : Item} {str : Pointer}

/-- A new item, and the blocks that were allocated for it. -/
structure Makes (M M' : Memory) (item : Item) (t : Option (List UInt8)) : Prop where
  kind : item.kind = cJSONString
  apart : item.blocks.Nodup
  start : ∀ p ∈ item.owned, p.offset = 0
  fresh : M.fresh ≤ M'.fresh
  old : ∀ b < M.fresh, M'.cell b = M.cell b
  new : ∀ b, b ∈ item.blocks ↔ M.fresh ≤ b ∧ b < M'.fresh
  heap : ∀ b, b ∈ item.blocks → ∃ blk, M'.cell b = some blk ∧ blk.static = false
  holds : ∀ u, t = some u → ∃ p ∈ item.owned, item.valuestring = some p ∧ text M' p = some u

theorem kind_string (valuestring string : Option Pointer) :
    (Item.mk cJSONString valuestring string).kind = cJSONString :=
  (by decide : cJSONString &&& 0xFF = cJSONString)

theorem owned_string (valuestring string : Option Pointer) :
    (Item.mk cJSONString valuestring string).owned = valuestring.toList ++ string.toList := by
  have href : (Item.mk cJSONString valuestring string).isReference = false :=
    decide_eq_false (by decide : ¬ cJSONString &&& cJSONIsReference ≠ 0)
  have hconst : (Item.mk cJSONString valuestring string).stringIsConst = false :=
    decide_eq_false (by decide : ¬ cJSONString &&& cJSONStringIsConst ≠ 0)
  simp [Item.owned, href, hconst]

theorem owned_reference (string : Option Pointer) : (createStringReference string).owned = [] := by
  have href : (createStringReference string).isReference = true :=
    decide_eq_true (by decide : (cJSONString ||| cJSONIsReference) &&& cJSONIsReference ≠ 0)
  have hnull : (createStringReference string).string = none := rfl
  rw [Item.owned, if_pos href, hnull]
  split <;> rfl

theorem strdup_adds {u : List UInt8} (h : text M str = some u) :
    ∃ M', strdup M str = some (M', ⟨M.fresh, 0⟩) ∧ Adds M M' u := by
  obtain ⟨M', hcopy, hadds⟩ := memcpy_adds h
  refine ⟨M', ?_, hadds⟩
  simp only [strdup, strlen, h, Option.map_some, Option.bind_eq_bind, Option.bind_some]
  rw [show (malloc M (u.length + 1)).2 = ⟨M.fresh, 0⟩ from rfl, hcopy]
  rfl

theorem parseBlock_adds {literal : Literal} (hfits : literal.output.length < literal.size)
    (M : Memory) :
    ∃ M', parseBlock M literal = some (M', ⟨M.fresh, 0⟩) ∧
      Adds M M' (literal.output.takeWhile (· ≠ 0)) := by
  obtain ⟨M', hstore, hadds⟩ :=
    store_adds (M := M) (by simpa using Nat.succ_le_of_lt hfits) (chars_terminated literal.output)
  refine ⟨M', ?_, hadds⟩
  simp only [parseBlock, Option.bind_eq_bind]
  rw [show (malloc M literal.size).2 = ⟨M.fresh, 0⟩ from rfl, hstore]
  rfl

/-- One new block for the value. -/
theorem makes_value {u : List UInt8} (h : Adds M M' u) :
    Makes M M' ⟨cJSONString, some ⟨M.fresh, 0⟩, none⟩ (some u) := by
  have howned : (Item.mk cJSONString (some ⟨M.fresh, 0⟩) none).owned = [⟨M.fresh, 0⟩] :=
    owned_string _ _
  have hblocks : (Item.mk cJSONString (some ⟨M.fresh, 0⟩) none).blocks = [M.fresh] := by
    rw [Item.blocks, howned, List.map_singleton]
  constructor
  case kind => exact kind_string _ _
  case apart => simp [hblocks]
  case start => simp [howned]
  case fresh => rw [h.fresh]; omega
  case old => exact fun b hb => h.others b (by omega)
  case new =>
    intro b
    rw [hblocks, h.fresh, List.mem_singleton]
    omega
  case heap =>
    intro b hb
    rw [hblocks, List.mem_singleton] at hb
    exact hb ▸ h.block
  case holds =>
    intro v hv
    obtain rfl := Option.some.inj hv
    exact ⟨_, by simp [howned], rfl, h.text⟩

/-- And one before it for the name. -/
theorem makes_member {u v : List UInt8} (hname : Adds M M₁ u) (h : Adds M₁ M' v) :
    Makes M M' ⟨cJSONString, some ⟨M₁.fresh, 0⟩, some ⟨M.fresh, 0⟩⟩ (some v) := by
  have howned : (Item.mk cJSONString (some ⟨M₁.fresh, 0⟩) (some ⟨M.fresh, 0⟩)).owned =
      [⟨M₁.fresh, 0⟩, ⟨M.fresh, 0⟩] := owned_string _ _
  have hblocks : (Item.mk cJSONString (some ⟨M₁.fresh, 0⟩) (some ⟨M.fresh, 0⟩)).blocks =
      [M₁.fresh, M.fresh] := by
    rw [Item.blocks, howned, List.map_cons, List.map_singleton]
  have hfresh := h.fresh
  have hfresh₁ := hname.fresh
  constructor
  case kind => exact kind_string _ _
  case apart =>
    have hne : M₁.fresh ≠ M.fresh := by omega
    simp [hblocks, hne]
  case start => simp [howned]
  case fresh => omega
  case old =>
    intro b hb
    rw [h.others b (by omega), hname.others b (by omega)]
  case new =>
    intro b
    rw [hblocks, List.mem_cons, List.mem_singleton]
    omega
  case heap =>
    intro b hb
    rw [hblocks, List.mem_cons, List.mem_singleton] at hb
    rcases hb with rfl | rfl
    · exact h.block
    · rw [h.others _ (by omega)]
      exact hname.block
  case holds =>
    intro w hw
    obtain rfl := Option.some.inj hw
    exact ⟨_, by simp [howned], rfl, h.text⟩

theorem createString_makes {u : List UInt8} (h : text M str = some u) :
    ∃ M' item, createString M str = some (M', item) ∧ Makes M M' item (some u) := by
  obtain ⟨M', hdup, hadds⟩ := strdup_adds h
  exact ⟨M', _, by simp [createString, hdup], makes_value hadds⟩

theorem parseItem_makes (M : Memory) (name : Option Literal) {value : Literal}
    (hname : ∀ literal, name = some literal → literal.output.length < literal.size)
    (hvalue : value.output.length < value.size) :
    ∃ M' item, parseItem M name value = some (M', item) ∧
      Makes M M' item (some (value.output.takeWhile (· ≠ 0))) := by
  cases name with
  | none =>
    obtain ⟨M', hblock, hadds⟩ := parseBlock_adds hvalue M
    exact ⟨M', _, by simp [parseItem, hblock], makes_value hadds⟩
  | some name =>
    obtain ⟨M₁, hblock₁, hadds₁⟩ := parseBlock_adds (hname name rfl) M
    obtain ⟨M', hblock, hadds⟩ := parseBlock_adds hvalue M₁
    exact ⟨M', _, by simp [parseItem, hblock₁, hblock], makes_member hadds₁ hadds⟩

theorem createStringReference_makes (M : Memory) (string : Option Pointer) :
    Makes M M (createStringReference string) none := by
  have howned := owned_reference string
  constructor
  case kind =>
    exact (by decide : (cJSONString ||| cJSONIsReference) &&& 0xFF = cJSONString)
  case apart => simp [Item.blocks, howned]
  case start => simp [howned]
  case fresh => exact le_rfl
  case old => exact fun b hb => rfl
  case new =>
    intro b
    simp only [Item.blocks, howned, List.map_nil, List.not_mem_nil, false_iff]
    omega
  case heap => simp [Item.blocks, howned]
  case holds => simp

end Items

section Calls

variable {M M' M₁ : Memory} {item item' : Item} {kept : Bool} {p : Option Pointer} {str : Pointer}
variable {l l' : List ℕ}

/-- The given blocks are freed, and nothing else is touched. -/
structure Frees (M M' : Memory) (l : List ℕ) : Prop where
  fresh : M'.fresh = M.fresh
  gone : ∀ b ∈ l, M'.cell b = none
  others : ∀ b, b ∉ l → M'.cell b = M.cell b

theorem Frees.append (h : Frees M M₁ l) (h' : Frees M₁ M' l') : Frees M M' (l ++ l') where
  fresh := h'.fresh.trans h.fresh
  gone b hb := by
    by_cases hb' : b ∈ l'
    · exact h'.gone b hb'
    · rw [h'.others b hb']
      exact h.gone b ((List.mem_append.mp hb).resolve_right hb')
  others b hb := by
    rw [List.mem_append, not_or] at hb
    rw [h'.others b hb.2, h.others b hb.1]

/-- What a call may free: its pointer, unless it is null or kept. -/
def freed (kept : Bool) (p : Option Pointer) : List Pointer := if kept then [] else p.toList

theorem owned_eq (item : Item) : item.owned =
    freed item.isReference item.valuestring ++ freed item.stringIsConst item.string := rfl

theorem freeUnless_frees (h : freeUnless kept M p = some M') :
    Frees M M' ((freed kept p).map Pointer.block) := by
  unfold freeUnless at h
  cases p with
  | none =>
    obtain rfl := Option.some.inj h
    cases kept <;> exact ⟨rfl, by simp [freed], fun b hb => rfl⟩
  | some p =>
    cases kept with
    | true =>
      obtain rfl := Option.some.inj h
      exact ⟨rfl, by simp [freed], fun b hb => rfl⟩
    | false =>
      obtain ⟨blk, hblk, -, rfl⟩ := free_cases h
      refine ⟨rfl, fun b hb => ?_, fun b hb => ?_⟩
      · obtain rfl : b = p.block := by simpa [freed] using hb
        exact Heap.cell_erase_self M _
      · exact Heap.cell_erase_of_ne M (by simpa [freed] using hb)

/-- A heap string that is there can be freed. -/
def Freeable (M : Memory) (p : Pointer) : Prop :=
  p.offset = 0 ∧ ∃ blk, M.cell p.block = some blk ∧ blk.static = false

theorem freeUnless_some (h : ∀ q ∈ freed kept p, Freeable M q) :
    ∃ M', freeUnless kept M p = some M' := by
  cases p with
  | none => exact ⟨M, rfl⟩
  | some p =>
    cases kept with
    | true => exact ⟨M, rfl⟩
    | false =>
      obtain ⟨hoffset, blk, hblk, hheap⟩ := h p (by simp [freed])
      exact ⟨_, free_eq hblk hheap hoffset⟩

theorem delete_frees (h : delete M item = some M') : Frees M M' item.blocks := by
  obtain ⟨M₁, hvalue, hname⟩ := Option.bind_eq_some_iff.mp h
  rw [Item.blocks, owned_eq, List.map_append]
  exact (freeUnless_frees hvalue).append (freeUnless_frees hname)

theorem delete_some (h : ∀ q ∈ item.owned, Freeable M q) (hapart : item.blocks.Nodup) :
    ∃ M', delete M item = some M' := by
  rw [owned_eq] at h
  rw [Item.blocks, owned_eq, List.map_append, List.nodup_append] at hapart
  obtain ⟨M₁, hvalue⟩ := freeUnless_some fun q hq => h q (List.mem_append_left _ hq)
  have hfrees := freeUnless_frees hvalue
  obtain ⟨M', hname⟩ : ∃ M', freeUnless item.stringIsConst M₁ item.string = some M' := by
    apply freeUnless_some
    intro q hq
    have hother : q.block ∉ (freed item.isReference item.valuestring).map Pointer.block :=
      fun hmem => hapart.2.2 _ hmem _ (List.mem_map_of_mem hq) rfl
    obtain ⟨hoffset, blk, hblk, hheap⟩ := h q (List.mem_append_right _ hq)
    exact ⟨hoffset, blk, (hfrees.others _ hother).trans hblk, hheap⟩
  exact ⟨M', by simp only [delete, hvalue, Option.bind_eq_bind, Option.bind_some, hname]⟩

/-- An assignment frees the old string, and then copies what the source holds at that time. -/
theorem writeString_cases (M : Memory) (str : Pointer) (hkind : item.kind = cJSONString) :
    writeString M item str = .undefined ∨ ∃ M₁ M' u,
      Frees M M₁ (item.valuestring.toList.map Pointer.block) ∧ text M₁ str = some u ∧
        Adds M₁ M' u ∧
        writeString M item str = .value (M', { item with valuestring := some ⟨M₁.fresh, 0⟩ }) := by
  rw [writeString, if_neg (not_not.mpr hkind)]
  cases hfree : freeUnless false M item.valuestring with
  | none => exact Or.inl rfl
  | some M₁ =>
    cases htext : text M₁ str with
    | none => exact Or.inl (by simp [strlen, htext])
    | some u =>
      obtain ⟨M', hcopy, hadds⟩ := strcpy_adds htext
      refine Or.inr ⟨M₁, M', u, freeUnless_frees hfree, htext, hadds, ?_⟩
      simp only [Json.Outcome.lift_some, Json.Outcome.value_bind, strlen, htext, Option.map_some]
      rw [show (malloc M₁ (u.length + 1)).2 = ⟨M₁.fresh, 0⟩ from rfl, hcopy]
      rfl

/-- It is defined when the old string can be freed and the source is elsewhere. -/
theorem writeString_value {u : List UInt8} (hkind : item.kind = cJSONString)
    (hfree : ∀ q, item.valuestring = some q → Freeable M q ∧ str.block ≠ q.block)
    (htext : text M str = some u) : writeString M item str ≠ .undefined := by
  obtain ⟨M₁, hM₁⟩ : ∃ M₁, freeUnless false M item.valuestring = some M₁ := by
    apply freeUnless_some
    intro q hq
    exact (hfree q (by simpa [freed] using hq)).1
  have hframe : text M₁ str = some u := by
    rw [← htext]
    apply text_congr
    apply (freeUnless_frees hM₁).others
    intro hmem
    obtain ⟨q, hq, heq⟩ := List.mem_map.mp hmem
    exact (hfree q (by simpa [freed] using hq)).2 heq.symm
  obtain ⟨M', hcopy, -⟩ := strcpy_adds hframe
  rw [writeString, if_neg (not_not.mpr hkind), hM₁]
  simp only [Json.Outcome.lift_some, Json.Outcome.value_bind, strlen, hframe, Option.map_some]
  rw [show (malloc M₁ (u.length + 1)).2 = ⟨M₁.fresh, 0⟩ from rfl, hcopy]
  simp

end Calls

end BoxUtils.JsonStrings
