import BoxUtils.CJsonReading

/-!
The nodes that the parser makes. It fills them with the labels that are read from the text
and leaves the rest of the heap alone; where the text says nothing, it gives back every node
that it made.
-/
namespace BoxUtils.CJson

open LinkedShapes MergePatch

section Leaves

/-- A new node, apart from its links, its name and its type. -/
structure Blank (c : CJSON) : Prop where
  child : c.child = none
  valuestring : c.valuestring = none
  valueint : c.valueint = 0
  valuedouble : c.valuedouble = .finite 0

/-- The nodes of the shape are new, and the only ones that are. -/
structure Makes (H H' : Nodes) (s : Shape) : Prop where
  fresh : H.fresh ≤ H'.fresh
  distinct : s.Distinct
  new : ∀ y, 0 < s.count y → H.fresh ≤ y
  all : ∀ y, H.fresh ≤ y → H'.cell y ≠ none → 0 < s.count y

/-- The item has the label and the children that were read, and nothing else has changed. -/
structure Fills (H H' : Nodes) (item : ℕ) (c : CJSON) (l : Label) (f : Forest Label) (s : Shape)
    (c' : CJSON) : Prop where
  makes : Makes H H' s
  cell : H'.cell item = some c'
  links : c'.prev = c.prev ∧ c'.next = c.next ∧ c'.string = c.string
  reference : c'.isReference = false
  label : c'.label = l.rename c.string
  below : Holds H' none c'.child s none
  read : s.read (labelOf H') = f
  others : ∀ y, y < H.fresh → y ≠ item → H'.cell y = H.cell y

/-- Elements that are linked behind the current one. -/
structure Chains (H H' : Nodes) (current : Option ℕ) (t : Shape) : Prop where
  makes : Makes H H' t
  holds : Holds H' current (some H.fresh) t none
  link : ∀ a c, current = some a → H.cell a = some c →
    H'.cell a = some { c with next := some H.fresh }
  others : ∀ y, y < H.fresh → current ≠ some y → H'.cell y = H.cell y

/-- A parse function agrees with what is read: it leaves no trace, or fills the item. -/
def Agrees (H : Nodes) (item : ℕ) (c : CJSON) (r : Option Content) (p : Option Parsed) : Prop :=
  match r with
  | none => ∃ H' b', p = some (H', b', false) ∧ H.fresh ≤ H'.fresh ∧ H'.cell = H.cell
  | some (l, f, b') => ∃ H' s c', p = some (H', b', true) ∧ Fills H H' item c l f s c'

def AgreesElements (H : Nodes) (head current : Option ℕ) (r : Option (Forest Label × Buffer))
    (p : Option (Nodes × Option ℕ × Buffer × Bool)) : Prop :=
  match r with
  | none => ∃ H' t b', p = some (H', some (head.getD H.fresh), b', false) ∧ Chains H H' current t
  | some (f, b') => ∃ H' t, p = some (H', some (head.getD H.fresh), b', true) ∧
      Chains H H' current t ∧ t.read (labelOf H') = f

variable {strtod : List UInt8 → Double × ℕ} {H H' H₁ H₂ : Nodes} {item calls : ℕ} {c c' : CJSON}
variable {b : Buffer} {l : Label} {f : Forest Label} {s t : Shape} {current : Option ℕ}

theorem isReference_of_eq (type : BitVec 32) (h : c.type = type)
    (htype : type &&& cJSONIsReference = 0) : c.isReference = false :=
  isReference_of_type (h ▸ htype)

theorem makes_nil (H : Nodes) (h : H.fresh ≤ H'.fresh)
    (hcells : ∀ y, H.fresh ≤ y → H'.cell y = none) : Makes H H' .nil where
  fresh := h
  distinct y := Nat.zero_le 1
  new y hy := by cases hy
  all y hy hlive := absurd (hcells y hy) hlive

/-- A change of the item that makes it a leaf. -/
theorem modify_fills (hc : H.cell item = some c) {g : CJSON → CJSON} (hchild : (g c).child = none)
    (hlinks : (g c).prev = c.prev ∧ (g c).next = c.next ∧ (g c).string = c.string)
    (href : (g c).isReference = false) (hlabel : (g c).label = l.rename c.string) :
    ∃ H', H.modify item g = some H' ∧ Fills H H' item c l .nil .nil (g c) := by
  refine ⟨H.put item (g c), Heap.modify_eq hc g, ?_⟩
  constructor
  case makes =>
    refine makes_nil H le_rfl fun y hy => ?_
    rw [Heap.cell_put_of_ne _ _ (by have := Heap.lt_fresh hc; omega)]
    exact H.unused y hy
  case cell => exact Heap.cell_put_self hc _
  case links => exact hlinks
  case reference => exact href
  case label => exact hlabel
  case below => exact hchild
  case read => rfl
  case others => exact fun y _ hne => Heap.cell_put_of_ne _ _ hne

theorem parseNumber_agrees (hc : H.cell item = some c) (hblank : Blank c) (b : Buffer) :
    Agrees H item c (readNumber strtod b) (parseNumber strtod H item b) := by
  simp only [readNumber, parseNumber]
  by_cases hzero : (strtod (numberCString b)).2 = 0
  case pos =>
    simp only [if_pos hzero]
    exact ⟨H, b, rfl, le_rfl, rfl⟩
  obtain ⟨H', hmodify, hfills⟩ := modify_fills (l := { leaf cJSONNumber with
      valuedouble := (strtod (numberCString b)).1
      valueint := (strtod (numberCString b)).1.toInt }) hc
    (g := fun c => { c with valuedouble := (strtod (numberCString b)).1
                            valueint := (strtod (numberCString b)).1.toInt
                            type := cJSONNumber })
    hblank.child ⟨rfl, rfl, rfl⟩ (isReference_of_eq cJSONNumber rfl (by decide)) (by
      simp [CJSON.label, Label.rename, leaf, CJSON.kind, hblank.valuestring, cJSONNumber])
  simp only [if_neg hzero, hmodify, Option.bind_eq_bind, Option.bind_some]
  exact ⟨H', .nil, _, rfl, hfills⟩

theorem parseString_agrees (hc : H.cell item = some c) (hblank : Blank c) (b : Buffer) :
    Agrees H item c ((readString b).map fun (string, b) =>
      ({ leaf cJSONString with valuestring := some string }, .nil, b)) (parseString H item b) := by
  simp only [readString, parseString]
  cases hliteral : parseLiteral b.content b.offset with
  | error offset => exact ⟨H, _, rfl, le_rfl, rfl⟩
  | ok literal =>
    obtain ⟨H', hmodify, hfills⟩ := modify_fills
      (l := { leaf cJSONString with valuestring := some (Json.cStr literal.output) }) hc
      (g := fun c => { c with type := cJSONString, valuestring := some (Json.cStr literal.output) })
      hblank.child ⟨rfl, rfl, rfl⟩ (isReference_of_eq cJSONString rfl (by decide)) (by
        simp [CJSON.label, Label.rename, leaf, CJSON.kind, hblank.valueint, hblank.valuedouble,
          cJSONString])
    simp only [hmodify, Option.bind_eq_bind, Option.bind_some]
    exact ⟨H', .nil, _, rfl, hfills⟩

/-- The words for constants, which set the type and perhaps the number. -/
theorem constant_agrees (hc : H.cell item = some c) (hblank : Blank c) (kind : BitVec 32)
    (hkind : kind &&& 255#32 = kind) (href : kind &&& cJSONIsReference = 0) (n : ℤ) (b : Buffer)
    {g : CJSON → CJSON} (hg : g c = { c with type := kind, valueint := n }) :
    ∃ H', H.modify item g = some H' ∧
      Agrees H item c (some ({ leaf kind with valueint := n }, .nil, b)) (some (H', b, true)) := by
  obtain ⟨H', hmodify, hfills⟩ := modify_fills (l := { leaf kind with valueint := n }) hc
    (g := fun _ => { c with type := kind, valueint := n }) hblank.child ⟨rfl, rfl, rfl⟩
    (isReference_of_eq kind rfl href) (by simp [CJSON.label, Label.rename, leaf, CJSON.kind, hkind,
      hblank.valuestring, hblank.valuedouble])
  refine ⟨H', ?_, H', .nil, _, rfl, hfills⟩
  rwa [Heap.modify_eq hc, hg, ← Heap.modify_eq hc fun _ => _]

/-- The name of a new item that is linked already; an error may leave the name in its value. -/
theorem parseName_agrees (hc : H.cell item = some c) (hblank : Blank c)
    (href : c.isReference = false) (b : Buffer) :
    match readName .object b with
    | none => ∃ H' b' c', parseName H item b = some (H', b', false) ∧ H'.fresh = H.fresh ∧
        H'.cell item = some c' ∧ c'.prev = c.prev ∧ c'.next = c.next ∧ c'.child = none ∧
        c'.isReference = false ∧ ∀ y, y ≠ item → H'.cell y = H.cell y
    | some (name, b') => ∃ H' c', parseName H item b = some (H', b', true) ∧ H'.fresh = H.fresh ∧
        H'.cell item = some c' ∧ c'.prev = c.prev ∧ c'.next = c.next ∧ Blank c' ∧
        c'.isReference = false ∧ c'.string = name ∧ ∀ y, y ≠ item → H'.cell y = H.cell y := by
  simp only [readName, readString, parseName, parseString]
  cases hliteral : parseLiteral b.content b.offset with
  | error offset =>
    exact ⟨H, _, c, rfl, rfl, hc, rfl, rfl, hblank.child, href, fun _ _ => rfl⟩
  | ok literal =>
    let named : CJSON :=
      { c with type := cJSONString, valuestring := some (Json.cStr literal.output) }
    have hfirst : H.modify item (fun c => { c with
        type := cJSONString, valuestring := some (Json.cStr literal.output) }) =
        some (H.put item named) := Heap.modify_eq hc _
    have hnamed : (H.put item named).cell item = some named := Heap.cell_put_self hc _
    let moved : CJSON := { named with string := named.valuestring, valuestring := none }
    have hsecond : (H.put item named).modify item (fun c => { c with
        string := c.valuestring, valuestring := none }) =
        some ((H.put item named).put item moved) := Heap.modify_eq hnamed _
    have hmoved : ((H.put item named).put item moved).cell item = some moved :=
      Heap.cell_put_self hnamed _
    have hothers : ∀ y, y ≠ item → ((H.put item named).put item moved).cell y = H.cell y :=
      fun y hy => (Heap.cell_put_of_ne _ _ hy).trans (Heap.cell_put_of_ne _ _ hy)
    have hmovedref : moved.isReference = false := isReference_of_eq cJSONString rfl (by decide)
    simp only [hfirst, Option.bind_eq_bind, Option.bind_some, Bool.true_eq_false, if_false, hsecond]
    split
    case h_1 hread =>
      split at hread
      · rename_i hcolon
        rw [if_pos hcolon]
        exact ⟨_, _, moved, rfl, rfl, hmoved, rfl, rfl, hblank.child, hmovedref, hothers⟩
      · cases hread
    case h_2 name b' hread =>
      split at hread
      · cases hread
      · rename_i hcolon
        obtain ⟨rfl, rfl⟩ := Prod.mk.inj (Option.some.inj hread)
        rw [if_neg hcolon]
        exact ⟨_, moved, rfl, rfl, hmoved, rfl, rfl,
          ⟨hblank.child, rfl, hblank.valueint, hblank.valuedouble⟩, hmovedref, rfl, hothers⟩

end Leaves

section Links

/-- A new node that is linked behind the current one. -/
structure Attached (H H' : Nodes) (current : Option ℕ) (c : CJSON) : Prop where
  fresh : H'.fresh = H.fresh + 1
  cell : H'.cell H.fresh = some c
  prev : c.prev = current
  next : c.next = none
  reference : c.isReference = false
  link : ∀ x u, current = some x → H.cell x = some u →
    H'.cell x = some { u with next := some H.fresh }
  others : ∀ y, y ≠ H.fresh → current ≠ some y → H'.cell y = H.cell y

theorem attachNext_attached (hcurrent : ∀ x, current = some x → H.cell x ≠ none) :
    ∃ H', attachNext (newItem H {}).1 current H.fresh = some H' ∧
      Attached H H' current { prev := current } := by
  have hnew : (newItem H {}).1.cell H.fresh = some {} := Heap.cell_alloc_self H {}
  have hold : ∀ y, y ≠ H.fresh → (newItem H {}).1.cell y = H.cell y :=
    fun y hy => Heap.cell_alloc_of_ne H {} hy
  cases current with
  | none =>
    refine ⟨_, rfl, rfl, hnew, rfl, rfl, rfl, nofun, fun y hy _ => hold y hy⟩
  | some x =>
    obtain ⟨u, hu⟩ := Option.ne_none_iff_exists'.mp (hcurrent x rfl)
    have hx : x ≠ H.fresh := Nat.ne_of_lt (Heap.lt_fresh hu)
    have hux : (newItem H {}).1.cell x = some u := (hold x hx).trans hu
    let H₁ := (newItem H {}).1.put x { u with next := some H.fresh }
    have hnew₁ : H₁.cell H.fresh = some {} :=
      (Heap.cell_put_of_ne _ _ (Ne.symm hx)).trans hnew
    refine ⟨H₁.put H.fresh { prev := some x }, ?_, ?_⟩
    · simp only [attachNext, suffixObject, Option.bind_eq_bind, Option.bind_some]
      rw [Heap.modify_eq hux, Option.bind_some, Heap.modify_eq hnew₁]
    · constructor
      case fresh => rfl
      case cell => exact Heap.cell_put_self hnew₁ _
      case prev => rfl
      case next => rfl
      case reference => exact isReference_of_eq cJSONInvalid rfl (by decide)
      case link =>
        rintro y w ⟨⟩ hw
        obtain rfl := Option.some.inj (hu.symm.trans hw)
        rw [Heap.cell_put_of_ne _ _ hx]
        exact Heap.cell_put_self hux _
      case others =>
        intro y hy hyx
        rw [Heap.cell_put_of_ne _ _ hy, Heap.cell_put_of_ne _ _ fun h => hyx (congrArg some h.symm)]
        exact hold y hy

/-- A change of the new node alone. -/
theorem Attached.change (h : Attached H H₁ current c) (hfresh : H₂.fresh = H₁.fresh)
    (hc : H₂.cell H.fresh = some c') (hprev : c'.prev = c.prev) (hnext : c'.next = c.next)
    (href : c'.isReference = false) (hothers : ∀ y, y ≠ H.fresh → H₂.cell y = H₁.cell y) :
    Attached H H₂ current c' where
  fresh := hfresh.trans h.fresh
  cell := hc
  prev := hprev.trans h.prev
  next := hnext.trans h.next
  reference := href
  link x u hx hu := by
    have hne : x ≠ H.fresh := Nat.ne_of_lt (Heap.lt_fresh hu)
    rw [hothers x hne]
    exact h.link x u hx hu
  others y hy hyc := (hothers y hy).trans (h.others y hy hyc)

/-- A new node without children, after what came to nothing. -/
theorem Attached.chains (h : Attached H H₁ current c) (hchild : c.child = none)
    (hfresh : H₁.fresh ≤ H₂.fresh) (hcells : H₂.cell = H₁.cell) :
    Chains H H₂ current (.node H.fresh .nil .nil) := by
  have hlive : ∀ y, H.fresh ≤ y → H₁.cell y ≠ none → y = H.fresh := by
    intro y hy hne
    by_contra hyf
    refine hne (H₁.unused y ?_)
    have := h.fresh
    omega
  constructor
  case makes =>
    have := h.fresh
    refine ⟨by omega, distinct_leaf _, fun y hy => ?_, fun y hy hne => ?_⟩
    · rw [Shape.count_node] at hy
      by_contra hlt
      rw [if_neg (by omega)] at hy
      simp at hy
    · obtain rfl := hlive y hy (hcells ▸ hne)
      exact count_top _ _
  case holds =>
    exact ⟨rfl, c, hcells ▸ h.cell, h.prev, fun href => absurd href (by simp [h.reference]),
      hchild, h.next⟩
  case link => exact fun x u hx hu => hcells ▸ h.link x u hx hu
  case others =>
    intro y hy hyc
    rw [hcells]
    exact h.others y (Nat.ne_of_lt hy) hyc

/-- A new node, with what was made below it and behind it. -/
theorem Makes.node {H₃ : Nodes} (hs : Makes H₁ H₂ s) (hfresh : H₁.fresh = H.fresh + 1)
    (hlive : ∀ y, 0 < s.count y → y < H₂.fresh) (ht : Makes H₂ H₃ t)
    (hkeep : ∀ y, y < H₂.fresh → y ≠ H.fresh → H₃.cell y = H₂.cell y) :
    Makes H H₃ (.node H.fresh s t) := by
  have hfresh₂ := hs.fresh
  have hfresh₃ := ht.fresh
  refine ⟨by omega, fun y => ?_, fun y hy => ?_, fun y hy hne => ?_⟩
  · rw [Shape.count_node]
    have hsy := hs.distinct y
    have hty := ht.distinct y
    by_cases hbelow : 0 < s.count y
    · have hnew := hs.new y hbelow
      have hless := hlive y hbelow
      have hnone : t.count y = 0 := by
        by_contra hne
        have := ht.new y (by omega)
        omega
      rw [if_neg (by omega)]
      omega
    · by_cases hbehind : 0 < t.count y
      · have := ht.new y hbehind
        rw [if_neg (by omega)]
        omega
      · split <;> omega
  · rw [Shape.count_node] at hy
    by_contra hlt
    have hbelow : ¬ 0 < s.count y := fun hpos => by
      have := hs.new y hpos
      omega
    have hbehind : ¬ 0 < t.count y := fun hpos => by
      have := ht.new y hpos
      omega
    rw [if_neg (by omega)] at hy
    omega
  · rw [Shape.count_node]
    by_cases hyf : H.fresh = y
    · rw [if_pos hyf]
      omega
    · by_cases hhigh : H₂.fresh ≤ y
      · have := ht.all y hhigh hne
        omega
      · rw [hkeep y (by omega) (Ne.symm hyf)] at hne
        have := hs.all y (by omega) hne
        omega

/-- A new node that was filled, with the elements that were chained behind it, if any. -/
theorem Attached.chains_filled {H₃ : Nodes} {g : Forest Label} (h : Attached H H₁ current c)
    (hfill : Fills H₁ H₂ H.fresh c l f s c')
    (hrest : t = .nil ∧ H₃ = H₂ ∨ Chains H₂ H₃ (some H.fresh) t)
    (hread : t.read (labelOf H₃) = g) :
    Chains H H₃ current (.node H.fresh s t) ∧
      (Shape.node H.fresh s t).read (labelOf H₃) = .node (l.rename c.string) f g := by
  have hfresh₁ := h.fresh
  have hfresh₂ := hfill.makes.fresh
  -- what comes behind is new, and changes nothing but the link of the item
  obtain ⟨hmakes, hkeep, ⟨next, hitem, hholds⟩⟩ :
      Makes H₂ H₃ t ∧ (∀ y, y < H₂.fresh → y ≠ H.fresh → H₃.cell y = H₂.cell y) ∧
        ∃ next, H₃.cell H.fresh = some { c' with next := next } ∧
          Holds H₃ (some H.fresh) next t none := by
    rcases hrest with ⟨rfl, rfl⟩ | hchains
    · refine ⟨makes_nil H₃ le_rfl H₃.unused, fun _ _ _ => rfl, c'.next, hfill.cell, ?_⟩
      exact hfill.links.2.1.trans h.next
    · exact ⟨hchains.makes, fun y hy hne => hchains.others y hy fun heq =>
        hne (Option.some.inj heq).symm, some H₂.fresh, hchains.link _ _ rfl hfill.cell,
        hchains.holds⟩
  have hbelow : ∀ y, 0 < s.count y → H.fresh < y ∧ y < H₂.fresh := by
    intro y hy
    have hge := hfill.makes.new y hy
    obtain ⟨u, hu, -⟩ := hfill.below.live hy
    have hlt := Heap.lt_fresh hu
    omega
  have hsame : ∀ y, 0 < s.count y → H₃.cell y = H₂.cell y := by
    intro y hy
    obtain ⟨hlow, hhigh⟩ := hbelow y hy
    exact hkeep y hhigh (by omega)
  constructor
  · constructor
    case makes =>
      exact hfill.makes.node hfresh₁ (fun y hy => (hbelow y hy).2) hmakes hkeep
    case holds =>
      refine ⟨rfl, _, hitem, hfill.links.1.trans h.prev, fun href => ?_, ?_, hholds⟩
      · have hplain : c'.isReference = true := href
        rw [hfill.reference] at hplain
        cases hplain
      · exact hfill.below.congr hsame
    case link =>
      intro x u hx hu
      have hlt := Heap.lt_fresh hu
      rw [hkeep x (by omega) (by omega), hfill.others x (by omega) (by omega)]
      exact h.link x u hx hu
    case others =>
      intro y hy hyc
      rw [hkeep y (by omega) (by omega), hfill.others y (by omega) (by omega)]
      exact h.others y (by omega) hyc
  · have hlabel : labelOf H₃ H.fresh = l.rename c.string := by
      rw [labelOf_eq hitem]
      exact hfill.label
    have hchildren : s.read (labelOf H₃) = f := by
      rw [← hfill.read]
      exact Shape.read_congr fun y hy => by rw [labelOf, labelOf, hsame y hy]
    rw [Shape.read, hlabel, hchildren, hread]

end Links

section Calls

/-- With as many nested calls, a value is parsed as it is read. -/
def ValueAgrees (strtod : List UInt8 → Double × ℕ) (calls : ℕ) : Prop :=
  ∀ {H item c b r}, H.cell item = some c → Blank c → readValue strtod calls b = some r →
    Agrees H item c r (parseValue strtod calls H item b)

def ContainerAgrees (strtod : List UInt8 → Double × ℕ) (calls : ℕ) : Prop :=
  ∀ {container H item c b r}, H.cell item = some c → Blank c →
    readContainer strtod container calls b = some r →
    Agrees H item c r (parseContainer strtod container calls H item b)

def ElementsAgree (strtod : List UInt8 → Double × ℕ) (calls : ℕ) : Prop :=
  ∀ {container} (H : Nodes) (head current : Option ℕ) {b r},
    (∀ x, current = some x → H.cell x ≠ none) → readElements strtod container calls b = some r →
    AgreesElements H head current r (parseElements strtod container calls H head current b)

theorem agrees_error (H : Nodes) (item : ℕ) (c : CJSON) (b : Buffer) :
    Agrees H item c none (some (H, b, false)) := ⟨H, b, rfl, le_rfl, rfl⟩

theorem valueAgrees_succ (ih : ContainerAgrees strtod calls) :
    ValueAgrees strtod (calls + 1) := by
  intro H item c b r hc hblank hread
  rw [readValue] at hread
  rw [parseValue]
  split at hread
  case isTrue hnull =>
    obtain rfl := Option.some.inj hread
    obtain ⟨H', hmodify, hagrees⟩ := constant_agrees hc hblank cJSONNull (by decide) (by decide) 0
      (b.advance 4) (g := fun c => { c with type := cJSONNull }) (by simp [hblank.valueint])
    rwa [if_pos hnull, hmodify]
  case isFalse hnull =>
  rw [if_neg hnull]
  split at hread
  case isTrue hfalse =>
    obtain rfl := Option.some.inj hread
    obtain ⟨H', hmodify, hagrees⟩ := constant_agrees hc hblank cJSONFalse (by decide) (by decide) 0
      (b.advance 5) (g := fun c => { c with type := cJSONFalse }) (by simp [hblank.valueint])
    rwa [if_pos hfalse, hmodify]
  case isFalse hfalse =>
  rw [if_neg hfalse]
  split at hread
  case isTrue htrue =>
    obtain rfl := Option.some.inj hread
    obtain ⟨H', hmodify, hagrees⟩ := constant_agrees hc hblank cJSONTrue (by decide) (by decide) 1
      (b.advance 4) (g := fun c => { c with type := cJSONTrue, valueint := 1 }) rfl
    rwa [if_pos htrue, hmodify]
  case isFalse htrue =>
  rw [if_neg htrue]
  cases hpeek : b.peek 0 with
  | none =>
    rw [hpeek] at hread
    obtain rfl := Option.some.inj hread
    exact agrees_error H item c b
  | some x =>
    rw [hpeek] at hread
    dsimp only at hread ⊢
    split at hread
    case isTrue hquote =>
      obtain rfl := Option.some.inj hread
      rw [if_pos hquote]
      exact parseString_agrees hc hblank b
    case isFalse hquote =>
    rw [if_neg hquote]
    split at hread
    case isTrue hdigit =>
      obtain rfl := Option.some.inj hread
      rw [if_pos hdigit]
      exact parseNumber_agrees hc hblank b
    case isFalse hdigit =>
    rw [if_neg hdigit]
    split at hread
    case isTrue harray =>
      rw [if_pos harray]
      exact ih hc hblank hread
    case isFalse harray =>
    rw [if_neg harray]
    split at hread
    case isTrue hobject =>
      rw [if_pos hobject]
      exact ih hc hblank hread
    case isFalse hobject =>
      obtain rfl := Option.some.inj hread
      rw [if_neg hobject]
      exact agrees_error H item c b

/-- A container gets the elements that were chained for it. -/
theorem closeContainer_fills (hc : H.cell item = some c) (hblank : Blank c) (container : Container)
    {head : Option ℕ} (hmakes : Makes H H₁ t) (hitem : H₁.cell item = some c)
    (hothers : ∀ y, y < H.fresh → H₁.cell y = H.cell y) (hholds : Holds H₁ none head t none)
    (hread : t.read (labelOf H₁) = f) :
    Agrees H item c (some (closed container f b)) (closeContainer container H₁ item head b) := by
  let full : CJSON := { c with type := container.type, child := head }
  have hlt := Heap.lt_fresh hc
  have hmodify : H₁.modify item (fun c => { c with type := container.type, child := head }) =
      some (H₁.put item full) := Heap.modify_eq hitem _
  have hsame : ∀ y, y ≠ item → (H₁.put item full).cell y = H₁.cell y :=
    fun y hy => Heap.cell_put_of_ne _ _ hy
  have hne : ∀ y, 0 < t.count y → y ≠ item := by
    rintro y hy rfl
    have := hmakes.new y hy
    omega
  refine ⟨H₁.put item full, t, full, ?_, ?_⟩
  · simp only [closeContainer, hmodify, Option.bind_eq_bind, Option.bind_some]
  · constructor
    case makes =>
      refine ⟨hmakes.fresh, hmakes.distinct, hmakes.new, fun y hy hlive => ?_⟩
      rw [hsame y (by omega)] at hlive
      exact hmakes.all y hy hlive
    case cell => exact Heap.cell_put_self hitem _
    case links => exact ⟨rfl, rfl, rfl⟩
    case reference =>
      cases container with
      | array => exact isReference_of_eq cJSONArray rfl (by decide)
      | object => exact isReference_of_eq cJSONObject rfl (by decide)
    case label =>
      cases container <;> simp [CJSON.label, Label.rename, leaf, CJSON.kind, full, Container.type,
        hblank.valuestring, hblank.valueint, hblank.valuedouble, cJSONArray, cJSONObject]
    case below => exact hholds.congr fun y hy => hsame y (hne y hy)
    case read =>
      rw [← hread]
      exact Shape.read_congr fun y hy => by rw [labelOf, labelOf, hsame y (hne y hy)]
    case others => exact fun y hy hyi => (hsame y hyi).trans (hothers y hy)

theorem containerAgrees_succ (ih : ElementsAgree strtod calls) :
    ContainerAgrees strtod (calls + 1) := by
  intro container H item c b r hc hblank hread
  rw [readContainer] at hread
  rw [parseContainer]
  split at hread
  case isTrue hdeep =>
    obtain rfl := Option.some.inj hread
    rw [if_pos hdeep]
    exact agrees_error H item c b
  case isFalse hdeep =>
  rw [if_neg hdeep]
  dsimp only at hread ⊢
  split at hread
  case isTrue hopen =>
    obtain rfl := Option.some.inj hread
    rw [if_pos hopen]
    exact agrees_error H item c _
  case isFalse hopen =>
  rw [if_neg hopen]
  generalize (Buffer.advance { b with depth := b.depth + 1 } 1).skipWhitespace = b₁ at hread ⊢
  cases hpeek : b₁.peek 0 with
  | none =>
    rw [hpeek] at hread
    obtain rfl := Option.some.inj hread
    exact agrees_error H item c _
  | some x =>
    rw [hpeek] at hread
    dsimp only at hread ⊢
    split at hread
    case isTrue hclose =>
      obtain rfl := Option.some.inj hread
      rw [if_pos hclose]
      exact closeContainer_fills hc hblank container (makes_nil H le_rfl H.unused) hc
        (fun _ _ => rfl) rfl rfl
    case isFalse hclose =>
    rw [if_neg hclose]
    obtain ⟨elements, helements, hread⟩ := Option.bind_eq_some_iff.mp hread
    obtain rfl := Option.some.inj hread
    have hagrees := ih H none none (fun x hx => by cases hx) helements
    cases elements with
    | none =>
      obtain ⟨H₁, t, b₂, hparse, hchains⟩ := hagrees
      obtain ⟨H₂, hdelete, hfresh, hcells⟩ := delete_holds hchains.holds hchains.makes.distinct
      simp only [hparse, Option.getD_none, Option.bind_eq_bind, Option.bind_some,
        Bool.false_eq_true, if_false, hdelete]
      refine ⟨H₂, b₂, rfl, hfresh ▸ hchains.makes.fresh, ?_⟩
      funext y
      rw [hcells]
      by_cases hy : y < H.fresh
      · have hnot : ¬ 0 < t.count y := fun hpos => by
          have := hchains.makes.new y hpos
          omega
        rw [if_neg hnot]
        exact hchains.others y hy (by simp)
      · rw [H.unused y (by omega)]
        split
        case isTrue => rfl
        case isFalse hnot =>
          by_contra hne
          exact hnot (hchains.makes.all y (by omega) hne)
    | some elements =>
      obtain ⟨f, b₂⟩ := elements
      obtain ⟨H₁, t, hparse, hchains, hf⟩ := hagrees
      simp only [hparse, Option.getD_none, Option.bind_eq_bind, Option.bind_some, if_true,
        Option.map_some]
      have hothers : ∀ y, y < H.fresh → H₁.cell y = H.cell y :=
        fun y hy => hchains.others y hy (by simp)
      exact closeContainer_fills hc hblank container hchains.makes
        ((hothers item (Heap.lt_fresh hc)).trans hc) hothers hchains.holds hf

/-- The part of the loop over the elements that comes before the value. -/
def parseElementName (container : Container) (H : Nodes) (item : ℕ) (b : Buffer) :
    Option Parsed :=
  match container with
  | .array => some (H, b, true)
  | .object => parseName H item b

/-- The name of a new node, for both kinds of containers. -/
theorem attached_name (h : Attached H H₁ current { prev := current }) (container : Container)
    (b : Buffer) :
    match readName container b with
    | none => ∃ H₂ b' c', parseElementName container H₁ H.fresh b = some (H₂, b', false) ∧
        Attached H H₂ current c' ∧ c'.child = none
    | some (name, b') => ∃ H₂ c', parseElementName container H₁ H.fresh b = some (H₂, b', true) ∧
        Attached H H₂ current c' ∧ Blank c' ∧ c'.string = name := by
  cases container with
  | array => exact ⟨H₁, _, rfl, h, ⟨rfl, rfl, rfl, rfl⟩, rfl⟩
  | object =>
    have hname := parseName_agrees h.cell ⟨rfl, rfl, rfl, rfl⟩ h.reference b
    cases hread : readName .object b with
    | none =>
      rw [hread] at hname
      obtain ⟨H₂, b', c', hparse, hfresh, hcell, hprev, hnext, hchild, href, hothers⟩ := hname
      exact ⟨H₂, b', c', hparse, h.change hfresh hcell hprev hnext href hothers, hchild⟩
    | some named =>
      obtain ⟨name, b'⟩ := named
      rw [hread] at hname
      obtain ⟨H₂, c', hparse, hfresh, hcell, hprev, hnext, hblank, href, hstring, hothers⟩ := hname
      exact ⟨H₂, c', hparse, h.change hfresh hcell hprev hnext href hothers, hblank, hstring⟩

theorem elementsAgree_succ (ihvalue : ValueAgrees strtod calls) (ih : ElementsAgree strtod calls) :
    ElementsAgree strtod (calls + 1) := by
  intro container H head current b r hcurrent hread
  obtain ⟨H₁, hattach, h₁⟩ := attachNext_attached hcurrent
  have hname := attached_name h₁ container (b.advance 1).skipWhitespace
  rw [readElements] at hread
  rw [parseElements]
  have hnew : (newItem H {}).2 = H.fresh := rfl
  simp only [hnew, hattach, Option.bind_eq_bind, Option.bind_some]
  change AgreesElements H head current r
    ((parseElementName container H₁ H.fresh (b.advance 1).skipWhitespace).bind _)
  cases hreadname : readName container (b.advance 1).skipWhitespace with
  | none =>
    rw [hreadname] at hread hname
    obtain rfl := Option.some.inj hread
    obtain ⟨H₂, b₂, c₂, hparse, h₂, hchild⟩ := hname
    simp only [hparse, Option.bind_some, if_true]
    exact ⟨H₂, _, b₂, rfl, h₂.chains hchild le_rfl rfl⟩
  | some named =>
    obtain ⟨name, b₂⟩ := named
    rw [hreadname] at hread hname
    obtain ⟨H₂, c₂, hparse, h₂, hblank, hstring⟩ := hname
    simp only [hparse, Option.bind_some, Bool.true_eq_false, if_false]
    obtain ⟨value, hvalue, hread⟩ := Option.bind_eq_some_iff.mp hread
    have hagrees := ihvalue h₂.cell hblank hvalue
    cases value with
    | none =>
      obtain rfl := Option.some.inj hread
      obtain ⟨H₃, b₃, hparse₃, hfresh, hcells⟩ := hagrees
      simp only [hparse₃, Option.bind_some, if_true]
      exact ⟨H₃, _, b₃, rfl, h₂.chains hblank.child hfresh hcells⟩
    | some value =>
      obtain ⟨l, f, b₃⟩ := value
      obtain ⟨H₃, s, c₃, hparse₃, hfills⟩ := hagrees
      simp only [hparse₃, Option.bind_some, Bool.true_eq_false, if_false]
      dsimp only at hread
      split at hread
      case isTrue hcomma =>
        rw [if_pos hcomma]
        obtain ⟨rest, hrest, hread⟩ := Option.bind_eq_some_iff.mp hread
        obtain rfl := Option.some.inj hread
        have hlive : ∀ x, some H.fresh = some x → H₃.cell x ≠ none := by
          rintro x ⟨⟩
          rw [hfills.cell]
          exact Option.some_ne_none c₃
        have hagrees := ih H₃ (some (head.getD H.fresh)) (some H.fresh) hlive hrest
        cases rest with
        | none =>
          obtain ⟨H₄, t, b₄, hparse₄, hchains⟩ := hagrees
          exact ⟨H₄, _, b₄, hparse₄, (h₂.chains_filled hfills (Or.inr hchains) rfl).1⟩
        | some rest =>
          obtain ⟨g, b₄⟩ := rest
          obtain ⟨H₄, t, hparse₄, hchains, hg⟩ := hagrees
          obtain ⟨hchains', hlabels⟩ := h₂.chains_filled hfills (Or.inr hchains) hg
          rw [hstring] at hlabels
          exact ⟨H₄, _, hparse₄, hchains', hlabels⟩
      case isFalse hcomma =>
        rw [if_neg hcomma]
        obtain ⟨hchains, hlabels⟩ := h₂.chains_filled hfills (Or.inl ⟨rfl, rfl⟩) rfl
        rw [hstring] at hlabels
        split at hread
        case isTrue hclose =>
          obtain rfl := Option.some.inj hread
          rw [decide_eq_true hclose]
          exact ⟨H₃, _, rfl, hchains, hlabels⟩
        case isFalse hclose =>
          obtain rfl := Option.some.inj hread
          rw [decide_eq_false hclose]
          exact ⟨H₃, _, _, rfl, hchains⟩

/-- The parser agrees with the reader, call by call. -/
theorem parser_agrees (strtod : List UInt8 → Double × ℕ) (calls : ℕ) :
    ValueAgrees strtod calls ∧ ContainerAgrees strtod calls ∧ ElementsAgree strtod calls := by
  induction calls with
  | zero =>
    refine ⟨?_, ?_, ?_⟩
    · intro H item c b r hc hblank hread
      cases hread
    · intro container H item c b r hc hblank hread
      cases hread
    · intro container H head current b r hcurrent hread
      cases hread
  | succ calls ih =>
    exact ⟨valueAgrees_succ ih.2.1, containerAgrees_succ ih.2.2, elementsAgree_succ ih.1 ih.2.2⟩

end Calls

section Parse

/-- What `cJSON_Parse` leaves: a tree of its own that reads as the document, whose nodes were
not there before and are the only ones that change; or nothing. -/
def ParsesDocument (H : Nodes) (r : Option Content) (p : Option (Nodes × Option ℕ)) : Prop :=
  match r with
  | none => ∃ H', p = some (H', none) ∧ H'.cell = H.cell
  | some (l, f, _) => ∃ H' v s, p = some (H', some H.fresh) ∧ Tree H' H.fresh v s ∧
      v.prev = none ∧ v.next = none ∧ v.label = l ∧ s.read (labelOf H') = f ∧
      (∀ y, 0 < (Shape.node H.fresh s .nil).count y → H.cell y = none) ∧
      ∀ y, H'.cell y ≠ H.cell y → 0 < (Shape.node H.fresh s .nil).count y

theorem parse_of_read {value : Text} {r : Option Content}
    (hread : readDocument strtod calls value = some r) :
    ParsesDocument H r (parse strtod calls H value) := by
  have hnew : (newItem H {}).1.cell H.fresh = some {} := Heap.cell_alloc_self H {}
  have hold : ∀ y, y ≠ H.fresh → (newItem H {}).1.cell y = H.cell y :=
    fun y hy => Heap.cell_alloc_of_ne H {} hy
  have hfresh : (newItem H {}).1.fresh = H.fresh + 1 := rfl
  have hitem : (newItem H {}).2 = H.fresh := rfl
  have hagrees := (parser_agrees strtod calls).1 hnew ⟨rfl, rfl, rfl, rfl⟩ hread
  unfold parse
  cases r with
  | none =>
    obtain ⟨H₁, b₁, hparse, -, hcells⟩ := hagrees
    have hholds : Holds H₁ none (some H.fresh) (.node H.fresh .nil .nil) none :=
      ⟨rfl, {}, by rw [hcells, hnew], rfl, nofun, rfl, rfl⟩
    obtain ⟨H₂, hdelete, -, hgone⟩ := delete_holds hholds (distinct_leaf H.fresh)
    refine ⟨H₂, ?_, ?_⟩
    · simp only [hitem, hparse, Option.bind_eq_bind, Option.bind_some, Bool.false_eq_true,
        if_false, hdelete]
    · funext y
      rw [hgone, count_tree, hcells]
      by_cases hy : H.fresh = y
      · subst hy
        rw [if_pos (by rw [if_pos rfl]; omega), H.unused _ le_rfl]
      · rw [if_neg (by rw [if_neg hy]; exact Nat.lt_irrefl 0), hold y (Ne.symm hy)]
  | some r =>
    obtain ⟨l, f, b'⟩ := r
    obtain ⟨H₁, s, v, hparse, hfills⟩ := hagrees
    have hcount : s.count H.fresh = 0 := by
      by_contra hne
      have := hfills.makes.new H.fresh (by omega)
      omega
    refine ⟨H₁, v, s, ?_, ⟨hfills.cell, fun href => ?_, hfills.below,
      distinct_tree hfills.makes.distinct hcount⟩, hfills.links.1, hfills.links.2.1, ?_,
      hfills.read, fun y hy => ?_, fun y hy => ?_⟩
    · simp only [hitem, hparse, Option.bind_eq_bind, Option.bind_some, if_true]
    · rw [hfills.reference] at href
      cases href
    · have hname : l.name = none := readValue_name hread
      rw [hfills.label, Label.rename, ← hname]
    · rw [count_tree] at hy
      apply H.unused
      by_cases hyf : H.fresh = y
      · exact hyf.le
      · rw [if_neg hyf] at hy
        have := hfills.makes.new y (by omega)
        omega
    · rw [count_tree]
      by_cases hyf : H.fresh = y
      · rw [if_pos hyf]
        omega
      · rw [if_neg hyf]
        by_cases hlow : y < H.fresh + 1
        · rw [hfills.others y hlow (Ne.symm hyf), hold y (Ne.symm hyf)] at hy
          exact absurd rfl hy
        · rw [H.unused y (by omega)] at hy
          have := hfills.makes.all y (by omega) hy
          omega

/-- For every text and every heap, the parser comes to an end within three calls for a byte
without touching what is not its own. It makes the nodes of the document that the text says,
and no others; or it makes none. -/
theorem parse_document (strtod : List UInt8 → Double × ℕ) (H : Nodes) (value : Text) {calls : ℕ}
    (hcalls : 3 * value.1.length + 4 ≤ calls) :
    ∃ r, readDocument strtod calls value = some r ∧
      ParsesDocument H r (parse strtod calls H value) := by
  obtain ⟨r, hr⟩ := Option.ne_none_iff_exists'.mp (readDocument_ends strtod value hcalls)
  exact ⟨r, hr, parse_of_read hr⟩

/-- The text `[5,]`. -/
theorem parse_document_comma :
    ∃ r, readDocument (fun _ => (.finite 5, 1)) 16 ⟨[91, 53, 44, 93], by decide⟩ = some r ∧
      ParsesDocument Heap.empty r
        (parse (fun _ => (.finite 5, 1)) 16 Heap.empty ⟨[91, 53, 44, 93], by decide⟩) :=
  parse_document _ _ _ (by decide)

end Parse

end BoxUtils.CJson
