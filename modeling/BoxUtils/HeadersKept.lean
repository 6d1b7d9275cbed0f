import BoxUtils.CJsonLabels
import BoxUtils.HeaderLines
import BoxUtils.JsonBuilding

/-!
What is added to a `Headers` object comes back: a key and a value are joined to one line,
the lines are copied from list to list, and both `for_each` and `json` take them apart
at the first colon again.
-/
namespace BoxUtils.Headers

open CJson Json LinkedShapes Runs

section Source

/-- The loop of `json`, which passes over lines without a colon. -/
def jsonLoop (json : ℕ) : List Text → State → Outcome State
  | [], s => pure s
  | data :: next, s =>
    match len data with
    | none => jsonLoop json next s
    | some place => do
      let s ← s.addStringTo json (cStr (data.1.take place)) (afterColon data place)
      jsonLoop json next s

/-- `Headers::json`, whose result is a new handle. -/
def toJson (slist : List Text) (s : State) (json : ℕ) : Outcome State := do
  let (heap, cjson) ← create s.heap .table
  jsonLoop json slist (s.construct json heap ⟨cjson, false⟩)

/-- How the lines of one object get into the next one. -/
inductive Link
  | copied
  | updated
  deriving DecidableEq

def Link.action (o src : ℕ) : Link → Action
  | .copied => .copy o src
  | .updated => .update o src

/-- What is done along a chain, from the first object on. -/
def chainActions : ℕ → List (ℕ × Link) → List Action
  | _, [] => []
  | src, (o, link) :: chain => link.action o src :: chainActions o chain

def lastObject (first : ℕ) (chain : List (ℕ × Link)) : ℕ :=
  chain.foldl (fun _ target => target.1) first

end Source

section Law

/-- A copy is a new object, and an update goes into an empty one. -/
def Link.Fits (s : Objects) (o : ℕ) : Link → Prop
  | .copied => s o = none
  | .updated => s o = some []

/-- A string member of a Json object. -/
def HasMember (H : Nodes) (a : ℕ) (member : Text × Text) : Prop :=
  ∃ c, H.cell a = some c ∧ c.kind = cJSONString ∧ c.string = some member.1 ∧
    c.valuestring = some member.2

/-- Both readers give back the pairs. -/
structure Holds (slist : List Text) (pairs : List (Text × Text)) : Prop where
  each : forEach slist = some (pairs.map fun pair => (pair.1.1, pair.2))
  json : ∀ s h, ∃ t children, toJson slist s h = .value t ∧
    ObjectWith t.heap (t.holder h) children ∧ List.Forall₂ (HasMember t.heap) children pairs

end Law

section Lines

variable {pair : Text × Text} {pairs : List (Text × Text)}

theorem colon_mem_joined (key value : Text) : 58 ∈ (joined key value).1 :=
  List.mem_append_right _ List.mem_cons_self

theorem idxOf_joined {key : Text} (hkey : 58 ∉ key.1) (value : Text) :
    (joined key value).1.idxOf 58 = key.1.length := by
  change (key.1 ++ 58 :: value.1).idxOf 58 = key.1.length
  rw [List.idxOf_append_of_notMem hkey, List.idxOf_cons_self, Nat.add_zero]

theorem take_joined (key value : Text) : (joined key value).1.take key.1.length = key.1 :=
  List.take_left

theorem afterColon_joined (key value : Text) :
    afterColon (joined key value) key.1.length = value := by
  refine Subtype.ext ?_
  change (key.1 ++ 58 :: value.1).drop (key.1.length + 1) = value.1
  rw [List.drop_append]
  simp

theorem len_joined {key : Text} (hkey : 58 ∉ key.1) (value : Text) :
    len (joined key value) = some key.1.length := by
  rw [len_eq (colon_mem_joined key value), idxOf_joined hkey]

theorem cStr_self (text : Text) : cStr text.1 = text := by
  refine Subtype.ext (List.takeWhile_eq_self_iff.mpr fun b hb => ?_)
  exact decide_eq_true fun heq => text.2 (heq ▸ hb)

theorem forEach_joined (hkeys : ∀ pair ∈ pairs, 58 ∉ pair.1.1) :
    forEach (pairs.map fun pair => joined pair.1 pair.2) =
      some (pairs.map fun pair => (pair.1.1, pair.2)) := by
  induction pairs with
  | nil => rfl
  | cons pair pairs ih =>
    have hkey := hkeys pair List.mem_cons_self
    have hrest := ih fun p hp => hkeys p (List.mem_cons_of_mem _ hp)
    simp only [List.map_cons, forEach, len_joined hkey, hrest, take_joined, afterColon_joined,
      Option.bind_eq_bind, Option.bind_some]

end Lines

section Members

variable {H H' : Nodes} {s : State} {holder : JsonHolder} {children : List ℕ}
variable {pairs : List (Text × Text)}

theorem HasMember.relabelled {a : ℕ} {member : Text × Text} (h : HasMember H a member)
    (hkeep : KeepsLabel H H' a) : HasMember H' a member := by
  obtain ⟨c, hc, hkind, hstring, hvalue⟩ := h
  obtain ⟨c', hc', hlabel⟩ := hkeep c hc
  exact ⟨c', hc', (congrArg MergePatch.Label.kind hlabel).trans hkind,
    (congrArg MergePatch.Label.name hlabel).trans hstring,
    (congrArg MergePatch.Label.valuestring hlabel).trans hvalue⟩

/-- An object node with the given string members. -/
structure ObjectOf (H : Nodes) (o : ℕ) (children : List ℕ) (pairs : List (Text × Text)) : Prop where
  node : ∃ v, H.cell o = some v ∧ v.kind = cJSONObject ∧ Linked.sound v ∧
    Chain H none v.child children none
  members : List.Forall₂ (HasMember H) children pairs

theorem ObjectOf.objectWith {o : ℕ} (h : ObjectOf H o children pairs)
    (hholder : holder.cjson = some o) : ObjectWith H holder children := by
  obtain ⟨v, hv, hkind, -, hchain⟩ := h.node
  exact ⟨o, v, hholder, hv, hkind, hchain⟩

/-- A node behind the last member is a member as well. -/
theorem ObjectOf.attach {o b : ℕ} {u : CJSON} {member : Text × Text}
    (h : ObjectOf H o children pairs) (hb : b ∉ children) (hu : H.cell b = some u)
    (hprev : u.prev = none) (hnext : u.next = none) (hmember : HasMember H b member) :
    ∃ H', addItemToArray H (some o) (some b) = some (H', true) ∧
      ObjectOf H' o (children ++ [b]) (pairs ++ [member]) := by
  obtain ⟨v, hv, hkind, hsound, hchain⟩ := h.node
  have hcontainer : v.kind ≠ cJSONString := by
    rw [hkind]
    decide
  have href := isReference_of_sound hsound hcontainer
  have hlive : H.cell b ≠ none := hu ▸ Option.some_ne_none u
  obtain ⟨H', hadd, hattach⟩ := addItemToArray_attaches hv href hchain hlive
  have hkeep := (addItemToArray_relinks hadd).label
  obtain ⟨v', hv', -, -, hchild, hsound'⟩ := hattach.link o v hv
  refine ⟨H', hadd, ⟨v', hv', ?_, hsound' hsound, ?_⟩, ?_⟩
  · obtain ⟨v'', hv'', hlabel⟩ := hkeep o v hv
    obtain rfl := Option.some.inj (hv'.symm.trans hv'')
    exact (congrArg MergePatch.Label.kind hlabel).trans hkind
  · have happended := hattach.chain hchain hb hu hprev hnext
    have hfirst : v'.child = if children = [] then some b else v.child := by
      simpa using hchild
    rwa [hfirst]
  · have hbefore : List.Forall₂ (HasMember H') children pairs :=
      h.members.imp fun a _ hmem => hmem.relabelled (hkeep a)
    exact List.rel_append hbefore (.cons (hmember.relabelled (hkeep b)) .nil)

/-- An object where all nodes of it are still there. -/
theorem ObjectOf.frame {o : ℕ} (h : ObjectOf H o children pairs)
    (hold : ∀ y u, H.cell y = some u → H'.cell y = some u) : ObjectOf H' o children pairs := by
  obtain ⟨v, hv, hkind, hsound, hchain⟩ := h.node
  constructor
  · exact ⟨v, hold o v hv, hkind, hsound, hchain.frame fun y _ u hu => ⟨u, hold y u hu, rfl, rfl⟩⟩
  · apply h.members.imp
    rintro a pair ⟨c, hc, hrest⟩
    exact ⟨c, hold a c hc, hrest⟩

/-- A string is added behind the members that are there. -/
theorem addNewToObject_appends {o : ℕ} (h : ObjectOf H o children pairs) (key value : Text) :
    ∃ H' b, addNewToObject (createString H value).1 (some o) (some key)
        (some (createString H value).2) = some H' ∧
      ObjectOf H' o (children ++ [b]) (pairs ++ [(key, value)]) := by
  let w : CJSON := { type := cJSONString, valuestring := some value }
  let H₁ : Nodes := (createString H value).1
  let H₂ : Nodes := H₁.put H.fresh (withName w key)
  have hw : H₁.cell H.fresh = some w := Heap.cell_alloc_self H w
  have hw₂ : H₂.cell H.fresh = some (withName w key) := Heap.cell_put_self hw _
  have hold : ∀ y u, H.cell y = some u → H₂.cell y = some u := by
    intro y u hu
    have hne : y ≠ H.fresh := Nat.ne_of_lt (Heap.lt_fresh hu)
    rw [Heap.cell_put_of_ne H₁ _ hne]
    exact Heap.cell_alloc_of_live w hu
  have hnew : H.fresh ∉ children := by
    intro hmem
    obtain ⟨v, hv, -, -, hchain⟩ := h.node
    obtain ⟨u, hu⟩ := hchain.live hmem
    exact Nat.lt_irrefl _ (Heap.lt_fresh hu)
  have hstring : (withName w key).kind = cJSONString := by
    rw [kind_withName]
    exact (by decide : cJSONString &&& 0xFF = cJSONString)
  have hmember : HasMember H₂ H.fresh (key, value) := ⟨_, hw₂, hstring, rfl, rfl⟩
  obtain ⟨H', hadd, hobj'⟩ := (h.frame hold).attach hnew hw₂ rfl rfl hmember
  have hall : addNewToObject H₁ (some o) (some key) (some H.fresh) = some H' := by
    rw [addNewToObject, addItemToObject_eq hw, show addItemToArray _ _ _ = _ from hadd]
    rfl
  exact ⟨H', H.fresh, hall, hobj'⟩

theorem addStringTo_appends {h o : ℕ} (hholder : (s.holder h).cjson = some o)
    (hobj : ObjectOf s.heap o children pairs) (key value : Text) :
    ∃ t b, s.addStringTo h key value = .value t ∧ t.holder = s.holder ∧
      ObjectOf t.heap o (children ++ [b]) (pairs ++ [(key, value)]) := by
  obtain ⟨v, hv, hkind, -, -⟩ := hobj.node
  obtain ⟨H', b, hadd, hobj'⟩ := addNewToObject_appends hobj key value
  refine ⟨{ s with heap := H' }, b, ?_, rfl, hobj'⟩
  simp only [State.addStringTo, State.addCreatedTo, checkIsObject_eq hholder hv hkind, create,
    hholder, Prod.map, id_eq, hadd, Outcome.value_bind, Outcome.lift_some, Outcome.pure_eq]

/-- The loop adds the pairs to those that are there. -/
theorem jsonLoop_appends {h o : ℕ} {more : List (Text × Text)}
    (hkeys : ∀ pair ∈ more, 58 ∉ pair.1.1) (hholder : (s.holder h).cjson = some o)
    (hobj : ObjectOf s.heap o children pairs) :
    ∃ t children', jsonLoop h (more.map fun pair => joined pair.1 pair.2) s = .value t ∧
      t.holder = s.holder ∧ ObjectOf t.heap o children' (pairs ++ more) := by
  induction more generalizing s children pairs with
  | nil => exact ⟨s, children, rfl, rfl, by rwa [List.append_nil]⟩
  | cons pair more ih =>
    obtain ⟨t, b, hadd, hsame, hobj'⟩ := addStringTo_appends hholder hobj pair.1 pair.2
    have hkeys' : ∀ p ∈ more, 58 ∉ p.1.1 := fun p hp => hkeys p (List.mem_cons_of_mem _ hp)
    obtain ⟨u, children', hloop, hsame', hobj''⟩ := ih hkeys' (hsame ▸ hholder) hobj'
    refine ⟨u, children', ?_, hsame'.trans hsame, by rwa [List.append_cons]⟩
    rw [List.map_cons, jsonLoop, len_joined (hkeys pair List.mem_cons_self)]
    simp only [take_joined, cStr_self, afterColon_joined, hadd, Outcome.value_bind]
    exact hloop

theorem toJson_joined (hkeys : ∀ pair ∈ pairs, 58 ∉ pair.1.1) (s : State) (h : ℕ) :
    ∃ t children, toJson (pairs.map fun pair => joined pair.1 pair.2) s h = .value t ∧
      ObjectWith t.heap (t.holder h) children ∧ List.Forall₂ (HasMember t.heap) children pairs := by
  let heap : Nodes := (createObject s.heap).1
  let new := s.construct h heap ⟨some s.heap.fresh, false⟩
  have hholder : (new.holder h).cjson = some s.heap.fresh := by
    simp [new, State.construct]
  have hobj : ObjectOf new.heap s.heap.fresh [] [] :=
    ⟨⟨{ type := cJSONObject }, Heap.cell_alloc_self s.heap _, by decide,
      (linked_sound _).mpr fun href => absurd href (by decide), rfl⟩, .nil⟩
  obtain ⟨t, children, hloop, hsame, hobj'⟩ := jsonLoop_appends hkeys hholder hobj
  exact ⟨t, children, hloop, hobj'.objectWith (hsame ▸ hholder), hobj'.members⟩

end Members

section Chains

variable {curlSlistAppend : List Text → Text → List Text}
  (happend : ∀ l data, curlSlistAppend l data = l ++ [data]) {s : Objects}
  {pairs : List (Text × Text)} {slist : List Text} {first : ℕ} {chain : List (ℕ × Link)}

include happend

/-- The calls of `add` leave the joined lines behind those that are there. -/
theorem run_adds (hfirst : s first = some slist) (pairs : List (Text × Text)) :
    run (next curlSlistAppend) s (pairs.map fun pair => .add first pair.1 pair.2) =
      some (Function.update s first
        (some (slist ++ pairs.map fun pair => joined pair.1 pair.2))) := by
  induction pairs generalizing s slist with
  | nil => simp [run, ← hfirst]
  | cons pair pairs ih =>
    have hstep : next curlSlistAppend s (.add first pair.1 pair.2) =
        some (Function.update s first (some (slist ++ [joined pair.1 pair.2]))) := by
      simp [next, hfirst, add, addString, happend]
    rw [List.map_cons, run, hstep, Option.bind_some, ih (Function.update_self ..),
      Function.update_idem, List.map_cons, List.append_assoc, List.singleton_append]

omit happend in
theorem Link.Fits.elsewhere {link : Link} {o o' : ℕ} (h : link.Fits s o) (hne : o ≠ o')
    (value : Option (List Text)) : link.Fits (Function.update s o' value) o := by
  cases link with
  | copied => exact (Function.update_of_ne hne ..).trans h
  | updated => exact (Function.update_of_ne hne ..).trans h

theorem next_link {target : ℕ × Link} (hfirst : s first = some slist) (hne : target.1 ≠ first)
    (hfits : target.2.Fits s target.1) :
    next curlSlistAppend s (target.2.action target.1 first) =
      some (Function.update s target.1 (some slist)) := by
  obtain ⟨o, link⟩ := target
  cases link with
  | copied =>
    have hnone : s o = none := hfits
    simp [Link.action, next, hfirst, hnone, update_eq happend]
  | updated =>
    have hempty : s o = some [] := hfits
    simp [Link.action, next, hfirst, hempty, hne, update_eq happend]

/-- The lines get from object to object. -/
theorem run_chain (hfirst : s first = some slist)
    (hapart : (first :: chain.map Prod.fst).Nodup)
    (hfits : ∀ target ∈ chain, target.2.Fits s target.1) :
    ∃ t, run (next curlSlistAppend) s (chainActions first chain) = some t ∧
      t (lastObject first chain) = some slist := by
  induction chain generalizing s first with
  | nil => exact ⟨s, rfl, hfirst⟩
  | cons target chain ih =>
    have hapart' := List.nodup_cons.mp hapart
    have hne : target.1 ≠ first := fun heq => hapart'.1 (heq ▸ List.mem_cons_self)
    have hstep := next_link happend hfirst hne (hfits target List.mem_cons_self)
    have hlater : ∀ later ∈ chain,
        later.2.Fits (Function.update s target.1 (some slist)) later.1 := by
      intro later hmem
      have hother : later.1 ≠ target.1 := fun heq =>
        (List.nodup_cons.mp hapart'.2).1 (heq ▸ List.mem_map_of_mem hmem)
      exact (hfits later (List.mem_cons_of_mem _ hmem)).elsewhere hother _
    obtain ⟨t, hrun, ht⟩ := ih (Function.update_self ..) hapart'.2 hlater
    exact ⟨t, by rw [chainActions, run, hstep, Option.bind_some, hrun], ht⟩

end Chains

/-- Pairs with keys without a colon that are added to an empty object are given back by both
readers of the last object to which copies and updates of empty objects lead from there. -/
theorem added_kept {curlSlistAppend : List Text → Text → List Text}
    (happend : ∀ l data, curlSlistAppend l data = l ++ [data]) {s : Objects} {first : ℕ}
    {pairs : List (Text × Text)} {chain : List (ℕ × Link)} (hfirst : s first = some [])
    (hkeys : ∀ pair ∈ pairs, 58 ∉ pair.1.1) (hapart : (first :: chain.map Prod.fst).Nodup)
    (hfits : ∀ target ∈ chain, target.2.Fits s target.1) :
    ∃ t u slist, run (next curlSlistAppend) s (pairs.map fun pair => .add first pair.1 pair.2) =
        some t ∧ run (next curlSlistAppend) t (chainActions first chain) = some u ∧
      u (lastObject first chain) = some slist ∧ Holds slist pairs := by
  have hadds := run_adds happend hfirst pairs
  have hother : ∀ target ∈ chain, target.1 ≠ first := by
    rintro target htarget rfl
    exact (List.nodup_cons.mp hapart).1 (List.mem_map_of_mem htarget)
  obtain ⟨u, hchain, hlast⟩ := run_chain happend (Function.update_self ..) hapart
    fun target htarget => (hfits target htarget).elsewhere (hother target htarget) _
  exact ⟨_, u, _, hadds, hchain, hlast, forEach_joined hkeys, toJson_joined hkeys⟩

/-- The pairs ("A", "b:") and ("A", ""), copied to another object. -/
theorem added_kept_twice :
    ∃ t u slist, run (next fun l data => l ++ [data]) (Function.update noObjects 0 (some []))
        [.add 0 ⟨[65], by decide⟩ ⟨[98, 58], by decide⟩, .add 0 ⟨[65], by decide⟩ ⟨[], by decide⟩] =
        some t ∧ run (next fun l data => l ++ [data]) t [.copy 1 0] = some u ∧ u 1 = some slist ∧
      Holds slist [(⟨[65], by decide⟩, ⟨[98, 58], by decide⟩),
        (⟨[65], by decide⟩, ⟨[], by decide⟩)] := by
  have hkeys : ∀ pair ∈ ([(⟨[65], by decide⟩, ⟨[98, 58], by decide⟩),
      (⟨[65], by decide⟩, ⟨[], by decide⟩)] : List (Text × Text)), 58 ∉ pair.1.1 := by decide
  have hapart : (0 :: [(1, Link.copied)].map Prod.fst).Nodup := by decide
  refine added_kept (fun _ _ => rfl) rfl hkeys hapart fun target htarget => ?_
  obtain rfl := List.mem_singleton.mp htarget
  rfl

end BoxUtils.Headers
