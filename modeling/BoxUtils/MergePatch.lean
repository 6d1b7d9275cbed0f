import BoxUtils.CJson
import BoxUtils.LabelledForest

/-!
The merge patch of RFC 7396 on JSON documents. A document is a forest of labels:
a label says what a node is called in its object and which value it has, and the
children are the elements of an array or the members of an object.
-/
namespace BoxUtils.MergePatch

open CJson

/-- A node of a document, without its links and its flags. -/
structure Label where
  name : Option Text
  kind : BitVec 32
  valuestring : Option Text
  valueint : ℤ
  valuedouble : Double
deriving DecidableEq

namespace Label

def isObject (l : Label) : Bool := l.kind = cJSONObject

def isNull (l : Label) : Bool := l.kind = cJSONNull

def rename (l : Label) (name : Option Text) : Label := { l with name := name }

def emptyObject : Label := ⟨none, cJSONObject, none, 0, .finite 0⟩

def called (name : Option Text) (l : Label) : Bool := l.name = name

end Label

open Label

/-- The members of every object have names. -/
def Named : Forest Label → Prop :=
  Forest.Everywhere fun l c => l.isObject = true → ∀ m ∈ c.labels, m.name ≠ none

instance (f : Forest Label) : Decidable (Named f) :=
  inferInstanceAs (Decidable (f.Everywhere _))

/-- A target that is not an object is taken for an empty one. -/
def asObject : Option (Label × Forest Label) → Label × Forest Label
  | some (l, c) => if l.isObject then (l, c) else (emptyObject, .nil)
  | none => (emptyObject, .nil)

/-- Merges the members of a patch into the members of an object. -/
def mergeMembers : Forest Label → Forest Label → Forest Label
  | .nil, target => target
  | .node l c rest, target =>
    let others := target.removeFirst (called l.name)
    mergeMembers rest <|
      if l.isNull then others
      else if l.isObject then
        let old := asObject (target.first (called l.name))
        others.append (.node (old.1.rename l.name) (mergeMembers c old.2) .nil)
      else others.append (.node l c .nil)

def mergePatch (target : Option (Label × Forest Label)) (patch : Label × Forest Label) :
    Label × Forest Label :=
  if patch.1.isObject then ((asObject target).1, mergeMembers patch.2 (asObject target).2)
  else patch

/-- One member of a patch: a null removes, another value is merged and put in place. -/
def mergeMember (l : Label) (c target : Forest Label) : Forest Label :=
  let others := target.removeFirst (called l.name)
  let merged := mergePatch (target.first (called l.name)) (l, c)
  if l.isNull then others else others.append (.node (merged.1.rename l.name) merged.2 .nil)

theorem mergeMembers_node (l : Label) (c rest target : Forest Label) :
    mergeMembers (.node l c rest) target = mergeMembers rest (mergeMember l c target) := by
  rw [mergeMembers, mergeMember, mergePatch]
  split
  case isTrue => rfl
  case isFalse =>
    split
    case isTrue => rfl
    case isFalse => rfl

section Names

variable {l : Label} {c p t : Forest Label}

/-- The members of an object, all with names, down to the last level. -/
structure Members (f : Forest Label) : Prop where
  names : ∀ m ∈ f.labels, m.name ≠ none
  below : Named f

theorem members_nil : Members .nil := ⟨fun _ hm => (by cases hm), trivial⟩

theorem Members.rest (h : Members (.node l c p)) : Members p :=
  ⟨fun m hm => h.names m (List.mem_cons_of_mem _ hm), h.below.2.2⟩

/-- Below an object there are members. -/
theorem members_below (h : Named (.node l c p)) (hl : l.isObject = true) : Members c :=
  ⟨h.1 hl, h.2.1⟩

theorem members_asObject (ht : Members t) (name : Option Text) :
    Members (asObject (t.first (called name))).2 := by
  cases hfirst : t.first (called name) with
  | none => exact members_nil
  | some old =>
    obtain ⟨l, c⟩ := old
    obtain ⟨hnames, hbelow⟩ := ht.below.first hfirst
    rw [asObject]
    split
    case isTrue hl => exact ⟨hnames hl, hbelow⟩
    case isFalse => exact members_nil

/-- A merged value with the name of its member takes the place of the old one. -/
theorem Members.put (ht : Members t) (hl : l.name ≠ none) {merged : Label × Forest Label}
    (hmerged : Named (.node merged.1 merged.2 .nil)) :
    Members ((t.removeFirst (called l.name)).append
      (.node (merged.1.rename l.name) merged.2 .nil)) := by
  refine ⟨fun m hm => ?_, ht.below.removeFirst.append hmerged⟩
  rw [Forest.labels_append] at hm
  rcases List.mem_append.mp hm with hm | hm
  · exact ht.names m ((Forest.labels_removeFirst _ t).subset hm)
  · rw [List.mem_singleton.mp hm]
    exact hl

theorem Members.mergeMember (ht : Members t) (hl : l.name ≠ none)
    (hmerged : Named (.node (mergePatch (t.first (called l.name)) (l, c)).1
      (mergePatch (t.first (called l.name)) (l, c)).2 .nil)) :
    Members (mergeMember l c t) := by
  rw [MergePatch.mergeMember]
  split
  · exact ⟨fun m hm => ht.names m ((Forest.labels_removeFirst _ t).subset hm), ht.below.removeFirst⟩
  · exact ht.put hl hmerged

/-- Merging keeps names everywhere. The induction runs over the members of the patch,
on all levels. -/
theorem Members.mergeMembers (hp : Members p) (ht : Members t) : Members (mergeMembers p t) := by
  induction p generalizing t with
  | nil => exact ht
  | node l c rest ihc ihrest =>
    rw [mergeMembers_node]
    refine ihrest hp.rest (ht.mergeMember (hp.names l (List.mem_cons_self ..)) ?_)
    rw [mergePatch]
    split
    case isTrue hl =>
      have hmembers := ihc (members_below hp.below hl) (members_asObject ht l.name)
      exact ⟨fun _ => hmembers.names, hmembers.below, trivial⟩
    case isFalse => exact ⟨hp.below.1, hp.below.2.1, trivial⟩

end Names

section Lookups

variable {l : Label} {c p t : Forest Label} {name : Option Text}

/-- No two members have the same name. -/
def Unique (f : Forest Label) : Prop := (f.labels.map Label.name).Nodup

theorem called_iff : called name l = true ↔ l.name = name := decide_eq_true_iff

theorem not_called_iff : called name l = false ↔ l.name ≠ name := decide_eq_false_iff_not

/-- A member that is taken out was the only one with its name. -/
theorem Unique.not_called (h : Unique t) (name : Option Text) :
    ∀ m ∈ (t.removeFirst (called name)).labels, called name m = false := by
  induction t with
  | nil => exact fun m hm => (by cases hm)
  | node d c n _ ih =>
    obtain ⟨hd, hn⟩ := List.nodup_cons.mp h
    intro m hm
    rw [Forest.removeFirst] at hm
    split at hm
    case isTrue hcalled =>
      rw [not_called_iff, ← called_iff.mp hcalled]
      intro heq
      exact hd (heq ▸ List.mem_map_of_mem hm)
    case isFalse hcalled =>
      rcases List.mem_cons.mp hm with rfl | hm
      · exact Bool.eq_false_iff.mpr hcalled
      · exact ih hn m hm

theorem Unique.mergeMember (h : Unique t) (l : Label) (c : Forest Label) :
    Unique (mergeMember l c t) := by
  have hothers : Unique (t.removeFirst (called l.name)) :=
    h.sublist ((Forest.labels_removeFirst _ t).map Label.name)
  rw [MergePatch.mergeMember]
  split
  · exact hothers
  · rw [Unique, Forest.labels_append, List.map_append]
    refine hothers.append (List.nodup_singleton _) ?_
    refine List.disjoint_singleton.mpr fun hmem => ?_
    obtain ⟨m, hm, heq⟩ := List.mem_map.mp hmem
    exact not_called_iff.mp (h.not_called l.name m hm) heq

theorem first_mergeMember_self (h : Unique t) (l : Label) (c : Forest Label) :
    (mergeMember l c t).first (called l.name) =
      if l.isNull then none
      else
        let merged := mergePatch (t.first (called l.name)) (l, c)
        some (merged.1.rename l.name, merged.2) := by
  have hnone := Forest.first_eq_none_iff.mpr (h.not_called l.name)
  rw [mergeMember]
  split
  · exact hnone
  · rw [Forest.first_append_or, hnone, Option.none_or]
    exact Forest.first_node (called_iff.mpr rfl) _ _

theorem first_mergeMember_of_ne (hne : l.name ≠ name) (c t : Forest Label) :
    (mergeMember l c t).first (called name) = t.first (called name) := by
  have hothers : (t.removeFirst (called l.name)).first (called name) = t.first (called name) := by
    refine Forest.first_removeFirst fun m hm => not_called_iff.mpr ?_
    rwa [called_iff.mp hm]
  have hput : ∀ merged : Label × Forest Label,
      (Forest.node (merged.1.rename l.name) merged.2 .nil).first (called name) = none := by
    intro merged
    refine Forest.first_eq_none_iff.mpr fun m hm => not_called_iff.mpr ?_
    rwa [List.mem_singleton.mp hm]
  rw [mergeMember]
  split
  · exact hothers
  · rw [Forest.first_append_or, hothers, hput, Option.or_none]

/-- Where names are unique, a name that the patch does not have keeps its member, a null
removes it, and any other value is merged into it. -/
theorem first_mergeMembers (hp : Unique p) (ht : Unique t) (name : Option Text) :
    (mergeMembers p t).first (called name) =
      match p.first (called name) with
      | none => t.first (called name)
      | some (l, c) =>
        if l.isNull then none
        else
          let merged := mergePatch (t.first (called name)) (l, c)
          some (merged.1.rename name, merged.2) := by
  induction p generalizing t with
  | nil => rfl
  | node l c rest _ ih =>
    obtain ⟨hl, hrest⟩ := List.nodup_cons.mp hp
    rw [mergeMembers_node, ih hrest (ht.mergeMember l c)]
    by_cases hname : l.name = name
    · subst name
      have hnone : rest.first (called l.name) = none := by
        refine Forest.first_eq_none_iff.mpr fun m hm => not_called_iff.mpr fun heq => ?_
        exact hl (heq ▸ List.mem_map_of_mem hm)
      rw [hnone, Forest.first_node (called_iff.mpr rfl)]
      exact first_mergeMember_self ht l c
    · have hskip : (Forest.node l c rest).first (called name) = rest.first (called name) := by
        rw [Forest.first, if_neg (by simp [called, hname])]
      rw [hskip, first_mergeMember_of_ne hname]

end Lookups

end BoxUtils.MergePatch
