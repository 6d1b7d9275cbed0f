import BoxUtils.CJson
import BoxUtils.Heap
import BoxUtils.Loops

/-!
The copy of a `curl_slist` in net.cpp. The loop appends to the list that it reads and
never moves on in it, so that it goes round for ever on every list with a node.
-/
namespace BoxUtils.Net

open CJson Loops

/-- `curl_slist`, with the text that its pointer leads to. -/
structure SListNode where
  data : Text
  next : Option ℕ
  deriving DecidableEq

abbrev SLists := Heap SListNode

section Source

variable (curlSlistAppend : SLists → Option ℕ → Text → SLists × Option ℕ)

/-- A turn of the loop of `SListDup`, on the heap and `new_list`. -/
def slistDupTurn (slist : Option ℕ) :
    SLists × Option ℕ → Turn (SLists × Option ℕ) (Option (SLists × Option ℕ))
  | (H, newList) =>
    match slist with
    | none => .done (some (H, newList))
    | some a =>
      match H.cell a with
      | none => .done none
      | some c => .again (curlSlistAppend H (some a) c.data)

/-- `SListDup` has a result. -/
def SListDup (slist : Option ℕ) (H : SLists) (result : Option (SLists × Option ℕ)) : Prop :=
  Yields (slistDupTurn curlSlistAppend slist) (H, none) result

end Source

section Law

/-- The nodes of a list, from a pointer to the null pointer. -/
def Path (H : SLists) : Option ℕ → List ℕ → Prop
  | p, [] => p = none
  | p, a :: l => p = some a ∧ a ∉ l ∧ ∃ c, H.cell a = some c ∧ Path H c.next l

def dataOf (H : SLists) (a : ℕ) : Option Text := (H.cell a).map SListNode.data

/-- A list of new nodes with the same strings, the old ones being as they were. -/
def CopiesDeeply (curlSlistAppend : SLists → Option ℕ → Text → SLists × Option ℕ) (H : SLists)
    (slist : Option ℕ) (l : List ℕ) : Prop :=
  ∃ H' newList l', SListDup curlSlistAppend slist H (some (H', newList)) ∧ Path H' newList l' ∧
    l'.map (dataOf H') = l.map (dataOf H) ∧ l'.Disjoint l ∧ ∀ a ∈ l, H'.cell a = H.cell a

/-- What `curl_slist_append` says of itself: a new node with a copy of the string is put
at the end of the list, and the head is returned. -/
structure Appended (H H' : SLists) (p head : Option ℕ) (l : List ℕ) (data : Text) (new : ℕ) :
    Prop where
  unused : H.cell new = none
  node : H'.cell new = some ⟨data, none⟩
  head : head = if l = [] then some new else p
  link : ∀ y c, H.cell y = some c →
    H'.cell y = some (if l.getLast? = some y then { c with next := some new } else c)

def AppendsCopies (curlSlistAppend : SLists → Option ℕ → Text → SLists × Option ℕ) : Prop :=
  ∀ H p l data, Path H p l → ∃ new, Appended H (curlSlistAppend H p data).1 p
    (curlSlistAppend H p data).2 l data new

end Law

section Lists

variable {H H' : SLists} {p head : Option ℕ} {l : List ℕ} {data : Text} {a new : ℕ}

theorem Path.live (h : Path H p l) (ha : a ∈ l) : ∃ c, H.cell a = some c := by
  induction l generalizing p with
  | nil => cases ha
  | cons b l ih =>
    obtain ⟨-, -, c, hc, hrest⟩ := h
    rcases List.mem_cons.mp ha with rfl | ha
    · exact ⟨c, hc⟩
    · exact ih hrest ha

theorem Path.nodup (h : Path H p l) : l.Nodup := by
  induction l generalizing p with
  | nil => exact List.nodup_nil
  | cons b l ih =>
    obtain ⟨-, hb, c, -, hrest⟩ := h
    exact List.nodup_cons.mpr ⟨hb, ih hrest⟩

theorem Path.length_le (h : Path H p l) : l.length ≤ H.fresh := by
  have hsub : l ⊆ List.range H.fresh := fun a ha => by
    obtain ⟨c, hc⟩ := h.live ha
    exact List.mem_range.mpr (Heap.lt_fresh hc)
  simpa using (List.subperm_of_subset h.nodup hsub).length_le

/-- The list after a node was put at its end. -/
theorem Path.snoc (h : Path H p l) (hnew : new ∉ l) (hnode : H'.cell new = some ⟨data, none⟩)
    (hlink : ∀ y ∈ l, ∀ c, H.cell y = some c →
      H'.cell y = some (if l.getLast? = some y then { c with next := some new } else c)) :
    Path H' (if l = [] then some new else p) (l ++ [new]) := by
  induction l generalizing p with
  | nil => exact ⟨rfl, List.not_mem_nil, _, hnode, rfl⟩
  | cons b l ih =>
    obtain ⟨hp, hb, c, hc, hrest⟩ := h
    rw [List.mem_cons, not_or] at hnew
    have hb' : b ∉ l ++ [new] := by simp [hb, Ne.symm hnew.1]
    have hcell := hlink b List.mem_cons_self c hc
    have hbehind := ih hrest hnew.2 fun y hy d hd => by
      have hlast : (b :: l).getLast? = l.getLast? :=
        List.getLast?_cons_of_ne_nil (List.ne_nil_of_mem hy)
      rw [← hlast]
      exact hlink y (List.mem_cons_of_mem b hy) d hd
    refine ⟨hp, hb', _, hcell, ?_⟩
    cases l with
    | nil =>
      rw [if_pos rfl] at hbehind
      rw [List.getLast?_singleton, if_pos rfl]
      exact hbehind
    | cons e l =>
      have hnot : (b :: e :: l).getLast? ≠ some b := fun heq =>
        hb (List.mem_of_getLast? (List.getLast?_cons_cons.symm.trans heq))
      rw [if_neg (List.cons_ne_nil e l)] at hbehind
      rw [if_neg hnot]
      exact hbehind

theorem Appended.path (h : Appended H H' p head l data new) (hl : Path H p l) :
    Path H' head (l ++ [new]) := by
  have hnew : new ∉ l := fun hmem => by
    obtain ⟨c, hc⟩ := hl.live hmem
    cases h.unused.symm.trans hc
  rw [h.head]
  exact hl.snoc hnew h.node fun y _ => h.link y

variable {curlSlistAppend : SLists → Option ℕ → Text → SLists × Option ℕ}

/-- Appending leaves a list at the pointer that the loop reads, which is never null. -/
theorem slistDup_endless (happend : AppendsCopies curlSlistAppend)
    (hl : Path H (some a) l) (newList : Option ℕ) :
    ¬ Ends (slistDupTurn curlSlistAppend (some a)) (H, newList) := by
  refine not_ends_of_invariant (I := fun s => ∃ l, Path s.1 (some a) l) ?_ ⟨l, hl⟩
  rintro ⟨H, newList⟩ ⟨l, hl⟩
  cases l with
  | nil => cases hl
  | cons b l =>
    obtain ⟨hab, -, c, hc, -⟩ := id hl
    obtain rfl := Option.some.inj hab
    obtain ⟨new, happended⟩ := happend H (some a) (a :: l) c.data hl
    have hpath := happended.path hl
    rw [happended.head, if_neg (List.cons_ne_nil a l)] at hpath
    have hturn : slistDupTurn curlSlistAppend (some a) (H, newList) =
        .again (curlSlistAppend H (some a) c.data) := by
      simp only [slistDupTurn, show H.cell a = some c from hc]
    exact ⟨_, hturn, _, hpath⟩

end Lists

/-- Of all lists just the empty one is copied; on the others the loop does not end. -/
theorem copiesDeeply_iff {curlSlistAppend : SLists → Option ℕ → Text → SLists × Option ℕ}
    (happend : AppendsCopies curlSlistAppend) {H : SLists} {slist : Option ℕ} {l : List ℕ}
    (hl : Path H slist l) : CopiesDeeply curlSlistAppend H slist l ↔ l = [] := by
  constructor
  · rintro ⟨H', newList, l', hdup, -⟩
    cases l with
    | nil => rfl
    | cons a l =>
      obtain ⟨rfl, -⟩ := id hl
      exact absurd ⟨_, hdup⟩ (slistDup_endless happend hl none)
  · rintro rfl
    obtain rfl : slist = none := hl
    exact ⟨H, none, [], .done rfl, rfl, rfl, List.disjoint_nil_left [], by simp⟩

section Appending

/-- The loop to the last node. -/
def lastNode (H : SLists) : ℕ → ℕ → Option ℕ
  | 0, _ => none
  | rounds + 1, a => do
    let c ← H.cell a
    match c.next with
    | none => some a
    | some next => lastNode H rounds next

/-- What libcurl does where memory lasts. -/
def appendNode (H : SLists) (list : Option ℕ) (data : Text) : SLists × Option ℕ :=
  match list with
  | none => (H.alloc ⟨data, none⟩, some H.fresh)
  | some a =>
    let linked := do
      let last ← lastNode H H.fresh a
      H.modify last fun c => { c with next := some H.fresh }
    match linked with
    | none => (H, none)
    | some H => (H.alloc ⟨data, none⟩, some a)

theorem lastNode_eq {H : SLists} {a : ℕ} {l : List ℕ} {rounds : ℕ} (h : Path H (some a) l)
    (hn : l.length ≤ rounds) : lastNode H rounds a = l.getLast? := by
  induction l generalizing a rounds with
  | nil => cases h
  | cons b l ih =>
    obtain ⟨hab, -, c, hc, hrest⟩ := h
    obtain rfl := Option.some.inj hab
    obtain ⟨rounds, rfl⟩ : ∃ k, rounds = k + 1 := ⟨rounds - 1, by simp at hn; omega⟩
    simp only [lastNode, hc, Option.bind_eq_bind, Option.bind_some]
    cases hnext : c.next with
    | none =>
      rw [hnext] at hrest
      cases l with
      | nil => rfl
      | cons d l => cases hrest.1
    | some d =>
      rw [hnext] at hrest
      cases l with
      | nil => cases hrest
      | cons e l =>
        rw [List.getLast?_cons_cons]
        exact ih hrest (by simpa using hn)

theorem appendNode_appends : AppendsCopies appendNode := by
  intro H p l data hl
  cases l with
  | nil =>
    obtain rfl : p = none := hl
    exact ⟨H.fresh, H.unused _ le_rfl, Heap.cell_alloc_self H _, rfl,
      fun y c hc => Heap.cell_alloc_of_live _ hc⟩
  | cons a l =>
    obtain ⟨rfl, -⟩ := id hl
    obtain ⟨last, hlast⟩ : ∃ last, (a :: l).getLast? = some last := ⟨_, List.getLast?_cons⟩
    obtain ⟨d, hd⟩ := hl.live (List.mem_of_getLast? hlast)
    let linked : SLists := H.put last { d with next := some H.fresh }
    have happend : appendNode H (some a) data = (linked.alloc ⟨data, none⟩, some a) := by
      simp only [appendNode, lastNode_eq hl hl.length_le, hlast, Heap.modify_eq hd,
        Option.bind_eq_bind, Option.bind_some, linked]
    rw [happend]
    refine ⟨H.fresh, H.unused _ le_rfl, Heap.cell_alloc_self linked _, rfl, fun y c hc => ?_⟩
    rw [hlast]
    by_cases hy : y = last
    · subst y
      obtain rfl := Option.some.inj (hc.symm.trans hd)
      rw [if_pos rfl]
      exact Heap.cell_alloc_of_live _ (Heap.cell_put_self hc _)
    · rw [if_neg fun heq => hy (Option.some.inj heq).symm]
      exact Heap.cell_alloc_of_live _ ((Heap.cell_put_of_ne H _ hy).trans hc)

/-- The one line "A:b". -/
def oneLine : SLists := Heap.empty.alloc ⟨⟨[65, 58, 98], by decide⟩, none⟩

theorem oneLine_path : Path oneLine (some 0) [0] :=
  ⟨rfl, List.not_mem_nil, _, Heap.cell_alloc_self Heap.empty _, rfl⟩

end Appending

theorem copiesDeeply_empty : CopiesDeeply appendNode Heap.empty none [] :=
  (copiesDeeply_iff appendNode_appends (show Path Heap.empty none [] from rfl)).mpr rfl

/-- The list with one line is never copied. -/
theorem oneLine_never_copied :
    ¬ ∀ (H : SLists) (slist : Option ℕ) (l : List ℕ), Path H slist l →
      CopiesDeeply appendNode H slist l := by
  intro h
  obtain ⟨H', newList, l', hdup, -⟩ := h oneLine (some 0) [0] oneLine_path
  exact slistDup_endless appendNode_appends oneLine_path none ⟨_, hdup⟩

end BoxUtils.Net
