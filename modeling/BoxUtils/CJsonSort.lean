import BoxUtils.CJsonLabels
import BoxUtils.MergeSorting

/-!
`cJSONUtils_SortObject`: a merge sort of the linked list of children by their names, which
changes the links between them only.
-/
namespace BoxUtils.CJson

open LinkedShapes MergeSorting

section Sorting

/-- The loop of `compare_strings`, and that of `strcmp` without the conversion; a list at its
end stands for the NUL. -/
def compareBytes (convert : UInt8 → UInt8) : List UInt8 → List UInt8 → ℤ
  | [], [] => 0
  | [], b :: _ => 0 - (convert b).toNat
  | a :: _, [] => (convert a).toNat - 0
  | a :: as, b :: bs =>
    if convert a = convert b then compareBytes convert as bs
    else (convert a).toNat - (convert b).toNat

def compareStrings (string1 string2 : Option Text) (caseSensitive : Bool) : ℤ :=
  match string1, string2 with
  | some string1, some string2 =>
    compareBytes (if caseSensitive then id else tolower) string1.1 string2.1
  | _, _ => 1

variable (caseSensitive : Bool)

/-- The first loop of `sort_list`, which stops where a name is not smaller than the next. -/
def testSorted (H : Nodes) : ℕ → Option ℕ → Option (Option ℕ)
  | _, none => some none
  | 0, some _ => none
  | rounds + 1, some current => do
    let c ← H.cell current
    match c.next with
    | none => some (some current)
    | some next => do
      let d ← H.cell next
      if compareStrings c.string d.string caseSensitive < 0 then testSorted H rounds (some next)
      else some (some current)

def isLastItem (H : Nodes) : Option ℕ → Option Bool
  | none => some true
  | some current => do
    let c ← H.cell current
    some c.next.isNone

/-- The two pointers that find the middle; the current one makes two steps at a time. -/
def findMiddle (H : Nodes) : ℕ → Option ℕ → Option ℕ → Option (Option ℕ)
  | _, second, none => some second
  | 0, _, some _ => none
  | rounds + 1, second, some current => do
    let s ← second
    let s ← H.cell s
    let c ← H.cell current
    match c.next with
    | none => findMiddle H rounds s.next none
    | some current => do
      let c ← H.cell current
      findMiddle H rounds s.next c.next

def splitLists (H : Nodes) (second : Option ℕ) : Option Nodes :=
  match second with
  | none => some H
  | some second => do
    let s ← H.cell second
    match s.prev with
    | none => some H
    | some prev => do
      let H ← H.modify prev fun c => { c with next := none }
      H.modify second fun c => { c with prev := none }

/-- `result` and `result_tail` -/
abbrev Merged := Option ℕ × Option ℕ

def appendSmaller (H : Nodes) (smaller : ℕ) : Merged → Option (Nodes × Merged)
  | (none, _) => some (H, some smaller, some smaller)
  | (some result, tail) => do
    let H ← suffixObject H tail smaller
    some (H, some result, some smaller)

/-- The loop that merges the lists while neither is at its end. -/
def mergeLoop : ℕ → Nodes → Option ℕ → Option ℕ → Merged →
    Option (Nodes × Option ℕ × Option ℕ × Merged)
  | 0, _, some _, some _, _ => none
  | rounds + 1, H, some first, some second, merged => do
    let c ← H.cell first
    let d ← H.cell second
    let smaller :=
      if compareStrings c.string d.string caseSensitive < 0 then first else second
    let (H, merged) ← appendSmaller H smaller merged
    if first = smaller then do
      let c ← H.cell first
      mergeLoop rounds H c.next (some second) merged
    else do
      let d ← H.cell second
      mergeLoop rounds H (some first) d.next merged
  | _, H, first, second, merged => some (H, first, second, merged)

def appendRest (H : Nodes) (tail rest : Option ℕ) : Option Nodes :=
  match rest with
  | none => some H
  | some rest => suffixObject H tail rest

def mergeRest (H : Nodes) (first second : Option ℕ) (merged : Merged) :
    Option (Nodes × Option ℕ) :=
  match first, merged.1 with
  | some first, none => some (H, some first)
  | first, _ => do
    let H ← appendRest H merged.2 first
    match second, merged.1 with
    | some second, none => some (H, some second)
    | second, result => do
      let H ← appendRest H merged.2 second
      some (H, result)

def sortList : ℕ → Nodes → Option ℕ → Option (Nodes × Option ℕ)
  | _, H, none => some (H, none)
  | 0, _, some _ => none
  | calls + 1, H, some list => do
    let c ← H.cell list
    if c.next = none then some (H, some list)
    else do
      let current ← testSorted caseSensitive H H.fresh (some list)
      if ← isLastItem H current then some (H, some list)
      else do
        let second ← findMiddle H H.fresh (some list) (some list)
        let H ← splitLists H second
        let (H, first) ← sortList calls H (some list)
        let (H, second) ← sortList calls H second
        let (H, first, second, merged) ←
          mergeLoop caseSensitive H.fresh H first second (none, none)
        mergeRest H first second merged

/-- `cJSONUtils_SortObject` and `cJSONUtils_SortObjectCaseSensitive`. -/
def sortObject (H : Nodes) (object : Option ℕ) : Option Nodes :=
  match object with
  | none => some H
  | some object => do
    let c ← H.cell object
    let (H, child) ← sortList caseSensitive H.fresh H c.child
    H.modify object fun o => { o with child := child }

end Sorting

end BoxUtils.CJson
