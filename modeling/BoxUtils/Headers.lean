import Mathlib.Data.List.Infix
import BoxUtils.JsonLookup

/-!
The look-up of header lines by name in net/headers.cpp. A line is compared with
the key up to the length of its own name, so it answers to every key that starts
with that name. The list of lines is a `curl_slist`; the function that appends a
line is a parameter.
-/
namespace BoxUtils.Headers

open CJson Json

section Source

/-- `strncasecmp`, in the "C" locale; a list at its end stands for the NUL. -/
def strncasecmp : ℕ → List UInt8 → List UInt8 → ℤ
  | 0, _, _ => 0
  | _ + 1, [], [] => 0
  | _ + 1, [], b :: _ => 0 - (tolower b).toNat
  | _ + 1, a :: _, [] => (tolower a).toNat - 0
  | n + 1, a :: s1, b :: s2 =>
    if tolower a = tolower b then strncasecmp n s1 s2 else (tolower a).toNat - (tolower b).toNat

/-- The macro `LEN`; the difference of pointers has no value without a colon. -/
def len (str : Text) : Option ℕ := str.1.idxOf? 58

/-- `strchr(data, ':') + 1`, for the place of the colon. -/
def afterColon (data : Text) (place : ℕ) : Text :=
  ⟨data.1.drop (place + 1), fun h => data.2 (List.mem_of_mem_drop h)⟩

def getValue : List Text → Text → Option (Option Text)
  | [], _ => some none
  | data :: next, key => do
    let n ← len data
    if strncasecmp n data.1 key.1 = 0 then some (some (afterColon data n))
    else getValue next key

/-- The operator `[]`. -/
def subscript (slist : List Text) (key : Text) : Outcome Text := do
  let value ← getValue slist key
  match value with
  | none => .throws (.keyError key)
  | some value => pure value

def hasKey (slist : List Text) (key : Text) : Option Bool := do
  let val ← getValue slist key
  some val.isSome

/-- The loop of `remove`. -/
def removeLoop (curlSlistAppend : List Text → Text → List Text) (key : Text) :
    List Text → List Text → Bool → Option (List Text × Bool)
  | [], newList, status => some (newList, status)
  | data :: next, newList, status => do
    let n ← len data
    if strncasecmp n data.1 key.1 = 0 then removeLoop curlSlistAppend key next newList true
    else removeLoop curlSlistAppend key next (curlSlistAppend newList data) status

/-- `remove`: the lines that are left, and whether any was found. -/
def remove (curlSlistAppend : List Text → Text → List Text) (slist : List Text) (key : Text) :
    Option (List Text × Bool) :=
  removeLoop curlSlistAppend key slist [] false

end Source

section Law

/-- What stands before the first colon of a line, in lower case. -/
def name (data : Text) : List UInt8 := (data.1.takeWhile (· ≠ 58)).map tolower

/-- What stands behind the first colon. -/
def text (data : Text) : Text := afterColon data (data.1.idxOf 58)

/-- The line has this name, up to the case of letters. -/
def Named (key data : Text) : Prop := name data = lower key

instance (key data : Text) : Decidable (Named key data) := inferInstanceAs (Decidable (_ = _))

/-- The operations act on the lines of this name and on no others. -/
structure ByWholeName (curlSlistAppend : List Text → Text → List Text) (slist : List Text)
    (key : Text) : Prop where
  get : getValue slist key = some ((slist.find? (Named key)).map text)
  subscript_eq : subscript slist key = match slist.find? (Named key) with
    | none => .throws (.keyError key)
    | some data => .value (text data)
  has : hasKey slist key = some (slist.any (Named key))
  removed : remove curlSlistAppend slist key =
    some (slist.filter (¬ Named key ·), slist.any (Named key))

end Law

/-- The lines that answer to a key: their names are the beginnings of it. -/
def Answers (key data : Text) : Prop := name data <+: lower key

instance (key data : Text) : Decidable (Answers key data) := inferInstanceAs (Decidable (_ <+: _))

section Comparing

theorem strncasecmp_eq_zero_iff {n : ℕ} {s t : List UInt8} (hs : 0 ∉ s) (ht : 0 ∉ t)
    (hn : n ≤ s.length) : strncasecmp n s t = 0 ↔ (s.take n).map tolower <+: t.map tolower := by
  induction n generalizing s t with
  | zero => simp [strncasecmp]
  | succ n ih =>
    cases s with
    | nil => simp at hn
    | cons a s =>
      cases t with
      | nil =>
        have := tolower_toNat_pos (c := a) fun h => hs (by simp [h])
        simp only [strncasecmp, List.take_succ_cons, List.map_cons, List.map_nil,
          List.prefix_nil, reduceCtorEq, iff_false]
        omega
      | cons b t =>
        have ih' := ih (s := s) (t := t) (fun h => hs (List.mem_cons_of_mem _ h))
          (fun h => ht (List.mem_cons_of_mem _ h)) (by simpa using hn)
        by_cases hab : tolower a = tolower b
        · simp [strncasecmp, hab, ih', List.cons_prefix_cons]
        · have hne : (tolower a).toNat ≠ (tolower b).toNat := fun h => hab (UInt8.toNat_inj.mp h)
          rw [strncasecmp, if_neg hab]
          simp only [List.take_succ_cons, List.map_cons, List.cons_prefix_cons, hab, false_and,
            iff_false]
          omega

variable {data key : Text}

theorem len_eq (h : 58 ∈ data.1) : len data = some (data.1.idxOf 58) := by
  exact List.findIdx?_eq_some_of_exists ⟨58, h, by simp⟩

theorem take_idxOf (data : Text) :
    data.1.take (data.1.idxOf 58) = data.1.takeWhile (· ≠ 58) := by
  rw [List.takeWhile_eq_take_findIdx_not, List.idxOf]
  congr 2
  funext b
  by_cases hb : b = 58 <;> simp [hb]

theorem compare_iff (h : 58 ∈ data.1) :
    strncasecmp (data.1.idxOf 58) data.1 key.1 = 0 ↔ Answers key data := by
  have hle := Nat.le_of_lt (List.idxOf_lt_length_iff.mpr h)
  rw [strncasecmp_eq_zero_iff data.2 key.2 hle, take_idxOf]
  rfl

end Comparing

section Results

variable {curlSlistAppend : List Text → Text → List Text} {slist : List Text} {key : Text}

theorem getValue_eq (hcolon : ∀ data ∈ slist, 58 ∈ data.1) :
    getValue slist key = some ((slist.find? (Answers key)).map text) := by
  induction slist with
  | nil => rfl
  | cons data slist ih =>
    have hdata := hcolon data (by simp)
    rw [getValue, len_eq hdata]
    simp only [Option.bind_eq_bind, Option.bind_some]
    rw [List.find?_cons]
    by_cases hans : Answers key data
    · rw [if_pos ((compare_iff hdata).mpr hans)]
      simp [hans, text]
    · rw [if_neg fun h => hans ((compare_iff hdata).mp h)]
      simp only [hans, decide_false]
      exact ih fun d hd => hcolon d (List.mem_cons_of_mem _ hd)

theorem removeLoop_eq (happend : ∀ l data, curlSlistAppend l data = l ++ [data])
    (hcolon : ∀ data ∈ slist, 58 ∈ data.1) (newList : List Text) (status : Bool) :
    removeLoop curlSlistAppend key slist newList status =
      some (newList ++ slist.filter (¬ Answers key ·), status || slist.any (Answers key)) := by
  induction slist generalizing newList status with
  | nil => simp [removeLoop]
  | cons data slist ih =>
    have hdata := hcolon data (by simp)
    have hrest := ih fun d hd => hcolon d (List.mem_cons_of_mem _ hd)
    rw [removeLoop, len_eq hdata]
    simp only [Option.bind_eq_bind, Option.bind_some]
    by_cases hans : Answers key data
    · rw [if_pos ((compare_iff hdata).mpr hans), hrest]
      simp [hans]
    · rw [if_neg fun h => hans ((compare_iff hdata).mp h), hrest, happend]
      simp [hans]

/-- Where every answering line has the name, the operations go by the whole name. -/
theorem ByWholeName.of_named (happend : ∀ l data, curlSlistAppend l data = l ++ [data])
    (hcolon : ∀ data ∈ slist, 58 ∈ data.1)
    (hnamed : ∀ data ∈ slist, Answers key data → Named key data) :
    ByWholeName curlSlistAppend slist key := by
  have hsame : ∀ data ∈ slist, decide (Answers key data) = decide (Named key data) := by
    intro data hdata
    rw [decide_eq_decide]
    constructor
    · exact hnamed data hdata
    · intro h
      unfold Named at h
      unfold Answers
      rw [h]
  have hvalue : getValue slist key = some ((slist.find? (Named key)).map text) := by
    rw [getValue_eq hcolon, List.find?_congr hsame]
  constructor
  · exact hvalue
  · rw [subscript, hvalue]
    cases slist.find? (Named key) <;> rfl
  · rw [hasKey, hvalue]
    simp only [Option.bind_eq_bind, Option.bind_some, Option.isSome_map, Option.some.injEq]
    rw [Bool.eq_iff_iff]
    simp
  · rw [remove, removeLoop_eq happend hcolon]
    have hfilter : slist.filter (¬ Answers key ·) = slist.filter (¬ Named key ·) := by
      refine List.filter_congr fun data hdata => ?_
      have := hsame data hdata
      rw [decide_eq_decide] at this ⊢
      exact not_congr this
    have hany : slist.any (Answers key) = slist.any (Named key) := by
      rw [Bool.eq_iff_iff, List.any_eq_true, List.any_eq_true]
      constructor
      · intro ⟨data, hdata, h⟩
        exact ⟨data, hdata, (hsame data hdata).symm.trans h⟩
      · intro ⟨data, hdata, h⟩
        exact ⟨data, hdata, (hsame data hdata).trans h⟩
    rw [hfilter, hany]
    rfl

end Results

/-- The operations go by the whole name if and only if no line has a name that is the
proper beginning of the key. -/
theorem byWholeName_iff {curlSlistAppend : List Text → Text → List Text}
    (happend : ∀ l data, curlSlistAppend l data = l ++ [data]) {slist : List Text}
    (hcolon : ∀ data ∈ slist, 58 ∈ data.1) (key : Text) :
    ByWholeName curlSlistAppend slist key ↔
      ∀ data ∈ slist, name data <+: lower key → name data = lower key := by
  constructor
  · intro h data hdata hans
    have hremoved := h.removed
    rw [remove, removeLoop_eq happend hcolon] at hremoved
    have hfilter := congrArg Prod.fst (Option.some.inj hremoved)
    by_contra hname
    have hkept : data ∈ slist.filter (¬ Named key ·) := by
      rw [List.mem_filter]
      exact ⟨hdata, decide_eq_true hname⟩
    change [] ++ slist.filter (¬ Answers key ·) = slist.filter (¬ Named key ·) at hfilter
    rw [← hfilter, List.nil_append, List.mem_filter] at hkept
    exact of_decide_eq_true hkept.2 hans
  · intro hnamed
    exact ByWholeName.of_named happend hcolon hnamed

/-- Of the lines "A:b", "Cd:e" and "a:f", the key "a" finds the first, and removes two. -/
theorem byWholeName_repeated :
    ByWholeName (fun l data => l ++ [data])
      [⟨[65, 58, 98], by decide⟩, ⟨[67, 100, 58, 101], by decide⟩, ⟨[97, 58, 102], by decide⟩]
      ⟨[97], by decide⟩ :=
  (byWholeName_iff (fun _ _ => rfl) (by decide) ⟨[97], by decide⟩).mpr (by decide)

/-- The line "A:b" is also found under the key "AB". -/
theorem shorter_name_found :
    ¬ ∀ (slist : List Text) (key : Text), (∀ data ∈ slist, 58 ∈ data.1) → 58 ∉ key.1 →
      ByWholeName (fun l data => l ++ [data]) slist key := by
  intro h
  have hlaw := h [⟨[65, 58, 98], by decide⟩] ⟨[65, 66], by decide⟩ (by decide) (by decide)
  have hfound : hasKey [⟨[65, 58, 98], by decide⟩] ⟨[65, 66], by decide⟩ = some true := by decide
  rw [hlaw.has] at hfound
  exact absurd hfound (by decide)

end BoxUtils.Headers
