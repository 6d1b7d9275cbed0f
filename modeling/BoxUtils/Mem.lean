import BoxUtils.CJson
import BoxUtils.Loops
import BoxUtils.Occurrences

/-!
The search and the comparisons of libc/mem.c. `Box_memmem` jumps from one place of the
needle's first byte to the next, and there compares the needle with the rest of the
haystack only up to the end of the shorter one. The comparisons without case stop where
either string ends, and do not ask whether both have ended.
-/
namespace BoxUtils.Mem

open CJson Loops Occurrences

section Source

/-- `memchr`, as the distance from the pointer. -/
def memchr (mem : List UInt8) (ch : UInt8) (n : ℕ) : Option ℕ := (mem.take n).idxOf? ch

/-- `memcmp`, for blocks that have the given number of bytes. -/
def memcmp : ℕ → List UInt8 → List UInt8 → ℤ
  | n + 1, a :: mem1, b :: mem2 => if a = b then memcmp n mem1 mem2 else (a.toNat : ℤ) - b.toNat
  | _, _, _ => 0

/-- `_memncmp`. -/
def memncmp (mem1 : List UInt8) (n1 : ℕ) (mem2 : List UInt8) (n2 : ℕ) : ℤ :=
  memcmp (if n1 > n2 then n2 else n1) mem1 mem2

/-- The variables of the loop of `Box_memmem`; `mem1` is the distance from its start. -/
structure Searching where
  mem1 : ℕ
  n1 : ℕ
  deriving DecidableEq, Repr

/-- One turn of the loop of `Box_memmem`. -/
def searchTurn (haystack mem2 : List UInt8) (n2 : ℕ) (s : Searching) :
    Turn Searching (Option ℕ) :=
  if s.n1 = 0 then .done none
  else
    -- the needle has a first byte
    match memchr (haystack.drop s.mem1) (mem2.headD 0) s.n1 with
    | none => .done none
    | some i =>
      let pos := s.mem1 + i
      if memncmp (haystack.drop pos) (s.mem1 + s.n1 - pos) mem2 n2 = 0 then .done (some pos)
      else .again ⟨pos + 1, s.n1 - (pos + 1 - s.mem1)⟩

/-- `Box_memmem` returns the pointer at the given distance from `mem1`, or a null pointer. -/
def BoxMemmem (mem1 : Option (List UInt8)) (n1 : ℕ) (mem2 : Option (List UInt8)) (n2 : ℕ)
    (pos : Option ℕ) : Prop :=
  match mem1, mem2 with
  | some haystack, some needle =>
    if n1 = 0 ∨ n2 = 0 then pos = none else Yields (searchTurn haystack needle n2) ⟨0, n1⟩ pos
  | _, _ => pos = none

/-- The loop of `Box_strcasecmp`; a list at its end stands for the NUL. -/
def strcasecmpLoop : List UInt8 → List UInt8 → ℤ
  | a :: s1, b :: s2 => if a = b ∨ tolower a = tolower b then strcasecmpLoop s1 s2 else 1
  | _, _ => 0

/-- `Box_strcasecmp`, for pointers into a memory of strings. -/
def boxStrcasecmp (text : ℕ → Text) : Option ℕ → Option ℕ → ℤ
  | some s1, some s2 => if s1 = s2 then 0 else strcasecmpLoop (text s1).1 (text s2).1
  | _, _ => 1

/-- The loop of `Box_strncasecmp`; the number is what is left of n. -/
def strncasecmpLoop : ℕ → List UInt8 → List UInt8 → ℤ
  | n + 1, a :: s1, b :: s2 => if a = b ∨ tolower a = tolower b then strncasecmpLoop n s1 s2 else 1
  | _, _, _ => 0

/-- `Box_strncasecmp`. -/
def boxStrncasecmp (text : ℕ → Text) (n : ℕ) : Option ℕ → Option ℕ → ℤ
  | some s1, some s2 => if s1 = s2 then 0 else strncasecmpLoop n (text s1).1 (text s2).1
  | _, _ => 1

end Source

section Search

/-- The needle and the rest of the haystack agree as far as both go. -/
def Overlaps (needle rest : List UInt8) : Prop := needle <+: rest ∨ rest <+: needle

/-- Where nothing is found, the character stands at none of the first n places. -/
theorem memchr_eq_none {mem : List UInt8} {ch : UInt8} {n : ℕ} (h : memchr mem ch n = none) :
    ∀ j < n, mem[j]? ≠ some ch := by
  intro j hj heq
  rw [← List.getElem?_take_of_lt hj] at heq
  exact List.idxOf?_eq_none_iff.mp h (List.mem_of_getElem? heq)

/-- What is found is the first place at which the character stands. -/
theorem memchr_eq_some {mem : List UInt8} {ch : UInt8} {n i : ℕ} (h : memchr mem ch n = some i) :
    i < n ∧ ∀ j < i, mem[j]? ≠ some ch := by
  obtain ⟨hi, -, hbefore⟩ := List.idxOf?_eq_some_iff.mp h
  rw [List.length_take] at hi
  refine ⟨by omega, ?_⟩
  intro j hj heq
  have hn : j < n := by omega
  rw [← List.getElem?_take_of_lt hn, List.getElem?_eq_some_iff] at heq
  obtain ⟨_, heq⟩ := heq
  exact hbefore j hj heq

theorem memcmp_eq_zero_iff {n : ℕ} {mem1 mem2 : List UInt8} (h1 : n ≤ mem1.length)
    (h2 : n ≤ mem2.length) : memcmp n mem1 mem2 = 0 ↔ mem1.take n = mem2.take n := by
  induction n generalizing mem1 mem2 with
  | zero => simp [memcmp]
  | succ n ih =>
    cases mem1 with
    | nil => cases h1
    | cons a mem1 =>
      cases mem2 with
      | nil => cases h2
      | cons b mem2 =>
        have hrest := ih (Nat.le_of_succ_le_succ h1) (Nat.le_of_succ_le_succ h2)
        rw [memcmp, List.take_succ_cons, List.take_succ_cons, List.cons.injEq]
        by_cases hab : a = b
        · rw [if_pos hab, hrest]
          exact ⟨fun h => ⟨hab, h⟩, fun h => h.2⟩
        · rw [if_neg hab]
          have hne : a.toNat ≠ b.toNat := fun h => hab (UInt8.toNat_inj.mp h)
          constructor
          · intro hzero
            omega
          · intro h
            exact absurd h.1 hab

/-- The clipped comparison asks for agreement as far as both blocks go. -/
theorem memncmp_eq_zero_iff (rest needle : List UInt8) :
    memncmp rest rest.length needle needle.length = 0 ↔ Overlaps needle rest := by
  unfold memncmp
  split
  case isTrue hlong =>
    rw [memcmp_eq_zero_iff (Nat.le_of_lt hlong) le_rfl, List.take_length, Overlaps,
      List.prefix_iff_eq_take]
    constructor
    · intro h
      exact Or.inl h.symm
    · rintro (h | h)
      · exact h.symm
      · exact absurd h.length_le (Nat.not_le.mpr hlong)
  case isFalse hshort =>
    have hle := Nat.not_lt.mp hshort
    rw [memcmp_eq_zero_iff le_rfl hle, List.take_length, Overlaps, List.prefix_iff_eq_take]
    constructor
    · intro h
      exact Or.inr (h ▸ List.take_prefix _ _)
    · rintro (h | h)
      · rw [(List.prefix_iff_eq_take.mpr h).eq_of_length_le hle, List.take_length]
      · exact List.prefix_iff_eq_take.mp h

/-- Where the needle's first byte does not stand, the needle does not agree with the rest. -/
theorem not_overlaps_of_head {b c : UInt8} {needle rest : List UInt8} (hbc : b ≠ c) :
    ¬ Overlaps (c :: needle) (b :: rest) := by
  rintro (h | h)
  · exact hbc (List.cons_prefix_cons.mp h).1.symm
  · exact hbc (List.cons_prefix_cons.mp h).1

variable {haystack needle : List UInt8}

/-- What the loop finds: the first place from which on the two agree as far as both go. -/
def FindsOverlap (haystack needle : List UInt8) (pos : Option ℕ) : Prop :=
  match pos with
  | some i => i < haystack.length ∧ Overlaps needle (haystack.drop i) ∧
      ∀ j < i, ¬ Overlaps needle (haystack.drop j)
  | none => ∀ j < haystack.length, ¬ Overlaps needle (haystack.drop j)

/-- The haystack is passed up to `mem1`, and n1 bytes of it are left. -/
structure Passed (haystack needle : List UInt8) (s : Searching) : Prop where
  left : s.mem1 + s.n1 = haystack.length
  before : ∀ j < s.mem1, ¬ Overlaps needle (haystack.drop j)

/-- A jump passes over places at which the first byte of the needle does not stand. -/
theorem Passed.jump {c : UInt8} {s : Searching} (h : Passed haystack (c :: needle) s)
    {i : ℕ} (hi : ∀ j < i, (haystack.drop s.mem1)[j]? ≠ some c) :
    ∀ j < s.mem1 + i, j < haystack.length → ¬ Overlaps (c :: needle) (haystack.drop j) := by
  intro j hj hlen
  by_cases hold : j < s.mem1
  · exact h.before j hold
  · have hne := hi (j - s.mem1) (by omega)
    rw [List.getElem?_drop, Nat.add_sub_cancel' (Nat.not_lt.mp hold),
      List.getElem?_eq_getElem hlen] at hne
    rw [List.drop_eq_getElem_cons hlen]
    exact not_overlaps_of_head fun heq => hne (congrArg some heq)

theorem searchTurn_cases {c : UInt8} {s : Searching} (h : Passed haystack (c :: needle) s) :
    match searchTurn haystack (c :: needle) (c :: needle).length s with
    | .again t => Passed haystack (c :: needle) t ∧ t.n1 < s.n1
    | .done pos => FindsOverlap haystack (c :: needle) pos := by
  have hleft := h.left
  by_cases hzero : s.n1 = 0
  · rw [searchTurn, if_pos hzero]
    intro j hj
    exact h.before j (by omega)
  · rw [searchTurn, if_neg hzero, List.headD_cons]
    cases hfound : memchr (haystack.drop s.mem1) c s.n1 with
    | none =>
      intro j hj
      exact h.jump (memchr_eq_none hfound) j (by omega) hj
    | some i =>
      obtain ⟨hi, hbefore⟩ := memchr_eq_some hfound
      have hrest : s.mem1 + s.n1 - (s.mem1 + i) = (haystack.drop (s.mem1 + i)).length := by
        rw [List.length_drop]
        omega
      have hcompare := memncmp_eq_zero_iff (haystack.drop (s.mem1 + i)) (c :: needle)
      rw [← hrest] at hcompare
      have hpassed := h.jump hbefore
      dsimp only
      by_cases hoverlap : Overlaps (c :: needle) (haystack.drop (s.mem1 + i))
      · rw [if_pos (hcompare.mpr hoverlap)]
        exact ⟨by omega, hoverlap, fun j hj => hpassed j hj (by omega)⟩
      · rw [if_neg (mt hcompare.mp hoverlap)]
        refine ⟨⟨?_, ?_⟩, ?_⟩
        · show s.mem1 + i + 1 + (s.n1 - (s.mem1 + i + 1 - s.mem1)) = haystack.length
          omega
        · intro j hj
          rcases Nat.lt_succ_iff_lt_or_eq.mp hj with hlt | rfl
          · exact hpassed j hlt (by omega)
          · exact hoverlap
        · show s.n1 - (s.mem1 + i + 1 - s.mem1) < s.n1
          omega

theorem boxMemmem_iff (hhaystack : haystack ≠ []) (hneedle : needle ≠ []) (pos : Option ℕ) :
    BoxMemmem (some haystack) haystack.length (some needle) needle.length pos ↔
      Yields (searchTurn haystack needle needle.length) ⟨0, haystack.length⟩ pos := by
  have hsizes : ¬ (haystack.length = 0 ∨ needle.length = 0) := by
    simp only [List.length_eq_zero_iff, hhaystack, hneedle, or_self, not_false_eq_true]
  rw [BoxMemmem, if_neg hsizes]

theorem searchTurn_findsOverlap (haystack : List UInt8) (hneedle : needle ≠ []) :
    ∃ pos, Yields (searchTurn haystack needle needle.length) ⟨0, haystack.length⟩ pos ∧
      FindsOverlap haystack needle pos := by
  obtain ⟨c, needle, rfl⟩ := List.exists_cons_of_ne_nil hneedle
  have hstart : Passed haystack (c :: needle) ⟨0, haystack.length⟩ := by
    refine ⟨Nat.zero_add _, ?_⟩
    intro j hj
    cases hj
  apply yields_of_invariant Searching.n1 _ _ hstart
  · intro s t hs hturn
    have hcases := searchTurn_cases hs
    rw [hturn] at hcases
    exact hcases
  · intro s pos hs hturn
    have hcases := searchTurn_cases hs
    rw [hturn] at hcases
    exact hcases

/-- The first full occurrence, or none. -/
def FirstFull (haystack needle : List UInt8) (pos : Option ℕ) : Prop :=
  match pos with
  | some i => FirstAt needle haystack i
  | none => ¬ needle <:+: haystack

/-- The haystack ends with a beginning of the needle. -/
def EndsWithin (haystack needle : List UInt8) : Prop :=
  ∃ rest, rest ≠ [] ∧ rest <:+ haystack ∧ rest <+: needle

/-- A full occurrence leaves no room for an earlier agreement that is not full. -/
theorem FindsOverlap.firstFull_of_infix {pos : Option ℕ} (h : FindsOverlap haystack needle pos)
    (hneedle : needle ≠ []) (hoccurs : needle <:+: haystack) : FirstFull haystack needle pos := by
  obtain ⟨i, hfirst⟩ := exists_firstAt hoccurs
  have hlen := hfirst.here.length_le
  have hpos := List.length_pos_iff.mpr hneedle
  rw [List.length_drop] at hlen
  cases pos with
  | none => exact absurd (Or.inl hfirst.here) (h i (by omega))
  | some j =>
    obtain ⟨hj, hoverlap, hbefore⟩ := h
    have hle : j ≤ i := by
      by_contra hlt
      exact hbefore i (by omega) (Or.inl hfirst.here)
    have hfull : needle <+: haystack.drop j := by
      rcases hoverlap with hfull | hpart
      · exact hfull
      · have hpart_len := hpart.length_le
        rw [List.length_drop] at hpart_len
        have hsame : (haystack.drop j).length = needle.length := by
          rw [List.length_drop]
          omega
        rw [hpart.eq_of_length hsame]
    refine ⟨hfull, fun k hk => ?_⟩
    exact hfirst.before k (by omega)

theorem FindsOverlap.firstFull_iff {pos : Option ℕ} (h : FindsOverlap haystack needle pos)
    (hneedle : needle ≠ []) : FirstFull haystack needle pos ↔
      needle <:+: haystack ∨ ¬ EndsWithin haystack needle := by
  by_cases hoccurs : needle <:+: haystack
  · exact ⟨fun _ => Or.inl hoccurs, fun _ => h.firstFull_of_infix hneedle hoccurs⟩
  · cases pos with
    | none =>
      refine ⟨fun _ => Or.inr ?_, fun _ => hoccurs⟩
      rintro ⟨rest, hrest, ⟨front, rfl⟩, hbegins⟩
      have hlen := List.length_pos_iff.mpr hrest
      refine h front.length (by rw [List.length_append]; omega) (Or.inr ?_)
      rw [List.drop_left]
      exact hbegins
    | some i =>
      obtain ⟨hi, hoverlap, -⟩ := h
      have hfull : ¬ needle <+: haystack.drop i := fun hfull =>
        hoccurs (infix_of_prefix_drop hfull)
      have hrest : haystack.drop i ≠ [] := by
        rw [ne_eq, List.drop_eq_nil_iff]
        omega
      have hends : EndsWithin haystack needle :=
        ⟨haystack.drop i, hrest, List.drop_suffix i haystack, hoverlap.resolve_left hfull⟩
      constructor
      · intro hfirst
        exact absurd hfirst.here hfull
      · rintro (hin | hnot)
        · exact absurd hin hoccurs
        · exact absurd hends hnot

/-- The search is exact if and only if the needle occurs in the haystack, or the haystack does
not end with a beginning of it. -/
theorem memmem_first_full_iff (hhaystack : haystack ≠ []) (hneedle : needle ≠ []) :
    (∃ pos, BoxMemmem (some haystack) haystack.length (some needle) needle.length pos ∧
      FirstFull haystack needle pos) ↔
      needle <:+: haystack ∨ ¬ EndsWithin haystack needle := by
  obtain ⟨pos, hyields, hfinds⟩ := searchTurn_findsOverlap haystack hneedle
  have hiff := hfinds.firstFull_iff hneedle
  simp only [boxMemmem_iff hhaystack hneedle]
  constructor
  · rintro ⟨pos', hyields', hfirst⟩
    obtain rfl := hyields.unique hyields'
    exact hiff.mp hfirst
  · intro hcond
    exact ⟨pos, hyields, hiff.mpr hcond⟩

/-- "bc" in "abcd". -/
theorem memmem_first_full_middle :
    (∃ pos, BoxMemmem (some [97, 98, 99, 100]) 4 (some [98, 99]) 2 pos ∧
      FirstFull [97, 98, 99, 100] [98, 99] pos) ↔
      [98, 99] <:+: [97, 98, 99, (100 : UInt8)] ∨ ¬ EndsWithin [97, 98, 99, 100] [98, 99] :=
  memmem_first_full_iff (by decide) (by decide)

/-- "bc" is found at the end of "ab". -/
theorem memmem_part_at_end :
    ¬ ∀ haystack needle : List UInt8, haystack ≠ [] → needle ≠ [] →
      ∃ pos, BoxMemmem (some haystack) haystack.length (some needle) needle.length pos ∧
        FirstFull haystack needle pos := by
  intro h
  obtain ⟨pos, hreturns, hfirst⟩ := h [97, 98] [98, 99] (by decide) (by decide)
  rw [boxMemmem_iff (by decide) (by decide)] at hreturns
  obtain rfl : pos = some 1 := hreturns.unique ⟨2, by decide⟩
  have hhere := hfirst.here.length_le
  exact absurd hhere (by decide)

end Search

section Comparison

/-- The first n characters in lower case. -/
def lowered (n : ℕ) (s : List UInt8) : List UInt8 := (s.take n).map tolower

/-- One list is a beginning of the other, and not all of it. -/
def EndsFirst (s t : List UInt8) : Prop := (s <+: t ∨ t <+: s) ∧ s ≠ t

/-- The loop asks for agreement as far as both strings go. -/
theorem strncasecmpLoop_eq_zero_iff (n : ℕ) (s t : List UInt8) :
    strncasecmpLoop n s t = 0 ↔ lowered n s <+: lowered n t ∨ lowered n t <+: lowered n s := by
  induction n generalizing s t with
  | zero => simp [strncasecmpLoop, lowered]
  | succ n ih =>
    cases s with
    | nil => simp [strncasecmpLoop, lowered]
    | cons a s =>
      cases t with
      | nil => simp [strncasecmpLoop, lowered]
      | cons b t =>
        have hchars : (a = b ∨ tolower a = tolower b) ↔ tolower a = tolower b :=
          or_iff_right_of_imp (congrArg tolower)
        have hrest := ih s t
        simp only [lowered, List.take_succ_cons, List.map_cons, List.cons_prefix_cons] at hrest ⊢
        rw [strncasecmpLoop]
        by_cases hab : tolower a = tolower b
        · rw [if_pos (hchars.mpr hab), hrest]
          simp only [hab, true_and]
        · rw [if_neg (mt hchars.mp hab)]
          simp [hab, Ne.symm hab]

/-- A number that neither string reaches makes no difference. -/
theorem strcasecmpLoop_eq {n : ℕ} {s t : List UInt8} (hs : s.length ≤ n) :
    strcasecmpLoop s t = strncasecmpLoop n s t := by
  induction n generalizing s t with
  | zero =>
    obtain rfl := List.length_eq_zero_iff.mp (Nat.le_zero.mp hs)
    rfl
  | succ n ih =>
    cases s with
    | nil => rfl
    | cons a s =>
      cases t with
      | nil => rfl
      | cons b t =>
        rw [strcasecmpLoop, strncasecmpLoop, ih (Nat.le_of_succ_le_succ hs)]

variable (text : ℕ → Text) (s1 s2 : ℕ)

theorem boxStrncasecmp_eq_zero_iff (n : ℕ) :
    boxStrncasecmp text n (some s1) (some s2) = 0 ↔
      lowered n (text s1).1 <+: lowered n (text s2).1 ∨
        lowered n (text s2).1 <+: lowered n (text s1).1 := by
  by_cases hsame : s1 = s2
  · subst hsame
    simp [boxStrncasecmp]
  · rw [boxStrncasecmp, if_neg hsame, strncasecmpLoop_eq_zero_iff]

theorem boxStrcasecmp_eq {n : ℕ} (hn : (text s1).1.length ≤ n) :
    boxStrcasecmp text (some s1) (some s2) = boxStrncasecmp text n (some s1) (some s2) := by
  rw [boxStrcasecmp, boxStrncasecmp, strcasecmpLoop_eq hn]

/-- The result is zero for equal strings only, as far as the first n characters go. -/
def DecidesFirst (n : ℕ) : Prop :=
  boxStrncasecmp text n (some s1) (some s2) = 0 ↔
    lowered n (text s1).1 = lowered n (text s2).1

def DecidesWhole : Prop :=
  boxStrcasecmp text (some s1) (some s2) = 0 ↔
    (text s1).1.map tolower = (text s2).1.map tolower

variable {text s1 s2}

theorem decidesFirst_iff (n : ℕ) :
    DecidesFirst text s1 s2 n ↔ ¬ EndsFirst (lowered n (text s1).1) (lowered n (text s2).1) := by
  rw [DecidesFirst, boxStrncasecmp_eq_zero_iff, EndsFirst]
  constructor
  · rintro hdecides ⟨hbegins, hne⟩
    exact hne (hdecides.mp hbegins)
  · intro hends
    constructor
    · intro hbegins
      by_contra hne
      exact hends ⟨hbegins, hne⟩
    · intro heq
      rw [heq]
      exact Or.inl List.prefix_rfl

theorem decidesWhole_iff :
    DecidesWhole text s1 s2 ↔
      ¬ EndsFirst ((text s1).1.map tolower) ((text s2).1.map tolower) := by
  have hwhole : ∀ s : List UInt8, ∀ n, s.length ≤ n → lowered n s = s.map tolower := by
    intro s n hn
    rw [lowered, List.take_of_length_le hn]
  let n := (text s1).1.length + (text s2).1.length
  have h1 : (text s1).1.length ≤ n := Nat.le_add_right _ _
  have h2 : (text s2).1.length ≤ n := Nat.le_add_left _ _
  have hfirst : DecidesFirst text s1 s2 n ↔ _ := decidesFirst_iff n
  rw [DecidesFirst, ← boxStrcasecmp_eq text s1 s2 h1, hwhole _ n h1, hwhole _ n h2] at hfirst
  exact hfirst

/-- The strings "b" and "c" and, everywhere else, the empty one. -/
def letters : ℕ → Text
  | 1 => ⟨[98], by decide⟩
  | 2 => ⟨[99], by decide⟩
  | _ => ⟨[], by decide⟩

/-- The empty string is taken for equal to both letters. -/
theorem not_trans_letters {n : ℕ} (hn : n ≠ 0) :
    ¬ Equivalence fun s1 s2 => boxStrncasecmp letters n (some s1) (some s2) = 0 := by
  obtain ⟨m, rfl⟩ := Nat.exists_eq_succ_of_ne_zero hn
  intro h
  have hfirst : boxStrncasecmp letters (m + 1) (some 1) (some 0) = 0 := rfl
  have hsecond : boxStrncasecmp letters (m + 1) (some 0) (some 2) = 0 := rfl
  have hboth := h.trans hfirst hsecond
  cases hboth

theorem equivalence_iff (n : ℕ) :
    (∀ text, Equivalence fun s1 s2 => boxStrncasecmp text n (some s1) (some s2) = 0) ↔ n = 0 := by
  constructor
  · intro h
    by_contra hn
    exact not_trans_letters hn (h letters)
  · rintro rfl text
    have hzero : ∀ s1 s2, boxStrncasecmp text 0 (some s1) (some s2) = 0 := by
      intro s1 s2
      rw [boxStrncasecmp_eq_zero_iff]
      exact Or.inl List.prefix_rfl
    exact ⟨fun s => hzero s s, fun {s1 s2} _ => hzero s2 s1, fun {s1 _ s3} _ _ => hzero s1 s3⟩

theorem not_equivalence_whole :
    ¬ ∀ text, Equivalence fun s1 s2 => boxStrcasecmp text (some s1) (some s2) = 0 := by
  intro h
  have hfirst : boxStrcasecmp letters (some 1) (some 0) = 0 := rfl
  have hsecond : boxStrcasecmp letters (some 0) (some 2) = 0 := rfl
  have hboth := (h letters).trans hfirst hsecond
  cases hboth

/-- Each comparison decides equality exactly for two strings of which none ends before the
other with nothing but agreement up to there; being an equivalence takes n to be zero. -/
theorem casecmp_decides_iff (n : ℕ) :
    (DecidesFirst text s1 s2 n ↔
      ¬ EndsFirst (lowered n (text s1).1) (lowered n (text s2).1)) ∧
    (DecidesWhole text s1 s2 ↔
      ¬ EndsFirst ((text s1).1.map tolower) ((text s2).1.map tolower)) ∧
    ((∀ text, Equivalence fun s1 s2 => boxStrncasecmp text n (some s1) (some s2) = 0) ↔
      n = 0) ∧
    ¬ ∀ text, Equivalence fun s1 s2 => boxStrcasecmp text (some s1) (some s2) = 0 :=
  ⟨decidesFirst_iff n, decidesWhole_iff, equivalence_iff n, not_equivalence_whole⟩

/-- "" and "b". -/
theorem empty_equals_letter :
    ¬ (∀ (text : ℕ → Text) (s1 s2 n : ℕ), DecidesFirst text s1 s2 n) ∧
      ¬ ∀ (text : ℕ → Text) (s1 s2 : ℕ), DecidesWhole text s1 s2 := by
  constructor
  · intro h
    have hequal := (h letters 1 0 1).mp rfl
    exact absurd hequal (by decide)
  · intro h
    have hequal := (h letters 1 0).mp rfl
    exact absurd hequal (by decide)

end Comparison

end BoxUtils.Mem
