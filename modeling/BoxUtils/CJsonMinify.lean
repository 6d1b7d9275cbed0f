import BoxUtils.CJsonParse
import BoxUtils.CJsonPrintCalls

/-!
Minifying a JSON text in its own buffer. The output is written behind the input pointer, to
bytes that have been read already. Comments, blanks and single slashes are dropped outside of
strings; inside of a string, the only escape that is known is the one of the quote.
-/
namespace BoxUtils.CJson

open CMemory

section Code

/-- The loop through a comment up to the end of the line. -/
def onelineCommentLoop : ℕ → Memory → Pointer → Option Pointer
  | 0, _, _ => none
  | turns + 1, M, input => do
    let c ← load M input
    if c = 0 then some input
    else if c = 10 then some (input.add 1)
    else onelineCommentLoop turns M (input.add 1)

def skipOnelineComment (turns : ℕ) (M : Memory) (input : Pointer) : Option Pointer :=
  onelineCommentLoop turns M (input.add 2)

def multilineCommentLoop : ℕ → Memory → Pointer → Option Pointer
  | 0, _, _ => none
  | turns + 1, M, input => do
    let c ← load M input
    if c = 0 then some input
    else if c = 42 then
      if (← load M (input.add 1)) = 47 then some (input.add 2)
      else multilineCommentLoop turns M (input.add 1)
    else multilineCommentLoop turns M (input.add 1)

def skipMultilineComment (turns : ℕ) (M : Memory) (input : Pointer) : Option Pointer :=
  multilineCommentLoop turns M (input.add 2)

/-- The memory, and where the input and the output go on. -/
abbrev Minifying := Memory × Pointer × Pointer

def minifyStringLoop : ℕ → Memory → Pointer → Pointer → Option Minifying
  | 0, _, _, _ => none
  | turns + 1, M, input, output => do
    if (← load M input) = 0 then some (M, input, output)
    else
      let M ← store M output [some (← load M input)]
      -- the input is read again, in case the output is the same byte
      let c ← load M input
      if c = quote then
        let M ← store M output [some quote]
        some (M, input.add 1, output.add 1)
      else if c = backslash then
        if (← load M (input.add 1)) = quote then
          let M ← store M (output.add 1) [some (← load M (input.add 1))]
          minifyStringLoop turns M (input.add 2) (output.add 2)
        else minifyStringLoop turns M (input.add 1) (output.add 1)
      else minifyStringLoop turns M (input.add 1) (output.add 1)

def minifyString (turns : ℕ) (M : Memory) (input output : Pointer) : Option Minifying := do
  let M ← store M output [some (← load M input)]
  minifyStringLoop turns M (input.add 1) (output.add 1)

def minifyLoop : ℕ → Memory → Pointer → Pointer → Option Memory
  | 0, _, _, _ => none
  | turns + 1, M, json, into => do
    let c ← load M json
    if c = 0 then store M into [some 0]
    else if c = 32 ∨ c = 9 ∨ c = 13 ∨ c = 10 then minifyLoop turns M (json.add 1) into
    else if c = 47 then
      let d ← load M (json.add 1)
      if d = 47 then minifyLoop turns M (← skipOnelineComment turns M json) into
      else if d = 42 then minifyLoop turns M (← skipMultilineComment turns M json) into
      else minifyLoop turns M (json.add 1) into
    else if c = quote then
      let (M, json, into) ← minifyString turns M json into
      minifyLoop turns M json into
    else
      let M ← store M into [some c]
      minifyLoop turns M (json.add 1) (into.add 1)

/-- `cJSON_Minify`; `none` is for what C does not define, and for more turns of a loop than
the number allows. -/
def minify (turns : ℕ) (M : Memory) (json : Option Pointer) : Option Memory :=
  match json with
  | none => some M
  | some json => minifyLoop turns M json json

end Code

section Texts

/-- What follows behind the line. -/
def behindLine : List UInt8 → List UInt8
  | [] => []
  | c :: rest => if c = 10 then rest else behindLine rest

/-- What follows behind the end of a comment. -/
def behindComment : List UInt8 → List UInt8
  | [] => []
  | c :: rest => if c = 42 ∧ rest.head? = some 47 then rest.tail else behindComment rest

/-- What follows behind a slash, and the comment that it starts. -/
def behindSlash (rest : List UInt8) : List UInt8 :=
  match rest with
  | [] => []
  | d :: more => if d = 47 then behindLine more else if d = 42 then behindComment more else rest

/-- A string behind its opening quote, and what follows. -/
def splitString : List UInt8 → List UInt8 × List UInt8
  | [] => ([], [])
  | [c] => ([c], [])
  | c :: d :: rest =>
    if c = quote then ([c], d :: rest)
    else if c = backslash ∧ d = quote then
      (c :: d :: (splitString rest).1, (splitString rest).2)
    else (c :: (splitString (d :: rest)).1, (splitString (d :: rest)).2)

theorem behindLine_suffix (rest : List UInt8) : behindLine rest <:+ rest := by
  induction rest with
  | nil => exact List.suffix_rfl
  | cons c rest ih =>
    rw [behindLine]
    split
    · exact List.suffix_cons c rest
    · exact ih.trans (List.suffix_cons c rest)

theorem behindComment_suffix (rest : List UInt8) : behindComment rest <:+ rest := by
  induction rest with
  | nil => exact List.suffix_rfl
  | cons c rest ih =>
    rw [behindComment]
    split
    · exact (List.tail_suffix rest).trans (List.suffix_cons c rest)
    · exact ih.trans (List.suffix_cons c rest)

theorem behindSlash_suffix (rest : List UInt8) : behindSlash rest <:+ rest := by
  cases rest with
  | nil => exact List.suffix_rfl
  | cons d more =>
    rw [behindSlash]
    split
    · exact (behindLine_suffix more).trans (List.suffix_cons d more)
    split
    · exact (behindComment_suffix more).trans (List.suffix_cons d more)
    · exact List.suffix_rfl

theorem splitString_append (rest : List UInt8) :
    (splitString rest).1 ++ (splitString rest).2 = rest := by
  induction rest using splitString.induct with
  | case1 => rfl
  | case2 => rfl
  | case3 d rest => rw [splitString, if_pos rfl, List.singleton_append]
  | case4 c d rest hquote hescape ih =>
    rw [splitString, if_neg hquote, if_pos hescape, List.cons_append, List.cons_append, ih]
  | case5 c d rest hquote hescape ih =>
    rw [splitString, if_neg hquote, if_neg hescape, List.cons_append, ih]

theorem splitString_quote (rest : List UInt8) : splitString (quote :: rest) = ([quote], rest) := by
  cases rest with
  | nil => rfl
  | cons d rest => rw [splitString, if_pos rfl]

theorem splitString_escape (rest : List UInt8) : splitString (backslash :: quote :: rest) =
    (backslash :: quote :: (splitString rest).1, (splitString rest).2) := by
  have hne : backslash ≠ quote := by decide
  rw [splitString, if_neg hne, if_pos ⟨rfl, rfl⟩]

theorem splitString_other {c : UInt8} {rest : List UInt8} (hquote : c ≠ quote)
    (hescape : ¬ (c = backslash ∧ rest.head? = some quote)) :
    splitString (c :: rest) = (c :: (splitString rest).1, (splitString rest).2) := by
  cases rest with
  | nil => rfl
  | cons d rest =>
    rw [List.head?_cons, Option.some.injEq] at hescape
    rw [splitString, if_neg hquote, if_neg hescape]

theorem splitString_suffix (rest : List UInt8) : (splitString rest).2 <:+ rest :=
  ⟨_, splitString_append rest⟩

/-- What is left of a text. -/
def minified : List UInt8 → List UInt8
  | [] => []
  | c :: rest =>
    if c = 32 ∨ c = 9 ∨ c = 13 ∨ c = 10 then minified rest
    else if c = 47 then minified (behindSlash rest)
    else if c = quote then c :: ((splitString rest).1 ++ minified (splitString rest).2)
    else c :: minified rest
termination_by t => t.length
decreasing_by
  · exact Nat.lt_succ_self _
  · exact Nat.lt_succ_of_le (behindSlash_suffix rest).length_le
  · exact Nat.lt_succ_of_le (splitString_suffix rest).length_le
  · exact Nat.lt_succ_self _

/-- Bytes are dropped, and nothing else is done to them. -/
theorem minified_sublist (t : List UInt8) : (minified t).Sublist t := by
  induction t using minified.induct with
  | case1 => rw [minified]
  | case2 c rest hc ih =>
    rw [minified, if_pos hc]
    exact ih.cons c
  | case3 rest hc ih =>
    rw [minified, if_neg hc, if_pos rfl]
    exact (ih.trans (behindSlash_suffix rest).sublist).cons 47
  | case4 rest hc hslash ih =>
    rw [minified, if_neg hc, if_neg hslash, if_pos rfl]
    have h := (List.Sublist.refl (splitString rest).1).append ih
    rw [splitString_append] at h
    exact h.cons_cons quote
  | case5 c rest hc hslash hquote ih =>
    rw [minified, if_neg hc, if_neg hslash, if_neg hquote]
    exact ih.cons_cons c

theorem splitString_head (c : UInt8) (rest : List UInt8) :
    (splitString (c :: rest)).1.head? = some c := by
  cases rest with
  | nil => rfl
  | cons d rest =>
    rw [splitString]
    split
    · rfl
    split
    · rfl
    · rfl

/-- A string that was closed is found again, whatever follows; one that was not is the end. -/
theorem splitString_again (rest : List UInt8) :
    (∀ w, splitString ((splitString rest).1 ++ w) = ((splitString rest).1, w)) ∨
      (splitString rest).2 = [] ∧
        splitString (splitString rest).1 = ((splitString rest).1, []) := by
  induction rest using splitString.induct with
  | case1 => exact Or.inr ⟨rfl, rfl⟩
  | case2 c => exact Or.inr ⟨rfl, rfl⟩
  | case3 d rest =>
    refine Or.inl fun w => ?_
    rw [splitString_quote]
    exact splitString_quote w
  | case4 c d rest hquote hescape ih =>
    obtain ⟨rfl, rfl⟩ := hescape
    rw [splitString_escape]
    rcases ih with hall | ⟨hnil, hsame⟩
    · refine Or.inl fun w => ?_
      simp only [List.cons_append, splitString_escape, hall]
    · refine Or.inr ⟨hnil, ?_⟩
      simp only [splitString_escape, hsame]
  | case5 c d rest hquote hescape ih =>
    have hother : ∀ w, ¬ (c = backslash ∧
        ((splitString (d :: rest)).1 ++ w).head? = some quote) := by
      intro w
      rw [List.head?_append, splitString_head]
      exact fun h => hescape ⟨h.1, Option.some.inj h.2⟩
    rw [splitString, if_neg hquote, if_neg hescape]
    rcases ih with hall | ⟨hnil, hsame⟩
    · refine Or.inl fun w => ?_
      simp only [List.cons_append, splitString_other hquote (hother w), hall]
    · refine Or.inr ⟨hnil, ?_⟩
      have hend := hother []
      rw [List.append_nil] at hend
      simp only [splitString_other hquote hend, hsame]

/-- What was minified stays as it is. -/
theorem minified_minified (t : List UInt8) : minified (minified t) = minified t := by
  induction t using minified.induct with
  | case1 => rw [minified, minified]
  | case2 c rest hc ih => rwa [minified, if_pos hc]
  | case3 rest hc ih => rwa [minified, if_neg hc, if_pos rfl]
  | case4 rest hc hslash ih =>
    rw [minified, if_neg hc, if_neg hslash, if_pos rfl, minified, if_neg hc, if_neg hslash,
      if_pos rfl]
    rcases splitString_again rest with hall | ⟨hnil, hsame⟩
    · rw [hall, ih]
    · rw [hnil, minified, List.append_nil, hsame, minified, List.append_nil]
  | case5 c rest hc hslash hquote ih =>
    rw [minified, if_neg hc, if_neg hslash, if_neg hquote, minified, if_neg hc, if_neg hslash,
      if_neg hquote, ih]

end Texts

section Comments

variable {M : Memory} {p : Pointer} {rest : List UInt8} {c : UInt8} {turns : ℕ}

/-- A text and its NUL, from a pointer on. -/
def Reads (M : Memory) (p : Pointer) (rest : List UInt8) : Prop :=
  ∀ n, n ≤ rest.length → load M (p.add n) = (rest ++ [0])[n]?

theorem Reads.nul (h : Reads M p []) : load M p = some 0 := h 0 le_rfl

theorem Reads.head (h : Reads M p (c :: rest)) : load M p = some c := h 0 (Nat.zero_le _)

theorem Reads.tail (h : Reads M p (c :: rest)) : Reads M (p.add 1) rest := by
  intro n hn
  have hnext := h (1 + n) (by rw [List.length_cons]; omega)
  rwa [Nat.add_comm 1 n, List.cons_append, List.getElem?_cons_succ, Nat.add_comm n 1,
    ← add_add] at hnext

/-- The byte at the pointer is a given one. -/
theorem Reads.eq_iff (h : Reads M p rest) {d : UInt8} (hd : d ≠ 0) :
    ∃ c, load M p = some c ∧ (c = d ↔ rest.head? = some d) := by
  cases rest with
  | nil => exact ⟨0, h.nul, by simp [Ne.symm hd]⟩
  | cons c rest => exact ⟨c, h.head, by simp⟩

theorem onelineCommentLoop_eq (h : Reads M p rest) (hnul : 0 ∉ rest)
    (hturns : rest.length < turns) :
    ∃ u, u ++ behindLine rest = rest ∧ onelineCommentLoop turns M p = some (p.add u.length) := by
  induction rest generalizing p turns with
  | nil =>
    obtain ⟨turns, rfl⟩ := Nat.exists_eq_succ_of_ne_zero (Nat.ne_of_gt hturns)
    refine ⟨[], rfl, ?_⟩
    simp [onelineCommentLoop, h.nul]
  | cons c rest ih =>
    obtain ⟨turns, rfl⟩ := Nat.exists_eq_succ_of_ne_zero (Nat.ne_of_gt (Nat.zero_lt_of_lt hturns))
    obtain ⟨hc, hnul⟩ := not_or.mp (mt List.mem_cons.mpr hnul)
    by_cases hline : c = 10
    · refine ⟨[c], by rw [behindLine, if_pos hline, List.singleton_append], ?_⟩
      simp [onelineCommentLoop, h.head, hline]
    · obtain ⟨u, hu, hloop⟩ := ih h.tail hnul (Nat.lt_of_succ_lt_succ hturns)
      refine ⟨c :: u, by rw [behindLine, if_neg hline, List.cons_append, hu], ?_⟩
      simp only [onelineCommentLoop, h.head, Option.bind_eq_bind, Option.bind_some,
        if_neg (Ne.symm hc), if_neg hline, hloop, add_add, List.length_cons]
      rw [Nat.add_comm]

theorem multilineCommentLoop_eq (h : Reads M p rest) (hnul : 0 ∉ rest)
    (hturns : rest.length < turns) :
    ∃ u, u ++ behindComment rest = rest ∧
      multilineCommentLoop turns M p = some (p.add u.length) := by
  induction rest generalizing p turns with
  | nil =>
    obtain ⟨turns, rfl⟩ := Nat.exists_eq_succ_of_ne_zero (Nat.ne_of_gt hturns)
    refine ⟨[], rfl, ?_⟩
    simp [multilineCommentLoop, h.nul]
  | cons c rest ih =>
    obtain ⟨turns, rfl⟩ := Nat.exists_eq_succ_of_ne_zero (Nat.ne_of_gt (Nat.zero_lt_of_lt hturns))
    obtain ⟨hc, hnul⟩ := not_or.mp (mt List.mem_cons.mpr hnul)
    obtain ⟨d, hload, hd⟩ := h.tail.eq_iff (d := 47) (by decide)
    by_cases hstop : c = 42 ∧ rest.head? = some 47
    · have hrest : 47 :: rest.tail = rest := by
        cases rest with
        | nil => cases hstop.2
        | cons x rest => rw [Option.some.inj hstop.2, List.tail_cons]
      refine ⟨[c, 47], ?_, ?_⟩
      · rw [behindComment, if_pos hstop, List.cons_append, List.singleton_append, hrest]
      · simp [multilineCommentLoop, h.head, hload, hstop.1, hd.mpr hstop.2]
    · obtain ⟨u, hu, hloop⟩ := ih h.tail hnul (Nat.lt_of_succ_lt_succ hturns)
      refine ⟨c :: u, by rw [behindComment, if_neg hstop, List.cons_append, hu], ?_⟩
      have hon : multilineCommentLoop (turns + 1) M p = multilineCommentLoop turns M (p.add 1) := by
        simp only [multilineCommentLoop, h.head, Option.bind_eq_bind, Option.bind_some,
          if_neg (Ne.symm hc), hload]
        split
        · rename_i hstar
          rw [if_neg fun hslash => hstop ⟨hstar, hd.mp hslash⟩]
        · rfl
      rw [hon, hloop, add_add, List.length_cons, Nat.add_comm]

end Comments

section Rewriting

variable {M₀ M : Memory} {p : Pointer} {out gap rest : List UInt8} {c : UInt8} {turns : ℕ}

/-- What lies around the text of a buffer in its block, and how long the text was. -/
structure Surroundings where
  static : Bool
  length : ℕ
  before : List (Option UInt8)
  behind : List (Option UInt8)

def Surroundings.block (a : Surroundings) (bytes : List UInt8) : Block :=
  ⟨a.static, a.before ++ bytes.map some ++ a.behind⟩

/-- A buffer at work: what was written to it, bytes that are not needed any more, and the
text that is still to be read. -/
structure Rewrites (M₀ : Memory) (p : Pointer) (a : Surroundings) (M : Memory)
    (out gap rest : List UInt8) : Prop where
  start : a.before.length = p.offset
  cell : M.cell p.block = some (a.block (out ++ gap ++ (rest ++ [0])))
  length : out.length + gap.length + rest.length = a.length
  others : ∀ b, b ≠ p.block → M.cell b = M₀.cell b

variable {a : Surroundings}

theorem load_block {bytes : List UInt8} (hstart : a.before.length = p.offset)
    (hcell : M.cell p.block = some (a.block bytes)) {n : ℕ} (hn : n < bytes.length) :
    load M (p.add n) = bytes[n]? := by
  have hbefore : a.before.length ≤ p.offset + n := by omega
  have hmiddle : p.offset + n - a.before.length = n := by omega
  simp only [load, Pointer.add, hcell, Option.bind_eq_bind, Option.bind_some, Surroundings.block]
  rw [List.append_assoc, List.getElem?_append_right hbefore, hmiddle,
    List.getElem?_append_left (by rwa [List.length_map]), List.getElem?_map,
    List.getElem?_eq_getElem hn]
  rfl

theorem store_block {u v : List UInt8} (hstart : a.before.length = p.offset)
    (hcell : M.cell p.block = some (a.block (u ++ c :: v))) (d : UInt8) :
    ∃ M', store M (p.add u.length) [some d] = some M' ∧
      M'.cell p.block = some (a.block (u ++ d :: v)) ∧
      ∀ b, b ≠ p.block → M'.cell b = M.cell b := by
  have hfront : (a.before ++ u.map some).length = p.offset + u.length := by
    rw [List.length_append, List.length_map, hstart]
  have hbytes : (a.block (u ++ c :: v)).bytes =
      a.before ++ u.map some ++ ([some c] ++ (v.map some ++ a.behind)) := by
    simp [Surroundings.block]
  have hfits : ¬ (a.block (u ++ c :: v)).bytes.length < (p.add u.length).offset + 1 := by
    rw [hbytes, List.length_append, hfront, Pointer.add]
    simp only [List.length_append, List.length_singleton]
    omega
  have hcell' : M.cell (p.add u.length).block = some (a.block (u ++ c :: v)) := hcell
  refine ⟨_, ?_, Heap.cell_put_self hcell _, fun b hb => Heap.cell_put_of_ne _ _ hb⟩
  rw [store, hcell', Option.bind_eq_bind, Option.bind_some, List.length_singleton, if_neg hfits,
    hbytes, Pointer.add, List.take_left' hfront, ← List.drop_drop, List.drop_left' hfront]
  simp [Surroundings.block]

theorem Rewrites.skip {u : List UInt8} (h : Rewrites M₀ p a M out gap (u ++ rest)) :
    Rewrites M₀ p a M out (gap ++ u) rest := by
  refine ⟨h.start, ?_, ?_, h.others⟩
  · rw [h.cell]
    simp only [List.append_assoc]
  · have hlength := h.length
    simp only [List.length_append] at hlength ⊢
    omega

/-- A byte goes to the end of the output, and can still be read at the input. -/
theorem Rewrites.write (h : Rewrites M₀ p a M out gap (c :: rest)) :
    ∃ M' gap', store M (p.add out.length) [some c] = some M' ∧ gap'.length = gap.length ∧
      Rewrites M₀ p a M' (out ++ [c]) gap' rest ∧
      CMemory.load M' (p.add (out.length + gap.length)) = some c := by
  have hlt : out.length + gap.length < (out ++ gap ++ (c :: rest ++ [0])).length := by
    simp only [List.length_append, List.length_cons]
    omega
  have hlength := h.length
  rw [List.length_cons] at hlength
  cases gap with
  | nil =>
    obtain ⟨M', hstore, hcell, hothers⟩ := store_block (u := out) (v := rest ++ [0]) h.start
      (by simpa using h.cell) c
    refine ⟨M', [], hstore, rfl, ⟨h.start, by simpa using hcell, ?_, ?_⟩, ?_⟩
    · rw [List.length_append, List.length_singleton]
      omega
    · intro b hb
      rw [hothers b hb, h.others b hb]
    · rw [load_block h.start hcell (by simp)]
      simp
  | cons g gap =>
    obtain ⟨M', hstore, hcell, hothers⟩ := store_block (u := out) (v := gap ++ c :: (rest ++ [0]))
      h.start (by simpa using h.cell) c
    refine ⟨M', gap ++ [c], hstore, by simp, ⟨h.start, by simpa using hcell, ?_, ?_⟩, ?_⟩
    · rw [List.length_cons] at hlength
      simp only [List.length_append, List.length_singleton]
      omega
    · intro b hb
      rw [hothers b hb, h.others b hb]
    · rw [load_block h.start hcell (by simp)]
      rw [List.getElem?_append_right (by omega), Nat.add_sub_cancel_left, List.length_cons,
        List.getElem?_cons_succ, List.getElem?_append_right le_rfl, Nat.sub_self]
      rfl

theorem Rewrites.reads (h : Rewrites M₀ p a M out gap rest) :
    Reads M (p.add (out.length + gap.length)) rest := by
  intro n hn
  rw [add_add, load_block h.start h.cell
    (by simp only [List.length_append, List.length_singleton]; omega)]
  rw [← List.length_append, List.getElem?_append_right (Nat.le_add_right _ _),
    Nat.add_sub_cancel_left]

/-- The last byte of the output is written once more. -/
theorem Rewrites.again (h : Rewrites M₀ p a M (out ++ [c]) gap rest) :
    ∃ M', store M (p.add out.length) [some c] = some M' ∧
      Rewrites M₀ p a M' (out ++ [c]) gap rest := by
  obtain ⟨M', hstore, hcell, hothers⟩ := store_block (u := out) (v := gap ++ (rest ++ [0])) h.start
    (by simpa using h.cell) c
  refine ⟨M', hstore, h.start, by simpa using hcell, h.length, ?_⟩
  intro b hb
  rw [hothers b hb, h.others b hb]

/-- A loop goes on behind the output, with the rest. -/
def GoesOn (M₀ : Memory) (p : Pointer) (a : Surroundings) (r : Option Minifying)
    (out rest : List UInt8) : Prop :=
  ∃ M gap, r = some (M, p.add (out.length + gap.length), p.add out.length) ∧
    Rewrites M₀ p a M out gap rest

/-- The pointers behind a byte that goes from the input to the output. -/
theorem moved_output (p : Pointer) (out : List UInt8) (c : UInt8) :
    p.add (out ++ [c]).length = (p.add out.length).add 1 := by
  rw [add_add, List.length_append, List.length_singleton]

theorem moved_input (p : Pointer) (out : List UInt8) (c : UInt8) {gap gap' : List UInt8}
    (hgap : gap'.length = gap.length) :
    p.add ((out ++ [c]).length + gap'.length) = (p.add (out.length + gap.length)).add 1 := by
  rw [add_add, List.length_append, List.length_singleton, hgap, Nat.add_right_comm]

theorem minifyStringLoop_eq (h : Rewrites M₀ p a M out gap rest) (hnul : 0 ∉ rest)
    (hturns : rest.length < turns) :
    GoesOn M₀ p a (minifyStringLoop turns M (p.add (out.length + gap.length)) (p.add out.length))
      (out ++ (splitString rest).1) (splitString rest).2 := by
  induction turns generalizing M out gap rest with
  | zero => cases hturns
  | succ turns ih =>
    rw [minifyStringLoop]
    cases rest with
    | nil =>
      refine ⟨M, gap, ?_, by simpa [splitString] using h⟩
      simp [h.reads.nul, splitString]
    | cons c rest =>
      obtain ⟨hc, hrest⟩ := not_or.mp (mt List.mem_cons.mpr hnul)
      obtain ⟨M₁, gap₁, hstore, hgap, h₁, hinput⟩ := h.write
      have hreads := h₁.reads
      rw [moved_input p out c hgap] at hreads
      simp only [h.reads.head, Option.bind_eq_bind, Option.bind_some, if_neg (Ne.symm hc), hstore,
        hinput]
      by_cases hquote : c = quote
      · subst c
        obtain ⟨M₂, hagain, h₂⟩ := h₁.again
        rw [splitString_quote]
        refine ⟨M₂, gap₁, ?_, h₂⟩
        rw [if_pos rfl, hagain, moved_input p out quote hgap, moved_output]
        rfl
      rw [if_neg hquote]
      by_cases hescape : c = backslash ∧ rest.head? = some quote
      · obtain ⟨rest, rfl⟩ : ∃ r, rest = quote :: r := by
          cases rest with
          | nil => cases hescape.2
          | cons d rest => exact ⟨rest, by rw [Option.some.inj hescape.2]⟩
        obtain ⟨rfl, -⟩ := hescape
        obtain ⟨M₂, gap₂, hstore₂, hgap₂, h₂, -⟩ := h₁.write
        have hloop := ih h₂ (fun hmem => hrest (List.mem_cons_of_mem _ hmem))
          (by simp only [List.length_cons] at hturns; omega)
        rw [moved_output] at hstore₂
        rw [moved_input p _ quote hgap₂, moved_input p out backslash hgap, moved_output,
          moved_output, List.append_assoc, List.append_assoc, add_add, add_add] at hloop
        rw [if_pos rfl, hreads.head, Option.bind_some, if_pos rfl, Option.bind_some, hstore₂,
          Option.bind_some, splitString_escape]
        exact hloop
      · have hloop := ih h₁ hrest (Nat.lt_of_succ_lt_succ hturns)
        rw [moved_input p out c hgap, moved_output, List.append_assoc] at hloop
        rw [splitString_other hquote hescape]
        obtain ⟨d, hload, hd⟩ := hreads.eq_iff (d := quote) (by decide)
        split
        · rename_i hbackslash
          rw [hload, Option.bind_some, if_neg fun heq => hescape ⟨hbackslash, hd.mp heq⟩]
          exact hloop
        · exact hloop

theorem minifyString_eq (h : Rewrites M₀ p a M out gap (quote :: rest)) (hnul : 0 ∉ rest)
    (hturns : rest.length < turns) :
    GoesOn M₀ p a (minifyString turns M (p.add (out.length + gap.length)) (p.add out.length))
      (out ++ quote :: (splitString rest).1) (splitString rest).2 := by
  obtain ⟨M₁, gap₁, hstore, hgap, h₁, -⟩ := h.write
  have hloop := minifyStringLoop_eq h₁ hnul hturns
  rw [moved_input p out quote hgap, moved_output, List.append_assoc] at hloop
  rw [minifyString, h.reads.head, Option.bind_eq_bind, Option.bind_some, hstore]
  exact hloop

/-- The output is at its end, with a NUL, in the bytes that the text had. -/
structure Finished (M₀ : Memory) (p : Pointer) (a : Surroundings) (M : Memory)
    (out tail : List UInt8) : Prop where
  cell : M.cell p.block = some (a.block (out ++ 0 :: tail))
  length : out.length + tail.length = a.length
  others : ∀ b, b ≠ p.block → M.cell b = M₀.cell b

theorem Rewrites.terminate (h : Rewrites M₀ p a M out gap []) :
    ∃ M' tail, store M (p.add out.length) [some 0] = some M' ∧ Finished M₀ p a M' out tail := by
  have hlength := h.length
  cases gap with
  | nil =>
    obtain ⟨M', hstore, hcell, hothers⟩ := store_block (u := out) (v := []) h.start
      (by simpa using h.cell) 0
    exact ⟨M', [], hstore, hcell, hlength, fun b hb => (hothers b hb).trans (h.others b hb)⟩
  | cons g gap =>
    obtain ⟨M', hstore, hcell, hothers⟩ := store_block (u := out) (v := gap ++ [0]) h.start
      (by simpa using h.cell) 0
    refine ⟨M', gap ++ [0], hstore, hcell, ?_, fun b hb => (hothers b hb).trans (h.others b hb)⟩
    rw [List.length_append, List.length_singleton]
    exact hlength

/-- What the loop does from some point on. -/
def Finishes (M₀ : Memory) (p : Pointer) (a : Surroundings) (r : Option Memory)
    (out : List UInt8) : Prop :=
  ∃ M tail, r = some M ∧ Finished M₀ p a M out tail

theorem minifyLoop_finishes (h : Rewrites M₀ p a M out gap rest) (hnul : 0 ∉ rest)
    (hturns : rest.length < turns) :
    Finishes M₀ p a (minifyLoop turns M (p.add (out.length + gap.length)) (p.add out.length))
      (out ++ minified rest) := by
  induction turns generalizing M out gap rest with
  | zero => cases hturns
  | succ turns ih =>
    rw [minifyLoop]
    cases rest with
    | nil =>
      obtain ⟨M', tail, hstore, hfinished⟩ := h.terminate
      refine ⟨M', tail, ?_, by simpa [minified] using hfinished⟩
      simp only [h.reads.nul, Option.bind_eq_bind, Option.bind_some, if_true, hstore]
    | cons c rest =>
      obtain ⟨hc, hrest⟩ := not_or.mp (mt List.mem_cons.mpr hnul)
      have hless : rest.length < turns := Nat.lt_of_succ_lt_succ hturns
      -- what is passed over becomes a part of the gap
      have hskip : ∀ {u v : List UInt8}, u ++ v = rest →
          Finishes M₀ p a (minifyLoop turns M ((p.add (out.length + gap.length)).add (u.length + 1))
            (p.add out.length)) (out ++ minified v) := by
        intro u v huv
        subst huv
        have h₁ : Rewrites M₀ p a M out (gap ++ (c :: u)) v := h.skip
        have hloop := ih h₁ (fun hmem => hrest (List.mem_append_right _ hmem))
          (by rw [List.length_append] at hless; omega)
        rwa [List.length_append, List.length_cons, ← Nat.add_assoc, ← add_add] at hloop
      simp only [h.reads.head, Option.bind_eq_bind, Option.bind_some, if_neg (Ne.symm hc)]
      rw [minified]
      by_cases hblank : c = 32 ∨ c = 9 ∨ c = 13 ∨ c = 10
      · rw [if_pos hblank, if_pos hblank]
        exact hskip (u := []) rfl
      rw [if_neg hblank, if_neg hblank]
      by_cases hslash : c = 47
      · rw [if_pos hslash, if_pos hslash]
        have hnext := h.reads.tail
        cases rest with
        | nil =>
          simp only [hnext.nul, Option.bind_some, behindSlash]
          exact hskip (u := []) rfl
        | cons d more =>
          have hmore := hnext.tail
          rw [add_add] at hmore
          have hpointer : ∀ u : List UInt8, ((p.add (out.length + gap.length)).add 2).add u.length =
              (p.add (out.length + gap.length)).add ((d :: u).length + 1) := by
            intro u
            rw [add_add, List.length_cons, Nat.add_comm 2]
          have hnul' : 0 ∉ more := fun hmem => hrest (List.mem_cons_of_mem _ hmem)
          have hless' : more.length < turns := Nat.lt_of_succ_lt hless
          rw [hnext.head, Option.bind_some, behindSlash]
          by_cases hline : d = 47
          · obtain ⟨u, hu, hloop⟩ := onelineCommentLoop_eq hmore hnul' hless'
            have hbehind := hskip (u := d :: u) (v := behindLine more)
              (by rw [List.cons_append, hu])
            rw [if_pos hline, if_pos hline, skipOnelineComment, hloop, Option.bind_some, hpointer]
            exact hbehind
          rw [if_neg hline, if_neg hline]
          by_cases hstar : d = 42
          · obtain ⟨u, hu, hloop⟩ := multilineCommentLoop_eq hmore hnul' hless'
            have hbehind := hskip (u := d :: u) (v := behindComment more)
              (by rw [List.cons_append, hu])
            rw [if_pos hstar, if_pos hstar, skipMultilineComment, hloop, Option.bind_some,
              hpointer]
            exact hbehind
          · rw [if_neg hstar, if_neg hstar]
            exact hskip (u := []) rfl
      rw [if_neg hslash, if_neg hslash]
      by_cases hquote : c = quote
      · subst c
        obtain ⟨M₁, gap₁, hstring, h₁⟩ := minifyString_eq h hrest hless
        have hsuffix := splitString_suffix rest
        have hloop := ih h₁ (fun hmem => hrest (hsuffix.subset hmem))
          (Nat.lt_of_le_of_lt hsuffix.length_le hless)
        rw [List.append_assoc] at hloop
        rw [if_pos rfl, if_pos rfl, hstring]
        exact hloop
      · obtain ⟨M₁, gap₁, hstore, hgap, h₁, -⟩ := h.write
        have hloop := ih h₁ hrest hless
        rw [moved_input p out c hgap, moved_output, List.append_assoc] at hloop
        rw [if_neg hquote, if_neg hquote, hstore]
        exact hloop

theorem minify_text (M : Memory) (p : Pointer) {t : List UInt8} (ht : text M p = some t)
    (hturns : t.length < turns) :
    ∃ M', minify turns M (some p) = some M' ∧ text M' p = some (minified t) ∧
      WithinBuffer M M' p (t.length + 1) := by
  obtain ⟨hnul, static, before, behind, hoffset, hcell⟩ := text_eq ht
  have hstart : Rewrites M p ⟨static, t.length, before, behind⟩ M [] [] t :=
    ⟨hoffset, hcell, by simp, fun _ _ => rfl⟩
  obtain ⟨M', tail, hloop, hfinished⟩ := minifyLoop_finishes hstart hnul hturns
  have hcell' : M'.cell p.block = some ⟨static, before ++
      (minified t ++ 0 :: tail).map some ++ behind⟩ := hfinished.cell
  have hlength := hfinished.length
  simp only [List.nil_append] at hlength
  refine ⟨M', hloop, ?_, ⟨_, _, hcell, hcell', ?_, ?_, ?_⟩, hfinished.others⟩
  · have hminified : 0 ∉ minified t := fun hmem => hnul ((minified_sublist t).subset hmem)
    have hread := chars_text hminified (tail.map some ++ behind)
    rw [text, hcell', Option.bind_eq_bind, Option.bind_some, List.append_assoc,
      List.drop_left' hoffset]
    simpa using hread
  · simp only [List.length_append, List.length_map, List.length_cons, List.length_nil]
    omega
  · rw [List.append_assoc, List.append_assoc, List.take_left' hoffset, List.take_left' hoffset]
  · rw [List.drop_left', List.drop_left']
    · simp only [List.length_append, List.length_map, List.length_singleton]
      omega
    · simp only [List.length_append, List.length_map, List.length_cons]
      omega

/-- `cJSON_Minify` rewrites every string in place: it ends, it changes nothing but the bytes of
the string, and it leaves the minified text. A second call finds nothing to drop. -/
theorem minify_twice (M : Memory) (p : Pointer) {t : List UInt8} (ht : text M p = some t)
    (hturns : t.length < turns) :
    ∃ M₁ M₂, minify turns M (some p) = some M₁ ∧ text M₁ p = some (minified t) ∧
      WithinBuffer M M₁ p (t.length + 1) ∧ minify turns M₁ (some p) = some M₂ ∧
      text M₂ p = text M₁ p := by
  obtain ⟨M₁, hfirst, htext, hwithin⟩ := minify_text M p ht hturns
  have hless : (minified t).length < turns :=
    Nat.lt_of_le_of_lt (minified_sublist t).length_le hturns
  obtain ⟨M₂, hsecond, htext', -⟩ := minify_text M₁ p htext hless
  refine ⟨M₁, M₂, hfirst, htext, hwithin, hsecond, ?_⟩
  rw [htext', htext, minified_minified]

/-- A comment, and a string that is not closed, in the middle of a block. -/
theorem minify_twice_open :
    ∃ M₁ M₂, minify 8 (Heap.empty.alloc ⟨true, [none] ++ [47, 47, 32, 10, 34, 32, 92, 0].map some⟩)
        (some ⟨0, 1⟩) = some M₁ ∧ text M₁ ⟨0, 1⟩ = some [34, 32, 92] ∧
      WithinBuffer (Heap.empty.alloc ⟨true, [none] ++ [47, 47, 32, 10, 34, 32, 92, 0].map some⟩) M₁
        ⟨0, 1⟩ 8 ∧
      minify 8 M₁ (some ⟨0, 1⟩) = some M₂ ∧ text M₂ ⟨0, 1⟩ = text M₁ ⟨0, 1⟩ := by
  have hminified : minified [47, 47, 32, 10, 34, 32, 92] = [34, 32, 92] := by decide +kernel
  rw [← hminified]
  exact minify_twice _ _ (by decide) (by decide)

end Rewriting

end BoxUtils.CJson
