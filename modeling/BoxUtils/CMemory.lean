import BoxUtils.Heap

/-!
The memory of a C program: blocks of bytes, some of which have not been written yet, and
pointers into them. Blocks that the allocator did not hand out cannot be given back to it.
An operation has no result where C defines none: at a block that is no longer there,
beyond the end of a block, or at a byte without a value.
-/
namespace BoxUtils.CMemory

structure Block where
  /-- The block was not handed out by the allocator. -/
  static : Bool
  bytes : List (Option UInt8)
deriving DecidableEq

structure Pointer where
  block : ℕ
  offset : ℕ
deriving DecidableEq

abbrev Memory := Heap Block

def Pointer.add (p : Pointer) (n : ℕ) : Pointer := { p with offset := p.offset + n }

section Operations

def malloc (M : Memory) (size : ℕ) : Memory × Pointer :=
  (M.alloc ⟨false, List.replicate size none⟩, ⟨M.fresh, 0⟩)

def free (M : Memory) (p : Pointer) : Option Memory := do
  let b ← M.cell p.block
  if b.static ∨ p.offset ≠ 0 then none else M.free p.block

/-- The bytes up to the first NUL. -/
def chars : List (Option UInt8) → Option (List UInt8)
  | [] => none
  | none :: _ => none
  | some c :: rest => if c = 0 then some [] else (chars rest).map (c :: ·)

/-- The C string at a pointer. -/
def text (M : Memory) (p : Pointer) : Option (List UInt8) := do
  let b ← M.cell p.block
  chars (b.bytes.drop p.offset)

/-- The byte at a pointer. -/
def load (M : Memory) (p : Pointer) : Option UInt8 := do
  let b ← M.cell p.block
  (b.bytes[p.offset]?).join

def strlen (M : Memory) (p : Pointer) : Option ℕ := (text M p).map List.length

def store (M : Memory) (p : Pointer) (bytes : List (Option UInt8)) : Option Memory := do
  let b ← M.cell p.block
  if b.bytes.length < p.offset + bytes.length then none
  else some (M.put p.block { b with
    bytes := b.bytes.take p.offset ++ bytes ++ b.bytes.drop (p.offset + bytes.length) })

/-- The two areas must not overlap. -/
def memcpy (M : Memory) (dst src : Pointer) (n : ℕ) : Option Memory := do
  let b ← M.cell src.block
  let bytes := (b.bytes.drop src.offset).take n
  if bytes.length < n then none
  else if src.block = dst.block ∧ src.offset < dst.offset + n ∧ dst.offset < src.offset + n then
    none
  else store M dst bytes

def strcpy (M : Memory) (dst src : Pointer) : Option Memory := do
  let length ← strlen M src
  memcpy M dst src (length + 1)

end Operations

variable {M M' : Memory} {p src : Pointer} {t : List UInt8} {b : ℕ}

@[simp] theorem add_zero (p : Pointer) : p.add 0 = p := rfl

@[simp] theorem add_add (p : Pointer) (m n : ℕ) : (p.add m).add n = p.add (m + n) := by
  simp [Pointer.add, Nat.add_assoc]

theorem free_eq {blk : Block} (h : M.cell p.block = some blk) (hheap : blk.static = false)
    (hoffset : p.offset = 0) : free M p = some (M.erase p.block) := by
  simp [free, h, hheap, hoffset, Heap.free_eq h]

theorem free_cases (h : free M p = some M') :
    ∃ blk, M.cell p.block = some blk ∧ blk.static = false ∧ M' = M.erase p.block := by
  obtain ⟨blk, hblk, h⟩ := Option.bind_eq_some_iff.mp h
  split at h
  · cases h
  · rename_i hheap
    rw [Heap.free_eq hblk] at h
    exact ⟨blk, hblk, by simp_all, (Option.some.inj h).symm⟩

section Texts

theorem chars_append {l : List (Option UInt8)} (h : chars l = some t) (r : List (Option UInt8)) :
    chars (l ++ r) = some t := by
  induction l generalizing t with
  | nil => cases h
  | cons c l ih =>
    cases c with
    | none => cases h
    | some c =>
      rw [List.cons_append, chars]
      rw [chars] at h
      split
      · rename_i hc
        rwa [if_pos hc] at h
      · rename_i hc
        rw [if_neg hc] at h
        obtain ⟨u, hu, rfl⟩ := Option.map_eq_some_iff.mp h
        rw [ih hu]
        rfl

/-- A text and its NUL are all that is read of it. -/
theorem chars_take {l : List (Option UInt8)} (h : chars l = some t) :
    t.length < l.length ∧ chars (l.take (t.length + 1)) = some t := by
  induction l generalizing t with
  | nil => cases h
  | cons c l ih =>
    cases c with
    | none => cases h
    | some c =>
      rw [chars] at h
      split at h
      · rename_i hc
        obtain rfl := Option.some.inj h
        simp [chars, hc]
      · rename_i hc
        obtain ⟨u, hu, rfl⟩ := Option.map_eq_some_iff.mp h
        obtain ⟨hlength, htake⟩ := ih hu
        refine ⟨by simpa using hlength, ?_⟩
        rw [List.length_cons, List.take_succ_cons, chars, if_neg hc, htake]
        rfl

/-- Bytes that are followed by a NUL hold the text up to the first one. -/
theorem chars_terminated (bytes : List UInt8) :
    chars ((bytes ++ [0]).map some) = some (bytes.takeWhile (· ≠ 0)) := by
  induction bytes with
  | nil => rfl
  | cons c bytes ih =>
    rw [List.cons_append, List.map_cons, chars]
    by_cases hc : c = 0
    · simp [hc]
    · rw [if_neg hc, ih]
      simp [hc]

/-- A text that is followed by its NUL, whatever comes behind. -/
theorem chars_text (ht : 0 ∉ t) (rest : List (Option UInt8)) :
    chars ((t ++ [0]).map some ++ rest) = some t := by
  induction t with
  | nil => rfl
  | cons c t ih =>
    rw [List.mem_cons, not_or] at ht
    obtain ⟨hc, ht⟩ := ht
    rw [List.cons_append, List.map_cons, List.cons_append, chars, if_neg (Ne.symm hc), ih ht]
    rfl

/-- A text is free of NULs, and has one behind it. -/
theorem chars_eq {l : List (Option UInt8)} (h : chars l = some t) :
    0 ∉ t ∧ ∃ rest, l = (t ++ [0]).map some ++ rest := by
  induction l generalizing t with
  | nil => cases h
  | cons c l ih =>
    cases c with
    | none => cases h
    | some c =>
      rw [chars] at h
      split at h
      · rename_i hc
        obtain rfl := Option.some.inj h
        exact ⟨List.not_mem_nil, l, by rw [hc]; rfl⟩
      · rename_i hc
        obtain ⟨u, hu, rfl⟩ := Option.map_eq_some_iff.mp h
        obtain ⟨hnul, rest, rfl⟩ := ih hu
        exact ⟨by simp [hnul, Ne.symm hc], rest, rfl⟩

/-- Where a text lies in its block. -/
theorem text_eq (h : text M p = some t) :
    0 ∉ t ∧ ∃ static before behind, before.length = p.offset ∧
      M.cell p.block = some ⟨static, before ++ (t ++ [0]).map some ++ behind⟩ := by
  obtain ⟨⟨static, bytes⟩, hcell, hchars⟩ := Option.bind_eq_some_iff.mp h
  obtain ⟨hnul, behind, hbytes⟩ := chars_eq hchars
  dsimp only at hbytes
  refine ⟨hnul, static, bytes.take p.offset, behind, ?_, ?_⟩
  · have hlength := congrArg List.length hbytes
    simp only [List.length_drop, List.length_append, List.length_map, List.length_singleton]
      at hlength
    rw [List.length_take]
    omega
  · rw [hcell, List.append_assoc, ← hbytes, List.take_append_drop]

theorem text_congr (h : M'.cell p.block = M.cell p.block) : text M' p = text M p := by
  rw [text, text, h]

theorem live_of_text (h : text M p = some t) : M.cell p.block ≠ none := by
  obtain ⟨blk, hblk, -⟩ := Option.bind_eq_some_iff.mp h
  rw [hblk]
  exact Option.some_ne_none blk

end Texts

section Copies

/-- One more block, which holds the text. -/
structure Adds (M M' : Memory) (t : List UInt8) : Prop where
  fresh : M'.fresh = M.fresh + 1
  others : ∀ b, b ≠ M.fresh → M'.cell b = M.cell b
  block : ∃ blk, M'.cell M.fresh = some blk ∧ blk.static = false
  text : text M' ⟨M.fresh, 0⟩ = some t

/-- What is stored at the start of a new block. -/
theorem store_adds {size : ℕ} {bytes : List (Option UInt8)} (hsize : bytes.length ≤ size)
    (ht : chars bytes = some t) :
    ∃ M', store (malloc M size).1 ⟨M.fresh, 0⟩ bytes = some M' ∧ Adds M M' t := by
  have hnew : (malloc M size).1.cell M.fresh = some ⟨false, List.replicate size none⟩ :=
    Heap.cell_alloc_self M _
  have hfits : ¬ (List.replicate size (none : Option UInt8)).length < bytes.length := by
    simpa using hsize
  have hstore : store (malloc M size).1 ⟨M.fresh, 0⟩ bytes = some (Heap.put (malloc M size).1
      M.fresh ⟨false, bytes ++ (List.replicate size none).drop bytes.length⟩) := by
    simp only [store, hnew, Option.bind_eq_bind, Option.bind_some, Nat.zero_add, if_neg hfits,
      List.take_zero, List.nil_append]
  refine ⟨_, hstore, ?_⟩
  constructor
  case fresh => rfl
  case others =>
    intro b hb
    rw [Heap.cell_put_of_ne _ _ hb]
    exact Heap.cell_alloc_of_ne M _ hb
  case block => exact ⟨_, Heap.cell_put_self hnew _, rfl⟩
  case text =>
    rw [text, Heap.cell_put_self hnew]
    exact chars_append ht _

/-- A copy of a text in a block that is just large enough. -/
theorem memcpy_adds (h : text M src = some t) :
    ∃ M', memcpy (malloc M (t.length + 1)).1 ⟨M.fresh, 0⟩ src (t.length + 1) = some M' ∧
      Adds M M' t := by
  obtain ⟨blk, hblk, ht⟩ := Option.bind_eq_some_iff.mp h
  have hold : (malloc M (t.length + 1)).1.cell src.block = some blk :=
    Heap.cell_alloc_of_live _ hblk
  obtain ⟨hlength, htake⟩ := chars_take ht
  have hbytes : ((blk.bytes.drop src.offset).take (t.length + 1)).length = t.length + 1 :=
    List.length_take_of_le hlength
  have hapart : src.block ≠ M.fresh := Nat.ne_of_lt (Heap.lt_fresh hblk)
  obtain ⟨M', hstore, hadds⟩ := store_adds (Nat.le_of_eq hbytes) htake
  refine ⟨M', ?_, hadds⟩
  simp only [memcpy, hold, Option.bind_eq_bind, Option.bind_some, hbytes, hapart, false_and,
    Nat.lt_irrefl, if_false]
  exact hstore

theorem strcpy_adds (h : text M src = some t) :
    ∃ M', strcpy (malloc M (t.length + 1)).1 ⟨M.fresh, 0⟩ src = some M' ∧ Adds M M' t := by
  obtain ⟨M', hcopy, hadds⟩ := memcpy_adds h
  refine ⟨M', ?_, hadds⟩
  have hold : text (malloc M (t.length + 1)).1 src = some t := by
    obtain ⟨blk, hblk, -⟩ := Option.bind_eq_some_iff.mp h
    rw [← h]
    exact text_congr (Heap.cell_alloc_of_ne M _ (Nat.ne_of_lt (Heap.lt_fresh hblk)))
  simp only [strcpy, strlen, hold, Option.map_some, Option.bind_eq_bind, Option.bind_some]
  exact hcopy

end Copies

end BoxUtils.CMemory
