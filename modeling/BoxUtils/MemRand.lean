import BoxUtils.Random

/-!
`Box_memrand`. On Linux the bytes come from `getrandom`, which may fail or fill a part of
the block only; elsewhere, and where it fails, they come from the generator. A cell of the
memory keeps who wrote to it last.
-/
namespace BoxUtils.MemRand

open BoxUtils.Random

inductive Writer
  | getrandom
  | fallback
  deriving DecidableEq, Repr

structure Cell where
  value : UInt8
  writer : Option Writer
  deriving DecidableEq, Repr

abbrev Memory := List Cell

/-- What the system does: it fails, or it fills the first bytes. -/
inductive Answer
  | failed
  | filled (bytes : List UInt8)
  deriving DecidableEq, Repr

namespace Answer

def bytes : Answer → List UInt8
  | failed => []
  | filled bytes => bytes

/-- What `getrandom` returns. -/
def returned : Answer → ℤ
  | failed => -1
  | filled bytes => bytes.length

end Answer

def writtenBy (w : Writer) (b : UInt8) : Cell := ⟨b, some w⟩

/-- The memory with these bytes at its beginning. -/
def overwrite (w : Writer) (bytes : List UInt8) (mem : Memory) : Memory :=
  bytes.map (writtenBy w) ++ mem.drop bytes.length

section Source

def getrandom (mem : Memory) (answer : Answer) : ℤ × Memory :=
  (answer.returned, overwrite .getrandom answer.bytes mem)

/-- The loop that fills the memory from the index i on. -/
def fillLoop : ℕ → ℕ → UInt32 → Memory → Memory
  | 0, _, _, mem => mem
  | left + 1, i, seed, mem =>
    let seed := seed * 1103515245 + 12345
    fillLoop left (i + 1) seed
      (mem.set i (writtenBy .fallback (seed / 65536 % 32768).toUInt8))

/-- `Box_memrand(mem, n)`, which is compiled with or without `getrandom`. -/
def boxMemrand (linux : Bool) (answer : Answer) (seed : UInt32) (n : ℕ) (mem : Memory) : Memory :=
  if linux then
    let (returned, mem) := getrandom mem answer
    if returned > 0 then mem else fillLoop n 0 seed mem
  else fillLoop n 0 seed mem

end Source

/-- Each of the first n bytes has been written. -/
def Written (n : ℕ) (mem : Memory) : Prop := ∀ i < n, ∃ c, mem[i]? = some c ∧ c.writer ≠ none

section Writing

variable {w : Writer} {bytes : List UInt8} {mem : Memory} {n : ℕ}

theorem overwrite_written {i : ℕ} (hi : i < bytes.length) :
    ∃ c, (overwrite w bytes mem)[i]? = some c ∧ c.writer ≠ none := by
  refine ⟨writtenBy w bytes[i], ?_, Option.some_ne_none w⟩
  rw [overwrite, List.getElem?_append_left (by rwa [List.length_map]), List.getElem?_map,
    List.getElem?_eq_getElem hi, Option.map_some]

/-- Behind the bytes the memory is what it was. -/
theorem overwrite_behind {i : ℕ} (hi : bytes.length ≤ i) :
    (overwrite w bytes mem)[i]? = mem[i]? := by
  rw [overwrite, List.getElem?_append_right (by rwa [List.length_map]), List.length_map,
    List.getElem?_drop, Nat.add_sub_cancel' hi]

theorem overwrite_iff (hclear : ∀ c ∈ mem, c.writer = none) (hbytes : bytes.length ≤ n) :
    Written n (overwrite w bytes mem) ↔ bytes.length = n := by
  constructor
  · intro hall
    by_contra hne
    obtain ⟨c, hget, hwriter⟩ := hall bytes.length (by omega)
    rw [overwrite_behind (Nat.le_refl _)] at hget
    exact hwriter (hclear c (List.mem_of_getElem? hget))
  · rintro rfl i hi
    exact overwrite_written hi

theorem length_memrandLoop (n : ℕ) (seed : UInt32) : (memrandLoop n seed).1.length = n := by
  induction n generalizing seed with
  | zero => rfl
  | succ n ih => rw [memrandLoop, List.length_cons, ih]

/-- The loop writes the bytes of the generator one after the other. -/
theorem fillLoop_append (before : Memory) {left : ℕ} (hleft : left ≤ mem.length)
    (seed : UInt32) : fillLoop left before.length seed (before ++ mem) =
      before ++ overwrite .fallback (memrandLoop left seed).1 mem := by
  induction left generalizing before mem seed with
  | zero => rfl
  | succ left ih =>
    cases mem with
    | nil => cases hleft
    | cons c mem =>
      let next := seed * 1103515245 + 12345
      let cell := writtenBy .fallback (next / 65536 % 32768).toUInt8
      have hset : (before ++ c :: mem).set before.length cell = (before ++ [cell]) ++ mem := by
        simp
      have hlength : before.length + 1 = (before ++ [cell]).length := by simp
      rw [fillLoop, hset, hlength, ih _ (Nat.le_of_succ_le_succ hleft), List.append_assoc]
      rfl

theorem fillLoop_eq (hn : n ≤ mem.length) (seed : UInt32) :
    fillLoop n 0 seed mem = overwrite .fallback (memrandLoop n seed).1 mem :=
  fillLoop_append [] hn seed

end Writing

/-- One of the two writers writes, from the beginning of the block. -/
theorem boxMemrand_eq {mem : Memory} {n : ℕ} (hn : n ≤ mem.length) (linux : Bool)
    (answer : Answer) (seed : UInt32) : boxMemrand linux answer seed n mem =
      if linux = true ∧ answer.bytes ≠ [] then overwrite .getrandom answer.bytes mem
      else overwrite .fallback (memrandLoop n seed).1 mem := by
  cases linux with
  | false => exact fillLoop_eq hn seed
  | true =>
    cases answer with
    | failed => exact fillLoop_eq hn seed
    | filled bytes =>
      cases bytes with
      | nil => exact fillLoop_eq hn seed
      | cons b bytes =>
        have hsome : (Answer.filled (b :: bytes)).returned > 0 :=
          Int.natCast_pos.mpr (Nat.succ_pos _)
        rw [if_pos ⟨rfl, List.cons_ne_nil b bytes⟩]
        exact if_pos hsome

/-- The block is filled unless the system has filled a part of it that is neither nothing
nor everything. -/
theorem boxMemrand_written_iff {mem : Memory} {n : ℕ} (linux : Bool) (answer : Answer)
    (seed : UInt32) (hn : n ≤ mem.length) (hclear : ∀ c ∈ mem, c.writer = none)
    (hanswer : answer.bytes.length ≤ n) :
    Written n (boxMemrand linux answer seed n mem) ↔
      linux = false ∨ answer.bytes.length = 0 ∨ answer.bytes.length = n := by
  rw [boxMemrand_eq hn]
  by_cases hsystem : linux = true ∧ answer.bytes ≠ []
  · rw [if_pos hsystem, overwrite_iff hclear hanswer]
    simp [hsystem]
  · have hfilled := length_memrandLoop n seed
    rw [if_neg hsystem, overwrite_iff hclear (Nat.le_of_eq hfilled)]
    refine iff_of_true hfilled ?_
    cases linux with
    | false => exact Or.inl rfl
    | true =>
      have hnone : answer.bytes = [] := by
        by_contra hne
        exact hsystem ⟨rfl, hne⟩
      exact Or.inr (Or.inl (List.length_eq_zero_iff.mpr hnone))

/-- Two bytes, none of them from the system. -/
theorem boxMemrand_written_failed :
    Written 2 (boxMemrand true .failed 1 2 [⟨7, none⟩, ⟨7, none⟩]) :=
  (boxMemrand_written_iff true .failed 1 (by simp) (by simp) (by simp [Answer.bytes])).mpr
    (Or.inr (Or.inl rfl))

/-- A signal after the first page of two. -/
theorem second_page_unwritten : ¬ ∀ (linux : Bool) (answer : Answer) (seed : UInt32) (n : ℕ)
    (mem : Memory), n ≤ mem.length → (∀ c ∈ mem, c.writer = none) → answer.bytes.length ≤ n →
      Written n (boxMemrand linux answer seed n mem) := by
  intro h
  let page : List UInt8 := List.replicate 4096 5
  let mem : Memory := List.replicate 8192 ⟨7, none⟩
  have hpage : page.length = 4096 := List.length_replicate
  have hmem : 8192 ≤ mem.length := Nat.le_of_eq List.length_replicate.symm
  have hclear : ∀ c ∈ mem, c.writer = none := by
    intro c hc
    rw [List.eq_of_mem_replicate hc]
  have hpart : page.length ≤ 8192 := by omega
  have hne : page ≠ [] := List.ne_nil_of_length_pos (by omega)
  have hall := h true (.filled page) 1 8192 mem hmem hclear hpart
  rw [boxMemrand_eq hmem, if_pos ⟨rfl, hne⟩] at hall
  have hwhole : page.length = 8192 := (overwrite_iff hclear hpart).mp hall
  omega

end BoxUtils.MemRand
