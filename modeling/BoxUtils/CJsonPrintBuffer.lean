import BoxUtils.CJsonText

/-!
What the printer leaves in its block. The area is the part of a block that it may write to:
all of a block that it has allocated, or what the caller has lent. Every step appends its
bytes to the text in the area, or fails because the area has no room for them and cannot get
any; the rest of the memory stays as it was, and no block is lost.
-/
namespace BoxUtils.CJson

open CMemory

/-- What does not change while a text is printed: around a lent area lies the rest of its
block, and an own block may grow as far as the limit. -/
structure Area where
  format : Bool
  lent : Option Pointer
  static : Bool
  before : List (Option UInt8)
  behind : List (Option UInt8)
  limit : ℕ
  limit_le : limit ≤ sizeMax
  own : lent = none → static = false ∧ before = [] ∧ behind = [] ∧ limit = sizeMax

def Area.noalloc (a : Area) : Bool := a.lent.isSome

theorem Area.lent_eq_none {a : Area} (h : a.noalloc = false) : a.lent = none := by
  simpa [noalloc] using h

/-- The bytes lie at the start of the area, which has the given length. -/
structure Lies (M₀ : Memory) (a : Area) (length : ℕ) (bytes : List UInt8) (M : Memory)
    (p : Pointer) : Prop where
  start : p.offset = a.before.length
  cell : ∃ junk, M.cell p.block =
      some ⟨a.static, a.before ++ (bytes.map some ++ junk) ++ a.behind⟩ ∧
    bytes.length + junk.length = length
  new : a.noalloc = false → M₀.fresh ≤ p.block
  lent : ∀ r, a.lent = some r → p = r
  others : ∀ b, b ≠ p.block → M.cell b = M₀.cell b

section Blocks

variable {M₀ M : Memory} {a : Area} {length : ℕ} {bytes more : List UInt8} {p : Pointer}

theorem Lies.length_le (h : Lies M₀ a length bytes M p) : bytes.length ≤ length := by
  obtain ⟨junk, -, hlength⟩ := h.cell
  omega

/-- What lies behind a part of the bytes is forgotten. -/
theorem Lies.cut (h : Lies M₀ a length (bytes ++ more) M p) : Lies M₀ a length bytes M p := by
  obtain ⟨junk, hcell, hlength⟩ := h.cell
  refine ⟨h.start, ⟨more.map some ++ junk, ?_, ?_⟩, h.new, h.lent, h.others⟩
  · rw [hcell, List.map_append, List.append_assoc (bytes.map some)]
  · rw [List.length_append] at hlength
    rw [List.length_append, List.length_map]
    omega

/-- Bytes that are stored behind the others. -/
theorem Lies.store (h : Lies M₀ a length bytes M p) (more : List UInt8)
    (hroom : bytes.length + more.length ≤ length) :
    ∃ M', CMemory.store M { p with offset := p.offset + bytes.length } (more.map some) = some M' ∧
      Lies M₀ a length (bytes ++ more) M' p := by
  obtain ⟨junk, hcell, hlength⟩ := h.cell
  have hfits : ¬ (a.before ++ (bytes.map some ++ junk) ++ a.behind).length <
      p.offset + bytes.length + (more.map some).length := by
    simp only [List.length_append, List.length_map, h.start]
    omega
  have hbytes : (a.before ++ (bytes.map some ++ junk) ++ a.behind).take (p.offset + bytes.length) ++
        more.map some ++
        (a.before ++ (bytes.map some ++ junk) ++ a.behind).drop
          (p.offset + bytes.length + (more.map some).length) =
      a.before ++ ((bytes ++ more).map some ++ junk.drop more.length) ++ a.behind := by
    have hstart : p.offset + bytes.length = (a.before ++ bytes.map some).length := by
      rw [List.length_append, List.length_map, h.start]
    have hjunk : junk = junk.take more.length ++ junk.drop more.length :=
      (List.take_append_drop _ _).symm
    have hsplit : a.before ++ (bytes.map some ++ junk) ++ a.behind =
        (a.before ++ bytes.map some) ++ (junk ++ a.behind) := by
      simp only [List.append_assoc]
    rw [hsplit, hstart, List.take_left, List.length_map, ← List.drop_drop, List.drop_left,
      List.drop_append_of_le_length (by omega)]
    simp only [List.map_append, List.append_assoc]
  have hstore : CMemory.store M { p with offset := p.offset + bytes.length } (more.map some) =
      some (M.put p.block ⟨a.static,
        a.before ++ ((bytes ++ more).map some ++ junk.drop more.length) ++ a.behind⟩) := by
    simp only [CMemory.store, hcell, Option.bind_eq_bind, Option.bind_some, if_neg hfits, hbytes]
  refine ⟨_, hstore, h.start, ⟨_, Heap.cell_put_self hcell _, ?_⟩, h.new, h.lent,
    fun b hb => (Heap.cell_put_of_ne _ _ hb).trans (h.others b hb)⟩
  rw [List.length_append, List.length_drop]
  omega

/-- A string that lies behind the others. -/
theorem Lies.text (h : Lies M₀ a length (bytes ++ (more ++ [0])) M p) (hmore : 0 ∉ more) :
    CMemory.text M { p with offset := p.offset + bytes.length } = some more := by
  obtain ⟨junk, hcell, -⟩ := h.cell
  have hstart : p.offset + bytes.length = (a.before ++ bytes.map some).length := by
    rw [List.length_append, List.length_map, h.start]
  have hsplit : a.before ++ ((bytes ++ (more ++ [0])).map some ++ junk) ++ a.behind =
      (a.before ++ bytes.map some) ++ ((more ++ [0]).map some ++ (junk ++ a.behind)) := by
    simp only [List.map_append, List.append_assoc]
  simp only [CMemory.text, hcell, Option.bind_eq_bind, Option.bind_some]
  rw [hsplit, hstart, List.drop_left, chars_text hmore]

/-- The bytes of an own block in a new one, with the old one given back. -/
theorem Lies.move (h : Lies M₀ a length bytes M p) (hown : a.noalloc = false) (n size : ℕ)
    (hn : bytes.length ≤ n) (hlength : n ≤ length) (hsize : n ≤ size) :
    ∃ blk M₁ M₂, M.cell p.block = some blk ∧ p.block ≠ M.fresh ∧
      n ≤ blk.bytes.length ∧ p.offset = 0 ∧ blk.bytes.length = length ∧
      CMemory.store (malloc M size).1 ⟨M.fresh, 0⟩ (blk.bytes.take n) = some M₁ ∧
      CMemory.free M₁ p = some M₂ ∧ Lies M₀ a size bytes M₂ ⟨M.fresh, 0⟩ := by
  obtain ⟨junk, hcell, hjunk⟩ := h.cell
  obtain ⟨hstatic, hbefore, hbehind, -⟩ := a.own (Area.lent_eq_none hown)
  have hoffset : p.offset = 0 := by rw [h.start, hbefore, List.length_nil]
  rw [hbefore, hbehind, List.nil_append, List.append_nil, hstatic] at hcell
  have hlt := Heap.lt_fresh hcell
  have hne : p.block ≠ M.fresh := Nat.ne_of_lt hlt
  have hnew : (malloc M size).1.cell M.fresh = some ⟨false, List.replicate size none⟩ :=
    Heap.cell_alloc_self M _
  have htotal : (bytes.map some ++ junk).length = length := by
    rw [List.length_append, List.length_map, hjunk]
  have htake : ((bytes.map some ++ junk).take n).length = n := by
    rw [List.length_take, htotal]
    omega
  have hfits : ¬ (List.replicate size (none : Option UInt8)).length < 0 + n := by
    rw [List.length_replicate]
    omega
  have hhead : (bytes.map some ++ junk).take n =
      bytes.map some ++ junk.take (n - bytes.length) := by
    have hle : (bytes.map some).length ≤ n := by rwa [List.length_map]
    rw [List.take_append, List.take_of_length_le hle, List.length_map]
  have hbytes : [] ++ (bytes.map some ++ junk).take n ++
        (List.replicate size (none : Option UInt8)).drop (0 + n) =
      bytes.map some ++ (junk.take (n - bytes.length) ++ List.replicate (size - n) none) := by
    rw [hhead, List.nil_append, Nat.zero_add, List.drop_replicate, List.append_assoc]
  have hstore : CMemory.store (malloc M size).1 ⟨M.fresh, 0⟩ ((bytes.map some ++ junk).take n) =
      some (Heap.put (malloc M size).1 M.fresh ⟨false, bytes.map some ++
        (junk.take (n - bytes.length) ++ List.replicate (size - n) none)⟩) := by
    simp only [CMemory.store, hnew, Option.bind_eq_bind, Option.bind_some, htake, if_neg hfits,
      List.take_zero, hbytes]
  have hold : (Heap.put (malloc M size).1 M.fresh ⟨false, bytes.map some ++
        (junk.take (n - bytes.length) ++ List.replicate (size - n) none)⟩).cell p.block =
      some ⟨false, bytes.map some ++ junk⟩ := by
    rw [Heap.cell_put_of_ne _ _ hne]
    exact (Heap.cell_alloc_of_ne M _ hne).trans hcell
  refine ⟨_, _, _, hcell, hne, htotal ▸ hlength, hoffset, htotal, hstore,
    free_eq hold rfl hoffset, ?_⟩
  constructor
  case start => rw [hbefore, List.length_nil]
  case cell =>
    refine ⟨junk.take (n - bytes.length) ++ List.replicate (size - n) none, ?_, ?_⟩
    · rw [hstatic, hbefore, hbehind, List.nil_append, List.append_nil,
        Heap.cell_erase_of_ne _ (Ne.symm hne), Heap.cell_put_self hnew]
    · have hcount := congrArg List.length hhead
      rw [htake, List.length_append, List.length_map] at hcount
      rw [List.length_append, List.length_replicate]
      omega
  case new =>
    intro _
    have := h.new hown
    show M₀.fresh ≤ M.fresh
    omega
  case lent =>
    intro r hr
    rw [Area.lent_eq_none hown] at hr
    cases hr
  case others =>
    intro b hb
    have hb : b ≠ M.fresh := hb
    by_cases hbp : b = p.block
    · subst hbp
      rw [Heap.cell_erase_self, M₀.unused _ (h.new hown)]
    · rw [Heap.cell_erase_of_ne _ hbp, Heap.cell_put_of_ne _ _ hb, ← h.others b hbp]
      exact Heap.cell_alloc_of_ne M _ hb

/-- The memory without an own block. -/
theorem Lies.free (h : Lies M₀ a length bytes M p) (hown : a.noalloc = false) :
    ∃ M', CMemory.free M p = some M' ∧ M'.cell = M₀.cell := by
  obtain ⟨junk, hcell, -⟩ := h.cell
  obtain ⟨hstatic, hbefore, -⟩ := a.own (Area.lent_eq_none hown)
  refine ⟨_, free_eq hcell hstatic (by rw [h.start, hbefore, List.length_nil]), ?_⟩
  funext b
  by_cases hb : b = p.block
  · subst hb
    rw [Heap.cell_erase_self, M₀.unused _ (h.new hown)]
  · rw [Heap.cell_erase_of_ne _ hb, h.others b hb]

end Blocks

section Growth

variable {hooks : Hooks} {M₀ M : Memory} {a : Area} {length size offset : ℕ} {bytes : List UInt8}
variable {p : Pointer}

/-- The allocator meets every request. -/
def Hooks.Generous (hooks : Hooks) : Prop := ∀ M size, hooks.grants M size = true

/-- The block is replaced by one of another size, or there is no such block. -/
def Replaced (hooks : Hooks) (M₀ : Memory) (a : Area) (size : ℕ) (bytes : List UInt8)
    (r : Option (Memory × Option Pointer)) : Prop :=
  (∃ M q, r = some (M, some q) ∧ Lies M₀ a size bytes M q) ∨
    ∃ M, r = some (M, none) ∧ M.cell = M₀.cell ∧ ¬ hooks.Generous

theorem allocate_granted (h : hooks.grants M size = true) :
    allocate hooks M size = ((malloc M size).1, some ⟨M.fresh, 0⟩) := by
  simp [allocate, h, malloc]

theorem allocate_refused (h : ¬ hooks.grants M size = true) :
    allocate hooks M size = (M, none) := by
  simp [allocate, h]

/-- A realloc keeps as many bytes as both blocks have. -/
theorem reallocate_granted (h : Lies M₀ a length bytes M p) (hown : a.noalloc = false)
    (hsize : bytes.length ≤ size) (hgrants : hooks.grants M size = true) :
    ∃ M' q, reallocate hooks M p size = some (M', some q) ∧ Lies M₀ a size bytes M' q := by
  have hle := h.length_le
  obtain ⟨blk, M₁, M₂, hblk, hne, -, -, hlength, hstore, hfree, hlies⟩ :=
    h.move hown (min length size) size (by omega) (by omega) (by omega)
  have htake : blk.bytes.take (min length size) = blk.bytes.take size := by
    rw [← hlength, ← List.take_take, List.take_of_length_le (by simp)]
  have hcell : (malloc M size).1.cell p.block = some blk :=
    (Heap.cell_alloc_of_ne M _ hne).trans hblk
  rw [htake] at hstore
  refine ⟨M₂, ⟨M.fresh, 0⟩, ?_, hlies⟩
  simp only [reallocate, allocate_granted hgrants, hcell, hstore, hfree, Option.bind_eq_bind,
    Option.bind_some]

/-- Copying by hand keeps the bytes that are copied. -/
theorem memcpy_granted (h : Lies M₀ a length bytes M p) (hown : a.noalloc = false)
    (n size : ℕ) (hn : bytes.length ≤ n) (hlength : n ≤ length) (hsize : n ≤ size) :
    ∃ M₁ M₂, memcpy (malloc M size).1 ⟨M.fresh, 0⟩ p n = some M₁ ∧ CMemory.free M₁ p = some M₂ ∧
      Lies M₀ a size bytes M₂ ⟨M.fresh, 0⟩ := by
  obtain ⟨blk, M₁, M₂, hblk, hne, hle, hoffset, -, hstore, hfree, hlies⟩ :=
    h.move hown n size hn hlength hsize
  have hcell : (malloc M size).1.cell p.block = some blk :=
    (Heap.cell_alloc_of_ne M _ hne).trans hblk
  refine ⟨M₁, M₂, ?_, hfree, hlies⟩
  have htake : ¬ (blk.bytes.take n).length < n := by
    rw [List.length_take]
    omega
  simp only [memcpy, hcell, Option.bind_eq_bind, Option.bind_some, hoffset, List.drop_zero,
    if_neg htake, hne, false_and, if_false]
  exact hstore

theorem enlarge_replaces (h : Lies M₀ a length bytes M p) (hown : a.noalloc = false) (size : ℕ)
    (hsize : length ≤ size) (hroom : hooks.hasReallocate = true ∨ bytes.length < length) :
    Replaced hooks M₀ a size bytes (enlarge hooks M p bytes.length size) := by
  have hle := h.length_le
  obtain ⟨M', hfree, hcells⟩ := h.free hown
  unfold enlarge
  by_cases hgrants : hooks.grants M size = true
  case pos =>
    left
    split
    case isTrue =>
      obtain ⟨M₁, q, hrealloc, hlies⟩ := reallocate_granted h hown (by omega) hgrants
      exact ⟨M₁, q, by simp only [hrealloc, Option.bind_eq_bind, Option.bind_some], hlies⟩
    case isFalse hmanual =>
      have hlt := hroom.resolve_left hmanual
      obtain ⟨M₁, M₂, hcopy, hfree₂, hlies⟩ :=
        memcpy_granted h hown (bytes.length + 1) size (by omega) (by omega) (by omega)
      refine ⟨M₂, _, ?_, hlies⟩
      simp only [allocate_granted hgrants, hcopy, hfree₂, Option.bind_eq_bind, Option.bind_some]
  case neg =>
    refine Or.inr ⟨M', ?_, hcells, fun hall => hgrants (hall M size)⟩
    split
    · simp only [reallocate, allocate_refused hgrants, hfree, Option.bind_eq_bind, Option.bind_some]
    · simp only [allocate_refused hgrants, hfree, Option.bind_eq_bind, Option.bind_some]

end Growth

section States

/-- The text lies in the area up to the offset, with other bytes behind it. -/
structure Shows (hooks : Hooks) (M₀ : Memory) (a : Area) (depth : ℕ) (text tail : List UInt8)
    (S : Printing) : Prop where
  format : S.2.format = a.format
  noalloc : S.2.noalloc = a.noalloc
  depth : S.2.depth = depth
  offset : S.2.offset = text.length
  place : ∃ p, S.2.buffer = some p ∧ Lies M₀ a S.2.length (text ++ tail) S.1 p
  room : text.length < S.2.length ∨
    S.2.length = 0 ∧ (hooks.hasReallocate = true ∨ a.noalloc = true)
  limit : S.2.length ≤ a.limit
  lent : a.noalloc = true → S.2.length = a.limit

/-- The area is still there, or its block was given back. -/
def Left (hooks : Hooks) (M₀ : Memory) (a : Area) (S : Printing) : Prop :=
  (∃ depth text tail, Shows hooks M₀ a depth text tail S) ∨
    a.noalloc = false ∧ S.2.buffer = none ∧ S.1.cell = M₀.cell

/-- Room is refused only where there cannot be more. -/
def Supplied (hooks : Hooks) (a : Area) : Prop := hooks.Generous ∨ a.noalloc = true

/-- A step appends a text, and leaves a state like this; or it fails, because there is no
such text or no room for it and two bytes more. -/
def Puts (hooks : Hooks) (M₀ : Memory) (a : Area) (text : List UInt8) (w : Option (List UInt8))
    (Q : List UInt8 → Printing → Prop) (r : Option (Printing × Bool)) : Prop :=
  (∃ S v, r = some (S, true) ∧ w = some v ∧ Q v S) ∨
    ∃ S, r = some (S, false) ∧ Left hooks M₀ a S ∧
      (Supplied hooks a → ∀ v, w = some v → a.limit < text.length + v.length + 2)

/-- The value is in the area with a NUL behind it; the offset may be anywhere in it. -/
def Ends (hooks : Hooks) (M₀ : Memory) (a : Area) (depth : ℕ) (text v : List UInt8)
    (S : Printing) : Prop :=
  (∃ v₁ v₂, v = v₁ ++ v₂ ∧ Shows hooks M₀ a depth (text ++ v₁) (v₂ ++ [0]) S) ∧
    text.length + v.length + 2 ≤ S.2.length

variable {hooks : Hooks} {M₀ M : Memory} {a : Area} {depth needed newsize advance : ℕ}
variable {text tail bytes v : List UInt8} {S : Printing}

theorem Shows.cut (h : Shows hooks M₀ a depth text tail S) :
    Shows hooks M₀ a depth text [] S := by
  obtain ⟨p, hp, hlies⟩ := h.place
  exact ⟨h.format, h.noalloc, h.depth, h.offset, ⟨p, hp, by simpa using hlies.cut⟩, h.room,
    h.limit, h.lent⟩

theorem newSize_cases (h : newSize needed = some newsize) :
    needed ≤ newsize ∧ newsize ≤ sizeMax := by
  unfold newSize at h
  split at h
  · split at h
    · obtain rfl := Option.some.inj h
      exact ⟨by assumption, le_rfl⟩
    · cases h
  · obtain rfl := Option.some.inj h
    omega

theorem newSize_none (h : newSize needed = none) : sizeMax < needed := by
  unfold newSize at h
  split at h
  · split at h
    · cases h
    · omega
  · cases h

/-- There is room for the bytes and one more, or there is none to be had. -/
theorem ensure_cases (h : Shows hooks M₀ a depth text tail S) (needed : ℕ) :
    (∃ S' q, ensure hooks S needed = some (S', some { q with offset := q.offset + text.length }) ∧
      S'.2.buffer = some q ∧ Shows hooks M₀ a depth text [] S' ∧
      text.length + needed + 1 ≤ S'.2.length) ∨
    ∃ S', ensure hooks S needed = some (S', none) ∧ Left hooks M₀ a S' ∧
      (Supplied hooks a → a.limit < text.length + needed + 1) := by
  obtain ⟨M, p⟩ := S
  obtain ⟨buffer, hbuffer, hlies⟩ := h.place
  have hbuffer : p.buffer = some buffer := hbuffer
  have hlies : Lies M₀ a p.length text M buffer := hlies.cut
  have hoffset : text.length = p.offset := h.offset.symm
  have hlimit := a.limit_le
  have hleft : Left hooks M₀ a (M, p) := Or.inl ⟨_, _, _, h⟩
  have hvalid : ¬ (0 < p.length ∧ p.length ≤ p.offset) := by
    have := h.room
    dsimp only at this
    omega
  simp only [ensure, hbuffer, if_neg hvalid, hoffset]
  by_cases hmax : sizeMax < needed
  case pos => exact Or.inr ⟨_, if_pos hmax, hleft, fun _ => by omega⟩
  simp only [if_neg hmax]
  by_cases hfits : needed + p.offset + 1 ≤ p.length
  case pos => exact Or.inl ⟨(M, p), buffer, if_pos hfits, hbuffer, h.cut, by dsimp only; omega⟩
  simp only [if_neg hfits]
  by_cases hlent : p.noalloc = true
  case pos =>
    refine Or.inr ⟨_, if_pos hlent, hleft, fun _ => ?_⟩
    have hlength : p.length = a.limit := h.lent (h.noalloc.symm.trans hlent)
    omega
  rw [if_neg hlent]
  have hown : a.noalloc = false := h.noalloc.symm.trans (Bool.eq_false_iff.mpr hlent)
  cases hsize : newSize (needed + p.offset + 1) with
  | none =>
    have hlarge := newSize_none hsize
    exact Or.inr ⟨_, rfl, hleft, fun _ => by omega⟩
  | some newsize =>
    obtain ⟨hneeded, hle⟩ := newSize_cases hsize
    have hroom : hooks.hasReallocate = true ∨ text.length < p.length := by
      rcases h.room with hlt | ⟨-, hreallocate | hlent'⟩
      · exact Or.inr hlt
      · exact Or.inl hreallocate
      · rw [hown] at hlent'
        cases hlent'
    have henlarge := enlarge_replaces hlies hown newsize (by omega) hroom
    rw [hoffset] at henlarge
    rcases henlarge with ⟨M', q, henlarge, hlies'⟩ | ⟨M', henlarge, hcells, hrefused⟩
    · left
      refine ⟨(M', { p with buffer := some q, length := newsize }), q, ?_, rfl, ?_, ?_⟩
      · simp only [henlarge, Option.bind_eq_bind, Option.bind_some]
      · constructor
        case format => exact h.format
        case noalloc => exact h.noalloc
        case depth => exact h.depth
        case offset => exact h.offset
        case place => exact ⟨q, rfl, by simpa using hlies'⟩
        case room => exact Or.inl (by dsimp only; omega)
        case limit => exact (a.own (Area.lent_eq_none hown)).2.2.2 ▸ hle
        case lent =>
          intro hno
          rw [hown] at hno
          cases hno
      · dsimp only
        omega
    · right
      refine ⟨(M', { p with buffer := none, length := 0 }), ?_, Or.inr ⟨hown, rfl, hcells⟩,
        fun hall => ?_⟩
      · simp only [henlarge, Option.bind_eq_bind, Option.bind_some]
      · rcases hall with hall | hno
        · exact absurd hall hrefused
        · rw [hown] at hno
          cases hno

/-- Bytes that are written behind the text, with the offset moved over the first of them. -/
theorem emit_puts (h : Shows hooks M₀ a depth text tail S) (hbytes : bytes.length ≤ needed)
    (hadvance : advance ≤ bytes.length) (hv : needed ≤ v.length + 1) :
    Puts hooks M₀ a text (some v)
      (fun _ S' => Shows hooks M₀ a depth (text ++ bytes.take advance) (bytes.drop advance) S' ∧
        text.length + needed + 1 ≤ S'.2.length)
      (emit hooks S needed bytes advance) := by
  rcases ensure_cases h needed with ⟨⟨M', p⟩, q, hensure, hq, hshows, hroom⟩ |
    ⟨S', hensure, hleft, hno⟩
  · left
    obtain ⟨q', hq', hlies⟩ := hshows.place
    obtain rfl := Option.some.inj (hq.symm.trans hq')
    rw [List.append_nil] at hlies
    dsimp only at hroom hlies
    obtain ⟨M₁, hstore, hlies₁⟩ := hlies.store bytes (by omega)
    refine ⟨(M₁, { p with offset := p.offset + advance }), v, ?_, rfl, ?_, hroom⟩
    · simp only [emit, hensure, Option.bind_eq_bind, Option.bind_some, hstore]
    · constructor
      case format => exact hshows.format
      case noalloc => exact hshows.noalloc
      case depth => exact hshows.depth
      case offset =>
        have := hshows.offset
        rw [List.length_append, List.length_take, Nat.min_eq_left hadvance]
        dsimp only at this ⊢
        omega
      case place =>
        refine ⟨q, hq, ?_⟩
        rwa [List.append_assoc, List.take_append_drop]
      case room =>
        left
        rw [List.length_append, List.length_take]
        dsimp only
        omega
      case limit => exact hshows.limit
      case lent => exact hshows.lent
  · right
    refine ⟨S', ?_, hleft, ?_⟩
    · simp only [emit, hensure, Option.bind_eq_bind, Option.bind_some]
    · rintro hall _ ⟨⟩
      have := hno hall
      omega

theorem puts_proceed {x y : Option (List UInt8)} {Q R : List UInt8 → Printing → Prop}
    {r : Option (Printing × Bool)} {next : Printing → Option (Printing × Bool)}
    (h : Puts hooks M₀ a text x Q r)
    (hnext : ∀ v S, x = some v → Q v S →
      Puts hooks M₀ a (text ++ v) y (fun u S => R (v ++ u) S) (next S)) :
    Puts hooks M₀ a text (joined x y) R (proceed r next) := by
  rcases h with ⟨S, v, rfl, rfl, hQ⟩ | ⟨S, rfl, hleft, hno⟩
  · rcases hnext v S rfl hQ with ⟨S', u, hr, rfl, hR⟩ | ⟨S', hr, hleft, hno⟩
    · exact Or.inl ⟨S', v ++ u, hr, rfl, hR⟩
    · refine Or.inr ⟨S', hr, hleft, fun hall w hw => ?_⟩
      obtain ⟨v', u, hv', rfl, rfl⟩ := joined_eq_some hw
      obtain rfl := Option.some.inj hv'
      have := hno hall u rfl
      simp only [List.length_append] at this ⊢
      omega
  · refine Or.inr ⟨S, rfl, hleft, fun hall w hw => ?_⟩
    obtain ⟨v, u, rfl, rfl, rfl⟩ := joined_eq_some hw
    have := hno hall v rfl
    rw [List.length_append]
    omega

theorem Puts.imp {x : Option (List UInt8)} {Q R : List UInt8 → Printing → Prop}
    {r : Option (Printing × Bool)} (h : Puts hooks M₀ a text x Q r)
    (himp : ∀ v S, x = some v → Q v S → R v S) : Puts hooks M₀ a text x R r := by
  rcases h with ⟨S, v, hr, hx, hQ⟩ | hfail
  · exact Or.inl ⟨S, v, hr, hx, himp v S hx hQ⟩
  · exact Or.inr hfail

/-- A value that is written with its NUL. -/
theorem emit_ends (h : Shows hooks M₀ a depth text tail S) (hadvance : advance ≤ v.length) :
    Puts hooks M₀ a text (some v) (Ends hooks M₀ a depth text)
      (emit hooks S (v.length + 1) (v ++ [0]) advance) := by
  refine (emit_puts (v := v) h (by simp) (by simp; omega) le_rfl).imp ?_
  rintro _ S' ⟨⟩ ⟨hshows, hroom⟩
  rw [List.take_append_of_le_length hadvance, List.drop_append_of_le_length hadvance] at hshows
  exact ⟨⟨v.take advance, v.drop advance, (List.take_append_drop _ _).symm, hshows⟩, by omega⟩

/-- The offset moves behind the value. -/
theorem updateOffset_shows (h : Ends hooks M₀ a depth text v S) (hv : 0 ∉ v) :
    ∃ S', updateOffset S = some S' ∧ Shows hooks M₀ a depth (text ++ v) [0] S' ∧
      S'.2.length = S.2.length ∧ S'.1 = S.1 := by
  obtain ⟨M, p⟩ := S
  obtain ⟨⟨v₁, v₂, rfl, hshows⟩, hroom⟩ := h
  obtain ⟨q, hq, hlies⟩ := hshows.place
  dsimp only at hq hlies
  have hread := hlies.text fun hmem => hv (List.mem_append_right v₁ hmem)
  have hoffset : p.offset = (text ++ v₁).length := hshows.offset
  rw [← hoffset] at hread
  refine ⟨(M, { p with offset := p.offset + v₂.length }), ?_, ?_, rfl, rfl⟩
  · simp only [updateOffset, hq, strlen, hread, Option.map_some, Option.bind_eq_bind,
      Option.bind_some]
  · constructor
    case format => exact hshows.format
    case noalloc => exact hshows.noalloc
    case depth => exact hshows.depth
    case offset =>
      show p.offset + v₂.length = _
      rw [hoffset, ← List.length_append, List.append_assoc]
    case place =>
      refine ⟨q, hq, ?_⟩
      rwa [List.append_assoc, List.append_assoc, ← List.append_assoc text]
    case room =>
      left
      rw [List.length_append]
      dsimp only at hroom ⊢
      omega
    case limit => exact hshows.limit
    case lent => exact hshows.lent

/-- The bytes of a string go to where its length says, and the closing quote behind them. -/
theorem printStringPtr_puts (h : Shows hooks M₀ a depth text tail S) (string : Option Text) :
    Puts hooks M₀ a text (some (stringText string)) (Ends hooks M₀ a depth text)
      (printStringPtr hooks string S) := by
  cases string with
  | none => exact emit_ends (v := [quote, quote]) h (Nat.zero_le _)
  | some s =>
    have hcharacters : (if (s.1.map escapeCharacters).sum = 0 then s.1 else s.1.flatMap escape) =
        s.1.flatMap escape := by
      split
      · exact (escaped_eq_self (by assumption)).symm
      · rfl
    have hlength : s.1.length + (s.1.map escapeCharacters).sum = (s.1.flatMap escape).length :=
      (length_escaped s.1).symm
    have htext : (stringText (some s)).length = (s.1.flatMap escape).length + 2 := by
      simp [stringText]
    simp only [printStringPtr, hcharacters, hlength]
    rcases ensure_cases h ((s.1.flatMap escape).length + 3) with
      ⟨⟨M', p⟩, q, hensure, hq, hshows, hroom⟩ | ⟨S', hensure, hleft, hno⟩
    · left
      obtain ⟨q', hq', hlies⟩ := hshows.place
      obtain rfl := Option.some.inj (hq.symm.trans hq')
      rw [List.append_nil] at hlies
      dsimp only at hroom hlies
      obtain ⟨M₁, hstore₁, hlies₁⟩ := hlies.store (quote :: s.1.flatMap escape)
        (by rw [List.length_cons]; omega)
      obtain ⟨M₂, hstore₂, hlies₂⟩ := hlies₁.store [quote, 0]
        (by simp only [List.length_append, List.length_cons, List.length_nil]; omega)
      rw [List.length_append, List.length_cons, ← Nat.add_assoc q.offset,
        ← Nat.add_assoc] at hstore₂
      refine ⟨(M₂, p), _, ?_, rfl, ⟨[], stringText (some s), rfl, ?_⟩, ?_⟩
      · simp only [hensure, Option.bind_eq_bind, Option.bind_some, hstore₁]
        simp only [List.map_cons, List.map_nil] at hstore₂
        simp only [hstore₂, Option.bind_some]
      · rw [List.append_nil]
        refine ⟨hshows.format, hshows.noalloc, hshows.depth, hshows.offset, ⟨q, hq, ?_⟩,
          hshows.room, hshows.limit, hshows.lent⟩
        have hbytes : text ++ (stringText (some s) ++ [0]) =
            text ++ quote :: s.1.flatMap escape ++ [quote, 0] := by
          simp [stringText]
        rwa [hbytes]
      · dsimp only
        omega
    · right
      refine ⟨S', by simp only [hensure, Option.bind_eq_bind, Option.bind_some], hleft, ?_⟩
      rintro hall _ ⟨⟩
      have := hno hall
      omega

end States

end BoxUtils.CJson
