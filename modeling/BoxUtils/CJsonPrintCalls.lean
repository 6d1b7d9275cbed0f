import BoxUtils.CJsonPrintText

/-!
The calls that print a document: into a block that is handed to the caller, or into a buffer
of the caller. Whatever the allocator answers, nothing but the result is left in the memory,
and the result is the text of the document.
-/
namespace BoxUtils.CJson

open CMemory LinkedShapes MergePatch

variable {stdio : Stdio} {hooks : Hooks} {M₀ M : Memory} {format : Bool} {calls size : ℕ}
variable {t : List UInt8} {H : Nodes} {b : ℕ} {c : CJSON} {s : Shape} {p : Pointer}

section Blocks

/-- The area of a block that the printer has allocated. -/
def ownArea (format : Bool) : Area where
  format := format
  lent := none
  static := false
  before := []
  behind := []
  limit := sizeMax
  limit_le := le_rfl
  own _ := ⟨rfl, rfl, rfl, rfl⟩

/-- The area of a buffer of the caller, in a block with other bytes around it. -/
def lentArea (format static : Bool) (p : Pointer) (before behind : List (Option UInt8)) (length : ℕ)
    (h : length ≤ sizeMax) : Area where
  format := format
  lent := some p
  static := static
  before := before
  behind := behind
  limit := length
  limit_le := h
  own hno := by cases hno

/-- What a call has allocated for its caller: a block with the text and room for more. -/
structure HandsOut (M M' : Memory) (q : Pointer) (t : List UInt8) (size : ℕ) : Prop where
  offset : q.offset = 0
  block : ∃ junk, M'.cell q.block = some ⟨false, (t ++ [0]).map some ++ junk⟩ ∧
    t.length + 1 + junk.length = size
  new : M.fresh ≤ q.block
  others : ∀ b, b ≠ q.block → M'.cell b = M.cell b

theorem HandsOut.reads {M' : Memory} {q : Pointer} (h : HandsOut M M' q t size) (ht : 0 ∉ t) :
    CMemory.text M' q = some t := by
  obtain ⟨junk, hcell, -⟩ := h.block
  simp only [CMemory.text, hcell, h.offset, List.drop_zero, Option.bind_eq_bind, Option.bind_some]
  exact chars_text ht junk

theorem Lies.handsOut {M' : Memory}
    (h : Lies M (ownArea format) size (t ++ [0]) M' p) : HandsOut M M' p t size := by
  obtain ⟨junk, hcell, hlength⟩ := h.cell
  constructor
  case offset => exact h.start
  case block =>
    refine ⟨junk, by simpa [ownArea] using hcell, ?_⟩
    rw [List.length_append, List.length_singleton] at hlength
    exact hlength
  case new => exact h.new rfl
  case others => exact h.others

/-- A new block, before anything is written to it. -/
theorem malloc_shows (hooks : Hooks) (M : Memory) (format : Bool) (size : ℕ)
    (hsize : size ≤ sizeMax) (hroom : 0 < size ∨ hooks.hasReallocate = true) :
    Shows hooks M (ownArea format) 0 [] []
      ((malloc M size).1, ⟨some ⟨M.fresh, 0⟩, size, 0, 0, false, format⟩) := by
  have hlies : Lies M (ownArea format) size [] (malloc M size).1 ⟨M.fresh, 0⟩ := by
    constructor
    case start => rfl
    case cell =>
      refine ⟨List.replicate size none, ?_, by simp⟩
      show _ = some (Block.mk false ([] ++ ([] ++ _) ++ []))
      rw [List.nil_append, List.nil_append, List.append_nil]
      exact Heap.cell_alloc_self M _
    case new => exact fun _ => Nat.le_refl M.fresh
    case lent => exact nofun
    case others => exact fun b hb => Heap.cell_alloc_of_ne M _ hb
  constructor
  case format => rfl
  case noalloc => rfl
  case depth => rfl
  case offset => rfl
  case place => exact ⟨⟨M.fresh, 0⟩, rfl, hlies⟩
  case room =>
    dsimp only [List.length_nil]
    rcases Nat.eq_zero_or_pos size with rfl | hpos
    · exact Or.inr ⟨rfl, Or.inl (hroom.resolve_left (Nat.lt_irrefl 0))⟩
    · exact Or.inl hpos
  case limit => exact hsize
  case lent => exact nofun

/-- A buffer of the caller, before anything is written to it. -/
theorem lent_shows (hooks : Hooks) {static : Bool} {bytes : List (Option UInt8)} {length : ℕ}
    (format : Bool) (hcell : M.cell p.block = some ⟨static, bytes⟩)
    (hlength : p.offset + length ≤ bytes.length) (hmax : length ≤ sizeMax) :
    Shows hooks M (lentArea format static p (bytes.take p.offset) (bytes.drop (p.offset + length))
      length hmax) 0 [] [] (M, ⟨some p, length, 0, 0, true, format⟩) := by
  have hlies : Lies M (lentArea format static p (bytes.take p.offset)
      (bytes.drop (p.offset + length)) length hmax) length [] M p := by
    constructor
    case start =>
      show p.offset = (bytes.take p.offset).length
      rw [List.length_take]
      omega
    case cell =>
      refine ⟨(bytes.drop p.offset).take length, ?_, ?_⟩
      · rw [hcell]
        show _ = some (Block.mk static
          (bytes.take p.offset ++ ([] ++ _) ++ bytes.drop (p.offset + length)))
        rw [List.nil_append, List.append_assoc, ← List.drop_drop, List.take_append_drop,
          List.take_append_drop]
      · rw [List.length_nil, List.length_take, List.length_drop]
        omega
    case new => exact nofun
    case lent =>
      rintro r ⟨⟩
      rfl
    case others => exact fun b _ => rfl
  constructor
  case format => rfl
  case noalloc => rfl
  case depth => rfl
  case offset => rfl
  case place => exact ⟨p, rfl, hlies⟩
  case room =>
    dsimp only [List.length_nil]
    rcases Nat.eq_zero_or_pos length with rfl | hpos
    · exact Or.inr ⟨rfl, Or.inr rfl⟩
    · exact Or.inl hpos
  case limit => exact le_rfl
  case lent => exact fun _ => rfl

/-- Writing the bytes that are there. -/
theorem store_same {blk : Block} {bytes : List (Option UInt8)} (hcell : M.cell p.block = some blk)
    (hlength : p.offset + bytes.length ≤ blk.bytes.length)
    (hsame : (blk.bytes.drop p.offset).take bytes.length = bytes) :
    store M p bytes = some M := by
  have hbytes : blk.bytes.take p.offset ++ bytes ++ blk.bytes.drop (p.offset + bytes.length) =
      blk.bytes := by
    conv_lhs => rw [← hsame]
    rw [hsame, ← List.drop_drop, List.append_assoc, ← hsame]
    rw [List.length_take, List.length_drop, Nat.min_eq_left (by omega), List.take_append_drop,
      List.take_append_drop]
  have hput : M.put p.block { blk with bytes := blk.bytes } = M := by
    have hcells : (M.put p.block blk).cell = M.cell := by
      rw [Heap.cell_put hcell, ← hcell, Function.update_eq_self]
    cases M
    simp only [Heap.put] at hcells ⊢
    simp only [hcells]
  simp only [store, hcell, Option.bind_eq_bind, Option.bind_some, hbytes,
    if_neg (Nat.not_lt.mpr hlength), hput]

/-- A block of the size of the text takes the place of the larger one. -/
theorem shrink_replaces {S : Printing} (hshows : Shows hooks M₀ (ownArea format) 0 t [0] S)
    (hlies : Lies M₀ (ownArea format) S.2.length (t ++ [0]) S.1 p)
    (hroom : t.length + 2 ≤ S.2.length) :
    Replaced hooks M₀ (ownArea format) (t.length + 1) (t ++ [0]) (shrink hooks S p) := by
  obtain ⟨M, P⟩ := S
  have hoffset : P.offset = t.length := hshows.offset
  have hlength : (t ++ [0]).length = t.length + 1 := by simp
  obtain ⟨M', hfree, hcells⟩ := hlies.free rfl
  dsimp only at hlies hroom hfree
  simp only [shrink, hoffset]
  by_cases hgrants : hooks.grants M (t.length + 1) = true
  case pos =>
    left
    split
    case isTrue =>
      obtain ⟨M₁, q, hrealloc, hlies₁⟩ := reallocate_granted hlies rfl (by omega) hgrants
      exact ⟨M₁, q, by simp only [hrealloc, Option.bind_eq_bind, Option.bind_some], hlies₁⟩
    case isFalse =>
      obtain ⟨M₁, M₂, hcopy, hfree₂, hlies₂⟩ := memcpy_granted hlies rfl (t.length + 1)
        (t.length + 1) (by omega) (by omega) le_rfl
      -- the NUL that is written behind the copy is there already
      obtain ⟨junk, hcell, hjunk⟩ := hlies₂.cell
      obtain ⟨blk, -, -, hM₂⟩ := free_cases hfree₂
      have hcell₁ := (Heap.cell_of_erase (hM₂ ▸ hcell)).2
      have hnul : store M₁ ⟨M.fresh, t.length⟩ [some 0] = some M₁ := by
        refine store_same hcell₁ ?_ ?_
        · simp [ownArea]
        · simp [ownArea]
      refine ⟨M₂, ⟨M.fresh, 0⟩, ?_, hlies₂⟩
      rw [Nat.min_eq_right (by omega)]
      simp only [allocate_granted hgrants, hcopy, Nat.zero_add, hnul, hfree₂, Option.bind_eq_bind,
        Option.bind_some]
  case neg =>
    refine Or.inr ⟨M', ?_, hcells, fun hall => hgrants (hall M _)⟩
    split
    · simp only [reallocate, allocate_refused hgrants, hfree, Option.bind_eq_bind, Option.bind_some]
    · simp only [allocate_refused hgrants, hfree, Option.bind_eq_bind, Option.bind_some]

end Blocks

section Calls

/-- What a call that allocates its result may give: the text of the document in a block of
some size, or nothing, and then there is no such text or no block for it. -/
def HandsOutText (stdio : Stdio) (hooks : Hooks) (format : Bool) (l : Label) (f : Forest Label)
    (M : Memory) (size : List UInt8 → ℕ → Prop) (r : Option (Memory × Option Pointer)) : Prop :=
  (∃ M' q t n, r = some (M', some q) ∧ documentText stdio format l f = some t ∧
      t.length + 2 ≤ sizeMax ∧ HandsOut M M' q t n ∧ size t n) ∨
    ∃ M', r = some (M', none) ∧ M'.cell = M.cell ∧
      (hooks.Generous → ∀ t, documentText stdio format l f = some t → sizeMax < t.length + 2)

theorem generous_supplies (hall : hooks.Generous) (format : Bool) :
    Supplied hooks (ownArea format) := Or.inl hall

/-- A failure gives the block back. -/
theorem deallocate_left {S : Printing} (h : Left hooks M (ownArea format) S) :
    ∃ M', deallocate S.1 S.2.buffer = some M' ∧ M'.cell = M.cell := by
  rcases h with ⟨depth, text, tail, hshows⟩ | ⟨-, hbuffer, hcells⟩
  · obtain ⟨q, hq, hlies⟩ := hshows.place
    rw [hq]
    exact hlies.free rfl
  · rw [hbuffer]
    exact ⟨S.1, rfl, hcells⟩

/-- The text of the whole document is in the block. -/
theorem Ends.whole {S : Printing} (h : Ends hooks M (ownArea format) 0 [] t S) :
    ∃ q, S.2.buffer = some q ∧ Lies M (ownArea format) S.2.length (t ++ [0]) S.1 q ∧
      t.length + 2 ≤ S.2.length ∧ S.2.length ≤ sizeMax := by
  obtain ⟨⟨v₁, v₂, rfl, hshows⟩, hroom⟩ := h
  obtain ⟨q, hq, hlies⟩ := hshows.place
  rw [List.length_nil, Nat.zero_add] at hroom
  exact ⟨q, hq, by simpa only [List.nil_append, List.append_assoc] using hlies, hroom,
    hshows.limit⟩

/-- Whatever the allocator answers, `print` defines a result: the text of the document in a
block of its size, and no other trace in the memory; or null and no trace at all, which
happens only if there is no text or no memory for it. -/
theorem print_text (stdio : Stdio) (hooks : Hooks) (M : Memory) (format : Bool) {H : Nodes}
    {b : ℕ} {c : CJSON} {s : Shape} {calls : ℕ} (htree : Tree H b c s)
    (hfit : NumbersFit stdio (.node c.label (s.read (labelOf H)) .nil))
    (hcalls : 3 * s.size + 2 ≤ calls) :
    HandsOutText stdio hooks format c.label (s.read (labelOf H)) M (fun t n => n = t.length + 1)
      (print stdio hooks calls H (some b) format M) := by
  unfold print
  by_cases hgrants : hooks.grants M defaultBufferSize = true
  case neg =>
    refine Or.inr ⟨M, ?_, rfl, fun hall => absurd (hall M _) hgrants⟩
    rw [allocate_refused hgrants]
  rw [allocate_granted hgrants]
  have hnew := malloc_shows hooks M format defaultBufferSize
    (by decide) (Or.inl (by decide))
  rcases printValue_document htree hfit hcalls hnew with ⟨S, t, hprint, ht, hends⟩ |
    ⟨S, hprint, hleft, hno⟩
  · have hnul : 0 ∉ t := zero_notMem_documentText ht
    obtain ⟨S', hupdate, hshows, hlength, -⟩ := updateOffset_shows hends hnul
    obtain ⟨-, -, -, hroom, hmax⟩ := hends.whole
    obtain ⟨q, hq, hlies⟩ := hshows.place
    rw [← hlength] at hroom hmax
    rcases shrink_replaces hshows hlies hroom with ⟨M', r, hshrink, hlies'⟩ |
      ⟨M', hshrink, hcells, hrefused⟩
    · refine Or.inl ⟨M', r, t, _, ?_, ht, by omega, hlies'.handsOut, rfl⟩
      simp only [hprint, hupdate, hq, hshrink, Option.bind_eq_bind, Option.bind_some, if_true]
    · refine Or.inr ⟨M', ?_, hcells, fun hall => absurd hall hrefused⟩
      simp only [hprint, hupdate, hq, hshrink, Option.bind_eq_bind, Option.bind_some, if_true]
  · obtain ⟨M', hfree, hcells⟩ := deallocate_left hleft
    refine Or.inr ⟨M', ?_, hcells, fun hall t ht => ?_⟩
    · simp only [hprint, hfree, Option.bind_eq_bind, Option.bind_some, Bool.false_eq_true, if_false]
    · have := hno (generous_supplies hall format) t ht
      rw [List.length_nil, Nat.zero_add] at this
      exact this

/-- A buffer of a chosen size grows in the same way, and is handed out as it is. An empty one
needs a realloc. -/
theorem printBuffered_text (stdio : Stdio) (hooks : Hooks) (M : Memory) (format : Bool)
    {H : Nodes} {b : ℕ} {c : CJSON} {s : Shape} {calls : ℕ} {prebuffer : ℤ}
    (htree : Tree H b c s) (hfit : NumbersFit stdio (.node c.label (s.read (labelOf H)) .nil))
    (hcalls : 3 * s.size + 2 ≤ calls) (hnonneg : 0 ≤ prebuffer) (hint : prebuffer ≤ intMax)
    (hroom : 0 < prebuffer ∨ hooks.hasReallocate = true) :
    HandsOutText stdio hooks format c.label (s.read (labelOf H)) M
      (fun t n => t.length + 2 ≤ n ∧ n ≤ sizeMax)
      (printBuffered stdio hooks calls H (some b) prebuffer format M) := by
  unfold printBuffered
  rw [if_neg (by omega)]
  by_cases hgrants : hooks.grants M prebuffer.toNat = true
  case neg =>
    refine Or.inr ⟨M, ?_, rfl, fun hall => absurd (hall M _) hgrants⟩
    rw [allocate_refused hgrants]
  rw [allocate_granted hgrants]
  have hnew := malloc_shows hooks M format prebuffer.toNat
    (by unfold sizeMax; omega) (hroom.imp_left fun h => by omega)
  rcases printValue_document htree hfit hcalls hnew with ⟨S, t, hprint, ht, hends⟩ |
    ⟨S, hprint, hleft, hno⟩
  · obtain ⟨q, hq, hlies, htwo, hmax⟩ := hends.whole
    refine Or.inl ⟨S.1, q, t, _, ?_, ht, by omega, hlies.handsOut, htwo, hmax⟩
    simp only [hprint, hq, Option.bind_eq_bind, Option.bind_some, if_true]
  · obtain ⟨M', hfree, hcells⟩ := deallocate_left hleft
    refine Or.inr ⟨M', ?_, hcells, fun hall t ht => ?_⟩
    · simp only [hprint, hfree, Option.bind_eq_bind, Option.bind_some, Bool.false_eq_true, if_false]
    · have := hno (generous_supplies hall format) t ht
      rw [List.length_nil, Nat.zero_add] at this
      exact this

/-- The calls that allocate the text, with the default size or with one that is chosen. A chosen
size of zero needs a `realloc`: without one `ensure` copies a byte of an empty block. -/
theorem printed_text (stdio : Stdio) (hooks : Hooks) (M : Memory) {H : Nodes} {b : ℕ} {c : CJSON}
    {s : Shape} {calls : ℕ} (htree : Tree H b c s)
    (hfit : NumbersFit stdio (.node c.label (s.read (labelOf H)) .nil))
    (hcalls : 3 * s.size + 2 ≤ calls) :
    HandsOutText stdio hooks true c.label (s.read (labelOf H)) M (fun t n => n = t.length + 1)
        (cJSONPrint stdio hooks calls H (some b) M) ∧
      HandsOutText stdio hooks false c.label (s.read (labelOf H)) M (fun t n => n = t.length + 1)
        (printUnformatted stdio hooks calls H (some b) M) ∧
      ∀ (prebuffer : ℤ) (format : Bool), 0 ≤ prebuffer → prebuffer ≤ intMax →
        (0 < prebuffer ∨ hooks.hasReallocate = true) →
        HandsOutText stdio hooks format c.label (s.read (labelOf H)) M
          (fun t n => t.length + 2 ≤ n ∧ n ≤ sizeMax)
          (printBuffered stdio hooks calls H (some b) prebuffer format M) := by
  refine ⟨print_text stdio hooks M true htree hfit hcalls,
    print_text stdio hooks M false htree hfit hcalls, ?_⟩
  intro prebuffer format hnonneg hint hroom
  exact printBuffered_text stdio hooks M format htree hfit hcalls hnonneg hint hroom

/-- The document `[5]`, and what printf and scanf do with the number in it. -/
def five : Nodes :=
  (Heap.empty.alloc { type := cJSONArray, child := some 1 }).alloc
    { type := cJSONNumber, valueint := 5, valuedouble := .finite 5 }

def fiveDigits : Stdio where
  sprintf _ _ := ⟨[53], by decide⟩
  sscanf _ := some (.finite 5)

theorem tree_five : Tree five 0 { type := cJSONArray, child := some 1 } (.node 1 .nil .nil) where
  cell := rfl
  sound := nofun
  children := ⟨rfl, _, rfl, rfl, nofun, rfl, rfl⟩
  distinct := distinct_tree (distinct_leaf 1) rfl

theorem numbersFit_five :
    NumbersFit fiveDigits (.node (CJSON.label { type := cJSONArray, child := some 1 })
      ((Shape.node 1 .nil .nil).read (labelOf five)) .nil) :=
  ⟨nofun, ⟨fun _ => by decide, trivial, trivial⟩, trivial⟩

/-- An allocator that grants no block after the first. -/
theorem printed_text_five :
    HandsOutText fiveDigits ⟨fun M _ => M.fresh = 0, false⟩ true
      (CJSON.label { type := cJSONArray, child := some 1 })
      ((Shape.node 1 .nil .nil).read (labelOf five)) Heap.empty (fun t n => n = t.length + 1)
      (cJSONPrint fiveDigits ⟨fun M _ => M.fresh = 0, false⟩ 5 five (some 0) Heap.empty) :=
  (printed_text fiveDigits ⟨fun M _ => M.fresh = 0, false⟩ Heap.empty tree_five numbersFit_five
    (by decide)).1

/-- What a call with a buffer of the caller leaves: only bytes of the buffer are changed. -/
structure WithinBuffer (M M' : Memory) (p : Pointer) (length : ℕ) : Prop where
  block : ∃ blk bytes, M.cell p.block = some blk ∧ M'.cell p.block = some { blk with bytes } ∧
    bytes.length = blk.bytes.length ∧ bytes.take p.offset = blk.bytes.take p.offset ∧
    bytes.drop (p.offset + length) = blk.bytes.drop (p.offset + length)
  others : ∀ b, b ≠ p.block → M'.cell b = M.cell b

theorem Lies.within {bytes : List (Option UInt8)} {static : Bool} {length : ℕ} {M' : Memory}
    {hmax : length ≤ sizeMax} (hcell : M.cell p.block = some ⟨static, bytes⟩)
    (hlength : p.offset + length ≤ bytes.length)
    (h : Lies M (lentArea format static p (bytes.take p.offset) (bytes.drop (p.offset + length))
      length hmax) length t M' p) : WithinBuffer M M' p length := by
  obtain ⟨junk, hcell', hjunk⟩ := h.cell
  have hbefore : (bytes.take p.offset).length = p.offset := by
    rw [List.length_take]
    omega
  have hmiddle : (t.map some ++ junk).length = length := by
    rw [List.length_append, List.length_map, hjunk]
  refine ⟨⟨_, _, hcell, hcell', ?_, ?_, ?_⟩, h.others⟩
  · simp only [lentArea, List.length_append] at hmiddle ⊢
    rw [hbefore, hmiddle, List.length_drop]
    omega
  · simp only [lentArea, List.append_assoc]
    exact List.take_left' hbefore
  · have hfront : (bytes.take p.offset ++ (t.map some ++ junk)).length = p.offset + length := by
      rw [List.length_append, hbefore, hmiddle]
    exact List.drop_left' hfront

/-- `cJSON_PrintPreallocated` succeeds exactly if the buffer has two bytes more than the text
of the document, one of them for the NUL; in any case it writes to nothing but the buffer. -/
theorem printPreallocated_text (stdio : Stdio) (hooks : Hooks) (M : Memory) (format : Bool)
    {H : Nodes} {b : ℕ} {c : CJSON} {s : Shape} (calls length : ℕ) (p : Pointer) {blk : Block}
    (htree : Tree H b c s) (hfit : NumbersFit stdio (.node c.label (s.read (labelOf H)) .nil))
    (hcalls : 3 * s.size + 2 ≤ calls) (hcell : M.cell p.block = some blk)
    (hlength : p.offset + length ≤ blk.bytes.length) (hint : length ≤ sizeMax) :
    ∃ M' ok, printPreallocated stdio hooks calls H (some b) (some p) length format M =
        some (M', ok) ∧ WithinBuffer M M' p length ∧
      (ok = true ↔ ∃ t, documentText stdio format c.label (s.read (labelOf H)) = some t ∧
        t.length + 2 ≤ length) ∧
      (ok = true → text M' p = documentText stdio format c.label (s.read (labelOf H))) := by
  obtain ⟨static, bytes⟩ := blk
  have hlent := lent_shows hooks format hcell hlength hint
  have hvalid : ¬ ((length : ℤ) < 0 ∨ some p = none) := by
    simp
  simp only [printPreallocated, if_neg hvalid, Int.toNat_natCast]
  rcases printValue_document htree hfit hcalls hlent with ⟨S, t, hprint, ht, hends⟩ |
    ⟨S, hprint, hleft, hno⟩
  · obtain ⟨⟨v₁, v₂, rfl, hshows⟩, hroom⟩ := hends
    obtain ⟨q, -, hlies⟩ := hshows.place
    obtain rfl := hlies.lent p rfl
    have hsize : S.2.length = length := hshows.lent rfl
    rw [List.length_nil, Nat.zero_add, hsize] at hroom
    rw [hsize] at hlies
    have hnul : 0 ∉ v₁ ++ v₂ := zero_notMem_documentText ht
    refine ⟨S.1, true, ?_, hlies.within hcell hlength, ⟨fun _ => ⟨_, ht, hroom⟩, fun _ => rfl⟩,
      fun _ => ?_⟩
    · simp only [hprint, Option.bind_eq_bind, Option.bind_some]
    · have hread : text S.1 { q with offset := q.offset + ([] : List UInt8).length } =
          some (v₁ ++ v₂) := Lies.text (by simpa using hlies) hnul
      exact hread.trans ht.symm
  · refine ⟨S.1, false, ?_, ?_, ⟨nofun, ?_⟩, nofun⟩
    · simp only [hprint, Option.bind_eq_bind, Option.bind_some]
    · rcases hleft with ⟨depth, shown, tail, hshows⟩ | ⟨hown, -⟩
      · obtain ⟨q, -, hlies⟩ := hshows.place
        obtain rfl := hlies.lent p rfl
        have hsize : S.2.length = length := hshows.lent rfl
        rw [hsize] at hlies
        exact hlies.within hcell hlength
      · cases hown
    · rintro ⟨t, ht, hfits⟩
      have hlimit : length < ([] : List UInt8).length + t.length + 2 := hno (Or.inr rfl) t ht
      rw [List.length_nil] at hlimit
      omega

/-- Five bytes for the text, with one more on either side. -/
theorem printPreallocated_text_five :
    ∃ M' ok, printPreallocated fiveDigits ⟨fun _ _ => true, true⟩ 5 five (some 0) (some ⟨0, 1⟩) 5
        false (Heap.empty.alloc ⟨true, List.replicate 7 none⟩) = some (M', ok) ∧
      WithinBuffer (Heap.empty.alloc ⟨true, List.replicate 7 none⟩) M' ⟨0, 1⟩ 5 ∧
      ok = true ∧ text M' ⟨0, 1⟩ = some [91, 53, 93] := by
  obtain ⟨M', ok, hprint, hwithin, hok, htext⟩ := printPreallocated_text fiveDigits
    ⟨fun _ _ => true, true⟩ (Heap.empty.alloc ⟨true, List.replicate 7 none⟩) false 5 5 ⟨0, 1⟩
    tree_five numbersFit_five (by decide) rfl (by decide) (by decide)
  have hdocument : documentText fiveDigits false
      (CJSON.label { type := cJSONArray, child := some 1 })
      ((Shape.node 1 .nil .nil).read (labelOf five)) = some [91, 53, 93] := by
    decide
  have hyes := hok.mpr ⟨_, hdocument, by decide⟩
  exact ⟨M', ok, hprint, hwithin, hyes, (htext hyes).trans hdocument⟩

end Calls

end BoxUtils.CJson
