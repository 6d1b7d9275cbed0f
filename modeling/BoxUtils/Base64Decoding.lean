import BoxUtils.Base64RoundTrip
import Mathlib.Data.List.TakeWhile

/-!
What `Decode` does on any characters. The canonical encoding of RFC 4648 is
defined here without the encoder: groups of 24 bits cut into four symbols, a
short last group filled up with zero bits and padded with `=`. The encoder's
output differs from it only in the last group of one byte, and the decoder
brings back exactly the encoded bytes.

For other inputs the decoder has a closed form too. Only the length is ever
checked, so every input whose length is a multiple of four is decoded, whatever
its characters are.
-/
namespace BoxUtils.Base64

section Canonical

/-- The symbol of a value below 64. -/
def symbol (v : ℕ) : UInt8 :=
  if v < 26 then UInt8.ofNat (0x41 + v)
  else if v < 52 then UInt8.ofNat (0x61 + (v - 26))
  else if v < 62 then UInt8.ofNat (0x30 + (v - 52))
  else if v = 62 then 0x2b
  else 0x2f

/-- Three bytes as one number of 24 bits. -/
def group (a b c : UInt8) : ℕ := a.toNat * 2 ^ 16 + b.toNat * 2 ^ 8 + c.toNat

/-- The symbol of the i-th six bits of a group, counted from the left. -/
def groupSymbol (g i : ℕ) : UInt8 := symbol (g / 64 ^ (3 - i) % 64)

/-- The padded encoding of RFC 4648. -/
def canonical : List UInt8 → List UInt8
  | a :: b :: c :: rest =>
    let g := group a b c
    groupSymbol g 0 :: groupSymbol g 1 :: groupSymbol g 2 :: groupSymbol g 3 :: canonical rest
  | [a, b] =>
    let g := group a b 0
    [groupSymbol g 0, groupSymbol g 1, groupSymbol g 2, pad]
  | [a] =>
    let g := group a 0 0
    [groupSymbol g 0, groupSymbol g 1, pad, pad]
  | [] => []

/-- The alphabet of the code is the one of the standard. -/
theorem table_eq_symbol : ∀ i < 64, table i = symbol i := by decide

section Group

variable (a b c : UInt8)

theorem groupSymbol_zero : groupSymbol (group a b c) 0 = table (a.toNat / 4) := by
  have ha := a.toNat_lt
  have hb := b.toNat_lt
  have hc := c.toNat_lt
  have hbits : group a b c / 64 ^ (3 - 0) % 64 = a.toNat / 4 := by
    simp only [group]
    omega
  rw [groupSymbol, hbits, table_eq_symbol _ (by omega)]

theorem groupSymbol_one :
    groupSymbol (group a b c) 1 = table (a.toNat % 4 * 16 + b.toNat / 16) := by
  have hb := b.toNat_lt
  have hc := c.toNat_lt
  have hbits : group a b c / 64 ^ (3 - 1) % 64 = a.toNat % 4 * 16 + b.toNat / 16 := by
    simp only [group]
    omega
  rw [groupSymbol, hbits, table_eq_symbol _ (by omega)]

theorem groupSymbol_two :
    groupSymbol (group a b c) 2 = table (b.toNat % 16 * 4 + c.toNat / 64) := by
  have hc := c.toNat_lt
  have hbits : group a b c / 64 ^ (3 - 2) % 64 = b.toNat % 16 * 4 + c.toNat / 64 := by
    simp only [group]
    omega
  rw [groupSymbol, hbits, table_eq_symbol _ (by omega)]

theorem groupSymbol_three : groupSymbol (group a b c) 3 = table (c.toNat % 64) := by
  have hbits : group a b c / 64 ^ (3 - 3) % 64 = c.toNat % 64 := by
    simp only [group]
    omega
  rw [groupSymbol, hbits, table_eq_symbol _ (by omega)]

end Group

/-- The standard takes the low bits of a last group of one byte from that byte
itself; the encoder does so when the same byte follows it in memory. -/
theorem canonical_eq_encoded (x : List UInt8) : canonical x = encoded x (x.getLastD 0) := by
  induction x using threes_induction with
  | nil => rfl
  | one a => simp [canonical, encoded, groupSymbol_zero, groupSymbol_one]
  | two a b => simp [canonical, encoded, groupSymbol_zero, groupSymbol_one, groupSymbol_two]
  | three a b c rest ih =>
    have hlast : encoded rest ((a :: b :: c :: rest).getLastD 0) =
        encoded rest (rest.getLastD 0) := by
      cases rest with
      | nil => rfl
      | cons d rest => rfl
    simp only [canonical, encoded, groupSymbol_zero, groupSymbol_one, groupSymbol_two,
      groupSymbol_three, ih, hlast]

theorem tailBitsAgree_getLastD (x : List UInt8) : TailBitsAgree x (x.getLastD 0) := by
  intro _ a ha
  have hlast : x.getLastD 0 = a := by
    rw [List.getLastD_eq_getLast?, Option.mem_def.mp ha, Option.getD_some]
  rw [hlast]

/-- Decoding the canonical encoding of x appends exactly x. -/
theorem decodeInto_canonical (miss : UInt8) (x rest buf : List UInt8) (hx : x ≠ []) :
    decodeInto miss (canonical x ++ rest) (canonical x).length buf = .ok (buf ++ x) := by
  have hpatched := (patched_eq_iff x (x.getLastD 0)).mpr (tailBitsAgree_getLastD x)
  rw [canonical_eq_encoded, decodeInto_encoded miss x (x.getLastD 0) rest buf hx, hpatched]

/-- One, two and three bytes: the three kinds of padding. -/
theorem decodeInto_canonical_letters :
    decodeInto 7 (canonical [77] ++ [0]) (canonical [77]).length [33] = .ok [33, 77] ∧
      decodeInto 7 (canonical [77, 97] ++ [0]) (canonical [77, 97]).length [33] =
        .ok [33, 77, 97] ∧
      decodeInto 7 (canonical [77, 97, 110] ++ [0]) (canonical [77, 97, 110]).length [33] =
        .ok [33, 77, 97, 110] :=
  ⟨decodeInto_canonical 7 [77] [0] [33] (by simp),
    decodeInto_canonical 7 [77, 97] [0] [33] (by simp),
    decodeInto_canonical 7 [77, 97, 110] [0] [33] (by simp)⟩

end Canonical

section ClosedForm

variable (miss : UInt8)

/-- What the loop and the `switch` write for any characters. -/
def decoded : List UInt8 → List UInt8
  | s0 :: s1 :: s2 :: s3 :: rest =>
    UInt8.ofNat ((queryTable miss s0).toNat <<< 2 ||| (queryTable miss s1).toNat >>> 4) ::
      UInt8.ofNat ((queryTable miss s1).toNat <<< 4 ||| (queryTable miss s2).toNat >>> 2) ::
      UInt8.ofNat ((queryTable miss s2).toNat <<< 6 ||| (queryTable miss s3).toNat) ::
      decoded rest
  | [s0, s1, s2] =>
    [UInt8.ofNat ((queryTable miss s0).toNat <<< 2 ||| (queryTable miss s1).toNat >>> 4),
      UInt8.ofNat ((queryTable miss s1).toNat <<< 4 ||| (queryTable miss s2).toNat >>> 2)]
  | [s0, s1] =>
    [UInt8.ofNat ((queryTable miss s0).toNat <<< 2 ||| (queryTable miss s1).toNat >>> 4)]
  | _ => []

@[elab_as_elim]
theorem fours_induction {α : Type*} {P : List α → Prop} (nil : P [])
    (one : ∀ s0, P [s0]) (two : ∀ s0 s1, P [s0, s1]) (three : ∀ s0 s1 s2, P [s0, s1, s2])
    (four : ∀ s0 s1 s2 s3 rest, P rest → P (s0 :: s1 :: s2 :: s3 :: rest)) : ∀ w, P w
  | [] => nil
  | [s0] => one s0
  | [s0, s1] => two s0 s1
  | [s0, s1, s2] => three s0 s1 s2
  | s0 :: s1 :: s2 :: s3 :: rest =>
    four s0 s1 s2 s3 rest (fours_induction nil one two three four rest)

theorem decodeBody_eq (w rest buf : List UInt8) (hw : w.length % 4 ≠ 1) :
    decodeBody miss w.length (w ++ rest) buf = .ok (buf ++ decoded miss w) := by
  induction w using fours_induction generalizing buf with
  | nil => simp [decodeBody, decodeLoop, decodeTail, decoded, bind, Except.bind]
  | one s0 => exact absurd rfl hw
  | two s0 s1 => simp [decodeBody, decodeLoop, decodeTail, decoded, readAt, bind, Except.bind]
  | three s0 s1 s2 =>
    simp [decodeBody, decodeLoop, decodeTail, decoded, readAt, bind, Except.bind]
  | four s0 s1 s2 s3 w ih =>
    have hlen : w.length % 4 ≠ 1 := by
      simp only [List.length_cons] at hw
      omega
    simp only [List.length_cons, List.cons_append, decodeBody_four, ih _ hlen, decoded,
      List.append_assoc, List.nil_append]

/-- The number of characters `Decode` takes off at the end. -/
def stripCount (w : List UInt8) : ℕ :=
  (if w[w.length - 1]? = some pad then 1 else 0) + if w[w.length - 2]? = some pad then 1 else 0

/-- The characters that are left to decode. -/
def stripped (w : List UInt8) : List UInt8 := w.take (w.length - stripCount w)

theorem stripCount_le (w : List UInt8) : stripCount w ≤ 2 := by
  simp only [stripCount]
  split_ifs <;> omega

theorem length_stripped (w : List UInt8) : (stripped w).length = w.length - stripCount w := by
  rw [stripped, List.length_take]
  omega

theorem readAt_within (w rest : List UInt8) {i : ℕ} (h : i < w.length) :
    readAt (w ++ rest) (i : ℤ) = .ok w[i] := by
  have hget : (w ++ rest)[i]? = some w[i] := by
    rw [List.getElem?_append_left h, List.getElem?_eq_getElem h]
  rw [readAt, if_neg (Int.not_lt.mpr (Int.natCast_nonneg i)), Int.toNat_natCast, hget]

theorem readAt_end (w rest : List UInt8) (n : ℕ) (hw : n ≤ w.length)
    (hn : w.length - n < w.length) :
    readAt (w ++ rest) ((w.length : ℤ) - n) = .ok w[w.length - n] := by
  rw [← Int.natCast_sub hw, readAt_within w rest hn]

/-- The loop and the `switch` on what is left of whole groups. -/
theorem decodeBody_stripped (w rest buf : List UInt8) (hw : w ≠ []) (hlen : w.length % 4 = 0) :
    decodeBody miss (w.length - stripCount w) (w ++ rest) buf =
      .ok (buf ++ decoded miss (stripped w)) := by
  have hpos : 0 < w.length := List.length_pos_iff.mpr hw
  have hstrip := stripCount_le w
  have htake := length_stripped w
  have hsplit : w ++ rest = stripped w ++ (w.drop (w.length - stripCount w) ++ rest) := by
    rw [← List.append_assoc, stripped, List.take_append_drop]
  rw [hsplit, ← htake]
  exact decodeBody_eq miss (stripped w) _ buf (by omega)

/-- Every non-empty input whose length is a multiple of four is decoded. -/
theorem decodeInto_eq (w rest buf : List UInt8) (hw : w ≠ []) (hlen : w.length % 4 = 0) :
    decodeInto miss (w ++ rest) w.length buf = .ok (buf ++ decoded miss (stripped w)) := by
  have hpos : 0 < w.length := List.length_pos_iff.mpr hw
  have hlt₁ : w.length - 1 < w.length := by omega
  have hlt₂ : w.length - 2 < w.length := by omega
  have hlast := readAt_end w rest 1 (by omega) hlt₁
  have hprev := readAt_end w rest 2 (by omega) hlt₂
  have hsub : (if w[w.length - 2] = pad then (if w[w.length - 1] = pad then 1 else 0) + 1
      else if w[w.length - 1] = pad then 1 else 0) = stripCount w := by
    simp only [stripCount, List.getElem?_eq_getElem hlt₁, List.getElem?_eq_getElem hlt₂,
      Option.some.injEq]
    split_ifs <;> rfl
  simp only [Nat.cast_one, Nat.cast_ofNat] at hlast hprev
  simp only [decodeInto, hlen, ne_eq, not_true_eq_false, if_false, hlast, hprev, bind,
    Except.bind, hsub]
  exact decodeBody_stripped miss w rest buf hw hlen

theorem decodeInto_bad_length (w rest buf : List UInt8) (hlen : w.length % 4 ≠ 0) :
    decodeInto miss (w ++ rest) w.length buf =
      .error (.invalidArgument "Bad Base64 String len") := by
  simp only [decodeInto, ne_eq, hlen, not_false_eq_true, if_true]

end ClosedForm

section Acceptance

/-- A multiple of four characters of the alphabet, the last or the last two of
which may be `=` instead. -/
def IsBase64 (w : List UInt8) : Prop :=
  w.length % 4 = 0 ∧ ∃ body tail, w = body ++ tail ∧ (∀ c ∈ body, c ∈ Table) ∧
    (tail = [] ∨ tail = [pad] ∨ tail = [pad, pad])

/-- A call on w returns if w is Base64 and throws std::invalid_argument if not. -/
def AcceptsExactly (w : List UInt8) (result : Except Error (List UInt8)) : Prop :=
  ((∃ x, result = .ok x) ↔ IsBase64 w) ∧
    (¬ IsBase64 w → ∃ what, result = .error (.invalidArgument what))

theorem acceptsExactly_of_ok {w x : List UInt8} :
    AcceptsExactly w (.ok x) ↔ IsBase64 w := by
  constructor
  · intro h
    exact h.1.mp ⟨x, rfl⟩
  · intro h
    exact ⟨⟨fun _ => h, fun _ => ⟨x, rfl⟩⟩, fun hnot => absurd h hnot⟩

theorem acceptsExactly_of_invalid {w : List UInt8} {what : String} (h : ¬ IsBase64 w) :
    AcceptsExactly w (.error (.invalidArgument what)) := by
  constructor
  · constructor
    · rintro ⟨x, hok⟩
      cases hok
    · intro hw
      exact absurd hw h
  · intro _
    exact ⟨what, rfl⟩

theorem IsBase64.mem {w : List UInt8} (h : IsBase64 w) : ∀ c ∈ w, c ∈ Table ∨ c = pad := by
  obtain ⟨-, body, tail, rfl, hbody, htail⟩ := h
  intro c hc
  rcases List.mem_append.mp hc with hb | ht
  · exact Or.inl (hbody c hb)
  · right
    rcases htail with rfl | rfl | rfl
    · simp at ht
    · simpa using ht
    · simpa using ht

theorem IsBase64.ne_zero {w : List UInt8} (h : IsBase64 w) : ∀ c ∈ w, c ≠ 0 := by
  intro c hc
  rcases h.mem c hc with hmem | hpad
  · obtain ⟨i, hi, rfl⟩ := List.mem_iff_getElem.mp hmem
    rw [← List.getD_eq_getElem Table 0 hi]
    exact table_ne_zero i hi
  · rw [hpad]
    decide

/-- The part of the bytes that the string overload measures. -/
def beforeNul (w : List UInt8) : List UInt8 := w.takeWhile (· ≠ 0)

theorem beforeNul_ne_zero (w : List UInt8) : ∀ c ∈ beforeNul w, c ≠ 0 := by
  intro c hc
  have hkept := List.mem_takeWhile_imp hc
  exact of_decide_eq_true hkept

theorem beforeNul_eq_self {w : List UInt8} (h : ∀ c ∈ w, c ≠ 0) : beforeNul w = w := by
  rw [beforeNul, List.takeWhile_eq_self_iff]
  intro c hc
  exact decide_eq_true (h c hc)

/-- `c_str()` is the part before the first NUL, that NUL and what follows. -/
theorem exists_cStr (w : List UInt8) : ∃ q, w ++ [0] = beforeNul w ++ 0 :: q := by
  by_cases hnul : 0 ∈ w
  · obtain ⟨p, q, heq, hp⟩ := exists_nul_split w hnul
    have hbefore : beforeNul w = p := by
      rw [heq, beforeNul, List.takeWhile_append_of_pos fun c hc => decide_eq_true (hp c hc)]
      simp
    exact ⟨q ++ [0], by rw [hbefore, heq, List.append_assoc, List.cons_append]⟩
  · have hfree : ∀ c ∈ w, c ≠ 0 := fun c hc hzero => hnul (hzero ▸ hc)
    exact ⟨[], by rw [beforeNul_eq_self hfree]⟩

theorem decodeString_eq (miss : UInt8) (w : List UInt8) :
    ∃ q, decodeString miss w = decode miss (beforeNul w ++ 0 :: q) (beforeNul w).length := by
  obtain ⟨q, hq⟩ := exists_cStr w
  have hlen := strlen_append (beforeNul w) q (beforeNul_ne_zero w)
  refine ⟨q, ?_⟩
  simp only [decodeString, hq, hlen, bind, Except.bind]

theorem decode_acceptsExactly_iff (miss : UInt8) (w rest : List UInt8) (hw : w ≠ []) :
    AcceptsExactly w (decode miss (w ++ rest) w.length) ↔ w.length % 4 ≠ 0 ∨ IsBase64 w := by
  by_cases hlen : w.length % 4 = 0
  · rw [decode, decodeInto_eq miss w rest [] hw hlen, acceptsExactly_of_ok]
    exact ⟨Or.inr, fun h => h.resolve_left fun hne => hne hlen⟩
  · rw [decode, decodeInto_bad_length miss w rest [] hlen]
    have hnot : ¬ IsBase64 w := fun h => hlen h.1
    exact ⟨fun _ => Or.inl hlen, fun _ => acceptsExactly_of_invalid hnot⟩

theorem decodeString_acceptsExactly_iff (miss : UInt8) (w : List UInt8) (hw : w ≠ []) :
    AcceptsExactly w (decodeString miss w) ↔
      (beforeNul w).length % 4 ≠ 0 ∨ IsBase64 w := by
  obtain ⟨q, hq⟩ := decodeString_eq miss w
  rw [hq]
  by_cases hbase : IsBase64 w
  · have hall := beforeNul_eq_self hbase.ne_zero
    rw [hall]
    exact decode_acceptsExactly_iff miss w (0 :: q) hw
  · have hiff : (beforeNul w).length % 4 ≠ 0 ∨ IsBase64 w ↔ (beforeNul w).length % 4 ≠ 0 :=
      or_iff_left hbase
    rw [hiff]
    by_cases hlen : (beforeNul w).length % 4 = 0
    · have hreject : ¬ AcceptsExactly w
          (decode miss (beforeNul w ++ 0 :: q) (beforeNul w).length) := by
        intro h
        obtain ⟨what, herr⟩ := h.2 hbase
        by_cases hnil : beforeNul w = []
        · -- an empty string is read before its start
          rw [hnil] at herr
          cases herr
        · rw [decode, decodeInto_eq miss _ (0 :: q) [] hnil hlen] at herr
          cases herr
      exact ⟨fun h => absurd h hreject, fun h => absurd hlen h⟩
    · rw [decode, decodeInto_bad_length miss _ (0 :: q) [] hlen]
      exact ⟨fun _ => hlen, fun _ => acceptsExactly_of_invalid hbase⟩

/-- Only the length is checked: an input of a right length is accepted whatever
its characters are. -/
theorem decode_accepts_iff (miss : UInt8) (w rest : List UInt8) (hw : w ≠ []) :
    (AcceptsExactly w (decode miss (w ++ rest) w.length) ↔ w.length % 4 ≠ 0 ∨ IsBase64 w) ∧
      (AcceptsExactly w (decodeString miss w) ↔
        (beforeNul w).length % 4 ≠ 0 ∨ IsBase64 w) :=
  ⟨decode_acceptsExactly_iff miss w rest hw, decodeString_acceptsExactly_iff miss w hw⟩

/-- Three characters are refused. -/
theorem decode_accepts_three :
    AcceptsExactly [65, 66, 67] (decode 7 ([65, 66, 67] ++ []) 3) ∧
      AcceptsExactly [65, 66, 67] (decodeString 7 [65, 66, 67]) := by
  have h := decode_accepts_iff 7 [65, 66, 67] [] (by simp)
  exact ⟨h.1.mpr (Or.inl (by decide)), h.2.mpr (Or.inl (by decide))⟩

/-- Four asterisks are decoded to three bytes. -/
theorem decode_accepts_asterisks :
    ¬ ∀ (miss : UInt8) (w rest : List UInt8), w ≠ [] →
      AcceptsExactly w (decode miss (w ++ rest) w.length) := by
  intro h
  have haccept := h 7 [42, 42, 42, 42] [] (by simp)
  have hbase : IsBase64 [42, 42, 42, 42] := haccept.1.mp ⟨_, rfl⟩
  rcases hbase.mem 42 (by simp) with hmem | hpad
  · exact absurd hmem (by decide)
  · exact absurd hpad (by decide)

end Acceptance

end BoxUtils.Base64
