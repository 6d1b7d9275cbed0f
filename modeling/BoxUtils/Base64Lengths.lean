import BoxUtils.Base64Decoding
import BoxUtils.Loops

/-!
The length in `Decode` as the machine counts it. All its differences are taken modulo
2 ^ 64, with a note of those that go below zero, and the loop is left when the length that
remains is at most 3. The length at the beginning is a multiple of 4 and at most two
characters are taken off, so 1 never remains.
-/
namespace BoxUtils.Base64

open Loops

/-- The variables of `Decode`, and whether a difference of lengths was below zero. -/
structure Decoding where
  datalen : UInt64
  cptr : Block
  buf : List UInt8
  below : Bool
  deriving DecidableEq, Repr

section Source

/-- A difference of lengths, and whether it is below zero. -/
def minus (a b : UInt64) : UInt64 × Bool := (a - b, decide (a < b))

/-- What stands before the loop. -/
def beginDecode (data : Block) (datalen : UInt64) (buf : List UInt8) : Except Error Decoding := do
  if datalen % 4 ≠ 0 then
    .error (.invalidArgument "Bad Base64 String len")
  else
    let (last, lastBelow) := minus datalen 1
    let sub : UInt64 := if (← readAt data last.toNat) = pad then 1 else 0
    let (previous, previousBelow) := minus datalen 2
    let sub := if (← readAt data previous.toNat) = pad then sub + 1 else sub
    let (datalen, below) := minus datalen sub
    .ok ⟨datalen, data, buf, lastBelow || previousBelow || below⟩

variable (miss : UInt8)

/-- The three bytes of the next four characters. -/
def decodeFour (cptr : Block) : Except Error (List UInt8) := do
  let a0 := queryTable miss (← readAt cptr 0)
  let a1 := queryTable miss (← readAt cptr 1)
  let a2 := queryTable miss (← readAt cptr 2)
  let a3 := queryTable miss (← readAt cptr 3)
  .ok [UInt8.ofNat (a0.toNat <<< 2 ||| a1.toNat >>> 4),
    UInt8.ofNat (a1.toNat <<< 4 ||| a2.toNat >>> 2),
    UInt8.ofNat (a2.toNat <<< 6 ||| a3.toNat)]

/-- One turn of the loop `while (datalen > 3)`. -/
def decodeTurn (s : Decoding) : Turn Decoding (Except Error Decoding) :=
  if s.datalen > 3 then
    match decodeFour miss s.cptr with
    | .error e => .done (.error e)
    | .ok bytes =>
      let (datalen, below) := minus s.datalen 4
      .again ⟨datalen, s.cptr.drop 4, s.buf ++ bytes, s.below || below⟩
  else .done (.ok s)

/-- The loop is left with these values of the variables. -/
def LeavesLoop (data : Block) (datalen : UInt64) (buf : List UInt8) (t : Decoding) : Prop :=
  ∃ s, beginDecode data datalen buf = .ok s ∧ Yields (decodeTurn miss) s (.ok t)

/-- The `switch` behind the loop. -/
def finish (t : Decoding) : Except Error (List UInt8) :=
  decodeTail miss t.datalen.toNat t.cptr t.buf

end Source

section Lengths

variable {miss : UInt8}

theorem minus_eq {a b : UInt64} (h : b ≤ a) : minus a b = (a - b, false) := by
  rw [minus, decide_eq_false (UInt64.not_lt.mpr h)]

theorem length_decoded (w : List UInt8) (hw : w.length % 4 ≠ 1) :
    (decoded miss w).length = 3 * w.length / 4 := by
  induction w using fours_induction with
  | nil => rfl
  | one s0 => exact absurd rfl hw
  | two s0 s1 => simp [decoded]
  | three s0 s1 s2 => simp [decoded]
  | four s0 s1 s2 s3 rest ih =>
    simp only [List.length_cons] at hw
    have hrest := ih (by omega)
    simp only [decoded, List.length_cons, hrest]
    omega

/-- Of n characters 3 * (n / 4) bytes are left, less one for each character taken off. -/
theorem length_decoded_stripped (w : List UInt8) (hw : w ≠ []) (hlen : w.length % 4 = 0) :
    (decoded miss (stripped w)).length + stripCount w = 3 * (w.length / 4) := by
  have hpos : 0 < w.length := List.length_pos_iff.mpr hw
  have hstrip := stripCount_le w
  have hstripped := length_stripped w
  rw [length_decoded _ (by omega), hstripped]
  omega

end Lengths

section Loop

variable (miss : UInt8) {s t : Decoding}

theorem exists_decodeFour {cptr : Block} (h : 4 ≤ cptr.length) :
    ∃ bytes, decodeFour miss cptr = .ok bytes ∧ ∀ n buf,
      decodeLoop miss (n + 4) cptr buf = decodeLoop miss n (cptr.drop 4) (buf ++ bytes) := by
  match cptr, h with
  | s0 :: s1 :: s2 :: s3 :: rest, _ => exact ⟨_, rfl, fun n buf => rfl⟩

/-- What holds at the head of the loop that was begun in s. -/
structure AtHead (miss : UInt8) (s t : Decoding) : Prop where
  inside : t.datalen.toNat ≤ t.cptr.length
  remainder : t.datalen.toNat % 4 = s.datalen.toNat % 4
  neverBelow : t.below = false
  result : decodeLoop miss t.datalen.toNat t.cptr t.buf =
    decodeLoop miss s.datalen.toNat s.cptr s.buf

/-- A turn with more than 3 characters takes four of them. -/
theorem decodeTurn_four (hin : t.datalen.toNat ≤ t.cptr.length) (hmore : 3 < t.datalen.toNat) :
    ∃ bytes, decodeTurn miss t =
        .again ⟨t.datalen - 4, t.cptr.drop 4, t.buf ++ bytes, t.below⟩ ∧
      decodeLoop miss t.datalen.toNat t.cptr t.buf =
        decodeLoop miss (t.datalen - 4).toNat (t.cptr.drop 4) (t.buf ++ bytes) := by
  obtain ⟨bytes, hbytes, hloop⟩ := exists_decodeFour miss (hmore.trans_le hin)
  have hfour : (4 : UInt64) ≤ t.datalen := UInt64.le_iff_toNat_le.mpr hmore
  have hguard : t.datalen > 3 := UInt64.lt_iff_toNat_lt.mpr hmore
  refine ⟨bytes, ?_, ?_⟩
  · rw [decodeTurn, if_pos hguard, hbytes, minus_eq hfour]
    simp only [Bool.or_false]
  · have hsub : t.datalen.toNat = (t.datalen - 4).toNat + 4 := by
      rw [UInt64.toNat_sub_of_le _ _ hfour]
      exact (Nat.sub_add_cancel hmore).symm
    rw [hsub, hloop]

theorem decodeTurn_done (hfew : t.datalen.toNat ≤ 3) : decodeTurn miss t = .done (.ok t) :=
  if_neg (UInt64.not_lt.mpr (UInt64.le_iff_toNat_le.mpr hfew))

variable {miss} in
theorem AtHead.again {u : Decoding} (h : AtHead miss s t) (hturn : decodeTurn miss t = .again u) :
    AtHead miss s u ∧ u.datalen.toNat < t.datalen.toNat := by
  by_cases hmore : 3 < t.datalen.toNat
  · obtain ⟨bytes, hagain, hloop⟩ := decodeTurn_four miss h.inside hmore
    obtain rfl := Turn.again.inj (hturn.symm.trans hagain)
    have hsub : (t.datalen - 4).toNat = t.datalen.toNat - 4 :=
      UInt64.toNat_sub_of_le _ _ (UInt64.le_iff_toNat_le.mpr hmore)
    have hinside := h.inside
    have hremainder := h.remainder
    refine ⟨⟨?_, ?_, h.neverBelow, hloop.symm.trans h.result⟩, ?_⟩
    · simp only [hsub, List.length_drop]
      omega
    · simp only [hsub]
      omega
    · simp only [hsub]
      omega
  · cases hturn.symm.trans (decodeTurn_done miss (by omega))

/-- The loop ends, and what it leaves is what the loop over natural numbers leaves. -/
theorem exists_yields (hin : s.datalen.toNat ≤ s.cptr.length) (hbelow : s.below = false) :
    ∃ t, Yields (decodeTurn miss) s (.ok t) ∧ AtHead miss s t ∧ t.datalen.toNat ≤ 3 := by
  have hresult : ∃ r, Yields (decodeTurn miss) s r ∧
      ∃ t, r = .ok t ∧ AtHead miss s t ∧ t.datalen.toNat ≤ 3 := by
    refine yields_of_invariant (I := AtHead miss s) (fun t => t.datalen.toNat)
      (fun t u ht hturn => ht.again hturn) (fun t r ht hturn => ?_) ⟨hin, rfl, hbelow, rfl⟩
    by_cases hmore : 3 < t.datalen.toNat
    · obtain ⟨bytes, hagain, -⟩ := decodeTurn_four miss ht.inside hmore
      cases hturn.symm.trans hagain
    · have hfew := Nat.le_of_not_lt hmore
      obtain rfl := Turn.done.inj (hturn.symm.trans (decodeTurn_done miss hfew))
      exact ⟨t, rfl, ht, hfew⟩
  obtain ⟨r, hyields, t, rfl, hhead, hfew⟩ := hresult
  exact ⟨t, hyields, hhead, hfew⟩

theorem finish_eq {s t : Decoding} (h : AtHead miss s t) (hfew : t.datalen.toNat ≤ 3) :
    finish miss t = decodeBody miss s.datalen.toNat s.cptr s.buf := by
  have hleft : decodeLoop miss t.datalen.toNat t.cptr t.buf =
      .ok (t.datalen.toNat, t.cptr, t.buf) := by
    generalize t.datalen.toNat = n at hfew
    match n, hfew with
    | 0, _ | 1, _ | 2, _ | 3, _ => rfl
  rw [decodeBody, ← h.result, hleft]
  rfl

end Loop

section Call

variable {w : List UInt8} {datalen : UInt64}

/-- The n-th character from the end. -/
theorem readAt_back (rest : List UInt8) (hdatalen : datalen.toNat = w.length) {n : UInt64}
    (hle : n ≤ datalen) (hlt : w.length - n.toNat < w.length) :
    readAt (w ++ rest) ((datalen - n).toNat : ℤ) = .ok w[w.length - n.toNat] := by
  have hindex : (datalen - n).toNat = w.length - n.toNat := by
    rw [UInt64.toNat_sub_of_le _ _ hle, hdatalen]
  rw [hindex, readAt_within w rest hlt]

/-- What the two comparisons take off. -/
theorem toNat_sub_pad (h₁ : w.length - 1 < w.length) (h₂ : w.length - 2 < w.length) :
    (if w[w.length - 2] = pad then (if w[w.length - 1] = pad then 1 else 0) + 1
      else if w[w.length - 1] = pad then 1 else 0 : UInt64).toNat = stripCount w := by
  simp only [stripCount, List.getElem?_eq_getElem h₁, List.getElem?_eq_getElem h₂,
    Option.some.injEq]
  split_ifs <;> rfl

/-- There are at least four characters, so the last two are read and at most two taken off. -/
theorem exists_beginDecode (rest buf : List UInt8) (hw : w ≠ []) (hlen : w.length % 4 = 0)
    (hdatalen : datalen.toNat = w.length) :
    ∃ length : UInt64, beginDecode (w ++ rest) datalen buf = .ok ⟨length, w ++ rest, buf, false⟩ ∧
      length.toNat = w.length - stripCount w := by
  have hpos : 0 < w.length := List.length_pos_iff.mpr hw
  have hlong : 2 ≤ w.length := by omega
  have hstrip := stripCount_le w
  have hlt₁ : w.length - 1 < w.length := by omega
  have hlt₂ : w.length - 2 < w.length := by omega
  have hsub := toNat_sub_pad hlt₁ hlt₂
  generalize hcount : (if w[w.length - 2] = pad then (if w[w.length - 1] = pad then 1 else 0) + 1
    else if w[w.length - 1] = pad then 1 else 0 : UInt64) = count at hsub
  have hone : (1 : UInt64) ≤ datalen := UInt64.le_iff_toNat_le.mpr (by
    rw [hdatalen]
    exact hpos)
  have htwo : (2 : UInt64) ≤ datalen := UInt64.le_iff_toNat_le.mpr (by
    rw [hdatalen]
    exact hlong)
  have hcountle : count ≤ datalen := UInt64.le_iff_toNat_le.mpr (by omega)
  have hmultiple : datalen % 4 = 0 := by
    rw [← UInt64.toNat_inj, UInt64.toNat_mod, hdatalen]
    exact hlen
  have hlast : readAt (w ++ rest) ((datalen - 1).toNat : ℤ) = .ok w[w.length - 1] :=
    readAt_back rest hdatalen hone hlt₁
  have hprev : readAt (w ++ rest) ((datalen - 2).toNat : ℤ) = .ok w[w.length - 2] :=
    readAt_back rest hdatalen htwo hlt₂
  refine ⟨datalen - count, ?_, ?_⟩
  · simp only [beginDecode, hmultiple, ne_eq, not_true_eq_false, if_false, minus_eq hone,
      minus_eq htwo, hlast, hprev, bind, Except.bind, hcount, minus_eq hcountle, Bool.or_false]
  · rw [UInt64.toNat_sub_of_le _ _ hcountle, hdatalen, hsub]

theorem LeavesLoop.unique {miss : UInt8} {data : Block} {buf : List UInt8} {t u : Decoding}
    (ht : LeavesLoop miss data datalen buf t) (hu : LeavesLoop miss data datalen buf u) :
    t = u := by
  obtain ⟨s, hs, hyields⟩ := ht
  obtain ⟨s', hs', hyields'⟩ := hu
  obtain rfl := Except.ok.inj (hs.symm.trans hs')
  exact Except.ok.inj (hyields.unique hyields')

end Call

/-- What holds behind the loop: the `switch` has a case for the length, and appends what the
length of the input promises. -/
structure DecodesAll (miss : UInt8) (w rest buf : List UInt8) (t : Decoding) : Prop where
  remainder : t.datalen = 0 ∨ t.datalen = 2 ∨ t.datalen = 3
  neverBelow : t.below = false
  appends : ∃ out, finish miss t = .ok (buf ++ out) ∧
    decodeInto miss (w ++ rest) w.length buf = .ok (buf ++ out) ∧
    out.length + stripCount w = 3 * (w.length / 4)

theorem exists_leavesLoop (miss : UInt8) {w : List UInt8} {datalen : UInt64}
    (rest buf : List UInt8) (hw : w ≠ []) (hlen : w.length % 4 = 0)
    (hdatalen : datalen.toNat = w.length) :
    ∃ t, LeavesLoop miss (w ++ rest) datalen buf t ∧ DecodesAll miss w rest buf t := by
  obtain ⟨length, hbegin, hlength⟩ := exists_beginDecode rest buf hw hlen hdatalen
  have hstrip := stripCount_le w
  have hinside : length.toNat ≤ (w ++ rest).length := by
    rw [List.length_append]
    omega
  obtain ⟨t, hyields, hhead, hfew⟩ := exists_yields miss (s := ⟨length, w ++ rest, buf, false⟩)
    hinside rfl
  refine ⟨t, ⟨_, hbegin, hyields⟩, ?_, hhead.neverBelow, decoded miss (stripped w), ?_,
    decodeInto_eq miss w rest buf hw hlen, length_decoded_stripped w hw hlen⟩
  · -- a multiple of 4 less 0, 1 or 2
    have hpos : 0 < w.length := List.length_pos_iff.mpr hw
    have hremainder := hhead.remainder
    simp only [hlength] at hremainder
    simp only [← UInt64.toNat_inj]
    have hcases : t.datalen.toNat = 0 ∨ t.datalen.toNat = 2 ∨ t.datalen.toNat = 3 := by omega
    exact hcases
  · rw [finish_eq miss hhead hfew]
    simp only [hlength]
    exact decodeBody_stripped miss w rest buf hw hlen

/-- Every input of whole groups is decoded, whatever its characters are. -/
theorem decodesAll (miss : UInt8) (w rest buf : List UInt8) (datalen : UInt64) (hw : w ≠ [])
    (hlen : w.length % 4 = 0) (hdatalen : datalen.toNat = w.length) :
    (∃ t, LeavesLoop miss (w ++ rest) datalen buf t) ∧
      ∀ t, LeavesLoop miss (w ++ rest) datalen buf t → DecodesAll miss w rest buf t := by
  obtain ⟨t, hleaves, hall⟩ := exists_leavesLoop miss rest buf hw hlen hdatalen
  refine ⟨⟨t, hleaves⟩, fun u hu => ?_⟩
  rwa [hu.unique hleaves]

/-- Padding in the middle and at the end. -/
theorem decodesAll_padded : ∃ t, LeavesLoop 7 [61, 61, 61, 61, 65, 61, 61, 61] 8 [] t ∧
    DecodesAll 7 [61, 61, 61, 61, 65, 61, 61, 61] [] [] t := by
  obtain ⟨⟨t, ht⟩, hall⟩ := decodesAll 7 [61, 61, 61, 61, 65, 61, 61, 61] [] [] 8 (by simp) rfl rfl
  exact ⟨t, ht, hall t ht⟩

end BoxUtils.Base64
