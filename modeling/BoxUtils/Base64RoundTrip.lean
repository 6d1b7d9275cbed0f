import BoxUtils.Base64
import Mathlib.Data.List.Basic
import Mathlib.Data.Nat.Bitwise
import Mathlib.Tactic.Ring

/-!
Decoding what the encoder wrote. Both directions are put into closed form over
groups of three bytes: `encoded x f` is what `Encode` writes for the bytes x
when the byte f follows them in memory, and `patched x f` is what `Decode`
gets back from it. The two differ from a round trip only for a last group of
one byte, whose low bits come from f instead of from x.
-/
namespace BoxUtils.Base64

section Bits

theorem shiftLeft_or (x y n : ℕ) (hy : y < 2 ^ n) : x <<< n ||| y = x * 2 ^ n + y := by
  rw [← Nat.shiftLeft_add_eq_or_of_lt hy, Nat.shiftLeft_eq]

theorem and_low_six (x : ℕ) : x &&& 0x3f = x % 64 := Nat.and_two_pow_sub_one_eq_mod x 6

theorem and_low_four (x : ℕ) : x &&& 0x0f = x % 16 := Nat.and_two_pow_sub_one_eq_mod x 4

theorem shiftRight_two (x : ℕ) : x >>> 2 = x / 4 := Nat.shiftRight_eq_div_pow x 2

theorem symbol_one (a b : UInt8) :
    (a.toNat <<< 4 ||| b.toNat >>> 4) &&& 0x3f = a.toNat % 4 * 16 + b.toNat / 16 := by
  have hb : b.toNat / 16 < 2 ^ 4 := by
    have := b.toNat_lt
    omega
  rw [and_low_six, Nat.shiftRight_eq_div_pow, shiftLeft_or _ _ _ hb]
  omega

theorem symbol_two (b c : UInt8) :
    (b.toNat <<< 2 ||| c.toNat >>> 6) &&& 0x3f = b.toNat % 16 * 4 + c.toNat / 64 := by
  have hc : c.toNat / 64 < 2 ^ 2 := by
    have := c.toNat_lt
    omega
  rw [and_low_six, Nat.shiftRight_eq_div_pow, shiftLeft_or _ _ _ hc]
  omega

theorem symbol_two_last (b : UInt8) : (b.toNat &&& 0x0f) <<< 2 = b.toNat % 16 * 4 := by
  rw [and_low_four, Nat.shiftLeft_eq]

theorem symbol_one_last (f : UInt8) : (f.toNat <<< 4) &&& 0x3f = f.toNat % 4 * 16 := by
  rw [and_low_six, Nat.shiftLeft_eq]
  omega

/-- Distinct symbols of the alphabet are found at their own index. -/
theorem idxOf_table : ∀ i < 64, (Table ++ [0]).idxOf? (table i) = some i := by decide

theorem table_ne_pad : ∀ i < 64, table i ≠ pad := by decide

theorem table_ne_zero : ∀ i < 64, table i ≠ 0 := by decide

theorem queryTable_table (miss : UInt8) {i : ℕ} (hi : i < 64) :
    (queryTable miss (table i)).toNat = i := by
  simp only [queryTable, idxOf_table i hi, UInt8.toNat_ofNat']
  omega

end Bits

section ClosedForms

/-- What the encoder writes when the byte f follows the input in memory. -/
def encoded : List UInt8 → UInt8 → List UInt8
  | a :: b :: c :: rest, f =>
    table (a.toNat / 4) :: table (a.toNat % 4 * 16 + b.toNat / 16) ::
      table (b.toNat % 16 * 4 + c.toNat / 64) :: table (c.toNat % 64) :: encoded rest f
  | [a, b], _ =>
    [table (a.toNat / 4), table (a.toNat % 4 * 16 + b.toNat / 16), table (b.toNat % 16 * 4), pad]
  | [a], f => [table (a.toNat / 4), table (f.toNat % 4 * 16), pad, pad]
  | [], _ => []

/-- What the decoder recovers from `encoded x f`. -/
def patched : List UInt8 → UInt8 → List UInt8
  | a :: b :: c :: rest, f => a :: b :: c :: patched rest f
  | [a, b], _ => [a, b]
  | [a], f => [UInt8.ofNat (a.toNat / 4 * 4 + f.toNat % 4)]
  | [], _ => []

/-- The number of padding characters of an encoding. -/
def padding (x : List UInt8) : ℕ := (3 - x.length % 3) % 3

@[elab_as_elim]
theorem threes_induction {α : Type*} {P : List α → Prop} (nil : P [])
    (one : ∀ a, P [a]) (two : ∀ a b, P [a, b])
    (three : ∀ a b c rest, P rest → P (a :: b :: c :: rest)) : ∀ x, P x
  | [] => nil
  | [a] => one a
  | [a, b] => two a b
  | a :: b :: c :: rest => three a b c rest (threes_induction nil one two three rest)

theorem padding_three (a b c : UInt8) (rest : List UInt8) :
    padding (a :: b :: c :: rest) = padding rest := by
  simp only [padding, List.length_cons]
  omega

theorem padding_le (x : List UInt8) (f : UInt8) : padding x ≤ (encoded x f).length := by
  induction x using threes_induction with
  | nil => simp [padding, encoded]
  | one a => simp [padding, encoded]
  | two a b => simp [padding, encoded]
  | three a b c rest ih =>
    rw [padding_three]
    simp only [encoded, List.length_cons]
    omega

theorem encoded_length (x : List UInt8) (f : UInt8) : (encoded x f).length % 4 = 0 := by
  induction x using threes_induction with
  | nil => rfl
  | one a => simp [encoded]
  | two a b => simp [encoded]
  | three a b c rest ih =>
    simp only [encoded, List.length_cons]
    omega

theorem patched_length (x : List UInt8) (f : UInt8) : (patched x f).length = x.length := by
  induction x using threes_induction with
  | nil => rfl
  | one a => rfl
  | two a b => rfl
  | three a b c rest ih => simp [patched, ih]

/-- No character of an encoding is NUL, so `strlen` measures all of it. -/
theorem encoded_ne_zero (x : List UInt8) (f : UInt8) : ∀ s ∈ encoded x f, s ≠ 0 := by
  have hpad : pad ≠ 0 := by decide
  have hbyte : ∀ a : UInt8, a.toNat < 256 := fun a => a.toNat_lt
  induction x using threes_induction with
  | nil => simp [encoded]
  | one a =>
    have h0 := table_ne_zero (a.toNat / 4) (by have := hbyte a; omega)
    have h1 := table_ne_zero (f.toNat % 4 * 16) (by omega)
    simp [encoded, h0, h1, hpad]
  | two a b =>
    have h0 := table_ne_zero (a.toNat / 4) (by have := hbyte a; omega)
    have h1 := table_ne_zero (a.toNat % 4 * 16 + b.toNat / 16) (by have := hbyte b; omega)
    have h2 := table_ne_zero (b.toNat % 16 * 4) (by omega)
    simp [encoded, h0, h1, h2, hpad]
  | three a b c rest ih =>
    have h0 := table_ne_zero (a.toNat / 4) (by have := hbyte a; omega)
    have h1 := table_ne_zero (a.toNat % 4 * 16 + b.toNat / 16) (by have := hbyte b; omega)
    have h2 := table_ne_zero (b.toNat % 16 * 4 + c.toNat / 64) (by have := hbyte c; omega)
    have h3 := table_ne_zero (c.toNat % 64) (by omega)
    simpa [encoded, h0, h1, h2, h3] using ih

/-- The last two characters of an encoding count its padding. -/
theorem encoded_last_two (x : List UInt8) (f : UInt8) (hx : x ≠ []) :
    ∃ front u v, encoded x f = front ++ [u, v] ∧
      (if u = pad then (if v = pad then 1 else 0) + 1 else if v = pad then 1 else 0) =
        padding x := by
  induction x using threes_induction with
  | nil => exact absurd rfl hx
  | one a => exact ⟨[_, _], pad, pad, rfl, by simp [padding]⟩
  | two a b =>
    have hb : table (b.toNat % 16 * 4) ≠ pad := table_ne_pad _ (by omega)
    exact ⟨[_, _], table (b.toNat % 16 * 4), pad, rfl, by simp [hb, padding]⟩
  | three a b c rest ih =>
    rw [padding_three]
    by_cases hrest : rest = []
    · subst rest
      have hc := c.toNat_lt
      have h2 := table_ne_pad (b.toNat % 16 * 4 + c.toNat / 64) (by omega)
      have h3 := table_ne_pad (c.toNat % 64) (by omega)
      exact ⟨[_, _], _, _, rfl, by simp [h2, h3, padding]⟩
    · obtain ⟨front, u, v, heq, hpad⟩ := ih hrest
      exact ⟨_ :: _ :: _ :: _ :: front, u, v, by rw [encoded, heq]; rfl, hpad⟩

end ClosedForms

section Encoder

/-- One turn of the loop. -/
theorem encodeInto_three (a b c : UInt8) (n : ℕ) (p buf : List UInt8) :
    encodeInto (a :: b :: c :: p) (n + 3) buf =
      encodeInto p n (buf ++
        [table (a.toNat / 4), table (a.toNat % 4 * 16 + b.toNat / 16),
          table (b.toNat % 16 * 4 + c.toNat / 64), table (c.toNat % 64)]) := by
  have hturn : encodeInto (a :: b :: c :: p) (n + 3) buf =
      encodeInto p n (buf ++
        [table (a.toNat >>> 2), table ((a.toNat <<< 4 ||| b.toNat >>> 4) &&& 0x3f),
          table ((b.toNat <<< 2 ||| c.toNat >>> 6) &&& 0x3f), table (c.toNat &&& 0x3f)]) := rfl
  rw [hturn, shiftRight_two, symbol_one, symbol_two, and_low_six]

theorem encodeInto_eq (x : List UInt8) (f : UInt8) (rest buf : List UInt8) :
    encodeInto (x ++ f :: rest) x.length buf = .ok (buf ++ encoded x f) := by
  induction x using threes_induction generalizing buf with
  | nil => simp [encodeInto, encodeLoop, encodeTail, encoded, bind, Except.bind]
  | one a =>
    simp [encodeInto, encodeLoop, encodeTail, encoded, bind, Except.bind, readAt,
      shiftRight_two, symbol_one_last]
  | two a b =>
    simp [encodeInto, encodeLoop, encodeTail, encoded, bind, Except.bind, readAt,
      shiftRight_two, symbol_one, symbol_two_last]
  | three a b c x ih =>
    simp only [List.cons_append, List.length_cons, encodeInto_three, ih, encoded,
      List.append_assoc, List.nil_append]

theorem encode_eq (x : List UInt8) (f : UInt8) (rest : List UInt8) :
    encode (x ++ f :: rest) x.length = .ok (encoded x f) :=
  encodeInto_eq x f rest []

end Encoder

section Decoder

variable (miss : UInt8)

theorem decoded_first (a : UInt8) {j : ℕ} (hj : j < 16) :
    (a.toNat / 4) <<< 2 ||| (a.toNat % 4 * 16 + j) >>> 4 = a.toNat := by
  have hshift : (a.toNat % 4 * 16 + j) / 16 < 2 ^ 2 := by omega
  rw [Nat.shiftRight_eq_div_pow, shiftLeft_or _ _ _ hshift]
  omega

theorem decoded_second (a b : UInt8) {k : ℕ} (hk : k < 4) :
    UInt8.ofNat ((a.toNat % 4 * 16 + b.toNat / 16) <<< 4 ||| (b.toNat % 16 * 4 + k) >>> 2) = b := by
  have hshift : (b.toNat % 16 * 4 + k) / 4 < 2 ^ 4 := by omega
  rw [Nat.shiftRight_eq_div_pow, shiftLeft_or _ _ _ hshift]
  apply UInt8.toNat.inj
  rw [UInt8.toNat_ofNat']
  have := b.toNat_lt
  omega

theorem decoded_third (b c : UInt8) :
    UInt8.ofNat ((b.toNat % 16 * 4 + c.toNat / 64) <<< 6 ||| c.toNat % 64) = c := by
  rw [shiftLeft_or _ _ _ (by omega)]
  apply UInt8.toNat.inj
  rw [UInt8.toNat_ofNat']
  have := c.toNat_lt
  omega

/-- The loop and the final `switch` of the decoder. -/
def decodeBody (datalen : ℕ) (cptr : Block) (buf : List UInt8) : Except Error (List UInt8) := do
  let (rest, cptr, buf) ← decodeLoop miss datalen cptr buf
  decodeTail miss rest cptr buf

/-- One turn of the loop. -/
theorem decodeBody_four (s0 s1 s2 s3 : UInt8) (n : ℕ) (p buf : List UInt8) :
    decodeBody miss (n + 4) (s0 :: s1 :: s2 :: s3 :: p) buf =
      decodeBody miss n p (buf ++
        [UInt8.ofNat ((queryTable miss s0).toNat <<< 2 ||| (queryTable miss s1).toNat >>> 4),
          UInt8.ofNat ((queryTable miss s1).toNat <<< 4 ||| (queryTable miss s2).toNat >>> 2),
          UInt8.ofNat ((queryTable miss s2).toNat <<< 6 ||| (queryTable miss s3).toNat)]) := rfl

theorem decodeBody_encoded (x : List UInt8) (f : UInt8) (rest buf : List UInt8) :
    decodeBody miss ((encoded x f).length - padding x) (encoded x f ++ rest) buf =
      .ok (buf ++ patched x f) := by
  have hbyte : ∀ a : UInt8, a.toNat < 256 := fun a => a.toNat_lt
  induction x using threes_induction generalizing buf with
  | nil => simp [decodeBody, decodeLoop, decodeTail, encoded, patched, padding, bind, Except.bind]
  | one a =>
    have h0 := queryTable_table miss (i := a.toNat / 4) (by have := hbyte a; omega)
    have h1 := queryTable_table miss (i := f.toNat % 4 * 16) (by omega)
    have hshift : f.toNat % 4 * 16 / 16 < 2 ^ 2 := by omega
    have hbits : (a.toNat / 4) <<< 2 ||| (f.toNat % 4 * 16) >>> 4 =
        a.toNat / 4 * 4 + f.toNat % 4 := by
      rw [Nat.shiftRight_eq_div_pow, shiftLeft_or _ _ _ hshift]
      omega
    simp [decodeBody, decodeLoop, decodeTail, encoded, patched, padding, bind, Except.bind,
      readAt, h0, h1, hbits]
  | two a b =>
    have h0 := queryTable_table miss (i := a.toNat / 4) (by have := hbyte a; omega)
    have h1 := queryTable_table miss (i := a.toNat % 4 * 16 + b.toNat / 16)
      (by have := hbyte b; omega)
    have h2 := queryTable_table miss (i := b.toNat % 16 * 4) (by omega)
    have hfirst := decoded_first a (j := b.toNat / 16) (by have := hbyte b; omega)
    have hsecond := decoded_second a b (k := 0) (by omega)
    simp only [Nat.add_zero] at hsecond
    simp [decodeBody, decodeLoop, decodeTail, encoded, patched, padding, bind, Except.bind,
      readAt, h0, h1, h2, hfirst, hsecond]
  | three a b c x ih =>
    have h0 := queryTable_table miss (i := a.toNat / 4) (by have := hbyte a; omega)
    have h1 := queryTable_table miss (i := a.toNat % 4 * 16 + b.toNat / 16)
      (by have := hbyte b; omega)
    have h2 := queryTable_table miss (i := b.toNat % 16 * 4 + c.toNat / 64)
      (by have := hbyte c; omega)
    have h3 := queryTable_table miss (i := c.toNat % 64) (by omega)
    have hfirst := decoded_first a (j := b.toNat / 16) (by have := hbyte b; omega)
    have hsecond := decoded_second a b (k := c.toNat / 64) (by have := hbyte c; omega)
    have hthird := decoded_third b c
    have hlen : (encoded (a :: b :: c :: x) f).length - padding (a :: b :: c :: x) =
        (encoded x f).length - padding x + 4 := by
      have := padding_le x f
      rw [padding_three]
      simp only [encoded, List.length_cons]
      omega
    rw [hlen]
    simp only [encoded, List.cons_append, decodeBody_four, ih, h0, h1, h2, h3, hfirst, hsecond,
      hthird, patched, UInt8.ofNat_toNat, List.append_assoc, List.nil_append]

theorem readAt_append (front : List UInt8) (b : UInt8) (rest : List UInt8) :
    readAt (front ++ b :: rest) front.length = .ok b := by
  simp [readAt]

theorem decodeInto_encoded (x : List UInt8) (f : UInt8) (rest buf : List UInt8) (hx : x ≠ []) :
    decodeInto miss (encoded x f ++ rest) (encoded x f).length buf =
      .ok (buf ++ patched x f) := by
  obtain ⟨front, u, v, heq, hpad⟩ := encoded_last_two x f hx
  have hlen : (encoded x f).length = front.length + 2 := by simp [heq]
  have hlast : readAt (encoded x f ++ rest) (((encoded x f).length : ℤ) - 1) = .ok v := by
    have h := readAt_append (front ++ [u]) v rest
    have hidx : ((encoded x f).length : ℤ) - 1 = ((front ++ [u]).length : ℤ) := by
      simp only [hlen, List.length_append, List.length_cons, List.length_nil]
      omega
    rw [hidx, heq]
    simpa using h
  have hprev : readAt (encoded x f ++ rest) (((encoded x f).length : ℤ) - 2) = .ok u := by
    have h := readAt_append front u (v :: rest)
    have hidx : ((encoded x f).length : ℤ) - 2 = (front.length : ℤ) := by omega
    rw [hidx, heq]
    simpa using h
  have hbody := decodeBody_encoded miss x f rest buf
  simp only [decodeInto, encoded_length, hlast, hprev, bind, Except.bind]
  rw [hpad]
  exact hbody

theorem decode_encoded (x : List UInt8) (f : UInt8) (rest : List UInt8) (hx : x ≠ []) :
    decode miss (encoded x f ++ rest) (encoded x f).length = .ok (patched x f) :=
  decodeInto_encoded miss x f rest [] hx

end Decoder

section RoundTrip

/-- The last byte of a final one-byte group agrees in its two low bits with the
byte after it. For inputs that end in a longer group there is no condition. -/
def TailBitsAgree (x : List UInt8) (f : UInt8) : Prop :=
  x.length % 3 = 1 → ∀ a ∈ x.getLast?, a.toNat % 4 = f.toNat % 4

/-- Encode and decode through the overloads that take a pointer and a length;
the bytes f and rest follow x in memory. -/
def roundTrip (miss : UInt8) (x : List UInt8) (f : UInt8) (rest : List UInt8) :
    Except Error (List UInt8) := do
  let e ← encode (x ++ f :: rest) x.length
  decode miss (e ++ [0]) e.length

/-- Encode and decode through the `std::string` overloads. -/
def roundTripString (miss : UInt8) (x : List UInt8) : Except Error (List UInt8) := do
  decodeString miss (← encodeString x)

theorem patched_eq_iff (x : List UInt8) (f : UInt8) : patched x f = x ↔ TailBitsAgree x f := by
  induction x using threes_induction with
  | nil => simp [patched, TailBitsAgree]
  | one a =>
    have ha := a.toNat_lt
    have hbyte : UInt8.ofNat (a.toNat / 4 * 4 + f.toNat % 4) = a ↔
        a.toNat / 4 * 4 + f.toNat % 4 = a.toNat := by
      rw [← UInt8.toNat_inj, UInt8.toNat_ofNat', Nat.mod_eq_of_lt (by omega)]
    simp only [patched, TailBitsAgree, List.cons.injEq, and_true, hbyte, List.length_singleton,
      Nat.one_mod, List.getLast?_singleton, Option.mem_some_iff, forall_eq', forall_const]
    omega
  | two a b => simp [patched, TailBitsAgree]
  | three a b c rest ih =>
    have hlast : rest.length % 3 = 1 → (a :: b :: c :: rest).getLast? = rest.getLast? := by
      intro hlen
      cases rest with
      | nil => simp at hlen
      | cons d rest => rfl
    have hlen : (a :: b :: c :: rest).length % 3 = rest.length % 3 := by
      simp only [List.length_cons]
      omega
    simp only [patched, List.cons.injEq, true_and, ih, TailBitsAgree, hlen]
    exact forall_congr' fun h => by rw [hlast h]

theorem strlen_append (p rest : List UInt8) (hp : ∀ b ∈ p, b ≠ 0) :
    strlen (p ++ 0 :: rest) = .ok p.length := by
  induction p with
  | nil => rfl
  | cons b p ih =>
    have hb : b ≠ 0 := hp b List.mem_cons_self
    have htail := ih fun c hc => hp c (List.mem_cons_of_mem b hc)
    simp [strlen, hb, htail, Except.map]

theorem encodeString_of_split (p q : List UInt8) (hp : ∀ b ∈ p, b ≠ 0)
    (x : List UInt8) (hx : x ++ [0] = p ++ 0 :: q) : encodeString x = .ok (encoded p 0) := by
  simp only [encodeString, hx, strlen_append p q hp, bind, Except.bind]
  exact encode_eq p 0 q

theorem decodeString_encoded (miss : UInt8) (p : List UInt8) (hp : p ≠ []) :
    decodeString miss (encoded p 0) = .ok (patched p 0) := by
  simp only [decodeString, strlen_append _ [] (encoded_ne_zero p 0), bind, Except.bind]
  exact decode_encoded miss p 0 [0] hp

/-- The first NUL splits off the part that the string overloads encode. -/
theorem exists_nul_split (x : List UInt8) (hx : 0 ∈ x) :
    ∃ p q, x = p ++ 0 :: q ∧ ∀ b ∈ p, b ≠ 0 := by
  obtain ⟨p, q, heq, hp⟩ := List.eq_append_cons_of_mem hx
  exact ⟨p, q, heq, fun b hb hzero => hp (hzero ▸ hb)⟩

/-- With an embedded NUL the string overloads return fewer bytes than they got,
or read before the start of an empty encoding. -/
theorem roundTripString_ne_of_nul (miss : UInt8) (x : List UInt8) (hx : 0 ∈ x) :
    roundTripString miss x ≠ .ok x := by
  obtain ⟨p, q, heq, hp⟩ := exists_nul_split x hx
  have henc : encodeString x = .ok (encoded p 0) :=
    encodeString_of_split p (q ++ [0]) hp x (by simp [heq])
  simp only [roundTripString, henc, bind, Except.bind]
  by_cases hnil : p = []
  · subst p
    intro h
    cases h
  · rw [decodeString_encoded miss p hnil]
    intro h
    have hlen := congrArg List.length (Except.ok.inj h)
    rw [patched_length, heq] at hlen
    simp at hlen

/-- The exact inputs on which decoding undoes encoding, for the overloads with
a length and for the string overloads. -/
theorem roundTrip_iff (miss : UInt8) (x : List UInt8) (f : UInt8) (rest : List UInt8)
    (hx : x ≠ []) :
    (roundTrip miss x f rest = .ok x ↔ TailBitsAgree x f) ∧
      (roundTripString miss x = .ok x ↔ (∀ b ∈ x, b ≠ 0) ∧ TailBitsAgree x 0) := by
  have hok : ∀ y : List UInt8, (Except.ok y : Except Error (List UInt8)) = .ok x ↔ y = x :=
    fun y => ⟨Except.ok.inj, congrArg _⟩
  constructor
  · simp only [roundTrip, encode_eq, bind, Except.bind, decode_encoded miss x f [0] hx, hok,
      patched_eq_iff]
  · by_cases hnul : 0 ∈ x
    · have hne := roundTripString_ne_of_nul miss x hnul
      exact ⟨fun h => absurd h hne, fun h => absurd rfl (h.1 0 hnul)⟩
    · have hfree : ∀ b ∈ x, b ≠ 0 := fun b hb hzero => hnul (hzero ▸ hb)
      have henc := encodeString_of_split x [] hfree x rfl
      simp only [roundTripString, henc, bind, Except.bind, decodeString_encoded miss x hx, hok,
        patched_eq_iff]
      exact ⟨fun h => ⟨hfree, h⟩, fun h => h.2⟩

/-- The three letters of a full group come back through both kinds of overload. -/
theorem roundTrip_full_group :
    roundTrip 7 [77, 97, 110] 65 [] = .ok [77, 97, 110] ∧
      roundTripString 7 [77, 97, 110] = .ok [77, 97, 110] := by
  have h := roundTrip_iff 7 [77, 97, 110] 65 [] (by decide)
  have hgroup : ∀ f, TailBitsAgree [77, 97, 110] f := fun f hlen => absurd hlen (by decide)
  exact ⟨h.1.mpr (hgroup 65), h.2.mpr ⟨by simp, hgroup 0⟩⟩

/-- The single letter `A` followed by a NUL comes back as `@`. -/
theorem roundTrip_loses_tail_bits :
    ¬ ∀ (miss : UInt8) (x : List UInt8), x ≠ [] →
      (∀ f rest, roundTrip miss x f rest = .ok x) ∧ roundTripString miss x = .ok x := by
  intro h
  have hptr := (h 7 [65] (by decide)).1 0 []
  have hgot : roundTrip 7 [65] 0 [] = .ok [64] := rfl
  rw [hgot] at hptr
  exact absurd (Except.ok.inj hptr) (by decide)

end RoundTrip

end BoxUtils.Base64
