import BoxUtils.Base64Decoding

/-!
Coding in chunks. A chunk that ends on a group boundary leaves nothing behind
in the loop, so coding two chunks one after the other into one string is coding
them together. For the encoder the byte behind the last chunk counts, because
a last group of one byte reads it.
-/
namespace BoxUtils.Base64

section Encoding

/-- The encoder on the bytes y, with the memory r behind them. -/
theorem encodeInto_memory (y r buf : List UInt8) :
    encodeInto (y ++ r) y.length buf =
      if y.length % 3 = 1 ∧ r = [] then .error .outOfBounds
      else .ok (buf ++ encoded y (r.headD 0)) := by
  cases r with
  | cons f r =>
    have hmem : ¬ (y.length % 3 = 1 ∧ f :: r = []) := fun h => List.cons_ne_nil f r h.2
    rw [if_neg hmem, encodeInto_eq y f r buf]
    rfl
  | nil =>
    rw [List.append_nil]
    induction y using threes_induction generalizing buf with
    | nil => simp [encodeInto, encodeLoop, encodeTail, encoded, bind, Except.bind]
    | one a => rfl
    | two a b =>
      simp [encodeInto, encodeLoop, encodeTail, encoded, bind, Except.bind, readAt,
        shiftRight_two, symbol_one, symbol_two_last]
    | three a b c y ih =>
      have hlen : (a :: b :: c :: y).length % 3 = y.length % 3 := by
        simp only [List.length_cons]
        omega
      rw [hlen, List.length_cons, List.length_cons, List.length_cons, encodeInto_three, ih]
      simp only [encoded, List.append_assoc, List.cons_append, List.nil_append]

theorem encoded_append (x y : List UInt8) (f g : UInt8) (hx : x.length % 3 = 0) :
    encoded (x ++ y) f = encoded x g ++ encoded y f := by
  induction x using threes_induction with
  | nil => rfl
  | one a => exact absurd hx (by simp)
  | two a b => exact absurd hx (by simp)
  | three a b c x ih =>
    have hlen : x.length % 3 = 0 := by
      simp only [List.length_cons] at hx
      omega
    simp only [List.cons_append, encoded, ih hlen]

/-- Encoding y behind an x of whole groups appends to the same string. -/
theorem encodeInto_append (x y before behind : List UInt8) (buf : List UInt8)
    (hx : x.length % 3 = 0) :
    encodeInto (x ++ y ++ behind) (x ++ y).length buf = (do
      let buf ← encodeInto (x ++ before) x.length buf
      encodeInto (y ++ behind) y.length buf) := by
  have hfirst : ¬ (x.length % 3 = 1 ∧ before = []) := by omega
  have hlen : (x ++ y).length % 3 = y.length % 3 := by
    rw [List.length_append]
    omega
  rw [encodeInto_memory, encodeInto_memory, if_neg hfirst, hlen,
    encoded_append x y _ (before.headD 0) hx, ← List.append_assoc]
  exact (encodeInto_memory y behind _).symm

/-- Only the first byte behind the input counts. -/
theorem encode_congr (y : List UInt8) {r s : List UInt8} (h : r.head? = s.head?) :
    encode (y ++ r) y.length = encode (y ++ s) y.length := by
  have hnil : r = [] ↔ s = [] := by
    rw [← List.head?_eq_none_iff, h, List.head?_eq_none_iff]
  have hhead : r.headD 0 = s.headD 0 := by
    rw [List.headD_eq_head?_getD, h, List.headD_eq_head?_getD]
  simp only [encode, encodeInto_memory, hnil, hhead]

theorem encodeInto_eq_encode (y r buf : List UInt8) :
    encodeInto (y ++ r) y.length buf = (encode (y ++ r) y.length).map (buf ++ ·) := by
  rw [encode, encodeInto_memory, encodeInto_memory]
  split_ifs <;> simp [Except.map]

theorem encode_append (x y before behind after : List UInt8) (hx : x.length % 3 = 0)
    (hafter : behind.head? = after.head?) :
    encode (x ++ y ++ after) (x ++ y).length = (do
      let first ← encode (x ++ before) x.length
      let second ← encode (y ++ behind) y.length
      .ok (first ++ second)) := by
  have hchunks := encodeInto_append x y before after [] hx
  simp only [encodeInto_eq_encode y after, encode_congr y hafter.symm] at hchunks
  rw [encode, hchunks]
  rfl

end Encoding

section Decoding

variable (miss : UInt8)

theorem decoded_append (u v : List UInt8) (hu : u.length % 4 = 0) :
    decoded miss (u ++ v) = decoded miss u ++ decoded miss v := by
  induction u using fours_induction with
  | nil => rfl
  | one s0 => exact absurd hu (by simp)
  | two s0 s1 => exact absurd hu (by simp)
  | three s0 s1 s2 => exact absurd hu (by simp)
  | four s0 s1 s2 s3 u ih =>
    have hlen : u.length % 4 = 0 := by
      simp only [List.length_cons] at hu
      omega
    simp only [List.cons_append, decoded, ih hlen]

/-- Padding is judged at the very end only. -/
theorem stripped_append (u v : List UInt8) (hv : 2 ≤ v.length) :
    stripped (u ++ v) = u ++ stripped v := by
  have hone : (u ++ v)[(u ++ v).length - 1]? = v[v.length - 1]? := by
    rw [List.length_append, List.getElem?_append_right (by omega)]
    congr 1
    omega
  have htwo : (u ++ v)[(u ++ v).length - 2]? = v[v.length - 2]? := by
    rw [List.length_append, List.getElem?_append_right (by omega)]
    congr 1
    omega
  have hcount : stripCount (u ++ v) = stripCount v := by
    rw [stripCount, hone, htwo, stripCount]
  have hle := stripCount_le v
  have hlen : (u ++ v).length - stripCount v = u.length + (v.length - stripCount v) := by
    rw [List.length_append]
    omega
  rw [stripped, hcount, hlen, List.take_length_add_append, stripped]

theorem stripped_eq_self {u : List UInt8} (hlast : u[u.length - 1]? ≠ some pad)
    (hprev : u[u.length - 2]? ≠ some pad) : stripped u = u := by
  rw [stripped, stripCount, if_neg hlast, if_neg hprev]
  exact List.take_length

/-- Decoding v behind a u of whole groups appends to the same string. -/
theorem decodeInto_append (u v before behind after buf : List UInt8) (hu : u ≠ []) (hv : v ≠ [])
    (hulen : u.length % 4 = 0) (hvlen : v.length % 4 = 0)
    (hlast : u[u.length - 1]? ≠ some pad) (hprev : u[u.length - 2]? ≠ some pad) :
    decodeInto miss (u ++ v ++ after) (u ++ v).length buf = (do
      let buf ← decodeInto miss (u ++ before) u.length buf
      decodeInto miss (v ++ behind) v.length buf) := by
  have hpos : 0 < v.length := List.length_pos_iff.mpr hv
  have hboth : (u ++ v).length % 4 = 0 := by
    rw [List.length_append]
    omega
  have hne : u ++ v ≠ [] := List.append_ne_nil_of_left_ne_nil hu v
  rw [decodeInto_eq miss (u ++ v) after buf hne hboth, decodeInto_eq miss u before buf hu hulen,
    stripped_append u v (by omega), decoded_append miss u _ hulen, stripped_eq_self hlast hprev,
    ← List.append_assoc]
  exact (decodeInto_eq miss v behind _ hv hvlen).symm

theorem decode_append (u v before behind after : List UInt8) (hu : u ≠ []) (hv : v ≠ [])
    (hulen : u.length % 4 = 0) (hvlen : v.length % 4 = 0)
    (hlast : u[u.length - 1]? ≠ some pad) (hprev : u[u.length - 2]? ≠ some pad) :
    decode miss (u ++ v ++ after) (u ++ v).length = (do
      let first ← decode miss (u ++ before) u.length
      let second ← decode miss (v ++ behind) v.length
      .ok (first ++ second)) := by
  rw [decode, decodeInto_append miss u v before behind after [] hu hv hulen hvlen hlast hprev,
    decode, decode, decodeInto_eq miss u before [] hu hulen,
    decodeInto_eq miss v behind [] hv hvlen]
  exact decodeInto_eq miss v behind _ hv hvlen

end Decoding

/-- Both directions of the coder work on chunks: three bytes make a whole group
for the encoder, four characters without padding one for the decoder. -/
theorem coding_in_chunks :
    (∀ x y before behind after : List UInt8, x.length % 3 = 0 → behind.head? = after.head? →
      encode (x ++ y ++ after) (x ++ y).length = do
        let first ← encode (x ++ before) x.length
        let second ← encode (y ++ behind) y.length
        .ok (first ++ second)) ∧
    (∀ (miss : UInt8) (u v before behind after : List UInt8), u ≠ [] → v ≠ [] →
      u.length % 4 = 0 → v.length % 4 = 0 →
      u[u.length - 1]? ≠ some pad → u[u.length - 2]? ≠ some pad →
      decode miss (u ++ v ++ after) (u ++ v).length = do
        let first ← decode miss (u ++ before) u.length
        let second ← decode miss (v ++ behind) v.length
        .ok (first ++ second)) := by
  constructor
  · intro x y before behind after hx hafter
    exact encode_append x y before behind after hx hafter
  · intro miss u v before behind after hu hv hulen hvlen hlast hprev
    exact decode_append miss u v before behind after hu hv hulen hvlen hlast hprev

/-- `Man` and then `y`, and `TWFu` followed by four characters that are no
Base64. -/
theorem coding_in_chunks_letters :
    encode [77, 97, 110, 121, 0] 4 = .ok [84, 87, 70, 117, 101, 65, 61, 61] ∧
      decode 7 [84, 87, 70, 117, 42, 42, 42, 42] 8 =
        (decode 7 [42, 42, 42, 42] 4).map ([77, 97, 110] ++ ·) := by
  have h := coding_in_chunks
  constructor
  · exact h.1 [77, 97, 110] [121] [] [0] [0] rfl rfl
  · exact h.2 7 [84, 87, 70, 117] [42, 42, 42, 42] [] [] [] (by simp) (by simp) rfl rfl
      (by decide) (by decide)

end BoxUtils.Base64
