import BoxUtils.CJson

/-!
The coding of URLs in net/easy.cpp. Escaping and unescaping call the same
function of curl, which is a parameter here: the one that replaces every byte
outside the unreserved set by its percent escape.
-/
namespace BoxUtils.EscapeUrl

open CJson

inductive Error where
  | nullPtrException
  deriving DecidableEq, Repr

section Source

-- the C string `curl_easy_escape` returns, none for a null pointer
variable (curlEasyEscape : Text → Option Text)

/-- The body that both functions share: the result of curl is copied into a
`std::string` and freed. -/
def convertUrl (curl : Text → Option Text) (url : Text) : Except Error Text :=
  match curl url with
  | none => .error .nullPtrException
  | some s => .ok s

/-- `Easy::escape_url`. -/
def escapeUrl (url : Text) : Except Error Text := convertUrl curlEasyEscape url

/-- `Easy::unescape_url`; the comment says "decode", the call is the same one. -/
def unescapeUrl (url : Text) : Except Error Text := convertUrl curlEasyEscape url

end Source

section PercentEncoding

/-- Letters, digits and `-`, `.`, `_`, `~`. -/
def Unreserved (c : UInt8) : Prop :=
  0x41 ≤ c ∧ c ≤ 0x5a ∨ 0x61 ≤ c ∧ c ≤ 0x7a ∨ 0x30 ≤ c ∧ c ≤ 0x39 ∨
    c = 0x2d ∨ c = 0x2e ∨ c = 0x5f ∨ c = 0x7e

instance (c : UInt8) : Decidable (Unreserved c) := by
  unfold Unreserved
  infer_instance

/-- The digits of percent escapes, in upper case. -/
def hexDigit (n : UInt8) : UInt8 := if n < 10 then 0x30 + n else 0x41 + (n - 10)

def escapeByte (c : UInt8) : List UInt8 :=
  if Unreserved c then [c] else [0x25, hexDigit (c / 16), hexDigit (c % 16)]

theorem zero_reserved : ¬ Unreserved 0 := by decide

theorem hexDigit_ne_zero : ∀ n < 16, hexDigit n ≠ 0 := by
  intro n hn hzero
  have hbound : n.toNat < 16 := hn
  have hval := congrArg UInt8.toNat hzero
  simp only [hexDigit] at hval
  split_ifs at hval with hten
  · have hlt : n.toNat < 10 := hten
    have hsum : (0x30 + n).toNat = (48 + n.toNat) % 256 := UInt8.toNat_add 0x30 n
    rw [hsum] at hval
    change (48 + n.toNat) % 256 = 0 at hval
    omega
  · have hge : 10 ≤ n := UInt8.not_lt.mp hten
    have hdiff : (n - 10).toNat = n.toNat - 10 := UInt8.toNat_sub_of_le n 10 hge
    have hsum : (0x41 + (n - 10)).toNat = (65 + (n - 10).toNat) % 256 := UInt8.toNat_add 0x41 _
    rw [hsum, hdiff] at hval
    change (65 + (n.toNat - 10)) % 256 = 0 at hval
    omega

theorem escapeByte_ne_zero (c : UInt8) : 0 ∉ escapeByte c := by
  have hdiv : c / 16 < 16 := by
    have hc := c.toNat_lt
    have hval : (c / 16).toNat = c.toNat / 16 := UInt8.toNat_div c 16
    rw [UInt8.lt_iff_toNat_lt, hval]
    change c.toNat / 16 < 16
    omega
  have hmod : c % 16 < 16 := by
    have hval : (c % 16).toNat = c.toNat % 16 := UInt8.toNat_mod c 16
    rw [UInt8.lt_iff_toNat_lt, hval]
    change c.toNat % 16 < 16
    omega
  rw [escapeByte]
  split_ifs with hfree
  · intro hmem
    have hzero : (0 : UInt8) = c := List.mem_singleton.mp hmem
    rw [← hzero] at hfree
    exact zero_reserved hfree
  · simp [(hexDigit_ne_zero _ hdiv).symm, (hexDigit_ne_zero _ hmod).symm]

/-- Every byte outside the unreserved set is replaced by its percent escape. -/
def percentEscape (url : Text) : Text :=
  ⟨url.1.flatMap escapeByte, fun h =>
    have ⟨c, _, hc⟩ := List.mem_flatMap.mp h
    escapeByte_ne_zero c hc⟩

theorem flatMap_escapeByte_of_unreserved {u : List UInt8} (h : ∀ c ∈ u, Unreserved c) :
    u.flatMap escapeByte = u := by
  induction u with
  | nil => rfl
  | cons c u ih =>
    have hc : escapeByte c = [c] := if_pos (h c List.mem_cons_self)
    rw [List.flatMap_cons, hc, ih fun d hd => h d (List.mem_cons_of_mem c hd)]
    rfl

/-- Escaping keeps the length only where nothing is replaced. -/
theorem length_le_flatMap_escapeByte (u : List UInt8) :
    u.length ≤ (u.flatMap escapeByte).length ∧
      ((u.flatMap escapeByte).length = u.length → ∀ c ∈ u, Unreserved c) := by
  induction u with
  | nil => simp
  | cons c u ih =>
    obtain ⟨hle, heq⟩ := ih
    rw [List.flatMap_cons, List.length_append, List.length_cons]
    by_cases hc : Unreserved c
    · have hlen : (escapeByte c).length = 1 := by rw [escapeByte, if_pos hc, List.length_singleton]
      rw [hlen]
      constructor
      · omega
      · intro hsame d hd
        rcases List.mem_cons.mp hd with hdc | hmem
        · rw [hdc]
          exact hc
        · exact heq (by omega) d hmem
    · have hlen : (escapeByte c).length = 3 := by
        rw [escapeByte, if_neg hc]
        rfl
      rw [hlen]
      constructor
      · omega
      · intro hsame
        omega

end PercentEncoding

/-- Unescaping gives back what was escaped exactly where there was nothing to escape. -/
theorem unescapeUrl_escapeUrl_iff {curlEasyEscape : Text → Option Text}
    (hescape : ∀ url, curlEasyEscape url = some (percentEscape url)) (u : Text) :
    (escapeUrl curlEasyEscape u >>= unescapeUrl curlEasyEscape) = .ok u ↔
      ∀ c ∈ u.1, Unreserved c := by
  have hboth : (escapeUrl curlEasyEscape u >>= unescapeUrl curlEasyEscape) =
      .ok (percentEscape (percentEscape u)) := by
    simp only [escapeUrl, unescapeUrl, convertUrl, hescape, bind, Except.bind]
  rw [hboth]
  constructor
  · intro h
    have htwice : ((u.1.flatMap escapeByte).flatMap escapeByte) = u.1 :=
      congrArg Subtype.val (Except.ok.inj h)
    have hfirst := length_le_flatMap_escapeByte u.1
    have hsecond := length_le_flatMap_escapeByte (u.1.flatMap escapeByte)
    rw [htwice] at hsecond
    exact hfirst.2 (Nat.le_antisymm hsecond.1 hfirst.1)
  · intro h
    have honce : percentEscape u = u := Subtype.ext (flatMap_escapeByte_of_unreserved h)
    rw [honce, honce]

/-- "a-b" contains unreserved bytes only. -/
theorem unescapeUrl_escapeUrl_letters :
    let curlEasyEscape := fun url => some (percentEscape url)
    let u : Text := ⟨[97, 45, 98], by decide⟩
    (escapeUrl curlEasyEscape u >>= unescapeUrl curlEasyEscape) = .ok u :=
  (unescapeUrl_escapeUrl_iff (fun _ => rfl) _).mpr (by simp [Unreserved])

/-- "a b" is escaped twice. -/
theorem unescapeUrl_escapes_space :
    ¬ ∀ u : Text, (escapeUrl (fun url => some (percentEscape url)) u >>=
      unescapeUrl (fun url => some (percentEscape url))) = .ok u := by
  intro h
  have hspace := congrArg (Except.map Subtype.val) (h ⟨[97, 32, 98], by decide⟩)
  exact absurd hspace (by decide)

end BoxUtils.EscapeUrl
