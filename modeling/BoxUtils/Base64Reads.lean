import BoxUtils.Base64Chunks

/-!
Which bytes the coder reads. The block of memory has exactly the bytes of the input, so
every read before or behind them fails. The encoder takes the second symbol of a last
group of one byte from the byte behind it, and the decoder looks at the last two
characters before it asks whether there are any.
-/
namespace BoxUtils.Base64

/-- No read lies outside of the block. -/
def ReadsWithin {α : Type*} (result : Except Error α) : Prop := result ≠ .error .outOfBounds

instance {α : Type*} [DecidableEq α] (result : Except Error α) : Decidable (ReadsWithin result) :=
  inferInstanceAs (Decidable (result ≠ _))

theorem readsWithin_ok {α : Type*} (a : α) : ReadsWithin (.ok a) := by
  intro h
  cases h

theorem encodeInto_readsWithin_iff (data buf : List UInt8) :
    ReadsWithin (encodeInto data data.length buf) ↔ data.length % 3 ≠ 1 := by
  have hmemory := encodeInto_memory data [] buf
  rw [List.append_nil] at hmemory
  rw [hmemory]
  by_cases hone : data.length % 3 = 1
  · rw [if_pos ⟨hone, rfl⟩]
    exact ⟨fun h => absurd rfl h, fun h => absurd hone h⟩
  · rw [if_neg (fun h => hone h.1)]
    exact ⟨fun _ => hone, fun _ => readsWithin_ok _⟩

/-- Without any characters the last one lies before the first. -/
theorem decodeInto_nil (miss : UInt8) (buf : List UInt8) :
    decodeInto miss [] 0 buf = .error .outOfBounds := rfl

theorem decodeInto_readsWithin_iff (miss : UInt8) (data buf : List UInt8) :
    ReadsWithin (decodeInto miss data data.length buf) ↔ data ≠ [] := by
  constructor
  · intro hwithin hnil
    subst hnil
    exact hwithin (decodeInto_nil miss buf)
  · intro hdata
    by_cases hlen : data.length % 4 = 0
    · have hresult := decodeInto_eq miss data [] buf hdata hlen
      rw [List.append_nil] at hresult
      rw [hresult]
      exact readsWithin_ok _
    · have hresult := decodeInto_bad_length miss data [] buf hlen
      rw [List.append_nil] at hresult
      rw [hresult]
      intro h
      cases h

/-- Encoding stays within its input unless one byte is left for the last group, decoding
unless the input is empty. -/
theorem reads_within_iff (miss : UInt8) (data buf : List UInt8) :
    (ReadsWithin (encodeInto data data.length buf) ↔ data.length % 3 ≠ 1) ∧
      (ReadsWithin (decodeInto miss data data.length buf) ↔ data ≠ []) :=
  ⟨encodeInto_readsWithin_iff data buf, decodeInto_readsWithin_iff miss data buf⟩

/-- One byte to encode, and nothing to decode. -/
theorem read_outside :
    ¬ (∀ data buf : List UInt8, ReadsWithin (encodeInto data data.length buf)) ∧
      ¬ ∀ (miss : UInt8) (data buf : List UInt8),
        ReadsWithin (decodeInto miss data data.length buf) := by
  constructor
  · intro h
    exact h [77] [] (by decide)
  · intro h
    exact h 7 [] [] rfl

end BoxUtils.Base64
