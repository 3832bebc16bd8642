import Diffmonger.BackendDriver

/-!
# What was read had been written (`Serialisation.hpp`)

There is only one way to write a value: data from which a value is read begins with the bytes that
are written for it.
-/

namespace Diffmonger.Serialisation

class CanonicalCodec (α : Type) [Codec α] : Prop where
  canonical : Canonical (deserialise : Deserialiser α) serialise

export CanonicalCodec (canonical)

theorem consume_eq_ok {n : ℕ} {data bytes rest : Bytes} (h : consume n data = .ok (bytes, rest)) :
    bytes.length = n ∧ bytes ++ rest = data := by
  rw [consume] at h
  split at h
  · cases h
  · next hle =>
      rw [List.splitAt_eq] at h
      cases h
      exact ⟨List.length_take_of_le (not_lt.mp hle), List.take_append_drop n data⟩

theorem consume_failsWith (n : ℕ) : FailsWith (· = insufficientData) (consume n) := by
  intro data e h
  rw [consume] at h
  split at h
  · cases h
    rfl
  · cases h

instance : CanonicalCodec UInt64 where
  canonical data x rest h := by
    obtain ⟨⟨bytes, rest⟩, hbytes, hx⟩ := Reads.ok_of_bind h
    cases hx
    obtain ⟨hlength, rfl⟩ := consume_eq_ok hbytes
    exact congrArg (· ++ rest) (LittleEndian.toBytes_fromBytes hlength)

instance : CanonicalCodec Int64 where
  canonical data x rest h := by
    obtain ⟨⟨value, rest⟩, hvalue, hx⟩ := Reads.ok_of_bind h
    cases hx
    exact canonical data value rest hvalue

instance : CanonicalCodec Byte where
  canonical data x rest h := by
    obtain ⟨⟨bytes, rest⟩, hbytes, hx⟩ := Reads.ok_of_bind h
    cases hx
    obtain ⟨hlength, rfl⟩ := consume_eq_ok hbytes
    obtain ⟨b, rfl⟩ := List.length_eq_one_iff.mp hlength
    rfl

theorem canonical_elements {α : Type} [Codec α] [CanonicalCodec α] (n : ℕ) :
    Canonical (deserialiseElements n) fun xs : List.Vector α n => serialiseElements xs.toList := by
  induction n with
  | zero =>
      intro data xs rest h
      cases h
      rfl
  | succ n ih =>
      intro data xs rest h
      obtain ⟨⟨x, data₁⟩, hx, hrest⟩ := Reads.ok_of_bind h
      obtain ⟨⟨ys, rest⟩, hys, hend⟩ := Reads.ok_of_bind hrest
      cases hend
      dsimp only
      rw [List.Vector.toList_cons, serialiseElements, List.flatMap_cons, List.append_assoc,
        ← canonical data x data₁ hx, ← ih data₁ ys rest hys]
      rfl

instance {α : Type} [Codec α] [CanonicalCodec α] {maxSize : ℕ} :
    CanonicalCodec (Sized α maxSize) where
  canonical data xs rest h := by
    obtain ⟨⟨n, data₁⟩, hn, hsized⟩ := Reads.ok_of_bind h
    dsimp only [deserialiseSized] at hsized
    split at hsized
    · obtain ⟨⟨ys, rest⟩, hys, hend⟩ := Reads.ok_of_bind hsized
      cases hend
      have hlength : UInt64.ofNat ys.toList.length = n := by
        rw [ys.toList_length, UInt64.ofNat_toNat]
      rw [← canonical data n data₁ hn, ← canonical_elements _ data₁ ys rest hys]
      show serialise (UInt64.ofNat ys.toList.length) ++ _ ++ _ = _
      rw [hlength, List.append_assoc]
    · cases hsized

/-!
## How reading fails

For values of a fixed length there is one way to fail, which is too little data.
-/

/-- Data that cannot be read is insufficient. -/
class FixedCodec (α : Type) [Codec α] : Prop where
  fails : FailsWith (· = insufficientData) (deserialise : Deserialiser α)

export FixedCodec (fails)

instance : FixedCodec UInt64 where
  fails := (consume_failsWith 8).bind fun _ => .pure _

instance : FixedCodec Int64 where
  fails := FailsWith.bind (α := UInt64) fails fun _ => .pure _

instance : FixedCodec Byte where
  fails := (consume_failsWith 1).bind fun _ => .pure _

theorem fails_elements {α : Type} [Codec α] [FixedCodec α] (n : ℕ) :
    FailsWith (· = insufficientData) (deserialiseElements n : Deserialiser (List.Vector α n)) := by
  induction n with
  | zero => exact .pure _
  | succ n ih => exact fails.bind fun _ => ih.bind fun _ => .pure _

theorem fails_deserialiseSized {α : Type} [Codec α] [FixedCodec α] {maxSize n : ℕ}
    (h : n ≤ maxSize) :
    FailsWith (· = insufficientData) (deserialiseSized maxSize n : Deserialiser (Sized α maxSize)) := by
  rw [deserialiseSized, dif_pos h]
  exact (fails_elements n).bind fun _ => .pure _

end Diffmonger.Serialisation
