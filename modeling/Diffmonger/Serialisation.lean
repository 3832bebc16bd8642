import Diffmonger.Node
import Diffmonger.Lib.LittleEndian
import Diffmonger.Lib.Reader
import Mathlib.Data.Vector.Basic

/-!
# Serialisation (`Serialisation.hpp`)

A codec appends the bytes of a value to a buffer and reads them back from the front of the data
that is left. `LawfulCodec` says that reading back what was written returns the value and leaves
what follows, and that data that has been cut short is found out.

`std::vector` and `std::string` are lists that respect the container's maximum size, so that a
length always fits the 64-bit prefix it is written with. `reserve` throws for a greater length;
running out of memory is not modelled.
-/

namespace Diffmonger

/-- A container of at most `maxSize` elements. -/
structure Sized (α : Type) (maxSize : ℕ) where
  toList : List α
  length_le : toList.length ≤ maxSize
  deriving DecidableEq

/-- `std::vector<std::byte>` -/
abbrev ByteVector := Sized Byte (2 ^ 63 - 1)

/-- `std::string` -/
structure StdString where
  chars : Sized Byte (2 ^ 62 - 1)
  deriving DecidableEq

/-- `std::vector<std::string>`, of elements of 32 bytes -/
abbrev StringVector := Sized StdString (2 ^ 58 - 1)

namespace Serialisation

/-- A `Deserialiser`'s state is the data that is left. -/
abbrev Deserialiser := StateT Bytes (Except Exn)

class Codec (α : Type) where
  serialise : α → Bytes
  deserialise : Deserialiser α

export Codec (serialise deserialise)

def insufficientData : Exn := .runtimeError "Insufficient data (corrupt stream)"

def consume (nbytes : ℕ) : Deserialiser Bytes := fun data =>
  if data.length < nbytes then .error insufficientData
  else .ok (data.splitAt nbytes)

/-! ## The codecs -/

instance : Codec UInt64 where
  serialise value := LittleEndian.toBytes 8 value.toBitVec
  deserialise := do return ⟨LittleEndian.fromBytes 8 (← consume 8)⟩

instance : Codec UInt32 where
  serialise value := LittleEndian.toBytes 4 value.toBitVec
  deserialise := do return ⟨LittleEndian.fromBytes 4 (← consume 4)⟩

instance : Codec Int64 where
  serialise value := serialise value.toUInt64
  deserialise := do return (← deserialise : UInt64).toInt64

instance : Codec Int32 where
  serialise value := serialise value.toUInt32
  deserialise := do return (← deserialise : UInt32).toInt32

instance : Codec Byte where
  serialise value := [value]
  deserialise := do return (← consume 1).headD 0

/-- The bytes of a sequence of values. -/
def serialiseElements {α : Type} [Codec α] (xs : List α) : Bytes := xs.flatMap serialise

def deserialiseElements {α : Type} [Codec α] : (n : ℕ) → Deserialiser (List.Vector α n)
  | 0 => return .nil
  | n + 1 => do
    let x ← deserialise
    let xs ← deserialiseElements n
    return x ::ᵥ xs

/-- `std::array<T, n>` -/
instance {α : Type} [Codec α] {n : ℕ} : Codec (List.Vector α n) where
  serialise xs := serialiseElements xs.toList
  deserialise := deserialiseElements n

/-- `reserve(n)`, then the loop over the elements. -/
def deserialiseSized {α : Type} [Codec α] (maxSize n : ℕ) : Deserialiser (Sized α maxSize) :=
  if h : n ≤ maxSize then do
    let xs ← deserialiseElements n
    return ⟨xs.toList, xs.toList_length.trans_le h⟩
  else throw (.lengthError "vector::reserve")

/-- `std::vector<T>` -/
instance {α : Type} [Codec α] {maxSize : ℕ} : Codec (Sized α maxSize) where
  serialise xs := serialise (UInt64.ofNat xs.toList.length) ++ serialiseElements xs.toList
  deserialise := do
    let n : UInt64 ← deserialise
    deserialiseSized maxSize n.toNat

/-- `std::span<T>`, which can only be written. -/
def serialiseSpan {α : Type} [Codec α] (xs : List α) : Bytes :=
  serialise (UInt64.ofNat xs.length) ++ serialiseElements xs

instance : Codec StdString where
  serialise str := serialise (UInt64.ofNat str.chars.toList.length) ++ str.chars.toList
  deserialise := do
    let n : UInt64 ← deserialise
    let bytes ← consume n.toNat
    if h : bytes.length ≤ 2 ^ 62 - 1 then return ⟨⟨bytes, h⟩⟩
    else throw (.lengthError "basic_string::_M_create")

/-!
## What was written can be read back

The law of a codec is about a value that is followed by anything, and about its bytes cut short.
Both compose: a record is read field by field, and the first field that is cut short is where
reading fails.
-/

/-- Reading back what was written returns the value and leaves what follows; data that has been cut
short is insufficient. -/
class LawfulCodec (α : Type) [Codec α] : Prop where
  reads : ∀ x : α, Reads (· = insufficientData) deserialise (serialise x) x

export LawfulCodec (reads)

theorem deserialise_append {α : Type} [Codec α] [LawfulCodec α] (x : α) (rest : Bytes) :
    (deserialise : Deserialiser α) (serialise x ++ rest) = .ok (x, rest) := (reads x).append rest

/-- Where a value ends is known from its bytes. -/
theorem serialise_append_inj {α : Type} [Codec α] [LawfulCodec α] {x y : α} {bytes bytes' : Bytes} :
    serialise x ++ bytes = serialise y ++ bytes' ↔ x = y ∧ bytes = bytes' := by
  constructor
  · intro h
    have hx := deserialise_append x bytes
    rw [h, deserialise_append] at hx
    cases hx
    exact ⟨rfl, rfl⟩
  · rintro ⟨rfl, rfl⟩
    rfl

theorem serialise_inj {α : Type} [Codec α] [LawfulCodec α] {x y : α} :
    serialise x = serialise y ↔ x = y := by
  have h := @serialise_append_inj _ _ _ x y [] []
  rwa [List.append_nil, List.append_nil, and_iff_left rfl] at h

theorem reads_consume {bytes : Bytes} {n : ℕ} (h : bytes.length = n) :
    Reads (· = insufficientData) (consume n) bytes bytes where
  append rest := by
    subst h
    simp [consume]
  truncated v hv hne := by
    have hlt : v.length < n := by
      rw [← h]
      exact lt_of_le_of_ne hv.length_le fun heq => hne (hv.eq_of_length heq)
    exact ⟨_, rfl, if_pos hlt⟩

instance : LawfulCodec UInt64 where
  reads x := (reads_consume (LittleEndian.length_toBytes _)).bind_pure
    (by rw [LittleEndian.fromBytes_toBytes])

instance : LawfulCodec UInt32 where
  reads x := (reads_consume (LittleEndian.length_toBytes _)).bind_pure
    (by rw [LittleEndian.fromBytes_toBytes])

instance : LawfulCodec Int64 where
  reads x := (reads x.toUInt64).bind_pure rfl

instance : LawfulCodec Int32 where
  reads x := (reads x.toUInt32).bind_pure rfl

instance : LawfulCodec Byte where
  reads x := (reads_consume (show [x].length = 1 from rfl)).bind_pure rfl

theorem reads_elements {α : Type} [Codec α] [LawfulCodec α] {n : ℕ} (xs : List.Vector α n) :
    Reads (· = insufficientData) (deserialiseElements n) (serialiseElements xs.toList) xs := by
  induction n with
  | zero =>
      rw [xs.eq_nil]
      exact .pure _
  | succ n ih =>
      obtain ⟨x, xs, rfl⟩ := xs.exists_eq_cons
      rw [List.Vector.toList_cons, serialiseElements, List.flatMap_cons]
      exact (reads x).bind ((ih xs).bind_pure rfl)

instance {α : Type} [Codec α] [LawfulCodec α] {n : ℕ} : LawfulCodec (List.Vector α n) where
  reads := reads_elements

theorem toNat_ofNat_length {α : Type} {maxSize : ℕ} (h : maxSize < 2 ^ 64) (xs : Sized α maxSize) :
    (UInt64.ofNat xs.toList.length).toNat = xs.toList.length :=
  UInt64.toNat_ofNat_of_lt' (by have := xs.length_le; show _ < 2 ^ 64; omega)

theorem reads_deserialiseSized {α : Type} [Codec α] [LawfulCodec α] {maxSize : ℕ}
    (xs : Sized α maxSize) : Reads (· = insufficientData)
      (deserialiseSized maxSize xs.toList.length) (serialiseElements xs.toList) xs := by
  rw [deserialiseSized, dif_pos xs.length_le]
  exact (reads_elements ⟨xs.toList, rfl⟩).bind_pure rfl

/-- Vectors whose length fits the prefix. -/
theorem reads_sized {α : Type} [Codec α] [LawfulCodec α] {maxSize : ℕ} (h : maxSize < 2 ^ 64)
    (xs : Sized α maxSize) : Reads (· = insufficientData) deserialise (serialise xs) xs := by
  refine (reads (UInt64.ofNat xs.toList.length)).bind ?_
  rw [toNat_ofNat_length h]
  exact reads_deserialiseSized xs

/-- What was written as a span is read as a vector. -/
theorem reads_span {α : Type} [Codec α] {maxSize : ℕ} [LawfulCodec (Sized α maxSize)]
    (xs : Sized α maxSize) :
    Reads (· = insufficientData) deserialise (serialiseSpan xs.toList) xs := reads xs

instance : LawfulCodec ByteVector := ⟨reads_sized (by decide)⟩

instance : LawfulCodec StdString where
  reads str := by
    refine (reads (UInt64.ofNat str.chars.toList.length)).bind ?_
    refine (reads_consume (toNat_ofNat_length (by decide) _).symm).bind_pure ?_
    rw [dif_pos str.chars.length_le]

instance : LawfulCodec StringVector := ⟨reads_sized (by decide)⟩

/-! ## Lengths -/

@[simp] theorem length_serialise_uint64 (x : UInt64) : (serialise x).length = 8 :=
  LittleEndian.length_toBytes _

@[simp] theorem length_serialise_int64 (x : Int64) : (serialise x).length = 8 :=
  LittleEndian.length_toBytes _

end Serialisation

/-! ## Reading from a file descriptor (`ioutil.cpp`) -/

/-- The front of a list that is long enough. -/
def takeVector (n : ℕ) (data : Bytes) (h : n ≤ data.length) : List.Vector Byte n :=
  ⟨data.take n, List.length_take_of_le h⟩

/-- The bytes read, and what is left to be read. -/
def Ioutil.readBytesExact (n : ℕ) (data : Bytes) : Except Exn (List.Vector Byte n × Bytes) :=
  if h : n ≤ data.length then .ok (takeVector n data h, data.drop n)
  else .error (.runtimeError "Unexpected EOF")

end Diffmonger
