import Diffmonger.Serialisation.Canonical

/-!
# The storage that reading a snapshot id takes (`BackendDriver.cpp`, `Serialisation.hpp`)

The file may say anything about the number of bytes of an id. `reserve` asks for storage for that
many before it is known whether there are as many.

Main result: `storingDeserialise_clean_iff`. With enough memory for the bytes that there are, the id
is read as by a reader that needs no storage, as long as the number is not too great
(`storingDeserialise_of_le`). A greater number is found out, but by `reserve` or by the allocator,
and with another exception than the one that says that bytes are missing.
-/

namespace Diffmonger

open Serialisation

/-- What is thrown by code that asks for storage. -/
inductive Thrown where
  | exception (e : Exn)
  | badAlloc
  deriving DecidableEq, Repr

/-- Storage that was asked for, while there were so many bytes left to be read. -/
structure StorageRequest where
  elements : ℕ
  left : ℕ
  deriving DecidableEq, Repr

/-- A `Deserialiser` that asks for storage; what it asked for is known also if it fails. -/
abbrev StoringDeserialiser :=
  StateT Bytes (ExceptT Thrown (StateM (List StorageRequest)))

namespace StoringDeserialiser

/-- One that needs no storage. -/
def lift {α : Type} (d : Deserialiser α) : StoringDeserialiser α :=
  fun data requests => ((d data).mapError .exception, requests)

/-- `serves` says which requests there is enough memory for. -/
def allocate (serves : ℕ → Bool) (n : ℕ) : StoringDeserialiser Unit := fun data requests =>
  if n = 0 then (.ok ((), data), requests)
  else (if serves n then .ok ((), data) else .error .badAlloc, requests ++ [⟨n, data.length⟩])

theorem toList_length_le {α : Type} {maxSize n : ℕ} (xs : List.Vector α n) (h : n ≤ maxSize) :
    xs.toList.length ≤ maxSize := xs.toList_length.trans_le h

/-- `reserve(n)`, then the loop over the elements, which need no storage themselves. -/
def deserialiseSized {α : Type} [Codec α] (serves : ℕ → Bool) (maxSize n : ℕ) :
    StoringDeserialiser (Sized α maxSize) :=
  if h : n ≤ maxSize then do
    allocate serves n
    let xs ← lift (deserialiseElements n)
    return ⟨xs.toList, toList_length_le xs h⟩
  else throw (.exception (.lengthError "vector::reserve"))

/-- `std::vector<T>` -/
def deserialiseVector {α : Type} [Codec α] (serves : ℕ → Bool) (maxSize : ℕ) :
    StoringDeserialiser (Sized α maxSize) := do
  let n : UInt64 ← lift deserialise
  deserialiseSized serves maxSize n.toNat

end StoringDeserialiser

open StoringDeserialiser

namespace Encoded

def storingDeserialiser (serves : ℕ → Bool) : StoringDeserialiser Encoded := do
  let encodedBytes ← deserialiseVector serves _
  let value ← lift Serialisation.deserialise
  let timestamp ← lift Serialisation.deserialise
  return ⟨encodedBytes, ⟨value⟩, timestamp⟩

/-- The id, and the storage that was asked for. -/
def storingDeserialise (serves : ℕ → Bool) (bytes : Bytes) :
    Except Thrown Encoded × List StorageRequest :=
  let (out, requests) := storingDeserialiser serves bytes []
  (out.map Prod.fst, requests)

end Encoded

/-!
## What is read if the requests are served

The reader of an id is taken apart at the number of bytes: what comes before it is of a fixed size,
and what follows depends on how the number compares with the bytes that are left and with the
greatest size that a container may have.
-/

namespace StoringDeserialiser

section
variable {α β : Type} {x : StoringDeserialiser α} {k : α → StoringDeserialiser β} {data : Bytes}
  {requests requests' : List StorageRequest}

theorem bind_of_error {e : Thrown} (h : x data requests = (.error e, requests')) :
    (x >>= k) data requests = (.error e, requests') := by
  simp only [bind, StateT.bind, ExceptT.bind, ExceptT.mk, h, ExceptT.bindCont]
  rfl

theorem bind_of_ok {a : α} {rest : Bytes} (h : x data requests = (.ok (a, rest), requests')) :
    (x >>= k) data requests = k a rest requests' := by
  simp only [bind, StateT.bind, ExceptT.bind, ExceptT.mk, h, ExceptT.bindCont]

theorem lift_of_error {d : Deserialiser α} {e : Exn} (h : d data = .error e) :
    lift d data requests = (.error (.exception e), requests) := by
  rw [lift, h]
  rfl

theorem lift_of_ok {d : Deserialiser α} {a : α} {rest : Bytes} (h : d data = .ok (a, rest)) :
    lift d data requests = (.ok (a, rest), requests) := by
  rw [lift, h]
  rfl

theorem lift_bind (d : Deserialiser α) (k : α → Deserialiser β) :
    lift (d >>= k) = lift d >>= fun a => lift (k a) := by
  funext data requests
  have hrun : (d >>= k) data = d data >>= fun x => k x.1 x.2 := rfl
  cases h : d data with
  | error e =>
      rw [bind_of_error (lift_of_error h), lift_of_error]
      rw [hrun, h]
      rfl
  | ok x =>
      rw [bind_of_ok (lift_of_ok h), lift, lift, hrun, h]
      rfl

end

/-- The request for `n` elements, if it is one. -/
def requested (n : ℕ) (data : Bytes) : List StorageRequest := if n = 0 then [] else [⟨n, data.length⟩]

theorem allocate_of_serves {serves : ℕ → Bool} {n : ℕ} (h : serves n) (data : Bytes)
    (requests : List StorageRequest) :
    allocate serves n data requests = (.ok ((), data), requests ++ requested n data) := by
  rw [allocate, requested, if_pos h]
  split
  · rw [List.append_nil]
  · rfl

section
variable {α : Type} [Codec α] {serves : ℕ → Bool} {maxSize n : ℕ}

theorem deserialiseSized_of_le (hle : n ≤ maxSize) :
    (deserialiseSized serves maxSize n : StoringDeserialiser (Sized α maxSize)) =
      allocate serves n >>= fun _ => lift (Serialisation.deserialiseSized maxSize n) := by
  rw [deserialiseSized, dif_pos hle, Serialisation.deserialiseSized, dif_pos hle, lift_bind]
  rfl

theorem deserialiseSized_of_lt (hlt : maxSize < n) :
    (deserialiseSized serves maxSize n : StoringDeserialiser (Sized α maxSize)) =
      lift (Serialisation.deserialiseSized maxSize n) := by
  rw [deserialiseSized, dif_neg (Nat.not_le.mpr hlt), Serialisation.deserialiseSized,
    dif_neg (Nat.not_le.mpr hlt)]
  rfl

end

end StoringDeserialiser

namespace Encoded

/-- What follows the bytes of the id. -/
def afterBytes (encodedBytes : ByteVector) : Deserialiser Encoded := do
  let value ← Serialisation.deserialise
  let timestamp ← Serialisation.deserialise
  return ⟨encodedBytes, ⟨value⟩, timestamp⟩

/-- What follows the number of bytes. -/
def afterLength (n : UInt64) : Deserialiser Encoded :=
  Serialisation.deserialiseSized (2 ^ 63 - 1) n.toNat >>= afterBytes

theorem deserialiser_eq : deserialiser = Serialisation.deserialise >>= afterLength := by
  have h : deserialiser = (Serialisation.deserialise >>= fun n : UInt64 =>
    Serialisation.deserialiseSized (2 ^ 63 - 1) n.toNat) >>= afterBytes := rfl
  rw [h, bind_assoc]
  rfl

theorem storingDeserialiser_eq (serves : ℕ → Bool) : storingDeserialiser serves =
    lift (Serialisation.deserialise : Deserialiser UInt64) >>= fun n =>
      StoringDeserialiser.deserialiseSized serves (2 ^ 63 - 1) n.toNat >>= fun bytes =>
        lift (afterBytes bytes) := by
  rw [storingDeserialiser, deserialiseVector, bind_assoc]
  simp only [afterBytes, lift_bind]
  rfl

/-- How many bytes the id is said to have. -/
def declaredLength (bytes : Bytes) : ℕ := (LittleEndian.fromBytes 8 (bytes.take 8)).toNat

section
variable {serves : ℕ → Bool} {bytes : Bytes}

theorem deserialise_length_of_lt (h : bytes.length < 8) :
    (Serialisation.deserialise : Deserialiser UInt64) bytes = .error insufficientData := by
  have hconsume : consume 8 bytes = .error insufficientData := if_pos h
  show (consume 8 bytes >>= _) = _
  rw [hconsume]
  rfl

theorem deserialise_length_of_le (h : 8 ≤ bytes.length) :
    (Serialisation.deserialise : Deserialiser UInt64) bytes =
      .ok (⟨LittleEndian.fromBytes 8 (bytes.take 8)⟩, bytes.drop 8) := by
  have hconsume : consume 8 bytes = .ok (bytes.splitAt 8) := if_neg (Nat.not_lt.mpr h)
  show (consume 8 bytes >>= _) = _
  rw [hconsume, List.splitAt_eq]
  rfl

theorem storingDeserialise_of_lt (h : bytes.length < 8) :
    storingDeserialise serves bytes = (.error (.exception insufficientData), []) := by
  rw [storingDeserialise, storingDeserialiser_eq,
    bind_of_error (lift_of_error (deserialise_length_of_lt h))]
  rfl

theorem deserialise_of_lt (h : bytes.length < 8) : deserialise bytes = .error insufficientData := by
  have hrun : deserialiser bytes = Except.error insufficientData := by
    rw [deserialiser_eq]
    show (Serialisation.deserialise bytes >>= fun x => afterLength x.1 x.2) = _
    rw [deserialise_length_of_lt h]
    rfl
  rw [deserialise, hrun]
  rfl

theorem deserialise_of_le (h : 8 ≤ bytes.length) : deserialise bytes =
    (afterLength ⟨LittleEndian.fromBytes 8 (bytes.take 8)⟩ (bytes.drop 8)).map Prod.fst := by
  rw [deserialise, deserialiser_eq]
  show (Serialisation.deserialise bytes >>= fun x => afterLength x.1 x.2).map Prod.fst = _
  rw [deserialise_length_of_le h]
  rfl

/-- The same id is read as without regard to storage. -/
theorem storingDeserialise_of_le (h : 8 ≤ bytes.length) (hserves : serves (declaredLength bytes)) :
    storingDeserialise serves bytes = ((deserialise bytes).mapError .exception,
      if declaredLength bytes ≤ 2 ^ 63 - 1 then
        requested (declaredLength bytes) (bytes.drop 8) else []) := by
  rw [storingDeserialise, storingDeserialiser_eq, deserialise_of_le h,
    bind_of_ok (lift_of_ok (deserialise_length_of_le h))]
  have hn : (⟨LittleEndian.fromBytes 8 (bytes.take 8)⟩ : UInt64).toNat = declaredLength bytes := rfl
  generalize (⟨LittleEndian.fromBytes 8 (bytes.take 8)⟩ : UInt64) = n at hn
  rw [← hn] at hserves ⊢
  have hlift (requests : List StorageRequest) :
      (lift (Serialisation.deserialiseSized (2 ^ 63 - 1) n.toNat) >>= fun encodedBytes =>
        lift (afterBytes encodedBytes)) (bytes.drop 8) requests =
        ((afterLength n (bytes.drop 8)).mapError .exception, requests) := by
    rw [← lift_bind]
    rfl
  have hmap (r : Except Exn (Encoded × Bytes)) :
      (r.mapError Thrown.exception).map Prod.fst = (r.map Prod.fst).mapError .exception := by
    cases r with
    | error e => rfl
    | ok x => rfl
  by_cases hle : n.toNat ≤ 2 ^ 63 - 1
  · rw [deserialiseSized_of_le hle, bind_assoc, bind_of_ok (allocate_of_serves hserves _ _), hlift,
      if_pos hle]
    exact Prod.ext (hmap _) (List.nil_append _)
  · rw [deserialiseSized_of_lt (Nat.not_le.mp hle), hlift, if_neg hle]
    exact Prod.ext (hmap _) rfl

theorem deserialise_failsWith (h : declaredLength bytes ≤ 2 ^ 63 - 1) {e : Exn}
    (he : deserialise bytes = .error e) : e = insufficientData := by
  rcases Nat.lt_or_ge bytes.length 8 with hlt | hle
  · rw [deserialise_of_lt hlt] at he
    exact (Except.error.inj he).symm
  · have hfails : FailsWith (· = insufficientData)
        (afterLength ⟨LittleEndian.fromBytes 8 (bytes.take 8)⟩) :=
      (fails_deserialiseSized h).bind fun _ => fails.bind fun _ => fails.bind fun _ => .pure _
    rw [deserialise_of_le hle] at he
    exact hfails _ _ (error_of_map he)

/-- `reserve` throws by itself. -/
theorem deserialise_of_gt (hle : 8 ≤ bytes.length) (hgt : 2 ^ 63 - 1 < declaredLength bytes) :
    deserialise bytes = .error (.lengthError "vector::reserve") := by
  rw [deserialise_of_le hle]
  show ((Serialisation.deserialiseSized (2 ^ 63 - 1) (declaredLength bytes) (bytes.drop 8) >>=
    fun x => afterBytes x.1 x.2).map Prod.fst) = _
  rw [Serialisation.deserialiseSized, dif_neg (Nat.not_le.mpr hgt)]
  rfl

/-- An id that has been read had been written. -/
theorem serialise_isPrefix {encoded : Encoded} (h : deserialise bytes = .ok encoded) :
    encoded.serialise <+: bytes := by
  obtain ⟨⟨encoded, _⟩, hrun, rfl⟩ := ok_of_map h
  obtain ⟨⟨encodedBytes, data₁⟩, hbytes, hrest⟩ := Reads.ok_of_bind hrun
  obtain ⟨⟨value, data₂⟩, hvalue, hrest⟩ := Reads.ok_of_bind hrest
  obtain ⟨⟨timestamp, rest⟩, htimestamp, hend⟩ := Reads.ok_of_bind hrest
  cases hend
  refine ⟨rest, ?_⟩
  dsimp only at hvalue htimestamp ⊢
  rw [← canonical _ _ _ hbytes, ← canonical _ _ _ hvalue, ← canonical _ _ _ htimestamp, serialise,
    List.append_assoc, List.append_assoc]
  rfl

end

/-- The id is what the bytes begin with, or else an exception says that there is none in them; and
no storage is asked for but for bytes that are there. -/
structure Clean (bytes : Bytes) (run : Except Thrown Encoded × List StorageRequest) : Prop where
  value : ∀ encoded, run.1 = .ok encoded → encoded.serialise <+: bytes
  error : ∀ thrown, run.1 = .error thrown → ∃ e, thrown = .exception e ∧ e.isRuntimeError
  storage : ∀ request ∈ run.2, request.elements ≤ request.left

section
variable {serves : ℕ → Bool} {bytes : Bytes}

theorem clean_of_lt (h : bytes.length < 8) : Clean bytes (storingDeserialise serves bytes) := by
  rw [storingDeserialise_of_lt h]
  exact ⟨fun _ h => (by cases h), fun _ h => ⟨_, (Except.error.inj h).symm, rfl⟩, by simp⟩

/-- There are as many bytes as storage is asked for. -/
theorem clean_of_le (h : 8 ≤ bytes.length) (hleft : declaredLength bytes ≤ bytes.length - 8)
    (hmax : declaredLength bytes ≤ 2 ^ 63 - 1) (hserves : serves (declaredLength bytes)) :
    Clean bytes (storingDeserialise serves bytes) := by
  rw [storingDeserialise_of_le h hserves, if_pos hmax]
  refine ⟨fun encoded hok => serialise_isPrefix (ok_of_mapError hok), fun thrown herror => ?_,
    fun request hrequest => ?_⟩
  · obtain ⟨e, he, rfl⟩ := error_of_mapError herror
    rw [deserialise_failsWith hmax he]
    exact ⟨_, rfl, rfl⟩
  · rw [requested] at hrequest
    split at hrequest
    · cases hrequest
    · rw [List.mem_singleton.mp hrequest, List.length_drop]
      exact hleft

/-- A number that is too great is found out by `reserve`, or by what it asks for. -/
theorem le_of_clean (hle : 8 ≤ bytes.length)
    (h : Clean bytes (storingDeserialise (fun _ => true) bytes)) :
    declaredLength bytes ≤ bytes.length - 8 ∧ declaredLength bytes ≤ 2 ^ 63 - 1 := by
  rw [storingDeserialise_of_le hle rfl] at h
  have hmax : declaredLength bytes ≤ 2 ^ 63 - 1 := by
    by_contra hgt
    have herror := deserialise_of_gt hle (Nat.not_le.mp hgt)
    obtain ⟨e, he, hruntime⟩ := h.error _ (congrArg (·.mapError Thrown.exception) herror)
    cases he
    cases hruntime
  refine ⟨?_, hmax⟩
  rw [if_pos hmax] at h
  by_cases hzero : declaredLength bytes = 0
  · omega
  · rw [← List.length_drop]
    exact h.storage ⟨declaredLength bytes, (bytes.drop 8).length⟩ (by simp [requested, hzero])

end

/-- If there is enough memory for as many bytes as there are, reading an id is clean if and only if
the number that the bytes begin with is at most the number of those that follow it. -/
theorem storingDeserialise_clean_iff (bytes : Bytes) :
    (∀ serves : ℕ → Bool, (∀ n ≤ bytes.length, serves n) →
      Clean bytes (storingDeserialise serves bytes)) ↔
    bytes.length < 8 ∨ declaredLength bytes ≤ min (bytes.length - 8) (2 ^ 63 - 1) := by
  rcases Nat.lt_or_ge bytes.length 8 with hlt | hle
  · exact iff_of_true (fun serves _ => clean_of_lt hlt) (.inl hlt)
  · rw [or_iff_right (Nat.not_lt.mpr hle), le_min_iff]
    constructor
    · intro hclean
      exact le_of_clean hle (hclean (fun _ => true) fun _ _ => rfl)
    · rintro ⟨hleft, hmax⟩ serves hserves
      exact clean_of_le hle hleft hmax (hserves _ (hleft.trans (Nat.sub_le ..)))

/-- Eight bytes that say that the id has `2 ^ 64 - 1` bytes. -/
theorem storingDeserialise_huge :
    storingDeserialise (fun _ => true) (List.replicate 8 0xff) =
        (.error (.exception (.lengthError "vector::reserve")), []) ∧
      ¬ Clean (List.replicate 8 0xff)
        (storingDeserialise (fun _ => true) (List.replicate 8 0xff)) := by
  have hrun : storingDeserialise (fun _ => true) (List.replicate 8 0xff) =
      (.error (.exception (.lengthError "vector::reserve")), []) := by
    rw [storingDeserialise_of_le (by decide) rfl, deserialise_of_gt (by decide) (by decide)]
    rfl
  refine ⟨hrun, fun h => ?_⟩
  rw [hrun] at h
  obtain ⟨e, he, hruntime⟩ := h.error _ rfl
  cases he
  cases hruntime

/-- Eight bytes that say that the id has `2 ^ 40` bytes, for which there is not enough memory. -/
example : storingDeserialise (· ≤ 2 ^ 30) [0, 0, 0, 0, 0, 1, 0, 0] =
    (.error .badAlloc, [⟨2 ^ 40, 0⟩]) := rfl

end Encoded

end Diffmonger
