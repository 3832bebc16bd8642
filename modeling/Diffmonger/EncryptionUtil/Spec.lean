import Diffmonger.EncryptionUtil
import Diffmonger.Lib.Chunks

/-!
# What is encrypted can be decrypted

libsodium is assumed to be correct (`Sodium.Correct`): a sealed session key can be opened with the
private key, and the receiving end of a secret stream gets the messages of the sending end, in
order. The rest is the program's own framing: the entries of the key pairs, the header, and the
frames.

For each of these parts there is a lemma about what is read from what has been written, another one
about what has been cut short, and, for the entries, one about a key that does not fit. They are put
together in `decryptFromFd_encryptToFd`, `decryptFromFd_truncated` and `decryptFromFd_fails`. A
frame says how long it is, and only the last one ends the stream; so wherever a payload is cut,
either a read comes to the end of its input too early, or the last frame is missing.
-/

namespace Diffmonger

open Serialisation

variable {σ : Type}

/-!
## libsodium

The assumptions are those of the functions' documentation, for any key pairs and states. That they
can be met is shown by functions that do not encrypt at all (`Sodium.transparent`).
-/

/-- What the documentation of libsodium promises. `IsKeyPair` relates a public key to its private
key, `InStep` the state of the sending end of a secret stream to that of the receiving end. -/
structure Sodium.Correct (sodium : Sodium σ) (IsKeyPair : ByteArray' 32 → ByteArray' 32 → Prop)
    (InStep : σ → σ → Prop) : Prop where
  init : sodium.init = true
  boxSeal : ∀ {pubKey privKey}, IsKeyPair pubKey privKey → ∀ ephemeral symKey,
    (sodium.boxSeal ephemeral symKey pubKey).isSome
  boxSealOpen : ∀ {pubKey privKey}, IsKeyPair pubKey privKey → ∀ {ephemeral symKey encrypted},
    sodium.boxSeal ephemeral symKey pubKey = some encrypted →
      sodium.boxSealOpen encrypted pubKey privKey = some symKey
  initPush : ∀ random symKey, ∃ state header state',
    sodium.initPush random symKey = some (state, header) ∧
      sodium.initPull header symKey = some state' ∧ InStep state state'
  length_push : ∀ state message tag, (sodium.push state message tag).1.length = message.length + 17
  pull : ∀ {state state'}, InStep state state' → ∀ message tag, ∃ state'',
    sodium.pull state' (sodium.push state message tag).1 = some ((message, tag), state'') ∧
      InStep (sodium.push state message tag).2 state''

/-- A session key that was sealed to another public key cannot be opened. -/
def Sodium.Rejects (sodium : Sodium σ) (IsKeyPair : ByteArray' 32 → ByteArray' 32 → Prop) : Prop :=
  ∀ {pubKey privKey}, IsKeyPair pubKey privKey → ∀ {pubKey' ephemeral symKey encrypted},
    pubKey' ≠ pubKey → sodium.boxSeal ephemeral symKey pubKey' = some encrypted →
      sodium.boxSealOpen encrypted pubKey privKey = none

/-- What is decrypted has lost the 17 bytes that encryption adds to a message. -/
def Sodium.Shortens (sodium : Sodium σ) : Prop :=
  ∀ {state ciphertext message tag state'},
    sodium.pull state ciphertext = some ((message, tag), state') →
      message.length + 17 = ciphertext.length

theorem Sodium.transparent_correct : Sodium.transparent.Correct (· = ·) (· = ·) where
  init := rfl
  boxSeal _ _ _ := rfl
  boxSealOpen := by
    rintro pubKey _ rfl ephemeral symKey _ ⟨⟩
    simp [transparent]
  initPush random symKey := ⟨symKey, random, symKey, rfl, rfl, rfl⟩
  length_push state message tag := by simp [transparent]; omega
  pull := by
    rintro state _ rfl message tag
    exact ⟨state, by simp [transparent], rfl⟩

theorem Sodium.transparent_rejects : Sodium.transparent.Rejects (· = ·) := by
  rintro pubKey _ rfl pubKey' ephemeral symKey _ hne ⟨⟩
  refine if_neg fun h => hne (List.Vector.toList_injective ?_)
  simpa using h.2

theorem Sodium.transparent_shortens : Sodium.transparent.Shortens := by
  intro state ciphertext message tag state' h
  cases ciphertext with
  | nil => cases h
  | cons tag rest =>
      simp only [transparent, Option.ite_none_right_eq_some, Option.some.injEq, Prod.mk.injEq] at h
      obtain ⟨heq, ⟨rfl, -⟩, -⟩ := h
      have hlength := congrArg List.length heq
      simp only [List.length_take, List.Vector.toList_length] at hlength
      simp only [List.length_drop, List.length_cons]
      omega

/-- A key pair for runs on fixed inputs: its public key, and with it its private key, repeats the
byte of its id. -/
def sampleKeyPair (id : Byte) : KeyPair :=
  ⟨.replicate 16 id, .replicate 24 0, ⟨1, 1, 2⟩, .replicate 32 id, .replicate 48 id,
    KeyPair.currentVersion, rfl⟩

/-!
## Streams

A stream that fails has its bytes up to there; what comes after it is not written.
-/

namespace Stream

@[simp] theorem bytes_write (bytes : Bytes) : (write bytes).bytes = bytes := by simp [write, Stream.bytes]

@[simp] theorem result_write (bytes : Bytes) : (write bytes).result = .ok () := rfl

@[simp] theorem result_fail (e : Exn) : (fail e).result = .error e := rfl

@[simp] theorem bytes_fail (e : Exn) : (fail e).bytes = [] := rfl

@[simp] theorem result_andThen (s t : Stream) :
    (s.andThen t).result = s.result >>= fun _ => t.result := by
  cases h : s.result <;> simp [andThen, h, bind, Except.bind]

theorem bytes_andThen {s : Stream} (h : s.result = .ok ()) (t : Stream) :
    (s.andThen t).bytes = s.bytes ++ t.bytes := by
  simp [andThen, h, Stream.bytes]

theorem result_andThen_ok {s t : Stream} :
    (s.andThen t).result = .ok () ↔ s.result = .ok () ∧ t.result = .ok () := by
  rw [result_andThen]
  cases s.result <;> simp [bind, Except.bind]

end Stream

namespace EncryptionUtil

variable {sodium : Sodium σ}

def unexpectedEof : Exn := .runtimeError "Unexpected EOF"

theorem reads_readBytesExact {n : ℕ} (v : List.Vector Byte n) :
    Reads (· = unexpectedEof) (Ioutil.readBytesExact n) v.toList v where
  append rest := by
    rw [Ioutil.readBytesExact, dif_pos (by simp)]
    refine congrArg Except.ok (Prod.ext (Subtype.ext ?_) (by simp))
    show (v.toList ++ rest).take n = v.toList
    simp
  truncated data hv hne := by
    refine ⟨_, rfl, dif_neg fun hle => hne (hv.eq_of_length ?_)⟩
    have := hv.length_le
    rw [v.toList_length] at this ⊢
    omega

/-!
## The entries

One entry for each key pair, with its id and the session key sealed to it. The loop goes through
them up to the one that says it is the last, and tries each that bears the id of its own key pair.
-/

/-- Reads one entry. -/
def readEntry : Deserialiser (ByteArray' 16 × ByteArray' 80 × ByteArray' 1) := do
  let keyId ← Ioutil.readBytesExact 16
  let encryptedSymKey ← Ioutil.readBytesExact 80
  let isLast ← Ioutil.readBytesExact 1
  return (keyId, encryptedSymKey, isLast)

theorem reads_readEntry (keyId : ByteArray' 16) (encryptedSymKey : ByteArray' 80)
    (isLast : ByteArray' 1) :
    Reads (· = unexpectedEof) readEntry (keyId.toList ++ encryptedSymKey.toList ++ isLast.toList)
      (keyId, encryptedSymKey, isLast) := by
  have h := (reads_readBytesExact keyId).bind (k := fun keyId => (do
      let encryptedSymKey ← Ioutil.readBytesExact 80
      let isLast ← Ioutil.readBytesExact 1
      return (keyId, encryptedSymKey, isLast) : Deserialiser _)) <|
    (reads_readBytesExact encryptedSymKey).bind <| (reads_readBytesExact isLast).bind_pure rfl
  exact h.congr (List.append_assoc ..).symm rfl

theorem reads_entry (keyId : ByteArray' 16) (encryptedSymKey : ByteArray' 80) (isLast : Byte) :
    Reads (· = unexpectedEof) readEntry (keyId.toList ++ encryptedSymKey.toList ++ [isLast])
      (keyId, encryptedSymKey, ⟨[isLast], rfl⟩) :=
  reads_readEntry keyId encryptedSymKey ⟨[isLast], rfl⟩

/-- What an entry contributes to the search for the session key. -/
def tryEntry (sodium : Sodium σ) (decryptedKeyPair : DecryptedKeyPair) (keyId : ByteArray' 16)
    (encryptedSymKey : ByteArray' 80) (symKey : Option (ByteArray' 32)) :
    Except Exn (Option (ByteArray' 32)) :=
  if keyId = decryptedKeyPair.keyPair.getKeyId then
    match sodium.boxSealOpen encryptedSymKey decryptedKeyPair.keyPair.pubKey
        decryptedKeyPair.privKeyPlaintext with
    | some symKey => .ok (some symKey)
    | none => .error (.runtimeError "Error decrypting session key")
  else .ok symKey

theorem openSymKeyLoop_succ (decryptedKeyPair : DecryptedKeyPair) (fuel : ℕ) (data : Bytes)
    (symKey : Option (ByteArray' 32)) :
    openSymKeyLoop sodium decryptedKeyPair (fuel + 1) data symKey =
      (readEntry data >>= fun x =>
        tryEntry sodium decryptedKeyPair x.1.1 x.1.2.1 symKey >>= fun symKey =>
          if x.1.2.2.head ≠ 0 then .ok (symKey, x.2)
          else openSymKeyLoop sodium decryptedKeyPair fuel x.2 symKey) := by
  have hentry : readEntry data = (Ioutil.readBytesExact 16 data >>= fun x =>
      Ioutil.readBytesExact 80 x.2 >>= fun y => Ioutil.readBytesExact 1 y.2 >>= fun z =>
        .ok ((x.1, y.1, z.1), z.2)) := rfl
  rw [hentry, openSymKeyLoop]
  simp only [bind_assoc]
  refine bind_congr fun x => bind_congr fun y => bind_congr fun z => ?_
  show _ = (tryEntry sodium decryptedKeyPair x.1 y.1 symKey >>= fun symKey =>
    if z.1.head ≠ 0 then .ok (symKey, z.2)
    else openSymKeyLoop sodium decryptedKeyPair fuel z.2 symKey)
  rw [tryEntry]
  by_cases hid : x.1 = decryptedKeyPair.keyPair.getKeyId
  · simp only [if_pos hid]
    cases sodium.boxSealOpen y.1 decryptedKeyPair.keyPair.pubKey
      decryptedKeyPair.privKeyPlaintext <;> rfl
  · simp only [if_neg hid]
    rfl

/-- Sealing to the first key pair, and then to the others. -/
theorem sealSymKey_cons_ok {random : Randomness} {keyPair : KeyPair} {rest : List KeyPair} {i : ℕ}
    (h : (sealSymKey sodium random (keyPair :: rest) i).result = .ok ()) :
    ∃ encryptedSymKey,
      sodium.boxSeal (random.ephemeral i) random.symKey keyPair.pubKey = some encryptedSymKey ∧
      (sealSymKey sodium random rest (i + 1)).result = .ok () ∧
      (sealSymKey sodium random (keyPair :: rest) i).bytes =
        keyPair.getKeyId.toList ++ encryptedSymKey.toList ++ [if rest.isEmpty then 1 else 0] ++
          (sealSymKey sodium random rest (i + 1)).bytes := by
  rw [sealSymKey] at h ⊢
  cases hseal : sodium.boxSeal (random.ephemeral i) random.symKey keyPair.pubKey with
  | none =>
      rw [hseal] at h
      cases h
  | some encryptedSymKey =>
      rw [hseal] at h
      refine ⟨encryptedSymKey, rfl, (Stream.result_andThen_ok.mp h).2, ?_⟩
      rw [Stream.bytes_andThen rfl, Stream.bytes_write]

section
variable {IsKeyPair : ByteArray' 32 → ByteArray' 32 → Prop} {InStep : σ → σ → Prop}
  {random : Randomness} {decryptedKeyPair : DecryptedKeyPair}

/-- The key pair opens every entry that bears its key id. -/
theorem tryEntry_boxSeal (h : sodium.Correct IsKeyPair InStep)
    (hpair : IsKeyPair decryptedKeyPair.keyPair.pubKey decryptedKeyPair.privKeyPlaintext)
    {keyPair : KeyPair} {i : ℕ} {encryptedSymKey : ByteArray' 80}
    (hseal : sodium.boxSeal (random.ephemeral i) random.symKey keyPair.pubKey =
      some encryptedSymKey)
    (hid : keyPair.getKeyId = decryptedKeyPair.keyPair.getKeyId →
      keyPair.pubKey = decryptedKeyPair.keyPair.pubKey) (symKey : Option (ByteArray' 32)) :
    tryEntry sodium decryptedKeyPair keyPair.getKeyId encryptedSymKey symKey =
      .ok (if keyPair.getKeyId = decryptedKeyPair.keyPair.getKeyId then some random.symKey
        else symKey) := by
  unfold tryEntry
  split
  · next heq =>
      rw [hid heq] at hseal
      rw [h.boxSealOpen hpair hseal]
  · rfl

/-- The loop over the entries finds the session key if one of them bears the key id, provided that
no key pair with the same id has another public key. -/
theorem openSymKeyLoop_sealSymKey (h : sodium.Correct IsKeyPair InStep)
    (hpair : IsKeyPair decryptedKeyPair.keyPair.pubKey decryptedKeyPair.privKeyPlaintext)
    {keyPairs : List KeyPair} (hne : keyPairs ≠ [])
    (hids : ∀ keyPair ∈ keyPairs, keyPair.getKeyId = decryptedKeyPair.keyPair.getKeyId →
      keyPair.pubKey = decryptedKeyPair.keyPair.pubKey) {i fuel : ℕ}
    (hok : (sealSymKey sodium random keyPairs i).result = .ok ())
    (hfuel : keyPairs.length ≤ fuel) (rest : Bytes) (symKey : Option (ByteArray' 32)) :
    openSymKeyLoop sodium decryptedKeyPair fuel
        ((sealSymKey sodium random keyPairs i).bytes ++ rest) symKey =
      .ok (if decryptedKeyPair.keyPair.getKeyId ∈ keyPairs.map KeyPair.getKeyId
        then some random.symKey else symKey, rest) := by
  induction keyPairs generalizing i fuel symKey with
  | nil => exact absurd rfl hne
  | cons keyPair keyPairs ih =>
      obtain ⟨fuel, rfl⟩ : ∃ k, fuel = k + 1 := ⟨fuel - 1, by simp at hfuel; omega⟩
      obtain ⟨encryptedSymKey, hseal, hok', hbytes⟩ := sealSymKey_cons_ok hok
      have hentry := tryEntry_boxSeal h hpair hseal (hids keyPair List.mem_cons_self) symKey
      rw [openSymKeyLoop_succ, hbytes, List.append_assoc, (reads_entry _ _ _).append]
      simp only [bind, Except.bind, hentry]
      cases keyPairs with
      | nil =>
          simp only [List.isEmpty_nil, if_true, sealSymKey, Stream.bytes, List.flatten_nil,
            List.nil_append, List.map_cons, List.map_nil, List.mem_singleton, eq_comm]
          rfl
      | cons next keyPairs =>
          have hrest := ih (List.cons_ne_nil _ _) (fun k hk => hids k (List.mem_cons_of_mem _ hk))
            hok' (by simp at hfuel ⊢; omega)
            (if keyPair.getKeyId = decryptedKeyPair.keyPair.getKeyId then some random.symKey
              else symKey)
          have hlast : ¬ List.Vector.head (⟨[0], rfl⟩ : ByteArray' 1) ≠ 0 := by decide
          simp only [List.isEmpty_cons, Bool.false_eq_true, if_false, if_neg hlast, hrest]
          by_cases hid : keyPair.getKeyId = decryptedKeyPair.keyPair.getKeyId
          · simp [hid]
          · simp [hid, Ne.symm hid]

/-- Entries that have been cut short. -/
theorem openSymKeyLoop_truncated {keyPairs : List KeyPair} {i : ℕ}
    (hok : (sealSymKey sodium random keyPairs i).result = .ok ()) {cut : Bytes}
    (hcut : cut <+: (sealSymKey sodium random keyPairs i).bytes)
    (hne : cut ≠ (sealSymKey sodium random keyPairs i).bytes) (fuel : ℕ)
    (symKey : Option (ByteArray' 32)) :
    ∃ e, openSymKeyLoop sodium decryptedKeyPair fuel cut symKey = .error e := by
  induction keyPairs generalizing i fuel cut symKey with
  | nil => exact absurd (List.prefix_nil.mp hcut) hne
  | cons keyPair keyPairs ih =>
      cases fuel with
      | zero => exact ⟨_, rfl⟩
      | succ fuel =>
          obtain ⟨encryptedSymKey, -, hok', hbytes⟩ := sealSymKey_cons_ok hok
          have hentry := reads_entry keyPair.getKeyId encryptedSymKey
            (if keyPairs.isEmpty then 1 else 0)
          rw [hbytes] at hcut hne
          rw [openSymKeyLoop_succ]
          rcases Reads.prefix_append_cases hcut hne with ⟨hcut, hne⟩ | ⟨cut, rfl, hcut, hne⟩
          · obtain ⟨e, -, hfail⟩ := hentry.truncated cut hcut hne
            rw [hfail]
            exact ⟨e, rfl⟩
          · rw [hentry.append]
            simp only [bind, Except.bind]
            cases tryEntry sodium decryptedKeyPair keyPair.getKeyId encryptedSymKey symKey with
            | error e => exact ⟨e, rfl⟩
            | ok symKey =>
                cases keyPairs with
                | nil => exact absurd (List.prefix_nil.mp hcut) hne
                | cons next keyPairs => exact ih hok' hcut hne fuel symKey

/-- With a wrong private key for one of the entries that bear the key id. -/
theorem openSymKeyLoop_wrong (hrejects : sodium.Rejects IsKeyPair)
    (hpair : IsKeyPair decryptedKeyPair.keyPair.pubKey decryptedKeyPair.privKeyPlaintext)
    {keyPairs : List KeyPair} {i : ℕ} (hok : (sealSymKey sodium random keyPairs i).result = .ok ())
    {wrong : KeyPair} (hmem : wrong ∈ keyPairs)
    (hid : wrong.getKeyId = decryptedKeyPair.keyPair.getKeyId)
    (hpub : wrong.pubKey ≠ decryptedKeyPair.keyPair.pubKey) (fuel : ℕ) (rest : Bytes)
    (symKey : Option (ByteArray' 32)) :
    ∃ e, openSymKeyLoop sodium decryptedKeyPair fuel
      ((sealSymKey sodium random keyPairs i).bytes ++ rest) symKey = .error e := by
  induction keyPairs generalizing i fuel symKey with
  | nil => cases hmem
  | cons keyPair keyPairs ih =>
      cases fuel with
      | zero => exact ⟨_, rfl⟩
      | succ fuel =>
          obtain ⟨encryptedSymKey, hseal, hok', hbytes⟩ := sealSymKey_cons_ok hok
          rw [openSymKeyLoop_succ, hbytes, List.append_assoc, (reads_entry _ _ _).append]
          simp only [bind, Except.bind]
          rcases List.mem_cons.mp hmem with rfl | hmem
          · rw [tryEntry, if_pos hid, hrejects hpair hpub hseal]
            exact ⟨_, rfl⟩
          · cases tryEntry sodium decryptedKeyPair keyPair.getKeyId encryptedSymKey symKey with
            | error e => exact ⟨e, rfl⟩
            | ok symKey =>
                cases keyPairs with
                | nil => cases hmem
                | cons next keyPairs => exact ih hok' hmem fuel symKey

/-!
## The frames

The plaintext is divided into blocks, each of which is encrypted and written with its length before
it. The last frame is empty and carries the tag that ends the stream.
-/

/-- More fuel than there is data changes nothing. -/
theorem blocksLoop_congr {fuel fuel' : ℕ} {data : Bytes} (h : data.length ≤ fuel)
    (h' : data.length ≤ fuel') : blocksLoop fuel data = blocksLoop fuel' data := by
  induction fuel generalizing fuel' data with
  | zero =>
      obtain rfl : data = [] := List.length_eq_zero_iff.mp (Nat.le_zero.mp h)
      cases fuel' <;> rfl
  | succ fuel ih =>
      cases data with
      | nil => cases fuel' <;> rfl
      | cons byte data =>
          obtain ⟨fuel', rfl⟩ : ∃ k, fuel' = k + 1 := ⟨fuel' - 1, by simp at h'; omega⟩
          rw [blocksLoop, blocksLoop]
          have hdrop : ((byte :: data).drop plaintextChunkSize).length ≤ data.length := by
            rw [List.length_drop, List.length_cons, plaintextChunkSize]
            omega
          simp only [List.length_cons, Nat.add_le_add_iff_right] at h h'
          rw [ih (hdrop.trans h) (hdrop.trans h')]

@[simp] theorem blocks_nil : blocks [] = [] := rfl

theorem blocks_of_ne_nil {data : Bytes} (h : data ≠ []) :
    blocks data = data.take plaintextChunkSize :: blocks (data.drop plaintextChunkSize) := by
  obtain ⟨byte, data, rfl⟩ := List.exists_cons_of_ne_nil h
  have hdrop : ((byte :: data).drop plaintextChunkSize).length ≤ data.length := by
    rw [List.length_drop, List.length_cons, plaintextChunkSize]
    omega
  rw [blocks, List.length_cons, blocksLoop, if_neg (by simp), blocks,
    blocksLoop_congr hdrop le_rfl]

/-- The blocks are the chunks of the data. -/
theorem blocks_chunked (data : Bytes) : Chunked plaintextChunkSize data (blocks data) := by
  induction hlength : data.length using Nat.strong_induction_on generalizing data with
  | _ n ih =>
      have hpos : 0 < plaintextChunkSize := by decide
      rcases eq_or_ne data [] with rfl | hne
      · exact .nil
      · rw [blocks_of_ne_nil hne]
        by_cases hfull : plaintextChunkSize ≤ data.length
        · have hlt : (data.drop plaintextChunkSize).length < n := by
            rw [List.length_drop]
            omega
          have hcons := (ih _ hlt _ rfl).cons hpos (List.length_take_of_le hfull)
          rwa [List.take_append_drop] at hcons
        · have hle : data.length ≤ plaintextChunkSize := (not_le.mp hfull).le
          rw [List.take_of_length_le hle, List.drop_of_length_le hle, blocks_nil]
          exact .last hne hle

theorem bytes_frame (ciphertext : Bytes) : (frame ciphertext).bytes =
    serialise (UInt32.ofNat ciphertext.length) ++ ciphertext := by
  simp [frame, Stream.bytes]

/-- Reads as many bytes as the length says. -/
def readCiphertext (nbytesbuf : ByteArray' 4) : Deserialiser Bytes := do
  let buf ← Ioutil.readBytesExact
    (min ciphertextMaxChunkSize (LittleEndian.fromBytes 4 nbytesbuf.toList).toNat)
  return buf.toList

theorem readFrame_eq :
    readFrame = (do readCiphertext (← Ioutil.readBytesExact 4) : Deserialiser Bytes) := by
  funext data
  unfold readFrame
  refine bind_congr fun x => ?_
  rfl

theorem reads_readCiphertext {nbytesbuf : ByteArray' 4} {ciphertext : Bytes}
    (h : min ciphertextMaxChunkSize (LittleEndian.fromBytes 4 nbytesbuf.toList).toNat =
      ciphertext.length) :
    Reads (· = unexpectedEof) (readCiphertext nbytesbuf) ciphertext ciphertext := by
  rw [readCiphertext, h]
  have hread := reads_readBytesExact (⟨ciphertext, rfl⟩ : List.Vector Byte ciphertext.length)
  exact hread.bind_pure rfl

/-- A frame whose length is not cut down to the size of the buffer. -/
theorem reads_frame {ciphertext : Bytes} (h : ciphertext.length ≤ ciphertextMaxChunkSize) :
    Reads (· = unexpectedEof) readFrame (frame ciphertext).bytes ciphertext := by
  obtain ⟨nbytesbuf, hbuf⟩ : ∃ v : ByteArray' 4,
      v.toList = serialise (UInt32.ofNat ciphertext.length) :=
    ⟨⟨_, LittleEndian.length_toBytes _⟩, rfl⟩
  have hlength : (LittleEndian.fromBytes 4 (serialise (UInt32.ofNat ciphertext.length))).toNat =
      ciphertext.length := by
    rw [show serialise (UInt32.ofNat ciphertext.length) =
      LittleEndian.toBytes 4 (UInt32.ofNat ciphertext.length).toBitVec from rfl,
      LittleEndian.fromBytes_toBytes]
    refine UInt32.toNat_ofNat_of_lt' ?_
    have hmax : ciphertextMaxChunkSize < UInt32.size := by decide
    omega
  rw [bytes_frame, ← hbuf, readFrame_eq]
  refine (reads_readBytesExact nbytesbuf).bind (reads_readCiphertext ?_)
  rw [hbuf, hlength, min_eq_right h]

theorem result_pushBlocks (state : σ) (blocks : List Bytes) :
    (pushBlocks sodium state blocks).result = .ok () := by
  induction blocks generalizing state with
  | nil => rfl
  | cons block blocks ih => exact Stream.result_andThen_ok.mpr ⟨rfl, ih _⟩

/-- The frames of a block and of those after it. -/
theorem bytes_pushBlocks_cons (state : σ) (block : Bytes) (blocks : List Bytes) :
    (pushBlocks sodium state (block :: blocks)).bytes =
      (frame (sodium.push state block 0).1).bytes ++
        (pushBlocks sodium (sodium.push state block 0).2 blocks).bytes :=
  Stream.bytes_andThen rfl _

/-- What comes out of the frames, of which the last one ends the stream. -/
theorem pullLoop_pushBlocks (h : sodium.Correct IsKeyPair InStep) {state state' : σ}
    (hstep : InStep state state') {blocks : List Bytes}
    (hblocks : ∀ block ∈ blocks, block.length ≤ plaintextChunkSize) {fuel : ℕ}
    (hfuel : blocks.length < fuel) (rest : Bytes) :
    (pullLoop sodium fuel state' ((pushBlocks sodium state blocks).bytes ++ rest)).result = .ok () ∧
      (pullLoop sodium fuel state' ((pushBlocks sodium state blocks).bytes ++ rest)).bytes =
        blocks.flatten := by
  induction blocks generalizing state state' fuel with
  | nil =>
      obtain ⟨fuel, rfl⟩ : ∃ k, fuel = k + 1 := ⟨fuel - 1, by simp at hfuel; omega⟩
      obtain ⟨state'', hpull, -⟩ := h.pull hstep [] tagFinal
      have hle : (sodium.push state [] tagFinal).1.length ≤ ciphertextMaxChunkSize := by
        rw [h.length_push]
        decide
      rw [pullLoop, pushBlocks, (reads_frame hle).append]
      simp only [hpull]
      exact ⟨rfl, rfl⟩
  | cons block blocks ih =>
      obtain ⟨fuel, rfl⟩ : ∃ k, fuel = k + 1 := ⟨fuel - 1, by simp at hfuel; omega⟩
      obtain ⟨state'', hpull, hstep'⟩ := h.pull hstep block 0
      have hle : (sodium.push state block 0).1.length ≤ ciphertextMaxChunkSize := by
        rw [h.length_push, ciphertextMaxChunkSize]
        have := hblocks block List.mem_cons_self
        omega
      obtain ⟨hresult, hbytes⟩ := ih hstep' (fun b hb => hblocks b (List.mem_cons_of_mem _ hb))
        (by simp at hfuel; omega)
      rw [pullLoop, bytes_pushBlocks_cons, List.append_assoc, (reads_frame hle).append]
      simp only [hpull, if_true]
      refine ⟨Stream.result_andThen_ok.mpr ⟨rfl, hresult⟩, ?_⟩
      rw [Stream.bytes_andThen rfl, Stream.bytes_write, hbytes, List.flatten_cons]

/-- Frames that have been cut short: the stream does not end. -/
theorem pullLoop_truncated (h : sodium.Correct IsKeyPair InStep) {state state' : σ}
    (hstep : InStep state state') {blocks : List Bytes}
    (hblocks : ∀ block ∈ blocks, block.length ≤ plaintextChunkSize) {cut : Bytes}
    (hcut : cut <+: (pushBlocks sodium state blocks).bytes)
    (hne : cut ≠ (pushBlocks sodium state blocks).bytes) (fuel : ℕ) :
    ∃ e, (pullLoop sodium fuel state' cut).result = .error e := by
  induction blocks generalizing state state' fuel cut with
  | nil =>
      cases fuel with
      | zero => exact ⟨_, rfl⟩
      | succ fuel =>
          -- only the last frame is left, and it has been cut
          have hle : (sodium.push state [] tagFinal).1.length ≤ ciphertextMaxChunkSize := by
            rw [h.length_push]
            decide
          obtain ⟨e, -, hfail⟩ := (reads_frame hle).truncated cut hcut hne
          rw [pullLoop, hfail]
          exact ⟨e, rfl⟩
  | cons block blocks ih =>
      cases fuel with
      | zero => exact ⟨_, rfl⟩
      | succ fuel =>
          obtain ⟨state'', hpull, hstep'⟩ := h.pull hstep block 0
          have hle : (sodium.push state block 0).1.length ≤ ciphertextMaxChunkSize := by
            rw [h.length_push, ciphertextMaxChunkSize]
            have := hblocks block List.mem_cons_self
            omega
          rw [bytes_pushBlocks_cons] at hcut hne
          rw [pullLoop]
          -- the cut is in the first frame, or in those after it
          rcases Reads.prefix_append_cases hcut hne with ⟨hcut, hne⟩ | ⟨cut, rfl, hcut, hne⟩
          · obtain ⟨e, -, hfail⟩ := (reads_frame hle).truncated cut hcut hne
            rw [hfail]
            exact ⟨e, rfl⟩
          · obtain ⟨e, he⟩ := ih hstep' (fun b hb => hblocks b (List.mem_cons_of_mem _ hb)) hcut
              hne fuel
            rw [(reads_frame hle).append]
            simp only [hpull, if_true]
            exact ⟨e, by rw [Stream.result_andThen, Stream.result_write, he]; rfl⟩

/-!
## The whole payload

Entries, header, frames. Each part is read up to where it ends and no further, so that the readers
can be sequenced.
-/

theorem sealSymKey_ok (h : sodium.Correct IsKeyPair InStep) {keyPairs : List KeyPair}
    (hpairs : ∀ keyPair ∈ keyPairs, ∃ privKey, IsKeyPair keyPair.pubKey privKey) (i : ℕ) :
    (sealSymKey sodium random keyPairs i).result = .ok () := by
  induction keyPairs generalizing i with
  | nil => rfl
  | cons keyPair keyPairs ih =>
      obtain ⟨privKey, hpair⟩ := hpairs keyPair List.mem_cons_self
      obtain ⟨encryptedSymKey, hseal⟩ := Option.isSome_iff_exists.mp
        (h.boxSeal hpair (random.ephemeral i) random.symKey)
      rw [sealSymKey, hseal]
      exact Stream.result_andThen_ok.mpr
        ⟨rfl, ih (fun k hk => hpairs k (List.mem_cons_of_mem _ hk)) _⟩

/-- The parts of the payload. -/
theorem encryptToFd_spec (h : sodium.Correct IsKeyPair InStep) (keyPairs : List KeyPair)
    (input : Bytes) : ∃ state header state',
      sodium.initPull header random.symKey = some state' ∧ InStep state state' ∧
      ((encryptToFd sodium random keyPairs input).result = .ok () ↔
        (sealSymKey sodium random keyPairs 0).result = .ok ()) ∧
      ((sealSymKey sodium random keyPairs 0).result = .ok () →
        (encryptToFd sodium random keyPairs input).bytes =
          (sealSymKey sodium random keyPairs 0).bytes ++
            (header.toList ++ (pushBlocks sodium state (blocks input)).bytes)) := by
  obtain ⟨state, header, state', hpush, hpull, hstep⟩ := h.initPush random.header random.symKey
  refine ⟨state, header, state', hpull, hstep, ?_, fun hok => ?_⟩
  · rw [encryptToFd, h.init, hpush, Bool.not_true, if_neg Bool.false_ne_true]
    refine Stream.result_andThen_ok.trans (and_iff_left ?_)
    exact Stream.result_andThen_ok.mpr ⟨rfl, result_pushBlocks _ _⟩
  · rw [encryptToFd, h.init, hpush, Bool.not_true, if_neg Bool.false_ne_true,
      Stream.bytes_andThen hok, Stream.bytes_andThen rfl, Stream.bytes_write]

/-- Encryption succeeds for key pairs that have a private key. -/
theorem encryptToFd_ok (h : sodium.Correct IsKeyPair InStep) {keyPairs : List KeyPair}
    (hpairs : ∀ keyPair ∈ keyPairs, ∃ privKey, IsKeyPair keyPair.pubKey privKey) (input : Bytes) :
    (encryptToFd sodium random keyPairs input).result = .ok () := by
  obtain ⟨-, -, -, -, -, hresult, -⟩ := encryptToFd_spec h keyPairs input
  exact hresult.mpr (sealSymKey_ok h hpairs 0)

/-- Every entry takes bytes. -/
theorem length_le_sealSymKey {keyPairs : List KeyPair} {i : ℕ}
    (hok : (sealSymKey sodium random keyPairs i).result = .ok ()) :
    keyPairs.length ≤ (sealSymKey sodium random keyPairs i).bytes.length := by
  induction keyPairs generalizing i with
  | nil => exact Nat.zero_le _
  | cons keyPair keyPairs ih =>
      obtain ⟨encryptedSymKey, -, hok', hbytes⟩ := sealSymKey_cons_ok hok
      have := ih hok'
      rw [hbytes]
      simp only [List.length_append, List.length_cons, List.length_nil]
      omega

/-- Every frame takes bytes. -/
theorem length_le_pushBlocks (state : σ) (blocks : List Bytes) :
    blocks.length ≤ (pushBlocks sodium state blocks).bytes.length := by
  induction blocks generalizing state with
  | nil => exact Nat.zero_le _
  | cons block blocks ih =>
      have hrest := ih (sodium.push state block 0).2
      have hlength : (serialise (UInt32.ofNat (sodium.push state block 0).1.length)).length = 4 :=
        LittleEndian.length_toBytes _
      rw [bytes_pushBlocks_cons, bytes_frame, List.length_append, List.length_append, hlength,
        List.length_cons]
      omega

/-- A key pair that can open the payload: its id is among those of the entries, and no entry with
its id was sealed to another public key. -/
structure Opens (IsKeyPair : ByteArray' 32 → ByteArray' 32 → Prop) (keyPairs : List KeyPair)
    (decryptedKeyPair : DecryptedKeyPair) : Prop where
  isKeyPair : IsKeyPair decryptedKeyPair.keyPair.pubKey decryptedKeyPair.privKeyPlaintext
  mem : decryptedKeyPair.keyPair ∈ keyPairs
  ids : ∀ keyPair ∈ keyPairs, keyPair.getKeyId = decryptedKeyPair.keyPair.getKeyId →
    keyPair.pubKey = decryptedKeyPair.keyPair.pubKey

/-- In particular if all ids are different. -/
theorem opens_of_nodup {keyPairs : List KeyPair}
    (hpair : IsKeyPair decryptedKeyPair.keyPair.pubKey decryptedKeyPair.privKeyPlaintext)
    (hmem : decryptedKeyPair.keyPair ∈ keyPairs) (hnodup : (keyPairs.map KeyPair.getKeyId).Nodup) :
    Opens IsKeyPair keyPairs decryptedKeyPair := by
  refine ⟨hpair, hmem, fun keyPair hkeyPair hid => ?_⟩
  rw [List.inj_on_of_nodup_map hnodup hkeyPair hmem hid]

theorem openSymKey_append (h : sodium.Correct IsKeyPair InStep) {keyPairs : List KeyPair}
    (hopens : Opens IsKeyPair keyPairs decryptedKeyPair)
    (hok : (sealSymKey sodium random keyPairs 0).result = .ok ()) (rest : Bytes) :
    openSymKey sodium decryptedKeyPair ((sealSymKey sodium random keyPairs 0).bytes ++ rest) =
      .ok (random.symKey, rest) := by
  have hid : decryptedKeyPair.keyPair.getKeyId ∈ keyPairs.map KeyPair.getKeyId :=
    List.mem_map_of_mem hopens.mem
  have hfuel := length_le_sealSymKey hok
  rw [openSymKey, openSymKeyLoop_sealSymKey h hopens.isKeyPair (List.ne_nil_of_mem hopens.mem)
    hopens.ids hok (by rw [List.length_append]; omega), if_pos hid]
  rfl

/-- Decrypting what was encrypted gives the plaintext. -/
theorem decryptFromFd_encryptToFd (h : sodium.Correct IsKeyPair InStep) {keyPairs : List KeyPair}
    (hopens : Opens IsKeyPair keyPairs decryptedKeyPair) {input : Bytes}
    (hok : (encryptToFd sodium random keyPairs input).result = .ok ()) :
    (decryptFromFd sodium decryptedKeyPair
        (encryptToFd sodium random keyPairs input).bytes).result = .ok () ∧
      (decryptFromFd sodium decryptedKeyPair
        (encryptToFd sodium random keyPairs input).bytes).bytes = input := by
  obtain ⟨state, header, state', hpull, hstep, hresult, hbytes⟩ :=
    encryptToFd_spec h keyPairs input
  have hseal := hresult.mp hok
  have hblocks := blocks_chunked input
  have hfuel : (blocks input).length < (pushBlocks sodium state (blocks input)).bytes.length + 1 :=
    Nat.lt_succ_of_le (length_le_pushBlocks state (blocks input))
  have hframes := pullLoop_pushBlocks h hstep hblocks.le hfuel []
  rw [List.append_nil, hblocks.flatten] at hframes
  rw [hbytes hseal, decryptFromFd, h.init, Bool.not_true, if_neg Bool.false_ne_true,
    openSymKey_append h hopens hseal]
  simp only [(reads_readBytesExact header).append, hpull]
  exact hframes

/-- Decrypting a payload that has been cut short fails. -/
theorem decryptFromFd_truncated (h : sodium.Correct IsKeyPair InStep) {keyPairs : List KeyPair}
    (hopens : Opens IsKeyPair keyPairs decryptedKeyPair) {input : Bytes}
    (hok : (encryptToFd sodium random keyPairs input).result = .ok ()) {cut : Bytes}
    (hcut : cut <+: (encryptToFd sodium random keyPairs input).bytes)
    (hne : cut ≠ (encryptToFd sodium random keyPairs input).bytes) :
    ∃ e, (decryptFromFd sodium decryptedKeyPair cut).result = .error e := by
  obtain ⟨state, header, state', hpull, hstep, hresult, hbytes⟩ :=
    encryptToFd_spec h keyPairs input
  have hseal := hresult.mp hok
  rw [hbytes hseal] at hcut hne
  rw [decryptFromFd, h.init, Bool.not_true, if_neg Bool.false_ne_true]
  rcases Reads.prefix_append_cases hcut hne with ⟨hcut, hne⟩ | ⟨cut, rfl, hcut, hne⟩
  · -- in the entries
    obtain ⟨e, hfail⟩ := openSymKeyLoop_truncated hseal hcut
      hne (cut.length + 1) none
    rw [openSymKey, hfail]
    exact ⟨e, rfl⟩
  · rw [openSymKey_append h hopens hseal]
    dsimp only
    rcases Reads.prefix_append_cases hcut hne with ⟨hcut, hne⟩ | ⟨cut, rfl, hcut, hne⟩
    · -- in the header
      obtain ⟨e, -, hfail⟩ := (reads_readBytesExact header).truncated cut hcut hne
      rw [hfail]
      exact ⟨e, rfl⟩
    · -- in the frames
      simp only [(reads_readBytesExact header).append, hpull]
      exact pullLoop_truncated h hstep (blocks_chunked input).le hcut hne _

/-- A key pair with whose id an entry was sealed to another public key cannot open the payload. -/
theorem decryptFromFd_fails (h : sodium.Correct IsKeyPair InStep)
    (hrejects : sodium.Rejects IsKeyPair)
    (hpair : IsKeyPair decryptedKeyPair.keyPair.pubKey decryptedKeyPair.privKeyPlaintext)
    {keyPairs : List KeyPair} {wrong : KeyPair} (hmem : wrong ∈ keyPairs)
    (hid : wrong.getKeyId = decryptedKeyPair.keyPair.getKeyId)
    (hpub : wrong.pubKey ≠ decryptedKeyPair.keyPair.pubKey) {input : Bytes}
    (hok : (encryptToFd sodium random keyPairs input).result = .ok ()) :
    ∃ e, (decryptFromFd sodium decryptedKeyPair
      (encryptToFd sodium random keyPairs input).bytes).result = .error e := by
  obtain ⟨state, header, -, -, -, hresult, hbytes⟩ :=
    encryptToFd_spec h keyPairs input
  have hseal := hresult.mp hok
  rw [hbytes hseal, decryptFromFd, h.init, Bool.not_true, if_neg Bool.false_ne_true, openSymKey]
  obtain ⟨e, hfail⟩ := openSymKeyLoop_wrong hrejects hpair hseal hmem hid hpub
    (((sealSymKey sodium random keyPairs 0).bytes ++ (header.toList ++
      (pushBlocks sodium state (blocks input)).bytes)).length + 1)
    (header.toList ++ (pushBlocks sodium state (blocks input)).bytes) none
  rw [hfail]
  exact ⟨e, rfl⟩

end

/-!
## Lengths

Every part of a payload is longer than what comes out of it. A payload that decrypts to itself is
therefore empty.
-/

theorem length_of_readBytesExact {n : ℕ} {data rest : Bytes} {v : List.Vector Byte n}
    (h : Ioutil.readBytesExact n data = .ok (v, rest)) : n + rest.length = data.length := by
  unfold Ioutil.readBytesExact at h
  split at h
  · cases h
    simp
    omega
  · cases h

theorem length_of_readEntry {data rest : Bytes} {entry : ByteArray' 16 × ByteArray' 80 × ByteArray' 1}
    (h : readEntry data = .ok (entry, rest)) : 97 + rest.length = data.length := by
  obtain ⟨⟨keyId, data₁⟩, hkeyId, h⟩ := ok_of_bind h
  obtain ⟨⟨encryptedSymKey, data₂⟩, hencrypted, h⟩ := ok_of_bind h
  obtain ⟨⟨isLast, data₃⟩, hisLast, h⟩ := ok_of_bind h
  cases h
  have h₁ := length_of_readBytesExact hkeyId
  have h₂ := length_of_readBytesExact hencrypted
  have h₃ := length_of_readBytesExact hisLast
  omega

/-- At least one entry has been read. -/
theorem length_of_openSymKeyLoop {decryptedKeyPair : DecryptedKeyPair} {fuel : ℕ}
    {data rest : Bytes} {symKey symKey' : Option (ByteArray' 32)}
    (h : openSymKeyLoop sodium decryptedKeyPair fuel data symKey = .ok (symKey', rest)) :
    97 + rest.length ≤ data.length := by
  induction fuel generalizing data symKey with
  | zero => cases h
  | succ fuel ih =>
      rw [openSymKeyLoop_succ] at h
      obtain ⟨⟨entry, data₁⟩, hentry, h⟩ := ok_of_bind h
      obtain ⟨found, -, h⟩ := ok_of_bind h
      have hlength := length_of_readEntry hentry
      split at h
      · cases h
        exact hlength.le
      · have hrest := ih h
        dsimp only at hrest
        omega

theorem length_of_readFrame {data buf rest : Bytes} (h : readFrame data = .ok (buf, rest)) :
    buf.length + rest.length ≤ data.length := by
  obtain ⟨⟨nbytesbuf, data₁⟩, hnbytes, h⟩ := ok_of_bind h
  obtain ⟨⟨v, data₂⟩, hv, h⟩ := ok_of_bind h
  cases h
  have h₁ := length_of_readBytesExact hnbytes
  have h₂ := length_of_readBytesExact hv
  rw [List.Vector.toList_length]
  omega

/-- What comes out of the frames is no longer than they are. -/
theorem length_pullLoop (h : sodium.Shortens) (fuel : ℕ) (state : σ) (data : Bytes) :
    (pullLoop sodium fuel state data).bytes.length ≤ data.length := by
  induction fuel generalizing state data with
  | zero => exact Nat.zero_le _
  | succ fuel ih =>
      rw [pullLoop]
      cases hframe : readFrame data with
      | error e => exact Nat.zero_le _
      | ok read =>
          obtain ⟨buf, rest⟩ := read
          have hlength := length_of_readFrame hframe
          dsimp only
          cases hpull : sodium.pull state buf with
          | none => exact Nat.zero_le _
          | some pulled =>
              obtain ⟨⟨message, tag⟩, state'⟩ := pulled
              have hmessage := h hpull
              rw [Stream.bytes_andThen rfl, Stream.bytes_write, List.length_append]
              split
              · have hrest := ih state' rest
                omega
              · split
                · rw [Stream.bytes_fail, List.length_nil]
                  omega
                · show message.length + 0 ≤ _
                  omega

theorem length_of_openSymKey {decryptedKeyPair : DecryptedKeyPair} {data rest : Bytes}
    {symKey : ByteArray' 32} (h : openSymKey sodium decryptedKeyPair data = .ok (symKey, rest)) :
    97 + rest.length ≤ data.length := by
  obtain ⟨⟨found, data₁⟩, hloop, h⟩ := ok_of_bind h
  cases found with
  | none => cases h
  | some _ =>
      cases h
      exact length_of_openSymKeyLoop hloop

/-- Only an empty payload decrypts to itself. -/
theorem eq_nil_of_decryptFromFd_self (h : sodium.Shortens) {decryptedKeyPair : DecryptedKeyPair}
    {input : Bytes} (hself : (decryptFromFd sodium decryptedKeyPair input).bytes = input) :
    input = [] := by
  unfold decryptFromFd at hself
  split at hself
  · exact hself.symm
  · split at hself
    · exact hself.symm
    · next symKey data hopen =>
        split at hself
        · exact hself.symm
        · next header frames hheader =>
            split at hself
            · exact hself.symm
            · next state _ =>
                -- an entry and the header are not part of what comes out
                have hentries := length_of_openSymKey hopen
                have hframes := length_of_readBytesExact hheader
                have hout := length_pullLoop h (frames.length + 1) state frames
                rw [hself] at hout
                omega

end EncryptionUtil

end Diffmonger
