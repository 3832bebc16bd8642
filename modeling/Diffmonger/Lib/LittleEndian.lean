import Mathlib.Data.List.Basic
import Mathlib.Data.Nat.Notation

/-!
# Little-endian words

A word of `w` bytes is a `BitVec (8 * w)`. `toBytes` shifts each byte of the word down, `fromBytes`
shifts each byte up and combines them with `|||`; bit `j` of the word is bit `j % 8` of byte
`j / 8` (`getLsbD_fromBytes`, `getLsbD_getElem_toBytes`), so the two are inverse to each other.
-/

namespace LittleEndian

variable {w : ℕ}

/-- The bytes of a word, least significant first. -/
def toBytes (w : ℕ) (value : BitVec (8 * w)) : List UInt8 :=
  (List.range w).map fun i => UInt8.ofBitVec ((value >>> (i * 8)).setWidth 8)

/-- The word with the given bytes. -/
def fromBytes (w : ℕ) (bytes : List UInt8) : BitVec (8 * w) :=
  (List.range w).foldl
    (fun value i => value ||| (bytes.getD i 0).toBitVec.setWidth (8 * w) <<< (i * 8)) 0

@[simp] theorem length_toBytes (value : BitVec (8 * w)) : (toBytes w value).length = w := by
  rw [toBytes, List.length_map, List.length_range]

theorem getLsbD_toBytes (value : BitVec (8 * w)) {i : ℕ} (hi : i < w) (j : ℕ) :
    ((toBytes w value).getD i 0).toBitVec.getLsbD j =
      (decide (j < 8) && value.getLsbD (8 * i + j)) := by
  have hget : (toBytes w value).getD i 0 =
      UInt8.ofBitVec ((value >>> (i * 8)).setWidth 8) := by
    simp [toBytes, hi]
  rw [hget, UInt8.toBitVec_ofBitVec, BitVec.getLsbD_setWidth, BitVec.getLsbD_ushiftRight,
    Nat.mul_comm i 8]

/-- The bits of the partial word that the first `k` bytes make up. -/
theorem getLsbD_fromBytes_range (bytes : List UInt8) (k j : ℕ) :
    ((List.range k).foldl (fun value i =>
      value ||| (bytes.getD i 0).toBitVec.setWidth (8 * w) <<< (i * 8)) (0 : BitVec (8 * w))).getLsbD j
      = (decide (j < 8 * w) && (decide (j / 8 < k) &&
          (bytes.getD (j / 8) 0).toBitVec.getLsbD (j % 8))) := by
  induction k with
  | zero => simp
  | succ k ih =>
      rw [List.range_succ, List.foldl_append, List.foldl_cons, List.foldl_nil, BitVec.getLsbD_or, ih,
        BitVec.getLsbD_shiftLeft, BitVec.getLsbD_setWidth]
      rcases Nat.lt_trichotomy (j / 8) k with h | h | h
      · have hlt : j < k * 8 := by omega
        simp [h, hlt, Nat.lt_succ_of_lt h]
      · -- this byte contributes the bit
        subst h
        have hge : ¬ j < j / 8 * 8 := by omega
        have hsub : j - j / 8 * 8 = j % 8 := by omega
        rcases Nat.lt_or_ge j (8 * w) with hj | hj
        · have : j % 8 < 8 * w := by omega
          simp [hge, hsub, hj, this]
        · have : ¬ j < 8 * w := by omega
          simp [this]
      · -- a bit above this byte
        have h1 : ¬ j / 8 < k := by omega
        have h2 : ¬ j / 8 < k + 1 := by omega
        have h3 : 8 ≤ j - k * 8 := by omega
        simp [h1, h2, BitVec.getLsbD_of_ge _ _ h3]

theorem getLsbD_fromBytes (bytes : List UInt8) {j : ℕ} (hj : j < 8 * w) :
    (fromBytes w bytes).getLsbD j = (bytes.getD (j / 8) 0).toBitVec.getLsbD (j % 8) := by
  have hdiv : j / 8 < w := by omega
  rw [fromBytes, getLsbD_fromBytes_range]
  simp [hj, hdiv]

@[simp] theorem fromBytes_toBytes (value : BitVec (8 * w)) : fromBytes w (toBytes w value) = value := by
  apply BitVec.eq_of_getLsbD_eq
  intro j hj
  have hmod : j % 8 < 8 := Nat.mod_lt _ (by decide)
  have hsum : 8 * (j / 8) + j % 8 = j := Nat.div_add_mod j 8
  rw [getLsbD_fromBytes _ hj, getLsbD_toBytes value (by omega), hsum]
  simp [hmod]

theorem toBytes_fromBytes {bytes : List UInt8} (h : bytes.length = w) :
    toBytes w (fromBytes w bytes) = bytes := by
  apply List.ext_getElem (by rw [length_toBytes, h])
  intro i h1 h2
  have hi : i < w := by omega
  have hget (l : List UInt8) (hl : i < l.length) : l[i] = l.getD i 0 := by simp [hl]
  rw [hget _ h1, hget _ h2]
  apply UInt8.toBitVec_inj.mp
  apply BitVec.eq_of_getLsbD_eq
  intro j hj
  have hdiv : (8 * i + j) / 8 = i := by omega
  have hmod : (8 * i + j) % 8 = j := by omega
  rw [getLsbD_toBytes _ hi, getLsbD_fromBytes _ (by omega), hdiv, hmod]
  simp [hj]

end LittleEndian
