import Mathlib

/-!
# Little-endian bytes of a machine word

The shift-and-mask loops that serializers use, over a word of any width: byte
`i` of a word is its eight bits from `8*i` on, and a word is read back by
or-ing shifted bytes.  Both directions are proved bit by bit, so that they hold
for every word and for every byte string.
-/

namespace MiniKV.LittleEndian

/-- `(value >> (index * 8)) & 0xFF`. -/
def byteAt {width : ℕ} (value : BitVec width) (index : ℕ) : UInt8 :=
  ⟨((value >>> (index * 8)) &&& BitVec.ofNat width 0xFF).setWidth 8⟩

/-- The loop `value |= byte << (index * 8)` over the first `count` bytes. -/
def fromBytes (width : ℕ) (bytes : ℕ → UInt8) (count : ℕ) : BitVec width :=
  (List.range count).foldl
    (fun value index =>
      value ||| ((bytes index).toBitVec.setWidth width <<< (index * 8)))
    (BitVec.ofNat width 0)

/-- The first `count` bytes of a word, least significant first. -/
def toBytes {width : ℕ} (count : ℕ) (value : BitVec width) : List UInt8 :=
  (List.range count).map (byteAt value)

@[simp]
theorem length_toBytes {width : ℕ} (count : ℕ) (value : BitVec width) :
    (toBytes count value).length = count := by
  simp [toBytes]

private theorem getLsbD_mask {width bit : ℕ} (hwidth : bit < width)
    (hbit : bit < 8) : (BitVec.ofNat width 0xFF).getLsbD bit = true := by
  rw [BitVec.getLsbD_ofNat]
  have hmask : Nat.testBit 0xFF bit = true := by
    interval_cases bit <;> rfl
  simp [hwidth, hmask]

theorem getLsbD_byteAt {width : ℕ} (value : BitVec width) (index bit : ℕ)
    (hbit : bit < 8) :
    (byteAt value index).toBitVec.getLsbD bit =
      value.getLsbD (index * 8 + bit) := by
  simp only [byteAt, BitVec.getLsbD_setWidth, BitVec.getLsbD_and,
    BitVec.getLsbD_ushiftRight, hbit, decide_true, Bool.true_and]
  by_cases hwidth : bit < width
  · rw [getLsbD_mask hwidth hbit, Bool.and_true]
  · have hbeyond : value.getLsbD (index * 8 + bit) = false :=
      BitVec.getLsbD_of_ge _ _ (by omega)
    simp [hbeyond]

private theorem fromBytes_succ (width : ℕ) (bytes : ℕ → UInt8) (count : ℕ) :
    fromBytes width bytes (count + 1) =
      fromBytes width bytes count |||
        ((bytes count).toBitVec.setWidth width <<< (count * 8)) := by
  simp [fromBytes, List.range_succ]

/-- A word read from bytes depends on those bytes only. -/
theorem fromBytes_congr (width : ℕ) {left right : ℕ → UInt8} {count : ℕ}
    (hbytes : ∀ index < count, left index = right index) :
    fromBytes width left count = fromBytes width right count := by
  induction count with
  | zero => rfl
  | succ count ih =>
      rw [fromBytes_succ, fromBytes_succ, hbytes count (Nat.lt_succ_self count),
        ih fun index hindex => hbytes index (Nat.lt_succ_of_lt hindex)]

/-- Bit `bit` of a word read from bytes is bit `bit % 8` of byte `bit / 8`. -/
theorem getLsbD_fromBytes (width : ℕ) (bytes : ℕ → UInt8) (count bit : ℕ)
    (hwidth : bit < width) :
    (fromBytes width bytes count).getLsbD bit =
      (decide (bit < count * 8) &&
        (bytes (bit / 8)).toBitVec.getLsbD (bit % 8)) := by
  induction count with
  | zero => simp [fromBytes]
  | succ count ih =>
      rw [fromBytes_succ, BitVec.getLsbD_or, ih, BitVec.getLsbD_shiftLeft,
        BitVec.getLsbD_setWidth]
      by_cases hlow : bit < count * 8
      · have hnext : bit < (count + 1) * 8 := by omega
        simp [hlow, hnext]
      by_cases hbyte : bit < (count + 1) * 8
      · have hindex : bit / 8 = count := by omega
        have hoffset : bit - count * 8 = bit % 8 := by omega
        have hmod : bit % 8 < width := by omega
        simp [hlow, hbyte, hindex, hoffset, hwidth, hmod]
      · have hhigh : (bytes count).toBitVec.getLsbD (bit - count * 8) = false :=
          BitVec.getLsbD_of_ge _ _ (by omega)
        simp [hlow, hbyte, hhigh]

/-- The bytes of a word that was read from bytes are those bytes. -/
theorem byteAt_fromBytes {width count : ℕ} (bytes : ℕ → UInt8)
    (hwidth : width = count * 8) {index : ℕ} (hindex : index < count) :
    byteAt (fromBytes width bytes count) index = bytes index := by
  apply UInt8.toBitVec_inj.mp
  apply BitVec.eq_of_getLsbD_eq
  intro bit hbit
  rw [getLsbD_byteAt _ _ _ hbit, getLsbD_fromBytes _ _ _ _ (by omega)]
  have hbound : index * 8 + bit < count * 8 := by omega
  have hdiv : (index * 8 + bit) / 8 = index := by omega
  have hmod : (index * 8 + bit) % 8 = bit := by omega
  simp only [hbound, hdiv, hmod, decide_true, Bool.true_and]

/-- A word is determined by its bytes. -/
theorem toBytes_injective {width count : ℕ} (hwidth : width = count * 8) :
    Function.Injective (toBytes count : BitVec width → List UInt8) := by
  intro left right heq
  rw [toBytes, toBytes, List.map_inj_left] at heq
  apply BitVec.eq_of_getLsbD_eq
  intro bit hbit
  have hindex : bit / 8 * 8 + bit % 8 = bit := Nat.div_add_mod' bit 8
  have hbyte : bit / 8 ∈ List.range count := by
    rw [List.mem_range]
    omega
  have hmod : bit % 8 < 8 := Nat.mod_lt _ (by omega)
  rw [← hindex, ← getLsbD_byteAt _ _ _ hmod, ← getLsbD_byteAt _ _ _ hmod,
    heq _ hbyte]

end MiniKV.LittleEndian
