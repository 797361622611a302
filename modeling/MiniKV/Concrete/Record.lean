import MiniKV.Concrete.Status
import MiniKV.Library.FiniteMap
import MiniKV.Library.HashChain
import MiniKV.Library.LittleEndian

/-!
# Records, their checksum and their expiry

`std::string` is a list of bytes, `std::uint32_t` and `std::int64_t` are the
machine types of Lean, and file offsets are natural numbers: no file the store
can create comes near `2^63` bytes.
-/

namespace MiniKV

/-- `std::string`, compared byte by byte as `std::char_traits<char>` does. -/
abbrev Bytes := List UInt8

/-- Bytes are compared as unsigned characters. -/
instance byteOrder : LinearOrder UInt8 where
  le_refl := UInt8.le_refl
  le_trans _ _ _ := UInt8.le_trans
  le_antisymm _ _ := UInt8.le_antisymm
  le_total := UInt8.le_total
  lt_iff_le_not_ge left right := by
    simp only [UInt8.lt_iff_toNat_lt, UInt8.le_iff_toNat_le]
    omega
  toDecidableLE := inferInstance

inductive Operation
  | set
  | delete
  deriving DecidableEq, Repr

/-- `static_cast<std::uint8_t>(operation)`. -/
def Operation.toByte : Operation → UInt8
  | .set => 1
  | .delete => 2

/-- The inverse cast, for the two bytes `parseHeader` lets through. -/
def Operation.ofByte (byte : UInt8) : Option Operation :=
  if byte = 1 then some .set else if byte = 2 then some .delete else none

@[simp]
theorem Operation.ofByte_toByte (operation : Operation) :
    Operation.ofByte operation.toByte = some operation := by
  cases operation <;> rfl

theorem Operation.toByte_of_ofByte {byte : UInt8} {operation : Operation}
    (hbyte : Operation.ofByte byte = some operation) :
    operation.toByte = byte := by
  unfold Operation.ofByte at hbyte
  split at hbyte
  next hset => cases hbyte; exact hset.symm
  · split at hbyte
    next hdelete => cases hbyte; exact hdelete.symm
    · cases hbyte

structure Record where
  operation : Operation
  key : Bytes
  value : Bytes
  expiresAtMs : Int64
  deriving DecidableEq, Repr

structure RecordMetadata where
  recordOffset : ℕ
  valueOffset : ℕ
  valueSize : UInt32
  expiresAtMs : Int64
  deriving DecidableEq, Repr

/-- "MKV1" in little endian. -/
def kRecordMagic : UInt32 := 0x31564B4D

def kRecordVersion : UInt16 := 1

def kRecordHeaderSize : ℕ := 28

def kMaximumKeySize : ℕ := 4 * 1024

def kMaximumValueSize : ℕ := 16 * 1024 * 1024

/-! ## The FNV-1a checksum -/

def hashByte (hash : UInt32) (byte : UInt8) : UInt32 :=
  (hash ^^^ byte.toUInt32) * 16777619

/-- The loop over `shift = 0, 8, .., 56`. -/
def hash64 (hash : UInt32) (value : UInt64) : UInt32 :=
  (List.range 8).foldl
    (fun hash index => hashByte hash (LittleEndian.byteAt value.toBitVec index))
    hash

def recordChecksum (operation : Operation) (expiresAtMs : Int64)
    (key value : Bytes) : UInt32 :=
  let hash := hashByte 2166136261 operation.toByte
  let hash := hash64 hash expiresAtMs.toUInt64
  let hash := hash64 hash (UInt64.ofNat key.length)
  let hash := hash64 hash (UInt64.ofNat value.length)
  let hash := key.foldl hashByte hash
  value.foldl hashByte hash

/-- Everything the checksum covers, in the order it is hashed. -/
def hashedBytes (operation : Operation) (expiresAtMs : Int64)
    (key value : Bytes) : Bytes :=
  operation.toByte :: (LittleEndian.toBytes 8 expiresAtMs.toUInt64.toBitVec ++
    LittleEndian.toBytes 8 (UInt64.ofNat key.length).toBitVec ++
    LittleEndian.toBytes 8 (UInt64.ofNat value.length).toBitVec ++ key ++ value)

theorem recordChecksum_eq_foldl (operation : Operation) (expiresAtMs : Int64)
    (key value : Bytes) :
    recordChecksum operation expiresAtMs key value =
      (hashedBytes operation expiresAtMs key value).foldl hashByte
        2166136261 := by
  simp only [recordChecksum, hashedBytes, hash64, LittleEndian.toBytes,
    List.foldl_cons, List.foldl_append, List.foldl_map]

/-- The FNV prime is odd, so multiplying by it loses nothing modulo `2^32`. -/
private theorem mul_fnvPrime_cancel {left right : UInt32}
    (heq : left * 16777619 = right * 16777619) : left = right := by
  have hinverse : (16777619 : UInt32) * 899433627 = 1 := by decide
  have hscaled := congrArg (· * 899433627) heq
  simpa only [UInt32.mul_assoc, hinverse, UInt32.mul_one] using hscaled

theorem hashByte_injective_state (byte : UInt8) :
    Function.Injective fun hash => hashByte hash byte := by
  intro left right heq
  exact (UInt32.xor_left_inj _).mp (mul_fnvPrime_cancel heq)

theorem hashByte_injective_byte (hash : UInt32) :
    Function.Injective (hashByte hash) := by
  intro left right heq
  have hbyte := (UInt32.xor_right_inj _).mp (mul_fnvPrime_cancel heq)
  exact UInt8.toUInt32_inj.mp hbyte

/-! ## Expiry -/

def isExpired (expiresAtMs nowMs : Int64) : Bool :=
  decide (0 < expiresAtMs) && decide (expiresAtMs ≤ nowMs)

/-- What has expired stays expired while the clock does not go back. -/
theorem isExpired_mono {expiresAtMs nowMs laterMs : Int64}
    (hexpired : isExpired expiresAtMs nowMs = true)
    (hclock : nowMs ≤ laterMs) : isExpired expiresAtMs laterMs = true := by
  simp only [isExpired, Bool.and_eq_true, decide_eq_true_eq] at hexpired ⊢
  exact ⟨hexpired.1, Int64.le_trans hexpired.2 hclock⟩

theorem isExpired_of_later {expiresAtMs nowMs laterMs : Int64}
    (hfresh : isExpired expiresAtMs laterMs = false)
    (hclock : nowMs ≤ laterMs) : isExpired expiresAtMs nowMs = false := by
  rw [← Bool.not_eq_true]
  intro hexpired
  rw [isExpired_mono hexpired hclock] at hfresh
  cases hfresh

/-- On mathematical integers: an expiry of zero or less never comes. -/
theorem isExpired_eq_false_iff {expiresAtMs nowMs : Int64} :
    isExpired expiresAtMs nowMs = false ↔
      expiresAtMs.toInt ≤ 0 ∨ nowMs.toInt < expiresAtMs.toInt := by
  rw [isExpired, Bool.and_eq_false_iff, decide_eq_false_iff_not,
    decide_eq_false_iff_not, Int64.lt_iff_toInt_lt, Int64.le_iff_toInt_le,
    Int64.toInt_zero, not_lt, not_le]

/-! ## What `writeRecord` accepts -/

/-- The sizes and the operation/value combinations of a record on disk. -/
structure Record.Valid (record : Record) : Prop where
  key_ne_nil : record.key ≠ []
  key_size : record.key.length ≤ kMaximumKeySize
  value_size : record.value.length ≤ kMaximumValueSize
  delete_value : record.operation = .delete → record.value = []

theorem Record.valid_iff (record : Record) :
    record.Valid ↔ record.key ≠ [] ∧ record.key.length ≤ kMaximumKeySize ∧
      record.value.length ≤ kMaximumValueSize ∧
      (record.operation = .delete → record.value = []) :=
  ⟨fun hvalid => ⟨hvalid.1, hvalid.2, hvalid.3, hvalid.4⟩,
    fun ⟨hkey, hsize, hvalue, hdelete⟩ => ⟨hkey, hsize, hvalue, hdelete⟩⟩

instance (record : Record) : Decidable record.Valid :=
  decidable_of_iff _ record.valid_iff.symm

end MiniKV
