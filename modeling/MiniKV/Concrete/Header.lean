import MiniKV.Concrete.Record

/-!
# The 28-byte record header

`put16`, `put32` and `put64` write little-endian fields into a
`std::array<char, 28>`, `get16`, `get32` and `get64` read them back, and
`makeHeader` and `parseHeader` place the fields.  `Header` carries the array's
size, so a header of any other length cannot be built.
-/

namespace MiniKV

open LittleEndian

/-- `std::array<char, kRecordHeaderSize>`. -/
structure Header where
  bytes : Bytes
  size : bytes.length = kRecordHeaderSize
  deriving DecidableEq

namespace Header

/-- `std::array<char, kRecordHeaderSize> header{}`. -/
def zero : Header := ⟨List.replicate kRecordHeaderSize 0, by simp⟩

/-- `bytes[index] = byte`; every index of the source is below 28. -/
def set (header : Header) (index : ℕ) (byte : UInt8) : Header :=
  ⟨header.bytes.set index byte, by simp [header.size]⟩

/-- `bytes[index]`; every index of the source is below 28. -/
def byte (header : Header) (index : ℕ) : UInt8 := header.bytes.getD index 0

/-- The loop of the three `put` functions over `count` bytes. -/
def put {width : ℕ} (header : Header) (offset count : ℕ)
    (value : BitVec width) : Header :=
  (List.range count).foldl
    (fun header index => header.set (offset + index) (byteAt value index))
    header

/-- The loop of the three `get` functions over `count` bytes. -/
def read (header : Header) (width offset count : ℕ) : BitVec width :=
  fromBytes width (fun index => header.byte (offset + index)) count

end Header

def put16 (bytes : Header) (offset : ℕ) (value : UInt16) : Header :=
  bytes.put offset 2 value.toBitVec

def put32 (bytes : Header) (offset : ℕ) (value : UInt32) : Header :=
  bytes.put offset 4 value.toBitVec

def put64 (bytes : Header) (offset : ℕ) (value : UInt64) : Header :=
  bytes.put offset 8 value.toBitVec

def get16 (bytes : Header) (offset : ℕ) : UInt16 := ⟨bytes.read 16 offset 2⟩

def get32 (bytes : Header) (offset : ℕ) : UInt32 := ⟨bytes.read 32 offset 4⟩

def get64 (bytes : Header) (offset : ℕ) : UInt64 := ⟨bytes.read 64 offset 8⟩

structure ParsedHeader where
  operation : Operation
  keySize : UInt32
  valueSize : UInt32
  expiresAtMs : Int64
  checksum : UInt32
  deriving DecidableEq

def makeHeader (record : Record) : Header :=
  let header := Header.zero
  let header := put32 header 0 kRecordMagic
  let header := put16 header 4 kRecordVersion
  let header := header.set 6 record.operation.toByte
  let header := header.set 7 0
  let header := put32 header 8 (UInt32.ofNat record.key.length)
  let header := put32 header 12 (UInt32.ofNat record.value.length)
  let header := put64 header 16 record.expiresAtMs.toUInt64
  put32 header 24 (recordChecksum record.operation record.expiresAtMs
    record.key record.value)

def parseHeader (header : Header) : Result ParsedHeader :=
  if get32 header 0 ≠ kRecordMagic then
    .error (.corruption "record magic does not match MKV1")
  else if get16 header 4 ≠ kRecordVersion then
    .error (.corruption "unsupported record version")
  else
    match Operation.ofByte (header.byte 6) with
    | none => .error (.corruption "unknown record operation")
    | some operation =>
        let parsed : ParsedHeader :=
          { operation := operation
            keySize := get32 header 8
            valueSize := get32 header 12
            expiresAtMs := (get64 header 16).toInt64
            checksum := get32 header 24 }
        if parsed.keySize = 0 ∨ parsed.keySize.toNat > kMaximumKeySize then
          .error (.corruption "invalid key size in record")
        else if parsed.valueSize.toNat > kMaximumValueSize then
          .error (.corruption "invalid value size in record")
        else if parsed.operation = .delete ∧ parsed.valueSize ≠ 0 then
          .error (.corruption "delete record contains a value")
        else
          .ok parsed

end MiniKV
