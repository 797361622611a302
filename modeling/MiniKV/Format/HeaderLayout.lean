import MiniKV.Concrete.Header

/-!
# Field layout of the header

The 28 header bytes are eight little-endian fields side by side.  `layout`
writes them next to each other, `makeHeader` fills exactly this layout, and
every header is the layout of the fields that the `get` functions read from it.
-/

namespace MiniKV

open LittleEndian

namespace Header

/-- The eight fields in the order of their offsets. -/
def layout (magic : UInt32) (version : UInt16) (operation reserved : UInt8)
    (keySize valueSize : UInt32) (expiresAtMs : UInt64) (checksum : UInt32) :
    Bytes :=
  toBytes 4 magic.toBitVec ++ (toBytes 2 version.toBitVec ++
    ([operation] ++ ([reserved] ++ (toBytes 4 keySize.toBitVec ++
      (toBytes 4 valueSize.toBitVec ++ (toBytes 8 expiresAtMs.toBitVec ++
        toBytes 4 checksum.toBitVec))))))

@[simp]
theorem length_layout (magic : UInt32) (version : UInt16)
    (operation reserved : UInt8) (keySize valueSize : UInt32)
    (expiresAtMs : UInt64) (checksum : UInt32) :
    (layout magic version operation reserved keySize valueSize expiresAtMs
      checksum).length = kRecordHeaderSize := by
  simp [layout, kRecordHeaderSize]

private theorem put_succ {width : ℕ} (header : Header) (offset count : ℕ)
    (value : BitVec width) :
    header.put offset (count + 1) value =
      (header.put offset count value).set (offset + count)
        (byteAt value count) := by
  simp [put, List.range_succ]

/-- A put replaces the bytes from its offset on and nothing else. -/
theorem bytes_put {width : ℕ} {header : Header} {front rest : Bytes}
    (hbytes : header.bytes = front ++ rest) {count : ℕ}
    (hcount : count ≤ rest.length) (value : BitVec width) :
    (header.put front.length count value).bytes =
      front ++ (toBytes count value ++ rest.drop count) := by
  induction count with
  | zero => simp [put, toBytes, hbytes]
  | succ count ih =>
      have hlength : front.length + count =
          (front ++ toBytes count value).length := by simp
      rw [put_succ]
      change (header.put front.length count value).bytes.set _ _ = _
      rw [ih (Nat.le_of_succ_le hcount), ← List.append_assoc, hlength,
        List.set_append_right _ _ le_rfl, Nat.sub_self,
        List.drop_eq_getElem_cons hcount, List.set_cons_zero]
      simp [toBytes, List.range_succ]

/-- Filling the next field of a header that is still zero from there on. -/
theorem bytes_put_zeros {width : ℕ} {header : Header} {front : Bytes}
    (offset count room : ℕ) (value : BitVec width)
    (hbytes : header.bytes = front ++ List.replicate (count + room) 0)
    (hoffset : front.length = offset) :
    (header.put offset count value).bytes =
      (front ++ toBytes count value) ++ List.replicate room 0 := by
  subst hoffset
  rw [bytes_put hbytes (by simp), List.drop_replicate, List.append_assoc,
    Nat.add_sub_cancel_left]

theorem bytes_set_zeros {header : Header} {front : Bytes} (offset room : ℕ)
    (byte : UInt8)
    (hbytes : header.bytes = front ++ List.replicate (1 + room) 0)
    (hoffset : front.length = offset) :
    (header.set offset byte).bytes =
      (front ++ [byte]) ++ List.replicate room 0 := by
  subst hoffset
  change header.bytes.set _ _ = _
  rw [hbytes, List.set_append_right _ _ le_rfl, Nat.sub_self, Nat.add_comm,
    List.replicate_succ, List.set_cons_zero]
  simp

theorem byte_set_of_ne (header : Header) {offset index : ℕ} (byte : UInt8)
    (hindex : index ≠ offset) :
    (header.set offset byte).byte index = header.byte index := by
  simp [Header.byte, Header.set, List.getD_eq_getElem?_getD,
    List.getElem?_set_ne hindex.symm]

/-- The bytes of a field are the bytes it was read from. -/
theorem toBytes_read {width count : ℕ} (header : Header) (offset : ℕ)
    (hwidth : width = count * 8) :
    toBytes count (header.read width offset count) =
      (List.range count).map fun index => header.byte (offset + index) := by
  rw [toBytes]
  apply List.map_congr_left
  intro index hindex
  exact byteAt_fromBytes _ hwidth (List.mem_range.mp hindex)

theorem bytes_eq_map_byte (header : Header) :
    header.bytes = (List.range kRecordHeaderSize).map header.byte := by
  apply List.ext_getElem
  · simp [header.size]
  · intro index hleft _
    simp [Header.byte, hleft]

/-- Every header is the layout of the fields read from it. -/
theorem bytes_eq_layout (header : Header) :
    header.bytes = layout (get32 header 0) (get16 header 4) (header.byte 6)
      (header.byte 7) (get32 header 8) (get32 header 12) (get64 header 16)
      (get32 header 24) := by
  rw [layout, get32, get16, get32, get32, get64, get32,
    toBytes_read header 0 rfl, toBytes_read header 4 rfl,
    toBytes_read header 8 rfl, toBytes_read header 12 rfl,
    toBytes_read header 16 rfl, toBytes_read header 24 rfl,
    bytes_eq_map_byte header]
  rfl

end Header

/-- The given fields written with the `put` functions at the offsets of
`makeHeader`. -/
def encodeHeader (parsed : ParsedHeader) : Header :=
  let header := Header.zero
  let header := put32 header 0 kRecordMagic
  let header := put16 header 4 kRecordVersion
  let header := header.set 6 parsed.operation.toByte
  let header := header.set 7 0
  let header := put32 header 8 parsed.keySize
  let header := put32 header 12 parsed.valueSize
  let header := put64 header 16 parsed.expiresAtMs.toUInt64
  put32 header 24 parsed.checksum

/-- These writes fill the layout, with a zero reserved byte. -/
theorem encodeHeader_bytes (parsed : ParsedHeader) :
    (encodeHeader parsed).bytes =
      Header.layout kRecordMagic kRecordVersion parsed.operation.toByte 0
        parsed.keySize parsed.valueSize parsed.expiresAtMs.toUInt64
        parsed.checksum := by
  have hzero : Header.zero.bytes = [] ++ List.replicate (4 + 24) 0 := rfl
  have hmagic := Header.bytes_put_zeros 0 4 24 kRecordMagic.toBitVec hzero rfl
  have hversion := Header.bytes_put_zeros 4 2 22 kRecordVersion.toBitVec
    hmagic (by simp)
  have hoperation := Header.bytes_set_zeros 6 21 parsed.operation.toByte
    hversion (by simp)
  have hreserved := Header.bytes_set_zeros 7 20 0 hoperation (by simp)
  have hkeySize := Header.bytes_put_zeros 8 4 16 parsed.keySize.toBitVec
    hreserved (by simp)
  have hvalueSize := Header.bytes_put_zeros 12 4 12 parsed.valueSize.toBitVec
    hkeySize (by simp)
  have hexpiresAtMs := Header.bytes_put_zeros 16 8 4
    parsed.expiresAtMs.toUInt64.toBitVec hvalueSize (by simp)
  have hchecksum := Header.bytes_put_zeros 24 4 0 parsed.checksum.toBitVec
    hexpiresAtMs (by simp)
  calc
    (encodeHeader parsed).bytes = _ := hchecksum
    _ = _ := by simp [Header.layout]

/-- `makeHeader` fills the layout, with a zero reserved byte. -/
theorem makeHeader_bytes (record : Record) :
    (makeHeader record).bytes =
      Header.layout kRecordMagic kRecordVersion record.operation.toByte 0
        (UInt32.ofNat record.key.length) (UInt32.ofNat record.value.length)
        record.expiresAtMs.toUInt64
        (recordChecksum record.operation record.expiresAtMs record.key
          record.value) :=
  encodeHeader_bytes ⟨record.operation, UInt32.ofNat record.key.length,
    UInt32.ofNat record.value.length, record.expiresAtMs,
    recordChecksum record.operation record.expiresAtMs record.key
      record.value⟩

namespace Header

section Fields

variable {header : Header} {magic : UInt32} {version : UInt16}
variable {operation reserved : UInt8} {keySize valueSize : UInt32}
variable {expiresAtMs : UInt64} {checksum : UInt32}

/-- The `get` functions read from a layout the fields it was built of. -/
theorem fields_of_layout
    (hbytes : header.bytes = layout magic version operation reserved
      keySize valueSize expiresAtMs checksum) :
    get32 header 0 = magic ∧ get16 header 4 = version ∧
      header.byte 6 = operation ∧ header.byte 7 = reserved ∧
      get32 header 8 = keySize ∧ get32 header 12 = valueSize ∧
      get64 header 16 = expiresAtMs ∧ get32 header 24 = checksum := by
  have hfields := (bytes_eq_layout header).symm.trans hbytes
  simp only [layout] at hfields
  obtain ⟨hmagic, hfields⟩ := List.append_inj hfields (by simp)
  obtain ⟨hversion, hfields⟩ := List.append_inj hfields (by simp)
  obtain ⟨hoperation, hfields⟩ := List.append_inj hfields rfl
  obtain ⟨hreserved, hfields⟩ := List.append_inj hfields rfl
  obtain ⟨hkeySize, hfields⟩ := List.append_inj hfields (by simp)
  obtain ⟨hvalueSize, hfields⟩ := List.append_inj hfields (by simp)
  obtain ⟨hexpiresAtMs, hchecksum⟩ := List.append_inj hfields (by simp)
  exact ⟨UInt32.toBitVec_inj.mp (toBytes_injective rfl hmagic),
    UInt16.toBitVec_inj.mp (toBytes_injective rfl hversion),
    List.singleton_inj.mp hoperation, List.singleton_inj.mp hreserved,
    UInt32.toBitVec_inj.mp (toBytes_injective rfl hkeySize),
    UInt32.toBitVec_inj.mp (toBytes_injective rfl hvalueSize),
    UInt64.toBitVec_inj.mp (toBytes_injective rfl hexpiresAtMs),
    UInt32.toBitVec_inj.mp (toBytes_injective rfl hchecksum)⟩

end Fields

end Header

end MiniKV
