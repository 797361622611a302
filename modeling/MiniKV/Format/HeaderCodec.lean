import MiniKV.Format.Stored

/-!
# The header codec

`makeHeader` and `parseHeader` are written separately, and so are the checks of
`writeRecord` and of `parseHeader`.  They fit together: an accepted record is
read back field by field, an accepted header is written back byte by byte but
for its reserved byte, and both admit the same operations and sizes.
-/

namespace MiniKV

open AppendOnlyStore (writeRecord writeRecord_of_valid writeRecord_of_not_valid)

/-- `writeRecord` takes the record. -/
def Record.Accepted (record : Record) : Prop :=
  ∃ fault output recordOffset after metadata,
    writeRecord fault output record recordOffset = (after, .ok metadata)

theorem Record.accepted_iff {record : Record} :
    record.Accepted ↔ record.Valid := by
  constructor
  · rintro ⟨fault, output, recordOffset, after, metadata, hwritten⟩
    by_contra hinvalid
    obtain ⟨message, hmessage⟩ :=
      writeRecord_of_not_valid hinvalid fault output recordOffset
    rw [hmessage] at hwritten
    cases hwritten
  · intro hvalid
    exact ⟨none, [], 0, _, _, writeRecord_of_valid hvalid none [] 0⟩

/-! ## Encoding and parsing -/

theorem encodeHeader_image (parsed : ParsedHeader) :
    (encodeHeader parsed).bytes = parsed.image 0 := encodeHeader_bytes parsed

theorem makeHeader_eq_encodeHeader (record : Record) :
    makeHeader record = encodeHeader record.parsed := rfl

/-- The fields that survive being encoded and parsed. -/
theorem parseHeader_encodeHeader_iff {parsed : ParsedHeader} :
    parseHeader (encodeHeader parsed) = .ok parsed ↔ parsed.Valid := by
  constructor
  · intro hparse
    exact (parseHeader_sound hparse).1
  · intro hvalid
    exact parseHeader_of_image hvalid (encodeHeader_image parsed)

/-- `parseHeader` reads back what `makeHeader` makes of a valid record. -/
theorem parseHeader_makeHeader {record : Record} (hvalid : record.Valid) :
    parseHeader (makeHeader record) = .ok record.parsed := by
  rw [makeHeader_eq_encodeHeader]
  exact parseHeader_encodeHeader_iff.mpr hvalid.parsed_valid

/-- The reserved byte stands at index 7 of a header. -/
theorem ParsedHeader.image_set (parsed : ParsedHeader) (reserved other : UInt8) :
    (parsed.image reserved).set 7 other = parsed.image other := by
  simp [image, Header.layout]

/-- An accepted header is written back, with a zero reserved byte. -/
theorem encodeHeader_parsed {header : Header} {parsed : ParsedHeader}
    (hparse : parseHeader header = .ok parsed) :
    encodeHeader parsed = header.set 7 0 := by
  have hbytes := (parseHeader_sound hparse).2
  have hset : (header.set 7 0).bytes = parsed.image 0 := by
    calc
      (header.set 7 0).bytes = header.bytes.set 7 0 := rfl
      _ = (parsed.image (header.byte 7)).set 7 0 := by rw [← hbytes]
      _ = parsed.image 0 := parsed.image_set _ _
  rw [Header.mk.injEq, encodeHeader_image, hset]

/-! ## The two checks -/

/-- The sizes and the combinations that the two checks are about. -/
structure Admitted (operation : Operation) (keySize valueSize : ℕ) :
    Prop where
  key_positive : 0 < keySize
  key_size : keySize ≤ kMaximumKeySize
  value_size : valueSize ≤ kMaximumValueSize
  delete_value : operation = .delete → valueSize = 0

theorem Record.valid_iff_admitted {record : Record} :
    record.Valid ↔
      Admitted record.operation record.key.length record.value.length := by
  constructor
  · intro hvalid
    exact ⟨List.length_pos_of_ne_nil hvalid.key_ne_nil, hvalid.key_size,
      hvalid.value_size, fun hdelete => by simp [hvalid.delete_value hdelete]⟩
  · intro hadmitted
    exact ⟨List.ne_nil_of_length_pos hadmitted.key_positive,
      hadmitted.key_size, hadmitted.value_size, fun hdelete =>
        List.length_eq_zero_iff.mp (hadmitted.delete_value hdelete)⟩

theorem ParsedHeader.valid_iff_admitted {parsed : ParsedHeader} :
    parsed.Valid ↔ Admitted parsed.operation parsed.keySize.toNat
      parsed.valueSize.toNat := by
  constructor
  · intro hvalid
    refine ⟨Nat.pos_of_ne_zero fun hzero => hvalid.keySize_ne_zero ?_,
      hvalid.keySize_le, hvalid.valueSize_le, fun hdelete => ?_⟩
    · exact UInt32.toNat_inj.mp hzero
    · rw [hvalid.delete_valueSize hdelete]
      rfl
  · intro hadmitted
    refine ⟨fun hzero => ?_, hadmitted.key_size, hadmitted.value_size,
      fun hdelete => UInt32.toNat_inj.mp (hadmitted.delete_value hdelete)⟩
    have hpositive := hadmitted.key_positive
    rw [hzero] at hpositive
    exact absurd hpositive (by decide)

/-- A record of any admitted operation and sizes. -/
theorem Admitted.exists_record {operation : Operation}
    {keySize valueSize : ℕ} (hadmitted : Admitted operation keySize valueSize) :
    ∃ record : Record, record.Valid ∧ record.operation = operation ∧
      record.key.length = keySize ∧ record.value.length = valueSize := by
  let record : Record :=
    ⟨operation, List.replicate keySize 0, List.replicate valueSize 0, 0⟩
  have hkey : record.key.length = keySize := List.length_replicate
  have hvalue : record.value.length = valueSize := List.length_replicate
  refine ⟨record, Record.valid_iff_admitted.mpr ?_, rfl, hkey, hvalue⟩
  rw [hkey, hvalue]
  exact hadmitted

/-- Every accepted record is read back from its header, every accepted header
is written back but for its reserved byte, and the operations and sizes of the
accepted records are those of the accepted headers. -/
theorem header_codec_inverse :
    (∀ record : Record, record.Accepted →
      ∃ parsed, parseHeader (makeHeader record) = .ok parsed ∧
        parsed.operation = record.operation ∧
        parsed.keySize.toNat = record.key.length ∧
        parsed.valueSize.toNat = record.value.length ∧
        parsed.expiresAtMs = record.expiresAtMs ∧
        parsed.checksum = recordChecksum record.operation record.expiresAtMs
          record.key record.value) ∧
    (∀ header parsed, parseHeader header = .ok parsed →
      ∀ index < kRecordHeaderSize, index ≠ 7 →
        (encodeHeader parsed).byte index = header.byte index) ∧
    ∀ operation keySize valueSize,
      (∃ record : Record, record.Accepted ∧ record.operation = operation ∧
        record.key.length = keySize ∧ record.value.length = valueSize) ↔
      ∃ header parsed, parseHeader header = .ok parsed ∧
        parsed.operation = operation ∧ parsed.keySize.toNat = keySize ∧
        parsed.valueSize.toNat = valueSize := by
  refine ⟨fun record haccepted => ?_, fun header parsed hparse index _ hne => ?_,
    fun operation keySize valueSize => ⟨?_, ?_⟩⟩
  · have hvalid := Record.accepted_iff.mp haccepted
    exact ⟨record.parsed, parseHeader_makeHeader hvalid, rfl,
      hvalid.toNat_keySize, hvalid.toNat_valueSize, rfl, rfl⟩
  · rw [encodeHeader_parsed hparse]
    exact header.byte_set_of_ne 0 hne
  · rintro ⟨record, haccepted, rfl, rfl, rfl⟩
    have hvalid := Record.accepted_iff.mp haccepted
    exact ⟨makeHeader record, record.parsed, parseHeader_makeHeader hvalid,
      rfl, hvalid.toNat_keySize, hvalid.toNat_valueSize⟩
  · rintro ⟨header, parsed, hparse, rfl, rfl, rfl⟩
    have hadmitted := ParsedHeader.valid_iff_admitted.mp
      (parseHeader_sound hparse).1
    obtain ⟨record, hvalid, hsizes⟩ := hadmitted.exists_record
    exact ⟨record, Record.accepted_iff.mpr hvalid, hsizes⟩

end MiniKV
