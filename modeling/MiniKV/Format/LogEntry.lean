import MiniKV.Format.HeaderLayout
import MiniKV.Concrete.AppendOnlyStore
import MiniKV.Library.FramedLog

/-!
# The language of log records

A log entry is a valid record together with the reserved byte that stands in
its header on disk.  Its image is the header layout followed by key and value.
`parseHeader` accepts exactly the layouts of valid field values, and the
records form a `FrameFormat`: they announce their own length.
-/

namespace MiniKV

open LittleEndian

/-! ## What `parseHeader` accepts -/

/-- The field values that `parseHeader` lets through. -/
structure ParsedHeader.Valid (parsed : ParsedHeader) : Prop where
  keySize_ne_zero : parsed.keySize ≠ 0
  keySize_le : parsed.keySize.toNat ≤ kMaximumKeySize
  valueSize_le : parsed.valueSize.toNat ≤ kMaximumValueSize
  delete_valueSize : parsed.operation = .delete → parsed.valueSize = 0

/-- The header bytes with these fields. -/
def ParsedHeader.image (parsed : ParsedHeader) (reserved : UInt8) : Bytes :=
  Header.layout kRecordMagic kRecordVersion parsed.operation.toByte reserved
    parsed.keySize parsed.valueSize parsed.expiresAtMs.toUInt64 parsed.checksum

theorem ParsedHeader.length_image (parsed : ParsedHeader) (reserved : UInt8) :
    (parsed.image reserved).length = kRecordHeaderSize :=
  Header.length_layout ..

/-- The number of bytes of a record with this header. -/
def ParsedHeader.recordBytes (parsed : ParsedHeader) : ℕ :=
  kRecordHeaderSize + (parsed.keySize.toNat + parsed.valueSize.toNat)

theorem parseHeader_of_image {header : Header} {parsed : ParsedHeader}
    {reserved : UInt8} (hvalid : parsed.Valid)
    (hbytes : header.bytes = parsed.image reserved) :
    parseHeader header = .ok parsed := by
  obtain ⟨hmagic, hversion, hoperation, -, hkeySize, hvalueSize, hexpiresAtMs,
    hchecksum⟩ := Header.fields_of_layout hbytes
  have hkeyBound := hvalid.keySize_le
  have hvalueBound := hvalid.valueSize_le
  have hdelete := hvalid.delete_valueSize
  simp only [parseHeader, hmagic, hversion, hoperation, hkeySize, hvalueSize,
    hexpiresAtMs, hchecksum, Operation.ofByte_toByte, ne_eq, not_true_eq_false,
    if_false, hvalid.keySize_ne_zero, false_or, Int64.toInt64_toUInt64]
  rw [if_neg (Nat.not_lt.mpr hkeyBound), if_neg (Nat.not_lt.mpr hvalueBound),
    if_neg (fun h => h.2 (hdelete h.1))]

theorem parseHeader_sound {header : Header} {parsed : ParsedHeader}
    (hparse : parseHeader header = .ok parsed) :
    parsed.Valid ∧ header.bytes = parsed.image (header.byte 7) := by
  unfold parseHeader at hparse
  split at hparse
  · cases hparse
  next hmagic =>
  split at hparse
  · cases hparse
  next hversion =>
  split at hparse
  · cases hparse
  next operation hoperation =>
  dsimp only at hparse
  split at hparse
  · cases hparse
  next hkeySize =>
  split at hparse
  · cases hparse
  next hvalueSize =>
  split at hparse
  · cases hparse
  next hdelete =>
  cases hparse
  rw [not_or] at hkeySize
  refine ⟨⟨hkeySize.1, Nat.not_lt.mp hkeySize.2, Nat.not_lt.mp hvalueSize,
    fun h => not_not.mp fun hne => hdelete ⟨h, hne⟩⟩, ?_⟩
  rw [ParsedHeader.image, Operation.toByte_of_ofByte hoperation,
    UInt64.toUInt64_toInt64, ← not_not.mp hmagic, ← not_not.mp hversion]
  exact Header.bytes_eq_layout header

/-! ## Log entries -/

/-- A record that `writeRecord` accepts, with the reserved byte of its header
on disk. -/
structure LogEntry where
  record : Record
  reserved : UInt8
  valid : record.Valid

/-- The header fields of a record. -/
def Record.parsed (record : Record) : ParsedHeader where
  operation := record.operation
  keySize := UInt32.ofNat record.key.length
  valueSize := UInt32.ofNat record.value.length
  expiresAtMs := record.expiresAtMs
  checksum := recordChecksum record.operation record.expiresAtMs record.key
    record.value

@[simp]
theorem Record.parsed_operation (record : Record) :
    record.parsed.operation = record.operation := rfl

@[simp]
theorem Record.parsed_expiresAtMs (record : Record) :
    record.parsed.expiresAtMs = record.expiresAtMs := rfl

namespace Record.Valid

variable {record : Record}

theorem toNat_keySize (hvalid : record.Valid) :
    record.parsed.keySize.toNat = record.key.length := by
  have hsize := hvalid.key_size
  rw [kMaximumKeySize] at hsize
  exact UInt32.toNat_ofNat_of_lt' (by
    rw [UInt32.size]
    omega)

theorem toNat_valueSize (hvalid : record.Valid) :
    record.parsed.valueSize.toNat = record.value.length := by
  have hsize := hvalid.value_size
  rw [kMaximumValueSize] at hsize
  exact UInt32.toNat_ofNat_of_lt' (by
    rw [UInt32.size]
    omega)

/-- The two validity checks admit the same sizes and combinations. -/
theorem parsed_valid (hvalid : record.Valid) : record.parsed.Valid where
  keySize_ne_zero := by
    intro hzero
    have hlength := hvalid.toNat_keySize
    rw [hzero] at hlength
    exact hvalid.key_ne_nil (List.length_eq_zero_iff.mp hlength.symm)
  keySize_le := hvalid.toNat_keySize ▸ hvalid.key_size
  valueSize_le := hvalid.toNat_valueSize ▸ hvalid.value_size
  delete_valueSize := by
    intro hdelete
    simp [Record.parsed, hvalid.delete_value hdelete]

end Record.Valid

namespace LogEntry

/-- The entry's bytes on disk. -/
def image (entry : LogEntry) : Bytes :=
  entry.record.parsed.image entry.reserved ++
    (entry.record.key ++ entry.record.value)

/-- The length of the entry on disk. -/
def size (entry : LogEntry) : ℕ :=
  kRecordHeaderSize + (entry.record.key.length + entry.record.value.length)

@[simp]
theorem length_image (entry : LogEntry) : entry.image.length = entry.size := by
  simp [image, size, ParsedHeader.length_image]

theorem recordBytes_parsed (entry : LogEntry) :
    entry.record.parsed.recordBytes = entry.size := by
  rw [ParsedHeader.recordBytes, entry.valid.toNat_keySize,
    entry.valid.toNat_valueSize, size]

/-- A valid record as `writeRecord` writes it. -/
def ofRecord (record : Record) (hvalid : record.Valid) : LogEntry :=
  ⟨record, 0, hvalid⟩

@[simp]
theorem record_ofRecord (record : Record) (hvalid : record.Valid) :
    (ofRecord record hvalid).record = record := rfl

theorem image_ofRecord (record : Record) (hvalid : record.Valid) :
    (ofRecord record hvalid).image = AppendOnlyStore.recordBytes record := by
  rw [AppendOnlyStore.recordBytes, makeHeader_bytes, List.append_assoc]
  rfl

/-! ## Reading the front of the log -/

/-- What stands at the front of the unread bytes. -/
def head (input : Bytes) : Head LogEntry :=
  if hsize : (input.take kRecordHeaderSize).length = kRecordHeaderSize then
    match parseHeader ⟨input.take kRecordHeaderSize, hsize⟩ with
    | .error _ => .malformed
    | .ok header =>
        if input.length < header.recordBytes then
          .incomplete
        else
          let key := slice input kRecordHeaderSize header.keySize.toNat
          let value := slice input
            (kRecordHeaderSize + header.keySize.toNat) header.valueSize.toNat
          let record : Record :=
            ⟨header.operation, key, value, header.expiresAtMs⟩
          if hentry : record.parsed = header ∧ record.Valid then
            .entry ⟨record, input.getD 7 0, hentry.2⟩
          else
            .malformed
  else
    .incomplete

/-- The front of an input that starts with an acceptable header. -/
theorem head_of_parsed {input : Bytes} {parsed : ParsedHeader}
    {reserved : UInt8} (hvalid : parsed.Valid)
    (hfront : input.take kRecordHeaderSize = parsed.image reserved) :
    head input =
      if input.length < parsed.recordBytes then
        .incomplete
      else
        let key := slice input kRecordHeaderSize parsed.keySize.toNat
        let value := slice input
          (kRecordHeaderSize + parsed.keySize.toNat) parsed.valueSize.toNat
        let record : Record :=
          ⟨parsed.operation, key, value, parsed.expiresAtMs⟩
        if hentry : record.parsed = parsed ∧ record.Valid then
          .entry ⟨record, input.getD 7 0, hentry.2⟩
        else
          .malformed := by
  have hsize : (input.take kRecordHeaderSize).length = kRecordHeaderSize := by
    rw [hfront, ParsedHeader.length_image]
  have hparse : parseHeader ⟨_, hsize⟩ = .ok parsed :=
    parseHeader_of_image hvalid hfront
  rw [head, dif_pos hsize, hparse]

theorem head_of_short {input : Bytes}
    (hshort : input.length < kRecordHeaderSize) : head input = .incomplete := by
  rw [head, dif_neg]
  rw [List.length_take]
  omega

end LogEntry

theorem slice_append (front middle rest : Bytes) :
    slice (front ++ (middle ++ rest)) front.length middle.length = middle := by
  simp [slice]

/-- A file is its header, its next two slices and the rest. -/
theorem take_slices (input : Bytes) (front middle back : ℕ) :
    input.take front ++ (slice input front middle ++
      (slice input (front + middle) back ++
        input.drop (front + (middle + back)))) = input := by
  have hmiddle : input.drop (front + middle) =
      (input.drop front).drop middle := by
    rw [List.drop_drop]
  have hback : input.drop (front + (middle + back)) =
      ((input.drop front).drop middle).drop back := by
    rw [List.drop_drop, List.drop_drop]
  rw [slice, slice, hmiddle, hback, List.take_append_drop,
    List.take_append_drop, List.take_append_drop]

theorem length_slice {file : Bytes} {offset length : ℕ}
    (hend : offset + length ≤ file.length) :
    (slice file offset length).length = length := by
  rw [slice, List.length_take, List.length_drop]
  omega

/-- The bytes behind an acceptable header make a valid record exactly when
their checksum is the one in the header. -/
theorem parsed_slices_iff {input : Bytes} {header : ParsedHeader}
    (hvalid : header.Valid) (hlength : header.recordBytes ≤ input.length)
    {key value : Bytes}
    (hkey : key = slice input kRecordHeaderSize header.keySize.toNat)
    (hvalue : value = slice input
      (kRecordHeaderSize + header.keySize.toNat) header.valueSize.toNat) :
    ((⟨header.operation, key, value, header.expiresAtMs⟩ : Record).parsed =
        header ∧
      (⟨header.operation, key, value, header.expiresAtMs⟩ : Record).Valid) ↔
      recordChecksum header.operation header.expiresAtMs key value =
        header.checksum := by
  rw [ParsedHeader.recordBytes] at hlength
  have hkeyLength : key.length = header.keySize.toNat := by
    rw [hkey, length_slice (by omega)]
  have hvalueLength : value.length = header.valueSize.toNat := by
    rw [hvalue, length_slice (by omega)]
  constructor
  · rintro ⟨hparsed, -⟩
    exact congrArg ParsedHeader.checksum hparsed
  · intro hchecksum
    refine ⟨?_, ?_, ?_, ?_, ?_⟩
    · rw [Record.parsed]
      simp only [hkeyLength, hvalueLength, hchecksum, UInt32.ofNat_toNat]
    · intro hnil
      rw [show key = [] from hnil, List.length_nil] at hkeyLength
      exact hvalid.keySize_ne_zero (UInt32.toNat_inj.mp hkeyLength.symm)
    · exact hkeyLength ▸ hvalid.keySize_le
    · exact hvalueLength ▸ hvalid.valueSize_le
    · intro hdelete
      apply List.length_eq_zero_iff.mp
      change value.length = 0
      rw [hvalueLength, hvalid.delete_valueSize hdelete]
      rfl

namespace LogEntry

theorem take_image (entry : LogEntry) (rest : Bytes) :
    (entry.image ++ rest).take kRecordHeaderSize =
      entry.record.parsed.image entry.reserved := by
  have hlength := entry.record.parsed.length_image entry.reserved
  rw [image, List.append_assoc, ← hlength, List.take_left]

theorem slice_key (entry : LogEntry) (rest : Bytes) :
    slice (entry.image ++ rest) kRecordHeaderSize entry.record.key.length =
      entry.record.key := by
  have hlength := entry.record.parsed.length_image entry.reserved
  rw [image, List.append_assoc, List.append_assoc, ← hlength, slice_append]

theorem slice_value (entry : LogEntry) (rest : Bytes) :
    slice (entry.image ++ rest)
      (kRecordHeaderSize + entry.record.key.length)
      entry.record.value.length = entry.record.value := by
  have hlength := entry.record.parsed.length_image entry.reserved
  rw [image, ← hlength, ← List.length_append, ← List.append_assoc,
    List.append_assoc _ entry.record.value, slice_append]

theorem getD_reserved (entry : LogEntry) (rest : Bytes) :
    (entry.image ++ rest).getD 7 0 = entry.reserved := by
  rw [image, List.append_assoc]
  simp [ParsedHeader.image, Header.layout, toBytes, List.range_succ]

theorem head_image (entry : LogEntry) (rest : Bytes) :
    head (entry.image ++ rest) = .entry entry := by
  rw [head_of_parsed entry.valid.parsed_valid (entry.take_image rest),
    if_neg (by simp [recordBytes_parsed])]
  simp only [entry.valid.toNat_keySize, entry.valid.toNat_valueSize,
    slice_key, slice_value, getD_reserved]
  have hentry : (⟨entry.record.parsed.operation, entry.record.key,
      entry.record.value, entry.record.parsed.expiresAtMs⟩ : Record) =
      entry.record := rfl
  rw [dif_pos ⟨congrArg Record.parsed hentry, entry.valid⟩]
  rfl

/-- Only the front of a whole entry reads as that entry. -/
theorem head_sound {input : Bytes} {entry : LogEntry}
    (hhead : head input = .entry entry) : entry.image <+: input := by
  unfold head at hhead
  split at hhead
  next hsize =>
    split at hhead
    · cases hhead
    next parsed hparse =>
      obtain ⟨-, hbytes⟩ := parseHeader_sound hparse
      split at hhead
      · cases hhead
      next hlength =>
        dsimp only at hhead
        split at hhead
        next hentry =>
          cases hhead
          have hreserved : (⟨_, hsize⟩ : Header).byte 7 = input.getD 7 0 := by
            simp [Header.byte, kRecordHeaderSize]
          refine ⟨input.drop parsed.recordBytes, ?_⟩
          rw [image, hentry.1, ← hreserved, ← hbytes]
          change input.take _ ++ (slice _ _ _ ++ slice _ _ _) ++ _ = input
          rw [List.append_assoc, List.append_assoc]
          exact take_slices input _ _ _
        · cases hhead
  · cases hhead

/-- An entry cut short anywhere reads as unfinished. -/
theorem head_cut {entry : LogEntry} {input : Bytes}
    (hcut : input <+: entry.image) (hne : input ≠ entry.image) :
    head input = .incomplete := by
  have hlength : input.length < entry.size := by
    rw [← entry.length_image]
    exact lt_of_le_of_ne hcut.length_le fun h => hne (hcut.eq_of_length h)
  by_cases hshort : input.length < kRecordHeaderSize
  · exact head_of_short hshort
  · obtain ⟨rest, hrest⟩ := hcut
    have htake : input.take kRecordHeaderSize =
        entry.record.parsed.image entry.reserved := by
      rw [← entry.take_image [], List.append_nil, ← hrest,
        List.take_append_of_le_length (Nat.not_lt.mp hshort)]
    rw [head_of_parsed entry.valid.parsed_valid htake,
      if_pos (by rwa [recordBytes_parsed])]

end LogEntry

/-- The records of the data file as a self-delimiting format. -/
def logFormat : FrameFormat UInt8 LogEntry where
  image := LogEntry.image
  head := LogEntry.head
  head_nil := LogEntry.head_of_short (by simp [kRecordHeaderSize])
  head_image := LogEntry.head_image
  head_sound := LogEntry.head_sound
  head_cut := LogEntry.head_cut

/-- Appending the bytes of a valid record appends one entry to the log. -/
theorem imageAll_concat_ofRecord (entries : List LogEntry) {record : Record}
    (hvalid : record.Valid) :
    logFormat.imageAll (entries ++ [.ofRecord record hvalid]) =
      logFormat.imageAll entries ++ AppendOnlyStore.recordBytes record := by
  have himage := LogEntry.image_ofRecord record hvalid
  rw [FrameFormat.imageAll_append, FrameFormat.imageAll_cons,
    FrameFormat.imageAll_nil, List.append_nil, ← himage]
  rfl

/-- The tails that recovery drops: fewer bytes than a header, or an acceptable
header whose record is longer than what is left. -/
def UnfinishedTail (tail : Bytes) : Prop :=
  tail.length < kRecordHeaderSize ∨
    ∃ (header : Header) (parsed : ParsedHeader),
      header.bytes = tail.take kRecordHeaderSize ∧
      parseHeader header = .ok parsed ∧ tail.length < parsed.recordBytes

theorem head_eq_incomplete_iff (tail : Bytes) :
    LogEntry.head tail = .incomplete ↔ UnfinishedTail tail := by
  constructor
  · intro hhead
    unfold LogEntry.head at hhead
    split at hhead
    next hsize =>
      split at hhead
      · cases hhead
      next parsed hparse =>
        split at hhead
        next hlength => exact Or.inr ⟨⟨_, hsize⟩, parsed, rfl, hparse, hlength⟩
        · dsimp only at hhead
          split at hhead <;> cases hhead
    next hsize =>
      rw [List.length_take] at hsize
      exact Or.inl (by omega)
  · rintro (hshort | ⟨header, parsed, hbytes, hparse, hlength⟩)
    · exact LogEntry.head_of_short hshort
    · obtain ⟨hvalid, himage⟩ := parseHeader_sound hparse
      rw [LogEntry.head_of_parsed hvalid (hbytes.symm.trans himage),
        if_pos hlength]

end MiniKV
