import MiniKV.Recovery.Damage

/-!
# One damaged content byte is always detected

Magic and version are compared, and the checksum covers the other fields of a
record: its hash steps are injective in the state and in the byte, so one
replaced byte always changes it, and the stored checksum cannot follow.
-/

namespace MiniKV

open LittleEndian HashChain

/-- The bytes of a record that are neither its reserved byte nor in one of its
two size fields. -/
def ContentByte (offset : ℕ) : Prop :=
  offset ≠ 7 ∧ ¬ (8 ≤ offset ∧ offset < 16)

/-- Records that differ in exactly one hashed byte differ in their
checksums. -/
theorem recordChecksum_ne {operation other : Operation}
    {expiresAtMs otherMs : Int64} {key value otherKey otherValue : Bytes}
    {position : ℕ}
    (hdiffers : DiffersAt position
      (hashedBytes operation expiresAtMs key value)
      (hashedBytes other otherMs otherKey otherValue)) :
    recordChecksum operation expiresAtMs key value ≠
      recordChecksum other otherMs otherKey otherValue := by
  rw [recordChecksum_eq_foldl, recordChecksum_eq_foldl]
  exact hdiffers.foldl_ne hashByte_injective_state hashByte_injective_byte _

theorem hashedBytes_eq_fields (operation : Operation) (expiresAtMs : Int64)
    (key value : Bytes) :
    hashedBytes operation expiresAtMs key value =
      [operation.toByte] ++ (toBytes 8 expiresAtMs.toUInt64.toBitVec ++
        ((toBytes 8 (UInt64.ofNat key.length).toBitVec ++
          toBytes 8 (UInt64.ofNat value.length).toBitVec) ++
            (key ++ value))) := by
  simp [hashedBytes]

namespace LogEntry

/-- What the checksum of an entry covers. -/
def hashed (entry : LogEntry) : Bytes :=
  hashedBytes entry.record.operation entry.record.expiresAtMs entry.record.key
    entry.record.value

theorem image_eq_fields (entry : LogEntry) :
    entry.image =
      (toBytes 4 kRecordMagic.toBitVec ++ toBytes 2 kRecordVersion.toBitVec) ++
        ([entry.record.operation.toByte] ++ ([entry.reserved] ++
          ((toBytes 4 entry.record.parsed.keySize.toBitVec ++
            toBytes 4 entry.record.parsed.valueSize.toBitVec) ++
            (toBytes 8 entry.record.expiresAtMs.toUInt64.toBitVec ++
              (toBytes 4 entry.record.parsed.checksum.toBitVec ++
                (entry.record.key ++ entry.record.value)))))) := by
  simp [image, ParsedHeader.image, Header.layout]

variable {left right : LogEntry}

theorem hashed_eq_fields (hkey : left.record.key.length = right.record.key.length)
    (hvalue : left.record.value.length = right.record.value.length) :
    ∃ sizes,
      left.hashed = [left.record.operation.toByte] ++
        (toBytes 8 left.record.expiresAtMs.toUInt64.toBitVec ++
          (sizes ++ (left.record.key ++ left.record.value))) ∧
      right.hashed = [right.record.operation.toByte] ++
        (toBytes 8 right.record.expiresAtMs.toUInt64.toBitVec ++
          (sizes ++ (right.record.key ++ right.record.value))) := by
  refine ⟨_, hashedBytes_eq_fields _ _ _ _, ?_⟩
  rw [hkey, hvalue]
  exact hashedBytes_eq_fields _ _ _ _

/-- Where two records of equal sizes can differ in one content byte: in a
hashed byte, or in the stored checksum. -/
theorem content_cases {offset : ℕ} (hcontent : ContentByte offset)
    (hkey : left.record.key.length = right.record.key.length)
    (hvalue : left.record.value.length = right.record.value.length)
    (hdiffers : DiffersAt offset left.image right.image) :
    (∃ position, DiffersAt position left.hashed right.hashed) ∧
        toBytes 4 left.record.parsed.checksum.toBitVec =
          toBytes 4 right.record.parsed.checksum.toBitVec ∨
      left.hashed = right.hashed ∧
        toBytes 4 left.record.parsed.checksum.toBitVec ≠
          toBytes 4 right.record.parsed.checksum.toBitVec := by
  obtain ⟨sizes, hleft, hright⟩ := hashed_eq_fields hkey hvalue
  rw [hleft, hright]
  rw [image_eq_fields, image_eq_fields] at hdiffers
  -- The parts of the image from left to right; only one of them differs.
  rcases hdiffers.append_cases rfl with
    ⟨-, hmagic, -⟩ | ⟨hsix, -, hdiffers⟩
  · exact absurd rfl hmagic.ne
  have hlength : (toBytes 4 kRecordMagic.toBitVec ++
    toBytes 2 kRecordVersion.toBitVec).length = 6 := rfl
  rw [hlength] at hsix hdiffers
  rcases hdiffers.append_cases rfl with
    ⟨-, hoperation, hrest⟩ | ⟨hseven, hoperation, hdiffers⟩
  · obtain ⟨-, hrest⟩ := List.append_inj hrest rfl
    obtain ⟨-, hrest⟩ := List.append_inj hrest (by simp)
    obtain ⟨hexpiry, hrest⟩ := List.append_inj hrest (by simp)
    obtain ⟨hchecksum, hcontents⟩ := List.append_inj hrest (by simp)
    rw [← hexpiry, ← hcontents]
    exact Or.inl ⟨⟨_, hoperation.append_right _⟩, hchecksum⟩
  rw [List.length_singleton] at hseven hdiffers
  rcases hdiffers.append_cases rfl with
    ⟨height, -, -⟩ | ⟨height, -, hdiffers⟩
  · rw [List.length_singleton] at height
    exact absurd (by omega) hcontent.1
  rw [List.length_singleton] at height hdiffers
  rcases hdiffers.append_cases (by simp) with
    ⟨hsixteen, -, -⟩ | ⟨-, -, hdiffers⟩
  · rw [List.length_append, length_toBytes, length_toBytes] at hsixteen
    exact absurd (by omega) hcontent.2
  rcases hdiffers.append_cases (by simp) with
    ⟨-, hexpiry, hrest⟩ | ⟨-, hexpiry, hdiffers⟩
  · obtain ⟨hchecksum, hcontents⟩ := List.append_inj hrest (by simp)
    rw [← hoperation, ← hcontents]
    exact Or.inl ⟨⟨_, (hexpiry.append_right _).append_left _⟩, hchecksum⟩
  rcases hdiffers.append_cases (by simp) with
    ⟨-, hchecksum, hcontents⟩ | ⟨-, hchecksum, hcontents⟩
  · rw [← hoperation, ← hexpiry, ← hcontents]
    exact Or.inr ⟨rfl, hchecksum.ne⟩
  · rw [← hoperation, ← hexpiry]
    have hhashed := ((hcontents.append_left sizes).append_left
      (toBytes 8 left.record.expiresAtMs.toUInt64.toBitVec)).append_left
        [left.record.operation.toByte]
    exact Or.inl ⟨⟨_, hhashed⟩, hchecksum⟩

/-- No two records of equal sizes differ in one content byte alone. -/
theorem not_differsAt_image {offset : ℕ} (hcontent : ContentByte offset)
    (hkey : left.record.key.length = right.record.key.length)
    (hvalue : left.record.value.length = right.record.value.length) :
    ¬ DiffersAt offset left.image right.image := by
  intro hdiffers
  have hleft : left.record.parsed.checksum =
      left.hashed.foldl hashByte 2166136261 := recordChecksum_eq_foldl _ _ _ _
  have hright : right.record.parsed.checksum =
      right.hashed.foldl hashByte 2166136261 := recordChecksum_eq_foldl _ _ _ _
  rcases content_cases hcontent hkey hvalue hdiffers with
    ⟨⟨position, hhashed⟩, hchecksum⟩ | ⟨hhashed, hchecksum⟩
  · have hequal := UInt32.toBitVec_inj.mp (toBytes_injective rfl hchecksum)
    exact recordChecksum_ne hhashed hequal
  · exact hchecksum (by rw [hleft, hright, hhashed])

end LogEntry

/-! ## Recovery of a log with a damaged content byte -/

/-- The front of a log whose first record has a damaged content byte. -/
theorem head_of_content_damage (entry : LogEntry) {offset : ℕ} {byte : UInt8}
    (hcontent : ContentByte offset) (hoffset : offset < entry.image.length)
    (hbyte : byte ≠ entry.image[offset]) (rest : Bytes) :
    LogEntry.head (entry.image.set offset byte ++ rest) = .malformed := by
  have houtside : ¬ (8 ≤ offset ∧ offset < 16) := hcontent.2
  cases hhead : LogEntry.head (entry.image.set offset byte ++ rest) with
  | malformed => rfl
  | incomplete =>
      exfalso
      have hlength : entry.size ≤
          (entry.image.set offset byte ++ rest).length := by simp
      rcases (head_eq_incomplete_iff _).mp hhead with
        hshort | ⟨header, parsed, hbytes, hparse, hlonger⟩
      · have hheader : kRecordHeaderSize ≤ entry.size := Nat.le_add_right _ _
        omega
      · rw [LogEntry.recordBytes_of_damage houtside hbytes hparse] at hlonger
        omega
  | entry found =>
      exfalso
      obtain ⟨later, hlater⟩ := LogEntry.head_sound hhead
      let header : Header := ⟨found.record.parsed.image found.reserved,
        found.record.parsed.length_image found.reserved⟩
      have hbytes : header.bytes = (entry.image.set offset byte ++ rest).take
          kRecordHeaderSize := by
        rw [← hlater, found.take_image]
      have hparse : parseHeader header = .ok found.record.parsed :=
        parseHeader_of_image found.valid.parsed_valid rfl
      obtain ⟨hkeySize, hvalueSize⟩ :=
        LogEntry.sizes_of_damage houtside hbytes hparse
      have hkey : entry.record.key.length = found.record.key.length := by
        rw [← entry.valid.toNat_keySize, ← hkeySize, found.valid.toNat_keySize]
      have hvalue : entry.record.value.length = found.record.value.length := by
        rw [← entry.valid.toNat_valueSize, ← hvalueSize,
          found.valid.toNat_valueSize]
      have himage : found.image = entry.image.set offset byte := by
        apply (List.append_inj hlater ?_).1
        rw [List.length_set, entry.length_image, found.length_image,
          LogEntry.size, LogEntry.size, hkey, hvalue]
      exact LogEntry.not_differsAt_image hcontent hkey hvalue
        ⟨hoffset, byte, hbyte, himage⟩

namespace AppendOnlyStore

/-- One content byte of one record replaced by a different one is always
reported, and the file is left alone, but for what the put area adds to it; any
two checksummed inputs that differ in one byte have different checksums. -/
theorem recover_detects_content_damage (before later : List ValidRecord)
    (victim : ValidRecord) {offset : ℕ} (hcontent : ContentByte offset)
    (hoffset : offset < (recordBytes victim.1).length) {byte : UInt8}
    (hbyte : (recordBytes victim.1)[offset]? ≠ some byte)
    (store : AppendOnlyStore)
    (hdamaged : store.bytes = (encodeAll (before ++ victim :: later)).set
      ((encodeAll before).length + offset) byte) :
    (∀ nowMs, ∃ after message,
      store.recover {} {} nowMs = (after, .error (.corruption message)) ∧
        after.bytes = store.bytes ++ store.pending) ∧
    ∀ position operation expiresAtMs key value other otherMs otherKey
      otherValue,
      DiffersAt position (hashedBytes operation expiresAtMs key value)
        (hashedBytes other otherMs otherKey otherValue) →
      recordChecksum operation expiresAtMs key value ≠
        recordChecksum other otherMs otherKey otherValue := by
  constructor
  · intro nowMs
    let entry := LogEntry.ofRecord victim.1 victim.2
    have himage : entry.image = recordBytes victim.1 :=
      LogEntry.image_ofRecord victim.1 victim.2
    have hinside : offset < entry.image.length := himage ▸ hoffset
    have hchanged : byte ≠ entry.image[offset] := by
      intro hsame
      apply hbyte
      rw [hsame, ← List.getElem?_eq_getElem hinside, himage]
    have hhead := head_of_content_damage entry hcontent hinside hchanged
      (logFormat.imageAll (entriesOf later))
    rw [set_encodeAll hoffset] at hdamaged
    obtain ⟨message, hmessage⟩ := recover_not_log hdamaged hhead nowMs
    exact ⟨_, message, hmessage, store.bytes_settled⟩
  · intro position operation expiresAtMs key value other otherMs otherKey
      otherValue hdiffers
    exact recordChecksum_ne hdiffers

/-- The value byte of the second of three records. -/
theorem recover_detects_content_damage_in_second_record :
    let file := (encodeAll [recordAB, recordAB, recordAB]).set
      ((encodeAll [recordAB]).length + 29) 0
    ∃ after message, (holding file).recover {} {} 0 =
      (after, .error (.corruption message)) ∧ after.bytes = file ++ [] := by
  intro file
  have hcontent : ContentByte 29 := ⟨by decide, by decide⟩
  have hoffset : 29 < (recordBytes recordAB.1).length := by decide +kernel
  have hbyte : (recordBytes recordAB.1)[29]? ≠ some 0 := by decide +kernel
  exact (recover_detects_content_damage [recordAB] [recordAB] recordAB hcontent
    hoffset hbyte (holding file) rfl).1 0

end AppendOnlyStore

end MiniKV
