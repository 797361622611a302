import MiniKV.Recovery.Crash

/-!
# One damaged byte

The length test of the scan loop trusts the two size fields before any checksum
is looked at.  Damage elsewhere in a record leaves its length, and with it the
boundary of the next record, where it was, so such a file never ends in an
unfinished tail.  Damage in a size field may send the loop into one.
-/

namespace MiniKV

open LittleEndian

/-- The damaged byte is one of the eight size bytes, `parseHeader` accepts the
damaged header, and the record it now declares is longer than what is left, or
has the right checksum and is followed by records and an unfinished tail. -/
def SizeMistaken (offset : ℕ) (rest : Bytes) : Prop :=
  (8 ≤ offset ∧ offset < 16) ∧
    ∃ (header : Header) (parsed : ParsedHeader),
      header.bytes = rest.take kRecordHeaderSize ∧
      parseHeader header = .ok parsed ∧
      (rest.length < parsed.recordBytes ∨
        recordChecksum parsed.operation parsed.expiresAtMs
            (slice rest kRecordHeaderSize parsed.keySize.toNat)
            (slice rest (kRecordHeaderSize + parsed.keySize.toNat)
              parsed.valueSize.toNat) = parsed.checksum ∧
          ∃ entries tail, tail ≠ [] ∧
            LogWithTail entries tail (rest.drop parsed.recordBytes))

/-! ## The size fields of a damaged header -/

namespace Header

/-- A field does not notice damage outside its bytes. -/
theorem read_set (header : Header) {width offset start count : ℕ}
    (byte : UInt8) (houtside : offset < start ∨ start + count ≤ offset) :
    (header.set offset byte).read width start count =
      header.read width start count := by
  apply fromBytes_congr
  intro index hindex
  exact header.byte_set_of_ne byte (by omega)

end Header

theorem ParsedHeader.sizes_of_image {header : Header} {parsed : ParsedHeader}
    {reserved : UInt8} (himage : header.bytes = parsed.image reserved) :
    get32 header 8 = parsed.keySize ∧ get32 header 12 = parsed.valueSize := by
  obtain ⟨-, -, -, -, hkeySize, hvalueSize, -⟩ :=
    Header.fields_of_layout himage
  exact ⟨hkeySize, hvalueSize⟩

namespace LogEntry

variable {entry : LogEntry} {offset : ℕ} {byte : UInt8}

/-- Damage outside the size bytes leaves the declared sizes alone. -/
theorem sizes_of_damage (houtside : ¬ (8 ≤ offset ∧ offset < 16))
    {rest : Bytes} {header : Header} {parsed : ParsedHeader}
    (hbytes : header.bytes =
      (entry.image.set offset byte ++ rest).take kRecordHeaderSize)
    (hparse : parseHeader header = .ok parsed) :
    parsed.keySize = entry.record.parsed.keySize ∧
      parsed.valueSize = entry.record.parsed.valueSize := by
  let original : Header := ⟨entry.record.parsed.image entry.reserved,
    entry.record.parsed.length_image entry.reserved⟩
  have hdamaged : header = original.set offset byte := by
    have hlong : kRecordHeaderSize ≤ (entry.image.set offset byte).length := by
      simp [LogEntry.size]
    have hcut : header.bytes = (original.set offset byte).bytes := by
      rw [hbytes, List.take_append_of_le_length hlong, List.take_set]
      have htake := entry.take_image []
      rw [List.append_nil] at htake
      rw [htake]
      rfl
    cases header
    cases hcut
    rfl
  obtain ⟨hkeySize, hvalueSize⟩ :=
    ParsedHeader.sizes_of_image (parseHeader_sound hparse).2
  obtain ⟨hkeyOriginal, hvalueOriginal⟩ :=
    ParsedHeader.sizes_of_image (rfl : original.bytes = _)
  have hkey : get32 header 8 = get32 original 8 := by
    rw [hdamaged, get32, get32, original.read_set byte (by omega)]
  have hvalue : get32 header 12 = get32 original 12 := by
    rw [hdamaged, get32, get32, original.read_set byte (by omega)]
  rw [← hkeySize, ← hvalueSize, hkey, hvalue, hkeyOriginal, hvalueOriginal]
  exact ⟨rfl, rfl⟩

theorem recordBytes_of_damage (houtside : ¬ (8 ≤ offset ∧ offset < 16))
    {rest : Bytes} {header : Header} {parsed : ParsedHeader}
    (hbytes : header.bytes =
      (entry.image.set offset byte ++ rest).take kRecordHeaderSize)
    (hparse : parseHeader header = .ok parsed) :
    parsed.recordBytes = entry.size := by
  obtain ⟨hkeySize, hvalueSize⟩ := sizes_of_damage houtside hbytes hparse
  rw [← entry.recordBytes_parsed, ParsedHeader.recordBytes,
    ParsedHeader.recordBytes, hkeySize, hvalueSize]

/-- A record whose header and checksum are accepted is an entry. -/
theorem exists_image_of_accepted {input : Bytes} {header : Header}
    {parsed : ParsedHeader}
    (hbytes : header.bytes = input.take kRecordHeaderSize)
    (hparse : parseHeader header = .ok parsed)
    (hlength : parsed.recordBytes ≤ input.length)
    (hchecksum : recordChecksum parsed.operation parsed.expiresAtMs
      (slice input kRecordHeaderSize parsed.keySize.toNat)
      (slice input (kRecordHeaderSize + parsed.keySize.toNat)
        parsed.valueSize.toNat) = parsed.checksum) :
    ∃ found : LogEntry,
      input = found.image ++ input.drop parsed.recordBytes := by
  obtain ⟨hvalid, himage⟩ := parseHeader_sound hparse
  have hentry := (parsed_slices_iff hvalid hlength rfl rfl).mpr hchecksum
  have hhead : ∃ found : LogEntry, head input = .entry found ∧
      found.record.parsed = parsed := by
    rw [head_of_parsed hvalid (hbytes.symm.trans himage),
      if_neg (Nat.not_lt.mpr hlength)]
    dsimp only
    rw [dif_pos hentry]
    exact ⟨_, rfl, hentry.1⟩
  obtain ⟨found, hfound, hparsed⟩ := hhead
  obtain ⟨rest, hrest⟩ := head_sound hfound
  have hsize := found.recordBytes_parsed
  rw [hparsed, ← found.length_image] at hsize
  exact ⟨found, by rw [← hrest, hsize, List.drop_left]⟩

end LogEntry

/-! ## Logs behind a damaged record -/

section Mistaken

variable {entry : LogEntry} {later : List LogEntry} {offset : ℕ} {byte : UInt8}

/-- A tail behind a damaged record means that a size field was mistaken. -/
theorem sizeMistaken_of_tail {entries : List LogEntry} {tail : Bytes}
    (hlog : LogWithTail entries tail
      (entry.image.set offset byte ++ logFormat.imageAll later))
    (htail : tail ≠ []) :
    SizeMistaken offset
      (entry.image.set offset byte ++ logFormat.imageAll later) := by
  have hlength : entry.size ≤
      (entry.image.set offset byte ++ logFormat.imageAll later).length := by
    simp
  have hheader : kRecordHeaderSize ≤ entry.size := Nat.le_add_right _ _
  cases entries with
  | nil =>
      have hrest := hlog.1
      rw [FrameFormat.imageAll_nil, List.nil_append] at hrest
      rcases hlog.2 with hshort | ⟨header, parsed, hbytes, hparse, hlonger⟩
      · rw [hrest] at hlength
        omega
      · rw [← hrest] at hbytes hlonger
        refine ⟨?_, header, parsed, hbytes, hparse, Or.inl hlonger⟩
        by_contra houtside
        rw [LogEntry.recordBytes_of_damage houtside hbytes hparse] at hlonger
        omega
  | cons found entries =>
      have hrest := hlog.1
      rw [FrameFormat.imageAll_cons, List.append_assoc] at hrest
      change _ = found.image ++ _ at hrest
      have hbytes : found.record.parsed.image found.reserved =
          (entry.image.set offset byte ++ logFormat.imageAll later).take
            kRecordHeaderSize := by
        rw [hrest, found.take_image]
      let header : Header := ⟨found.record.parsed.image found.reserved,
        found.record.parsed.length_image found.reserved⟩
      have hparse : parseHeader header = .ok found.record.parsed :=
        parseHeader_of_image found.valid.parsed_valid rfl
      have hdrop : (entry.image.set offset byte ++
          logFormat.imageAll later).drop found.size =
            logFormat.imageAll entries ++ tail := by
        rw [hrest, ← found.length_image, List.drop_left]
      refine ⟨?_, header, found.record.parsed, hbytes, hparse, Or.inr ⟨?_,
        entries, tail, htail, ?_⟩⟩
      · by_contra houtside
        have hsize :=
          LogEntry.recordBytes_of_damage houtside hbytes hparse
        rw [found.recordBytes_parsed] at hsize
        have hlength : (entry.image.set offset byte).length = found.size := by
          rw [List.length_set, entry.length_image, hsize]
        rw [← hlength, List.drop_left] at hdrop
        exact htail ((logWithTail_imageAll later).unique
          ⟨hdrop, hlog.2⟩).2.symm
      · rw [hrest, found.valid.toNat_keySize, found.valid.toNat_valueSize,
          found.slice_key, found.slice_value]
        rfl
      · rw [found.recordBytes_parsed, hdrop]
        exact ⟨rfl, hlog.2⟩

/-- A mistaken size field makes a log with a tail out of the damaged bytes. -/
theorem exists_tail_of_sizeMistaken {rest : Bytes}
    (hmistaken : SizeMistaken offset rest) :
    ∃ entries tail, tail ≠ [] ∧ LogWithTail entries tail rest := by
  obtain ⟨-, header, parsed, hbytes, hparse, houtcome⟩ := hmistaken
  by_cases hlonger : rest.length < parsed.recordBytes
  · refine ⟨[], rest, ?_, rfl, Or.inr ⟨header, parsed, hbytes, hparse,
      hlonger⟩⟩
    intro hnil
    have hsize := congrArg List.length hbytes
    rw [header.size, hnil] at hsize
    cases hsize
  · rcases houtcome with hlonger' | ⟨hchecksum, entries, tail, htail, hlog⟩
    · exact absurd hlonger' hlonger
    · obtain ⟨found, hfound⟩ := LogEntry.exists_image_of_accepted hbytes hparse
        (Nat.not_lt.mp hlonger) hchecksum
      refine ⟨found :: entries, tail, htail, ?_, hlog.2⟩
      rw [hfound, hlog.1, FrameFormat.imageAll_cons, List.append_assoc]
      rfl

end Mistaken

/-! ## Recovery of a damaged log -/

theorem length_encodeAll (records : List ValidRecord) :
    (encodeAll records).length = logSize (entriesOf records) := by
  rw [← imageAll_entriesOf, length_imageAll]

/-- Every byte of a log belongs to one of its records. -/
theorem exists_victim {records : List ValidRecord} {position : ℕ}
    (hposition : position < (encodeAll records).length) :
    ∃ before victim later offset, records = before ++ victim :: later ∧
      position = (encodeAll before).length + offset ∧
      offset < (AppendOnlyStore.recordBytes victim.1).length := by
  induction records generalizing position with
  | nil => cases hposition
  | cons record records ih =>
      by_cases hfirst : position <
          (AppendOnlyStore.recordBytes record.1).length
      · exact ⟨[], record, records, position, rfl,
          (Nat.zero_add position).symm, hfirst⟩
      · rw [encodeAll, List.flatMap_cons, List.length_append,
          ← encodeAll] at hposition
        have hrest : position - (AppendOnlyStore.recordBytes record.1).length <
            (encodeAll records).length := by omega
        obtain ⟨before, victim, later, offset, hrecords, hoffset, hinside⟩ :=
          ih hrest
        refine ⟨record :: before, victim, later, offset, by rw [hrecords]; rfl,
          ?_, hinside⟩
        rw [encodeAll, List.flatMap_cons, List.length_append, ← encodeAll]
        omega

theorem set_encodeAll {before later : List ValidRecord} {victim : ValidRecord}
    {offset : ℕ}
    (hoffset : offset < (AppendOnlyStore.recordBytes victim.1).length)
    (byte : UInt8) :
    (encodeAll (before ++ victim :: later)).set
        ((encodeAll before).length + offset) byte =
      logFormat.imageAll (entriesOf before) ++
        ((LogEntry.ofRecord victim.1 victim.2).image.set offset byte ++
          logFormat.imageAll (entriesOf later)) := by
  rw [LogEntry.image_ofRecord, imageAll_entriesOf, imageAll_entriesOf]
  have hsplit : encodeAll (before ++ victim :: later) = encodeAll before ++
      (AppendOnlyStore.recordBytes victim.1 ++ encodeAll later) := by
    simp [encodeAll]
  rw [hsplit, List.set_append_right _ _ (Nat.le_add_right _ _),
    Nat.add_sub_cancel_left, List.set_append_left _ _ hoffset]

namespace AppendOnlyStore

variable {store : AppendOnlyStore} {nowMs : Int64}

/-- Recovery leaves a file alone, but for what the put area adds to it, unless
it is a log with a tail. -/
theorem recover_keeps_iff :
    ((store.recover {} {} nowMs).1.bytes = store.bytes ++ store.pending ∧
      ∀ after state, store.recover {} {} nowMs = (after, .ok state) →
        state.truncatedBytes = 0) ↔
      ¬ ∃ entries tail, tail ≠ [] ∧ LogWithTail entries tail store.bytes := by
  constructor
  · rintro ⟨-, hwhole⟩ ⟨entries, tail, htail, hlog⟩
    have hlength := hwhole _ _ (recover_of_logWithTail hlog nowMs)
    exact htail (List.length_eq_zero_iff.mp hlength)
  · intro hnone
    rcases logWithTail_or_malformed store.bytes with
      ⟨entries, tail, hlog⟩ | ⟨entries, rest, hfile, hmalformed⟩
    · have hnil : tail = [] := by
        by_contra htail
        exact hnone ⟨entries, tail, htail, hlog⟩
      have hrecover := recover_of_logWithTail hlog nowMs
      rw [hrecover, recovered, if_pos hnil]
      refine ⟨store.bytes_settled, fun after state hstate => ?_⟩
      cases hstate
      rw [hnil]
      rfl
    · obtain ⟨message, hmessage⟩ := recover_not_log hfile hmalformed nowMs
      rw [hmessage]
      refine ⟨store.bytes_settled, fun after state hstate => ?_⟩
      cases hstate

/-- A log with one byte replaced is left alone, and no tail of it is reported,
exactly when the byte is not a mistaken size byte of its record.  Bytes that the
stream holds from an earlier append come behind it. -/
theorem recover_damaged_iff (records : List ValidRecord) (position : ℕ)
    (hposition : position < (encodeAll records).length) (byte : UInt8)
    (store : AppendOnlyStore)
    (hdamaged : store.bytes = (encodeAll records).set position byte)
    (nowMs : Int64) :
    ((store.recover {} {} nowMs).1.bytes = store.bytes ++ store.pending ∧
      ∀ after state, store.recover {} {} nowMs = (after, .ok state) →
        state.truncatedBytes = 0) ↔
      ∀ before victim later offset, records = before ++ victim :: later →
        position = (encodeAll before).length + offset →
        offset < (recordBytes victim.1).length →
        ¬ SizeMistaken offset (store.bytes.drop (encodeAll before).length) := by
  rw [recover_keeps_iff]
  constructor
  · rintro hnone before victim later offset rfl rfl hoffset hmistaken
    rw [set_encodeAll hoffset] at hdamaged
    rw [hdamaged, length_encodeAll, drop_imageAll] at hmistaken
    obtain ⟨entries, tail, htail, hlog⟩ :=
      exists_tail_of_sizeMistaken hmistaken
    refine hnone ⟨entriesOf before ++ entries, tail, htail, ?_⟩
    rw [hdamaged]
    exact logWithTail_append_iff.mpr ⟨entries, rfl, hlog⟩
  · rintro hcondition ⟨entries, tail, htail, hlog⟩
    obtain ⟨before, victim, later, offset, rfl, rfl, hoffset⟩ :=
      exists_victim hposition
    have hsafe := hcondition before victim later offset rfl rfl hoffset
    rw [set_encodeAll hoffset] at hdamaged
    rw [hdamaged] at hlog
    rw [hdamaged, length_encodeAll, drop_imageAll] at hsafe
    obtain ⟨rest, -, hrest⟩ := logWithTail_append_iff.mp hlog
    exact hsafe (sizeMistaken_of_tail hrest htail)

/-- The last byte of the only record. -/
theorem recover_damaged_value_byte :
    (((holding ((encodeAll [recordAB]).set 29 0)).recover {} {} 0).1.bytes =
        (holding ((encodeAll [recordAB]).set 29 0)).bytes ++ [] ∧
      ∀ after state,
        (holding ((encodeAll [recordAB]).set 29 0)).recover {} {} 0 =
          (after, .ok state) → state.truncatedBytes = 0) ↔
      ∀ before victim later offset,
        [recordAB] = before ++ victim :: later →
        29 = (encodeAll before).length + offset →
        offset < (recordBytes victim.1).length →
        ¬ SizeMistaken offset
          ((holding ((encodeAll [recordAB]).set 29 0)).bytes.drop
            (encodeAll before).length) :=
  recover_damaged_iff [recordAB] 29 (by decide +kernel) 0 _ rfl 0

/-- A value size of 255 in the first of two records makes recovery drop both
and report success. -/
theorem damaged_value_size_drops_log :
    ¬ ∀ (records : List ValidRecord) (position : ℕ) (byte : UInt8)
      (store : AppendOnlyStore) (nowMs : Int64),
      records ≠ [] → position < (encodeAll records).length →
      byte ≠ (encodeAll records).getD position 0 →
      store.bytes = (encodeAll records).set position byte →
      store.pending = [] →
      ∀ after state, store.recover {} {} nowMs = (after, .ok state) →
        state.truncatedBytes = 0 := by
  intro hclaim
  let file : Bytes := (encodeAll [recordAB, recordAB]).set 12 255
  have htail : UnfinishedTail file := by
    refine Or.inr ⟨⟨file.take kRecordHeaderSize, by decide +kernel⟩,
      { recordAB.1.parsed with valueSize := 255 }, rfl, ?_, ?_⟩
    · decide +kernel
    · decide +kernel
  have hlog : LogWithTail [] file (holding file).bytes := ⟨rfl, htail⟩
  have hlength := hclaim [recordAB, recordAB] 12 255 (holding file) 0
    (by simp) (by decide +kernel) (by decide +kernel) rfl rfl _ _
    (recover_of_logWithTail hlog 0)
  exact absurd hlength (by decide +kernel)

end AppendOnlyStore

end MiniKV
