import MiniKV.Concrete.Header

/-!
# The append-only file

`AppendOnlyStore` owns the data file and the stream on it.  Every call to the
file system or to a stream that can fail takes its answer from an argument
whose default is success; a run without I/O failure is one in which every
answer is the default.  A stream that could not write keeps bytes in its put
area and writes them as soon as it seeks or closes.
-/

namespace MiniKV

/-- The bytes `[offset, offset + length)` of a file, fewer where it ends. -/
def slice (file : Bytes) (offset length : ℕ) : Bytes :=
  (file.drop offset).take length

/-- `std::unordered_map<std::string, RecordMetadata>`. -/
abbrev Index := FiniteMap Bytes RecordMetadata

structure RecoveryState where
  index : Index
  validRecords : ℕ
  truncatedBytes : ℕ

structure CompactionState where
  index : Index
  oldFileBytes : ℕ
  newFileBytes : ℕ

/-- The data file and the compaction file on disk, and the stream `file_`:
closed, or open with the bytes that its put area holds. -/
structure AppendOnlyStore where
  dataPath : String
  data : Option Bytes
  temporary : Option Bytes
  stream : Option Bytes
  deriving DecidableEq

/-! ## Answers of the file system and of the streams -/

/-- What `ensureOpenLocked` is told: the error message of
`create_directories`, the `what()` of the exception that
`std::filesystem::exists` throws, and whether the two streams open. -/
structure OpenAnswers where
  createDirectories : Option String := none
  fileExists : Option String := none
  createFile : Bool := true
  openFile : Bool := true
  deriving DecidableEq

/-- What a failing write makes of the bytes it is given: the first `left` of them
are in the file, and the put area still holds the first `held`. -/
structure Torn where
  left : ℕ
  held : ℕ := 0
  deriving DecidableEq

namespace Torn

def written (torn : Torn) (bytes : Bytes) : Bytes := bytes.take torn.left

def kept (torn : Torn) (bytes : Bytes) : Bytes := bytes.take torn.held

end Torn

/-- What an append is told.  `drain` is the fault of writing what an earlier
append has left in the put area. -/
structure AppendAnswers where
  drain : Option ℕ := none
  seek : Bool := true
  write : Option Torn := none
  flush : Option Torn := none
  deriving DecidableEq

/-- What the file system makes of a record behind the drain: `none` when it is
written, and otherwise what a failure leaves of it. -/
def AppendAnswers.fault (answers : AppendAnswers) : Option Torn :=
  if answers.seek then answers.write.or answers.flush else some ⟨0, 0⟩

/-- What `readValue` is told.  A short read delivers at most that many bytes. -/
structure ReadAnswers where
  drain : Option ℕ := none
  seek : Bool := true
  short : Option ℕ := none
  deriving DecidableEq

/-- The three `file_.read` calls of the scan loop. -/
inductive ReadSite
  | header
  | key
  | value
  deriving DecidableEq

/-- What `recover` is told.  `short site position` bounds `gcount` for the read
at `site` of the record that starts at `position`. -/
structure RecoverAnswers where
  fileSize : Option String := none
  drain : Option ℕ := none
  short : ReadSite → ℕ → Option ℕ := fun _ _ => none
  close : Option ℕ := none
  resize : Option String := none
  reopen : OpenAnswers := {}

/-- What the reads of the scan loop are told.  Where the seek to the beginning
has failed, no read delivers a byte. -/
def RecoverAnswers.behindSeek (answers : RecoverAnswers) (sought : Bool) :
    RecoverAnswers :=
  if sought then answers else { answers with short := fun _ _ => some 0 }

/-- What `compact` is told.  `write number` is whether the record with that
number is written, and `remains` what a failure leaves in the temporary file
where removing it does not work. -/
structure CompactAnswers where
  fileSize : Option String := none
  createTemporary : Bool := true
  write : ℕ → Bool := fun _ => true
  flush : Bool := true
  removeTemporary : Bool := true
  remains : Bytes := []
  close : Option ℕ := none
  rename : Option String := none
  reopen : OpenAnswers := {}

namespace AppendOnlyStore

/-- The contents of the data file; a missing file reads as an empty one. -/
def bytes (store : AppendOnlyStore) : Bytes := store.data.getD []

/-- The same disk with other contents in the data file. -/
def withBytes (store : AppendOnlyStore) (data : Bytes) : AppendOnlyStore :=
  { store with data := some data }

/-- `file_.is_open()`. -/
def fileOpen (store : AppendOnlyStore) : Bool := store.stream.isSome

/-- What the put area holds. -/
def pending (store : AppendOnlyStore) : Bytes := store.stream.getD []

/-- The part of the put area that reaches the file before the fault. -/
def drained (fault : Option ℕ) (pending : Bytes) : Bytes :=
  match fault with
  | none => pending
  | some count => pending.take count

/-- What a stream does first when it seeks: it writes its put area behind the
file.  Where that fails the put area stays as it is. -/
def drain (fault : Option ℕ) (store : AppendOnlyStore) :
    AppendOnlyStore × Bool :=
  if store.pending = [] then
    (store, true)
  else
    let written := store.withBytes
      (store.bytes ++ drained fault store.pending)
    if fault = none then
      ({ written with stream := some [] }, true)
    else
      (written, false)

/-- `file_.close()`, which writes the put area and drops it. -/
def closeFile (fault : Option ℕ) (store : AppendOnlyStore) : AppendOnlyStore :=
  { (store.drain fault).1 with stream := none }

def ensureOpenLocked (answers : OpenAnswers) (store : AppendOnlyStore) :
    AppendOnlyStore × Status :=
  if store.fileOpen then
    (store, .success)
  else
    match answers.createDirectories, answers.fileExists with
    | some message, _ =>
        (store, .ioError ("failed to create data directory: " ++ message))
    | none, some what => (store, .thrown what)
    | none, none =>
        if store.data.isNone && !answers.createFile then
          (store, .ioError ("failed to create data file: " ++ store.dataPath))
        else
          let created := store.withBytes store.bytes
          if answers.openFile then
            ({ created with stream := some [] }, .success)
          else
            (created, .ioError ("failed to open data file: " ++ store.dataPath))

/-- `AppendOnlyStore::open`. -/
def openFile (answers : OpenAnswers) (store : AppendOnlyStore) :
    AppendOnlyStore × Status :=
  store.ensureOpenLocked answers

/-- Both callers have closed the stream before. -/
def reopenLocked (answers : OpenAnswers) (store : AppendOnlyStore) :
    AppendOnlyStore × Status :=
  (store.closeFile none).ensureOpenLocked answers

/-! ## Recovery -/

/-- One `file_.read` of the scan loop, with its `gcount`. -/
def scanRead (answers : RecoverAnswers) (file : Bytes) (site : ReadSite)
    (position offset length : ℕ) : Bytes :=
  match answers.short site position with
  | none => slice file offset length
  | some count => (slice file offset length).take count

/-- What one turn of the scan loop finds at `position`: a record, or the
unfinished tail (`none`). -/
def scanRecord (answers : RecoverAnswers) (file : Bytes) (position : ℕ) :
    Result (Option (ParsedHeader × Bytes × Bytes)) :=
  let remaining := file.length - position
  if remaining < kRecordHeaderSize then
    .ok none
  else
    let headerBytes :=
      scanRead answers file .header position position kRecordHeaderSize
    if hsize : headerBytes.length = kRecordHeaderSize then
      match parseHeader ⟨headerBytes, hsize⟩ with
      | .error status =>
          .error (.corruption
            ("at byte " ++ toString position ++ ": " ++ status.message))
      | .ok header =>
          let payloadBytes := header.keySize.toNat + header.valueSize.toNat
          let recordBytes := kRecordHeaderSize + payloadBytes
          if recordBytes > remaining then
            .ok none
          else
            let keyOffset := position + kRecordHeaderSize
            let key := scanRead answers file .key position keyOffset
              header.keySize.toNat
            if key.length ≠ header.keySize.toNat then
              .error (.ioError "failed while reading a record key")
            else
              let value := scanRead answers file .value position
                (keyOffset + header.keySize.toNat) header.valueSize.toNat
              if value.length ≠ header.valueSize.toNat then
                .error (.ioError "failed while reading a record value")
              else if recordChecksum header.operation header.expiresAtMs
                  key value ≠ header.checksum then
                .error (.corruption
                  ("checksum mismatch at byte " ++ toString position))
              else
                .ok (some (header, key, value))
    else
      -- The short header read takes the exit of an unfinished tail.
      .ok none

/-- What a valid record does to the recovered index. -/
def replayRecord (nowMs : Int64) (position : ℕ) (header : ParsedHeader)
    (key : Bytes) (index : Index) : Index :=
  if header.operation = .delete then
    index.erase key
  else if isExpired header.expiresAtMs nowMs then
    index.erase key
  else
    index.insert key
      { recordOffset := position
        valueOffset := position + kRecordHeaderSize + header.keySize.toNat
        valueSize := header.valueSize
        expiresAtMs := header.expiresAtMs }

/-- The scan loop of `recover`, from `position` to the end of the file or to
the tail that it drops. -/
def scan (answers : RecoverAnswers) (nowMs : Int64) (file : Bytes)
    (position : ℕ) (state : RecoveryState) : Result (RecoveryState × ℕ) :=
  if position < file.length then
    match scanRecord answers file position with
    | .error status => .error status
    | .ok none =>
        .ok ({ state with truncatedBytes := file.length - position }, position)
    | .ok (some (header, key, _)) =>
        scan answers nowMs file
          (position + (kRecordHeaderSize +
            (header.keySize.toNat + header.valueSize.toNat)))
          { state with
            index := replayRecord nowMs position header key state.index
            validRecords := state.validRecords + 1 }
  else
    .ok (state, position)
termination_by file.length - position
decreasing_by
  simp only [kRecordHeaderSize]
  omega

/-- The size of the file is taken before the seek writes the put area. -/
def recover (openAnswers : OpenAnswers) (answers : RecoverAnswers)
    (nowMs : Int64) (store : AppendOnlyStore) :
    AppendOnlyStore × Result RecoveryState :=
  let opened := store.ensureOpenLocked openAnswers
  if opened.2.ok then
    match answers.fileSize with
    | some message =>
        (opened.1, .error (.ioError
          ("failed to determine data file size: " ++ message)))
    | none =>
        let sought := opened.1.drain answers.drain
        match scan (answers.behindSeek sought.2) nowMs opened.1.bytes 0
            ⟨.empty, 0, 0⟩ with
        | .error status => (sought.1, .error status)
        | .ok (state, position) =>
            if state.truncatedBytes > 0 then
              let closed := sought.1.closeFile answers.close
              match answers.resize with
              | some message =>
                  (closed, .error (.ioError
                    ("failed to remove incomplete tail: " ++ message)))
              | none =>
                  let resized := closed.withBytes (closed.bytes.take position)
                  let reopened := resized.reopenLocked answers.reopen
                  if reopened.2.ok then
                    (reopened.1, .ok state)
                  else
                    (reopened.1, .error reopened.2)
            else
              (sought.1, .ok state)
  else
    (opened.1, .error opened.2)

/-! ## Appending and reading -/

/-- The bytes `writeRecord` hands to the stream. -/
def recordBytes (record : Record) : Bytes :=
  (makeHeader record).bytes ++ record.key ++ record.value

/-- An output stream behind a write: what is in its file and what its put area
still holds.  Bytes that are written later without a failure count as being in
the file. -/
structure Output where
  file : Bytes
  held : Bytes := []

def writeRecord (fault : Option Torn) (output : Bytes) (record : Record)
    (recordOffset : ℕ) : Output × Result RecordMetadata :=
  if record.key = [] ∨ record.key.length > kMaximumKeySize then
    (⟨output, []⟩, .error (.invalidArgument
      "key size is outside the supported range"))
  else if record.value.length > kMaximumValueSize then
    (⟨output, []⟩, .error (.invalidArgument "value exceeds 16 MiB"))
  else if record.operation = .delete ∧ record.value ≠ [] then
    (⟨output, []⟩, .error (.invalidArgument
      "delete record must not contain a value"))
  else
    match fault with
    | some torn =>
        (⟨output ++ torn.written (recordBytes record),
            torn.kept (recordBytes record)⟩,
          .error (.ioError "failed to write append-only record"))
    | none =>
        (⟨output ++ recordBytes record, []⟩,
          .ok
            { recordOffset := recordOffset
              valueOffset := recordOffset + kRecordHeaderSize +
                record.key.length
              valueSize := UInt32.ofNat record.value.length
              expiresAtMs := record.expiresAtMs })

def appendRecordLocked (openAnswers : OpenAnswers) (answers : AppendAnswers)
    (record : Record) (store : AppendOnlyStore) :
    AppendOnlyStore × Result RecordMetadata :=
  let opened := store.ensureOpenLocked openAnswers
  if opened.2.ok then
    let sought := opened.1.drain answers.drain
    if sought.2 && answers.seek then
      let offset := sought.1.bytes.length
      match writeRecord answers.write sought.1.bytes record offset with
      | (output, .error status) =>
          ({ sought.1.withBytes output.file with stream := some output.held },
            .error status)
      | (output, .ok metadata) =>
          match answers.flush with
          | some torn =>
              ({ sought.1.withBytes
                    (sought.1.bytes ++ torn.written (recordBytes record)) with
                  stream := some (torn.kept (recordBytes record)) },
                .error (.ioError "failed to flush append-only record"))
          | none => (sought.1.withBytes output.file, .ok metadata)
    else
      (sought.1, .error (.ioError "failed to seek to end of data file"))
  else
    (opened.1, .error opened.2)

def appendSet (openAnswers : OpenAnswers) (answers : AppendAnswers)
    (key value : Bytes) (expiresAtMs : Int64) (store : AppendOnlyStore) :
    AppendOnlyStore × Result RecordMetadata :=
  store.appendRecordLocked openAnswers answers ⟨.set, key, value, expiresAtMs⟩

def appendDelete (openAnswers : OpenAnswers) (answers : AppendAnswers)
    (key : Bytes) (store : AppendOnlyStore) : AppendOnlyStore × Status :=
  match store.appendRecordLocked openAnswers answers ⟨.delete, key, [], 0⟩ with
  | (store, .ok _) => (store, .success)
  | (store, .error status) => (store, status)

def readValue (openAnswers : OpenAnswers) (answers : ReadAnswers)
    (metadata : RecordMetadata) (store : AppendOnlyStore) :
    AppendOnlyStore × Result Bytes :=
  let opened := store.ensureOpenLocked openAnswers
  if opened.2.ok then
    let sought := opened.1.drain answers.drain
    if sought.2 && answers.seek then
      let stored := slice sought.1.bytes metadata.valueOffset
        metadata.valueSize.toNat
      let value := match answers.short with
        | none => stored
        | some count => stored.take count
      if value.length ≠ metadata.valueSize.toNat then
        (sought.1, .error (.corruption "value extends beyond the data file"))
      else
        (sought.1, .ok value)
    else
      (sought.1, .error (.ioError "failed to seek to value"))
  else
    (opened.1, .error opened.2)

/-! ## Compaction -/

/-- The rewrite loop of `compact`. -/
def writeLiveRecords (works : ℕ → Bool) :
    List Record → ℕ → Bytes → ℕ → Index → Result (Bytes × Index × ℕ)
  | [], _, output, offset, index => .ok (output, index, offset)
  | record :: records, number, output, offset, index =>
      let fault := if works number then none else some ⟨0, 0⟩
      match writeRecord fault output record offset with
      | (_, .error status) => .error status
      | (output, .ok metadata) =>
          writeLiveRecords works records (number + 1) output.file
            (offset + (kRecordHeaderSize + record.key.length +
              record.value.length))
            (index.insert record.key metadata)

/-- `output.close()` and `std::filesystem::remove(temporaryPath, removeError)`
on a failing exit. -/
def discardTemporary (answers : CompactAnswers) (store : AppendOnlyStore) :
    AppendOnlyStore :=
  { store with
    temporary :=
      if answers.removeTemporary then none else some answers.remains }

def compact (openAnswers : OpenAnswers) (answers : CompactAnswers)
    (liveRecords : List Record) (store : AppendOnlyStore) :
    AppendOnlyStore × Result CompactionState :=
  let opened := store.ensureOpenLocked openAnswers
  if opened.2.ok then
    match answers.fileSize with
    | some message =>
        (opened.1, .error (.ioError
          ("failed to determine old data file size: " ++ message)))
    | none =>
        let oldFileBytes := opened.1.bytes.length
        if answers.createTemporary then
          match writeLiveRecords answers.write liveRecords 0 [] 0 .empty with
          | .error status =>
              (opened.1.discardTemporary answers, .error status)
          | .ok (output, index, offset) =>
              if answers.flush then
                let written := { opened.1 with
                  temporary := some output }.closeFile answers.close
                match answers.rename with
                | some message =>
                    let reopened := written.reopenLocked answers.reopen
                    if reopened.2.ok then
                      (reopened.1, .error (.ioError
                        ("failed to replace data file after compaction: " ++
                          message)))
                    else
                      (reopened.1, .error reopened.2)
                | none =>
                    let renamed := { written with
                      data := some output
                      temporary := none }
                    let reopened := renamed.reopenLocked answers.reopen
                    if reopened.2.ok then
                      (reopened.1, .ok ⟨index, oldFileBytes, offset⟩)
                    else
                      (reopened.1, .error reopened.2)
              else
                (opened.1.discardTemporary answers,
                  .error (.ioError "failed to flush compaction file"))
        else
          ({ opened.1 with
              temporary :=
                if answers.removeTemporary then none else opened.1.temporary },
            .error (.ioError "failed to create compaction file"))
  else
    (opened.1, .error opened.2)

def fileSize (failed : Bool) (store : AppendOnlyStore) : ℕ :=
  if failed then 0 else store.bytes.length

end AppendOnlyStore

end MiniKV
