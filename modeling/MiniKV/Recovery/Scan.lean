import MiniKV.Format.Stored

/-!
# The scan loop reads the log language

One turn of the scan loop sees at its position exactly what `LogEntry.head`
sees at the front of the unread bytes, as long as no read comes back short.
Hence the loop replays the leading records one after the other and stops where
they stop.
-/

namespace MiniKV

/-- No read of the record at `position` comes back short. -/
def RecoverAnswers.FullAt (answers : RecoverAnswers) (position : ℕ) : Prop :=
  ∀ site, answers.short site position = none

theorem slice_drop (file : Bytes) (position offset length : ℕ) :
    slice (file.drop position) offset length =
      slice file (position + offset) length := by
  rw [slice, slice, List.drop_drop]

namespace AppendOnlyStore

variable {answers : RecoverAnswers} {nowMs : Int64} {file : Bytes}
variable {position : ℕ}

theorem scanRead_of_full (hfull : answers.FullAt position) (site : ReadSite)
    (offset length : ℕ) :
    scanRead answers file site position offset length =
      slice file offset length := by
  rw [scanRead, hfull site]

/-- What a turn of the loop reports for each kind of front. -/
def Reports : Head LogEntry →
    Result (Option (ParsedHeader × Bytes × Bytes)) → Prop
  | .entry entry, result =>
      result = .ok (some (entry.record.parsed, entry.record.key,
        entry.record.value))
  | .incomplete, result => result = .ok none
  | .malformed, result => ∃ message, result = .error (.corruption message)

/-- One turn of the scan loop without a short read. -/
theorem scanRecord_reports (file : Bytes) (hfull : answers.FullAt position) :
    Reports (LogEntry.head (file.drop position))
      (scanRecord answers file position) := by
  have hremaining : (file.drop position).length = file.length - position :=
    List.length_drop
  have hread : scanRead answers file .header position position
      kRecordHeaderSize = (file.drop position).take kRecordHeaderSize :=
    scanRead_of_full hfull .header position kRecordHeaderSize
  unfold scanRecord LogEntry.head
  by_cases hshort : file.length - position < kRecordHeaderSize
  · have hsize : ¬ ((file.drop position).take kRecordHeaderSize).length =
        kRecordHeaderSize := by
      rw [List.length_take]
      omega
    rw [dif_neg hsize]
    simp only [hshort, if_true]
    exact rfl
  have hsize : ((file.drop position).take kRecordHeaderSize).length =
      kRecordHeaderSize := by
    rw [List.length_take]
    omega
  simp only [hread, hshort, hsize, if_false, dite_true]
  cases hparse : parseHeader ⟨_, hsize⟩ with
  | error status => exact ⟨_, rfl⟩
  | ok header =>
      obtain ⟨hvalid, -⟩ := parseHeader_sound hparse
      simp only [scanRead_of_full hfull, gt_iff_lt, hremaining]
      by_cases hlonger : file.length - position < header.recordBytes
      · rw [if_pos hlonger, if_pos (by simpa [ParsedHeader.recordBytes])]
        exact rfl
      have hlength : header.recordBytes ≤ (file.drop position).length := by
        omega
      have hheader : 0 < kRecordHeaderSize := by decide
      have hend := hlength
      rw [ParsedHeader.recordBytes, List.length_drop] at hend
      have hkey := slice_drop file position kRecordHeaderSize
        header.keySize.toNat
      have hvalue := slice_drop file position
        (kRecordHeaderSize + header.keySize.toNat) header.valueSize.toNat
      rw [← Nat.add_assoc] at hvalue
      have hkeyLength : (slice file (position + kRecordHeaderSize)
          header.keySize.toNat).length = header.keySize.toNat :=
        length_slice (by omega)
      have hvalueLength : (slice file
          (position + kRecordHeaderSize + header.keySize.toNat)
          header.valueSize.toNat).length = header.valueSize.toNat :=
        length_slice (by omega)
      have hentry := parsed_slices_iff hvalid hlength hkey.symm hvalue.symm
      rw [if_neg hlonger, if_neg (by simpa [ParsedHeader.recordBytes] using hlonger),
        if_neg (not_not.mpr hkeyLength), if_neg (not_not.mpr hvalueLength)]
      simp only [hkey, hvalue]
      by_cases hchecksum : recordChecksum header.operation header.expiresAtMs
          (slice file (position + kRecordHeaderSize) header.keySize.toNat)
          (slice file (position + kRecordHeaderSize + header.keySize.toNat)
            header.valueSize.toNat) = header.checksum
      · rw [dif_pos (hentry.mpr hchecksum), if_neg (not_not.mpr hchecksum)]
        simp only [Reports, (hentry.mpr hchecksum).1]
      · rw [dif_neg (fun h => hchecksum (hentry.mp h)), if_pos hchecksum]
        exact ⟨_, rfl⟩

/-! ## The loop -/

theorem scan_end (hend : file.length ≤ position) (state : RecoveryState) :
    scan answers nowMs file position state = .ok (state, position) := by
  rw [scan, if_neg (Nat.not_lt.mpr hend)]

/-- A whole record at `position` is replayed and the loop goes on behind it. -/
theorem scan_entry (hfull : answers.FullAt position) {entry : LogEntry}
    {rest : Bytes} (hunread : file.drop position = entry.image ++ rest)
    (state : RecoveryState) :
    scan answers nowMs file position state =
      scan answers nowMs file (position + entry.size)
        { state with
          index := entry.apply nowMs position state.index
          validRecords := state.validRecords + 1 } := by
  have hreports := scanRecord_reports file hfull
  rw [hunread, LogEntry.head_image, Reports] at hreports
  have hposition : position < file.length := by
    by_contra hend
    rw [List.drop_eq_nil_of_le (Nat.not_lt.mp hend)] at hunread
    have himage := congrArg List.length hunread
    have hpos := logFormat.length_image_pos entry
    rw [List.length_append, List.length_nil] at himage
    change 0 < entry.image.length at hpos
    omega
  rw [scan, if_pos hposition, hreports, ← LogEntry.replayRecord_parsed]
  simp only [entry.valid.toNat_keySize, entry.valid.toNat_valueSize]
  rfl

/-- Leading records are replayed in order. -/
theorem scan_entries (entries : List LogEntry)
    (hfull : ∀ start < position + logSize entries, answers.FullAt start)
    {rest : Bytes}
    (hunread : file.drop position = logFormat.imageAll entries ++ rest)
    (state : RecoveryState) :
    scan answers nowMs file position state =
      scan answers nowMs file (position + logSize entries)
        { state with
          index := replayFrom nowMs position entries state.index
          validRecords := state.validRecords + entries.length } := by
  induction entries generalizing position state with
  | nil => rfl
  | cons entry entries ih =>
      have hsize : 0 < entry.size := by
        rw [← entry.length_image]
        exact logFormat.length_image_pos entry
      rw [FrameFormat.imageAll_cons, List.append_assoc] at hunread
      have hnext : file.drop (position + entry.size) =
          logFormat.imageAll entries ++ rest := by
        rw [← List.drop_drop, hunread, ← entry.length_image]
        exact List.drop_left
      rw [logSize_cons] at hfull
      rw [scan_entry (hfull _ (by omega)) hunread,
        ih (fun start hstart => hfull start (by omega)) hnext, logSize_cons,
        Nat.add_assoc, List.length_cons, Nat.add_assoc, Nat.add_comm 1]
      rfl

section Stops

variable {entries : List LogEntry} {rest : Bytes}

theorem drop_imageAll (entries : List LogEntry) (rest : Bytes) :
    (logFormat.imageAll entries ++ rest).drop (logSize entries) = rest := by
  rw [← length_imageAll, List.drop_left]

/-- The loop comes to what stands behind the leading records. -/
theorem scan_reaches (hfull : ∀ start < logSize entries, answers.FullAt start) :
    scan answers nowMs (logFormat.imageAll entries ++ rest) 0 ⟨.empty, 0, 0⟩ =
      scan answers nowMs (logFormat.imageAll entries ++ rest) (logSize entries)
        ⟨replay nowMs entries, entries.length, 0⟩ := by
  rw [scan_entries entries (fun start hstart => hfull start (by omega)) rfl,
    Nat.zero_add, Nat.zero_add]
  rfl

/-- A turn that finds an unfinished tail ends the loop. -/
theorem scan_stops_unfinished (nowMs : Int64)
    (hfull : ∀ start < logSize entries, answers.FullAt start)
    (hrest : rest ≠ [])
    (hrecord : scanRecord answers (logFormat.imageAll entries ++ rest)
      (logSize entries) = .ok none) :
    scan answers nowMs (logFormat.imageAll entries ++ rest) 0 ⟨.empty, 0, 0⟩ =
      .ok (⟨replay nowMs entries, entries.length, rest.length⟩,
        logSize entries) := by
  have hpos := List.length_pos_of_ne_nil hrest
  rw [scan_reaches hfull, scan, if_pos (by simpa using hpos), hrecord]
  simp

/-- A turn that fails ends the loop. -/
theorem scan_stops_error (nowMs : Int64)
    (hfull : ∀ start < logSize entries, answers.FullAt start)
    (hrest : rest ≠ []) {status : Status}
    (hrecord : scanRecord answers (logFormat.imageAll entries ++ rest)
      (logSize entries) = .error status) :
    scan answers nowMs (logFormat.imageAll entries ++ rest) 0 ⟨.empty, 0, 0⟩ =
      .error status := by
  have hpos := List.length_pos_of_ne_nil hrest
  rw [scan_reaches hfull, scan, if_pos (by simpa using hpos), hrecord]

end Stops

/-- The scan of a file without a short read. -/
theorem scan_log (nowMs : Int64) (entries : List LogEntry) {tail : Bytes}
    (htail : UnfinishedTail tail) :
    scan {} nowMs (logFormat.imageAll entries ++ tail) 0 ⟨.empty, 0, 0⟩ =
      .ok (⟨replay nowMs entries, entries.length, tail.length⟩,
        logSize entries) := by
  have hfull : ∀ start, RecoverAnswers.FullAt {} start := fun _ _ => rfl
  by_cases hnil : tail = []
  · rw [scan_reaches fun start _ => hfull start, hnil, scan_end (by simp)]
    rfl
  · apply scan_stops_unfinished nowMs (fun start _ => hfull start) hnil
    have hreports := scanRecord_reports (logFormat.imageAll entries ++ tail)
      (hfull (logSize entries))
    rwa [drop_imageAll, (head_eq_incomplete_iff tail).mpr htail] at hreports

/-- A file that is no log is reported. -/
theorem scan_not_log (nowMs : Int64) (entries : List LogEntry) {rest : Bytes}
    (hhead : LogEntry.head rest = .malformed) :
    ∃ message,
      scan {} nowMs (logFormat.imageAll entries ++ rest) 0 ⟨.empty, 0, 0⟩ =
        .error (.corruption message) := by
  have hfull : ∀ start, RecoverAnswers.FullAt {} start := fun _ _ => rfl
  have hrest : rest ≠ [] := by
    intro hnil
    rw [hnil, LogEntry.head_of_short (by simp [kRecordHeaderSize])] at hhead
    cases hhead
  have hreports := scanRecord_reports (logFormat.imageAll entries ++ rest)
    (hfull (logSize entries))
  rw [drop_imageAll, hhead] at hreports
  obtain ⟨message, hmessage⟩ := hreports
  exact ⟨message, scan_stops_error nowMs (fun start _ => hfull start) hrest
    hmessage⟩

/-! ## Recovering -/

variable (store : AppendOnlyStore)

/-- The store that recovery leaves behind a log with these entries. -/
def recovered (entries : List LogEntry) (tail : Bytes) : AppendOnlyStore :=
  if tail = [] then store.settled
  else
    { store with
      data := some (logFormat.imageAll entries)
      stream := some [] }

@[simp]
theorem fileOpen_recovered (entries : List LogEntry) (tail : Bytes) :
    (store.recovered entries tail).fileOpen = true := by
  unfold recovered
  split
  · rw [settled, fileOpen_drain, fileOpen_opened]
  · rfl

@[simp]
theorem pending_recovered (entries : List LogEntry) (tail : Bytes) :
    (store.recovered entries tail).pending = [] := by
  unfold recovered
  split
  · exact store.pending_settled
  · rfl

/-- A log without a tail keeps what the put area adds to it. -/
theorem bytes_recovered {entries : List LogEntry} {tail : Bytes}
    (hbytes : store.bytes = logFormat.imageAll entries ++ tail) :
    (store.recovered entries tail).bytes = logFormat.imageAll entries ++
      if tail = [] then store.pending else [] := by
  unfold recovered
  split
  next hnil => rw [bytes_settled, hbytes, hnil, List.append_nil]
  · rw [List.append_nil]
    rfl

/-- A stream that holds nothing adds nothing. -/
theorem bytes_recovered_of_pending {entries : List LogEntry} {tail : Bytes}
    (hbytes : store.bytes = logFormat.imageAll entries ++ tail)
    (hpending : store.pending = []) :
    (store.recovered entries tail).bytes = logFormat.imageAll entries := by
  rw [bytes_recovered store hbytes, hpending, ite_self, List.append_nil]

section Outcome

variable {store : AppendOnlyStore} {answers : RecoverAnswers} {nowMs : Int64}

theorem recover_of_scan_error {status : Status}
    (hfileSize : answers.fileSize = none) (hdrain : answers.drain = none)
    (hscan : scan answers nowMs store.bytes 0 ⟨.empty, 0, 0⟩ =
      .error status) :
    store.recover {} answers nowMs = (store.settled, .error status) := by
  rw [recover, ensureOpenLocked_faultless]
  simp only [Status.ok_success, if_true, bytes_opened, hfileSize, hdrain]
  rw [store.opened.drain_none]
  simp only [RecoverAnswers.behindSeek, if_true, hscan]
  rfl

theorem recover_of_scan_end {state : RecoveryState} {position : ℕ}
    (hfileSize : answers.fileSize = none) (hdrain : answers.drain = none)
    (hscan : scan answers nowMs store.bytes 0 ⟨.empty, 0, 0⟩ =
      .ok (state, position)) (hwhole : state.truncatedBytes = 0) :
    store.recover {} answers nowMs = (store.settled, .ok state) := by
  rw [recover, ensureOpenLocked_faultless]
  simp only [Status.ok_success, if_true, bytes_opened, hfileSize, hdrain]
  rw [store.opened.drain_none]
  simp only [RecoverAnswers.behindSeek, if_true, hscan, hwhole, gt_iff_lt,
    Nat.lt_irrefl, if_false]
  rfl

/-- A tail that the loop reports is cut off the file, and what the put area held
with it. -/
theorem recover_of_scan_tail {state : RecoveryState} {position : ℕ}
    (hfileSize : answers.fileSize = none) (hdrain : answers.drain = none)
    (hresize : answers.resize = none) (hreopen : answers.reopen = {})
    (hscan : scan answers nowMs store.bytes 0 ⟨.empty, 0, 0⟩ =
      .ok (state, position)) (htail : 0 < state.truncatedBytes)
    (hposition : position ≤ store.bytes.length) :
    store.recover {} answers nowMs =
      ({ store with
          data := some (store.bytes.take position)
          stream := some [] }, .ok state) := by
  rw [recover, ensureOpenLocked_faultless]
  simp only [Status.ok_success, if_true, bytes_opened, hfileSize, hdrain]
  rw [store.opened.drain_none]
  simp only [RecoverAnswers.behindSeek, if_true, hscan, hresize, hreopen,
    gt_iff_lt, htail, reopenLocked, ensureOpenLocked_faultless]
  have hcut : (((store.opened.drain none).1.closeFile
      answers.close).bytes).take position = store.bytes.take position := by
    rw [bytes_closeFile, bytes_drain, bytes_opened, List.append_assoc,
      List.take_append_of_le_length hposition]
  rw [hcut, closeFile_of_closed _ rfl, if_pos Status.ok_success,
    opened_of_closed _ rfl]
  simp only [withBytes, bytes, Option.getD_some, temporary_closeFile,
    temporary_drain, temporary_opened, dataPath_closeFile, dataPath_drain,
    dataPath_opened]

end Outcome

/-- Recovery of a log with an unfinished tail, without I/O failure. -/
theorem recover_log {store : AppendOnlyStore} {entries : List LogEntry}
    {tail : Bytes}
    (hbytes : store.bytes = logFormat.imageAll entries ++ tail)
    (htail : UnfinishedTail tail) (nowMs : Int64) :
    store.recover {} {} nowMs =
      (store.recovered entries tail,
        .ok ⟨replay nowMs entries, entries.length, tail.length⟩) := by
  have hscan := scan_log nowMs entries htail
  rw [← hbytes] at hscan
  by_cases hnil : tail = []
  · rw [recover_of_scan_end rfl rfl hscan (by rw [hnil]; rfl), recovered,
      if_pos hnil]
  · have hcut : store.bytes.take (logSize entries) =
        logFormat.imageAll entries := by
      rw [hbytes, ← length_imageAll, List.take_left]
    have hposition : logSize entries ≤ store.bytes.length := by
      rw [hbytes, ← length_imageAll, List.length_append]
      exact Nat.le_add_right _ _
    rw [recover_of_scan_tail rfl rfl rfl rfl hscan
      (List.length_pos_of_ne_nil hnil) hposition, hcut, recovered, if_neg hnil]

/-- Recovery of a file that is no log leaves its bytes alone. -/
theorem recover_not_log {store : AppendOnlyStore} {entries : List LogEntry}
    {rest : Bytes} (hbytes : store.bytes = logFormat.imageAll entries ++ rest)
    (hhead : LogEntry.head rest = .malformed) (nowMs : Int64) :
    ∃ message, store.recover {} {} nowMs =
      (store.settled, .error (.corruption message)) := by
  obtain ⟨message, hscan⟩ := scan_not_log nowMs entries hhead
  rw [← hbytes] at hscan
  exact ⟨message, recover_of_scan_error rfl rfl hscan⟩

end AppendOnlyStore

end MiniKV
