import MiniKV.Recovery.Crash

/-!
# Short reads during recovery

A read can deliver fewer bytes than the file has.  The key and value reads of
the scan loop answer it with an I/O error; the header read takes the exit of an
unfinished tail, which cuts the file.  Either way, a recovery that succeeds
leaves a whole log and returns its replay.
-/

namespace MiniKV

/-- The front of the unread bytes has a header that `parseHeader` accepts, and
its whole record is there. -/
def HeaderAccepted (rest : Bytes) (parsed : ParsedHeader) : Prop :=
  ∃ header : Header, header.bytes = rest.take kRecordHeaderSize ∧
    parseHeader header = .ok parsed ∧ parsed.recordBytes ≤ rest.length

/-- The first short read of a record is the one at the given site.  `short`
bounds the byte counts of its three reads. -/
inductive ShortAt (short : ReadSite → Option ℕ) (rest : Bytes) :
    ReadSite → Prop
  | header {count : ℕ} (hrest : kRecordHeaderSize ≤ rest.length)
      (hshort : short .header = some count)
      (hcount : count < kRecordHeaderSize) : ShortAt short rest .header
  | key {parsed : ParsedHeader} {count : ℕ} (hheader : short .header = none)
      (haccepted : HeaderAccepted rest parsed)
      (hshort : short .key = some count)
      (hcount : count < parsed.keySize.toNat) : ShortAt short rest .key
  | value {parsed : ParsedHeader} {count : ℕ} (hheader : short .header = none)
      (hkey : short .key = none) (haccepted : HeaderAccepted rest parsed)
      (hshort : short .value = some count)
      (hcount : count < parsed.valueSize.toNat) : ShortAt short rest .value

theorem HeaderAccepted.header_le {rest : Bytes} {parsed : ParsedHeader}
    (haccepted : HeaderAccepted rest parsed) :
    kRecordHeaderSize ≤ rest.length := by
  obtain ⟨header, hbytes, -⟩ := haccepted
  have hlength := congrArg List.length hbytes
  rw [header.size, List.length_take] at hlength
  omega

theorem ShortAt.header_le {short : ReadSite → Option ℕ} {rest : Bytes}
    {site : ReadSite} (hshort : ShortAt short rest site) :
    kRecordHeaderSize ≤ rest.length := by
  cases hshort with
  | header hrest _ _ => exact hrest
  | key _ haccepted _ _ => exact haccepted.header_le
  | value _ _ haccepted _ _ => exact haccepted.header_le

theorem ShortAt.ne_nil {short : ReadSite → Option ℕ} {rest : Bytes}
    {site : ReadSite} (hshort : ShortAt short rest site) : rest ≠ [] := by
  intro hnil
  have hlength := hshort.header_le
  rw [hnil, kRecordHeaderSize] at hlength
  exact absurd hlength (by decide)

namespace AppendOnlyStore

variable {answers : RecoverAnswers} {file : Bytes} {position : ℕ}

theorem length_scanRead_short {site : ReadSite} {count offset length : ℕ}
    (hshort : answers.short site position = some count)
    (hcount : count < length) :
    (scanRead answers file site position offset length).length ≠ length := by
  rw [scanRead, hshort, List.length_take]
  omega

theorem scanRead_of_none {site : ReadSite}
    (hnone : answers.short site position = none) (offset length : ℕ) :
    scanRead answers file site position offset length =
      slice file offset length := by
  rw [scanRead, hnone]

/-- A short header read looks like the end of the file. -/
theorem scanRecord_short_header {count : ℕ}
    (hshort : answers.short .header position = some count)
    (hcount : count < kRecordHeaderSize) :
    scanRecord answers file position = .ok none := by
  unfold scanRecord
  dsimp only
  split
  · rfl
  · rw [dif_neg (length_scanRead_short hshort hcount)]

/-- The part of the turn behind an accepted header. -/
theorem scanRecord_of_accepted {parsed : ParsedHeader}
    (hheader : answers.short .header position = none)
    (haccepted : HeaderAccepted (file.drop position) parsed) :
    scanRecord answers file position =
      let keyOffset := position + kRecordHeaderSize
      let key := scanRead answers file .key position keyOffset
        parsed.keySize.toNat
      if key.length ≠ parsed.keySize.toNat then
        .error (.ioError "failed while reading a record key")
      else
        let value := scanRead answers file .value position
          (keyOffset + parsed.keySize.toNat) parsed.valueSize.toNat
        if value.length ≠ parsed.valueSize.toNat then
          .error (.ioError "failed while reading a record value")
        else if recordChecksum parsed.operation parsed.expiresAtMs
            key value ≠ parsed.checksum then
          .error (.corruption
            ("checksum mismatch at byte " ++ toString position))
        else
          .ok (some (parsed, key, value)) := by
  have hremaining := haccepted.header_le
  obtain ⟨header, hbytes, hparse, hwhole⟩ := haccepted
  rw [List.length_drop] at hremaining hwhole
  have hread : scanRead answers file .header position position
      kRecordHeaderSize = header.bytes := by
    rw [scanRead_of_none hheader, hbytes, slice]
  have hparsed : ∀ hsize, parseHeader ⟨header.bytes, hsize⟩ = .ok parsed :=
    fun _ => hparse
  unfold scanRecord
  rw [if_neg (Nat.not_lt.mpr hremaining)]
  simp only [hread, header.size, dite_true, hparsed]
  rw [ParsedHeader.recordBytes] at hwhole
  rw [if_neg (Nat.not_lt.mpr hwhole)]

theorem scanRecord_short_key {parsed : ParsedHeader} {count : ℕ}
    (hheader : answers.short .header position = none)
    (haccepted : HeaderAccepted (file.drop position) parsed)
    (hshort : answers.short .key position = some count)
    (hcount : count < parsed.keySize.toNat) :
    scanRecord answers file position =
      .error (.ioError "failed while reading a record key") := by
  rw [scanRecord_of_accepted hheader haccepted]
  exact if_pos (length_scanRead_short hshort hcount)

theorem scanRecord_short_value {parsed : ParsedHeader} {count : ℕ}
    (hheader : answers.short .header position = none)
    (hkey : answers.short .key position = none)
    (haccepted : HeaderAccepted (file.drop position) parsed)
    (hshort : answers.short .value position = some count)
    (hcount : count < parsed.valueSize.toNat) :
    scanRecord answers file position =
      .error (.ioError "failed while reading a record value") := by
  rw [scanRecord_of_accepted hheader haccepted]
  obtain ⟨-, -, -, hwhole⟩ := haccepted
  rw [List.length_drop, ParsedHeader.recordBytes] at hwhole
  have hlength : (scanRead answers file .key position
      (position + kRecordHeaderSize) parsed.keySize.toNat).length =
      parsed.keySize.toNat := by
    have hnonzero : 0 < kRecordHeaderSize := by decide
    rw [scanRead_of_none hkey, length_slice (by omega)]
  dsimp only
  rw [if_neg (not_not.mpr hlength)]
  exact if_pos (length_scanRead_short hshort hcount)

/-! ## From one turn to the whole recovery -/

variable {short : ReadSite → ℕ → Option ℕ} {entries : List LogEntry}
variable {rest : Bytes} {store : AppendOnlyStore} {site : ReadSite}

/-- What the turn with the short read reports. -/
theorem scanRecord_shortAt
    (hshort : ShortAt (fun site => short site (logSize entries)) rest site) :
    (site = .header ∧ scanRecord { short := short }
        (logFormat.imageAll entries ++ rest) (logSize entries) = .ok none) ∨
      (site ≠ .header ∧ ∃ message, scanRecord { short := short }
        (logFormat.imageAll entries ++ rest) (logSize entries) =
          .error (.ioError message)) := by
  have hdrop := drop_imageAll entries rest
  cases hshort with
  | header _ hshort hcount =>
      exact Or.inl ⟨rfl, scanRecord_short_header hshort hcount⟩
  | key hheader haccepted hshort hcount =>
      rw [← hdrop] at haccepted
      exact Or.inr ⟨by decide, _,
        scanRecord_short_key hheader haccepted hshort hcount⟩
  | value hheader hkey haccepted hshort hcount =>
      rw [← hdrop] at haccepted
      exact Or.inr ⟨by decide, _,
        scanRecord_short_value hheader hkey haccepted hshort hcount⟩

/-- A short header read cuts the file and is reported as success. -/
theorem recover_short_header
    (hbytes : store.bytes = logFormat.imageAll entries ++ rest)
    (hearlier : ∀ start < logSize entries, ∀ site, short site start = none)
    (hshort : ShortAt (fun site => short site (logSize entries)) rest .header)
    (nowMs : Int64) :
    ∃ after, store.recover {} { short := short } nowMs =
        (after, .ok ⟨replay nowMs entries, entries.length, rest.length⟩) ∧
      after.bytes = logFormat.imageAll entries := by
  rcases scanRecord_shortAt hshort with ⟨-, hrecord⟩ | ⟨hsite, -⟩
  · have hscan := scan_stops_unfinished nowMs hearlier hshort.ne_nil
      hrecord
    rw [← hbytes] at hscan
    have htail := List.length_pos_of_ne_nil hshort.ne_nil
    have hposition : logSize entries ≤ store.bytes.length := by
      rw [hbytes, ← length_imageAll, List.length_append]
      exact Nat.le_add_right _ _
    refine ⟨_, recover_of_scan_tail rfl rfl rfl rfl hscan htail hposition, ?_⟩
    rw [hbytes, ← length_imageAll, List.take_left]
    rfl
  · exact absurd rfl hsite

/-- A short key or value read is reported and leaves the file alone. -/
theorem recover_short_payload
    (hbytes : store.bytes = logFormat.imageAll entries ++ rest)
    (hearlier : ∀ start < logSize entries, ∀ site, short site start = none)
    (hshort : ShortAt (fun site => short site (logSize entries)) rest site)
    (hsite : site ≠ .header) (nowMs : Int64) :
    ∃ message, store.recover {} { short := short } nowMs =
      (store.settled, .error (.ioError message)) := by
  rcases scanRecord_shortAt hshort with ⟨hheader, -⟩ | ⟨-, message, hrecord⟩
  · exact absurd hheader hsite
  · have hscan := scan_stops_error nowMs hearlier hshort.ne_nil hrecord
    rw [← hbytes] at hscan
    exact ⟨message, recover_of_scan_error rfl rfl hscan⟩

/-- Recovery survives the first short read of a scan, wherever it is, with a
failure and an unchanged file, but for what the put area adds to it, exactly
when it is not a header read. -/
theorem recover_short_read_iff (short : ReadSite → ℕ → Option ℕ)
    (entries : List LogEntry) (rest : Bytes) (site : ReadSite)
    (store : AppendOnlyStore) (nowMs : Int64)
    (hbytes : store.bytes = logFormat.imageAll entries ++ rest)
    (hearlier : ∀ start < logSize entries, ∀ site, short site start = none)
    (hshort : ShortAt (fun site => short site (logSize entries)) rest site) :
    ((∃ status, (store.recover {} { short := short } nowMs).2 =
        .error status) ∧
      (store.recover {} { short := short } nowMs).1.bytes =
        store.bytes ++ store.pending) ↔
      site ≠ .header := by
  constructor
  · rintro ⟨⟨status, hfailed⟩, -⟩ hsite
    subst hsite
    obtain ⟨after, hrecover, -⟩ :=
      recover_short_header hbytes hearlier hshort nowMs
    rw [hrecover] at hfailed
    cases hfailed
  · intro hsite
    obtain ⟨message, hrecover⟩ :=
      recover_short_payload hbytes hearlier hshort hsite nowMs
    rw [hrecover]
    exact ⟨⟨_, rfl⟩, store.bytes_settled⟩

/-- A short key read in a file of one record. -/
theorem recover_short_key_read :
    ((∃ status, ((holding (encodeAll [recordAB])).recover {}
        { short := fun site _ => if site = .key then some 0 else none } 0).2 =
          .error status) ∧
      ((holding (encodeAll [recordAB])).recover {}
        { short := fun site _ => if site = .key then some 0 else none } 0).1.bytes
          = (holding (encodeAll [recordAB])).bytes ++ []) ↔
      ReadSite.key ≠ .header :=
  recover_short_read_iff _ [] (encodeAll [recordAB]) .key _ 0 rfl
    (fun start hstart => absurd hstart (Nat.not_lt_zero start))
    (@ShortAt.key _ _ recordAB.1.parsed 0 rfl
      ⟨makeHeader recordAB.1, by decide +kernel, rfl, by decide +kernel⟩ rfl
      (by decide +kernel))

/-- A short header read at the front of a file with one record empties the
file, and the call succeeds. -/
theorem short_header_read_empties_file :
    ¬ ∀ (short : ReadSite → ℕ → Option ℕ) (entries : List LogEntry)
      (rest : Bytes) (site : ReadSite) (store : AppendOnlyStore)
      (nowMs : Int64),
      store.bytes = logFormat.imageAll entries ++ rest →
      store.pending = [] →
      (∀ start < logSize entries, ∀ site, short site start = none) →
      ShortAt (fun site => short site (logSize entries)) rest site →
      (∃ status, (store.recover {} { short := short } nowMs).2 =
          .error status) ∧
        (store.recover {} { short := short } nowMs).1.bytes =
          store.bytes := by
  intro hclaim
  let short : ReadSite → ℕ → Option ℕ := fun _ _ => some 0
  have hbytes : (holding (encodeAll [recordAB])).bytes =
      logFormat.imageAll [] ++ encodeAll [recordAB] := rfl
  have hearlier : ∀ start < logSize [], ∀ site, short site start = none :=
    fun start hstart => absurd hstart (Nat.not_lt_zero start)
  have hshort : ShortAt (fun site => short site (logSize []))
      (encodeAll [recordAB]) .header :=
    .header (by decide +kernel) rfl (by decide)
  obtain ⟨after, hrecover, -⟩ :=
    recover_short_header hbytes hearlier hshort 0
  obtain ⟨⟨status, hfailed⟩, -⟩ :=
    hclaim short [] _ .header _ 0 hbytes rfl hearlier hshort
  rw [hrecover] at hfailed
  cases hfailed

/-! ## Recoveries that succeed -/

variable {nowMs : Int64}

/-- A read that delivers all it was asked for delivers the bytes of the file. -/
theorem scanRead_of_length {site : ReadSite} {offset length : ℕ}
    (hlength : (scanRead answers file site position offset length).length =
      length) :
    scanRead answers file site position offset length =
      slice file offset length := by
  rw [scanRead] at hlength ⊢
  cases hshort : answers.short site position with
  | none => rfl
  | some count =>
      rw [hshort] at hlength
      dsimp only at hlength ⊢
      have hslice : (slice file offset length).length ≤ length :=
        List.length_take_le _ _
      rw [List.length_take] at hlength
      exact List.take_of_length_le (by omega)

/-- A turn that finds a record finds it without a short read too. -/
theorem scanRecord_of_found {found : ParsedHeader × Bytes × Bytes}
    (hfound : scanRecord answers file position = .ok (some found)) :
    scanRecord {} file position = .ok (some found) := by
  unfold scanRecord at hfound ⊢
  dsimp only at hfound ⊢
  split at hfound
  · cases hfound
  next hremaining =>
    rw [if_neg hremaining]
    split at hfound
    next hsize =>
      have hheader := scanRead_of_length hsize
      have hplain : ∀ site offset length,
          scanRead {} file site position offset length =
            slice file offset length := fun _ _ _ => rfl
      simp only [hheader, hplain] at hfound ⊢
      rw [hheader] at hsize
      rw [dif_pos hsize]
      cases hparse : parseHeader ⟨_, hsize⟩ with
      | error status =>
          rw [hparse] at hfound
          cases hfound
      | ok header =>
          rw [hparse] at hfound
          dsimp only at hfound ⊢
          split at hfound
          · cases hfound
          next hwhole =>
            rw [if_neg hwhole]
            split at hfound
            · cases hfound
            next hkey =>
              rw [not_not] at hkey
              rw [scanRead_of_length hkey] at hfound hkey
              rw [if_neg (not_not.mpr hkey)]
              split at hfound
              · cases hfound
              next hvalue =>
                rw [not_not] at hvalue
                rw [scanRead_of_length hvalue] at hfound hvalue
                rw [if_neg (not_not.mpr hvalue)]
                exact hfound
    · cases hfound

/-- The record that a turn finds stands at the front of the unread bytes. -/
theorem entry_of_found {header : ParsedHeader} {key value : Bytes}
    (hfound : scanRecord answers file position =
      .ok (some (header, key, value))) :
    ∃ (entry : LogEntry) (rest : Bytes),
      file.drop position = entry.image ++ rest ∧
      header = entry.record.parsed ∧ key = entry.record.key := by
  have hfull : RecoverAnswers.FullAt {} position := fun _ => rfl
  have hreports := scanRecord_reports file hfull
  rw [scanRecord_of_found hfound] at hreports
  cases hhead : LogEntry.head (file.drop position) with
  | entry entry =>
      rw [hhead] at hreports
      cases hreports
      obtain ⟨rest, hrest⟩ := logFormat.head_sound hhead
      exact ⟨entry, rest, hrest.symm, rfl, rfl⟩
  | incomplete =>
      rw [hhead] at hreports
      cases hreports
  | malformed =>
      rw [hhead] at hreports
      obtain ⟨message, hmessage⟩ := hreports
      cases hmessage

/-- Whatever reads come short, a scan that succeeds has replayed the records in
front of the place where it stopped. -/
theorem scan_ok {state final : RecoveryState} {stop : ℕ}
    (hscan : scan answers nowMs file position state = .ok (final, stop)) :
    ∃ entries rest, file.drop position = logFormat.imageAll entries ++ rest ∧
      stop = position + logSize entries ∧
      final.index = replayFrom nowMs position entries state.index ∧
      (final.truncatedBytes = state.truncatedBytes ∧ rest = [] ∨
        0 < final.truncatedBytes) := by
  induction hlength : file.length - position using Nat.strong_induction_on
    generalizing position state with
  | _ length ih =>
      rw [scan] at hscan
      split at hscan
      next hposition =>
        split at hscan
        · cases hscan
        · cases hscan
          refine ⟨[], _, rfl, rfl, rfl, Or.inr ?_⟩
          exact Nat.sub_pos_of_lt hposition
        next header key value hfound =>
          obtain ⟨entry, rest, hunread, rfl, rfl⟩ := entry_of_found hfound
          have hsize : kRecordHeaderSize +
              (entry.record.parsed.keySize.toNat +
                entry.record.parsed.valueSize.toNat) = entry.size := by
            simp only [entry.valid.toNat_keySize, entry.valid.toNat_valueSize]
            rfl
          rw [hsize, LogEntry.replayRecord_parsed] at hscan
          have hpositive : 0 < entry.size := by
            rw [← entry.length_image]
            exact logFormat.length_image_pos entry
          obtain ⟨entries, behind, hdrop, hstop, hindex, hend⟩ :=
            ih _ (by omega) hscan rfl
          have hnext : file.drop (position + entry.size) = rest := by
            rw [← List.drop_drop, hunread, ← entry.length_image]
            exact List.drop_left
          refine ⟨entry :: entries, behind, ?_, ?_, hindex, hend⟩
          · rw [hunread, ← hnext, hdrop, FrameFormat.imageAll_cons,
              List.append_assoc]
            rfl
          · rw [hstop, logSize_cons, Nat.add_assoc]
      next hposition =>
        cases hscan
        refine ⟨[], [], ?_, rfl, rfl, Or.inl ⟨rfl, rfl⟩⟩
        rw [List.drop_eq_nil_of_le (Nat.not_lt.mp hposition)]
        rfl

variable {after : AppendOnlyStore} {openAnswers : OpenAnswers}
variable {state : RecoveryState}

/-- Whatever fails, a recovery that succeeds leaves a whole log in the file,
with what the put area adds to it, and returns its replay. -/
theorem whole_of_recover
    (hrecover : store.recover openAnswers answers nowMs = (after, .ok state)) :
    ∃ entries rest, after.bytes = logFormat.imageAll entries ++ rest ∧
      (rest = [] ∨ store.bytes = logFormat.imageAll entries ∧
        rest = drained answers.drain store.pending) ∧
      (after.pending = [] ∨ after.pending = store.pending) ∧
      state.index = replay nowMs entries := by
  rw [recover] at hrecover
  dsimp only at hrecover
  split at hrecover
  next hopens =>
    split at hrecover
    · cases hrecover
    · split at hrecover
      · cases hrecover
      next final stop hscan =>
        obtain ⟨entries, rest, hfile, hstop, hindex, hend⟩ := scan_ok hscan
        rw [List.drop_zero, bytes_ensureOpenLocked] at hfile
        rw [Nat.zero_add] at hstop
        split at hrecover
        next htruncated =>
          split at hrecover
          · cases hrecover
          · split at hrecover
            · cases hrecover
              have hcut : store.bytes.take stop = logFormat.imageAll entries := by
                rw [hfile, hstop, ← length_imageAll, List.take_left]
              have hinside : stop ≤ store.bytes.length := by
                rw [hfile, hstop, ← length_imageAll, List.length_append]
                exact Nat.le_add_right _ _
              refine ⟨entries, [], ?_, Or.inl rfl, Or.inl ?_, hindex⟩
              · rw [bytes_reopenLocked, bytes_withBytes, pending_withBytes,
                  bytes_closeFile, bytes_drain, bytes_ensureOpenLocked,
                  List.append_assoc, List.take_append_of_le_length hinside,
                  hcut]
                rfl
              · exact pending_reopenLocked _ _
            · cases hrecover
        next htruncated =>
          cases hrecover
          rcases hend with ⟨-, rfl⟩ | hpositive
          · rw [List.append_nil] at hfile
            refine ⟨entries, drained answers.drain store.pending, ?_,
              Or.inr ⟨hfile, rfl⟩, ?_, hindex⟩
            · rw [bytes_drain, bytes_ensureOpenLocked,
                pending_ensureOpenLocked, hfile]
            · rw [pending_drain, pending_ensureOpenLocked]
              exact ite_eq_or_eq _ _ _
          · exact absurd hpositive htruncated
  · cases hrecover

end AppendOnlyStore

end MiniKV
