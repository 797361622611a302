import MiniKV.Recovery.Faults

/-!
# What a corruption message tells

Recovery turns a damaged file away with a message that names a byte.  That byte
is where the good records end: a file cut there is recovered whole, and no
longer cut recovers more.
-/

namespace MiniKV

/-- The messages for what stands at a position: why its header does not parse,
or, for a header that parses and announces a record that is there, that the
record does not have the checksum in its header. -/
inductive DamageMessage (position : ℕ) (rest : Bytes) : String → Prop
  | header (header : Header) (reason : Status)
      (hbytes : header.bytes = rest.take kRecordHeaderSize)
      (hparse : parseHeader header = .error reason) :
      DamageMessage position rest
        ("at byte " ++ toString position ++ ": " ++ reason.message)
  | checksum (parsed : ParsedHeader) (haccepted : HeaderAccepted rest parsed)
      (hmismatch : recordChecksum parsed.operation parsed.expiresAtMs
        (slice rest kRecordHeaderSize parsed.keySize.toNat)
        (slice rest (kRecordHeaderSize + parsed.keySize.toNat)
          parsed.valueSize.toNat) ≠ parsed.checksum) :
      DamageMessage position rest
        ("checksum mismatch at byte " ++ toString position)

namespace AppendOnlyStore

variable {nowMs : Int64} {file : Bytes} {position : ℕ} {status : Status}

/-- A turn of the loop that ends in a corruption says where and why. -/
theorem message_scanRecord
    (hrecord : scanRecord {} file position = .error status)
    (hcode : status.code = .corruption) :
    DamageMessage position (file.drop position) status.message := by
  have hfull : RecoverAnswers.FullAt {} position := fun _ => rfl
  unfold scanRecord at hrecord
  dsimp only at hrecord
  split at hrecord
  · cases hrecord
  split at hrecord
  next hsize =>
    have hheader : scanRead {} file .header position position
        kRecordHeaderSize = slice file position kRecordHeaderSize :=
      scanRead_of_full hfull .header position kRecordHeaderSize
    split at hrecord
    next reason hparse =>
      cases hrecord
      exact .header _ reason hheader hparse
    next parsed hparse =>
      split at hrecord
      · cases hrecord
      next hwhole =>
        split at hrecord
        · cases hrecord
          cases hcode
        split at hrecord
        · cases hrecord
          cases hcode
        split at hrecord
        next hmismatch =>
          cases hrecord
          have haccepted : HeaderAccepted (file.drop position) parsed := by
            refine ⟨_, hheader, hparse, ?_⟩
            rw [List.length_drop]
            exact Nat.not_lt.mp hwhole
          rw [scanRead_of_full hfull, scanRead_of_full hfull, Nat.add_assoc,
            ← slice_drop, ← slice_drop] at hmismatch
          exact .checksum parsed haccepted hmismatch
        · cases hrecord
  · cases hrecord

/-- The status with which the scan of a damaged file ends. -/
theorem scan_damaged (nowMs : Int64) (entries : List LogEntry) {rest : Bytes}
    (hhead : LogEntry.head rest = .malformed) :
    ∃ message, DamageMessage (logSize entries) rest message ∧
      scan {} nowMs (logFormat.imageAll entries ++ rest) 0 ⟨.empty, 0, 0⟩ =
        .error (.corruption message) := by
  have hfull : ∀ start, RecoverAnswers.FullAt {} start := fun _ _ => rfl
  have hrest : rest ≠ [] := by
    intro hnil
    rw [hnil, LogEntry.head_of_short (by simp [kRecordHeaderSize])] at hhead
    cases hhead
  have hreports := scanRecord_reports (logFormat.imageAll entries ++ rest)
    (hfull (logSize entries))
  rw [drop_imageAll, hhead] at hreports
  obtain ⟨message, hmessage⟩ := hreports
  have hdamage := message_scanRecord hmessage rfl
  rw [drop_imageAll] at hdamage
  exact ⟨message, hdamage,
    scan_stops_error nowMs (fun start _ => hfull start) hrest hmessage⟩

/-- A process that starts over the first bytes of the file. -/
def cutTo (store : AppendOnlyStore) (room : ℕ) : AppendOnlyStore :=
  { store with data := some (store.bytes.take room), stream := none }

@[simp]
theorem bytes_cutTo (store : AppendOnlyStore) (room : ℕ) :
    (store.cutTo room).bytes = store.bytes.take room := rfl

@[simp]
theorem pending_cutTo (store : AppendOnlyStore) (room : ℕ) :
    (store.cutTo room).pending = [] := rfl

/-- For every file that recovery turns away without an I/O failure: the message
names the byte at which the good records end.  The file cut there is recovered
whole, and a longer cut that is recovered yields the same records. -/
theorem corruption_names_first_bad_byte {store after : AppendOnlyStore}
    (hrecover : store.recover {} {} nowMs = (after, .error status)) :
    ∃ entries rest, store.bytes = logFormat.imageAll entries ++ rest ∧
      status.code = .corruption ∧
      DamageMessage (logSize entries) rest status.message ∧
      (∀ laterMs, (store.cutTo (logSize entries)).recover {} {} laterMs =
        ((store.cutTo (logSize entries)).opened,
          .ok ⟨replay laterMs entries, entries.length, 0⟩)) ∧
      ∀ room, logSize entries ≤ room → ∀ laterMs cut state,
        (store.cutTo room).recover {} {} laterMs = (cut, .ok state) →
        state.index = replay laterMs entries ∧
          state.validRecords = entries.length ∧
          cut.bytes = logFormat.imageAll entries := by
  rcases logWithTail_or_malformed store.bytes with
    ⟨entries, tail, hlog⟩ | ⟨entries, rest, hfile, hmalformed⟩
  · rw [recover_of_logWithTail hlog] at hrecover
    cases hrecover
  obtain ⟨message, hdamage, hscan⟩ := scan_damaged nowMs entries hmalformed
  rw [← hfile] at hscan
  rw [recover_of_scan_error rfl rfl hscan] at hrecover
  cases hrecover
  refine ⟨entries, rest, hfile, rfl, hdamage, fun laterMs => ?_, ?_⟩
  · have hbytes : (store.cutTo (logSize entries)).bytes =
        logFormat.imageAll entries := by
      rw [bytes_cutTo, hfile, ← length_imageAll, List.take_left]
    have hwhole : LogWithTail entries []
        (store.cutTo (logSize entries)).bytes :=
      ⟨hbytes.trans (List.append_nil _).symm, unfinishedTail_nil⟩
    rw [recover_of_logWithTail hwhole laterMs, recovered, if_pos rfl,
      settled_of_pending (store.pending_cutTo _)]
    rfl
  · intro room hroom laterMs cut state hcut
    obtain ⟨others, tail, hlog, rfl, rfl⟩ := logWithTail_of_recover hcut
    have hbytes : (store.cutTo room).bytes =
        logFormat.imageAll entries ++
          rest.take (room - logSize entries) := by
      rw [bytes_cutTo, hfile, List.take_append,
        List.take_of_length_le (by rwa [length_imageAll]), length_imageAll]
    have hend : logFormat.AtEnd rest := by
      intro entry hhead
      cases hhead.symm.trans hmalformed
    obtain ⟨rfl, -⟩ := logFormat.split_unique (hbytes.symm.trans hlog.1)
      (FrameFormat.AtEnd.of_prefix logFormat hend (List.take_prefix _ _))
      hlog.2.atEnd
    exact ⟨rfl, rfl,
      bytes_recovered_of_pending _ hlog.1 (store.pending_cutTo room)⟩

/-- One record and then zeros, which are no header. -/
theorem corruption_names_first_bad_byte_before_zeros :
    let entry : LogEntry := ⟨⟨.set, [97], [98], 0⟩, 0, by decide⟩
    let store : AppendOnlyStore :=
      ⟨"data.log", some (entry.image ++ List.replicate 64 0), none, none⟩
    ∃ after status, store.recover {} {} 0 = (after, .error status) ∧
      ∃ entries rest, store.bytes = logFormat.imageAll entries ++ rest ∧
        status.code = .corruption ∧
        DamageMessage (logSize entries) rest status.message := by
  intro entry store
  have hfails : (store.recover {} {} 0).2.isOk = false := by decide +kernel
  rcases hrecover : store.recover {} {} 0 with ⟨after, status | state⟩
  · obtain ⟨entries, rest, hfile, hcode, hdamage, -⟩ :=
      corruption_names_first_bad_byte hrecover
    exact ⟨after, status, rfl, entries, rest, hfile, hcode, hdamage⟩
  · rw [hrecover] at hfails
    cases hfails

end AppendOnlyStore

end MiniKV
