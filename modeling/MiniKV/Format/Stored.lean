import MiniKV.Concrete.Opening
import MiniKV.Format.Replay

/-!
# Records in the data file

An index entry is only as good as the bytes it points to.  `StoredAt` says that
the image of a record stands at an offset of the file.  Appends preserve it,
however much of their own record they leave behind, and it is all that
`readValue` needs.
-/

namespace MiniKV

/-- The image of `entry` stands at `offset`. -/
def StoredAt (file : Bytes) (offset : ℕ) (entry : LogEntry) : Prop :=
  entry.image <+: file.drop offset

namespace StoredAt

variable {file : Bytes} {offset : ℕ} {entry : LogEntry}

theorem end_le (hstored : StoredAt file offset entry) :
    offset + entry.size ≤ file.length := by
  have hlength := hstored.length_le
  have hpos : 0 < entry.image.length := logFormat.length_image_pos entry
  rw [List.length_drop, entry.length_image] at hlength
  rw [entry.length_image] at hpos
  omega

/-- Appending to the file does not move the records that are in it. -/
theorem append (hstored : StoredAt file offset entry) (rest : Bytes) :
    StoredAt (file ++ rest) offset entry := by
  have hend := hstored.end_le
  rw [StoredAt, List.drop_append_of_le_length (by omega)]
  exact hstored.trans (List.prefix_append _ _)

theorem head_eq (hstored : StoredAt file offset entry) :
    LogEntry.head (file.drop offset) = .entry entry := by
  obtain ⟨rest, hrest⟩ := hstored
  rw [← hrest]
  exact entry.head_image rest

/-- One offset holds one record. -/
theorem unique (hstored : StoredAt file offset entry) {other : LogEntry}
    (hother : StoredAt file offset other) : entry = other := by
  have heq := hstored.head_eq.symm.trans hother.head_eq
  cases heq
  rfl

theorem slice_value (hstored : StoredAt file offset entry) :
    slice file (entry.metadata offset).valueOffset
      (entry.metadata offset).valueSize.toNat = entry.record.value := by
  obtain ⟨rest, hrest⟩ := hstored
  have hsize := entry.toNat_valueSize offset
  have hvalue := entry.slice_value rest
  rw [hrest, slice, List.drop_drop] at hvalue
  rw [hsize, slice, LogEntry.metadata, Nat.add_assoc]
  exact hvalue

/-- The value range of an index entry lies inside the file. -/
theorem value_end_le (hstored : StoredAt file offset entry) :
    (entry.metadata offset).valueOffset +
      (entry.metadata offset).valueSize.toNat ≤ file.length := by
  have hend := hstored.end_le
  rw [LogEntry.size] at hend
  rw [entry.toNat_valueSize offset]
  change offset + kRecordHeaderSize + entry.record.key.length + _ ≤ _
  omega

end StoredAt

/-- Every record of a log stands where the records before it end. -/
theorem storedAt_of_split (earlier later : List LogEntry) (entry : LogEntry)
    (tail : Bytes) :
    StoredAt (logFormat.imageAll (earlier ++ entry :: later) ++ tail)
      (logSize earlier) entry := by
  rw [StoredAt, FrameFormat.imageAll_append, List.append_assoc,
    ← length_imageAll, List.drop_left, FrameFormat.imageAll_cons,
    List.append_assoc]
  exact List.prefix_append _ _

namespace AppendOnlyStore

variable {store : AppendOnlyStore} {offset : ℕ} {entry : LogEntry}

/-! ## Seeking -/

/-- The store behind the seek of a read or of an append. -/
def sought (openAnswers : OpenAnswers) (fault : Option ℕ)
    (store : AppendOnlyStore) : AppendOnlyStore :=
  let opened := store.ensureOpenLocked openAnswers
  if opened.2.ok then (opened.1.drain fault).1 else opened.1

/-- The store behind a seek that works. -/
def settled (store : AppendOnlyStore) : AppendOnlyStore :=
  (store.opened.drain none).1

@[simp]
theorem bytes_settled (store : AppendOnlyStore) :
    store.settled.bytes = store.bytes ++ store.pending := by
  rw [settled, bytes_drain, bytes_opened, pending_opened, drained_none]

@[simp]
theorem pending_settled (store : AppendOnlyStore) :
    store.settled.pending = [] := by
  rw [settled, pending_drain, if_pos rfl]

theorem settled_of_pending (hpending : store.pending = []) :
    store.settled = store.opened := by
  rw [settled, drain_of_pending _ (store.pending_opened.trans hpending)]

theorem sought_faultless (store : AppendOnlyStore) :
    store.sought {} none = store.settled := by
  rw [sought, ensureOpenLocked_faultless, settled]
  rfl

/-- A seek writes nothing, or what its fault lets through. -/
theorem sought_cases (openAnswers : OpenAnswers) (fault : Option ℕ)
    (store : AppendOnlyStore) :
    (store.sought openAnswers fault).bytes = store.bytes ∧
        (store.sought openAnswers fault).pending = store.pending ∨
      (store.sought openAnswers fault).bytes =
          store.bytes ++ drained fault store.pending ∧
        (store.sought openAnswers fault).pending =
          if fault = none then [] else store.pending := by
  unfold sought
  dsimp only
  split
  · right
    simp
  · left
    simp

/-- A seek that works writes the put area. -/
theorem sought_of_drains {openAnswers : OpenAnswers} {fault : Option ℕ}
    (hopens : (store.ensureOpenLocked openAnswers).2.ok = true)
    (hdrain : store.pending = [] ∨ fault = none) :
    (store.sought openAnswers fault).bytes = store.bytes ++ store.pending ∧
      (store.sought openAnswers fault).pending = [] := by
  rw [sought, if_pos hopens, bytes_drain, pending_drain, bytes_ensureOpenLocked,
    pending_ensureOpenLocked]
  rcases hdrain with hpending | rfl
  · rw [hpending, drained_nil, ite_self]
    exact ⟨rfl, rfl⟩
  · exact ⟨rfl, rfl⟩

/-! ## Reading a value -/

theorem readValue_stored (hstored : StoredAt store.bytes offset entry) :
    store.readValue {} {} (entry.metadata offset) =
      (store.settled, .ok entry.record.value) := by
  have hsize := (entry.toNat_valueSize offset).symm
  have hsettled : StoredAt (store.opened.drain none).1.bytes offset entry := by
    rw [bytes_drain, bytes_opened]
    exact hstored.append _
  have hdrain : (store.opened.drain none).2 = true :=
    (store.opened.snd_drain_iff none).mpr (Or.inr rfl)
  simp only [readValue, ensureOpenLocked_faultless, Status.ok_success, if_true,
    hdrain, Bool.and_self, hsettled.slice_value]
  rw [if_neg (not_not.mpr hsize)]
  rfl

theorem fst_readValue (openAnswers : OpenAnswers) (answers : ReadAnswers)
    (metadata : RecordMetadata) (store : AppendOnlyStore) :
    (store.readValue openAnswers answers metadata).1 =
      store.sought openAnswers answers.drain := by
  unfold readValue sought
  dsimp only
  repeat' split
  all_goals rfl

/-- What a read returns, behind its seek. -/
theorem snd_readValue (openAnswers : OpenAnswers) (answers : ReadAnswers)
    (metadata : RecordMetadata) (store : AppendOnlyStore) :
    (store.readValue openAnswers answers metadata).2 =
      if (store.ensureOpenLocked openAnswers).2.ok then
        if (decide (store.pending = []) || answers.drain.isNone) &&
            answers.seek then
          let stored := slice
            (store.bytes ++ drained answers.drain store.pending)
            metadata.valueOffset metadata.valueSize.toNat
          let value := match answers.short with
            | none => stored
            | some count => stored.take count
          if value.length ≠ metadata.valueSize.toNat then
            .error (.corruption "value extends beyond the data file")
          else
            .ok value
        else
          .error (.ioError "failed to seek to value")
      else
        .error (store.ensureOpenLocked openAnswers).2 := by
  have hsought := (store.ensureOpenLocked openAnswers).1.snd_drain
    answers.drain
  rw [pending_ensureOpenLocked] at hsought
  rw [readValue]
  dsimp only
  rw [hsought, bytes_drain, bytes_ensureOpenLocked, pending_ensureOpenLocked]
  split
  · split
    · exact apply_ite Prod.snd _ _ _
    · rfl
  · rfl

/-- A stream that has sought opens as it did before. -/
theorem ensureOpenLocked_sought (openAnswers : OpenAnswers)
    (fault : Option ℕ) (store : AppendOnlyStore) :
    ((store.sought openAnswers fault).ensureOpenLocked openAnswers).2 =
      (store.ensureOpenLocked openAnswers).2 := by
  rw [sought]
  split
  · rw [ensureOpenLocked_drain, ensureOpenLocked_idem]
  · rw [ensureOpenLocked_idem]

/-- A read that succeeds returns the bytes of the file. -/
theorem eq_of_readValue_ok {openAnswers : OpenAnswers} {answers : ReadAnswers}
    {metadata : RecordMetadata} {value : Bytes}
    (hread : (store.readValue openAnswers answers metadata).2 = .ok value) :
    value = slice (store.readValue openAnswers answers metadata).1.bytes
      metadata.valueOffset metadata.valueSize.toNat := by
  rw [fst_readValue, sought]
  unfold readValue at hread
  dsimp only at hread ⊢
  split at hread
  next hopened =>
    rw [if_pos hopened]
    split at hread
    · cases hshort : answers.short with
      | none =>
          simp only [hshort] at hread
          split at hread
          · cases hread
          · cases hread
            rfl
      | some count =>
          simp only [hshort] at hread
          split at hread
          · cases hread
          next hlength =>
            cases hread
            rw [not_not, List.length_take] at hlength
            apply List.take_of_length_le
            rw [slice, List.length_take] at hlength ⊢
            omega
    · cases hread
  · cases hread

/-! ## Appending a record -/

theorem writeRecord_of_valid {record : Record} (hvalid : record.Valid)
    (fault : Option Torn) (output : Bytes) (recordOffset : ℕ) :
    writeRecord fault output record recordOffset =
      match fault with
      | some torn =>
          (⟨output ++ torn.written (recordBytes record),
              torn.kept (recordBytes record)⟩,
            .error (.ioError "failed to write append-only record"))
      | none =>
          (⟨output ++ recordBytes record, []⟩,
            .ok ((LogEntry.ofRecord record hvalid).metadata recordOffset)) := by
  have hkey : ¬ (record.key = [] ∨ record.key.length > kMaximumKeySize) :=
    not_or.mpr ⟨hvalid.key_ne_nil, Nat.not_lt.mpr hvalid.key_size⟩
  unfold writeRecord
  rw [if_neg hkey, if_neg (Nat.not_lt.mpr hvalid.value_size),
    if_neg (fun h => h.2 (hvalid.delete_value h.1))]
  rfl

/-- `writeRecord` turns an invalid record away before it writes a byte. -/
theorem writeRecord_of_not_valid {record : Record} (hinvalid : ¬ record.Valid)
    (fault : Option Torn) (output : Bytes) (recordOffset : ℕ) :
    ∃ message, writeRecord fault output record recordOffset =
      (⟨output, []⟩, .error (.invalidArgument message)) := by
  unfold writeRecord
  split
  · exact ⟨_, rfl⟩
  next hkey =>
  split
  · exact ⟨_, rfl⟩
  next hvalue =>
  split
  · exact ⟨_, rfl⟩
  next hdelete =>
  rw [not_or] at hkey
  exact absurd ⟨hkey.1, Nat.not_lt.mp hkey.2, Nat.not_lt.mp hvalue,
    fun h => not_not.mp fun hne => hdelete ⟨h, hne⟩⟩ hinvalid

/-- What an append makes of the file and the put area.  It stops in its seek,
it leaves a part of its record in either of them, or it leaves the whole record
in the file. -/
inductive Appended (openAnswers : OpenAnswers) (answers : AppendAnswers)
    (record : Record) (bytes pending : Bytes) :
    Bytes → Bytes → Result RecordMetadata → Prop
  | unsought (rest : Bytes) (status : Status)
      (hrest : rest = [] ∨ ∃ count, answers.drain = some count ∧
        rest = pending.take count)
      (hstatus : status.ok = false) (hfails : openAnswers.Fails status) :
      Appended openAnswers answers record bytes pending (bytes ++ rest) pending
        (.error status)
  | torn (torn : Torn) (status : Status)
      (htorn : torn = ⟨0, 0⟩ ∧ ¬ record.Valid ∨ answers.fault = some torn)
      (hstatus : status.ok = false)
      (hcode : record.Valid → status.code = .ioError)
      (hdrain : pending = [] ∨ answers.drain = none) :
      Appended openAnswers answers record bytes pending
        (bytes ++ pending ++ torn.written (recordBytes record))
        (torn.kept (recordBytes record)) (.error status)
  | written (hvalid : record.Valid) (hfault : answers.fault = none)
      (hdrain : pending = [] ∨ answers.drain = none) :
      Appended openAnswers answers record bytes pending
        (bytes ++ pending ++ recordBytes record) []
        (.ok ((LogEntry.ofRecord record hvalid).metadata
          (bytes ++ pending).length))

/-- An append that has got past its seek and leaves nothing of its record. -/
theorem Appended.nothing {openAnswers : OpenAnswers} {answers : AppendAnswers}
    {record : Record} {bytes pending : Bytes} {status : Status}
    (hstatus : status.ok = false)
    (hcode : record.Valid → status.code = .ioError)
    (hdrain : pending = [] ∨ answers.drain = none)
    (hcause : ¬ record.Valid ∨ answers.fault = some ⟨0, 0⟩) :
    Appended openAnswers answers record bytes pending (bytes ++ pending) []
      (.error status) := by
  have htorn : Appended openAnswers answers record bytes pending
      (bytes ++ pending ++ (Torn.mk 0 0).written (recordBytes record))
      ((Torn.mk 0 0).kept (recordBytes record)) (.error status) :=
    .torn ⟨0, 0⟩ status (hcause.imp_left fun hinvalid => ⟨rfl, hinvalid⟩)
      hstatus hcode hdrain
  rwa [Torn.written, Torn.kept, List.take_zero, List.append_nil] at htorn

theorem appendRecordLocked_cases (openAnswers : OpenAnswers)
    (answers : AppendAnswers) (record : Record) (store : AppendOnlyStore) :
    Appended openAnswers answers record store.bytes store.pending
      (store.appendRecordLocked openAnswers answers record).1.bytes
      (store.appendRecordLocked openAnswers answers record).1.pending
      (store.appendRecordLocked openAnswers answers record).2 := by
  have hsought := (store.ensureOpenLocked openAnswers).1.snd_drain_iff
    answers.drain
  rw [pending_ensureOpenLocked] at hsought
  unfold appendRecordLocked
  dsimp only
  split
  case isFalse hfailed =>
    have hunopened : Appended openAnswers answers record store.bytes
        store.pending (store.bytes ++ []) store.pending
        (.error (store.ensureOpenLocked openAnswers).2) :=
      .unsought [] _ (Or.inl rfl) (Bool.not_eq_true _ ▸ hfailed)
        (store.fails_ensureOpenLocked hfailed)
    simpa using hunopened
  next hopened =>
  by_cases hdrain : store.pending = [] ∨ answers.drain = none
  · rw [hsought.mpr hdrain, Bool.true_and]
    have hbytes : ((store.ensureOpenLocked openAnswers).1.drain
        answers.drain).1.bytes = store.bytes ++ store.pending := by
      rw [bytes_drain, bytes_ensureOpenLocked, pending_ensureOpenLocked]
      rcases hdrain with hpending | hnone
      · rw [hpending, drained_nil]
      · rw [hnone, drained_none]
    have hpending : ((store.ensureOpenLocked openAnswers).1.drain
        answers.drain).1.pending = [] := by
      rw [pending_drain, pending_ensureOpenLocked]
      rcases hdrain with hpending | hnone
      · rw [hpending, ite_self]
      · rw [if_pos hnone]
    split
    case isFalse hseek =>
      dsimp only
      rw [hbytes, hpending]
      exact .nothing rfl (fun _ => rfl) hdrain
        (Or.inr (if_neg hseek))
    next hseek =>
      rw [hbytes]
      by_cases hvalid : record.Valid
      · rw [writeRecord_of_valid hvalid]
        cases hwrite : answers.write with
        | some torn =>
            have hfault : answers.fault = some torn := by
              rw [AppendAnswers.fault, if_pos hseek, hwrite, Option.some_or]
            exact .torn torn _ (Or.inr hfault) rfl (fun _ => rfl) hdrain
        | none =>
            have hfault : answers.fault = answers.flush := by
              rw [AppendAnswers.fault, if_pos hseek, hwrite, Option.none_or]
            cases hflush : answers.flush with
            | some torn =>
                exact .torn torn _ (Or.inr (hfault.trans hflush)) rfl
                  (fun _ => rfl) hdrain
            | none =>
                dsimp only
                rw [pending_withBytes, hpending]
                exact .written hvalid (hfault.trans hflush) hdrain
      · obtain ⟨message, hmessage⟩ := writeRecord_of_not_valid hvalid
          answers.write (store.bytes ++ store.pending)
          (store.bytes ++ store.pending).length
        rw [hmessage]
        exact .nothing rfl (fun hrecord => absurd hrecord hvalid) hdrain
          (Or.inl hvalid)
  · have hunsought : ((store.ensureOpenLocked openAnswers).1.drain
        answers.drain).2 = false :=
      Bool.eq_false_iff.mpr fun hok => hdrain (hsought.mp hok)
    rw [hunsought, Bool.false_and, if_neg Bool.false_ne_true]
    rw [not_or] at hdrain
    obtain ⟨count, hcount⟩ := Option.ne_none_iff_exists'.mp hdrain.2
    dsimp only
    rw [bytes_drain, pending_drain, if_neg hdrain.2, bytes_ensureOpenLocked,
      pending_ensureOpenLocked, hcount]
    exact .unsought _ _ (Or.inr ⟨count, hcount, rfl⟩) rfl (Or.inl rfl)

/-- `appendDelete` forgets the metadata of its record. -/
theorem appendDelete_cases (openAnswers : OpenAnswers)
    (answers : AppendAnswers) (key : Bytes) (store : AppendOnlyStore) :
    ∃ result, Appended openAnswers answers ⟨.delete, key, [], 0⟩ store.bytes
        store.pending (store.appendDelete openAnswers answers key).1.bytes
        (store.appendDelete openAnswers answers key).1.pending result ∧
      (store.appendDelete openAnswers answers key).2 =
        match result with
        | .ok _ => .success
        | .error status => status := by
  have happended := appendRecordLocked_cases openAnswers answers
    ⟨.delete, key, [], 0⟩ store
  unfold appendDelete
  rcases hresult : store.appendRecordLocked openAnswers answers
    ⟨.delete, key, [], 0⟩ with ⟨after, result⟩
  rw [hresult] at happended
  refine ⟨result, ?_⟩
  cases result with
  | ok metadata => exact ⟨happended, rfl⟩
  | error status => exact ⟨happended, rfl⟩

theorem appendRecordLocked_faultless {record : Record}
    (hvalid : record.Valid) (store : AppendOnlyStore) :
    store.appendRecordLocked {} {} record =
      (store.settled.withBytes
          (store.bytes ++ store.pending ++ recordBytes record),
        .ok ((LogEntry.ofRecord record hvalid).metadata
          (store.bytes ++ store.pending).length)) := by
  have hdrain : (store.opened.drain none).2 = true :=
    (store.opened.snd_drain_iff none).mpr (Or.inr rfl)
  rw [appendRecordLocked, ensureOpenLocked_faultless]
  dsimp only
  rw [if_pos Status.ok_success, hdrain, Bool.and_self, if_pos rfl,
    writeRecord_of_valid hvalid]
  change (store.settled.withBytes (store.settled.bytes ++ _),
    Except.ok ((LogEntry.ofRecord record hvalid).metadata
      store.settled.bytes.length)) = _
  rw [bytes_settled]

end AppendOnlyStore

end MiniKV
