import MiniKV.Recovery.Language

/-!
# Crash atomicity of an append

A crash leaves some leading bytes of the log.  Recovery then keeps the longest
run of whole records and cuts the rest off, so the next append continues the
log at a record boundary.
-/

namespace MiniKV

/-- The records that `writeRecord` accepts. -/
abbrev ValidRecord := { record : Record // record.Valid }

/-- The concatenated encoding of a list of records. -/
def encodeAll (records : List ValidRecord) : Bytes :=
  records.flatMap fun record => AppendOnlyStore.recordBytes record.1

/-- The log entries of a list of records. -/
def entriesOf (records : List ValidRecord) : List LogEntry :=
  records.map fun record => .ofRecord record.1 record.2

/-- `leading` is the longest run of leading records that fits into `room`
bytes. -/
def LongestFitting (records leading : List ValidRecord) (room : ℕ) : Prop :=
  (encodeAll leading).length ≤ room ∧
    ∃ following, records = leading ++ following ∧
      ∀ next more, following = next :: more →
        room < (encodeAll (leading ++ [next])).length

theorem imageAll_entriesOf (records : List ValidRecord) :
    logFormat.imageAll (entriesOf records) = encodeAll records := by
  induction records with
  | nil => rfl
  | cons record records ih =>
      have himage := LogEntry.image_ofRecord record.1 record.2
      calc
        logFormat.imageAll (entriesOf (record :: records)) =
            (LogEntry.ofRecord record.1 record.2).image ++
              logFormat.imageAll (entriesOf records) :=
          logFormat.imageAll_cons _ _
        _ = encodeAll (record :: records) := by
          rw [himage, ih, encodeAll, encodeAll, List.flatMap_cons]

theorem entriesOf_concat (records : List ValidRecord) (record : ValidRecord) :
    entriesOf (records ++ [record]) =
      entriesOf records ++ [.ofRecord record.1 record.2] :=
  List.map_append

/-- A cut through the encoding leaves the records that fit and an unfinished
tail. -/
theorem take_encodeAll (records : List ValidRecord) (room : ℕ) :
    ∃ leading tail, LongestFitting records leading
        (min room (encodeAll records).length) ∧
      LogWithTail (entriesOf leading) tail ((encodeAll records).take room) := by
  obtain ⟨leadingEntries, followingEntries, tail, hsplit, htake, htail,
    hnext⟩ := logFormat.take_imageAll (entriesOf records) room
  obtain ⟨leading, following, rfl, hleading, hfollowing⟩ :=
    List.map_eq_append_iff.mp hsplit
  change entriesOf leading = leadingEntries at hleading
  subst hleading
  rw [imageAll_entriesOf] at htake
  refine ⟨leading, tail, ⟨?_, following, rfl, ?_⟩, htake,
    (head_eq_incomplete_iff tail).mp htail⟩
  · have hlength := congrArg List.length htake
    rw [List.length_take, List.length_append, imageAll_entriesOf] at hlength
    omega
  · intro next more hmore
    have hroom := hnext _ _ (by rw [← hfollowing, hmore]; exact List.map_cons)
    rw [← entriesOf_concat, imageAll_entriesOf] at hroom
    exact lt_of_le_of_lt (min_le_left _ _) hroom

namespace AppendOnlyStore

/-- A record appended to a whole log is its next record. -/
theorem recover_append {store : AppendOnlyStore} {entries : List LogEntry}
    (hbytes : store.bytes = logFormat.imageAll entries)
    (hpending : store.pending = []) {record : Record} (hvalid : record.Valid) (nowMs : Int64) :
    ∃ metadata after,
      (store.appendRecordLocked {} {} record).2 = .ok metadata ∧
      (store.appendRecordLocked {} {} record).1.recover {} {} nowMs =
        (after, .ok ⟨replay nowMs (entries ++ [.ofRecord record hvalid]),
          entries.length + 1, 0⟩) := by
  rw [appendRecordLocked_faultless hvalid, hpending, List.append_nil]
  have happended : LogWithTail (entries ++ [.ofRecord record hvalid]) []
      (store.settled.withBytes (store.bytes ++ recordBytes record)).bytes := by
    refine ⟨?_, unfinishedTail_nil⟩
    rw [bytes_withBytes, List.append_nil, imageAll_concat_ofRecord, hbytes]
  have hrecover := recover_of_logWithTail happended nowMs
  rw [List.length_append] at hrecover
  exact ⟨_, _, rfl, hrecover⟩

/-- Recovery behind a crash that left the first `room` bytes of a log, and
the append that follows it. -/
theorem recover_after_crash (records : List ValidRecord) (room : ℕ)
    (hroom : room ≤ (encodeAll records).length) (store : AppendOnlyStore)
    (hcrash : store.bytes = (encodeAll records).take room)
    (hpending : store.pending = []) (nowMs : Int64) :
    ∃ leading, LongestFitting records leading room ∧
      ∃ after, store.recover {} {} nowMs =
          (after, .ok ⟨replay nowMs (entriesOf leading), leading.length,
            room - (encodeAll leading).length⟩) ∧
        after.bytes = encodeAll leading ∧
        ((encodeAll leading).length = room → after = store.opened) ∧
        ∀ (next : ValidRecord) (laterMs : Int64), ∃ metadata final,
          (after.appendRecordLocked {} {} next.1).2 = .ok metadata ∧
          (after.appendRecordLocked {} {} next.1).1.recover {} {} laterMs =
            (final, .ok ⟨replay laterMs (entriesOf (leading ++ [next])),
              leading.length + 1, 0⟩) := by
  obtain ⟨leading, tail, hlongest, hlog⟩ := take_encodeAll records room
  rw [min_eq_left hroom] at hlongest
  rw [← hcrash] at hlog
  have hbytes := store.bytes_recovered_of_pending hlog.1 hpending
  have hlength : tail.length = room - (encodeAll leading).length := by
    have hcut := congrArg List.length (hcrash.symm.trans hlog.1)
    rw [List.length_take, min_eq_left hroom, List.length_append,
      imageAll_entriesOf] at hcut
    omega
  have hcount : (entriesOf leading).length = leading.length :=
    List.length_map _
  refine ⟨leading, hlongest, store.recovered (entriesOf leading) tail, ?_, ?_,
    ?_, ?_⟩
  · rw [recover_of_logWithTail hlog, hcount, hlength]
  · rw [hbytes, imageAll_entriesOf]
  · intro hboundary
    have hnil : tail = [] := by
      rw [hboundary, Nat.sub_self] at hlength
      exact List.length_eq_zero_iff.mp hlength
    rw [recovered, if_pos hnil, settled_of_pending hpending]
  · intro next laterMs
    have happend := recover_append hbytes
      (store.pending_recovered _ _) next.2 laterMs
    rwa [hcount, ← entriesOf_concat] at happend

/-- The record `set a b` without expiry. -/
def recordAB : ValidRecord := ⟨⟨.set, [97], [98], 0⟩, by decide⟩

/-- A disk that holds these bytes at the data path. -/
def holding (data : Bytes) : AppendOnlyStore where
  dataPath := "data.log"
  data := some data
  temporary := none
  stream := none

/-- Two records of 30 bytes each, cut after 35 bytes. -/
theorem recover_after_crash_in_second_record :
    ∃ leading, LongestFitting [recordAB, recordAB] leading 35 ∧
      ∃ after state,
        (holding ((encodeAll [recordAB, recordAB]).take 35)).recover {} {} 0 =
          (after, .ok state) ∧ after.bytes = encodeAll leading := by
  obtain ⟨leading, hlongest, after, hrecover, hbytes, -⟩ :=
    recover_after_crash [recordAB, recordAB] 35 (by decide +kernel)
      (holding ((encodeAll [recordAB, recordAB]).take 35)) rfl rfl 0
  exact ⟨leading, hlongest, after, _, hrecover, hbytes⟩

end AppendOnlyStore

end MiniKV
