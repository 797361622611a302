import MiniKV.Recovery.Scan

/-!
# Recovery accepts exactly the log language

A data file is accepted when it is a list of well-formed records followed by an
unfinished tail, and what recovery reports is read off that decomposition.  The
decomposition is unique because records announce their own length.
-/

namespace MiniKV

/-- The file is these records followed by this unfinished tail. -/
def LogWithTail (entries : List LogEntry) (tail file : Bytes) : Prop :=
  file = logFormat.imageAll entries ++ tail ∧ UnfinishedTail tail

/-- The records up to `entry` are `earlier`, and no record behind it names its
key. -/
def LastFor (key : Bytes) (entries earlier : List LogEntry)
    (entry : LogEntry) : Prop :=
  entry.record.key = key ∧
    ∃ later, entries = earlier ++ entry :: later ∧
      ∀ other ∈ later, other.record.key ≠ key

theorem unfinishedTail_nil : UnfinishedTail [] :=
  Or.inl (by simp [kRecordHeaderSize])

theorem UnfinishedTail.atEnd {tail : Bytes} (htail : UnfinishedTail tail) :
    logFormat.AtEnd tail := by
  intro entry hhead
  have hincomplete := (head_eq_incomplete_iff tail).mpr htail
  change LogEntry.head tail = .entry entry at hhead
  rw [hincomplete] at hhead
  cases hhead

/-- Every file is a log with an unfinished tail, or its records are followed by
something that is neither a record nor an unfinished one. -/
theorem logWithTail_or_malformed (file : Bytes) :
    (∃ entries tail, LogWithTail entries tail file) ∨
      ∃ entries rest, file = logFormat.imageAll entries ++ rest ∧
        LogEntry.head rest = .malformed := by
  obtain ⟨entries, rest, hfile, hend⟩ := logFormat.exists_split file
  cases hhead : LogEntry.head rest with
  | entry value => exact absurd hhead (hend value)
  | incomplete =>
      exact Or.inl ⟨entries, rest, hfile,
        (head_eq_incomplete_iff rest).mp hhead⟩
  | malformed => exact Or.inr ⟨entries, rest, hfile, hhead⟩

theorem LogWithTail.unique {entries otherEntries : List LogEntry}
    {tail otherTail file : Bytes} (hlog : LogWithTail entries tail file)
    (hother : LogWithTail otherEntries otherTail file) :
    entries = otherEntries ∧ tail = otherTail :=
  logFormat.split_unique (hlog.1.symm.trans hother.1) hlog.2.atEnd
    hother.2.atEnd

theorem LogWithTail.not_malformed {entries otherEntries : List LogEntry}
    {tail rest file : Bytes} (hlog : LogWithTail entries tail file)
    (hfile : file = logFormat.imageAll otherEntries ++ rest) :
    LogEntry.head rest ≠ .malformed := by
  intro hmalformed
  have hend : logFormat.AtEnd rest := by
    intro entry hhead
    change LogEntry.head rest = .entry entry at hhead
    rw [hmalformed] at hhead
    cases hhead
  obtain ⟨-, htail⟩ := logFormat.split_unique (hlog.1.symm.trans hfile)
    hlog.2.atEnd hend
  have hincomplete := (head_eq_incomplete_iff tail).mpr hlog.2
  rw [htail, hmalformed] at hincomplete
  cases hincomplete

/-- Whole records in front of a file only lengthen its list of records. -/
theorem logWithTail_append_iff {before entries : List LogEntry}
    {tail rest : Bytes} :
    LogWithTail entries tail (logFormat.imageAll before ++ rest) ↔
      ∃ later, entries = before ++ later ∧ LogWithTail later tail rest := by
  constructor
  · intro hlog
    rcases logWithTail_or_malformed rest with
      ⟨later, laterTail, hrest⟩ | ⟨later, laterRest, hrest, hmalformed⟩
    · have hwhole : LogWithTail (before ++ later) laterTail
          (logFormat.imageAll before ++ rest) := by
        refine ⟨?_, hrest.2⟩
        rw [FrameFormat.imageAll_append, List.append_assoc, ← hrest.1]
      obtain ⟨hentries, htail⟩ := hlog.unique hwhole
      exact ⟨later, hentries, htail ▸ hrest⟩
    · have hwhole : logFormat.imageAll before ++ rest =
          logFormat.imageAll (before ++ later) ++ laterRest := by
        rw [FrameFormat.imageAll_append, List.append_assoc, ← hrest]
      exact absurd hmalformed (hlog.not_malformed hwhole)
  · rintro ⟨later, rfl, hrest⟩
    refine ⟨?_, hrest.2⟩
    rw [FrameFormat.imageAll_append, List.append_assoc, ← hrest.1]

theorem logWithTail_imageAll (entries : List LogEntry) :
    LogWithTail entries [] (logFormat.imageAll entries) :=
  ⟨(List.append_nil _).symm, unfinishedTail_nil⟩

theorem lastEntry_eq_some_iff {key : Bytes} {entries : List LogEntry}
    {offset : ℕ} {entry : LogEntry} :
    lastEntry key entries = some (offset, entry) ↔
      ∃ earlier, offset = logSize earlier ∧
        LastFor key entries earlier entry := by
  constructor
  · intro hlast
    obtain ⟨earlier, later, hsplit, hoffset, hkey, hlater⟩ :=
      lastEntryFrom_eq_some hlast
    rw [Nat.zero_add] at hoffset
    exact ⟨earlier, hoffset, hkey, later, hsplit, hlater⟩
  · rintro ⟨earlier, hoffset, hkey, later, hsplit, hlater⟩
    rw [hsplit, hoffset]
    exact lastEntry_of_split hkey hlater

/-- Replay shows a key exactly when its last record is a visible one. -/
theorem lookup_replay_eq_some_iff (nowMs : Int64) (entries : List LogEntry)
    (key : Bytes) (metadata : RecordMetadata) :
    (replay nowMs entries).lookup key = some metadata ↔
      ∃ earlier entry, LastFor key entries earlier entry ∧
        entry.Visible nowMs ∧ metadata = entry.metadata (logSize earlier) := by
  rw [lookup_replay, Option.bind_eq_some_iff]
  constructor
  · rintro ⟨⟨offset, entry⟩, hlast, hshown⟩
    obtain ⟨earlier, hoffset, hlastFor⟩ := lastEntry_eq_some_iff.mp hlast
    rw [shown] at hshown
    split at hshown
    next hvisible =>
      cases hshown
      exact ⟨earlier, entry, hlastFor, hvisible, by rw [hoffset]⟩
    · cases hshown
  · rintro ⟨earlier, entry, hlastFor, hvisible, hmetadata⟩
    refine ⟨(logSize earlier, entry),
      lastEntry_eq_some_iff.mpr ⟨earlier, rfl, hlastFor⟩, ?_⟩
    rw [shown, if_pos hvisible, hmetadata]

theorem LastFor.storedAt {key : Bytes} {entries earlier : List LogEntry}
    {entry : LogEntry} (hlast : LastFor key entries earlier entry) :
    StoredAt (logFormat.imageAll entries) (logSize earlier) entry := by
  obtain ⟨-, later, hsplit, -⟩ := hlast
  have hstored := storedAt_of_split earlier later entry []
  rwa [List.append_nil, ← hsplit] at hstored

namespace AppendOnlyStore

variable {store : AppendOnlyStore} {entries : List LogEntry} {tail : Bytes}

theorem recover_of_logWithTail
    (hlog : LogWithTail entries tail store.bytes) (nowMs : Int64) :
    store.recover {} {} nowMs =
      (store.recovered entries tail,
        .ok ⟨replay nowMs entries, entries.length, tail.length⟩) :=
  recover_log hlog.1 hlog.2 nowMs

/-- Recovery succeeds on logs with an unfinished tail only. -/
theorem logWithTail_of_recover {nowMs : Int64} {after : AppendOnlyStore}
    {state : RecoveryState}
    (hrecover : store.recover {} {} nowMs = (after, .ok state)) :
    ∃ entries tail, LogWithTail entries tail store.bytes ∧
      after = store.recovered entries tail ∧
      state = ⟨replay nowMs entries, entries.length, tail.length⟩ := by
  rcases logWithTail_or_malformed store.bytes with
    ⟨entries, tail, hlog⟩ | ⟨entries, rest, hfile, hmalformed⟩
  · rw [recover_of_logWithTail hlog] at hrecover
    cases hrecover
    exact ⟨entries, tail, hlog, rfl, rfl⟩
  · obtain ⟨message, hmessage⟩ := recover_not_log hfile hmalformed nowMs
    rw [hmessage] at hrecover
    cases hrecover

/-- A recovery without a fault leaves nothing in the put area. -/
theorem pending_recover (store : AppendOnlyStore) (nowMs : Int64) :
    (store.recover {} {} nowMs).1.pending = [] := by
  rcases logWithTail_or_malformed store.bytes with
    ⟨entries, tail, hlog⟩ | ⟨entries, rest, hfile, hmalformed⟩
  · rw [recover_of_logWithTail hlog, pending_recovered]
  · obtain ⟨message, hmessage⟩ := recover_not_log hfile hmalformed nowMs
    rw [hmessage, pending_settled]

/-- What recovery accepts, what it reports and what it leaves in the file, for
every file and every clock reading.  A stream that holds bytes of an append that
has failed writes them behind the file; all other streams hold none. -/
theorem recover_accepts_log_language (store : AppendOnlyStore)
    (nowMs : Int64) :
    (∀ count dropped,
      (∃ after state, store.recover {} {} nowMs = (after, .ok state) ∧
        state.validRecords = count ∧ state.truncatedBytes = dropped) ↔
      ∃ entries tail, LogWithTail entries tail store.bytes ∧
        entries.length = count ∧ tail.length = dropped) ∧
    (∀ entries tail, LogWithTail entries tail store.bytes →
      ∃ after state, store.recover {} {} nowMs = (after, .ok state) ∧
        after.bytes = logFormat.imageAll entries ++
          (if tail = [] then store.pending else []) ∧
        (∀ key metadata, state.index.lookup key = some metadata ↔
          ∃ earlier entry, LastFor key entries earlier entry ∧
            entry.Visible nowMs ∧
            metadata = entry.metadata (logSize earlier)) ∧
        ∀ key earlier entry, LastFor key entries earlier entry →
          entry.Visible nowMs →
          (entry.metadata (logSize earlier)).valueOffset +
              (entry.metadata (logSize earlier)).valueSize.toNat ≤
            after.bytes.length ∧
          (after.readValue {} {} (entry.metadata (logSize earlier))).2 =
            .ok entry.record.value) ∧
    ((¬ ∃ entries tail, LogWithTail entries tail store.bytes) →
      ∃ after message, store.recover {} {} nowMs =
          (after, .error (.corruption message)) ∧
        after.bytes = store.bytes ++ store.pending) := by
  refine ⟨fun count dropped => ⟨?_, ?_⟩, fun entries tail hlog => ?_,
    fun hnot => ?_⟩
  · rintro ⟨after, state, hrecover, hcount, hdropped⟩
    obtain ⟨entries, tail, hlog, -, rfl⟩ := logWithTail_of_recover hrecover
    exact ⟨entries, tail, hlog, hcount, hdropped⟩
  · rintro ⟨entries, tail, hlog, hcount, hdropped⟩
    exact ⟨_, _, recover_of_logWithTail hlog nowMs, hcount, hdropped⟩
  · have hbytes := store.bytes_recovered hlog.1
    refine ⟨_, _, recover_of_logWithTail hlog nowMs, hbytes,
      lookup_replay_eq_some_iff nowMs entries, ?_⟩
    intro key earlier entry hlast hvisible
    have hstored := hlast.storedAt.append
      (if tail = [] then store.pending else [])
    rw [← hbytes] at hstored
    exact ⟨hstored.value_end_le, by rw [readValue_stored hstored]⟩
  · rcases logWithTail_or_malformed store.bytes with
      hlog | ⟨entries, rest, hfile, hmalformed⟩
    · exact absurd hlog hnot
    · obtain ⟨message, hmessage⟩ := recover_not_log hfile hmalformed nowMs
      exact ⟨_, message, hmessage, store.bytes_settled⟩

end AppendOnlyStore

end MiniKV
