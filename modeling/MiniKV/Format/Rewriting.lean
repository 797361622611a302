import MiniKV.Format.Stored

/-!
# Rewriting the file

`AppendOnlyStore::compact` writes the given records to a temporary file and
renames it over the data file.  It either leaves the data file alone, or it
succeeds, or it fails in the one step between the two: the stream does not
reopen after the rename has worked.
-/

namespace MiniKV.AppendOnlyStore

variable {store : AppendOnlyStore}

/-! ## The rewrite loop -/

/-- The log that the rewrite loop produces. -/
structure Rewritten (records : List Record) (entries : List LogEntry) :
    Prop where
  records_eq : entries.map LogEntry.record = records
  reserved : ∀ entry ∈ entries, entry.reserved = 0

theorem writeLiveRecords_ok {works : ℕ → Bool} {records : List Record}
    {number offset : ℕ} {output final : Bytes} {index : Index}
    {outcome : Index × ℕ}
    (hwritten : writeLiveRecords works records number output offset index =
      .ok (final, outcome)) :
    ∃ entries, Rewritten records entries ∧
      final = output ++ logFormat.imageAll entries ∧
      outcome.2 = offset + logSize entries ∧
      (∀ nowMs, (∀ entry ∈ entries, entry.Visible nowMs) →
        outcome.1 = replayFrom nowMs offset entries index) ∧
      ∀ later < records.length, works (number + later) = true := by
  induction records generalizing number offset output index with
  | nil =>
      cases hwritten
      exact ⟨[], ⟨rfl, by simp⟩, (List.append_nil _).symm, rfl,
        fun _ _ => rfl, by simp⟩
  | cons record records ih =>
      rw [writeLiveRecords] at hwritten
      by_cases hvalid : record.Valid
      · rw [writeRecord_of_valid hvalid] at hwritten
        cases hworks : works number with
        | false =>
            rw [hworks] at hwritten
            cases hwritten
        | true =>
            rw [hworks] at hwritten
            obtain ⟨entries, hrewritten, hfinal, hoffset, hindex, hothers⟩ :=
              ih hwritten
            let entry := LogEntry.ofRecord record hvalid
            have hsize : entry.size = kRecordHeaderSize + record.key.length +
                record.value.length := (Nat.add_assoc _ _ _).symm
            refine ⟨entry :: entries, ⟨?_, ?_⟩, ?_, ?_, ?_, ?_⟩
            · rw [List.map_cons, hrewritten.records_eq]
              rfl
            · intro other hother
              rcases List.mem_cons.mp hother with rfl | hother
              · rfl
              · exact hrewritten.reserved other hother
            · rw [hfinal, FrameFormat.imageAll_cons, ← List.append_assoc,
                ← LogEntry.image_ofRecord record hvalid]
              rfl
            · rw [hoffset, logSize_cons, hsize, Nat.add_assoc]
            · intro nowMs hvisible
              have hfirst := hvisible entry (by simp)
              rw [hindex nowMs fun other hother =>
                hvisible other (by simp [hother]), replayFrom, hsize,
                LogEntry.apply, if_pos hfirst]
              rfl
            · intro later hlater
              cases later with
              | zero => exact hworks
              | succ later =>
                  have hrest := hothers later (by simpa using hlater)
                  rwa [Nat.add_assoc, Nat.add_comm 1] at hrest
      · obtain ⟨message, hmessage⟩ :=
          writeRecord_of_not_valid hvalid
            (if works number then none else some ⟨0, 0⟩) output offset
        rw [hmessage] at hwritten
        cases hwritten

/-- The loop writes valid records as long as no write fails. -/
theorem writeLiveRecords_of_valid {works : ℕ → Bool} {records : List Record}
    (hvalid : ∀ record ∈ records, record.Valid) {number : ℕ}
    (hworks : ∀ later < records.length, works (number + later) = true)
    (offset : ℕ) (output : Bytes) (index : Index) :
    ∃ outcome, writeLiveRecords works records number output offset index =
      .ok outcome := by
  induction records generalizing number offset output index with
  | nil => exact ⟨(output, index, offset), rfl⟩
  | cons record records ih =>
      have hfirst : works number = true := hworks 0 (by simp)
      rw [writeLiveRecords, writeRecord_of_valid (hvalid record (by simp)),
        hfirst]
      apply ih fun other hother => hvalid other (by simp [hother])
      intro later hlater
      have hnext := hworks (later + 1) (by simpa using hlater)
      rwa [Nat.add_comm later, ← Nat.add_assoc] at hnext

/-! ## The whole compaction -/

/-- `reopenLocked` fails on a disk that has the data file. -/
def ReopenFails (answers : OpenAnswers) : Prop :=
  answers.createDirectories ≠ none ∨ answers.fileExists ≠ none ∨
    answers.openFile = false

theorem ReopenFails.not_faultless : ¬ ReopenFails {} := by
  rintro (hdirectories | hexists | hopenFile)
  · exact hdirectories rfl
  · exact hexists rfl
  · cases hopenFile

/-- Every step up to the rename works, and then the new file does not open. -/
structure LosesStream (openAnswers : OpenAnswers) (answers : CompactAnswers)
    (count : ℕ) (store : AppendOnlyStore) : Prop where
  opens : (store.ensureOpenLocked openAnswers).2.ok = true
  fileSize : answers.fileSize = none
  createTemporary : answers.createTemporary = true
  write : ∀ number < count, answers.write number = true
  flush : answers.flush = true
  rename : answers.rename = none
  reopen : ReopenFails answers.reopen

theorem reopenFails_of_not_ok {answers : OpenAnswers} {data : Bytes}
    (hdata : (store.closeFile none).data = some data)
    (hfailed : ¬ (store.reopenLocked answers).2.ok = true) :
    ReopenFails answers := by
  unfold reopenLocked ensureOpenLocked at hfailed
  simp only [fileOpen_closeFile, Bool.false_eq_true, if_false, hdata]
    at hfailed
  cases hdirectories : answers.createDirectories with
  | some message => exact Or.inl (by simp [hdirectories])
  | none =>
      cases hexists : answers.fileExists with
      | some what => exact Or.inr (Or.inl (by simp [hexists]))
      | none =>
          rw [hdirectories, hexists] at hfailed
          simp only [Option.isNone_some, Bool.false_and, Bool.false_eq_true,
            if_false] at hfailed
          cases hopenFile : answers.openFile with
          | false => exact Or.inr (Or.inr hopenFile)
          | true => simp [hopenFile] at hfailed

/-- A compaction comes to its rename, and the rename fails. -/
structure Unrenamed (answers : CompactAnswers) : Prop where
  fileSize : answers.fileSize = none
  createTemporary : answers.createTemporary = true
  flush : answers.flush = true
  rename : answers.rename ≠ none

/-- What a compaction can do to the data file. -/
inductive Compacted (openAnswers : OpenAnswers) (answers : CompactAnswers)
    (records : List Record) (store : AppendOnlyStore) :
    AppendOnlyStore → Result CompactionState → Prop
  | failed (after : AppendOnlyStore) (status : Status)
      (hbytes : after.bytes = store.bytes)
      (hpending : after.pending = store.pending) :
      Compacted openAnswers answers records store after (.error status)
  | unrenamed (after : AppendOnlyStore) (status : Status)
      (hunrenamed : Unrenamed answers)
      (hbytes : after.bytes =
        store.bytes ++ drained answers.close store.pending)
      (hpending : after.pending = []) :
      Compacted openAnswers answers records store after (.error status)
  | lost (after : AppendOnlyStore) (status : Status)
      (hlost : LosesStream openAnswers answers records.length store) :
      Compacted openAnswers answers records store after (.error status)
  | rewritten (after : AppendOnlyStore) (state : CompactionState)
      (entries : List LogEntry) (hrewritten : Rewritten records entries)
      (hbytes : after.bytes = logFormat.imageAll entries)
      (hpending : after.pending = [])
      (hold : state.oldFileBytes = store.bytes.length)
      (hnew : state.newFileBytes = logSize entries)
      (hindex : ∀ nowMs, (∀ entry ∈ entries, entry.Visible nowMs) →
        state.index = replay nowMs entries) :
      Compacted openAnswers answers records store after (.ok state)

theorem compact_cases (openAnswers : OpenAnswers) (answers : CompactAnswers)
    (records : List Record) (store : AppendOnlyStore) :
    Compacted openAnswers answers records store
      (store.compact openAnswers answers records).1
      (store.compact openAnswers answers records).2 := by
  have hbytes := store.bytes_ensureOpenLocked openAnswers
  have hpending := store.pending_ensureOpenLocked openAnswers
  unfold compact
  dsimp only
  split
  case isFalse => exact .failed _ _ hbytes hpending
  next hopens =>
  split
  · exact .failed _ _ hbytes hpending
  next hfileSize =>
  split
  case isFalse => exact .failed _ _ hbytes hpending
  next hcreate =>
    split
    · exact .failed _ _ hbytes hpending
    next output index offset hwritten =>
      split
      case isFalse => exact .failed _ _ hbytes hpending
      next hflush =>
        let written := { (store.ensureOpenLocked openAnswers).1 with
          temporary := some output }
        have hwrote : (written.closeFile answers.close).bytes =
            store.bytes ++ drained answers.close store.pending := by
          rw [bytes_closeFile]
          change (store.ensureOpenLocked openAnswers).1.bytes ++
            drained _ (store.ensureOpenLocked openAnswers).1.pending = _
          rw [hbytes, hpending]
        split
        next message hrename =>
          have hunrenamed : Unrenamed answers :=
            ⟨hfileSize, hcreate, hflush, by rw [hrename]; exact nofun⟩
          have hreopened := (bytes_reopenLocked answers.reopen
            (written.closeFile answers.close))
          rw [pending_closeFile, List.append_nil, hwrote] at hreopened
          split
          · exact .unrenamed _ _ hunrenamed hreopened (pending_reopenLocked _ _)
          · exact .unrenamed _ _ hunrenamed hreopened (pending_reopenLocked _ _)
        next hrename =>
          obtain ⟨entries, hrewritten, houtput, hoffset, hindex, hworks⟩ :=
            writeLiveRecords_ok hwritten
          split
          next hreopened =>
            refine .rewritten _ _ entries hrewritten ?_
              (pending_reopenLocked _ _) ?_ ?_ ?_
            · rw [bytes_reopenLocked]
              exact (List.append_nil _).trans houtput
            · exact congrArg List.length hbytes
            · exact hoffset.trans (Nat.zero_add _)
            · exact hindex
          next hreopen =>
            refine .lost _ _ ⟨hopens, hfileSize, hcreate, ?_, hflush, hrename,
              reopenFails_of_not_ok rfl hreopen⟩
            intro number hnumber
            have hwrites := hworks number hnumber
            rwa [Nat.zero_add] at hwrites

/-- Every step of a compaction of so many records works. -/
structure Completes (openAnswers : OpenAnswers) (answers : CompactAnswers)
    (count : ℕ) (store : AppendOnlyStore) : Prop where
  opens : (store.ensureOpenLocked openAnswers).2.ok = true
  fileSize : answers.fileSize = none
  createTemporary : answers.createTemporary = true
  write : ∀ number < count, answers.write number = true
  flush : answers.flush = true
  rename : answers.rename = none
  reopens : ¬ ReopenFails answers.reopen

/-- A stream that is opened again tells that nothing failed. -/
theorem not_reopenFails_of_ok {answers : OpenAnswers}
    (hopens : (store.reopenLocked answers).2.ok = true) :
    ¬ ReopenFails answers := by
  rw [reopenLocked, ensureOpenLocked, fileOpen_closeFile,
    if_neg Bool.false_ne_true] at hopens
  rintro (hdirectories | hexists | hopenFile)
  · obtain ⟨message, hmessage⟩ := Option.ne_none_iff_exists'.mp hdirectories
    rw [hmessage] at hopens
    cases hopens
  · obtain ⟨what, hwhat⟩ := Option.ne_none_iff_exists'.mp hexists
    rw [hwhat] at hopens
    split at hopens
    · cases hopens
    · cases hopens
    next hnone => cases hnone
  · rw [hopenFile] at hopens
    split at hopens
    · cases hopens
    · cases hopens
    · split at hopens
      · cases hopens
      · cases hopens

theorem completes_of_compact {openAnswers : OpenAnswers}
    {answers : CompactAnswers} {records : List Record} {state : CompactionState}
    (hcompact : (store.compact openAnswers answers records).2 = .ok state) :
    Completes openAnswers answers records.length store := by
  rw [compact] at hcompact
  dsimp only at hcompact
  split at hcompact
  case isFalse => cases hcompact
  next hopens =>
  split at hcompact
  · cases hcompact
  next hfileSize =>
  split at hcompact
  case isFalse => cases hcompact
  next hcreate =>
  split at hcompact
  · cases hcompact
  next output index offset hwritten =>
  split at hcompact
  case isFalse => cases hcompact
  next hflush =>
  split at hcompact
  · split at hcompact <;> cases hcompact
  next hrename =>
  split at hcompact
  case isFalse => cases hcompact
  next hreopened =>
    obtain ⟨-, -, -, -, -, hworks⟩ := writeLiveRecords_ok hwritten
    refine ⟨hopens, hfileSize, hcreate, ?_, hflush, hrename,
      not_reopenFails_of_ok hreopened⟩
    intro number hnumber
    have hwrites := hworks number hnumber
    rwa [Nat.zero_add] at hwrites

theorem compact_of_completes {openAnswers : OpenAnswers}
    {answers : CompactAnswers} {records : List Record}
    (hvalid : ∀ record ∈ records, record.Valid)
    (hcompletes : Completes openAnswers answers records.length store) :
    ∃ state, (store.compact openAnswers answers records).2 = .ok state := by
  have hworks : ∀ later < records.length, answers.write (0 + later) = true := by
    intro later hlater
    rw [Nat.zero_add]
    exact hcompletes.write later hlater
  obtain ⟨⟨output, index, offset⟩, hwritten⟩ :=
    writeLiveRecords_of_valid hvalid hworks 0 [] .empty
  rw [compact]
  dsimp only
  rw [if_pos hcompletes.opens, hcompletes.fileSize]
  dsimp only
  rw [if_pos hcompletes.createTemporary, hwritten]
  dsimp only
  rw [if_pos hcompletes.flush, hcompletes.rename]
  dsimp only
  split
  · exact ⟨_, rfl⟩
  next hfailed =>
    exact absurd (reopenFails_of_not_ok rfl hfailed) hcompletes.reopens

/-- A compaction without I/O failure succeeds. -/
theorem compact_faultless {records : List Record}
    (hvalid : ∀ record ∈ records, record.Valid) (store : AppendOnlyStore) :
    ∃ state, (store.compact {} {} records).2 = .ok state := by
  have hopens : (store.ensureOpenLocked {}).2.ok = true := by
    rw [ensureOpenLocked_faultless]
    rfl
  exact compact_of_completes hvalid
    ⟨hopens, rfl, rfl, fun _ _ => rfl, rfl, rfl, ReopenFails.not_faultless⟩

end MiniKV.AppendOnlyStore
