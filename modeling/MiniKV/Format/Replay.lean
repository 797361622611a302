import MiniKV.Format.LogEntry

/-!
# What a log means

Replaying a log builds an index: every entry erases its key or points it to the
entry's own offset.  For each key only the last entry that names it matters;
this is how the file, the recovered index and the live index are compared.
-/

namespace MiniKV

namespace LogEntry

/-- The index entry of a log entry that starts at `offset`. -/
def metadata (entry : LogEntry) (offset : ℕ) : RecordMetadata where
  recordOffset := offset
  valueOffset := offset + kRecordHeaderSize + entry.record.key.length
  valueSize := UInt32.ofNat entry.record.value.length
  expiresAtMs := entry.record.expiresAtMs

theorem toNat_valueSize (entry : LogEntry) (offset : ℕ) :
    (entry.metadata offset).valueSize.toNat = entry.record.value.length :=
  entry.valid.toNat_valueSize

/-- Whether the entry leaves its key visible at a clock reading. -/
def Visible (nowMs : Int64) (entry : LogEntry) : Prop :=
  entry.record.operation = .set ∧
    isExpired entry.record.expiresAtMs nowMs = false

instance (nowMs : Int64) (entry : LogEntry) :
    Decidable (entry.Visible nowMs) :=
  inferInstanceAs (Decidable (_ ∧ _))

/-- What replaying one entry does to the index. -/
def apply (nowMs : Int64) (offset : ℕ) (entry : LogEntry) (index : Index) :
    Index :=
  if entry.Visible nowMs then
    index.insert entry.record.key (entry.metadata offset)
  else
    index.erase entry.record.key

/-- The recovery loop does to the index what the entry says. -/
theorem replayRecord_parsed (nowMs : Int64) (offset : ℕ) (entry : LogEntry)
    (index : Index) :
    AppendOnlyStore.replayRecord nowMs offset entry.record.parsed
      entry.record.key index = entry.apply nowMs offset index := by
  rw [AppendOnlyStore.replayRecord, apply, Record.parsed_operation,
    Record.parsed_expiresAtMs]
  by_cases hdelete : entry.record.operation = .delete
  · have hhidden : ¬ entry.Visible nowMs := by
      intro hvisible
      rw [hvisible.1] at hdelete
      cases hdelete
    rw [if_pos hdelete, if_neg hhidden]
  · have hset : entry.record.operation = .set := by
      cases hoperation : entry.record.operation with
      | set => rfl
      | delete => exact absurd hoperation hdelete
    rw [if_neg hdelete]
    by_cases hexpired : isExpired entry.record.expiresAtMs nowMs = true
    · have hhidden : ¬ entry.Visible nowMs := by
        intro hvisible
        rw [hvisible.2] at hexpired
        cases hexpired
      rw [if_neg hhidden, if_pos hexpired]
    · have hvisible : entry.Visible nowMs :=
        ⟨hset, Bool.not_eq_true _ ▸ hexpired⟩
      rw [if_pos hvisible, if_neg hexpired, metadata,
        ← entry.valid.toNat_keySize]
      rfl

theorem lookup_apply (nowMs : Int64) (offset : ℕ) (entry : LogEntry)
    (index : Index) (key : Bytes) :
    (entry.apply nowMs offset index).lookup key =
      if entry.record.key = key then
        if entry.Visible nowMs then some (entry.metadata offset) else none
      else
        index.lookup key := by
  unfold apply
  split
  · simp [FiniteMap.lookup_insert, eq_comm]
  · simp [FiniteMap.lookup_erase, eq_comm]

end LogEntry

/-- The number of bytes of a log. -/
def logSize (entries : List LogEntry) : ℕ := (entries.map LogEntry.size).sum

@[simp]
theorem logSize_nil : logSize [] = 0 := rfl

@[simp]
theorem logSize_cons (entry : LogEntry) (entries : List LogEntry) :
    logSize (entry :: entries) = entry.size + logSize entries := by
  simp [logSize]

@[simp]
theorem logSize_append (left right : List LogEntry) :
    logSize (left ++ right) = logSize left + logSize right := by
  simp [logSize]

@[simp]
theorem length_imageAll (entries : List LogEntry) :
    (logFormat.imageAll entries).length = logSize entries := by
  induction entries with
  | nil => rfl
  | cons entry entries ih =>
      rw [FrameFormat.imageAll_cons, List.length_append, ih, logSize_cons]
      exact congrArg (· + _) entry.length_image

/-- Replay a log whose first entry starts at `offset`. -/
def replayFrom (nowMs : Int64) : ℕ → List LogEntry → Index → Index
  | _, [], index => index
  | offset, entry :: entries, index =>
      replayFrom nowMs (offset + entry.size) entries
        (entry.apply nowMs offset index)

/-- The index that a whole data file denotes at a clock reading. -/
def replay (nowMs : Int64) (entries : List LogEntry) : Index :=
  replayFrom nowMs 0 entries .empty

/-- The last entry that names a key, with its offset. -/
def lastEntryFrom (key : Bytes) : ℕ → List LogEntry → Option (ℕ × LogEntry)
  | _, [] => none
  | offset, entry :: entries =>
      (lastEntryFrom key (offset + entry.size) entries).or
        (if entry.record.key = key then some (offset, entry) else none)

def lastEntry (key : Bytes) (entries : List LogEntry) :
    Option (ℕ × LogEntry) :=
  lastEntryFrom key 0 entries

/-- The index entry that the last log entry of a key leaves. -/
def shown (nowMs : Int64) (found : ℕ × LogEntry) : Option RecordMetadata :=
  if found.2.Visible nowMs then some (found.2.metadata found.1) else none

theorem lookup_replayFrom (nowMs : Int64) (key : Bytes) (offset : ℕ)
    (entries : List LogEntry) (index : Index) :
    (replayFrom nowMs offset entries index).lookup key =
      match lastEntryFrom key offset entries with
      | none => index.lookup key
      | some found => shown nowMs found := by
  induction entries generalizing offset index with
  | nil => rfl
  | cons entry entries ih =>
      rw [replayFrom, ih, lastEntryFrom, LogEntry.lookup_apply]
      cases lastEntryFrom key (offset + entry.size) entries with
      | some found => simp
      | none =>
          by_cases hkey : entry.record.key = key
          · simp [hkey, shown]
          · simp [hkey]

/-- Only the last entry of a key decides what replay shows of it. -/
theorem lookup_replay (nowMs : Int64) (entries : List LogEntry)
    (key : Bytes) :
    (replay nowMs entries).lookup key =
      (lastEntry key entries).bind (shown nowMs) := by
  rw [replay, lookup_replayFrom, lastEntry]
  cases lastEntryFrom key 0 entries <;> rfl

theorem lastEntryFrom_append (key : Bytes) (offset : ℕ)
    (left right : List LogEntry) :
    lastEntryFrom key offset (left ++ right) =
      (lastEntryFrom key (offset + logSize left) right).or
        (lastEntryFrom key offset left) := by
  induction left generalizing offset with
  | nil => simp [lastEntryFrom]
  | cons entry left ih =>
      rw [List.cons_append, lastEntryFrom, ih, lastEntryFrom, logSize_cons,
        Nat.add_assoc, Option.or_assoc]

/-- Appending one entry changes the last entry of its own key only. -/
theorem lastEntry_concat (key : Bytes) (entries : List LogEntry)
    (entry : LogEntry) :
    lastEntry key (entries ++ [entry]) =
      if entry.record.key = key then some (logSize entries, entry)
      else lastEntry key entries := by
  rw [lastEntry, lastEntryFrom_append, lastEntryFrom, lastEntryFrom]
  by_cases hkey : entry.record.key = key
  · simp [hkey]
  · simp [hkey, lastEntry]

theorem lookup_replay_concat (nowMs : Int64) (entries : List LogEntry)
    (entry : LogEntry) (key : Bytes) :
    (replay nowMs (entries ++ [entry])).lookup key =
      if entry.record.key = key then shown nowMs (logSize entries, entry)
      else (replay nowMs entries).lookup key := by
  rw [lookup_replay, lookup_replay, lastEntry_concat]
  split <;> rfl

/-- A later reading shows what has not expired of an earlier one. -/
theorem shown_later {nowMs laterMs : Int64} (hclock : nowMs ≤ laterMs)
    (found : ℕ × LogEntry) :
    shown laterMs found = (shown nowMs found).filter fun metadata =>
      !isExpired metadata.expiresAtMs laterMs := by
  by_cases hlater : found.2.Visible laterMs
  · have hvisible : found.2.Visible nowMs :=
      ⟨hlater.1, isExpired_of_later hlater.2 hclock⟩
    rw [shown, shown, if_pos hlater, if_pos hvisible, Option.filter_some_pos]
    exact congrArg Bool.not hlater.2
  · rw [shown, shown, if_neg hlater]
    split
    next hvisible =>
      rw [Option.filter_some_neg]
      rw [Bool.not_eq_false', ← Bool.not_eq_false]
      exact fun hfresh => hlater ⟨hvisible.1, hfresh⟩
    · rfl

theorem replay_later {nowMs laterMs : Int64} (hclock : nowMs ≤ laterMs)
    (entries : List LogEntry) :
    replay laterMs entries = (replay nowMs entries).filter fun _ metadata =>
      !isExpired metadata.expiresAtMs laterMs := by
  ext key : 1
  rw [FiniteMap.lookup_filter, lookup_replay, lookup_replay]
  cases lastEntry key entries with
  | none => rfl
  | some found => exact shown_later hclock found

/-- The last entry of a key splits the log: it stands after `earlier`, and no
later entry names the key. -/
theorem lastEntryFrom_eq_some {key : Bytes} {offset : ℕ}
    {entries : List LogEntry} {found : ℕ × LogEntry}
    (hlast : lastEntryFrom key offset entries = some found) :
    ∃ earlier later, entries = earlier ++ found.2 :: later ∧
      found.1 = offset + logSize earlier ∧ found.2.record.key = key ∧
      ∀ entry ∈ later, entry.record.key ≠ key := by
  induction entries generalizing offset with
  | nil => cases hlast
  | cons entry entries ih =>
      rw [lastEntryFrom] at hlast
      cases hrest : lastEntryFrom key (offset + entry.size) entries with
      | some later =>
          rw [hrest, Option.some_or] at hlast
          obtain ⟨earlier, later, hsplit, hoffset, hkey, hlater⟩ :=
            ih (hrest.trans hlast)
          exact ⟨entry :: earlier, later, by rw [hsplit, List.cons_append],
            by rw [hoffset, logSize_cons, Nat.add_assoc], hkey, hlater⟩
      | none =>
          rw [hrest, Option.none_or] at hlast
          split at hlast
          next hkey =>
            cases hlast
            refine ⟨[], entries, rfl, rfl, hkey, ?_⟩
            intro other hother
            exact ne_of_lastEntryFrom_none hrest hother
          · cases hlast
where
  ne_of_lastEntryFrom_none {key : Bytes} {offset : ℕ}
      {entries : List LogEntry}
      (hnone : lastEntryFrom key offset entries = none) {entry : LogEntry}
      (hentry : entry ∈ entries) : entry.record.key ≠ key := by
    induction entries generalizing offset with
    | nil => cases hentry
    | cons first entries ih =>
        rw [lastEntryFrom, Option.or_eq_none_iff] at hnone
        rcases List.mem_cons.mp hentry with rfl | hentry
        · intro hkey
          simp [hkey] at hnone
        · exact ih hnone.1 hentry

theorem lastEntry_of_split {key : Bytes} {earlier later : List LogEntry}
    {entry : LogEntry} (hkey : entry.record.key = key)
    (hlater : ∀ other ∈ later, other.record.key ≠ key) :
    lastEntry key (earlier ++ entry :: later) =
      some (logSize earlier, entry) := by
  induction later using List.reverseRecOn with
  | nil => rw [lastEntry_concat, if_pos hkey]
  | append_singleton later other ih =>
      rw [← List.cons_append, ← List.append_assoc, lastEntry_concat,
        if_neg (hlater other (by simp))]
      exact ih fun entry hentry => hlater entry (by simp [hentry])

end MiniKV
