import MiniKV.Store.Ledger

/-!
# What a log stores

The records of a log store a value and an expiry under each key, whatever the
clock says.  What a restart shows of them is what has not expired.
-/

namespace MiniKV

theorem isExpired_minValue (expiresAtMs : Int64) :
    isExpired expiresAtMs Int64.minValue = false := by
  have hminimum : Int64.minValue.toInt = -2 ^ 63 := by decide
  rw [isExpired_eq_false_iff, hminimum]
  omega

/-- What a record stores under its key. -/
def Record.stored (record : Record) : Option (Bytes × Int64) :=
  if record.operation = .set then
    some (record.value, record.expiresAtMs)
  else
    none

/-- What has not expired of something stored. -/
def unexpired (nowMs : Int64) (stored : Option (Bytes × Int64)) :
    Option (Bytes × Int64) :=
  stored.filter fun found => !isExpired found.2 nowMs

theorem unexpired_eq_some_iff {nowMs : Int64}
    {stored : Option (Bytes × Int64)} {value : Bytes} {expiresAtMs : Int64} :
    unexpired nowMs stored = some (value, expiresAtMs) ↔
      stored = some (value, expiresAtMs) ∧
        isExpired expiresAtMs nowMs = false := by
  rw [unexpired, Option.filter_eq_some_iff, Bool.not_eq_true']

/-- Of what is unexpired now, the rest expires as it would have. -/
theorem unexpired_unexpired {nowMs laterMs : Int64} (hclock : nowMs ≤ laterMs)
    (stored : Option (Bytes × Int64)) :
    unexpired laterMs (unexpired nowMs stored) = unexpired laterMs stored := by
  apply Option.ext
  rintro ⟨value, expiresAtMs⟩
  rw [unexpired_eq_some_iff, unexpired_eq_some_iff, unexpired_eq_some_iff]
  constructor
  · rintro ⟨⟨hstored, -⟩, hlater⟩
    exact ⟨hstored, hlater⟩
  · rintro ⟨hstored, hlater⟩
    exact ⟨⟨hstored, isExpired_of_later hlater hclock⟩, hlater⟩

namespace View

/-- The view behind a successful append of a record. -/
def afterRecord (view : View) (record : Record) (hvalid : record.Valid) :
    View :=
  match record.operation with
  | .set => view.afterSet record hvalid
  | .delete => view.afterRemove record

section AfterRecord

variable {view : View} {record : Record} (hvalid : record.Valid)

theorem bytes_afterRecord : (view.afterRecord record hvalid).bytes =
    view.bytes ++ AppendOnlyStore.recordBytes record := by
  unfold afterRecord
  split <;> rfl

theorem pending_afterRecord :
    (view.afterRecord record hvalid).pending = view.pending := by
  unfold afterRecord
  split <;> rfl

theorem Coherent.afterRecord (hcoherent : view.Coherent) :
    (view.afterRecord record hvalid).Coherent := by
  unfold View.afterRecord
  split
  next hoperation => exact hcoherent.afterSet hvalid hoperation
  · exact hcoherent.afterRemove record

theorem contents_afterRecord (hcoherent : view.Coherent) :
    (view.afterRecord record hvalid).contents =
      Function.update view.contents record.key record.stored := by
  unfold afterRecord
  split
  next hoperation =>
    rw [contents_afterSet hcoherent hvalid hoperation, Record.stored,
      if_pos hoperation]
  next hoperation =>
    rw [contents_afterRemove hcoherent, Record.stored,
      if_neg (by rw [hoperation]; exact nofun)]

end AfterRecord

/-- What the records of a log store under each key. -/
def ledgerOf (entries : List LogEntry) : Ledger := fun key =>
  (lastEntry key entries).bind fun found => found.2.record.stored

/-- Recovery forgets expired records only. -/
theorem tracks_ofLog (nowMs : Int64) (entries : List LogEntry)
    (cache : LruCache Bytes Bytes) :
    Tracks nowMs (ofLog nowMs entries cache) (ledgerOf entries) := by
  intro key
  cases hlast : lastEntry key entries with
  | none =>
      have hmissing : (ofLog nowMs entries cache).index.lookup key = none := by
        change (replay nowMs entries).lookup key = none
        rw [lookup_replay, hlast]
        rfl
      left
      rw [contents_eq_none_iff.mpr hmissing, ledgerOf, hlast]
      rfl
  | some found =>
      obtain ⟨offset, entry⟩ := found
      obtain ⟨earlier, -, hlastFor⟩ := lastEntry_eq_some_iff.mp hlast
      by_cases hvisible : entry.Visible nowMs
      · left
        rw [contents_ofLog.mpr ⟨earlier, entry, hlastFor, hvisible, rfl, rfl⟩,
          ledgerOf, hlast]
        exact (if_pos hvisible.1).symm
      · have hmissing : (ofLog nowMs entries cache).index.lookup key =
            none := by
          change (replay nowMs entries).lookup key = none
          rw [lookup_replay, hlast]
          exact if_neg hvisible
        rw [contents_eq_none_iff.mpr hmissing, ledgerOf, hlast,
          Option.bind_some]
        by_cases hset : entry.record.operation = .set
        · right
          rw [Record.stored, if_pos hset]
          refine ⟨rfl, _, _, rfl, ?_⟩
          rw [← Bool.not_eq_false]
          exact fun hfresh => hvisible ⟨hset, hfresh⟩
        · left
          rw [Record.stored, if_neg hset]

/-- What a log stores under its keys is what it shows before all readings. -/
theorem ledgerOf_eq_contents (entries : List LogEntry)
    (cache : LruCache Bytes Bytes) :
    ledgerOf entries = (ofLog Int64.minValue entries cache).contents := by
  funext key
  rcases tracks_ofLog Int64.minValue entries cache key with
    hsame | ⟨-, value, expiresAtMs, -, hexpired⟩
  · exact hsame.symm
  · rw [isExpired_minValue] at hexpired
    cases hexpired

theorem Canonical.ledgerOf_eq {view : View} {live : List LogEntry}
    (hlive : view.Canonical live) : ledgerOf live = view.contents := by
  have hvisible : ∀ entry ∈ live, entry.Visible Int64.minValue :=
    fun entry hentry => ⟨(hlive.written entry hentry).1, isExpired_minValue _⟩
  calc ledgerOf live
      = (ofLog Int64.minValue live view.cache).contents :=
        ledgerOf_eq_contents live view.cache
    _ = view.contents := hlive.contents_ofLog hvisible view.cache

theorem ledgerOf_concat {key : Bytes} (entries : List LogEntry)
    {record : Record} (hvalid : record.Valid) :
    ledgerOf (entries ++ [.ofRecord record hvalid]) key =
      if record.key = key then record.stored else ledgerOf entries key := by
  rw [ledgerOf, lastEntry_concat, LogEntry.record_ofRecord]
  by_cases hkey : record.key = key
  · rw [if_pos hkey, if_pos hkey]
    rfl
  · rw [if_neg hkey, if_neg hkey]
    rfl

/-- Replay shows what the log stores under a key, unless that has expired. -/
theorem isSome_replay_iff {nowMs : Int64} {entries : List LogEntry}
    {key : Bytes} : ((replay nowMs entries).lookup key).isSome ↔
      ∃ stored, ledgerOf entries key = some stored ∧
        isExpired stored.2 nowMs = false := by
  rw [lookup_replay, ledgerOf]
  cases lastEntry key entries with
  | none => simp
  | some found =>
      by_cases hset : found.2.record.operation = .set <;>
        simp [shown, LogEntry.Visible, Record.stored, hset]

/-- A restart shows what the log stores and what has not expired of it. -/
theorem contents_ofLog_eq (nowMs : Int64) (entries : List LogEntry)
    (cache : LruCache Bytes Bytes) (key : Bytes) :
    (ofLog nowMs entries cache).contents key =
      unexpired nowMs (ledgerOf entries key) := by
  apply Option.ext
  rintro ⟨value, expiresAtMs⟩
  rw [unexpired_eq_some_iff]
  constructor
  · intro hcontents
    obtain ⟨_, _, _, hvisible, _, rfl⟩ := contents_ofLog.mp hcontents
    rcases tracks_ofLog nowMs entries cache key with hsame | ⟨hnone, -⟩
    · exact ⟨hsame ▸ hcontents, hvisible.2⟩
    · rw [hnone] at hcontents
      cases hcontents
  · rintro ⟨hstored, hfresh⟩
    exact ((tracks_ofLog nowMs entries cache).live_iff (Int64.le_refl nowMs)
      hfresh).mpr hstored

end View

end MiniKV
