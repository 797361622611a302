import MiniKV.Store.Runs

/-!
# Compaction writes a canonical file

Compaction keeps every unexpired value under its key and writes one Set record
for each, in ascending key order.  The file is therefore a function of what was
live, whatever history led there.
-/

namespace MiniKV

open AppendOnlyStore (recordBytes)

namespace View

/-- The unexpired contents of a view. -/
def live (nowMs : Int64) (view : View) : Ledger := fun key =>
  (view.contents key).filter fun stored => !isExpired stored.2 nowMs

theorem live_eq_some_iff {nowMs : Int64} {view : View} {key value : Bytes}
    {expiresAtMs : Int64} :
    view.live nowMs key = some (value, expiresAtMs) ↔
      view.contents key = some (value, expiresAtMs) ∧
        isExpired expiresAtMs nowMs = false := by
  rw [live, Option.filter_eq_some_iff, Bool.not_eq_true']

theorem live_congr {view later : View} (hcontents : later.contents = view.contents)
    (nowMs : Int64) : later.live nowMs = view.live nowMs := by
  funext key
  rw [live, live, hcontents]

end View

/-- One Set record for each key of the ledger, in ascending key order. -/
structure CanonicalRecords (ledger : Ledger) (records : List Record) :
    Prop where
  ascending : records.Pairwise fun left right => left.key < right.key
  exact : ∀ record, record ∈ records ↔ record.operation = .set ∧
    ledger record.key = some (record.value, record.expiresAtMs)

theorem CanonicalRecords.nodup {ledger : Ledger} {records : List Record}
    (hrecords : CanonicalRecords ledger records) : records.Nodup := by
  apply hrecords.ascending.imp
  rintro left right hlt rfl
  exact lt_irrefl _ hlt

/-- There is one canonical list only. -/
theorem CanonicalRecords.unique {ledger : Ledger} {left right : List Record}
    (hleft : CanonicalRecords ledger left)
    (hright : CanonicalRecords ledger right) : left = right := by
  have hperm : left.Perm right := by
    rw [List.perm_ext_iff_of_nodup hleft.nodup hright.nodup]
    intro record
    rw [hleft.exact, hright.exact]
  apply hperm.eq_of_pairwise ?_ hleft.ascending hright.ascending
  intro first second _ _ hlt hgt
  exact absurd (lt_trans hlt hgt) (lt_irrefl _)

/-- An entry as `writeRecord` writes it has the bytes of its record. -/
theorem image_of_reserved {entry : LogEntry} (hreserved : entry.reserved = 0) :
    entry.image = recordBytes entry.record := by
  have hentry : entry = .ofRecord entry.record entry.valid := by
    rw [LogEntry.ofRecord, ← hreserved]
  rw [hentry, LogEntry.image_ofRecord]
  rfl

namespace View.Canonical

variable {view : View} {entries : List LogEntry}

theorem records (hcanonical : view.Canonical entries) :
    CanonicalRecords view.contents (entries.map LogEntry.record) where
  ascending := by
    have hsorted := hcanonical.sorted
    rw [List.pairwise_map] at hsorted ⊢
    exact hsorted
  exact record := by
    rw [List.mem_map]
    constructor
    · rintro ⟨entry, hentry, rfl⟩
      exact ⟨(hcanonical.written entry hentry).1,
        (hcanonical.contents _ _ _).mp ⟨entry, hentry, rfl, rfl, rfl⟩⟩
    · rintro ⟨hset, hcontents⟩
      obtain ⟨entry, hentry, hkey, hvalue, hexpiresAtMs⟩ :=
        (hcanonical.contents _ _ _).mpr hcontents
      have hoperation := (hcanonical.written entry hentry).1.trans hset.symm
      refine ⟨entry, hentry, ?_⟩
      rw [Record.mk.injEq]
      exact ⟨hoperation, hkey, hvalue, hexpiresAtMs⟩

theorem imageAll_eq (hcanonical : view.Canonical entries) :
    logFormat.imageAll entries =
      (entries.map LogEntry.record).flatMap recordBytes := by
  rw [List.flatMap_map]
  exact List.flatMap_congr fun entry hentry =>
    image_of_reserved (hcanonical.written entry hentry).2

end View.Canonical

namespace KeyValueStore

variable {store after : KeyValueStore} {environment : Environment}

/-- A purge leaves what is live at its reading. -/
theorem contents_purgeExpired (environment : Environment)
    (store : KeyValueStore) :
    (store.purgeExpired environment).view.contents =
      store.view.live environment.nowMs := by
  funext key
  apply Option.ext
  rintro ⟨value, expiresAtMs⟩
  rw [View.live_eq_some_iff, View.contents_eq_some_iff,
    View.contents_eq_some_iff]
  constructor
  · rintro ⟨metadata, hfound, hvalue, rfl⟩
    obtain ⟨hold, hfresh⟩ :=
      (lookup_purgeExpired environment store key metadata).mp hfound
    exact ⟨⟨metadata, hold, hvalue, rfl⟩, hfresh⟩
  · rintro ⟨⟨metadata, hfound, hvalue, rfl⟩, hfresh⟩
    exact ⟨metadata,
      (lookup_purgeExpired environment store key metadata).mpr
        ⟨hfound, hfresh⟩, hvalue, rfl⟩

/-- What a compaction without I/O failure does. -/
structure CompactedAt (nowMs : Int64) (before after : KeyValueStore)
    (summary : CompactionSummary) : Prop where
  keys : ∀ key, (after.index.lookup key).isSome ↔ ∃ old,
    before.index.lookup key = some old ∧
      isExpired old.expiresAtMs nowMs = false
  values : ∀ key old new, before.index.lookup key = some old →
    after.index.lookup key = some new →
    new.expiresAtMs = old.expiresAtMs ∧ ∃ value,
      (before.storage.readValue {} {} old).2 = .ok value ∧
      (after.storage.readValue {} {} new).2 = .ok value
  file : ∃ records, CanonicalRecords (before.view.live nowMs) records ∧
    after.storage.bytes = records.flatMap recordBytes
  size : summary.newFileBytes = after.storage.bytes.length
  recovers : ∃ recovered state,
    after.storage.recover {} {} nowMs = (recovered, .ok state) ∧
      state.index = after.index

/-- On a coherent view the storage reads what the view shows. -/
theorem readValue_of_lookup (hcoherent : store.view.Coherent) {key : Bytes}
    {metadata : RecordMetadata}
    (hfound : store.index.lookup key = some metadata) :
    (store.storage.readValue {} {} metadata).2 =
      .ok (store.view.valueAt metadata) := by
  obtain ⟨entry, hpoints⟩ := hcoherent.points key metadata hfound
  have hstored : StoredAt store.storage.bytes metadata.recordOffset entry :=
    hpoints.stored
  rw [hpoints.valueAt_eq, hpoints.metadata_eq]
  rw [AppendOnlyStore.readValue_stored hstored]

/-- The canonical log behind a successful compaction. -/
theorem compact_canonical_log (hreliable : environment.Reliable)
    (hopened : store.opened = true) (hcoherent : store.view.Coherent) :
    ∃ after live oldFileBytes, store.compact environment =
        (after, .ok ⟨after.index.size, oldFileBytes, logSize live⟩) ∧
      (store.purgeExpired environment).view.Canonical live ∧
      (∀ entry ∈ live, entry.Visible environment.nowMs) ∧
      after.view = View.ofLog environment.nowMs live
        (store.purgeExpired environment).cache := by
  obtain ⟨summary, hsummary⟩ := compactSection_faultless hreliable.openAnswers
    hreliable.read hreliable.compact hcoherent
  have houtcome := compactSection_cases environment store
  rw [compact, if_pos hopened]
  generalize store.compactSection environment = result at hsummary houtcome ⊢
  obtain ⟨after, outcome⟩ := result
  dsimp only at hsummary houtcome
  cases houtcome with
  | failed => cases hsummary
  | lost => cases hsummary
  | compacted live hlive hvisible hview =>
      have hpurged := hcoherent.upkeep (upkeep_purgeExpired environment store)
      exact ⟨after, live, _, rfl,
        hlive.of_contents (View.contents_settled hpurged), hvisible, hview⟩

/-- Compaction of an open coherent store, without I/O failure. -/
theorem compact_of_coherent (hreliable : environment.Reliable)
    (hopened : store.opened = true) (hcoherent : store.view.Coherent) :
    ∃ after summary, store.compact environment = (after, .ok summary) ∧
      CompactedAt environment.nowMs store after summary ∧
      after.opened = true ∧ after.view.Coherent ∧
      after.view.contents = store.view.live environment.nowMs := by
  obtain ⟨after, live, oldFileBytes, hresult, hlive, hvisible, hview⟩ :=
    compact_canonical_log hreliable hopened hcoherent
  have hafter : after.view.Coherent := by
    rw [hview]
    exact View.coherent_ofLog _ _ _
  have hcontents : after.view.contents =
      store.view.live environment.nowMs := by
    rw [hview, hlive.contents_ofLog hvisible, contents_purgeExpired]
  have hbytes : after.storage.bytes = logFormat.imageAll live :=
    congrArg View.bytes hview
  have hshown : ∀ key value expiresAtMs,
      after.view.contents key = some (value, expiresAtMs) ↔
        store.view.contents key = some (value, expiresAtMs) ∧
          isExpired expiresAtMs environment.nowMs = false := by
    intro key value expiresAtMs
    rw [hcontents, View.live_eq_some_iff]
  refine ⟨after, _, hresult, ⟨?_, ?_, ?_, ?_, ?_⟩, ?_, hafter, hcontents⟩
  · intro key
    rw [Option.isSome_iff_exists]
    constructor
    · rintro ⟨new, hnew⟩
      obtain ⟨hcontents, hfresh⟩ :=
        (hshown key _ _).mp (View.contents_of_lookup hnew)
      obtain ⟨old, hold, -, hexpiresAtMs⟩ :=
        View.contents_eq_some_iff.mp hcontents
      exact ⟨old, hold, hexpiresAtMs ▸ hfresh⟩
    · rintro ⟨old, hold, hfresh⟩
      obtain ⟨new, hnew, -⟩ := View.contents_eq_some_iff.mp
        ((hshown key _ _).mpr ⟨View.contents_of_lookup hold, hfresh⟩)
      exact ⟨new, hnew⟩
  · intro key old new hold hnew
    have hsame : store.view.contents key =
        some (store.view.valueAt old, old.expiresAtMs) :=
      View.contents_of_lookup hold
    rw [((hshown key _ _).mp (View.contents_of_lookup hnew)).1,
      Option.some_inj, Prod.mk.injEq] at hsame
    refine ⟨hsame.2, _, readValue_of_lookup hcoherent hold, ?_⟩
    rw [readValue_of_lookup hafter hnew, hsame.1]
  · have hrecords := hlive.records
    rw [contents_purgeExpired] at hrecords
    exact ⟨_, hrecords, hbytes.trans hlive.imageAll_eq⟩
  · rw [hbytes, length_imageAll]
  · have hlog : LogWithTail live [] after.storage.bytes :=
      ⟨by rw [hbytes, List.append_nil], unfinishedTail_nil⟩
    refine ⟨_, _, AppendOnlyStore.recover_of_logWithTail hlog _, ?_⟩
    exact (congrArg View.index hview).symm
  · have hstays := opened_compact environment store
    rw [hresult] at hstays
    exact hstays.trans hopened

/-- The file behind a compaction is a function of what was live. -/
theorem bytes_compact_eq {other : KeyValueStore}
    {otherEnvironment : Environment} (hreliable : environment.Reliable)
    (hother : otherEnvironment.Reliable) (hopened : store.opened = true)
    (hotherOpened : other.opened = true) (hcoherent : store.view.Coherent)
    (hotherCoherent : other.view.Coherent)
    (hlive : other.view.live otherEnvironment.nowMs =
      store.view.live environment.nowMs) :
    (other.compact otherEnvironment).1.storage.bytes =
      (store.compact environment).1.storage.bytes := by
  obtain ⟨after, summary, hresult, hcompacted, -⟩ :=
    compact_of_coherent hreliable hopened hcoherent
  obtain ⟨otherAfter, otherSummary, hotherResult, hotherCompacted, -⟩ :=
    compact_of_coherent hother hotherOpened hotherCoherent
  obtain ⟨records, hrecords, hbytes⟩ := hcompacted.file
  obtain ⟨otherRecords, hotherRecords, hotherBytes⟩ := hotherCompacted.file
  rw [hlive] at hotherRecords
  rw [hresult, hotherResult, hbytes, hotherBytes,
    hotherRecords.unique hrecords]

/-- Compaction without I/O failure, from any reachable state at any clock
reading. -/
theorem compact_writes_canonical_file (hreachable : Reachable store)
    (hopened : store.opened = true) (hreliable : environment.Reliable) :
    ∃ after summary, store.compact environment = (after, .ok summary) ∧
      CompactedAt environment.nowMs store after summary ∧
      (∀ other otherEnvironment, Reachable other → other.opened = true →
        otherEnvironment.Reliable →
        otherEnvironment.nowMs = environment.nowMs →
        other.view.live environment.nowMs =
          store.view.live environment.nowMs →
        (other.compact otherEnvironment).1.storage.bytes =
          after.storage.bytes) ∧
      ∀ later : Environment, later.Reliable →
        (∀ key metadata, after.index.lookup key = some metadata →
          isExpired metadata.expiresAtMs later.nowMs = false) →
        (after.compact later).1.storage.bytes = after.storage.bytes := by
  have hcoherent := coherent_of_reachable hreachable
  obtain ⟨after, summary, hresult, hcompacted, hafterOpened, hafter,
    hcontents⟩ := compact_of_coherent hreliable hopened hcoherent
  have hbytes : (store.compact environment).1.storage.bytes =
      after.storage.bytes := by
    rw [hresult]
  refine ⟨after, summary, hresult, hcompacted, ?_, ?_⟩
  · intro other otherEnvironment hother hotherOpened hotherReliable hclock hlive
    rw [← hbytes]
    apply bytes_compact_eq hreliable hotherReliable hopened hotherOpened
      hcoherent (coherent_of_reachable hother)
    rw [hclock, hlive]
  · intro later hlater hfresh
    have hlive : after.view.live later.nowMs =
        store.view.live environment.nowMs := by
      rw [← hcontents]
      funext key
      apply Option.ext
      rintro ⟨value, expiresAtMs⟩
      rw [View.live_eq_some_iff, and_iff_left_iff_imp]
      intro hstored
      obtain ⟨metadata, hfound, -, rfl⟩ :=
        View.contents_eq_some_iff.mp hstored
      exact hfresh key metadata hfound
    rw [← hbytes]
    exact bytes_compact_eq hreliable hlater hopened hafterOpened hcoherent
      hafter hlive

/-- Overwriting one key and setting another, compacted once the second has
expired. -/
theorem compact_writes_canonical_file_of_two_keys :
    let requests : List Request :=
      [⟨.calm 1, .openStore⟩, ⟨.calm 2, .set [97] [98] none⟩,
        ⟨.calm 3, .set [97] [99] none⟩, ⟨.calm 4, .set [98] [] (some 2)⟩]
    let store := (machine.run requests (new .small none none)).1
    ∃ after summary, store.compact (.calm 9) = (after, .ok summary) ∧
      CompactedAt 9 store after summary := by
  intro requests store
  have hcalm := fun nowMs => (Environment.faultless_calm nowMs).toReliable
  have hsound : ∀ request ∈ requests, ∀ before, Sound request before := by
    simp only [requests, List.forall_mem_cons]
    refine ⟨fun _ => ⟨fun _ => hcalm 1, ?_⟩, fun _ => ⟨fun _ => hcalm 2, ?_⟩,
      fun _ => ⟨fun _ => hcalm 3, ?_⟩, fun _ => ⟨fun _ => hcalm 4, ?_⟩,
      by simp⟩ <;> exact fun hloses => by cases hloses.1
  have hreachable : Reachable store :=
    ⟨.small, none, none, requests, .of_forall hsound _, rfl⟩
  obtain ⟨after, summary, hresult, hcompacted, -⟩ :=
    compact_writes_canonical_file hreachable (by decide +kernel) (hcalm 9)
  exact ⟨after, summary, hresult, hcompacted⟩

end KeyValueStore

end MiniKV
