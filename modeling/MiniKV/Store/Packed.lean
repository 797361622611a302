import MiniKV.Library.Packing
import MiniKV.Store.Compaction

/-!
# Compaction never grows the file

Different keys point to records that do not overlap, through every append,
however it fails, every recovery and every compaction.  The live records
therefore fit into the old file, and they fill it only when it is made of them.
-/

namespace MiniKV

open AppendOnlyStore (recordBytes)

/-- The end of the record that an index entry points to. -/
def RecordMetadata.recordEnd (metadata : RecordMetadata) : ℕ :=
  metadata.valueOffset + metadata.valueSize.toNat

theorem LogEntry.recordEnd_metadata (entry : LogEntry) (offset : ℕ) :
    (entry.metadata offset).recordEnd = offset + entry.size := by
  rw [RecordMetadata.recordEnd, entry.toNat_valueSize offset, LogEntry.size]
  change offset + kRecordHeaderSize + entry.record.key.length + _ = _
  omega

/-- One Set record for each key of the ledger, in any order. -/
structure RecordsOf (ledger : Ledger) (records : List Record) : Prop where
  distinct : records.Pairwise fun left right => left.key ≠ right.key
  exact : ∀ record, record ∈ records ↔ record.operation = .set ∧
    ledger record.key = some (record.value, record.expiresAtMs)

namespace RecordsOf

variable {ledger : Ledger} {records others : List Record}

theorem nodup (hrecords : RecordsOf ledger records) : records.Nodup :=
  hrecords.distinct.imp fun hne heq => hne (congrArg Record.key heq)

/-- There is one such list, up to its order. -/
theorem perm (hrecords : RecordsOf ledger records)
    (hothers : RecordsOf ledger others) : records.Perm others := by
  rw [List.perm_ext_iff_of_nodup hrecords.nodup hothers.nodup]
  intro record
  rw [hrecords.exact, hothers.exact]

theorem of_perm (hrecords : RecordsOf ledger records)
    (hperm : others.Perm records) : RecordsOf ledger others where
  distinct := hperm.symm.pairwise hrecords.distinct fun hne => hne.symm
  exact record := by rw [hperm.mem_iff, hrecords.exact]

end RecordsOf

theorem CanonicalRecords.recordsOf {ledger : Ledger} {records : List Record}
    (hrecords : CanonicalRecords ledger records) :
    RecordsOf ledger records where
  distinct := hrecords.ascending.imp fun hlt heq => by
    rw [heq] at hlt
    exact lt_irrefl _ hlt
  exact := hrecords.exact

/-- The length of a log depends on its records only, not on their order. -/
theorem logSize_of_perm {left right : List LogEntry}
    (hperm : (left.map LogEntry.record).Perm (right.map LogEntry.record)) :
    logSize left = logSize right := by
  let size : Record → ℕ := fun record =>
    kRecordHeaderSize + (record.key.length + record.value.length)
  have hsize : ∀ entries, logSize entries =
      ((entries.map LogEntry.record).map size).sum := by
    intro entries
    rw [List.map_map]
    rfl
  rw [hsize, hsize]
  exact (hperm.map size).sum_eq

namespace View

/-- Coherent, and different keys point to records that do not overlap. -/
structure Packed (view : View) : Prop extends view.Coherent where
  apart : ∀ left right leftMetadata rightMetadata, left ≠ right →
    view.index.lookup left = some leftMetadata →
    view.index.lookup right = some rightMetadata →
    leftMetadata.recordEnd ≤ rightMetadata.recordOffset ∨
      rightMetadata.recordEnd ≤ leftMetadata.recordOffset

variable {view later : View} {key : Bytes} {metadata : RecordMetadata}
variable {entry : LogEntry}

theorem PointsTo.recordEnd_eq (hpoints : view.PointsTo key metadata entry) :
    metadata.recordEnd = metadata.recordOffset + entry.size := by
  rw [hpoints.metadata_eq, entry.recordEnd_metadata]
  rfl

theorem PointsTo.recordEnd_le (hpoints : view.PointsTo key metadata entry) :
    metadata.recordEnd ≤ view.bytes.length := by
  rw [hpoints.recordEnd_eq]
  exact hpoints.stored.end_le

theorem PointsTo.record_eq (hpoints : view.PointsTo key metadata entry) :
    entry.record =
      ⟨.set, key, view.valueAt metadata, metadata.expiresAtMs⟩ := by
  have hexpiresAtMs := congrArg RecordMetadata.expiresAtMs hpoints.metadata_eq
  rw [hpoints.valueAt_eq, hexpiresAtMs, ← hpoints.operation_eq,
    ← hpoints.key_eq]
  rfl

/-- The records of a log stand one behind the other. -/
theorem apart_of_split {entries earlier others : List LogEntry}
    {left right : LogEntry} (hne : left.record.key ≠ right.record.key)
    (hleft : ∃ following, entries = earlier ++ left :: following)
    (hright : ∃ following, entries = others ++ right :: following) :
    logSize earlier + left.size ≤ logSize others ∨
      logSize others + right.size ≤ logSize earlier := by
  obtain ⟨following, hleft⟩ := hleft
  obtain ⟨behind, hright⟩ := hright
  rw [hleft, List.append_eq_append_iff] at hright
  rcases hright with ⟨between, hothers, hfollowing⟩ |
    ⟨between, hearlier, hfollowing⟩
  · cases between with
    | nil =>
        cases hfollowing
        exact absurd rfl hne
    | cons first between =>
        cases hfollowing
        rw [hothers, logSize_append, logSize_cons]
        exact Or.inl (by omega)
  · cases between with
    | nil =>
        cases hfollowing
        exact absurd rfl hne
    | cons first between =>
        cases hfollowing
        rw [hearlier, logSize_append, logSize_cons]
        exact Or.inr (by omega)

theorem packed_ofLog (nowMs : Int64) (entries : List LogEntry)
    (cache : LruCache Bytes Bytes) : (ofLog nowMs entries cache).Packed where
  toCoherent := coherent_ofLog nowMs entries cache
  apart left right leftMetadata rightMetadata hne hleft hright := by
    obtain ⟨earlier, leftEntry, hleftLast, -, rfl⟩ := lookup_ofLog.mp hleft
    obtain ⟨others, rightEntry, hrightLast, -, rfl⟩ := lookup_ofLog.mp hright
    rw [leftEntry.recordEnd_metadata, rightEntry.recordEnd_metadata]
    obtain ⟨rfl, following, hleftSplit, -⟩ := hleftLast
    obtain ⟨rfl, behind, hrightSplit, -⟩ := hrightLast
    exact apart_of_split hne ⟨following, hleftSplit⟩ ⟨behind, hrightSplit⟩

namespace Packed

/-- A coherent view whose index entries are all old ones. -/
theorem restrict (hpacked : view.Packed) (hcoherent : later.Coherent)
    (hindex : ∀ key metadata, later.index.lookup key = some metadata →
      view.index.lookup key = some metadata) : later.Packed where
  toCoherent := hcoherent
  apart left right leftMetadata rightMetadata hne hleft hright :=
    hpacked.apart left right leftMetadata rightMetadata hne
      (hindex left leftMetadata hleft) (hindex right rightMetadata hright)

theorem upkeep (hpacked : view.Packed) {nowMs : Int64}
    (hupkeep : Upkeep nowMs view later) : later.Packed := by
  have hcoherent := hpacked.toCoherent.upkeep hupkeep
  cases hupkeep with
  | drained hdrained =>
      apply hpacked.restrict hcoherent
      rw [hdrained.index_eq]
      exact fun _ _ hfound => hfound
  | touched key => exact hpacked.restrict hcoherent fun _ _ hfound => hfound
  | filled key metadata hfound =>
      exact hpacked.restrict hcoherent fun _ _ hfound => hfound
  | dropped key metadata hfound hexpired =>
      apply hpacked.restrict hcoherent
      intro other otherMetadata hother
      change (view.index.erase key).lookup other = _ at hother
      rw [FiniteMap.lookup_erase] at hother
      split at hother
      · cases hother
      · exact hother
  | purged keys hkeys =>
      apply hpacked.restrict hcoherent
      intro other otherMetadata hother
      change (view.index.filter _).lookup other = _ at hother
      rw [FiniteMap.lookup_filter, Option.filter_eq_some_iff] at hother
      exact hother.1
  | compacted live hlive hvisible => exact packed_ofLog nowMs live _

/-- The new record stands behind all others. -/
theorem afterSet (hpacked : view.Packed) {record : Record}
    (hvalid : record.Valid) (hoperation : record.operation = .set) :
    (view.afterSet record hvalid).Packed where
  toCoherent := hpacked.toCoherent.afterSet hvalid hoperation
  apart left right leftMetadata rightMetadata hne hleft hright := by
    have hbehind : ∀ key metadata, view.index.lookup key = some metadata →
        metadata.recordEnd ≤ view.bytes.length := by
      intro key metadata hfound
      obtain ⟨entry, hpoints⟩ := hpacked.points key metadata hfound
      exact hpoints.recordEnd_le
    change (view.index.insert _ _).lookup left = _ at hleft
    change (view.index.insert _ _).lookup right = _ at hright
    rw [FiniteMap.lookup_insert] at hleft hright
    split at hleft
    next hleftKey =>
      split at hright
      next hrightKey => exact absurd (hleftKey.trans hrightKey.symm) hne
      next hrightKey =>
        cases hleft
        exact Or.inr (hbehind right rightMetadata hright)
    next hleftKey =>
      split at hright
      next hrightKey =>
        cases hright
        exact Or.inl (hbehind left leftMetadata hleft)
      next hrightKey =>
        exact hpacked.apart left right leftMetadata rightMetadata hne hleft
          hright

theorem effect (hpacked : view.Packed) {nowMs : Int64} {lossy : Prop}
    (heffect : Effect nowMs lossy view later) : later.Packed := by
  cases heffect with
  | upkeep hupkeep => exact hpacked.upkeep hupkeep
  | stray hlossy rest held =>
      exact hpacked.restrict (hpacked.toCoherent.stray rest held)
        fun _ _ hfound => hfound
  | set record hvalid hoperation => exact hpacked.afterSet hvalid hoperation
  | removed record hvalid hoperation =>
      apply hpacked.restrict (hpacked.toCoherent.afterRemove record)
      intro other otherMetadata hother
      change (view.index.erase record.key).lookup other = _ at hother
      rw [FiniteMap.lookup_erase] at hother
      split at hother
      · cases hother
      · exact hother
  | recovered entries tail held hlog hheld =>
      have hlogged := packed_ofLog nowMs entries view.cache
      exact hlogged.restrict (hlogged.toCoherent.held held)
        fun _ _ hfound => hfound

theorem effects (hpacked : view.Packed) {nowMs : Int64} {lossy : Prop}
    (heffects : Effects nowMs lossy view later) : later.Packed := by
  induction heffects with
  | refl => exact hpacked
  | tail _ hlast ih => exact ih.effect hlast

/-- The records in the file that hold what the view shows. -/
theorem exists_items (hpacked : view.Packed) {records : List Record}
    (hshown : ∀ record ∈ records, view.liveRecord record.key = some record) :
    ∃ items : List (ℕ × LogEntry),
      items.map (fun item => item.2.record) = records ∧
      ∀ item ∈ items, ∃ metadata,
        view.index.lookup item.2.record.key = some metadata ∧
        view.PointsTo item.2.record.key metadata item.2 ∧
        item.1 = metadata.recordOffset := by
  induction records with
  | nil => exact ⟨[], rfl, by simp⟩
  | cons record records ih =>
      rw [List.forall_mem_cons] at hshown
      obtain ⟨items, hrecords, hitems⟩ := ih hshown.2
      obtain ⟨hoperation, -, hcontents⟩ :=
        View.liveRecord_eq_some_iff.mp hshown.1
      obtain ⟨metadata, hfound, hvalue, hexpiresAtMs⟩ :=
        contents_eq_some_iff.mp hcontents
      obtain ⟨entry, hpoints⟩ := hpacked.points record.key metadata hfound
      have hrecord : entry.record = record := by
        rw [hpoints.record_eq, hvalue, hexpiresAtMs, ← hoperation]
      refine ⟨(metadata.recordOffset, entry) :: items, ?_, ?_⟩
      · rw [List.map_cons, hrecord, hrecords]
      · rw [List.forall_mem_cons]
        rw [← hrecord] at hfound hpoints
        exact ⟨⟨metadata, hfound, hpoints, rfl⟩, hitems⟩

/-- The live records stand side by side in the file. -/
theorem exists_placed (hpacked : view.Packed) {records : List Record}
    (hrecords : RecordsOf view.contents records) :
    ∃ items : List (ℕ × LogEntry),
      items.map (fun item => item.2.record) = records ∧
      Packing.Placed Prod.fst (fun item => item.2.image) view.bytes items := by
  have hshown : ∀ record ∈ records,
      view.liveRecord record.key = some record := by
    intro record hrecord
    rw [View.liveRecord_eq_some_iff]
    obtain ⟨hoperation, hcontents⟩ := (hrecords.exact record).mp hrecord
    exact ⟨hoperation, rfl, hcontents⟩
  obtain ⟨items, hmap, hitems⟩ := hpacked.exists_items hshown
  have hdistinct := hrecords.distinct
  rw [← hmap, List.pairwise_map] at hdistinct
  refine ⟨items, hmap, ?_, ?_, ?_⟩
  · intro item hitem
    obtain ⟨metadata, -, hpoints, hoffset⟩ := hitems item hitem
    rw [hoffset]
    exact hpoints.stored
  · intro item _ hnil
    have hpositive : 0 < item.2.image.length :=
      logFormat.length_image_pos item.2
    rw [hnil] at hpositive
    exact lt_irrefl _ hpositive
  · apply hdistinct.imp_of_mem
    intro left right hleft hright hne
    obtain ⟨leftMetadata, hleftFound, hleftPoints, hleftOffset⟩ :=
      hitems left hleft
    obtain ⟨rightMetadata, hrightFound, hrightPoints, hrightOffset⟩ :=
      hitems right hright
    have hapart := hpacked.apart _ _ leftMetadata rightMetadata hne hleftFound
      hrightFound
    rw [hleftPoints.recordEnd_eq, hrightPoints.recordEnd_eq, ← hleftOffset,
      ← hrightOffset] at hapart
    rw [Packing.Apart, LogEntry.length_image, LogEntry.length_image]
    exact hapart

theorem sum_length_items (items : List (ℕ × LogEntry)) :
    (items.map fun item => item.2.image.length).sum =
      logSize (items.map Prod.snd) := by
  rw [logSize, List.map_map]
  congr 1
  exact List.map_congr_left fun item _ => item.2.length_image

/-- A log of the live records is no longer than the file. -/
theorem logSize_le (hpacked : view.Packed) {live : List LogEntry}
    (hlive : RecordsOf view.contents (live.map LogEntry.record)) :
    logSize live ≤ view.bytes.length := by
  obtain ⟨items, hmap, hplaced⟩ := hpacked.exists_placed hlive
  have hperm : ((items.map Prod.snd).map LogEntry.record).Perm
      (live.map LogEntry.record) := by
    rw [List.map_map]
    exact .of_eq hmap
  calc logSize live
      = logSize (items.map Prod.snd) := (logSize_of_perm hperm).symm
    _ = (items.map fun item => item.2.image.length).sum :=
        (sum_length_items items).symm
    _ ≤ view.bytes.length := hplaced.sum_length_le

/-- A log of the live records is as long as the file when the file is made of
them. -/
theorem logSize_eq_iff (hpacked : view.Packed) {live : List LogEntry}
    (hlive : RecordsOf view.contents (live.map LogEntry.record)) :
    logSize live = view.bytes.length ↔
      ∃ entries, view.bytes = logFormat.imageAll entries ∧
        RecordsOf view.contents (entries.map LogEntry.record) := by
  constructor
  · intro hsize
    obtain ⟨items, hmap, hplaced⟩ := hpacked.exists_placed hlive
    have hperm : ((items.map Prod.snd).map LogEntry.record).Perm
        (live.map LogEntry.record) := by
      rw [List.map_map]
      exact .of_eq hmap
    have hfull : view.bytes.length ≤
        (items.map fun item => item.2.image.length).sum := by
      rw [sum_length_items, logSize_of_perm hperm, hsize]
    obtain ⟨sorted, hsorted, hbytes⟩ := hplaced.eq_flatten hfull
    refine ⟨sorted.map Prod.snd, ?_, ?_⟩
    · rw [hbytes, FrameFormat.imageAll, List.flatMap_map]
      rfl
    · apply hlive.of_perm
      exact ((hsorted.map Prod.snd).map LogEntry.record).trans hperm
  · rintro ⟨entries, hbytes, hentries⟩
    rw [hbytes, length_imageAll]
    exact logSize_of_perm (hlive.perm hentries)

end Packed

end View

namespace KeyValueStore

variable {store after : KeyValueStore} {environment : Environment}

/-- Being packed is an invariant. -/
theorem packed_of_reachable (hreachable : Reachable store) :
    store.view.Packed := by
  obtain ⟨config, data, temporary, requests, halong, rfl⟩ := hreachable
  have hstart : (new config data temporary).view.Packed :=
    ⟨coherent_new config data temporary, fun _ _ _ _ _ hfound => by cases hfound⟩
  have hstep : ∀ request before, before.view.Packed → Sound request before →
      (machine.step request before).1.view.Packed :=
    fun _ _ hpacked hsound =>
      hpacked.effects (effects_perform hsound.opening hsound.keeps)
  exact Machine.run_invariant hstep halong hstart

/-- The data file is one record for each key live at the reading, in any order,
and nothing else. -/
def MadeOfLive (nowMs : Int64) (store : KeyValueStore) : Prop :=
  ∃ entries, store.storage.bytes = logFormat.imageAll entries ∧
    RecordsOf (store.view.live nowMs) (entries.map LogEntry.record)

/-- The file is made of the live records, and the rereads will write what the
put area holds. -/
structure HidesRecord (nowMs : Int64) (store : KeyValueStore) : Prop where
  held : store.storage.pending ≠ []
  live : ∃ key, store.view.live nowMs key ≠ none
  made : store.MadeOfLive nowMs

/-- The new size is not above the old one, and it is the old one only when the
file was one record for each live key. -/
structure NeverGrows (nowMs : Int64) (store : KeyValueStore)
    (summary : CompactionSummary) : Prop where
  le : summary.newFileBytes ≤ summary.oldFileBytes
  eq_iff : summary.newFileBytes = summary.oldFileBytes ↔
    store.MadeOfLive nowMs

/-- The purge empties the index where nothing is live. -/
theorem size_purgeExpired_eq_zero_iff (environment : Environment)
    (store : KeyValueStore) :
    (store.purgeExpired environment).index.size = 0 ↔
      ∀ key, store.view.live environment.nowMs key = none := by
  rw [FiniteMap.size_eq_zero_iff, ← contents_purgeExpired]
  exact forall_congr' fun key => by
    rw [View.contents_eq_none_iff]
    rfl

/-- What a successful compaction writes and reports. -/
theorem compact_ok (hcoherent : store.view.Coherent)
    {summary : CompactionSummary}
    (hcompact : store.compact environment = (after, .ok summary)) :
    ∃ live, after.storage.bytes = logFormat.imageAll live ∧
      RecordsOf (store.view.live environment.nowMs)
        (live.map LogEntry.record) ∧
      summary.oldFileBytes = (store.purgeExpired environment).rereadLength ∧
      summary.newFileBytes = logSize live := by
  have hpurged := hcoherent.upkeep (upkeep_purgeExpired environment store)
  rw [compact] at hcompact
  split at hcompact
  next hopened =>
    have houtcome := compactSection_cases environment store
    rw [hcompact] at houtcome
    dsimp only at houtcome
    cases houtcome with
    | compacted live hlive hvisible hview =>
        have hrecords := hlive.records.recordsOf
        rw [View.contents_settled hpurged, contents_purgeExpired] at hrecords
        exact ⟨live, congrArg View.bytes hview, hrecords, rfl, rfl⟩
  · cases hcompact

/-- A file that a compaction writes once more is made of what is live. -/
theorem madeOfLive_of_compact (hcoherent : store.view.Coherent)
    {summary : CompactionSummary}
    (hcompact : store.compact environment = (after, .ok summary))
    (hsame : after.storage.bytes = store.storage.bytes) :
    store.MadeOfLive environment.nowMs := by
  obtain ⟨live, hbytes, hrecords, -⟩ := compact_ok hcoherent hcompact
  exact ⟨live, hsame ▸ hbytes, hrecords⟩

/-- A successful compaction of any reachable store, at any clock reading,
reports a new size that is not above the old one.  It is the old one exactly
when the file at the call was one record for each live key, unless the put area
adds to such a file. -/
theorem compaction_never_grows_iff (hreachable : Reachable store)
    {summary : CompactionSummary}
    (hcompact : store.compact environment = (after, .ok summary)) :
    summary.newFileBytes = after.storage.bytes.length ∧
      summary.newFileBytes ≤ summary.oldFileBytes ∧
      (store.NeverGrows environment.nowMs summary ↔
        ¬ store.HidesRecord environment.nowMs) := by
  have hpacked : (store.purgeExpired environment).view.Packed :=
    (packed_of_reachable hreachable).upkeep
      (upkeep_purgeExpired environment store)
  have hcoherent := coherent_of_reachable hreachable
  obtain ⟨live, hbytes, hrecords, hreread, hnew⟩ :=
    compact_ok hcoherent hcompact
  rw [← contents_purgeExpired] at hrecords
  have hle : logSize live ≤ store.storage.bytes.length :=
    hpacked.logSize_le hrecords
  have hmade : logSize live = store.storage.bytes.length ↔
      store.MadeOfLive environment.nowMs := by
    rw [MadeOfLive, ← contents_purgeExpired]
    exact hpacked.logSize_eq_iff hrecords
  refine ⟨by rw [hnew, hbytes, length_imageAll], ?_⟩
  by_cases hwrites : store.storage.pending ≠ [] ∧
      ∃ key, store.view.live environment.nowMs key ≠ none
  · -- The rereads write the put area before the old size is measured.
    have hold : (store.purgeExpired environment).rereadLength =
        store.storage.bytes.length + store.storage.pending.length := by
      rw [rereadLength, if_neg]
      · rfl
      · rw [size_purgeExpired_eq_zero_iff, not_forall]
        exact hwrites.2
    have hpositive := List.length_pos_of_ne_nil hwrites.1
    have hlt : summary.newFileBytes < summary.oldFileBytes := by omega
    refine ⟨hlt.le, fun hgrows hhides => ?_, fun hhides => ⟨hlt.le, ?_⟩⟩
    · exact absurd (hgrows.eq_iff.mpr hhides.made) hlt.ne
    · exact iff_of_false hlt.ne fun hfile =>
        hhides ⟨hwrites.1, hwrites.2, hfile⟩
  · have hold : (store.purgeExpired environment).rereadLength =
        store.storage.bytes.length := by
      rw [rereadLength]
      split
      · rfl
      next hsome =>
        rw [size_purgeExpired_eq_zero_iff, not_forall] at hsome
        have hpending : store.storage.pending = [] :=
          not_not.mp fun hheld => hwrites ⟨hheld, hsome⟩
        change store.storage.bytes.length +
          store.storage.pending.length = _
        rw [hpending]
        rfl
    have hsizes : summary.newFileBytes ≤ summary.oldFileBytes := by omega
    refine ⟨hsizes, fun _ hhides => hwrites ⟨hhides.held, hhides.live⟩,
      fun _ => ⟨hsizes, ?_⟩⟩
    rw [hnew, hreread, hold]
    exact hmade

/-- Setting a key twice, with five stray bytes in between. -/
theorem compaction_never_grows_behind_torn_set :
    let requests : List Request :=
      [⟨.calm 1, .openStore⟩, ⟨.calm 2, .set [97] [98] none⟩,
        ⟨{ nowMs := 3, append := { write := some ⟨5, 0⟩ } },
          .set [97] [99] none⟩,
        ⟨.calm 4, .set [97] [99] none⟩]
    let store := (machine.run requests (new .small none none)).1
    ∃ after, store.compact (.calm 5) = (after, .ok ⟨1, 65, 30⟩) ∧
      after.storage.bytes.length = 30 ∧
      store.NeverGrows 5 ⟨1, 65, 30⟩ := by
  intro requests store
  have hreachable : Reachable store := by
    apply reachable_run
    simp only [requests, List.forall_mem_cons]
    have hcalm := fun nowMs => (Environment.faultless_calm nowMs).toReliable
    exact ⟨hcalm 1, hcalm 2, ⟨rfl, rfl, fun _ => rfl, rfl, rfl⟩, hcalm 4,
      by simp⟩
  have hcompact : store.compact (.calm 5) =
      ((store.compact (.calm 5)).1, .ok ⟨1, 65, 30⟩) :=
    Prod.ext rfl (by decide +kernel)
  obtain ⟨hnew, -, hgrows⟩ := compaction_never_grows_iff hreachable hcompact
  have hpending : store.storage.pending = [] := by decide +kernel
  exact ⟨_, hcompact, hnew.symm, hgrows.mpr fun hhides => hhides.held hpending⟩

/-- Of a file that is one record for its one live key a compaction makes the
same file, and reports that it has shrunk from 60 to 30 bytes: its first read
has written the record of a failed `set`. -/
theorem compaction_shrinks_exact_file :
    let requests : List Request :=
      [⟨.calm 1, .openStore⟩, ⟨.calm 2, .set [97] [98] none⟩,
        ⟨{ nowMs := 3, append := { flush := some ⟨0, 30⟩ } },
          .set [99] [100] none⟩]
    let store := (machine.run requests (new .small none none)).1
    let compacted := store.compact (.calm 4)
    Reachable store ∧ compacted.2 = .ok ⟨1, 60, 30⟩ ∧
      compacted.1.storage.bytes = store.storage.bytes ∧
      ¬ store.NeverGrows 4 ⟨1, 60, 30⟩ := by
  intro requests store compacted
  have hreachable : Reachable store := by
    apply reachable_run
    simp only [requests, List.forall_mem_cons]
    have hcalm := fun nowMs => (Environment.faultless_calm nowMs).toReliable
    exact ⟨hcalm 1, hcalm 2, ⟨rfl, rfl, fun _ => rfl, rfl, rfl⟩, by simp⟩
  have hcompact : store.compact (.calm 4) = (compacted.1, .ok ⟨1, 60, 30⟩) :=
    Prod.ext rfl (by decide +kernel)
  have hsame : compacted.1.storage.bytes = store.storage.bytes := by
    decide +kernel
  refine ⟨hreachable, congrArg Prod.snd hcompact, hsame, fun hgrows => ?_⟩
  have hmade :=
    madeOfLive_of_compact (coherent_of_reachable hreachable) hcompact hsame
  exact absurd (hgrows.eq_iff.mpr hmade) (by decide)

end KeyValueStore

end MiniKV
