import MiniKV.Library.HashChain
import MiniKV.Store.Compaction

/-!
# A value damaged from outside

Only `recover` verifies checksums.  `compact` rereads the values through the
index and encodes them with a fresh checksum, so that a value byte that changed
behind the store's back comes out of a successful compaction as a valid record.
-/

namespace MiniKV

open HashChain

/-- The read finds its place and delivers so many bytes. -/
structure ReadAnswers.Delivers (answers : ReadAnswers) (count : ℕ) : Prop where
  seek : answers.seek = true
  enough : ∀ most, answers.short = some most → count ≤ most

/-- An index entry of the sizes that a record has, inside a file of this
length. -/
structure RecordMetadata.Fits (length : ℕ) (key : Bytes)
    (metadata : RecordMetadata) : Prop where
  key_ne_nil : key ≠ []
  key_size : key.length ≤ kMaximumKeySize
  value_size : metadata.valueSize.toNat ≤ kMaximumValueSize
  value_end : metadata.valueOffset + metadata.valueSize.toNat ≤ length

/-- A longer file has room for what fits into a shorter one. -/
theorem RecordMetadata.Fits.mono {length longer : ℕ} {key : Bytes}
    {metadata : RecordMetadata} (hfits : metadata.Fits length key)
    (hle : length ≤ longer) : metadata.Fits longer key where
  key_ne_nil := hfits.key_ne_nil
  key_size := hfits.key_size
  value_size := hfits.value_size
  value_end := hfits.value_end.trans hle

/-- A file position inside the value region of an index entry. -/
def RecordMetadata.InValue (metadata : RecordMetadata) (position : ℕ) : Prop :=
  metadata.valueOffset ≤ position ∧
    position < metadata.valueOffset + metadata.valueSize.toNat

theorem getElem?_slice {file : Bytes} {offset length position : ℕ}
    (hfirst : offset ≤ position) (hlast : position < offset + length) :
    (slice file offset length)[position - offset]? = file[position]? := by
  rw [slice, List.getElem?_take_of_lt (by omega), List.getElem?_drop,
    Nat.add_sub_cancel' hfirst]

/-- A changed byte changes the region around it. -/
theorem slice_ne_of_differsAt {file damaged : Bytes}
    {position offset length : ℕ} (hdiffers : DiffersAt position file damaged)
    (hfirst : offset ≤ position) (hlast : position < offset + length) :
    slice damaged offset length ≠ slice file offset length := by
  obtain ⟨hinside, byte, hbyte, rfl⟩ := hdiffers
  intro hslices
  have hbytes : (file.set position byte)[position]? = file[position]? := by
    rw [← getElem?_slice hfirst hlast, hslices, getElem?_slice hfirst hlast]
  rw [List.getElem?_set_self hinside, List.getElem?_eq_getElem hinside]
    at hbytes
  exact hbyte (Option.some.inj hbytes)

/-- Bytes behind the file do not change a region inside it. -/
theorem slice_append_of_le {file : Bytes} {offset length : ℕ}
    (hend : offset + length ≤ file.length) (rest : Bytes) :
    slice (file ++ rest) offset length = slice file offset length := by
  rw [slice, slice, List.drop_append_of_le_length (by omega),
    List.take_append_of_le_length (by rw [List.length_drop]; omega)]

theorem View.PointsTo.fits {view : View} {key : Bytes}
    {metadata : RecordMetadata} {entry : LogEntry}
    (hpoints : view.PointsTo key metadata entry) :
    metadata.Fits view.bytes.length key where
  key_ne_nil := hpoints.key_eq ▸ entry.valid.key_ne_nil
  key_size := hpoints.key_eq ▸ entry.valid.key_size
  value_size := by
    rw [hpoints.metadata_eq, entry.toNat_valueSize]
    exact entry.valid.value_size
  value_end := by
    have hend := hpoints.stored.value_end_le
    rwa [← hpoints.metadata_eq] at hend

/-- A view whose index entries all fit into its file. -/
def View.Fits (view : View) : Prop :=
  ∀ key metadata, view.index.lookup key = some metadata →
    metadata.Fits view.bytes.length key

theorem View.Coherent.fits {view : View} (hcoherent : view.Coherent) :
    view.Fits := by
  intro key metadata hfound
  obtain ⟨entry, hpoints⟩ := hcoherent.points key metadata hfound
  exact hpoints.fits

theorem View.Fits.settled {view : View} (hfits : view.Fits) :
    view.settled.Fits := by
  intro key metadata hfound
  rw [View.settled, List.length_append]
  exact (hfits key metadata hfound).mono (Nat.le_add_right _ _)

/-- What fits into the file reads the same behind the put area. -/
theorem View.Fits.contents_settled {view : View} (hfits : view.Fits) :
    view.settled.contents = view.contents := by
  funext key
  cases hfound : view.index.lookup key with
  | none =>
      rw [View.contents_eq_none_iff.mpr hfound]
      exact View.contents_eq_none_iff.mpr hfound
  | some metadata =>
      have hvalue : view.settled.valueAt metadata = view.valueAt metadata :=
        slice_append_of_le (hfits key metadata hfound).value_end view.pending
      rw [View.contents_of_lookup hfound, ← hvalue]
      exact View.contents_of_lookup hfound

/-- The checks of `writeRecord` do not look at the bytes of a value. -/
theorem View.Fits.valid_liveRecord {view : View} (hfits : view.Fits)
    {key : Bytes} {record : Record}
    (hrecord : view.liveRecord key = some record) : record.Valid := by
  obtain ⟨hoperation, hkey, hcontents⟩ :=
    View.liveRecord_eq_some_iff.mp hrecord
  obtain ⟨metadata, hfound, hvalue, -⟩ :=
    View.contents_eq_some_iff.mp hcontents
  have hentry := hfits key metadata hfound
  refine ⟨?_, ?_, ?_, ?_⟩
  · rw [hkey]
    exact hentry.key_ne_nil
  · rw [hkey]
    exact hentry.key_size
  · rw [← hvalue, View.valueAt, length_slice hentry.value_end]
    exact hentry.value_size
  · intro hdelete
    cases hoperation.symm.trans hdelete

namespace AppendOnlyStore

variable {store : AppendOnlyStore}

/-- A data file that is there can be opened, or is open. -/
theorem ok_ensureOpenLocked_iff {answers : OpenAnswers} {data : Bytes}
    (hdata : store.data = some data) :
    (store.ensureOpenLocked answers).2.ok = true ↔
      (store.fileOpen = false → ¬ ReopenFails answers) := by
  cases hfile : store.fileOpen with
  | true => simp [ensureOpenLocked, hfile]
  | false =>
      have hclosed : store.stream = none := by
        rwa [fileOpen, Option.isSome_eq_false_iff, Option.isNone_iff_eq_none]
          at hfile
      have hsame : store.closeFile none = store :=
        closeFile_of_closed store hclosed none
      have hreopen : store.reopenLocked answers =
          store.ensureOpenLocked answers := by
        rw [reopenLocked, hsame]
      rw [← hreopen]
      constructor
      · intro hopens _
        exact not_reopenFails_of_ok hopens
      · intro hworks
        by_contra hfailed
        exact hworks rfl (reopenFails_of_not_ok (hsame.symm ▸ hdata) hfailed)

/-- When `readValue` succeeds on an entry that fits, over an empty put area. -/
theorem readValue_ok_iff {openAnswers : OpenAnswers} {answers : ReadAnswers}
    {key : Bytes} {metadata : RecordMetadata}
    (hopens : (store.ensureOpenLocked openAnswers).2.ok = true)
    (hpending : store.pending = [])
    (hfits : metadata.Fits store.bytes.length key) :
    (∃ value, (store.readValue openAnswers answers metadata).2 = .ok value) ↔
      answers.Delivers metadata.valueSize.toNat := by
  have hlength := length_slice hfits.value_end
  rw [snd_readValue, if_pos hopens, hpending, drained_nil, List.append_nil,
    decide_eq_true rfl, Bool.true_or, Bool.true_and]
  cases hseek : answers.seek with
  | false =>
      rw [if_neg Bool.false_ne_true]
      constructor
      · rintro ⟨value, hvalue⟩
        cases hvalue
      · intro hdelivers
        exact absurd (hseek.symm.trans hdelivers.seek) Bool.false_ne_true
  | true =>
      rw [if_pos rfl]
      cases hshort : answers.short with
      | none =>
          dsimp only
          rw [if_neg (not_not.mpr hlength)]
          have hdelivers : answers.Delivers metadata.valueSize.toNat :=
            ⟨hseek, fun most hmost => by cases hshort.symm.trans hmost⟩
          exact ⟨fun _ => hdelivers, fun _ => ⟨_, rfl⟩⟩
      | some count =>
          dsimp only
          rw [List.length_take, hlength]
          split
          next hshorter =>
            constructor
            · rintro ⟨value, hvalue⟩
              cases hvalue
            · intro hdelivers
              exact absurd (Nat.min_eq_right (hdelivers.enough count hshort))
                hshorter
          next henough =>
            have hdelivers : answers.Delivers metadata.valueSize.toNat := by
              refine ⟨hseek, fun most hmost => ?_⟩
              rw [← Option.some.inj (hshort.symm.trans hmost)]
              exact min_eq_right_iff.mp (not_not.mp henough)
            exact ⟨fun _ => hdelivers, fun _ => ⟨_, rfl⟩⟩

end AppendOnlyStore

namespace KeyValueStore

variable {environment : Environment} {store : KeyValueStore}

/-! ## When a compaction succeeds -/

/-- Every step that the compaction asks the file system for works. -/
structure Unfailing (environment : Environment) (store : KeyValueStore) :
    Prop where
  opens : store.storage.fileOpen = false →
    ¬ AppendOnlyStore.ReopenFails environment.openAnswers
  drains : ∀ key ∈ (environment.hashOrder
      (store.purgeExpired environment).index).keys.head?,
    store.storage.pending = [] ∨ (environment.read key).drain = none
  reads : ∀ key metadata, store.index.lookup key = some metadata →
    isExpired metadata.expiresAtMs environment.nowMs = false →
    (environment.read key).Delivers metadata.valueSize.toNat
  fileSize : environment.compact.fileSize = none
  createTemporary : environment.compact.createTemporary = true
  write : ∀ number < store.liveCount environment,
    environment.compact.write number = true
  flush : environment.compact.flush = true
  rename : environment.compact.rename = none
  reopens : ¬ AppendOnlyStore.ReopenFails environment.compact.reopen

theorem fits_purgeExpired (hfits : store.view.Fits) (environment : Environment) :
    (store.purgeExpired environment).view.Fits := by
  intro key metadata hfound
  exact hfits key metadata
    ((lookup_purgeExpired environment store key metadata).mp hfound).1

/-- The loop behind the purge reads every value when its first read can write
the put area and every read of an unexpired value delivers. -/
theorem readable_purgeExpired_iff (hfits : store.view.Fits)
    (hstream : (store.storage.ensureOpenLocked
      environment.openAnswers).2.ok = true) :
    Readable environment
        (environment.hashOrder (store.purgeExpired environment).index).keys
        (store.purgeExpired environment) ↔
      (∀ key ∈ (environment.hashOrder
          (store.purgeExpired environment).index).keys.head?,
        store.storage.pending = [] ∨ (environment.read key).drain = none) ∧
      ∀ key metadata, store.index.lookup key = some metadata →
        isExpired metadata.expiresAtMs environment.nowMs = false →
        (environment.read key).Delivers metadata.valueSize.toNat := by
  let purged := store.purgeExpired environment
  let visited := environment.hashOrder purged.index
  have hfresh := lookup_purgeExpired environment store
  have hopens : (purged.settle.storage.ensureOpenLocked
      environment.openAnswers).2.ok = true := by
    rw [settle, AppendOnlyStore.ensureOpenLocked_drain]
    exact hstream
  have hlength : store.storage.bytes.length ≤
      purged.settle.storage.bytes.length := by
    rw [settle, AppendOnlyStore.bytes_drain, List.length_append]
    exact Nat.le_add_right _ _
  have hpending : purged.settle.storage.pending = [] := by
    rw [settle, AppendOnlyStore.pending_drain, if_pos rfl]
  have hread : ∀ key metadata, store.index.lookup key = some metadata →
      ((∃ value, (purged.settle.readStored environment key metadata).2 =
        .ok value) ↔
        (environment.read key).Delivers metadata.valueSize.toNat) :=
    fun key metadata hfound => AppendOnlyStore.readValue_ok_iff hopens hpending
      ((hfits key metadata hfound).mono hlength)
  constructor
  · intro hreadable
    refine ⟨hreadable.drains, fun key metadata hfound hlive => ?_⟩
    have hpurged := (hfresh key metadata).mpr ⟨hfound, hlive⟩
    have hvisited : key ∈ visited.keys :=
      (visited.mem_keys key).mpr (by rw [hpurged]; rfl)
    exact (hread key metadata hfound).mp
      (hreadable.reads key hvisited metadata hpurged)
  · rintro ⟨hdrains, hdelivers⟩
    refine ⟨hdrains, fun key _ metadata hpurged => ?_⟩
    obtain ⟨hfound, hlive⟩ := (hfresh key metadata).mp hpurged
    exact (hread key metadata hfound).mpr
      (hdelivers key metadata hfound hlive)

/-- A compaction succeeds exactly when no step of it fails. -/
theorem compactSection_ok_iff_unfailing {data : Bytes}
    (hdata : store.storage.data = some data) (hfits : store.view.Fits) :
    (∃ summary, (store.compactSection environment).2 = .ok summary) ↔
      Unfailing environment store := by
  let purged := store.purgeExpired environment
  let visited := environment.hashOrder purged.index
  have hvisited := isSome_of_visited environment purged
  have hopens : (purged.storage.ensureOpenLocked
      environment.openAnswers).2.ok = true ↔ _ :=
    AppendOnlyStore.ok_ensureOpenLocked_iff hdata
  rw [compactSection_ok_iff]
  constructor
  · rintro ⟨state, hrewrite⟩
    obtain ⟨records, hrecords, hstate⟩ :=
      (rewriteLive_ok_iff environment purged).mp hrewrite
    have hcompletes := AppendOnlyStore.completes_of_compact hstate
    rw [length_of_readLiveRecords hrecords] at hcompletes
    obtain ⟨-, hreadable, hsame⟩ := readLiveRecords_ok hvisited hrecords
    have hstream := hcompletes.opens
    rw [hsame.stream, ensureOpenLocked_reread] at hstream
    obtain ⟨hdrains, hreads⟩ :=
      (readable_purgeExpired_iff hfits hstream).mp hreadable
    exact ⟨hopens.mp hstream, hdrains, hreads, hcompletes.fileSize,
      hcompletes.createTemporary, hcompletes.write, hcompletes.flush,
      hcompletes.rename, hcompletes.reopens⟩
  · intro hunfailing
    have hstream := hopens.mpr hunfailing.opens
    obtain ⟨records, hrecords⟩ := readLiveRecords_of_readable hvisited
      ((readable_purgeExpired_iff hfits hstream).mpr
        ⟨hunfailing.drains, hunfailing.reads⟩)
    obtain ⟨hlive, -, hsame⟩ := readLiveRecords_ok hvisited hrecords
    have hvalid : ∀ record ∈ sortRecords records, record.Valid := by
      intro record hrecord
      rw [mem_sortRecords, hlive, List.mem_filterMap] at hrecord
      obtain ⟨key, -, hshown⟩ := hrecord
      exact (fits_purgeExpired hfits environment).settled.valid_liveRecord
        hshown
    have hcompletes : AppendOnlyStore.Completes environment.openAnswers
        environment.compact (sortRecords records).length
        (purged.readLiveRecords environment visited.keys).1.storage := by
      rw [length_of_readLiveRecords hrecords]
      refine ⟨?_, hunfailing.fileSize, hunfailing.createTemporary,
        hunfailing.write, hunfailing.flush, hunfailing.rename,
        hunfailing.reopens⟩
      rw [hsame.stream, ensureOpenLocked_reread]
      exact hstream
    obtain ⟨state, hstate⟩ :=
      AppendOnlyStore.compact_of_completes hvalid hcompletes
    exact ⟨state, (rewriteLive_ok_iff environment purged).mpr
      ⟨records, hrecords, hstate⟩⟩

/-! ## A changed value byte -/

/-- The data file has been changed from outside in the byte at this position;
the cache and the counters are free, as calls in between may have used them. -/
structure ByteChanged (position : ℕ) (store changed : KeyValueStore) :
    Prop where
  storage : ∃ damaged, DiffersAt position store.storage.bytes damaged ∧
    changed.storage = store.storage.withBytes damaged
  index : changed.index = store.index
  opened : changed.opened = store.opened

/-- A compaction either fails or writes a file from which the key is recovered
with this value, as long as it is unexpired. -/
def KeepsValue (environment : Environment) (key value : Bytes)
    (expiresAtMs : Int64) (store : KeyValueStore) : Prop :=
  ∀ after summary, store.compact environment = (after, .ok summary) →
    ∀ laterMs, isExpired expiresAtMs laterMs = false →
      ∃ recovered state metadata,
        after.storage.recover {} {} laterMs = (recovered, .ok state) ∧
          state.index.lookup key = some metadata ∧
          (recovered.readValue {} {} metadata).2 = .ok value

namespace ByteChanged

variable {changed : KeyValueStore} {position : ℕ}

theorem length_eq (hchanged : ByteChanged position store changed) :
    changed.storage.bytes.length = store.storage.bytes.length := by
  obtain ⟨damaged, ⟨hinside, byte, -, rfl⟩, hstorage⟩ := hchanged.storage
  rw [hstorage]
  exact List.length_set

theorem exists_data (hchanged : ByteChanged position store changed) :
    ∃ data, changed.storage.data = some data := by
  obtain ⟨damaged, -, hstorage⟩ := hchanged.storage
  exact ⟨damaged, congrArg AppendOnlyStore.data hstorage⟩

theorem fits (hchanged : ByteChanged position store changed)
    (hfits : store.view.Fits) : changed.view.Fits := by
  intro key metadata hfound
  change metadata.Fits changed.storage.bytes.length key
  rw [hchanged.length_eq]
  apply hfits key metadata
  rw [← hfound]
  exact congrArg (fun index => index.lookup key) hchanged.index.symm

/-- The file system does not see the change. -/
theorem unfailing_iff (hchanged : ByteChanged position store changed) :
    Unfailing environment changed ↔ Unfailing environment store := by
  obtain ⟨damaged, -, hstorage⟩ := hchanged.storage
  have hfile : changed.storage.fileOpen = store.storage.fileOpen := by
    rw [hstorage]
    rfl
  have hcount : changed.liveCount environment = store.liveCount environment := by
    rw [liveCount, liveCount, hchanged.index]
  have hpending : changed.storage.pending = store.storage.pending := by
    rw [hstorage]
    rfl
  have hpurged : (changed.purgeExpired environment).index =
      (store.purgeExpired environment).index := by
    rw [purgeExpired, purgeExpired, hchanged.index]
  constructor
  · rintro ⟨hopens, hdrains, hreads, hfileSize, hcreate, hwrite, hflush,
      hrename, hreopens⟩
    rw [hfile] at hopens
    rw [hpurged, hpending] at hdrains
    rw [hchanged.index] at hreads
    rw [hcount] at hwrite
    exact ⟨hopens, hdrains, hreads, hfileSize, hcreate, hwrite, hflush,
      hrename, hreopens⟩
  · rintro ⟨hopens, hdrains, hreads, hfileSize, hcreate, hwrite, hflush,
      hrename, hreopens⟩
    rw [← hfile] at hopens
    rw [← hpurged, ← hpending] at hdrains
    rw [← hchanged.index] at hreads
    rw [← hcount] at hwrite
    exact ⟨hopens, hdrains, hreads, hfileSize, hcreate, hwrite, hflush,
      hrename, hreopens⟩

/-- The changed region is another value. -/
theorem valueAt_ne (hchanged : ByteChanged position store changed)
    {metadata : RecordMetadata} (hposition : metadata.InValue position) :
    changed.view.valueAt metadata ≠ store.view.valueAt metadata := by
  obtain ⟨damaged, hdiffers, hstorage⟩ := hchanged.storage
  have hbytes : changed.view.bytes = damaged :=
    congrArg AppendOnlyStore.bytes hstorage
  rw [View.valueAt, View.valueAt, hbytes]
  exact slice_ne_of_differsAt hdiffers hposition.1 hposition.2

end ByteChanged

/-- What a recovery of a whole log finds under a key. -/
theorem contents_of_recover {storage recovered : AppendOnlyStore}
    {live : List LogEntry} {laterMs : Int64} {state : RecoveryState}
    {key value : Bytes} {metadata : RecordMetadata}
    (hbytes : storage.bytes = logFormat.imageAll live)
    (hpending : storage.pending = [])
    (hrecover : storage.recover {} {} laterMs = (recovered, .ok state))
    (hfound : state.index.lookup key = some metadata)
    (hread : (recovered.readValue {} {} metadata).2 = .ok value)
    (cache : LruCache Bytes Bytes) :
    (View.ofLog laterMs live cache).contents key =
      some (value, metadata.expiresAtMs) := by
  have hlog : LogWithTail live [] storage.bytes :=
    hbytes ▸ logWithTail_imageAll live
  rw [AppendOnlyStore.recover_of_logWithTail hlog] at hrecover
  cases hrecover
  apply View.contents_eq_some_iff.mpr
  refine ⟨metadata, hfound, ?_, rfl⟩
  have hvalue := AppendOnlyStore.eq_of_readValue_ok hread
  rw [AppendOnlyStore.fst_readValue, AppendOnlyStore.sought_faultless,
    AppendOnlyStore.bytes_settled, AppendOnlyStore.pending_recovered,
    AppendOnlyStore.bytes_recovered_of_pending _ hlog.1 hpending,
    List.append_nil] at hvalue
  exact hvalue.symm

/-- When the byte of a live value has changed, a following compaction keeps the
damage out of its file exactly when it fails: there is always some step that
the file system refused. -/
theorem changed_value_kept_out_iff (hreachable : Reachable store)
    (hopened : store.opened = true) {key : Bytes} {metadata : RecordMetadata}
    (hfound : store.index.lookup key = some metadata)
    (hlive : isExpired metadata.expiresAtMs environment.nowMs = false)
    {position : ℕ} (hposition : metadata.InValue position)
    {changed : KeyValueStore} (hchanged : ByteChanged position store changed) :
    KeepsValue environment key (store.view.valueAt metadata)
        metadata.expiresAtMs changed ↔
      ¬ Unfailing environment store := by
  obtain ⟨data, hdata⟩ := hchanged.exists_data
  have hfits : changed.view.Fits :=
    hchanged.fits (coherent_of_reachable hreachable).fits
  have hsucceeds : (∃ summary,
      (changed.compactSection environment).2 = .ok summary) ↔
        Unfailing environment store :=
    (compactSection_ok_iff_unfailing hdata hfits).trans hchanged.unfailing_iff
  have hcompact : changed.compact environment =
      changed.compactSection environment :=
    if_pos (hchanged.opened.trans hopened)
  constructor
  · intro hkeeps hunfailing
    obtain ⟨summary, hsummary⟩ := hsucceeds.mpr hunfailing
    have houtcome := compactSection_cases environment changed
    rcases hresult : changed.compactSection environment with ⟨after, outcome⟩
    rw [hresult] at hsummary houtcome
    dsimp only at hsummary houtcome
    subst hsummary
    obtain ⟨recovered, state, found, hrecover, hindex, hread⟩ :=
      hkeeps after summary (hcompact.trans hresult) environment.nowMs hlive
    cases houtcome with
    | compacted live hcanonical hvisible hview =>
        have hcontents := contents_of_recover
          (congrArg View.bytes hview) (congrArg View.pending hview) hrecover
          hindex hread changed.cache
        rw [hcanonical.contents_ofLog hvisible,
          (fits_purgeExpired hfits environment).contents_settled,
          contents_purgeExpired,
          View.live_eq_some_iff, View.contents_eq_some_iff] at hcontents
        obtain ⟨⟨other, hother, hvalue, -⟩, -⟩ := hcontents
        have hsame : other = metadata := by
          apply Option.some.inj
          rw [← hother, ← hfound]
          exact congrArg (fun index => index.lookup key) hchanged.index
        rw [hsame] at hvalue
        exact hchanged.valueAt_ne hposition hvalue
  · intro hfails after summary hresult
    rw [hcompact] at hresult
    exact absurd (hsucceeds.mp ⟨summary, congrArg Prod.snd hresult⟩) hfails

/-- One key with a value of one byte. -/
def lone : KeyValueStore :=
  (machine.run [⟨.calm 1, .openStore⟩, ⟨.calm 2, .set [97] [120] none⟩]
    (new .small none none)).1

/-- The same store behind a change of its value byte. -/
def loneChanged : KeyValueStore :=
  { lone with storage := lone.storage.withBytes (lone.storage.bytes.set 29 121) }

theorem reachable_lone : Reachable lone := by
  apply reachable_run
  simp only [List.forall_mem_cons]
  have hcalm := fun nowMs => (Environment.faultless_calm nowMs).toReliable
  exact ⟨hcalm 1, hcalm 2, by simp⟩

theorem byteChanged_lone : ByteChanged 29 lone loneChanged where
  storage := by
    refine ⟨_, ⟨by decide +kernel, 121, ?_, rfl⟩, rfl⟩
    decide +kernel
  index := rfl
  opened := rfl

/-- A compaction whose rename fails leaves the damage where `recover` finds
it. -/
theorem changed_value_kept_out_iff_at_rename :
    KeepsValue { nowMs := 3, compact := { rename := some "busy" } } [97]
      (lone.view.valueAt ⟨0, 29, 1, 0⟩) 0 loneChanged := by
  have hfound : lone.index.lookup [97] = some ⟨0, 29, 1, 0⟩ := by
    decide +kernel
  apply (changed_value_kept_out_iff reachable_lone (by decide +kernel) hfound
    (by decide) ⟨by decide, by decide⟩ byteChanged_lone).mpr
  intro hunfailing
  cases hunfailing.rename

/-- Any other compaction gives the changed value a checksum of its own. -/
theorem compaction_signs_changed_value :
    Reachable lone ∧ lone.opened = true ∧
      lone.index.lookup [97] = some ⟨0, 29, 1, 0⟩ ∧
      lone.view.valueAt ⟨0, 29, 1, 0⟩ = [120] ∧
      ByteChanged 29 lone loneChanged ∧
      ¬ KeepsValue (.calm 3) [97] [120] 0 loneChanged := by
  refine ⟨reachable_lone, by decide +kernel, by decide +kernel,
    by decide +kernel, byteChanged_lone, fun hkeeps => ?_⟩
  let after := (loneChanged.compact (.calm 3)).1
  have hcompact : loneChanged.compact (.calm 3) = (after, .ok ⟨1, 30, 30⟩) :=
    Prod.ext rfl (by decide +kernel)
  have hindex : ((after.storage.recover {} {} 3).2.toOption.bind
      fun state => state.index.lookup [97]) = some ⟨0, 29, 1, 0⟩ := by
    decide +kernel
  have hread : ((after.storage.recover {} {} 3).1.readValue {} {}
      ⟨0, 29, 1, 0⟩).2 = .ok [121] := by
    decide +kernel
  obtain ⟨recovered, state, metadata, hrecover, hfound, hvalue⟩ :=
    hkeeps after _ hcompact 3 (by decide)
  rw [hrecover] at hindex hread
  cases hfound.symm.trans hindex
  cases hvalue.symm.trans hread

end KeyValueStore

end MiniKV
