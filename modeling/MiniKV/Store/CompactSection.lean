import MiniKV.Format.Rewriting
import MiniKV.Store.Sections

/-!
# The section of compact as an effect

The section purges, rereads every live value, sorts the records and has the
file rewritten.  Sorting makes the written log depend on the contents only, not
on the order in which the hash map was visited.
-/

namespace MiniKV

/-- The record that `compact` writes for a key. -/
def View.liveRecord (view : View) (key : Bytes) : Option Record :=
  (view.contents key).map fun found => ⟨.set, key, found.1, found.2⟩

theorem View.liveRecord_eq_some_iff {view : View} {key : Bytes}
    {record : Record} :
    view.liveRecord key = some record ↔ record.operation = .set ∧
      record.key = key ∧
      view.contents key = some (record.value, record.expiresAtMs) := by
  obtain ⟨operation, recordKey, value, expiresAtMs⟩ := record
  rw [liveRecord, Option.map_eq_some_iff]
  constructor
  · rintro ⟨⟨value, expiresAtMs⟩, hcontents, heq⟩
    cases heq
    exact ⟨rfl, rfl, hcontents⟩
  · rintro ⟨rfl, rfl, hcontents⟩
    exact ⟨_, hcontents, rfl⟩

namespace KeyValueStore

variable {environment : Environment} {store : KeyValueStore}

/-! ## The loop that rereads the live values -/

/-- The store behind a seek that works. -/
def settle (store : KeyValueStore) : KeyValueStore :=
  { store with storage := (store.storage.drain none).1 }

@[simp]
theorem view_settle (store : KeyValueStore) :
    store.settle.view = store.view.settled := by
  rw [settle, view, View.settled]
  simp [view]

theorem settle_of_pending (hpending : store.storage.pending = []) :
    store.settle = store := by
  rw [settle, AppendOnlyStore.drain_of_pending _ hpending]

/-- Two stores that show the same and whose streams open in the same way. -/
structure SameReads (environment : Environment) (left right : KeyValueStore) :
    Prop where
  view : left.view = right.view
  opened : left.opened = right.opened
  stream : (left.storage.ensureOpenLocked environment.openAnswers).2 =
    (right.storage.ensureOpenLocked environment.openAnswers).2

namespace SameReads

variable {left middle right : KeyValueStore}

theorem refl (environment : Environment) (store : KeyValueStore) :
    SameReads environment store store := ⟨rfl, rfl, rfl⟩

theorem symm (hsame : SameReads environment left right) :
    SameReads environment right left :=
  ⟨hsame.view.symm, hsame.opened.symm, hsame.stream.symm⟩

theorem trans (hleft : SameReads environment left middle)
    (hright : SameReads environment middle right) :
    SameReads environment left right :=
  ⟨hleft.view.trans hright.view, hleft.opened.trans hright.opened,
    hleft.stream.trans hright.stream⟩

theorem index_eq (hsame : SameReads environment left right) :
    left.index = right.index := congrArg View.index hsame.view

theorem bytes_eq (hsame : SameReads environment left right) :
    left.storage.bytes = right.storage.bytes :=
  congrArg View.bytes hsame.view

theorem pending_eq (hsame : SameReads environment left right) :
    left.storage.pending = right.storage.pending :=
  congrArg View.pending hsame.view

theorem snd_readStored (hsame : SameReads environment left right)
    (key : Bytes) (metadata : RecordMetadata) :
    (left.readStored environment key metadata).2 =
      (right.readStored environment key metadata).2 := by
  rw [readStored, readStored]
  dsimp only
  rw [AppendOnlyStore.snd_readValue, AppendOnlyStore.snd_readValue,
    hsame.stream, hsame.bytes_eq, hsame.pending_eq]

end SameReads

/-- A read succeeds when it can write the put area and then read. -/
theorem readStored_ok_iff (environment : Environment) (key : Bytes)
    (metadata : RecordMetadata) (store : KeyValueStore) :
    (∃ value, (store.readStored environment key metadata).2 = .ok value) ↔
      (store.storage.pending = [] ∨ (environment.read key).drain = none) ∧
        ∃ value,
          (store.settle.readStored environment key metadata).2 = .ok value := by
  rw [readStored, readStored, settle]
  dsimp only
  rw [AppendOnlyStore.snd_readValue, AppendOnlyStore.snd_readValue,
    AppendOnlyStore.ensureOpenLocked_drain, AppendOnlyStore.bytes_drain,
    AppendOnlyStore.pending_drain, if_pos rfl, AppendOnlyStore.drained_none,
    AppendOnlyStore.drained_nil, List.append_nil]
  by_cases hdrain : store.storage.pending = [] ∨
      (environment.read key).drain = none
  · have hwritten : AppendOnlyStore.drained (environment.read key).drain
        store.storage.pending = store.storage.pending := by
      rcases hdrain with hpending | hnone
      · rw [hpending, AppendOnlyStore.drained_nil]
      · rw [hnone, AppendOnlyStore.drained_none]
    have hworks : (decide (store.storage.pending = []) ||
        (environment.read key).drain.isNone) = true := by
      rcases hdrain with hpending | hnone
      · simp [hpending]
      · simp [hnone]
    rw [hwritten, hworks, decide_eq_true rfl, Bool.true_or,
      and_iff_right hdrain]
  · have hfails : (decide (store.storage.pending = []) ||
        (environment.read key).drain.isNone) = false := by
      rw [not_or] at hdrain
      simp [hdrain.1, Option.isSome_iff_ne_none, hdrain.2]
    rw [hfails, Bool.false_and, if_neg Bool.false_ne_true]
    constructor
    · rintro ⟨value, hvalue⟩
      split at hvalue <;> cases hvalue
    · rintro ⟨hdrains, -⟩
      exact absurd hdrains hdrain

/-- A read that succeeds has written the put area. -/
theorem sameReads_readStored {key value : Bytes} {metadata : RecordMetadata}
    (hread : (store.readStored environment key metadata).2 = .ok value) :
    SameReads environment (store.readStored environment key metadata).1
      store.settle where
  view := by
    have hdrain := ((readStored_ok_iff environment key metadata store).mp
      ⟨value, hread⟩).1
    have hopens : (store.storage.ensureOpenLocked
        environment.openAnswers).2.ok = true := by
      by_contra hfailed
      rw [readStored] at hread
      dsimp only at hread
      rw [AppendOnlyStore.snd_readValue, if_neg hfailed] at hread
      cases hread
    obtain ⟨hbytes, hpending⟩ := AppendOnlyStore.sought_of_drains hopens hdrain
    rw [view_settle, readStored, view]
    dsimp only
    rw [AppendOnlyStore.fst_readValue, hbytes, hpending]
    rfl
  opened := rfl
  stream := by
    rw [readStored, settle]
    dsimp only
    rw [AppendOnlyStore.fst_readValue, AppendOnlyStore.ensureOpenLocked_sought,
      AppendOnlyStore.ensureOpenLocked_drain]

theorem pending_of_readStored {key value : Bytes} {metadata : RecordMetadata}
    (hread : (store.readStored environment key metadata).2 = .ok value) :
    (store.readStored environment key metadata).1.storage.pending = [] :=
  congrArg View.pending ((sameReads_readStored hread).view.trans store.view_settle)

/-- The loop writes the put area at most, with its first read. -/
theorem drained_readLiveRecords {keys : List Bytes}
    (hkeys : ∀ key ∈ keys, (store.index.lookup key).isSome) :
    store.view.DrainedBy
      (fun fault => ∃ key ∈ keys.head?, fault = (environment.read key).drain)
      (store.readLiveRecords environment keys).1.view := by
  induction keys generalizing store with
  | nil => exact .refl _
  | cons key keys ih =>
      rw [readLiveRecords]
      split
      next hmissing =>
        have hsome := hkeys key List.mem_cons_self
        rw [hmissing] at hsome
        cases hsome
      next metadata hfound =>
        have hdrained := (drained_readStored environment key metadata
          store).mono fun fault hfault => show ∃ first ∈ (key :: keys).head?,
            fault = (environment.read first).drain from ⟨key, rfl, hfault⟩
        have hindex := hdrained.drained.index_eq
        split
        next read status hread =>
          rw [hread] at hdrained
          exact hdrained
        next read value hread =>
          have hpending := pending_of_readStored (congrArg Prod.snd hread)
          rw [hread] at hdrained hpending hindex
          have hothers : ∀ other ∈ keys, (read.index.lookup other).isSome := by
            intro other hother
            change read.index = store.index at hindex
            rw [hindex]
            exact hkeys other (List.mem_cons_of_mem key hother)
          have hrest := (ih hothers).drained.eq_of_pending hpending
          split
          next rest status hloop =>
            rw [hloop] at hrest
            exact hrest ▸ hdrained
          next rest records hloop =>
            rw [hloop] at hrest
            exact hrest ▸ hdrained

theorem opened_readLiveRecords (environment : Environment)
    (keys : List Bytes) (store : KeyValueStore) :
    (store.readLiveRecords environment keys).1.opened = store.opened := by
  induction keys generalizing store with
  | nil => rfl
  | cons key keys ih =>
      rw [readLiveRecords]
      split
      · exact ih store
      next metadata hfound =>
        have hopened : (store.readStored environment key metadata).1.opened =
            store.opened := rfl
        split
        next read status hread =>
          rw [hread] at hopened
          exact hopened
        next read value hread =>
          rw [hread] at hopened
          have hrest := (ih read).trans hopened
          split
          next rest status hloop =>
            rw [hloop] at hrest
            exact hrest
          next rest records hloop =>
            rw [hloop] at hrest
            exact hrest

/-- The first read can write the put area, and then every value among these keys
can be read. -/
structure Readable (environment : Environment) (keys : List Bytes)
    (store : KeyValueStore) : Prop where
  drains : ∀ key ∈ keys.head?, store.storage.pending = [] ∨
    (environment.read key).drain = none
  reads : ∀ key ∈ keys, ∀ metadata, store.index.lookup key = some metadata →
    ∃ value, (store.settle.readStored environment key metadata).2 = .ok value

/-- The store behind a loop over these keys that succeeds. -/
def reread (keys : List Bytes) (store : KeyValueStore) : KeyValueStore :=
  if keys = [] then store else store.settle

/-- A loop that succeeds has read the record of every key. -/
theorem readLiveRecords_ok {keys : List Bytes} {records : List Record}
    (hkeys : ∀ key ∈ keys, (store.index.lookup key).isSome)
    (hloop : (store.readLiveRecords environment keys).2 = .ok records) :
    records = keys.filterMap store.view.settled.liveRecord ∧
      Readable environment keys store ∧
      SameReads environment (store.readLiveRecords environment keys).1
        (store.reread keys) := by
  induction keys generalizing store records with
  | nil =>
      cases hloop
      exact ⟨rfl, ⟨by simp, by simp⟩, .refl _ _⟩
  | cons key keys ih =>
      obtain ⟨metadata, hfound⟩ :=
        Option.isSome_iff_exists.mp (hkeys key List.mem_cons_self)
      rw [readLiveRecords, hfound] at hloop ⊢
      dsimp only at hloop ⊢
      rw [reread, if_neg (List.cons_ne_nil key keys)]
      rcases hread : store.readStored environment key metadata with
        ⟨read, _ | value⟩
      · rw [hread] at hloop
        cases hloop
      have hvalue := eq_valueAt_of_readStored (congrArg Prod.snd hread)
      have hsame := sameReads_readStored (congrArg Prod.snd hread)
      have hpending := pending_of_readStored (congrArg Prod.snd hread)
      have hreads := (readStored_ok_iff environment key metadata store).mp
        ⟨value, congrArg Prod.snd hread⟩
      rw [hread] at hloop hvalue hsame hpending
      dsimp only at hloop hvalue hsame hpending ⊢
      have hview : read.view = store.view.settled :=
        hsame.view.trans store.view_settle
      have hothers : ∀ other ∈ keys, (read.index.lookup other).isSome := by
        intro other hother
        rw [hsame.index_eq]
        exact hkeys other (List.mem_cons_of_mem key hother)
      rcases hrest : read.readLiveRecords environment keys with
        ⟨rest, _ | others⟩
      · rw [hrest] at hloop
        cases hloop
      obtain ⟨hrecords, hreadable, hafter⟩ := ih hothers (congrArg Prod.snd hrest)
      rw [hrest] at hloop hafter
      cases hloop
      rw [reread, settle_of_pending hpending, ite_self] at hafter
      rw [hview, View.settled_settled] at hrecords
      rw [hview] at hvalue
      have hsome : store.view.settled.liveRecord key =
          some ⟨.set, key, value, metadata.expiresAtMs⟩ := by
        rw [View.liveRecord_eq_some_iff]
        exact ⟨rfl, rfl, View.contents_eq_some_iff.mpr
          ⟨metadata, hfound, hvalue.symm, rfl⟩⟩
      refine ⟨by rw [List.filterMap_cons, hsome, hrecords], ⟨?_, ?_⟩,
        hafter.trans hsame⟩
      · intro first hfirst
        cases hfirst
        exact hreads.1
      · intro other hother otherMetadata hlookup
        rcases List.mem_cons.mp hother with rfl | hother
        · cases hfound.symm.trans hlookup
          exact hreads.2
        · have hmore := hreadable.reads other hother otherMetadata
            (by rw [hsame.index_eq]; exact hlookup)
          rwa [settle_of_pending hpending, hsame.snd_readStored] at hmore

/-- The loop succeeds when it can read every live value. -/
theorem readLiveRecords_of_readable {keys : List Bytes}
    (hkeys : ∀ key ∈ keys, (store.index.lookup key).isSome)
    (hreadable : Readable environment keys store) :
    ∃ records, (store.readLiveRecords environment keys).2 = .ok records := by
  induction keys generalizing store with
  | nil => exact ⟨[], rfl⟩
  | cons key keys ih =>
      obtain ⟨metadata, hfound⟩ :=
        Option.isSome_iff_exists.mp (hkeys key List.mem_cons_self)
      obtain ⟨value, hvalue⟩ :=
        (readStored_ok_iff environment key metadata store).mpr
          ⟨hreadable.drains key rfl,
            hreadable.reads key List.mem_cons_self metadata hfound⟩
      have hsame := sameReads_readStored hvalue
      have hpending := pending_of_readStored hvalue
      rw [readLiveRecords, hfound]
      rcases hread : store.readStored environment key metadata with
        ⟨read, result⟩
      rw [hread] at hvalue hsame hpending
      dsimp only at hvalue hsame hpending ⊢
      have hothers : ∀ other ∈ keys, (read.index.lookup other).isSome := by
        intro other hother
        rw [hsame.index_eq]
        exact hkeys other (List.mem_cons_of_mem key hother)
      have hrest : Readable environment keys read := by
        refine ⟨fun _ _ => Or.inl hpending, ?_⟩
        intro other hother otherMetadata hlookup
        rw [hsame.index_eq] at hlookup
        rw [settle_of_pending hpending, hsame.snd_readStored]
        exact hreadable.reads other (List.mem_cons_of_mem key hother) _ hlookup
      obtain ⟨records, hrecords⟩ := ih hothers hrest
      rcases hloop : read.readLiveRecords environment keys with
        ⟨rest, outcome⟩
      rw [hloop] at hrecords
      dsimp only at hrecords
      rw [hread, hvalue]
      dsimp only
      rw [hloop, hrecords]
      exact ⟨_, rfl⟩

/-- The loop of `compact` visits what is in the index. -/
theorem isSome_of_visited (environment : Environment) (store : KeyValueStore) :
    ∀ key ∈ (environment.hashOrder store.index).keys,
      (store.index.lookup key).isSome :=
  fun key => ((environment.hashOrder store.index).mem_keys key).mp

theorem readLiveRecords_faultless
    (hopenAnswers : environment.openAnswers = {})
    (hreads : ∀ key, environment.read key = {})
    (hcoherent : store.view.Coherent) {keys : List Bytes}
    (hkeys : ∀ key ∈ keys, (store.index.lookup key).isSome) :
    ∃ records, (store.readLiveRecords environment keys).2 = .ok records := by
  apply readLiveRecords_of_readable hkeys
  refine ⟨fun key _ => Or.inr (by rw [hreads]), ?_⟩
  intro key _ metadata hfound
  have hsettled : store.settle.view.Coherent :=
    store.view_settle ▸ hcoherent.drained (.settled store.view)
  obtain ⟨entry, hpoints⟩ := hsettled.points key metadata hfound
  exact ⟨_, readStored_faultless hopenAnswers (hreads key) hpoints⟩

/-! ## The sorted records -/

theorem pairwise_sortRecords {records : List Record}
    (hdistinct : records.Pairwise fun left right => left.key ≠ right.key) :
    (sortRecords records).Pairwise fun left right => left.key < right.key := by
  have htotal : Std.Total fun left right : Record => left.key ≤ right.key :=
    ⟨fun left right => le_total left.key right.key⟩
  have htrans : IsTrans Record fun left right => left.key ≤ right.key :=
    ⟨fun _ _ _ => le_trans⟩
  have hsorted : (sortRecords records).Pairwise
      fun left right => left.key ≤ right.key :=
    List.pairwise_insertionSort _ _
  have hperm : (sortRecords records).Perm records :=
    List.perm_insertionSort _ _
  have hother : (sortRecords records).Pairwise
      fun left right => left.key ≠ right.key :=
    hperm.symm.pairwise hdistinct fun hne => hne.symm
  exact (hsorted.and hother).imp fun hpair => lt_of_le_of_ne hpair.1 hpair.2

theorem mem_sortRecords {records : List Record} {record : Record} :
    record ∈ sortRecords records ↔ record ∈ records :=
  (List.perm_insertionSort _ records).mem_iff

/-- Whatever the visiting order, the written log is canonical. -/
theorem canonical_of_rewritten {view : View} {keys : List Bytes}
    (hnodup : keys.Nodup)
    (hkeys : ∀ key, key ∈ keys ↔ (view.index.lookup key).isSome)
    {entries : List LogEntry}
    (hrewritten : AppendOnlyStore.Rewritten
      (sortRecords (keys.filterMap view.liveRecord)) entries) :
    view.Canonical entries := by
  have hmem : ∀ record, record ∈ entries.map LogEntry.record ↔
      view.liveRecord record.key = some record := by
    intro record
    rw [hrewritten.records_eq, mem_sortRecords, List.mem_filterMap]
    constructor
    · rintro ⟨key, -, hrecord⟩
      rw [(View.liveRecord_eq_some_iff.mp hrecord).2.1]
      exact hrecord
    · intro hrecord
      refine ⟨record.key, (hkeys _).mpr ?_, hrecord⟩
      rw [View.liveRecord, Option.map_eq_some_iff] at hrecord
      obtain ⟨found, hcontents, -⟩ := hrecord
      obtain ⟨metadata, hfound, -⟩ := View.contents_eq_some_iff.mp hcontents
      rw [hfound]
      rfl
  have hdistinct : (keys.filterMap view.liveRecord).Pairwise
      fun left right => left.key ≠ right.key := by
    rw [List.pairwise_filterMap]
    apply hnodup.imp
    intro left right hne leftRecord hleft rightRecord hright
    rw [(View.liveRecord_eq_some_iff.mp hleft).2.1,
      (View.liveRecord_eq_some_iff.mp hright).2.1]
    exact hne
  refine ⟨?_, ?_, ?_⟩
  · have hsorted := pairwise_sortRecords hdistinct
    rw [← hrewritten.records_eq] at hsorted
    rw [List.pairwise_map] at hsorted ⊢
    exact hsorted
  · intro entry hentry
    have hrecord := (hmem entry.record).mp (List.mem_map_of_mem hentry)
    exact ⟨(View.liveRecord_eq_some_iff.mp hrecord).1,
      hrewritten.reserved entry hentry⟩
  · intro key value expiresAtMs
    constructor
    · rintro ⟨entry, hentry, rfl, rfl, rfl⟩
      have hrecord := (hmem entry.record).mp (List.mem_map_of_mem hentry)
      exact (View.liveRecord_eq_some_iff.mp hrecord).2.2
    · intro hcontents
      have hrecord := (hmem ⟨.set, key, value, expiresAtMs⟩).mpr
        (View.liveRecord_eq_some_iff.mpr ⟨rfl, rfl, hcontents⟩)
      obtain ⟨entry, hentry, heq⟩ := List.mem_map.mp hrecord
      exact ⟨entry, hentry, by rw [heq], by rw [heq], by rw [heq]⟩

/-- On a coherent view every record that compaction writes is valid. -/
theorem valid_liveRecord {view : View} (hcoherent : view.Coherent)
    {key : Bytes} {record : Record}
    (hrecord : view.liveRecord key = some record) : record.Valid := by
  obtain ⟨hoperation, hkey, hcontents⟩ :=
    View.liveRecord_eq_some_iff.mp hrecord
  obtain ⟨metadata, hfound, hvalue, hexpiresAtMs⟩ :=
    View.contents_eq_some_iff.mp hcontents
  obtain ⟨entry, hpoints⟩ := hcoherent.points key metadata hfound
  refine ⟨?_, ?_, ?_, ?_⟩
  · rw [hkey, ← hpoints.key_eq]
    exact entry.valid.key_ne_nil
  · rw [hkey, ← hpoints.key_eq]
    exact entry.valid.key_size
  · rw [← hvalue, hpoints.valueAt_eq]
    exact entry.valid.value_size
  · intro hdelete
    rw [hoperation] at hdelete
    cases hdelete

/-! ## Rereading and rewriting -/

/-- `compact` rereads the live values and rewrites the file. -/
def rewriteLive (environment : Environment) (store : KeyValueStore) :
    KeyValueStore × Result CompactionState :=
  match store.readLiveRecords environment
      (environment.hashOrder store.index).keys with
  | (store, .error status) => (store, .error status)
  | (store, .ok liveRecords) =>
      let compacted := store.storage.compact environment.openAnswers
        environment.compact (sortRecords liveRecords)
      ({ store with storage := compacted.1 }, compacted.2)

/-- `index_ = std::move(state.index)` and `cache_.clear()` of `compact`. -/
def indexCompacted (state : CompactionState) (store : KeyValueStore) :
    KeyValueStore :=
  { store with
    index := state.index
    cache := store.cache.clear
    compactions := store.compactions + 1 }

/-- The length of the file behind the rereads, which write the put area unless
there is nothing to read. -/
def rereadLength (store : KeyValueStore) : ℕ :=
  if store.index.size = 0 then store.storage.bytes.length
  else store.storage.bytes.length + store.storage.pending.length

/-- The faults with which a rewrite that fails can write the put area: that of
its first read, or that of closing the stream where there is nothing to read. -/
def RereadFault (environment : Environment) (store : KeyValueStore)
    (fault : Option ℕ) : Prop :=
  (∃ key ∈ (environment.hashOrder store.index).keys.head?,
      fault = (environment.read key).drain) ∨
    store.index.size = 0 ∧ AppendOnlyStore.Unrenamed environment.compact ∧
      fault = environment.compact.close

/-- What rereading and rewriting the live values does. -/
inductive RewriteOutcome (environment : Environment) (store : KeyValueStore) :
    KeyValueStore → Result CompactionState → Prop
  | failed (after : KeyValueStore) (status : Status)
      (hdrained : store.view.DrainedBy (RereadFault environment store)
        after.view) :
      RewriteOutcome environment store after (.error status)
  | lost (after : KeyValueStore) (status : Status)
      (hreadable : Readable environment
        (environment.hashOrder store.index).keys store)
      (hlost : AppendOnlyStore.LosesStream environment.openAnswers
        environment.compact store.index.size store.storage) :
      RewriteOutcome environment store after (.error status)
  | rewritten (after : KeyValueStore) (state : CompactionState)
      (live : List LogEntry) (hlive : store.view.settled.Canonical live)
      (hview : after.view =
        { store.view with bytes := logFormat.imageAll live, pending := [] })
      (hold : state.oldFileBytes = store.rereadLength)
      (hnew : state.newFileBytes = logSize live)
      (hindex : ∀ nowMs, (∀ entry ∈ live, entry.Visible nowMs) →
        state.index = replay nowMs live) :
      RewriteOutcome environment store after (.ok state)

theorem length_filterMap_liveRecord {view : View} {keys : List Bytes}
    (hnodup : keys.Nodup)
    (hkeys : ∀ key, key ∈ keys ↔ (view.index.lookup key).isSome) :
    (keys.filterMap view.liveRecord).length = view.index.size := by
  have hall : ∀ key ∈ keys, (view.liveRecord key).isSome := by
    intro key hkey
    rw [View.liveRecord, View.contents, Option.isSome_map, Option.isSome_map]
    exact (hkeys key).mp hkey
  have hlength : (keys.filterMap view.liveRecord).length = keys.length := by
    rw [List.filterMap_length_eq_length]
    exact hall
  have hsupport : keys.toFinset = view.index.support := by
    ext key
    rw [List.mem_toFinset, hkeys, view.index.mem_support]
  rw [hlength, FiniteMap.size, ← hsupport,
    List.toFinset_card_of_nodup hnodup]

theorem length_sortRecords (records : List Record) :
    (sortRecords records).length = records.length :=
  (List.perm_insertionSort _ records).length_eq

/-- A loop over the whole index hands over one record for each of its keys. -/
theorem length_of_readLiveRecords {records : List Record}
    (hread : (store.readLiveRecords environment
      (environment.hashOrder store.index).keys).2 = .ok records) :
    (sortRecords records).length = store.index.size := by
  let visited := environment.hashOrder store.index
  have hkeys : ∀ key, key ∈ visited.keys ↔
      (store.view.settled.index.lookup key).isSome := visited.mem_keys
  rw [length_sortRecords,
    (readLiveRecords_ok (isSome_of_visited environment store) hread).1]
  exact length_filterMap_liveRecord visited.nodup hkeys

/-- The loop visits nothing when the index is empty. -/
theorem visited_eq_nil_iff (environment : Environment) (store : KeyValueStore) :
    (environment.hashOrder store.index).keys = [] ↔ store.index.size = 0 := by
  let visited := environment.hashOrder store.index
  have hsupport : visited.keys.toFinset = store.index.support := by
    ext key
    rw [List.mem_toFinset, visited.mem_keys, store.index.mem_support]
  rw [FiniteMap.size, ← hsupport, List.toFinset_card_of_nodup visited.nodup,
    List.length_eq_zero_iff]

theorem view_reread (keys : List Bytes) (store : KeyValueStore) :
    (store.reread keys).view = store.view ∨
      (store.reread keys).view = store.view.settled := by
  rw [reread]
  split
  · exact Or.inl rfl
  · exact Or.inr store.view_settle

theorem length_reread (environment : Environment) (store : KeyValueStore) :
    (store.reread (environment.hashOrder store.index).keys).storage.bytes.length =
      store.rereadLength := by
  rw [reread, rereadLength]
  by_cases hempty : (environment.hashOrder store.index).keys = []
  · rw [if_pos hempty, if_pos ((visited_eq_nil_iff environment store).mp hempty)]
  · have hsize : store.index.size ≠ 0 :=
      fun hsize => hempty ((visited_eq_nil_iff environment store).mpr hsize)
    rw [if_neg hempty, if_neg hsize, settle]
    simp

theorem opens_of_sameReads {left right : KeyValueStore}
    (hsame : SameReads environment left right)
    (hopens : (left.storage.ensureOpenLocked
      environment.openAnswers).2.ok = true) :
    (right.storage.ensureOpenLocked environment.openAnswers).2.ok = true :=
  hsame.stream ▸ hopens

/-- A stream opens behind the rereads as it does before them. -/
theorem ensureOpenLocked_reread (environment : Environment)
    (keys : List Bytes) (store : KeyValueStore) :
    ((store.reread keys).storage.ensureOpenLocked environment.openAnswers).2 =
      (store.storage.ensureOpenLocked environment.openAnswers).2 := by
  rw [reread]
  split
  · rfl
  · exact AppendOnlyStore.ensureOpenLocked_drain _ _ _

theorem rewriteLive_cases (environment : Environment)
    (store : KeyValueStore) :
    RewriteOutcome environment store (store.rewriteLive environment).1
      (store.rewriteLive environment).2 := by
  let visited := environment.hashOrder store.index
  have hdrained := (drained_readLiveRecords
    (isSome_of_visited environment store)).mono fun fault hfault =>
      show RereadFault environment store fault from Or.inl hfault
  rw [rewriteLive]
  rcases hloop : store.readLiveRecords environment visited.keys with
    ⟨read, outcome⟩
  rw [hloop] at hdrained
  cases outcome with
  | error status => exact .failed read status hdrained
  | ok records =>
      obtain ⟨hrecords, hreadable, hsame⟩ := readLiveRecords_ok
        (isSome_of_visited environment store) (congrArg Prod.snd hloop)
      rw [hloop] at hsame
      have hcompacted := AppendOnlyStore.compact_cases environment.openAnswers
        environment.compact (sortRecords records) read.storage
      dsimp only
      rcases hresult : read.storage.compact environment.openAnswers
        environment.compact (sortRecords records) with ⟨storage, result⟩
      rw [hresult] at hcompacted
      dsimp only at hcompacted ⊢
      cases hcompacted with
      | failed status hbytes hpending =>
          have hview : view { read with storage := storage } = read.view := by
            rw [view, view, hbytes, hpending]
          exact .failed _ status (hview ▸ hdrained)
      | unrenamed status hunrenamed hbytes hpending =>
          have hclosed : view { read with storage := storage } =
              { read.view with
                bytes := read.view.bytes ++ AppendOnlyStore.drained
                  environment.compact.close read.view.pending
                pending := [] } := by
            rw [view, hbytes, hpending]
            rfl
          by_cases hnothing : store.index.size = 0
          · -- Nothing is reread, so closing the stream writes the put area.
            have hread : read.view = store.view := by
              rw [hsame.view, reread, if_pos
                ((visited_eq_nil_iff environment store).mpr hnothing)]
            rw [hread] at hclosed
            exact .failed _ status ⟨_, [], Or.inr ⟨_,
              Or.inr ⟨hnothing, hunrenamed, rfl⟩, rfl⟩, Or.inl rfl, hclosed⟩
          · have hread : read.view = store.view.settled := by
              rw [hsame.view, reread, if_neg (mt
                (visited_eq_nil_iff environment store).mp hnothing), view_settle]
            have hsettled : read.view.pending = [] := congrArg View.pending hread
            rw [hsettled, AppendOnlyStore.drained_nil, List.append_nil,
              ← hsettled] at hclosed
            exact .failed _ status (hclosed ▸ hdrained)
      | lost status hlost =>
          rw [length_of_readLiveRecords (congrArg Prod.snd hloop)] at hlost
          have hopens := hsame.stream ▸ hlost.opens
          rw [ensureOpenLocked_reread] at hopens
          exact .lost _ status hreadable ⟨hopens, hlost.fileSize,
            hlost.createTemporary, hlost.write, hlost.flush, hlost.rename,
            hlost.reopen⟩
      | rewritten state live hrewritten hbytes hpending hold hnew hindex =>
          rw [hrecords] at hrewritten
          have hold : state.oldFileBytes = store.rereadLength := by
            rw [hold, ← length_reread environment store]
            exact congrArg List.length hsame.bytes_eq
          have hview : view { read with storage := storage } =
              { store.view with
                bytes := logFormat.imageAll live
                pending := [] } := by
            have hindex : read.index = store.index := hdrained.drained.index_eq
            have hcache : read.cache = store.cache := hdrained.drained.cache_eq
            rw [view, view, hbytes, hpending, hindex, hcache]
          exact .rewritten _ state live
            (canonical_of_rewritten visited.nodup visited.mem_keys hrewritten)
            hview hold hnew hindex

theorem opened_rewriteLive (environment : Environment)
    (store : KeyValueStore) :
    (store.rewriteLive environment).1.opened = store.opened := by
  have hopened := opened_readLiveRecords environment
    (environment.hashOrder store.index).keys store
  rw [rewriteLive]
  rcases hloop : store.readLiveRecords environment
    (environment.hashOrder store.index).keys with ⟨read, result⟩
  rw [hloop] at hopened
  cases result with
  | error status => exact hopened
  | ok liveRecords => exact hopened

/-- The rewrite succeeds when its two halves do. -/
theorem rewriteLive_ok_iff (environment : Environment)
    (store : KeyValueStore) {state : CompactionState} :
    (store.rewriteLive environment).2 = .ok state ↔
      ∃ records,
        (store.readLiveRecords environment
          (environment.hashOrder store.index).keys).2 = .ok records ∧
        ((store.readLiveRecords environment
            (environment.hashOrder store.index).keys).1.storage.compact
          environment.openAnswers environment.compact
          (sortRecords records)).2 = .ok state := by
  rw [rewriteLive]
  rcases store.readLiveRecords environment
    (environment.hashOrder store.index).keys with ⟨read, outcome⟩
  cases outcome with
  | error status =>
      constructor
      · intro hstate
        cases hstate
      · rintro ⟨records, hrecords, -⟩
        cases hrecords
  | ok records =>
      constructor
      · intro hstate
        exact ⟨records, rfl, hstate⟩
      · rintro ⟨others, hothers, hstate⟩
        cases hothers
        exact hstate

/-! ## The whole section -/

/-- The number of keys that are unexpired at the reading of the call. -/
def liveCount (environment : Environment) (store : KeyValueStore) : ℕ :=
  (store.index.filter fun _ metadata =>
    !isExpired metadata.expiresAtMs environment.nowMs).size

/-- Compaction replaces the data file and then cannot open the new one. -/
structure LosesFile (environment : Environment) (store : KeyValueStore) :
    Prop where
  readable : Readable environment
    (environment.hashOrder (store.purgeExpired environment).index).keys
    (store.purgeExpired environment)
  loses : AppendOnlyStore.LosesStream environment.openAnswers
    environment.compact (store.liveCount environment) store.storage

/-- What the section of `compact` does behind its purge. -/
inductive CompactOutcome (environment : Environment) (store : KeyValueStore) :
    KeyValueStore → Result CompactionSummary → Prop
  | failed (after : KeyValueStore) (status : Status)
      (hdrained : (store.purgeExpired environment).view.DrainedBy
        (RereadFault environment (store.purgeExpired environment))
        after.view) :
      CompactOutcome environment store after (.error status)
  | lost (after : KeyValueStore) (status : Status)
      (hlost : LosesFile environment store) :
      CompactOutcome environment store after (.error status)
  | compacted (after : KeyValueStore) (live : List LogEntry)
      (hlive : (store.purgeExpired environment).view.settled.Canonical live)
      (hvisible : ∀ entry ∈ live, entry.Visible environment.nowMs)
      (hview : after.view = View.ofLog environment.nowMs live
        (store.purgeExpired environment).cache) :
      CompactOutcome environment store after
        (.ok ⟨after.index.size, (store.purgeExpired environment).rereadLength,
          logSize live⟩)

/-- A canonical log is visible at a reading at which nothing in the index has
expired. -/
theorem visible_of_fresh {view : View} {live : List LogEntry}
    (hlive : view.Canonical live) {nowMs : Int64}
    (hfresh : ∀ key metadata, view.index.lookup key = some metadata →
      isExpired metadata.expiresAtMs nowMs = false) :
    ∀ entry ∈ live, entry.Visible nowMs := by
  intro entry hentry
  refine ⟨(hlive.written entry hentry).1, ?_⟩
  obtain ⟨metadata, hfound, -, hexpiresAtMs⟩ := View.contents_eq_some_iff.mp
    ((hlive.contents _ _ _).mp ⟨entry, hentry, rfl, rfl, rfl⟩)
  rw [← hexpiresAtMs]
  exact hfresh _ metadata hfound

/-- A canonical log of a purged view is visible at the reading of the purge. -/
theorem visible_of_canonical {live : List LogEntry}
    (hlive : (store.purgeExpired environment).view.settled.Canonical live) :
    ∀ entry ∈ live, entry.Visible environment.nowMs :=
  visible_of_fresh hlive fun key metadata hfound =>
    ((lookup_purgeExpired environment store key metadata).mp hfound).2

theorem compactSection_eq_rewriteLive (environment : Environment)
    (store : KeyValueStore) :
    store.compactSection environment =
      match (store.purgeExpired environment).rewriteLive environment with
      | (rewritten, .error status) => (rewritten, .error status)
      | (rewritten, .ok state) =>
          (rewritten.indexCompacted state,
            .ok ⟨state.index.size, state.oldFileBytes,
              state.newFileBytes⟩) := by
  rw [compactSection, rewriteLive]
  dsimp only
  rcases (store.purgeExpired environment).readLiveRecords environment
    (environment.hashOrder (store.purgeExpired environment).index).keys with
    ⟨read, outcome⟩
  cases outcome with
  | error status => rfl
  | ok records =>
      dsimp only
      rcases read.storage.compact environment.openAnswers environment.compact
        (sortRecords records) with ⟨storage, result⟩
      cases result with
      | error status => rfl
      | ok state => rfl

/-- The store behind a rewrite whose index has been taken over. -/
theorem view_indexCompacted {view : View} {state : CompactionState}
    {live : List LogEntry} {nowMs : Int64}
    (hview : store.view =
      { view with bytes := logFormat.imageAll live, pending := [] })
    (hindex : state.index = replay nowMs live) :
    (store.indexCompacted state).view = View.ofLog nowMs live view.cache := by
  rw [View.ofLog, ← hindex]
  change View.mk store.view.bytes store.view.pending state.index
    store.view.cache.clear = _
  rw [hview]

/-- The section succeeds when the rewrite does. -/
theorem compactSection_ok_iff (environment : Environment)
    (store : KeyValueStore) :
    (∃ summary, (store.compactSection environment).2 = .ok summary) ↔
      ∃ state, ((store.purgeExpired environment).rewriteLive environment).2 =
        .ok state := by
  rw [compactSection_eq_rewriteLive]
  rcases (store.purgeExpired environment).rewriteLive environment with
    ⟨rewritten, result⟩
  cases result with
  | error status =>
      constructor
      · rintro ⟨summary, hsummary⟩
        cases hsummary
      · rintro ⟨state, hstate⟩
        cases hstate
  | ok state => exact ⟨fun _ => ⟨state, rfl⟩, fun _ => ⟨_, rfl⟩⟩

theorem compactSection_cases (environment : Environment)
    (store : KeyValueStore) :
    CompactOutcome environment store
      (store.compactSection environment).1
      (store.compactSection environment).2 := by
  let purged := store.purgeExpired environment
  have hrewrite := rewriteLive_cases environment purged
  rw [compactSection_eq_rewriteLive]
  generalize purged.rewriteLive environment = rewrite at hrewrite ⊢
  obtain ⟨read, result⟩ := rewrite
  cases hrewrite with
  | failed status hdrained => exact .failed read status hdrained
  | lost status hreadable hlost => exact .lost read status ⟨hreadable, hlost⟩
  | rewritten state live hlive hview hold hnew hindex =>
      have hvisible := visible_of_canonical hlive
      have hcases : CompactOutcome environment store
          (read.indexCompacted state) _ :=
        .compacted _ live hlive hvisible
          (view_indexCompacted hview (hindex environment.nowMs hvisible))
      rw [← hold, ← hnew] at hcases
      exact hcases

/-- Without I/O failure the loop hands over valid records. -/
theorem readLiveRecords_valid (hopenAnswers : environment.openAnswers = {})
    (hreads : ∀ key, environment.read key = {})
    (hcoherent : store.view.Coherent) {keys : List Bytes}
    (hkeys : ∀ key ∈ keys, (store.index.lookup key).isSome) :
    ∃ read records, store.readLiveRecords environment keys =
        (read, .ok records) ∧
      ∀ record ∈ sortRecords records, record.Valid := by
  obtain ⟨records, hrecords⟩ :=
    readLiveRecords_faultless hopenAnswers hreads hcoherent hkeys
  obtain ⟨heq, -⟩ := readLiveRecords_ok hkeys hrecords
  refine ⟨_, records, Prod.ext rfl hrecords, ?_⟩
  intro record hrecord
  rw [mem_sortRecords, heq, List.mem_filterMap] at hrecord
  obtain ⟨key, -, hlive⟩ := hrecord
  exact valid_liveRecord (hcoherent.drained (.settled _)) hlive

theorem compactSection_faultless (hopenAnswers : environment.openAnswers = {})
    (hreads : ∀ key, environment.read key = {})
    (hcompact : environment.compact = {}) (hcoherent : store.view.Coherent) :
    ∃ summary, (store.compactSection environment).2 = .ok summary := by
  let purged := store.purgeExpired environment
  have hpurged : purged.view.Coherent :=
    hcoherent.upkeep (upkeep_purgeExpired environment store)
  obtain ⟨read, records, hloop, hvalid⟩ := readLiveRecords_valid hopenAnswers
    hreads hpurged (isSome_of_visited environment purged)
  obtain ⟨state, hstate⟩ :=
    AppendOnlyStore.compact_faultless hvalid read.storage
  refine (compactSection_ok_iff environment store).mpr
    ⟨state, (rewriteLive_ok_iff environment purged).mpr ⟨records, ?_, ?_⟩⟩
  · rw [hloop]
  · rw [hloop, hopenAnswers, hcompact]
    exact hstate

theorem opened_compactSection (environment : Environment)
    (store : KeyValueStore) :
    (store.compactSection environment).1.opened = store.opened := by
  have hopened : _ = store.opened :=
    opened_rewriteLive environment (store.purgeExpired environment)
  rw [compactSection_eq_rewriteLive]
  generalize (store.purgeExpired environment).rewriteLive environment =
    rewrite at hopened ⊢
  obtain ⟨read, result⟩ := rewrite
  cases result with
  | error status => exact hopened
  | ok state => exact hopened

end KeyValueStore

end MiniKV
