import MiniKV.Concrete.KeyValueStore
import MiniKV.Recovery.Language

/-!
# What a running store shows

The data file with what the put area adds to it, the index and the cache decide
what the store answers.  A view
is coherent when every index entry points to a whole Set record of its key and
every cached value is the one its index entry points to.
-/

namespace MiniKV

/-- The part of the store that its answers depend on. -/
structure View where
  bytes : Bytes
  pending : Bytes
  index : Index
  cache : LruCache Bytes Bytes

def KeyValueStore.view (store : KeyValueStore) : View :=
  ⟨store.storage.bytes, store.storage.pending, store.index, store.cache⟩

namespace View

/-- The view behind a seek that works. -/
def settled (view : View) : View :=
  { view with
    bytes := view.bytes ++ view.pending
    pending := [] }

@[simp]
theorem settled_settled (view : View) : view.settled.settled = view.settled := by
  rw [settled, settled, List.append_nil]

/-- A part of the put area has been written, and all of it is still held or
none. -/
def Drained (view later : View) : Prop :=
  ∃ rest held, rest <+: view.pending ∧
    (held = [] ∨ held = view.pending) ∧
    later = { view with bytes := view.bytes ++ rest, pending := held }

/-- The same with one of these faults, or without a write. -/
def DrainedBy (faults : Option ℕ → Prop) (view later : View) : Prop :=
  ∃ rest held,
    (rest = [] ∨ ∃ fault, faults fault ∧
      rest = AppendOnlyStore.drained fault view.pending) ∧
    (held = [] ∨ held = view.pending) ∧
    later = { view with bytes := view.bytes ++ rest, pending := held }

/-- The bytes that an index entry points to. -/
def valueAt (view : View) (metadata : RecordMetadata) : Bytes :=
  slice view.bytes metadata.valueOffset metadata.valueSize.toNat

/-- The value and the expiry behind a key, expired or not. -/
def contents (view : View) (key : Bytes) : Option (Bytes × Int64) :=
  (view.index.lookup key).map fun metadata =>
    (view.valueAt metadata, metadata.expiresAtMs)

/-- An index entry points to a whole Set record of its key. -/
structure PointsTo (view : View) (key : Bytes) (metadata : RecordMetadata)
    (entry : LogEntry) : Prop where
  stored : StoredAt view.bytes metadata.recordOffset entry
  key_eq : entry.record.key = key
  operation_eq : entry.record.operation = .set
  metadata_eq : metadata = entry.metadata metadata.recordOffset

structure Coherent (view : View) : Prop where
  points : ∀ key metadata, view.index.lookup key = some metadata →
    ∃ entry, view.PointsTo key metadata entry
  wellFormed : view.cache.WellFormed
  cached : ∀ key value, view.cache.Holds key value →
    ∃ metadata, view.index.lookup key = some metadata ∧
      value = view.valueAt metadata

variable {view : View} {key : Bytes} {metadata : RecordMetadata}
variable {entry : LogEntry}

namespace Drained

variable {later : View}

theorem refl (view : View) : view.Drained view :=
  ⟨[], view.pending, List.nil_prefix, Or.inr rfl, by rw [List.append_nil]⟩

theorem settled (view : View) : view.Drained view.settled :=
  ⟨view.pending, [], List.prefix_refl _, Or.inl rfl, rfl⟩

/-- An empty put area writes nothing. -/
theorem eq_of_pending (hdrained : view.Drained later)
    (hpending : view.pending = []) : later = view := by
  obtain ⟨rest, held, hrest, hheld, rfl⟩ := hdrained
  rw [hpending] at hrest hheld
  rw [List.prefix_nil.mp hrest, hheld.elim id id, List.append_nil, ← hpending]

/-- Behind a seek that works there is nothing left to write. -/
theorem behind_seek {middle : View}
    (hmiddle : middle = view ∨ middle = view.settled)
    (hdrained : middle.Drained later) : view.Drained later := by
  rcases hmiddle with rfl | rfl
  · exact hdrained
  · rw [hdrained.eq_of_pending rfl]
    exact settled view

theorem index_eq (hdrained : view.Drained later) : later.index = view.index := by
  obtain ⟨-, -, -, -, rfl⟩ := hdrained
  rfl

theorem cache_eq (hdrained : view.Drained later) : later.cache = view.cache := by
  obtain ⟨-, -, -, -, rfl⟩ := hdrained
  rfl

end Drained

namespace DrainedBy

variable {later : View} {faults : Option ℕ → Prop}

theorem refl (view : View) : view.DrainedBy faults view :=
  ⟨[], view.pending, Or.inl rfl, Or.inr rfl, by rw [List.append_nil]⟩

theorem drained (hdrained : view.DrainedBy faults later) :
    view.Drained later := by
  obtain ⟨rest, held, hrest, hheld, rfl⟩ := hdrained
  refine ⟨rest, held, ?_, hheld, rfl⟩
  rcases hrest with rfl | ⟨fault, -, rfl⟩
  · exact List.nil_prefix
  · exact AppendOnlyStore.drained_prefix fault _

theorem mono {others : Option ℕ → Prop} (hdrained : view.DrainedBy faults later)
    (hfaults : ∀ fault, faults fault → others fault) :
    view.DrainedBy others later := by
  obtain ⟨rest, held, hrest, hheld, hlater⟩ := hdrained
  exact ⟨rest, held, hrest.imp_right fun ⟨fault, hfault, hwritten⟩ =>
    ⟨fault, hfaults fault hfault, hwritten⟩, hheld, hlater⟩

end DrainedBy

theorem contents_eq_some_iff {value : Bytes} {expiresAtMs : Int64} :
    view.contents key = some (value, expiresAtMs) ↔
      ∃ metadata, view.index.lookup key = some metadata ∧
        view.valueAt metadata = value ∧
        metadata.expiresAtMs = expiresAtMs := by
  simp [contents]

theorem contents_of_lookup (hfound : view.index.lookup key = some metadata) :
    view.contents key =
      some (view.valueAt metadata, metadata.expiresAtMs) := by
  rw [contents, hfound]
  rfl

theorem contents_eq_none_iff :
    view.contents key = none ↔ view.index.lookup key = none := by
  simp [contents]

namespace PointsTo

theorem valueAt_eq (hpoints : view.PointsTo key metadata entry) :
    view.valueAt metadata = entry.record.value := by
  rw [hpoints.metadata_eq]
  exact hpoints.stored.slice_value

/-- Bytes behind the file do not move what index entries point to. -/
theorem append (hpoints : view.PointsTo key metadata entry) {later : View}
    {rest : Bytes} (hbytes : later.bytes = view.bytes ++ rest) :
    later.PointsTo key metadata entry where
  stored := hbytes ▸ hpoints.stored.append rest
  key_eq := hpoints.key_eq
  operation_eq := hpoints.operation_eq
  metadata_eq := hpoints.metadata_eq

theorem valueAt_append (hpoints : view.PointsTo key metadata entry)
    {later : View} {rest : Bytes} (hbytes : later.bytes = view.bytes ++ rest) :
    later.valueAt metadata = view.valueAt metadata := by
  rw [hpoints.valueAt_eq, (hpoints.append hbytes).valueAt_eq]

end PointsTo

namespace Coherent

theorem points_append (hcoherent : view.Coherent) {later : View} {rest : Bytes}
    (hbytes : later.bytes = view.bytes ++ rest)
    (hfound : view.index.lookup key = some metadata) :
    ∃ entry, later.PointsTo key metadata entry := by
  obtain ⟨entry, hpoints⟩ := hcoherent.points key metadata hfound
  exact ⟨entry, hpoints.append hbytes⟩

theorem valueAt_append (hcoherent : view.Coherent) {later : View}
    {rest : Bytes} (hbytes : later.bytes = view.bytes ++ rest)
    (hfound : view.index.lookup key = some metadata) :
    later.valueAt metadata = view.valueAt metadata := by
  obtain ⟨entry, hpoints⟩ := hcoherent.points key metadata hfound
  exact hpoints.valueAt_append hbytes

end Coherent

/-! ## The canonical log of a view -/

/-- One Set record for each key of the view, in ascending key order. -/
structure Canonical (view : View) (live : List LogEntry) : Prop where
  sorted : (live.map fun entry => entry.record.key).Pairwise (· < ·)
  written : ∀ entry ∈ live,
    entry.record.operation = .set ∧ entry.reserved = 0
  contents : ∀ key value expiresAtMs,
    (∃ entry ∈ live, entry.record.key = key ∧ entry.record.value = value ∧
      entry.record.expiresAtMs = expiresAtMs) ↔
    view.contents key = some (value, expiresAtMs)

/-- What is canonical depends on the contents only. -/
theorem Canonical.of_contents {other : View} {live : List LogEntry}
    (hlive : other.Canonical live) (hcontents : other.contents = view.contents) :
    view.Canonical live where
  sorted := hlive.sorted
  written := hlive.written
  contents := hcontents ▸ hlive.contents

/-- The view that recovery builds from a whole log. -/
def ofLog (nowMs : Int64) (entries : List LogEntry)
    (cache : LruCache Bytes Bytes) : View :=
  ⟨logFormat.imageAll entries, [], replay nowMs entries, cache.clear⟩

/-- The view behind a recovery.  A log without a tail keeps what the put area
adds to it. -/
def reopened (nowMs : Int64) (entries : List LogEntry) (tail : Bytes)
    (view : View) : View :=
  settled
    { ofLog nowMs entries view.cache with
      pending := if tail = [] then view.pending else [] }

theorem reopened_of_pending (hpending : view.pending = []) (nowMs : Int64)
    (entries : List LogEntry) (tail : Bytes) :
    view.reopened nowMs entries tail = ofLog nowMs entries view.cache := by
  rw [reopened, hpending, ite_self, settled, List.append_nil]
  rfl

theorem lookup_ofLog {nowMs : Int64} {entries : List LogEntry}
    {cache : LruCache Bytes Bytes} :
    (ofLog nowMs entries cache).index.lookup key = some metadata ↔
      ∃ earlier entry, LastFor key entries earlier entry ∧
        entry.Visible nowMs ∧ metadata = entry.metadata (logSize earlier) :=
  lookup_replay_eq_some_iff nowMs entries key metadata

theorem pointsTo_ofLog {nowMs : Int64} {entries earlier : List LogEntry}
    {cache : LruCache Bytes Bytes} (hlast : LastFor key entries earlier entry)
    (hvisible : entry.Visible nowMs) :
    (ofLog nowMs entries cache).PointsTo key
      (entry.metadata (logSize earlier)) entry where
  stored := hlast.storedAt
  key_eq := hlast.1
  operation_eq := hvisible.1
  metadata_eq := rfl

theorem coherent_ofLog (nowMs : Int64) (entries : List LogEntry)
    (cache : LruCache Bytes Bytes) : (ofLog nowMs entries cache).Coherent where
  points key metadata hfound := by
    obtain ⟨earlier, entry, hlast, hvisible, rfl⟩ := lookup_ofLog.mp hfound
    exact ⟨entry, pointsTo_ofLog hlast hvisible⟩
  wellFormed := cache.wellFormed_clear
  cached key value hholds := absurd hholds (cache.not_holds_clear key value)

theorem contents_ofLog {nowMs : Int64} {entries : List LogEntry}
    {cache : LruCache Bytes Bytes} {value : Bytes} {expiresAtMs : Int64} :
    (ofLog nowMs entries cache).contents key = some (value, expiresAtMs) ↔
      ∃ earlier entry, LastFor key entries earlier entry ∧
        entry.Visible nowMs ∧ entry.record.value = value ∧
        entry.record.expiresAtMs = expiresAtMs := by
  rw [contents_eq_some_iff]
  constructor
  · rintro ⟨metadata, hfound, hvalue, hexpiresAtMs⟩
    obtain ⟨earlier, entry, hlast, hvisible, rfl⟩ := lookup_ofLog.mp hfound
    rw [(pointsTo_ofLog hlast hvisible).valueAt_eq] at hvalue
    exact ⟨earlier, entry, hlast, hvisible, hvalue, hexpiresAtMs⟩
  · rintro ⟨earlier, entry, hlast, hvisible, hvalue, hexpiresAtMs⟩
    refine ⟨entry.metadata (logSize earlier),
      lookup_ofLog.mpr ⟨earlier, entry, hlast, hvisible, rfl⟩, ?_,
      hexpiresAtMs⟩
    rw [(pointsTo_ofLog hlast hvisible).valueAt_eq, hvalue]

/-- In a log with one record for each key every record is the last of its
key. -/
theorem exists_lastFor {live : List LogEntry}
    (hsorted : (live.map fun entry => entry.record.key).Pairwise (· < ·))
    (hentry : entry ∈ live) :
    ∃ earlier, LastFor entry.record.key live earlier entry := by
  obtain ⟨earlier, later, rfl⟩ := List.append_of_mem hentry
  refine ⟨earlier, rfl, later, rfl, fun other hother => ?_⟩
  rw [List.map_append, List.map_cons, List.pairwise_append,
    List.pairwise_cons] at hsorted
  exact ne_of_gt (hsorted.2.1.1 _ (List.mem_map_of_mem hother))

/-- Compaction keeps the contents: the canonical log shows what the view
showed. -/
theorem Canonical.contents_ofLog {live : List LogEntry}
    (hlive : view.Canonical live) {nowMs : Int64}
    (hvisible : ∀ entry ∈ live, entry.Visible nowMs)
    (cache : LruCache Bytes Bytes) :
    (ofLog nowMs live cache).contents = view.contents := by
  funext key
  apply Option.ext
  intro found
  obtain ⟨value, expiresAtMs⟩ := found
  rw [View.contents_ofLog, ← hlive.contents]
  constructor
  · rintro ⟨earlier, entry, ⟨hkey, later, hsplit, -⟩, -, hvalue, hexpiresAtMs⟩
    exact ⟨entry, by simp [hsplit], hkey, hvalue, hexpiresAtMs⟩
  · rintro ⟨entry, hentry, rfl, hvalue, hexpiresAtMs⟩
    obtain ⟨earlier, hlast⟩ := exists_lastFor hlive.sorted hentry
    exact ⟨earlier, entry, hlast, hvisible entry hentry, hvalue, hexpiresAtMs⟩

end View

end MiniKV
