import MiniKV.Store.View

/-!
# What an operation can do to a view

Every operation is a few of these effects in a row.  Upkeep covers what leaves
the stored contents alone, up to entries that have expired; it includes that the
put area is written.  The other effects are the bytes of an append, and the
reload of the index when the store opens.
-/

namespace MiniKV

/-- The effects that store nothing new. -/
inductive Upkeep (nowMs : Int64) : View → View → Prop
  | drained (view : View) {later : View} (hdrained : view.Drained later) :
      Upkeep nowMs view later
  | touched (view : View) (key : Bytes) :
      Upkeep nowMs view { view with cache := (view.cache.get key).1 }
  | filled (view : View) (key : Bytes) (metadata : RecordMetadata)
      (hfound : view.index.lookup key = some metadata) :
      Upkeep nowMs view
        { view with cache := view.cache.put key (view.valueAt metadata) }
  | dropped (view : View) (key : Bytes) (metadata : RecordMetadata)
      (hfound : view.index.lookup key = some metadata)
      (hexpired : isExpired metadata.expiresAtMs nowMs = true) :
      Upkeep nowMs view
        { view with
          index := view.index.erase key
          cache := view.cache.erase key }
  | purged (view : View) (keys : List Bytes)
      (hkeys : ∀ key, key ∈ keys ↔ ∃ metadata,
        view.index.lookup key = some metadata ∧
          isExpired metadata.expiresAtMs nowMs = true) :
      Upkeep nowMs view
        { view with
          index := view.index.filter fun _ metadata =>
            !isExpired metadata.expiresAtMs nowMs
          cache := keys.foldl (fun cache key => cache.erase key) view.cache }
  | compacted (view : View) (live : List LogEntry)
      (hlive : view.Canonical live)
      (hvisible : ∀ entry ∈ live, entry.Visible nowMs) :
      Upkeep nowMs view (View.ofLog nowMs live view.cache)

/-- Some upkeep in a row. -/
abbrev Upkeeps (nowMs : Int64) : View → View → Prop :=
  Relation.ReflTransGen (Upkeep nowMs)

namespace View

/-- The view behind a successful append of a Set record. -/
def afterSet (view : View) (record : Record) (hvalid : record.Valid) : View where
  bytes := view.bytes ++ AppendOnlyStore.recordBytes record
  pending := view.pending
  index := view.index.insert record.key
    ((LogEntry.ofRecord record hvalid).metadata view.bytes.length)
  cache := view.cache.put record.key record.value

/-- The view behind a successful append of a Delete record. -/
def afterRemove (view : View) (record : Record) : View where
  bytes := view.bytes ++ AppendOnlyStore.recordBytes record
  pending := view.pending
  index := view.index.erase record.key
  cache := view.cache.erase record.key

end View

/-- One effect of an operation.  `lossy` says whether an append may fail and
leave bytes behind, in the file or in the put area. -/
inductive Effect (nowMs : Int64) (lossy : Prop) : View → View → Prop
  | upkeep (view : View) {later : View} (hupkeep : Upkeep nowMs view later) :
      Effect nowMs lossy view later
  | stray (view : View) (hlossy : lossy) (rest held : Bytes) :
      Effect nowMs lossy view
        { view with
          bytes := view.bytes ++ rest
          pending := held }
  | set (view : View) (record : Record) (hvalid : record.Valid)
      (hoperation : record.operation = .set) (hpending : view.pending = []) :
      Effect nowMs lossy view (view.afterSet record hvalid)
  | removed (view : View) (record : Record) (hvalid : record.Valid)
      (hoperation : record.operation = .delete)
      (hpending : view.pending = []) :
      Effect nowMs lossy view (view.afterRemove record)
  | recovered (view : View) (entries : List LogEntry) (tail held : Bytes)
      (hlog : LogWithTail entries tail view.bytes)
      (hheld : held = [] ∨ tail = [] ∧ held = view.pending) :
      Effect nowMs lossy view
        { View.ofLog nowMs entries view.cache with pending := held }

namespace View.Coherent

variable {view : View}

/-! ## Effects keep a view coherent -/

/-- What the put area holds does not matter to the index and the cache. -/
theorem held (hcoherent : view.Coherent) (held : Bytes) :
    ({ view with pending := held } : View).Coherent where
  points _ _ := hcoherent.points_append (List.append_nil _).symm
  wellFormed := hcoherent.wellFormed
  cached := hcoherent.cached

theorem stray (hcoherent : view.Coherent) (rest held : Bytes) :
    ({ view with bytes := view.bytes ++ rest, pending := held } :
      View).Coherent where
  points _ _ hfound := hcoherent.points_append rfl hfound
  wellFormed := hcoherent.wellFormed
  cached key value hholds := by
    obtain ⟨metadata, hfound, hvalue⟩ := hcoherent.cached key value hholds
    exact ⟨metadata, hfound,
      hvalue.trans (hcoherent.valueAt_append rfl hfound).symm⟩

/-- Removing index entries together with their cached values. -/
theorem restrict (hcoherent : view.Coherent) {index : Index}
    {cache : LruCache Bytes Bytes}
    (hindex : ∀ key metadata, index.lookup key = some metadata →
      view.index.lookup key = some metadata)
    (hwellFormed : cache.WellFormed)
    (hcache : ∀ key value, cache.Holds key value →
      view.cache.Holds key value ∧ index.lookup key = view.index.lookup key) :
    (⟨view.bytes, view.pending, index, cache⟩ : View).Coherent where
  points key metadata hfound :=
    hcoherent.points_append (List.append_nil _).symm
      (hindex key metadata hfound)
  wellFormed := hwellFormed
  cached key value hholds := by
    obtain ⟨hheld, hlookup⟩ := hcache key value hholds
    obtain ⟨metadata, hfound, hvalue⟩ := hcoherent.cached key value hheld
    exact ⟨metadata, hlookup.trans hfound, hvalue⟩

theorem drained (hcoherent : view.Coherent) {later : View}
    (hdrained : view.Drained later) : later.Coherent := by
  obtain ⟨rest, held, -, -, rfl⟩ := hdrained
  exact hcoherent.stray rest held

theorem settled (hcoherent : view.Coherent) : view.settled.Coherent :=
  hcoherent.drained (.settled view)

theorem upkeep (hcoherent : view.Coherent) {nowMs : Int64} {later : View}
    (hupkeep : Upkeep nowMs view later) : later.Coherent := by
  have hcache := hcoherent.wellFormed
  cases hupkeep with
  | drained hdrained => exact hcoherent.drained hdrained
  | touched key =>
      apply hcoherent.restrict (fun _ _ hfound => hfound)
        (LruCache.wellFormed_get hcache key)
      intro other value hholds
      exact ⟨(LruCache.holds_get key other value).mp hholds, rfl⟩
  | filled key metadata hfound =>
      refine ⟨fun _ _ => hcoherent.points_append (List.append_nil _).symm,
        LruCache.wellFormed_put hcache _ _, ?_⟩
      intro other value hholds
      rcases LruCache.holds_put_cases hcache hholds with
        ⟨rfl, rfl⟩ | ⟨-, hheld⟩
      · exact ⟨metadata, hfound, rfl⟩
      · exact hcoherent.cached other value hheld
  | dropped key metadata hfound hexpired =>
      apply hcoherent.restrict ?_ (LruCache.wellFormed_erase hcache key)
      · intro other value hholds
        obtain ⟨hother, hheld⟩ :=
          (LruCache.holds_erase hcache key other value).mp hholds
        exact ⟨hheld, FiniteMap.lookup_erase_of_ne _ hother⟩
      · intro other metadata hlookup
        rw [FiniteMap.lookup_erase] at hlookup
        split at hlookup
        · cases hlookup
        · exact hlookup
  | purged keys hkeys =>
      obtain ⟨hwellFormed, hholds⟩ := LruCache.foldl_erase keys hcache
      apply hcoherent.restrict ?_ hwellFormed
      · intro other value hother
        obtain ⟨hlive, hheld⟩ := (hholds other value).mp hother
        refine ⟨hheld, ?_⟩
        obtain ⟨metadata, hfound, -⟩ := hcoherent.cached other value hheld
        have hfresh : isExpired metadata.expiresAtMs nowMs = false := by
          rw [← Bool.not_eq_true]
          intro hexpired
          exact hlive ((hkeys other).mpr ⟨metadata, hfound, hexpired⟩)
        rw [FiniteMap.lookup_filter, hfound]
        simp [hfresh]
      · intro other metadata hlookup
        rw [FiniteMap.lookup_filter, Option.filter_eq_some_iff] at hlookup
        exact hlookup.1
  | compacted live hlive hvisible => exact coherent_ofLog nowMs live _

theorem upkeeps (hcoherent : view.Coherent) {nowMs : Int64} {later : View}
    (hupkeeps : Upkeeps nowMs view later) :
    later.Coherent := by
  induction hupkeeps with
  | refl => exact hcoherent
  | tail _ hlast ih => exact ih.upkeep hlast

/-- The new index entry points to the record at the old end of the file. -/
theorem pointsTo_afterSet (view : View) {record : Record}
    (hvalid : record.Valid) (hoperation : record.operation = .set) :
    (view.afterSet record hvalid).PointsTo record.key
      ((LogEntry.ofRecord record hvalid).metadata view.bytes.length)
      (LogEntry.ofRecord record hvalid) where
  stored := by
    rw [StoredAt, LogEntry.image_ofRecord]
    change _ <+: (view.bytes ++ AppendOnlyStore.recordBytes record).drop
      view.bytes.length
    rw [List.drop_left]
  key_eq := rfl
  operation_eq := hoperation
  metadata_eq := rfl

theorem afterSet (hcoherent : view.Coherent) {record : Record}
    (hvalid : record.Valid) (hoperation : record.operation = .set) :
    (view.afterSet record hvalid).Coherent where
  points key metadata hfound := by
    change (view.index.insert _ _).lookup key = _ at hfound
    rw [FiniteMap.lookup_insert] at hfound
    split at hfound
    next hkey =>
      cases hfound
      rw [hkey]
      exact ⟨_, pointsTo_afterSet view hvalid hoperation⟩
    · exact hcoherent.points_append rfl hfound
  wellFormed := LruCache.wellFormed_put hcoherent.wellFormed _ _
  cached key value hholds := by
    rcases LruCache.holds_put_cases hcoherent.wellFormed hholds with
      ⟨rfl, rfl⟩ | ⟨hkey, hheld⟩
    · exact ⟨_, FiniteMap.lookup_insert_self _ _ _,
        (pointsTo_afterSet view hvalid hoperation).valueAt_eq.symm⟩
    · obtain ⟨metadata, hfound, hvalue⟩ := hcoherent.cached key value hheld
      exact ⟨metadata,
        (FiniteMap.lookup_insert_of_ne _ _ hkey).trans hfound,
        hvalue.trans (hcoherent.valueAt_append rfl hfound).symm⟩

theorem afterRemove (hcoherent : view.Coherent) (record : Record) :
    (view.afterRemove record).Coherent where
  points key metadata hfound := by
    change (view.index.erase _).lookup key = _ at hfound
    rw [FiniteMap.lookup_erase] at hfound
    split at hfound
    · cases hfound
    · exact hcoherent.points_append rfl hfound
  wellFormed := LruCache.wellFormed_erase hcoherent.wellFormed _
  cached key value hholds := by
    obtain ⟨hkey, hheld⟩ :=
      (LruCache.holds_erase hcoherent.wellFormed _ _ _).mp hholds
    obtain ⟨metadata, hfound, hvalue⟩ := hcoherent.cached key value hheld
    exact ⟨metadata, (FiniteMap.lookup_erase_of_ne _ hkey).trans hfound,
      hvalue.trans (hcoherent.valueAt_append rfl hfound).symm⟩

theorem effect (hcoherent : view.Coherent) {nowMs : Int64} {lossy : Prop}
    {later : View} (heffect : Effect nowMs lossy view later) :
    later.Coherent := by
  cases heffect with
  | upkeep hupkeep => exact hcoherent.upkeep hupkeep
  | stray hlossy rest held => exact hcoherent.stray rest held
  | set record hvalid hoperation hpending =>
      exact hcoherent.afterSet hvalid hoperation
  | removed record hvalid hoperation hpending =>
      exact hcoherent.afterRemove record
  | recovered entries tail held hlog hheld =>
      exact (coherent_ofLog nowMs entries _).held held

end View.Coherent

end MiniKV
