import MiniKV.Store.Runs

/-!
# The cache is transparent

Two stores that differ in their caches only, in contents and in capacity, give
the same answers.  Every operation but `get` does the same to the rest of both;
a `get` that hits answers what the file holds, and one that misses reads it
through a seek, which writes what a failed append has left in the put area.
They stay so exactly as long as no such write happens on one side alone.
-/

namespace MiniKV

namespace AppendOnlyStore

variable {store : AppendOnlyStore}

theorem fileOpen_appendRecordLocked (openAnswers : OpenAnswers)
    (answers : AppendAnswers) (record : Record)
    (hopen : store.fileOpen = true) :
    (store.appendRecordLocked openAnswers answers record).1.fileOpen =
      true := by
  have hsought : (store.drain answers.drain).1.fileOpen = true := by
    rwa [fileOpen_drain]
  rw [appendRecordLocked, ensureOpenLocked_of_open _ _ hopen]
  dsimp only
  split
  · split
    · split
      · rfl
      · split
        · rfl
        · exact hsought
    · exact hsought
  · exact hopen

theorem fileOpen_appendDelete (openAnswers : OpenAnswers)
    (answers : AppendAnswers) (key : Bytes) (hopen : store.fileOpen = true) :
    (store.appendDelete openAnswers answers key).1.fileOpen = true := by
  have happended := fileOpen_appendRecordLocked openAnswers answers
    ⟨.delete, key, [], 0⟩ hopen
  rw [appendDelete]
  split
  next storage metadata heq =>
    rw [heq] at happended
    exact happended
  next storage status heq =>
    rw [heq] at happended
    exact happended

/-- Compaction closes the stream only to open it again. -/
theorem fileOpen_compact (openAnswers : OpenAnswers) (records : List Record)
    (hopen : store.fileOpen = true) :
    (store.compact openAnswers {} records).1.fileOpen = true := by
  simp only [compact, ensureOpenLocked_of_open _ _ hopen, Status.ok_success,
    if_true, reopenLocked, ensureOpenLocked_faultless]
  split
  · exact hopen
  · exact fileOpen_opened _

end AppendOnlyStore

namespace KeyValueStore

/-- The same store with another cache. -/
def recached (capacity : ℕ) (cache : LruCache Bytes Bytes)
    (store : KeyValueStore) : KeyValueStore :=
  { store with
    config := { store.config with cacheCapacity := capacity }
    cache := cache }

/-- Equal answers, and stores that differ in their caches only. -/
def Mirrors {Answer : Type} (capacity : ℕ)
    (left right : KeyValueStore × Answer) : Prop :=
  left.2 = right.2 ∧ ∃ cache, right.1 = left.1.recached capacity cache

variable {environment : Environment} {store : KeyValueStore}
variable (capacity : ℕ) (cache : LruCache Bytes Bytes)

@[simp]
theorem opened_recached (store : KeyValueStore) :
    (store.recached capacity cache).opened = store.opened := rfl

@[simp]
theorem storage_recached (store : KeyValueStore) :
    (store.recached capacity cache).storage = store.storage := rfl

@[simp]
theorem index_recached (store : KeyValueStore) :
    (store.recached capacity cache).index = store.index := rfl

@[simp]
theorem find_recached (store : KeyValueStore) (nowMs : Int64) (key : Bytes) :
    (store.recached capacity cache).find nowMs key = store.find nowMs key := rfl

@[simp]
theorem cleanupIntervalMs_recached (store : KeyValueStore) :
    (store.recached capacity cache).config.cleanupIntervalMs =
      store.config.cleanupIntervalMs := rfl

@[simp]
theorem startBackgroundCleaner_recached (store : KeyValueStore) :
    (store.recached capacity cache).config.startBackgroundCleaner =
      store.config.startBackgroundCleaner := rfl

/-! ## Operations that do not ask the cache -/

theorem mirrors_setSection (environment : Environment) (key value : Bytes)
    (expiresAtMs : Int64) (store : KeyValueStore) :
    Mirrors capacity (store.setSection environment key value expiresAtMs)
      ((store.recached capacity cache).setSection environment key value
        expiresAtMs) := by
  rw [setSection, setSection, opened_recached, storage_recached]
  by_cases hopened : store.opened = true
  · rw [if_pos hopened, if_pos hopened]
    rcases store.storage.appendSet environment.openAnswers environment.append
      key value expiresAtMs with ⟨storage, result⟩
    cases result with
    | error status => exact ⟨rfl, _, rfl⟩
    | ok metadata => exact ⟨rfl, _, rfl⟩
  · rw [if_neg hopened, if_neg hopened]
    exact ⟨rfl, _, rfl⟩

theorem mirrors_set (environment : Environment) (key value : Bytes)
    (ttl : Option Int64) (store : KeyValueStore) :
    Mirrors capacity (store.set environment key value ttl)
      ((store.recached capacity cache).set environment key value ttl) := by
  rw [set, set]
  change Mirrors _ _ (if store.opened then _ else _)
  split
  · split
    · exact mirrors_setSection capacity cache environment key value _ store
    · exact ⟨rfl, _, rfl⟩
  · exact ⟨rfl, _, rfl⟩

theorem mirrors_removeSection (environment : Environment) (key : Bytes)
    (store : KeyValueStore) :
    Mirrors capacity (store.removeSection environment key)
      ((store.recached capacity cache).removeSection environment key) := by
  have hfind : (store.recached capacity cache).find environment.nowMs key =
      store.find environment.nowMs key := rfl
  rw [removeSection, removeSection, hfind]
  cases store.find environment.nowMs key with
  | missing => exact ⟨rfl, _, rfl⟩
  | expired => exact ⟨rfl, _, rfl⟩
  | live metadata =>
      change Mirrors _ _ (if (store.storage.appendDelete
        environment.openAnswers environment.append key).2.ok then _ else _)
      dsimp only
      split
      · exact ⟨rfl, _, rfl⟩
      · exact ⟨rfl, _, rfl⟩

theorem mirrors_remove (environment : Environment) (key : Bytes)
    (store : KeyValueStore) :
    Mirrors capacity (store.remove environment key)
      ((store.recached capacity cache).remove environment key) := by
  rw [remove, remove]
  change Mirrors _ _ (if store.opened then _ else _)
  split
  · split
    · exact mirrors_removeSection capacity cache environment key store
    · exact ⟨rfl, _, rfl⟩
  · exact ⟨rfl, _, rfl⟩

theorem mirrors_cleanupExpired (environment : Environment)
    (store : KeyValueStore) :
    Mirrors capacity (store.cleanupExpired environment)
      ((store.recached capacity cache).cleanupExpired environment) := by
  rw [cleanupExpired, cleanupExpired]
  change Mirrors _ _ (if store.opened then _ else _)
  split
  · exact ⟨rfl, _, rfl⟩
  · exact ⟨rfl, _, rfl⟩

theorem mirrors_keys (environment : Environment) (start : Bytes)
    (store : KeyValueStore) :
    Mirrors capacity (store.keys environment start)
      ((store.recached capacity cache).keys environment start) := by
  obtain ⟨-, cleaned, hcleaned⟩ :=
    mirrors_cleanupExpired capacity cache environment store
  rw [keys, keys]
  change Mirrors _ _ (if store.opened then _ else _)
  split
  · dsimp only
    rw [hcleaned]
    exact ⟨rfl, _, rfl⟩
  · exact ⟨rfl, _, rfl⟩

theorem readLiveRecords_recached (environment : Environment)
    (keys : List Bytes) (store : KeyValueStore) :
    (store.recached capacity cache).readLiveRecords environment keys =
      ((store.readLiveRecords environment keys).1.recached capacity cache,
        (store.readLiveRecords environment keys).2) := by
  induction keys generalizing store with
  | nil => rfl
  | cons key keys ih =>
      rw [readLiveRecords, readLiveRecords, index_recached]
      cases store.index.lookup key with
      | none => exact ih store
      | some metadata =>
          have hread : (store.recached capacity cache).readStored environment
              key metadata =
              ((store.readStored environment key metadata).1.recached capacity
                cache, (store.readStored environment key metadata).2) := rfl
          dsimp only
          rw [hread]
          rcases store.readStored environment key metadata with ⟨read, result⟩
          cases result with
          | error status => rfl
          | ok value =>
              dsimp only
              rw [ih read]
              rcases read.readLiveRecords environment keys with ⟨rest, outcome⟩
              cases outcome with
              | error status => rfl
              | ok records => rfl

theorem mirrors_compactSection (environment : Environment)
    (store : KeyValueStore) :
    Mirrors capacity (store.compactSection environment)
      ((store.recached capacity cache).compactSection environment) := by
  let purged := store.purgeExpired environment
  let erased := (store.expiredAt environment).foldl
    (fun cache key => cache.erase key) cache
  have hpurged : (store.recached capacity cache).purgeExpired environment =
      purged.recached capacity erased := rfl
  rw [compactSection, compactSection, hpurged]
  rw [readLiveRecords_recached, index_recached]
  rcases purged.readLiveRecords environment
    (environment.hashOrder purged.index).keys with ⟨read, outcome⟩
  cases outcome with
  | error status => exact ⟨rfl, _, rfl⟩
  | ok records =>
      dsimp only
      rw [storage_recached]
      rcases read.storage.compact environment.openAnswers environment.compact
        (sortRecords records) with ⟨storage, result⟩
      cases result with
      | error status => exact ⟨rfl, _, rfl⟩
      | ok state => exact ⟨rfl, _, rfl⟩

theorem mirrors_compact (environment : Environment) (store : KeyValueStore) :
    Mirrors capacity (store.compact environment)
      ((store.recached capacity cache).compact environment) := by
  rw [compact, compact]
  change Mirrors _ _ (if store.opened then _ else _)
  split
  · exact mirrors_compactSection capacity cache environment store
  · exact ⟨rfl, _, rfl⟩

theorem mirrors_close (store : KeyValueStore) :
    Mirrors capacity store.close (store.recached capacity cache).close := by
  rw [close, close]
  change Mirrors _ _ (if store.opened then _ else _)
  split
  · exact ⟨rfl, _, rfl⟩
  · exact ⟨rfl, _, rfl⟩

theorem mirrors_openStore (environment : Environment) (store : KeyValueStore) :
    Mirrors capacity (store.openStore environment)
      ((store.recached capacity cache).openStore environment) := by
  rw [openStore, openStore, opened_recached, storage_recached,
    cleanupIntervalMs_recached, startBackgroundCleaner_recached]
  split
  · exact ⟨rfl, _, rfl⟩
  split
  · exact ⟨rfl, _, rfl⟩
  dsimp only
  split
  · rcases (store.storage.openFile environment.openAnswers).1.recover
      environment.openAnswers environment.recover environment.nowMs with
      ⟨storage, result⟩
    cases result with
    | error status => exact ⟨rfl, _, rfl⟩
    | ok state =>
        dsimp only
        split
        · cases environment.startThread with
          | none => exact ⟨rfl, _, rfl⟩
          | some what => exact ⟨rfl, _, rfl⟩
        · exact ⟨rfl, _, rfl⟩
  · exact ⟨rfl, _, rfl⟩

/-! ## The stream of an open store -/

/-- While the store is open, so is its stream. -/
def Streams (store : KeyValueStore) : Prop :=
  store.opened = true → store.storage.fileOpen = true

omit capacity cache in
/-- A seek has nothing to do to an open store that holds nothing. -/
theorem Streams.settled_eq (hstreams : Streams store)
    (hopened : store.opened = true) (hpending : store.storage.pending = []) :
    store.storage.settled = store.storage := by
  rw [AppendOnlyStore.settled_of_pending hpending, AppendOnlyStore.opened,
    if_pos (hstreams hopened)]

omit capacity cache in
/-- What a reliable read does to the disk is its seek. -/
theorem fst_readStored (hreliable : environment.Reliable) (key : Bytes)
    (metadata : RecordMetadata) (store : KeyValueStore) :
    (store.readStored environment key metadata).1 =
      { store with storage := store.storage.settled } := by
  rw [readStored, hreliable.openAnswers, hreliable.read]
  dsimp only
  rw [AppendOnlyStore.fst_readValue, AppendOnlyStore.sought_faultless]

/-- A `get` of this key goes to the file. -/
structure ReadsFile (nowMs : Int64) (key : Bytes) (store : KeyValueStore) :
    Prop where
  opened : store.opened = true
  live : ∃ metadata, store.find nowMs key = .live metadata
  uncached : ∀ value, ¬ store.cache.Holds key value

omit capacity cache in
theorem readsFile_iff {nowMs : Int64} {key : Bytes} {metadata : RecordMetadata}
    (hwellFormed : store.cache.WellFormed) (hopened : store.opened = true)
    (hfind : store.find nowMs key = .live metadata) :
    store.ReadsFile nowMs key ↔ (store.cache.get key).2 = none := by
  have hheld := LruCache.get_eq_some_iff hwellFormed key
  rw [Option.eq_none_iff_forall_ne_some]
  constructor
  · intro hreads value hget
    exact hreads.uncached value ((hheld value).mp hget)
  · intro hmiss
    exact ⟨hopened, ⟨metadata, hfind⟩,
      fun value hholds => hmiss value ((hheld value).mpr hholds)⟩

omit capacity cache in
theorem fst_getLive (hreliable : environment.Reliable) (key : Bytes)
    (metadata : RecordMetadata) (store : KeyValueStore) :
    ∃ touched, (store.getLive environment key metadata).1 =
      { store with
        storage :=
          if (store.cache.get key).2 = none then store.storage.settled
          else store.storage
        cache := touched } := by
  cases hcached : (store.cache.get key).2 with
  | some value =>
      rw [getLive, lookupCache, hcached]
      exact ⟨_, rfl⟩
  | none =>
      rw [getLive, lookupCache, hcached]
      dsimp only
      have hread := fst_readStored hreliable key metadata
        { store with cache := (store.cache.get key).1 }
      generalize readStored environment key metadata _ = reading at hread ⊢
      obtain ⟨read, result⟩ := reading
      dsimp only at hread
      rw [hread]
      cases result with
      | error status => exact ⟨_, rfl⟩
      | ok value => exact ⟨_, rfl⟩

theorem fst_eraseIfExpired (key : Bytes) (nowMs : Int64)
    (store : KeyValueStore) :
    ∃ erased, ((store.recached capacity cache).eraseIfExpired key nowMs).1 =
      (store.eraseIfExpired key nowMs).1.recached capacity erased := by
  rw [eraseIfExpired, eraseIfExpired, index_recached]
  cases store.index.lookup key with
  | none => exact ⟨_, rfl⟩
  | some metadata =>
      dsimp only
      split
      · exact ⟨_, rfl⟩
      · exact ⟨_, rfl⟩

omit capacity cache in
/-- A `get` does to the disk what its read does, where it reads. -/
theorem storage_get (hreliable : environment.Reliable)
    (hcoherent : store.view.Coherent) (key : Bytes) :
    (store.ReadsFile environment.nowMs key →
      (store.get environment key).1.storage = store.storage.settled) ∧
    (¬ store.ReadsFile environment.nowMs key →
      (store.get environment key).1.storage = store.storage) := by
  let counted := { store with getOperations := store.getOperations + 1 }
  constructor
  · intro hreads
    obtain ⟨metadata, hfind⟩ := hreads.live
    have hkey : (validateKey key).ok = true :=
      validateKey_of_found hcoherent (lookup_of_find_live hfind).1
    have hmiss := (readsFile_iff hcoherent.wellFormed hreads.opened hfind).mp
      hreads
    have hcounted : counted.find environment.nowMs key = .live metadata := hfind
    obtain ⟨touched, htouched⟩ := fst_getLive hreliable key metadata counted
    rw [get, if_pos hreads.opened, if_pos hkey]
    dsimp only
    rw [hcounted]
    dsimp only
    rw [htouched, if_pos hmiss]
  · intro hreads
    rw [get]
    split
    next hopened =>
      split
      · dsimp only
        split
        · rfl
        · rw [eraseIfExpired]
          split
          · rfl
          · split <;> rfl
        next metadata hfind =>
          have hhit := mt (readsFile_iff hcoherent.wellFormed hopened hfind).mpr
            hreads
          obtain ⟨touched, htouched⟩ :=
            fst_getLive hreliable key metadata counted
          rw [htouched, if_neg hhit]
      · rfl
    · rfl

theorem fst_get (hreliable : environment.Reliable)
    (hcoherent : store.view.Coherent)
    (hother : (store.recached capacity cache).view.Coherent)
    (hstreams : Streams store) (key : Bytes)
    (halike : store.storage.pending = [] ∨
      (store.ReadsFile environment.nowMs key ↔
        (store.recached capacity cache).ReadsFile environment.nowMs key)) :
    ∃ touched, ((store.recached capacity cache).get environment key).1 =
      (store.get environment key).1.recached capacity touched := by
  let counted := { store with getOperations := store.getOperations + 1 }
  let mirror := store.recached capacity cache
  let mirrorCounted := { mirror with getOperations := mirror.getOperations + 1 }
  have hfind : mirrorCounted.find environment.nowMs key =
      counted.find environment.nowMs key := rfl
  rw [get, get]
  by_cases hopened : store.opened = true
  · have hotherOpened : mirror.opened = true := hopened
    rw [if_pos hopened, if_pos hotherOpened]
    split
    · dsimp only
      rw [hfind]
      cases hfound : counted.find environment.nowMs key with
      | missing => exact ⟨_, rfl⟩
      | expired => exact fst_eraseIfExpired capacity cache key _ counted
      | live metadata =>
          obtain ⟨touched, htouched⟩ :=
            fst_getLive hreliable key metadata counted
          obtain ⟨other, hmirror⟩ :=
            fst_getLive hreliable key metadata mirrorCounted
          have hleft := readsFile_iff hcoherent.wellFormed hopened hfound
          have hright := readsFile_iff hother.wellFormed hotherOpened hfound
          have hstorage : (if (cache.get key).2 = none then
              store.storage.settled else store.storage) =
              if (store.cache.get key).2 = none then store.storage.settled
              else store.storage := by
            rcases halike with hpending | halike
            · rw [hstreams.settled_eq hopened hpending, ite_self, ite_self]
            · rw [hleft, hright] at halike
              exact if_congr halike.symm rfl rfl
          refine ⟨other, ?_⟩
          dsimp only
          rw [htouched]
          exact hmirror.trans (congrArg (fun storage =>
            { mirrorCounted with storage := storage, cache := other }) hstorage)
    · exact ⟨_, rfl⟩
  · have hotherOpened : ¬ mirror.opened = true := hopened
    rw [if_neg hopened, if_neg hotherOpened]
    exact ⟨_, rfl⟩

theorem streams_set (environment : Environment) (key value : Bytes)
    (ttl : Option Int64) (hstreams : Streams store) :
    Streams (store.set environment key value ttl).1 := by
  intro hopened
  rw [opened_set] at hopened
  have hopen := hstreams hopened
  rw [set, if_pos hopened]
  split
  · have happended := AppendOnlyStore.fileOpen_appendRecordLocked
      environment.openAnswers environment.append
      ⟨.set, key, value, deadline environment.nowMs ttl⟩ hopen
    rw [setSection, if_pos hopened, AppendOnlyStore.appendSet]
    split
    next storage status heq =>
      rw [heq] at happended
      exact happended
    next storage metadata heq =>
      rw [heq] at happended
      exact happended
  · exact hopen

theorem streams_remove (environment : Environment) (key : Bytes)
    (hstreams : Streams store) :
    Streams (store.remove environment key).1 := by
  intro hopened
  rw [opened_remove] at hopened
  have hopen := hstreams hopened
  rw [remove, if_pos hopened]
  split
  · rw [removeSection]
    split
    · exact hopen
    · exact hopen
    · have happended := AppendOnlyStore.fileOpen_appendDelete
        environment.openAnswers environment.append key hopen
      dsimp only
      split
      · exact happended
      · exact happended
  · exact hopen

omit capacity cache in
theorem fileOpen_settled (store : AppendOnlyStore) :
    store.settled.fileOpen = true := by
  rw [AppendOnlyStore.settled, AppendOnlyStore.fileOpen_drain,
    AppendOnlyStore.fileOpen_opened]

theorem streams_get (hreliable : environment.Reliable)
    (hcoherent : store.view.Coherent) (key : Bytes)
    (hstreams : Streams store) : Streams (store.get environment key).1 := by
  intro hopened
  rw [opened_get] at hopened
  have hstorage := storage_get hreliable hcoherent key
  by_cases hreads : store.ReadsFile environment.nowMs key
  · rw [hstorage.1 hreads]
    exact fileOpen_settled store.storage
  · rw [hstorage.2 hreads]
    exact hstreams hopened

theorem fileOpen_readLiveRecords (hreliable : environment.Reliable)
    (hopen : store.storage.fileOpen = true) (keys : List Bytes) :
    (store.readLiveRecords environment keys).1.storage.fileOpen = true := by
  induction keys generalizing store with
  | nil => exact hopen
  | cons key keys ih =>
      rw [readLiveRecords]
      split
      · exact ih hopen
      next metadata hfound =>
        have hread : (store.readStored environment key
            metadata).1.storage.fileOpen = true := by
          rw [fst_readStored hreliable]
          exact fileOpen_settled store.storage
        generalize store.readStored environment key metadata = reading
          at hread ⊢
        obtain ⟨read, result⟩ := reading
        cases result with
        | error status => exact hread
        | ok value =>
            have hrest := ih hread
            dsimp only
            split
            next rest status heq =>
              rw [heq] at hrest
              exact hrest
            next rest records heq =>
              rw [heq] at hrest
              exact hrest

theorem streams_compact (hreliable : environment.Reliable)
    (hstreams : Streams store) :
    Streams (store.compact environment).1 := by
  intro hopened
  rw [opened_compact] at hopened
  have hopen : (store.purgeExpired environment).storage.fileOpen = true :=
    hstreams hopened
  have hread := fileOpen_readLiveRecords hreliable hopen
    (environment.hashOrder (store.purgeExpired environment).index).keys
  rw [compact, if_pos hopened, compactSection, hreliable.compact]
  split
  next read status heq =>
    rw [heq] at hread
    exact hread
  next read records heq =>
    rw [heq] at hread
    have hcompacted := AppendOnlyStore.fileOpen_compact
      environment.openAnswers (sortRecords records) hread
    split
    next storage status hresult =>
      rw [hresult] at hcompacted
      exact hcompacted
    next storage state hresult =>
      rw [hresult] at hcompacted
      exact hcompacted

theorem streams_openStore (hreliable : environment.Reliable)
    (hstreams : Streams store) :
    Streams (store.openStore environment).1 := by
  by_cases hopened : store.opened = true
  · rw [openStore, if_pos hopened]
    exact hstreams
  · intro hopens
    have hopening := store.storage.ensureOpenLocked_faultless
    rw [openStore, if_neg hopened, hreliable.openAnswers, hreliable.recover,
      AppendOnlyStore.openFile, hopening] at hopens ⊢
    split at hopens
    · exact absurd hopens hopened
    next hinterval =>
      rw [if_neg hinterval]
      simp only [Status.ok_success, if_true] at hopens ⊢
      cases hrecover : store.storage.opened.recover {} {} environment.nowMs with
      | mk storage result =>
          rw [hrecover] at hopens
          cases result with
          | error status => exact absurd hopens hopened
          | ok state =>
              obtain ⟨entries, tail, -, hstorage, -⟩ :=
                AppendOnlyStore.logWithTail_of_recover hrecover
              have hopen : storage.fileOpen = true := by
                rw [hstorage]
                exact AppendOnlyStore.fileOpen_recovered _ entries tail
              dsimp only
              split
              · split
                · exact hopen
                · exact hopen
              · exact hopen

theorem streams_perform {request : Request}
    (hreliable : request.environment.Reliable)
    (hcoherent : store.view.Coherent) (hstreams : Streams store) :
    Streams (store.perform request).1 := by
  obtain ⟨environment, call⟩ := request
  cases call with
  | set key value ttl => exact streams_set environment key value ttl hstreams
  | get key => exact streams_get hreliable hcoherent key hstreams
  | keyExists key =>
      have hget := streams_get hreliable hcoherent key hstreams
      rw [← fst_keyExists] at hget
      exact hget
  | remove key => exact streams_remove environment key hstreams
  | keys start =>
      intro hopened
      have hopen := hstreams ((opened_keys environment start store).symm.trans
        hopened)
      change (store.keys environment start).1.storage.fileOpen = true
      rw [keys, cleanupExpired]
      split
      · exact hopen
      · exact hopen
  | cleanupExpired =>
      intro hopened
      have hopen := hstreams
        ((opened_cleanupExpired environment store).symm.trans hopened)
      change (store.cleanupExpired environment).1.storage.fileOpen = true
      rw [cleanupExpired]
      split
      · exact hopen
      · exact hopen
  | compact => exact streams_compact hreliable hstreams
  | openStore => exact streams_openStore hreliable hstreams
  | close =>
      intro hopened
      change store.close.1.opened = true at hopened
      rw [close] at hopened
      split at hopened
      · cases hopened
      next hclosed => exact absurd hopened hclosed

/-! ## Runs on two caches -/

/-- This request reads a value from the file. -/
def AsksFile (request : Request) (store : KeyValueStore) : Prop :=
  ∃ key, (request.call = .get key ∨ request.call = .keyExists key) ∧
    store.ReadsFile request.nowMs key

/-- Nothing waits in the put area, or both stores ask the file or neither. -/
def AskAlike (request : Request) (stores : KeyValueStore × KeyValueStore) :
    Prop :=
  stores.1.storage.pending = [] ∨
    (stores.1.AsksFile request ↔ stores.2.AsksFile request)

/-- Every cached value is the one that the index entry of its key points to. -/
def CacheSound (store : KeyValueStore) : Prop :=
  ∀ key value, store.cache.Holds key value →
    ∃ metadata, store.index.lookup key = some metadata ∧
      slice store.storage.bytes metadata.valueOffset
        metadata.valueSize.toNat = value ∧
      value.length = metadata.valueSize.toNat

/-- This request gets the same answer from both stores and leaves the same
index, the same data file, the same counters and no stale value in a cache. -/
structure Transparent (request : Request)
    (stores : KeyValueStore × KeyValueStore) : Prop where
  reply : (stores.1.perform request).2 = (stores.2.perform request).2
  index : (stores.1.perform request).1.index =
    (stores.2.perform request).1.index
  file : (stores.1.perform request).1.storage.bytes =
    (stores.2.perform request).1.storage.bytes
  statistics : ∀ failed,
    { (stores.1.perform request).1.statistics failed with
      cache := (stores.2.perform request).1.cache.statistics } =
      (stores.2.perform request).1.statistics failed
  sound : CacheSound (stores.1.perform request).1 ∧
    CacheSound (stores.2.perform request).1

/-- Two stores that differ in their caches only, both coherent. -/
structure Twins (capacity : ℕ) (stores : KeyValueStore × KeyValueStore) :
    Prop where
  recached : ∃ cache, stores.2 = stores.1.recached capacity cache
  leftCoherent : stores.1.view.Coherent
  rightCoherent : stores.2.view.Coherent
  streams : Streams stores.1

omit capacity cache in
theorem asksFile_get {key : Bytes} :
    store.AsksFile ⟨environment, .get key⟩ ↔
      store.ReadsFile environment.nowMs key := by
  simp [AsksFile]

omit capacity cache in
theorem asksFile_keyExists {key : Bytes} :
    store.AsksFile ⟨environment, .keyExists key⟩ ↔
      store.ReadsFile environment.nowMs key := by
  simp [AsksFile]

theorem mirrors_get (hreliable : environment.Reliable)
    (hcoherent : store.view.Coherent)
    (hother : (store.recached capacity cache).view.Coherent)
    (hstreams : Streams store) (key : Bytes)
    (halike : store.storage.pending = [] ∨
      (store.ReadsFile environment.nowMs key ↔
        (store.recached capacity cache).ReadsFile environment.nowMs key)) :
    Mirrors capacity (store.get environment key)
      ((store.recached capacity cache).get environment key) := by
  refine ⟨?_,
    fst_get capacity cache hreliable hcoherent hother hstreams key halike⟩
  by_cases hopened : store.opened = true
  · by_cases hkey : (validateKey key).ok = true
    · have hotherOpened : (store.recached capacity cache).opened = true :=
        hopened
      rw [get_answer hreliable.openAnswers (hreliable.read key) hopened hkey
        hcoherent, get_answer hreliable.openAnswers (hreliable.read key)
        hotherOpened hkey hother]
      rfl
    · rw [get, get, if_neg hkey, if_neg hkey]
      change _ = Prod.snd (if store.opened then _ else _)
      rw [if_pos hopened, if_pos hopened]
  · rw [get, get]
    change _ = Prod.snd (if store.opened then _ else _)
    rw [if_neg hopened, if_neg hopened]

/-- One request on both stores. -/
theorem mirrors_perform {request : Request}
    (hreliable : request.environment.Reliable)
    (hcoherent : store.view.Coherent)
    (hother : (store.recached capacity cache).view.Coherent)
    (hstreams : Streams store)
    (halike : AskAlike request (store, store.recached capacity cache)) :
    Mirrors capacity (store.perform request)
      ((store.recached capacity cache).perform request) := by
  obtain ⟨environment, call⟩ := request
  cases call with
  | set key value ttl =>
      obtain ⟨hanswer, hstore⟩ :=
        mirrors_set capacity cache environment key value ttl store
      exact ⟨congrArg Reply.status hanswer, hstore⟩
  | get key =>
      rw [AskAlike, asksFile_get, asksFile_get] at halike
      obtain ⟨hanswer, hstore⟩ := mirrors_get capacity cache hreliable
        hcoherent hother hstreams key halike
      exact ⟨congrArg Reply.value hanswer, hstore⟩
  | keyExists key =>
      rw [AskAlike, asksFile_keyExists, asksFile_keyExists] at halike
      obtain ⟨hanswer, other, hstore⟩ := mirrors_get capacity cache hreliable
        hcoherent hother hstreams key halike
      refine ⟨congrArg Reply.flag ?_, other, ?_⟩
      · rw [snd_keyExists, snd_keyExists, hanswer]
      · change ((store.recached capacity cache).keyExists _ key).1 =
          (store.keyExists _ key).1.recached capacity other
        rw [fst_keyExists, fst_keyExists, hstore]
  | remove key =>
      obtain ⟨hanswer, hstore⟩ :=
        mirrors_remove capacity cache environment key store
      exact ⟨congrArg Reply.status hanswer, hstore⟩
  | keys start =>
      obtain ⟨hanswer, hstore⟩ :=
        mirrors_keys capacity cache environment start store
      exact ⟨congrArg Reply.listing hanswer, hstore⟩
  | cleanupExpired =>
      obtain ⟨hanswer, hstore⟩ :=
        mirrors_cleanupExpired capacity cache environment store
      exact ⟨congrArg Reply.count hanswer, hstore⟩
  | compact =>
      obtain ⟨hanswer, hstore⟩ :=
        mirrors_compact capacity cache environment store
      exact ⟨congrArg Reply.summary hanswer, hstore⟩
  | openStore =>
      obtain ⟨hanswer, hstore⟩ :=
        mirrors_openStore capacity cache environment store
      exact ⟨congrArg Reply.status hanswer, hstore⟩
  | close =>
      obtain ⟨hanswer, hstore⟩ := mirrors_close capacity cache store
      exact ⟨congrArg Reply.status hanswer, hstore⟩

omit capacity cache in
theorem coherent_perform {request : Request}
    (hreliable : request.environment.Reliable)
    (hcoherent : store.view.Coherent) :
    (store.perform request).1.view.Coherent :=
  hcoherent.effects (effects_perform (fun _ => hreliable)
    fun hloses => not_losesFile_of_reliable hreliable hloses.2.2)

omit capacity cache in
theorem cacheSound_of_coherent (hcoherent : store.view.Coherent) :
    CacheSound store := by
  intro key value hholds
  obtain ⟨metadata, hfound, rfl⟩ := hcoherent.cached key value hholds
  obtain ⟨entry, hpoints⟩ := hcoherent.points key metadata hfound
  refine ⟨metadata, hfound, rfl, ?_⟩
  rw [hpoints.valueAt_eq, hpoints.metadata_eq]
  exact entry.valid.toNat_valueSize.symm

omit capacity cache in
/-- What a request that asks the file writes. -/
theorem bytes_of_asks {request : Request}
    (hreliable : request.environment.Reliable)
    (hcoherent : store.view.Coherent) (hasks : store.AsksFile request) :
    (store.perform request).1.storage.bytes =
      store.storage.bytes ++ store.storage.pending := by
  obtain ⟨environment, call⟩ := request
  obtain ⟨key, hcall, hreads⟩ := hasks
  have hget := (storage_get hreliable hcoherent key).1 hreads
  rw [← AppendOnlyStore.bytes_settled, ← hget]
  rcases hcall with rfl | rfl
  · rfl
  · exact congrArg (fun after => after.storage.bytes)
      (fst_keyExists environment key store)

omit capacity cache in
/-- Another lookup writes nothing. -/
theorem bytes_of_not_asks {request : Request} {key : Bytes}
    (hreliable : request.environment.Reliable)
    (hcoherent : store.view.Coherent)
    (hcall : request.call = .get key ∨ request.call = .keyExists key)
    (hasks : ¬ store.AsksFile request) :
    (store.perform request).1.storage.bytes = store.storage.bytes := by
  obtain ⟨environment, call⟩ := request
  have hreads : ¬ store.ReadsFile environment.nowMs key :=
    fun hreads => hasks ⟨key, hcall, hreads⟩
  have hget := (storage_get hreliable hcoherent key).2 hreads
  rcases hcall with rfl | rfl
  · exact congrArg AppendOnlyStore.bytes hget
  · exact congrArg AppendOnlyStore.bytes ((congrArg KeyValueStore.storage
      (fst_keyExists environment key store)).trans hget)

omit capacity cache in
/-- A lookup that asks the file on one side only writes the put area there. -/
theorem bytes_ne_of_asks {request : Request} {left right : KeyValueStore}
    (hreliable : request.environment.Reliable)
    (hleft : left.view.Coherent) (hright : right.view.Coherent)
    (hstorage : right.storage = left.storage)
    (hpending : left.storage.pending ≠ []) (hasks : left.AsksFile request)
    (hother : ¬ right.AsksFile request) :
    (left.perform request).1.storage.bytes ≠
      (right.perform request).1.storage.bytes := by
  obtain ⟨key, hcall, -⟩ := id hasks
  rw [bytes_of_asks hreliable hleft hasks,
    bytes_of_not_asks hreliable hright hcall hother, hstorage, Ne,
    List.append_right_eq_self]
  exact hpending

omit capacity cache in
/-- On twins a request is transparent exactly when both ask alike, and leaves
twins then. -/
theorem Twins.transparent_iff {capacity : ℕ}
    {stores : KeyValueStore × KeyValueStore} (htwins : Twins capacity stores)
    {request : Request} (hreliable : request.environment.Reliable) :
    (Transparent request stores ↔ AskAlike request stores) ∧
      (AskAlike request stores → Twins capacity
        ((machine.both machine).step request stores).1) := by
  obtain ⟨left, right⟩ := stores
  obtain ⟨⟨cache, hrecached⟩, hleft, hright, hstreams⟩ := htwins
  dsimp only at hrecached hleft hright hstreams
  have hmirrors : AskAlike request (left, right) →
      Mirrors capacity (left.perform request) (right.perform request) := by
    subst hrecached
    exact mirrors_perform capacity cache hreliable hleft hright hstreams
  have hleftAfter := coherent_perform hreliable hleft
  have hrightAfter := coherent_perform hreliable hright
  have hstorage : right.storage = left.storage := by rw [hrecached]; rfl
  refine ⟨⟨fun htransparent => ?_, fun halike => ?_⟩, fun halike => ?_⟩
  · by_contra hother
    rw [AskAlike, not_or] at hother
    obtain ⟨hpending, hdiffer⟩ := hother
    by_cases hasks : left.AsksFile request
    · have hnot : ¬ right.AsksFile request :=
        fun hothers => hdiffer ⟨fun _ => hothers, fun _ => hasks⟩
      exact bytes_ne_of_asks hreliable hleft hright hstorage hpending hasks
        hnot htransparent.file
    · have hothers : right.AsksFile request := by
        by_contra hnot
        exact hdiffer ⟨fun h => absurd h hasks, fun h => absurd h hnot⟩
      exact bytes_ne_of_asks hreliable hright hleft hstorage.symm
        (hstorage ▸ hpending) hothers hasks htransparent.file.symm
  · obtain ⟨hanswer, other, hafter⟩ := hmirrors halike
    have hsound := And.intro (cacheSound_of_coherent hleftAfter)
      (cacheSound_of_coherent hrightAfter)
    refine ⟨hanswer, ?_, ?_, fun failed => ?_, hsound⟩
    · rw [hafter]
      rfl
    · rw [hafter]
      rfl
    · rw [hafter]
      rfl
  · exact ⟨(hmirrors halike).2, hleftAfter, hrightAfter,
      streams_perform hreliable hleft hstreams⟩

/-- Whatever the two capacities, whatever appends fail and whatever the clock
reads, a run is the same on both stores exactly as long as no lookup asks the
file on one side only while a failed append waits in the put area. -/
theorem cache_is_transparent_iff (config : StoreConfig) (capacity : ℕ)
    (data temporary : Option Bytes) {requests : List Request}
    (hreliable : ∀ request ∈ requests, request.environment.Reliable) :
    let stores := (new config data temporary,
      new { config with cacheCapacity := capacity } data temporary)
    (machine.both machine).Along Transparent requests stores ↔
      (machine.both machine).Along AskAlike requests stores := by
  intro stores
  have hstart : Twins capacity stores :=
    ⟨⟨_, rfl⟩, coherent_new _ _ _, coherent_new _ _ _, fun hopened => by
      cases hopened⟩
  exact Machine.along_iff (fun request hrequest _ htwins =>
    htwins.transparent_iff (hreliable request hrequest)) hstart

/-- A failed append that waits in the put area while the cache answers. -/
theorem cache_is_transparent_behind_held_set :
    let requests : List Request :=
      [⟨.calm 1, .openStore⟩, ⟨.calm 2, .set [97] [98] none⟩,
        ⟨{ nowMs := 2, append := { write := some ⟨0, 30⟩ } },
          .set [97] [99] none⟩]
    let stores := (new .small none none,
      new { StoreConfig.small with cacheCapacity := 0 } none none)
    (machine.both machine).Along Transparent requests stores ↔
      (machine.both machine).Along AskAlike requests stores := by
  intro requests
  have hreliable : ∀ request ∈ requests, request.environment.Reliable := by
    simp only [requests, List.forall_mem_cons]
    have hcalm := fun nowMs => (Environment.faultless_calm nowMs).toReliable
    exact ⟨hcalm 1, hcalm 2, ⟨rfl, rfl, fun _ => rfl, rfl, rfl⟩,
      fun _ hnone => absurd hnone List.not_mem_nil⟩
  exact cache_is_transparent_iff .small 0 none none hreliable

/-- Where the value is cached the failed set stays in the put area, and without
a cache `get` writes it: a restart then shows two different values. -/
theorem cache_shows_in_file :
    let requests : List Request :=
      [⟨.calm 1, .openStore⟩, ⟨.calm 2, .set [97] [98] none⟩,
        ⟨{ nowMs := 2, append := { write := some ⟨0, 30⟩ } },
          .set [97] [99] none⟩,
        ⟨.calm 4, .get [97]⟩, ⟨.calm 5, .close⟩, ⟨.calm 6, .openStore⟩]
    let stores := (new .small none none,
      new { StoreConfig.small with cacheCapacity := 0 } none none)
    let left := (machine.run requests stores.1).1
    let right := (machine.run requests stores.2).1
    (left.get (.calm 7) [97]).2 = .ok [98] ∧
      (right.get (.calm 7) [97]).2 = .ok [99] ∧
      ¬ (machine.both machine).Along Transparent requests stores := by
  intro requests stores left right
  refine ⟨by decide +kernel, by decide +kernel, fun halong => ?_⟩
  have hfile : (machine.run (requests.take 4) stores.1).1.storage.bytes =
      (machine.run (requests.take 4) stores.2).1.storage.bytes :=
    halong.2.2.2.1.file
  revert hfile
  decide +kernel

end KeyValueStore

end MiniKV
