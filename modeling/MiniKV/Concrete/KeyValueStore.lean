import MiniKV.Concrete.AppendOnlyStore
import MiniKV.Concrete.LruCache

/-!
# The key-value store

Every operation takes the store and returns it together with its result; the
store survives a failing result.  What an operation learns from outside, its
clock reading, the order in which the hash map is iterated and the answers of
the file system, stands in its `Environment`.  The lock-held sections are
definitions of their own, and the operations are composed of them.
-/

namespace MiniKV

/-- An order in which the loops visit each possible index. -/
abbrev HashOrder := (index : Index) → FiniteMap.Enumeration index

/-- What one call learns from the clock, the hash map and the file system. -/
structure Environment where
  nowMs : Int64
  hashOrder : HashOrder := FiniteMap.ascending
  openAnswers : OpenAnswers := {}
  recover : RecoverAnswers := {}
  append : AppendAnswers := {}
  read : Bytes → ReadAnswers := fun _ => {}
  compact : CompactAnswers := {}
  startThread : Option String := none

structure StoreConfig where
  dataFile : String
  cacheCapacity : ℕ
  cleanupIntervalMs : Int64
  startBackgroundCleaner : Bool

structure CompactionSummary where
  liveKeys : ℕ
  oldFileBytes : ℕ
  newFileBytes : ℕ
  deriving DecidableEq

structure KeyValueStore where
  config : StoreConfig
  storage : AppendOnlyStore
  cache : LruCache Bytes Bytes
  index : Index
  opened : Bool
  stopRequested : Bool
  getOperations : ℕ
  setOperations : ℕ
  deleteOperations : ℕ
  expiredKeys : ℕ
  compactions : ℕ
  recoveredRecords : ℕ
  truncatedTailBytes : ℕ

structure EngineStatistics where
  keyCount : ℕ
  dataFileBytes : ℕ
  getOperations : ℕ
  setOperations : ℕ
  deleteOperations : ℕ
  expiredKeys : ℕ
  compactions : ℕ
  recoveredRecords : ℕ
  truncatedTailBytes : ℕ
  cache : CacheStatistics

namespace KeyValueStore

/-- The constructor, over what the disk holds at the configured path. -/
def new (config : StoreConfig) (data temporary : Option Bytes) :
    KeyValueStore where
  config := config
  storage :=
    { dataPath := config.dataFile
      data := data
      temporary := temporary
      stream := none }
  cache := .new config.cacheCapacity
  index := .empty
  opened := false
  stopRequested := false
  getOperations := 0
  setOperations := 0
  deleteOperations := 0
  expiredKeys := 0
  compactions := 0
  recoveredRecords := 0
  truncatedTailBytes := 0

/-- `KeyValueStore::open`. -/
def openStore (environment : Environment) (store : KeyValueStore) :
    KeyValueStore × Status :=
  if store.opened then
    (store, .success)
  else if store.config.cleanupIntervalMs ≤ 0 then
    (store, .invalidArgument "cleanup interval must be greater than zero")
  else
    let opening := store.storage.openFile environment.openAnswers
    if opening.2.ok then
      match opening.1.recover environment.openAnswers environment.recover
          environment.nowMs with
      | (storage, .error status) => ({ store with storage := storage }, status)
      | (storage, .ok state) =>
          let ready := { store with
            storage := storage
            index := state.index
            cache := store.cache.clear
            recoveredRecords := state.validRecords
            truncatedTailBytes := state.truncatedBytes
            stopRequested := false
            opened := true }
          if store.config.startBackgroundCleaner then
            match environment.startThread with
            | none => (ready, .success)
            | some what =>
                ({ ready with opened := false },
                  .ioError ("failed to start cleaner thread: " ++ what))
          else
            (ready, .success)
    else
      ({ store with storage := opening.1 }, opening.2)

def close (store : KeyValueStore) : KeyValueStore × Status :=
  if store.opened then
    ({ store with opened := false, stopRequested := true }, .success)
  else
    (store, .success)

def validateKey (key : Bytes) : Status :=
  if key = [] then
    .invalidArgument "key must not be empty"
  else if key.length > kMaximumKeySize then
    .invalidArgument "key exceeds 4 KiB"
  else
    .success

def validateValue (value : Bytes) : Status :=
  if value.length > kMaximumValueSize then
    .invalidArgument "value exceeds 16 MiB"
  else
    .success

/-! ## Set -/

/-- The deadline that `set` computes before it takes the lock.  The sum wraps
here where the source leaves an overflow undefined. -/
def deadline (nowMs : Int64) (ttl : Option Int64) : Int64 :=
  match ttl with
  | some count => nowMs + count
  | none => 0

/-- The section of `set` under the exclusive lock. -/
def setSection (environment : Environment) (key value : Bytes)
    (expiresAtMs : Int64) (store : KeyValueStore) : KeyValueStore × Status :=
  if store.opened then
    match store.storage.appendSet environment.openAnswers environment.append
        key value expiresAtMs with
    | (storage, .error status) => ({ store with storage := storage }, status)
    | (storage, .ok metadata) =>
        ({ store with
            storage := storage
            index := store.index.insert key metadata
            cache := store.cache.put key value
            setOperations := store.setOperations + 1 }, .success)
  else
    (store, .closed "store was closed during SET")

/-- The checks of `set` before its section. -/
def validateSet (key value : Bytes) (ttl : Option Int64) : Status :=
  if (validateKey key).ok then
    if (validateValue value).ok then
      if ttl.any fun count => count ≤ 0 then
        .invalidArgument "TTL must be greater than zero"
      else
        .success
    else
      validateValue value
  else
    validateKey key

def set (environment : Environment) (key value : Bytes) (ttl : Option Int64)
    (store : KeyValueStore) : KeyValueStore × Status :=
  if store.opened then
    if (validateSet key value ttl).ok then
      store.setSection environment key value
        (deadline environment.nowMs ttl)
    else
      (store, validateSet key value ttl)
  else
    (store, .closed "store is not open")

/-! ## Get -/

/-- What `get` finds in the index at its clock reading. -/
inductive Found
  | missing
  | expired
  | live (metadata : RecordMetadata)

def find (nowMs : Int64) (key : Bytes) (store : KeyValueStore) : Found :=
  match store.index.lookup key with
  | none => .missing
  | some metadata =>
      if isExpired metadata.expiresAtMs nowMs then .expired else .live metadata

/-- `cache_.get(key)`. -/
def lookupCache (key : Bytes) (store : KeyValueStore) :
    KeyValueStore × Option Bytes :=
  ({ store with cache := (store.cache.get key).1 }, (store.cache.get key).2)

/-- `storage_->readValue(metadata)`. -/
def readStored (environment : Environment) (key : Bytes)
    (metadata : RecordMetadata) (store : KeyValueStore) :
    KeyValueStore × Result Bytes :=
  let read := store.storage.readValue environment.openAnswers
    (environment.read key) metadata
  ({ store with storage := read.1 }, read.2)

/-- `cache_.put(key, value)`. -/
def fillCache (key value : Bytes) (store : KeyValueStore) : KeyValueStore :=
  { store with cache := store.cache.put key value }

/-- What `eraseIfExpired` and `remove` do to an entry that has expired. -/
def dropExpired (key : Bytes) (store : KeyValueStore) : KeyValueStore :=
  { store with
    cache := store.cache.erase key
    index := store.index.erase key
    expiredKeys := store.expiredKeys + 1 }

def eraseIfExpired (key : Bytes) (nowMs : Int64) (store : KeyValueStore) :
    KeyValueStore × Bool :=
  match store.index.lookup key with
  | none => (store, false)
  | some metadata =>
      if isExpired metadata.expiresAtMs nowMs then
        (store.dropExpired key, true)
      else
        (store, false)

/-- The part of `get` that has found a live entry. -/
def getLive (environment : Environment) (key : Bytes)
    (metadata : RecordMetadata) (store : KeyValueStore) :
    KeyValueStore × Result Bytes :=
  match store.lookupCache key with
  | (store, some value) => (store, .ok value)
  | (store, none) =>
      match store.readStored environment key metadata with
      | (store, .error status) => (store, .error status)
      | (store, .ok value) => (store.fillCache key value, .ok value)

def get (environment : Environment) (key : Bytes) (store : KeyValueStore) :
    KeyValueStore × Result Bytes :=
  if store.opened then
    if (validateKey key).ok then
      let store := { store with getOperations := store.getOperations + 1 }
      match store.find environment.nowMs key with
      | .missing => (store, .error (.notFound "key does not exist"))
      | .expired =>
          ((store.eraseIfExpired key environment.nowMs).1,
            .error (.notFound "key has expired"))
      | .live metadata => store.getLive environment key metadata
    else
      (store, .error (validateKey key))
  else
    (store, .error (.closed "store is not open"))

/-- `KeyValueStore::exists`. -/
def keyExists (environment : Environment) (key : Bytes)
    (store : KeyValueStore) : KeyValueStore × Result Bool :=
  match store.get environment key with
  | (store, .ok _) => (store, .ok true)
  | (store, .error status) =>
      if status.code = .notFound then
        (store, .ok false)
      else
        (store, .error status)

/-! ## Remove -/

/-- The section of `remove` under the exclusive lock. -/
def removeSection (environment : Environment) (key : Bytes)
    (store : KeyValueStore) : KeyValueStore × Status :=
  match store.find environment.nowMs key with
  | .missing => (store, .notFound "key does not exist")
  | .expired => (store.dropExpired key, .notFound "key has expired")
  | .live _ =>
      let appended := store.storage.appendDelete environment.openAnswers
        environment.append key
      if appended.2.ok then
        ({ store with
            storage := appended.1
            cache := store.cache.erase key
            index := store.index.erase key
            deleteOperations := store.deleteOperations + 1 }, .success)
      else
        ({ store with storage := appended.1 }, appended.2)

def remove (environment : Environment) (key : Bytes) (store : KeyValueStore) :
    KeyValueStore × Status :=
  if store.opened then
    if (validateKey key).ok then
      store.removeSection environment key
    else
      (store, validateKey key)
  else
    (store, .closed "store is not open")

/-! ## Expiry, listing and compaction -/

/-- The keys of the index that a purge at `nowMs` erases, in visiting order. -/
def expiredAt (environment : Environment) (store : KeyValueStore) :
    List Bytes :=
  (environment.hashOrder store.index).keys.filter fun key =>
    (store.index.lookup key).any fun metadata =>
      isExpired metadata.expiresAtMs environment.nowMs

/-- The loop over the index that `cleanupExpired` and `compact` share. -/
def purgeExpired (environment : Environment) (store : KeyValueStore) :
    KeyValueStore :=
  { store with
    cache := (store.expiredAt environment).foldl
      (fun cache key => cache.erase key) store.cache
    index := store.index.filter fun _ metadata =>
      !isExpired metadata.expiresAtMs environment.nowMs
    expiredKeys := store.expiredKeys + (store.expiredAt environment).length }

def cleanupExpired (environment : Environment) (store : KeyValueStore) :
    KeyValueStore × ℕ :=
  if store.opened then
    (store.purgeExpired environment, (store.expiredAt environment).length)
  else
    (store, 0)

/-- `prefix.empty() || key.compare(0, prefix.size(), prefix) == 0`. -/
def startsWith (start key : Bytes) : Bool :=
  start == [] || key.take start.length == start

/-- The section of `keys` under the shared lock. -/
def listKeys (environment : Environment) (start : Bytes)
    (store : KeyValueStore) : List Bytes :=
  ((environment.hashOrder store.index).keys.filter
    (startsWith start)).insertionSort (· ≤ ·)

def keys (environment : Environment) (start : Bytes) (store : KeyValueStore) :
    KeyValueStore × Result (List Bytes) :=
  if store.opened then
    let cleaned := (store.cleanupExpired environment).1
    (cleaned, .ok (cleaned.listKeys environment start))
  else
    (store, .error (.closed "store is not open"))

/-- The loop of `compact` that rereads the live values, in visiting order. -/
def readLiveRecords (environment : Environment) :
    List Bytes → KeyValueStore → KeyValueStore × Result (List Record)
  | [], store => (store, .ok [])
  | key :: keys, store =>
      match store.index.lookup key with
      | none => readLiveRecords environment keys store
      | some metadata =>
          match store.readStored environment key metadata with
          | (store, .error status) => (store, .error status)
          | (store, .ok value) =>
              match readLiveRecords environment keys store with
              | (store, .error status) => (store, .error status)
              | (store, .ok records) =>
                  (store, .ok
                    (⟨.set, key, value, metadata.expiresAtMs⟩ :: records))

/-- `std::sort` by key; the keys of the index are distinct. -/
def sortRecords (records : List Record) : List Record :=
  records.insertionSort fun left right => left.key ≤ right.key

/-- The section of `compact` under the exclusive lock. -/
def compactSection (environment : Environment) (store : KeyValueStore) :
    KeyValueStore × Result CompactionSummary :=
  let store := store.purgeExpired environment
  match store.readLiveRecords environment
      (environment.hashOrder store.index).keys with
  | (store, .error status) => (store, .error status)
  | (store, .ok liveRecords) =>
      match store.storage.compact environment.openAnswers environment.compact
          (sortRecords liveRecords) with
      | (storage, .error status) =>
          ({ store with storage := storage }, .error status)
      | (storage, .ok state) =>
          ({ store with
              storage := storage
              index := state.index
              cache := store.cache.clear
              compactions := store.compactions + 1 },
            .ok ⟨state.index.size, state.oldFileBytes, state.newFileBytes⟩)

def compact (environment : Environment) (store : KeyValueStore) :
    KeyValueStore × Result CompactionSummary :=
  if store.opened then
    store.compactSection environment
  else
    (store, .error (.closed "store is not open"))

def statistics (fileSizeFailed : Bool) (store : KeyValueStore) :
    EngineStatistics where
  keyCount := store.index.size
  dataFileBytes := store.storage.fileSize fileSizeFailed
  getOperations := store.getOperations
  setOperations := store.setOperations
  deleteOperations := store.deleteOperations
  expiredKeys := store.expiredKeys
  compactions := store.compactions
  recoveredRecords := store.recoveredRecords
  truncatedTailBytes := store.truncatedTailBytes
  cache := store.cache.statistics

end KeyValueStore

end MiniKV
