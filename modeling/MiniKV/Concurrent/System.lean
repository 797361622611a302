import MiniKV.Store.Compaction

/-!
# Threads over one store

Several threads call one open store.  Sections under the exclusive lock are
single steps; `get` holds the shared lock over several steps, between which
other threads may take steps of their own sections under the shared lock.  The
history of exclusive sections is kept for the statements only.
-/

namespace MiniKV

/-- An exclusive section that was executed. -/
inductive Section
  | set (key value : Bytes) (expiresAtMs : Int64)
  | remove (key : Bytes)
  | expire (key : Bytes) (nowMs : Int64)
  | purge (nowMs : Int64)
  | compact (nowMs : Int64)

/-- Where a thread stands.  A `get` carries the history at which it took the
shared lock. -/
inductive Position
  | idle
  | setReady (key value : Bytes) (expiresAtMs : Int64)
  | getLocked (key : Bytes) (before : List Section)
  | getFound (key : Bytes) (metadata : RecordMetadata) (nowMs : Int64)
      (before : List Section)
  | getMissed (key : Bytes) (metadata : RecordMetadata) (nowMs : Int64)
      (before : List Section)
  | getRead (key value : Bytes) (nowMs : Int64) (before : List Section)
  | getExpired (key : Bytes) (nowMs : Int64)
  | keysCleaned (start : Bytes) (nowMs : Int64)

/-- The thread holds the shared lock. -/
def Position.Shared : Position → Prop
  | .getLocked _ _ => True
  | .getFound _ _ _ _ => True
  | .getMissed _ _ _ _ => True
  | .getRead _ _ _ _ => True
  | _ => False

/-- A `get` that returned a value. -/
structure Returned where
  key : Bytes
  value : Bytes
  nowMs : Int64
  before : List Section

/-- A `keys` that listed, with the index it listed and the clock reading of its
purge. -/
structure Listed where
  nowMs : Int64
  index : Index
  keys : List Bytes

structure System (Thread : Type) where
  store : KeyValueStore
  clock : Int64
  position : Thread → Position
  history : List Section
  returned : List Returned
  listed : List Listed

namespace System

variable {Thread : Type}

/-- All threads outside their calls. -/
def start (store : KeyValueStore) (clock : Int64) : System Thread where
  store := store
  clock := clock
  position _ := .idle
  history := []
  returned := []
  listed := []

/-- No thread holds the shared lock, so that an exclusive section may run. -/
def Free (system : System Thread) : Prop :=
  ∀ thread, ¬ (system.position thread).Shared

variable [DecidableEq Thread]

/-- One thread moves on. -/
def move (system : System Thread) (thread : Thread) (position : Position)
    (store : KeyValueStore) : System Thread :=
  { system with
    store := store
    position := Function.update system.position thread position }

/-- One thread runs exclusive sections. -/
def exclude (system : System Thread) (thread : Thread) (position : Position)
    (store : KeyValueStore) (sections : List Section) : System Thread :=
  { system.move thread position store with
    history := system.history ++ sections }

/-- One `get` returns a value. -/
def answer (system : System Thread) (thread : Thread) (returned : Returned)
    (store : KeyValueStore) : System Thread :=
  { system.move thread .idle store with
    returned := system.returned ++ [returned] }

/-- One `keys` returns its listing. -/
def list (system : System Thread) (thread : Thread) (listed : Listed) :
    System Thread :=
  { system.move thread .idle system.store with
    listed := system.listed ++ [listed] }

/-- The clock is read. -/
def read (system : System Thread) (nowMs : Int64) : System Thread :=
  { system with clock := nowMs }

/-- What the section of `remove` did, by what it found. -/
def removeSections (key : Bytes) (nowMs : Int64) :
    KeyValueStore.Found → List Section
  | .missing => []
  | .expired => [.expire key nowMs]
  | .live _ => [.remove key]

/-- One step of one thread, without I/O failure.  A reading of the clock never
lies behind an earlier one. -/
inductive Step (system : System Thread) : System Thread → Prop
  /-- `set` passes its checks and reads the clock. -/
  | setReady {thread : Thread} {key value : Bytes} {ttl : Option Int64}
      {nowMs : Int64} (hposition : system.position thread = .idle)
      (hvalidates : (KeyValueStore.validateSet key value ttl).ok = true)
      (hclock : system.clock ≤ nowMs) :
      Step system ((system.read nowMs).move thread
        (.setReady key value (KeyValueStore.deadline nowMs ttl)) system.store)
  | setSection {thread : Thread} {key value : Bytes} {expiresAtMs : Int64}
      {environment : Environment}
      (hposition : system.position thread = .setReady key value expiresAtMs)
      (hfree : system.Free) (hfaultless : environment.Faultless) :
      Step system (system.exclude thread .idle
        (system.store.setSection environment key value expiresAtMs).1
        [.set key value expiresAtMs])
  /-- `get` passes its check and takes the shared lock. -/
  | getLocked {thread : Thread} {key : Bytes}
      (hposition : system.position thread = .idle)
      (hkey : (KeyValueStore.validateKey key).ok = true) :
      Step system (system.move thread (.getLocked key system.history)
        { system.store with
          getOperations := system.store.getOperations + 1 })
  | getMissing {thread : Thread} {key : Bytes} {before : List Section}
      (hposition : system.position thread = .getLocked key before)
      (hfind : system.store.find system.clock key = .missing) :
      Step system (system.move thread .idle system.store)
  /-- The shared lock is released before the expired entry is erased. -/
  | getExpired {thread : Thread} {key : Bytes} {before : List Section}
      {nowMs : Int64}
      (hposition : system.position thread = .getLocked key before)
      (hclock : system.clock ≤ nowMs)
      (hfind : system.store.find nowMs key = .expired) :
      Step system ((system.read nowMs).move thread (.getExpired key nowMs)
        system.store)
  | getFound {thread : Thread} {key : Bytes} {before : List Section}
      {metadata : RecordMetadata} {nowMs : Int64}
      (hposition : system.position thread = .getLocked key before)
      (hclock : system.clock ≤ nowMs)
      (hfind : system.store.find nowMs key = .live metadata) :
      Step system ((system.read nowMs).move thread
        (.getFound key metadata nowMs before) system.store)
  | getCached {thread : Thread} {key value : Bytes} {before : List Section}
      {metadata : RecordMetadata} {nowMs : Int64}
      (hposition : system.position thread =
        .getFound key metadata nowMs before)
      (hcached : (system.store.lookupCache key).2 = some value) :
      Step system (system.answer thread ⟨key, value, nowMs, before⟩
        (system.store.lookupCache key).1)
  | getMissed {thread : Thread} {key : Bytes} {before : List Section}
      {metadata : RecordMetadata} {nowMs : Int64}
      (hposition : system.position thread =
        .getFound key metadata nowMs before)
      (hcached : (system.store.lookupCache key).2 = none) :
      Step system (system.move thread (.getMissed key metadata nowMs before)
        (system.store.lookupCache key).1)
  | getRead {thread : Thread} {key value : Bytes} {before : List Section}
      {metadata : RecordMetadata} {nowMs : Int64} {environment : Environment}
      (hposition : system.position thread =
        .getMissed key metadata nowMs before)
      (hfaultless : environment.Faultless)
      (hread : (system.store.readStored environment key metadata).2 =
        .ok value) :
      Step system (system.move thread (.getRead key value nowMs before)
        (system.store.readStored environment key metadata).1)
  | getUnreadable {thread : Thread} {key : Bytes} {before : List Section}
      {metadata : RecordMetadata} {nowMs : Int64} {environment : Environment}
      {status : Status}
      (hposition : system.position thread =
        .getMissed key metadata nowMs before)
      (hfaultless : environment.Faultless)
      (hread : (system.store.readStored environment key metadata).2 =
        .error status) :
      Step system (system.move thread .idle
        (system.store.readStored environment key metadata).1)
  | getFilled {thread : Thread} {key value : Bytes} {before : List Section}
      {nowMs : Int64}
      (hposition : system.position thread = .getRead key value nowMs before) :
      Step system (system.answer thread ⟨key, value, nowMs, before⟩
        (system.store.fillCache key value))
  /-- `eraseIfExpired` with the reading that `get` took under the shared
  lock. -/
  | eraseIfExpired {thread : Thread} {key : Bytes} {nowMs : Int64}
      (hposition : system.position thread = .getExpired key nowMs)
      (hfree : system.Free) :
      Step system (system.exclude thread .idle
        (system.store.eraseIfExpired key nowMs).1 [.expire key nowMs])
  | remove {thread : Thread} {key : Bytes} {environment : Environment}
      (hposition : system.position thread = .idle)
      (hkey : (KeyValueStore.validateKey key).ok = true)
      (hfree : system.Free) (hfaultless : environment.Faultless)
      (hclock : system.clock ≤ environment.nowMs) :
      Step system ((system.read environment.nowMs).exclude thread .idle
        (system.store.removeSection environment key).1
        (removeSections key environment.nowMs
          (system.store.find environment.nowMs key)))
  | cleanupExpired {thread : Thread} {environment : Environment}
      (hposition : system.position thread = .idle)
      (hfree : system.Free) (hfaultless : environment.Faultless)
      (hclock : system.clock ≤ environment.nowMs) :
      Step system ((system.read environment.nowMs).exclude thread .idle
        (system.store.purgeExpired environment) [.purge environment.nowMs])
  /-- `keys` cleans up first and lists the index under a lock of its own. -/
  | keysCleaned {thread : Thread} {start : Bytes} {environment : Environment}
      (hposition : system.position thread = .idle)
      (hfree : system.Free) (hfaultless : environment.Faultless)
      (hclock : system.clock ≤ environment.nowMs) :
      Step system ((system.read environment.nowMs).exclude thread
        (.keysCleaned start environment.nowMs)
        (system.store.purgeExpired environment) [.purge environment.nowMs])
  | keysListed {thread : Thread} {start : Bytes} {nowMs : Int64}
      {environment : Environment}
      (hposition : system.position thread = .keysCleaned start nowMs) :
      Step system (system.list thread ⟨nowMs, system.store.index,
        system.store.listKeys environment start⟩)
  | compact {thread : Thread} {environment : Environment}
      (hposition : system.position thread = .idle)
      (hfree : system.Free) (hfaultless : environment.Faultless)
      (hclock : system.clock ≤ environment.nowMs) :
      Step system ((system.read environment.nowMs).exclude thread .idle
        (system.store.compactSection environment).1
        [.compact environment.nowMs])

/-- Any number of steps of any threads. -/
abbrev Reaches : System Thread → System Thread → Prop :=
  Relation.ReflTransGen Step

end System

end MiniKV
