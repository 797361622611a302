import MiniKV.Store.Runs

/-!
# Closing and reopening beside running calls

Threads run `set`, `remove` and `compact` while another thread closes and opens
the store.  `opened` is an atomic flag that `close` clears without taking the
index lock; `set` tests it again behind the lock, `remove` and `compact` do not.
Each test, each acquisition of the lock, each change of the file and each change
of the index is a step of its own.  An action that is not possible in a state
leaves it as it is.
-/

namespace MiniKV

/-- A call that has passed its first test of `isOpen`. -/
inductive Writer
  | set (key value : Bytes) (expiresAtMs : Int64)
  | remove (key : Bytes)
  | compact

/-- Where a thread stands in its call.  From `locked` on it holds the exclusive
lock. -/
inductive Progress
  | idle
  | waiting (writer : Writer)
  | locked (writer : Writer)
  /-- `set` has found the store open again. -/
  | rechecked (key value : Bytes) (expiresAtMs : Int64)
  | appendedSet (key value : Bytes) (metadata : RecordMetadata)
  | appendedRemove (key : Bytes)
  /-- `compact` has erased the expired entries. -/
  | purged
  | rewritten (state : CompactionState)

def Progress.holds : Progress → Bool
  | .idle => false
  | .waiting _ => false
  | _ => true

/-- Where the thread that closes and opens the store stands. -/
inductive Lifecycle
  | closed
  /-- `open` has opened the file. -/
  | opening
  /-- `open` has recovered. -/
  | recovered (state : RecoveryState)
  /-- `open` has put the recovered index in place. -/
  | installed (state : RecoveryState)
  /-- `open` has set `opened_`. -/
  | published
  | running
  /-- `close` has cleared `opened_`. -/
  | closing

/-- `close` has returned, and the next `open` has not. -/
def Lifecycle.quiet : Lifecycle → Bool
  | .running => false
  | .closing => false
  | _ => true

namespace KeyValueStore

/-! ## The steps of a call -/

/-- The tests of a call before it takes the lock. -/
def passes (environment : Environment) (store : KeyValueStore) :
    Call → Option Writer
  | .set key value ttl =>
      if store.opened ∧ (validateSet key value ttl).ok then
        some (.set key value (deadline environment.nowMs ttl))
      else
        none
  | .remove key =>
      if store.opened ∧ (validateKey key).ok then some (.remove key) else none
  | .compact => if store.opened then some .compact else none
  | _ => none

/-- `index_[key]`, `cache_.put` and the counter of `set`. -/
def indexSet (key value : Bytes) (metadata : RecordMetadata)
    (store : KeyValueStore) : KeyValueStore :=
  { store with
    index := store.index.insert key metadata
    cache := store.cache.put key value
    setOperations := store.setOperations + 1 }

/-- `cache_.erase`, `index_.erase` and the counter of `remove`. -/
def indexRemove (key : Bytes) (store : KeyValueStore) : KeyValueStore :=
  { store with
    cache := store.cache.erase key
    index := store.index.erase key
    deleteOperations := store.deleteOperations + 1 }

/-- The store behind a step of a call, where the thread then stands, and, when
the step returns success, what the call has stored under which key. -/
structure Advanced where
  store : KeyValueStore
  progress : Progress
  stored : Option (Bytes × Option (Bytes × Int64))

/-- The next step of a thread that holds the exclusive lock; it gives the lock
back when it becomes idle. -/
def advance (environment : Environment) (store : KeyValueStore) :
    Progress → Advanced
  | .idle => ⟨store, .idle, none⟩
  | .waiting writer => ⟨store, .waiting writer, none⟩
  | .locked (.set key value expiresAtMs) =>
      if store.opened then
        ⟨store, .rechecked key value expiresAtMs, none⟩
      else
        -- "store was closed during SET"
        ⟨store, .idle, none⟩
  | .rechecked key value expiresAtMs =>
      let appended := store.storage.appendSet environment.openAnswers
        environment.append key value expiresAtMs
      match appended.2 with
      | .error _ => ⟨{ store with storage := appended.1 }, .idle, none⟩
      | .ok metadata =>
          ⟨{ store with storage := appended.1 },
            .appendedSet key value metadata, none⟩
  | .appendedSet key value metadata =>
      ⟨store.indexSet key value metadata, .idle,
        some (key, some (value, metadata.expiresAtMs))⟩
  | .locked (.remove key) =>
      match store.find environment.nowMs key with
      | .missing => ⟨store, .idle, none⟩
      | .expired => ⟨store.dropExpired key, .idle, none⟩
      | .live _ =>
          let appended := store.storage.appendDelete environment.openAnswers
            environment.append key
          if appended.2.ok then
            ⟨{ store with storage := appended.1 }, .appendedRemove key, none⟩
          else
            ⟨{ store with storage := appended.1 }, .idle, none⟩
  | .appendedRemove key => ⟨store.indexRemove key, .idle, some (key, none)⟩
  | .locked .compact => ⟨store.purgeExpired environment, .purged, none⟩
  | .purged =>
      let rewritten := store.rewriteLive environment
      match rewritten.2 with
      | .error _ => ⟨rewritten.1, .idle, none⟩
      | .ok state => ⟨rewritten.1, .rewritten state, none⟩
  | .rewritten state => ⟨store.indexCompacted state, .idle, none⟩

/-- The thread reads the clock to test an expiry in its next step. -/
def testsExpiry (store : KeyValueStore) : Progress → Bool
  | .locked (.remove key) => (store.index.lookup key).isSome
  | .locked .compact => true
  | _ => false

/-! ## The steps of opening -/

/-- `open` up to the return of `storage_->open()`, on a closed store. -/
def beginOpen (environment : Environment) (store : KeyValueStore) :
    KeyValueStore × Lifecycle :=
  if store.config.cleanupIntervalMs ≤ 0 then
    (store, .closed)
  else
    let opening := store.storage.openFile environment.openAnswers
    ({ store with storage := opening.1 },
      if opening.2.ok then .opening else .closed)

def recoverStep (environment : Environment) (store : KeyValueStore) :
    KeyValueStore × Lifecycle :=
  let recovery := store.storage.recover environment.openAnswers
    environment.recover environment.nowMs
  match recovery.2 with
  | .error _ => ({ store with storage := recovery.1 }, .closed)
  | .ok state => ({ store with storage := recovery.1 }, .recovered state)

/-- `index_ = std::move(state.index)` of `open`. -/
def install (state : RecoveryState) (store : KeyValueStore) : KeyValueStore :=
  { store with index := state.index }

/-- From `cache_.clear()` to the store to `opened_`. -/
def publish (state : RecoveryState) (store : KeyValueStore) : KeyValueStore :=
  { store with
    cache := store.cache.clear
    recoveredRecords := state.validRecords
    truncatedTailBytes := state.truncatedBytes
    stopRequested := false
    opened := true }

/-- `open` returns, behind the start of the cleaner thread. -/
def endOpen (environment : Environment) (store : KeyValueStore) :
    KeyValueStore × Lifecycle :=
  if store.config.startBackgroundCleaner ∧ environment.startThread.isSome then
    ({ store with opened := false }, .closed)
  else
    (store, .running)

end KeyValueStore

/-! ## The system -/

/-- What the last call of each key that returned success has stored: a value
and an expiry, or nothing when it was a `remove`. -/
abbrev Acknowledged := Bytes → Option (Option (Bytes × Int64))

/-- A call returns success, if it does. -/
def Acknowledged.add (acknowledged : Acknowledged) :
    Option (Bytes × Option (Bytes × Int64)) → Acknowledged
  | none => acknowledged
  | some (key, stored) => Function.update acknowledged key (some stored)

/-- The later one of two clock readings. -/
def laterReading (left right : Int64) : Int64 :=
  if left ≤ right then right else left

/-- The callers, the thread that closes and opens, and the index lock.  The last
two fields are kept for the statements only; `latest` is the latest reading at
which an expiry was tested. -/
structure Session (Thread : Type) where
  store : KeyValueStore
  lifecycle : Lifecycle
  progress : Thread → Progress
  holder : Option Thread
  acknowledged : Acknowledged
  latest : Int64

inductive Action (Thread : Type)
  /-- The first test of `isOpen`, with the checks of the arguments. -/
  | call (thread : Thread) (environment : Environment) (call : Call)
  /-- `std::unique_lock lock(indexMutex_)` of a call. -/
  | lock (thread : Thread)
  /-- The next step under the lock. -/
  | advance (thread : Thread) (environment : Environment)
  | beginClose
  | endClose
  | beginOpen (environment : Environment)
  | recover (environment : Environment)
  | install
  | publish
  | endOpen (environment : Environment)

namespace Session

variable {Thread : Type}

/-- A closed store on what the disk holds, and no calls. -/
def start (config : StoreConfig) (data temporary : Option Bytes) :
    Session Thread where
  store := .new config data temporary
  lifecycle := .closed
  progress _ := .idle
  holder := none
  acknowledged _ := none
  latest := Int64.minValue

/-- The thread that closes and opens moves on. -/
def enter (session : Session Thread) (next : KeyValueStore × Lifecycle) :
    Session Thread :=
  { session with store := next.1, lifecycle := next.2 }

variable [DecidableEq Thread]

/-- One thread moves on. -/
def move (session : Session Thread) (thread : Thread) (progress : Progress) :
    Session Thread :=
  { session with
    progress := Function.update session.progress thread progress }

/-- One step of a thread that holds the lock. -/
def advance (session : Session Thread) (thread : Thread)
    (environment : Environment) : Session Thread :=
  let before := session.progress thread
  let after := session.store.advance environment before
  { session.move thread after.progress with
    store := after.store
    holder := if after.progress.holds then session.holder else none
    acknowledged := session.acknowledged.add after.stored
    latest :=
      if session.store.testsExpiry before then
        laterReading session.latest environment.nowMs
      else
        session.latest }

def step : Action Thread → Session Thread → Session Thread
  | .call thread environment call, session =>
      match session.progress thread, session.store.passes environment call with
      | .idle, some writer => session.move thread (.waiting writer)
      | _, _ => session
  | .lock thread, session =>
      match session.progress thread, session.holder with
      | .waiting writer, none =>
          { session.move thread (.locked writer) with holder := some thread }
      | _, _ => session
  | .advance thread environment, session =>
      if (session.progress thread).holds then
        session.advance thread environment
      else
        session
  | .beginClose, session =>
      match session.lifecycle with
      | .running =>
          session.enter
            ({ session.store with opened := false, stopRequested := true },
              .closing)
      | _ => session
  | .endClose, session =>
      match session.lifecycle with
      | .closing => session.enter (session.store, .closed)
      | _ => session
  | .beginOpen environment, session =>
      match session.lifecycle with
      | .closed => session.enter (session.store.beginOpen environment)
      | _ => session
  | .recover environment, session =>
      match session.lifecycle with
      | .opening =>
          { session.enter (session.store.recoverStep environment) with
            latest := laterReading session.latest environment.nowMs }
      | _ => session
  | .install, session =>
      match session.lifecycle, session.holder with
      | .recovered state, none =>
          session.enter (session.store.install state, .installed state)
      | _, _ => session
  | .publish, session =>
      match session.lifecycle with
      | .installed state =>
          session.enter (session.store.publish state, .published)
      | _ => session
  | .endOpen environment, session =>
      match session.lifecycle with
      | .published => session.enter (session.store.endOpen environment)
      | _ => session

def machine : Machine (Action Thread) (Session Thread) Unit where
  step action session := (session.step action, ())

end Session

/-! ## Without interleaving -/

namespace KeyValueStore

/-- A writer that runs its section without interruption. -/
def uninterrupted (environment : Environment) (store : KeyValueStore)
    (writer : Writer) : KeyValueStore :=
  let first := store.advance environment (.locked writer)
  let second := first.store.advance environment first.progress
  (second.store.advance environment second.progress).store

/-- The steps of a writer in a row are its section. -/
theorem uninterrupted_eq_section (environment : Environment)
    (store : KeyValueStore) (writer : Writer) :
    store.uninterrupted environment writer =
      match writer with
      | .set key value expiresAtMs =>
          (store.setSection environment key value expiresAtMs).1
      | .remove key => (store.removeSection environment key).1
      | .compact => (store.compactSection environment).1 := by
  cases writer with
  | set key value expiresAtMs =>
      simp only [uninterrupted, setSection]
      by_cases hopened : store.opened = true
      · rw [advance, if_pos hopened, if_pos hopened]
        dsimp only
        rw [advance]
        rcases store.storage.appendSet environment.openAnswers
          environment.append key value expiresAtMs with ⟨storage, result⟩
        cases result with
        | error status => rfl
        | ok metadata => rfl
      · rw [advance, if_neg hopened, if_neg hopened]
        rfl
  | remove key =>
      simp only [uninterrupted, removeSection]
      rw [advance]
      cases store.find environment.nowMs key with
      | missing => rfl
      | expired => rfl
      | live metadata =>
          dsimp only
          split
          · rfl
          · rfl
  | compact =>
      simp only [uninterrupted, compactSection_eq_rewriteLive]
      rw [advance]
      dsimp only
      rw [advance]
      rcases (store.purgeExpired environment).rewriteLive environment with
        ⟨read, result⟩
      cases result with
      | error status => rfl
      | ok state => rfl

/-- Opening a closed store without interruption. -/
def openSteps (environment : Environment) (store : KeyValueStore) :
    KeyValueStore :=
  match store.beginOpen environment with
  | (store, .opening) =>
      match store.recoverStep environment with
      | (store, .recovered state) =>
          (((store.install state).publish state).endOpen environment).1
      | (store, _) => store
  | (store, _) => store

/-- The steps of `open` in a row are `openStore`. -/
theorem openSteps_eq_openStore (environment : Environment)
    (store : KeyValueStore) (hclosed : store.opened = false) :
    store.openSteps environment = (store.openStore environment).1 := by
  have hshut : ¬ store.opened = true := by
    rw [hclosed]
    exact Bool.false_ne_true
  rw [openSteps, openStore, beginOpen, if_neg hshut]
  by_cases hinterval : store.config.cleanupIntervalMs ≤ 0
  · rw [if_pos hinterval, if_pos hinterval]
  · rw [if_neg hinterval, if_neg hinterval]
    dsimp only
    by_cases hopens : (store.storage.openFile environment.openAnswers).2.ok =
        true
    · rw [if_pos hopens, if_pos hopens]
      dsimp only
      rw [recoverStep]
      rcases (store.storage.openFile environment.openAnswers).1.recover
        environment.openAnswers environment.recover environment.nowMs with
        ⟨storage, result⟩
      cases result with
      | error status => rfl
      | ok state =>
          cases hcleaner : store.config.startBackgroundCleaner <;>
            cases hthread : environment.startThread <;>
              simp [endOpen, install, publish, hcleaner, hthread]
    · rw [if_neg hopens, if_neg hopens]

end KeyValueStore

end MiniKV
