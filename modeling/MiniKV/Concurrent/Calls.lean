import MiniKV.Library.AtomicObject
import MiniKV.Store.Runs

/-!
# Calls that threads make at the same time

A call is taken apart into the pieces that other threads can come between: its
checks, its sections under the exclusive lock and, in `get`, every step under
the shared lock.  What a thread does next is a function of the store, the clock
and the stage of its call, so that a whole execution can be evaluated.  Opening
and closing are single steps here.
-/

namespace MiniKV

/-- How far a thread has come in its call. -/
inductive Stage
  | resting
  | invoked (request : Request)
  /-- The checks have passed; `set` has read the clock. -/
  | checked (request : Request) (readMs : Int64)
  /-- The four stages of a `get` under the shared lock. -/
  | locked (request : Request) (key : Bytes)
  | found (request : Request) (key : Bytes) (metadata : RecordMetadata)
  | missed (request : Request) (key : Bytes) (metadata : RecordMetadata)
  | read (request : Request) (key value : Bytes)
  /-- The shared lock is released and the expired entry not yet erased. -/
  | expired (request : Request) (key : Bytes) (readMs : Int64)
  /-- `keys` has purged and not yet listed. -/
  | cleaned (request : Request) (start : Bytes)
  | answered (reply : Reply)

namespace Stage

/-- The thread holds the shared lock. -/
def shared : Stage → Bool
  | .locked _ _ => true
  | .found _ _ _ => true
  | .missed _ _ _ => true
  | .read _ _ _ => true
  | _ => false

/-- The next step is a section under the exclusive lock. -/
def exclusive : Stage → Bool
  | .checked request _ =>
      match request.call with
      | .get _ => false
      | .keyExists _ => false
      | .close => false
      | _ => true
  | .expired _ _ _ => true
  | _ => false

end Stage

/-- The request with the clock reading of one of its steps. -/
def Request.readAt (request : Request) (nowMs : Int64) : Request :=
  { request with environment := { request.environment with nowMs := nowMs } }

namespace Call

/-- The checks of the arguments. -/
def validate : Call → Status
  | .set key value ttl => KeyValueStore.validateSet key value ttl
  | .get key => KeyValueStore.validateKey key
  | .keyExists key => KeyValueStore.validateKey key
  | .remove key => KeyValueStore.validateKey key
  | _ => .success

/-- What a call meets at a closed store. -/
def whenClosed : Call → Status
  | .openStore => .success
  | .close => .success
  | _ => .closed "store is not open"

/-- The checks of a call before its first section. -/
def check (call : Call) (store : KeyValueStore) : Status :=
  if store.opened then call.validate else call.whenClosed

/-- How a call reports that its checks have failed. -/
def refusal (call : Call) (status : Status) : Reply :=
  match call with
  | .get _ => .value (.error status)
  | .keyExists _ => .flag (.error status)
  | .keys _ => .listing (.error status)
  | .cleanupExpired => .count 0
  | .compact => .summary (.error status)
  | _ => .status status

/-- How `get`, and `exists` on top of it, report what was found. -/
def conclude (call : Call) (result : Result Bytes) : Reply :=
  match call with
  | .keyExists _ =>
      .flag (match result with
        | .ok _ => .ok true
        | .error status =>
            if status.code = .notFound then .ok false else .error status)
  | _ => .value result

end Call

namespace KeyValueStore

/-- `getOperations_.fetch_add(1)`.  No call of the threads reads the counter. -/
def countGet (store : KeyValueStore) : KeyValueStore :=
  { store with getOperations := store.getOperations + 1 }

/-- What a call does first when its checks have passed. -/
def enter (request : Request) (readMs nowMs : Int64) (store : KeyValueStore) :
    KeyValueStore × Stage :=
  let environment := (request.readAt nowMs).environment
  match request.call with
  | .set key value ttl =>
      let result := store.setSection environment key value
        (deadline readMs ttl)
      (result.1, .answered (.status result.2))
  | .get key => (store.countGet, .locked request key)
  | .keyExists key => (store.countGet, .locked request key)
  | .remove key =>
      let result := store.removeSection environment key
      (result.1, .answered (.status result.2))
  | .keys start =>
      ((store.cleanupExpired environment).1, .cleaned request start)
  | .cleanupExpired =>
      (store.purgeExpired environment,
        .answered (.count (store.expiredAt environment).length))
  | .compact =>
      let result := store.compactSection environment
      (result.1, .answered (.summary result.2))
  | .openStore =>
      let result := store.openStore environment
      (result.1, .answered (.status result.2))
  | .close =>
      let result := store.close
      (result.1, .answered (.status result.2))

/-- The next step of a thread. -/
def proceed (nowMs : Int64) (store : KeyValueStore) :
    Stage → KeyValueStore × Stage
  | .resting => (store, .resting)
  | .invoked request =>
      if (request.call.check store).ok then
        (store, .checked request nowMs)
      else
        (store, .answered (request.call.refusal (request.call.check store)))
  | .checked request readMs => store.enter request readMs nowMs
  | .locked request key =>
      match store.find nowMs key with
      | .missing =>
          (store, .answered (request.call.conclude
            (.error (.notFound "key does not exist"))))
      | .expired => (store, .expired request key nowMs)
      | .live metadata => (store, .found request key metadata)
  | .found request key metadata =>
      match store.lookupCache key with
      | (store, some value) =>
          (store, .answered (request.call.conclude (.ok value)))
      | (store, none) => (store, .missed request key metadata)
  | .missed request key metadata =>
      match store.readStored request.environment key metadata with
      | (store, .error status) =>
          (store, .answered (request.call.conclude (.error status)))
      | (store, .ok value) => (store, .read request key value)
  | .read request key value =>
      (store.fillCache key value,
        .answered (request.call.conclude (.ok value)))
  | .expired request key readMs =>
      ((store.eraseIfExpired key readMs).1,
        .answered (request.call.conclude
          (.error (.notFound "key has expired"))))
  | .cleaned request start =>
      (store, .answered (.listing
        (.ok (store.listKeys request.environment start))))
  | .answered reply => (store, .answered reply)

end KeyValueStore

/-- Threads that make calls on one store. -/
structure Calls (Thread : Type) where
  store : KeyValueStore
  clock : Int64
  stage : Thread → Stage

namespace Calls

variable {Thread : Type}

/-- No thread is in a call. -/
def start (store : KeyValueStore) (clock : Int64) : Calls Thread where
  store := store
  clock := clock
  stage _ := .resting

/-- No thread holds the shared lock, so that an exclusive section may run. -/
def Free (calls : Calls Thread) : Prop :=
  ∀ thread, (calls.stage thread).shared = false

/-- The lock that the next step of a thread needs is granted. -/
def Granted (calls : Calls Thread) (thread : Thread) : Prop :=
  (calls.stage thread).exclusive = true → calls.Free

variable [DecidableEq Thread]

/-- One thread takes its next step. -/
def moved (calls : Calls Thread) (thread : Thread) : Calls Thread :=
  let next := calls.store.proceed calls.clock (calls.stage thread)
  { calls with
    store := next.1
    stage := Function.update calls.stage thread next.2 }

/-- The clock moves on, a thread calls, goes on in its call or returns. -/
inductive Step (calls : Calls Thread) :
    Option (Boundary Thread Request Reply Int64) → Calls Thread → Prop
  | tick {nowMs : Int64} (hclock : calls.clock ≤ nowMs) :
      Step calls (some (.tick nowMs)) { calls with clock := nowMs }
  | invoke {thread : Thread} {request : Request}
      (hstage : calls.stage thread = .resting) :
      Step calls (some (.invoke thread request))
        { calls with
          stage := Function.update calls.stage thread (.invoked request) }
  | move {thread : Thread} (hgranted : calls.Granted thread) :
      Step calls none (calls.moved thread)
  | answer {thread : Thread} {reply : Reply}
      (hstage : calls.stage thread = .answered reply) :
      Step calls (some (.answer thread reply))
        { calls with
          stage := Function.update calls.stage thread .resting }

end Calls

end MiniKV
