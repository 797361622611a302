import MiniKV.Concurrent.Calls
import MiniKV.Library.LockOrder

/-!
# The locks of the calls

Which locks a step of a thread takes and gives back is read off the store and
the stage of its call, as the step itself is.  The index, the file and the cache
change only in steps that take their locks, and the steps of a call make up one
of the paths that `Takes` lists, whatever other threads do in between.
-/

namespace MiniKV

inductive StoreLock
  /-- What `cleanerThread_.join()` waits for. -/
  | running
  /-- `cleanerMutex_` -/
  | cleaner
  /-- `indexMutex_` -/
  | index
  /-- `fileMutex_` -/
  | file
  /-- `mutex_` of the cache -/
  | cache
  deriving DecidableEq

namespace Locking

/-- A call of the append-only store. -/
def fileCall : List (LockStep StoreLock) := guarded .file .exclusive []

/-- A call of the cache. -/
def cacheCall : List (LockStep StoreLock) := guarded .cache .exclusive []

def exclusively (part : List (LockStep StoreLock)) :
    List (LockStep StoreLock) := guarded .index .exclusive part

def sharing (part : List (LockStep StoreLock)) :
    List (LockStep StoreLock) := guarded .index .shared part

def repeated (count : ℕ) (part : List (LockStep StoreLock)) :
    List (LockStep StoreLock) := (List.replicate count part).flatten

/-- The paths through the calls. -/
inductive Takes : Call → List (LockStep StoreLock) → Prop
  /-- A check in front of every lock decides. -/
  | turnedAway (call : Call) : Takes call []
  | setWhileClosed (key value : Bytes) (ttl : Option Int64) :
      Takes (.set key value ttl) (exclusively [])
  | setFailed (key value : Bytes) (ttl : Option Int64) :
      Takes (.set key value ttl) (exclusively fileCall)
  | set (key value : Bytes) (ttl : Option Int64) :
      Takes (.set key value ttl) (exclusively (fileCall ++ cacheCall))
  | getMissing (key : Bytes) : Takes (.get key) (sharing [])
  | getExpired (key : Bytes) :
      Takes (.get key) (sharing [] ++ exclusively cacheCall)
  /-- `eraseIfExpired` no longer finds the expired entry. -/
  | getReplaced (key : Bytes) : Takes (.get key) (sharing [] ++ exclusively [])
  | getCached (key : Bytes) : Takes (.get key) (sharing cacheCall)
  | getUnreadable (key : Bytes) :
      Takes (.get key) (sharing (cacheCall ++ fileCall))
  | get (key : Bytes) :
      Takes (.get key) (sharing (cacheCall ++ (fileCall ++ cacheCall)))
  | keyExists {key : Bytes} {part : List (LockStep StoreLock)}
      (hget : Takes (.get key) part) : Takes (.keyExists key) part
  | removeMissing (key : Bytes) : Takes (.remove key) (exclusively [])
  | removeExpired (key : Bytes) : Takes (.remove key) (exclusively cacheCall)
  | removeFailed (key : Bytes) : Takes (.remove key) (exclusively fileCall)
  | remove (key : Bytes) :
      Takes (.remove key) (exclusively (fileCall ++ cacheCall))
  | cleanupExpired (erased : ℕ) :
      Takes .cleanupExpired (exclusively (repeated erased cacheCall))
  | keys (start : Bytes) {part : List (LockStep StoreLock)}
      (hcleanup : Takes .cleanupExpired part) :
      Takes (.keys start) (part ++ sharing [])
  /-- A reread or the rewrite fails. -/
  | compactFailed (erased read : ℕ) :
      Takes .compact (exclusively
        (repeated erased cacheCall ++ repeated read fileCall))
  | compact (erased read : ℕ) :
      Takes .compact (exclusively (repeated erased cacheCall ++
        (repeated read fileCall ++ (fileCall ++ cacheCall))))
  | openFailed : Takes .openStore fileCall
  | recoverFailed : Takes .openStore (fileCall ++ fileCall)
  | openStore :
      Takes .openStore
        (fileCall ++ (fileCall ++ (exclusively [] ++ cacheCall)))
  | close : Takes .close (guarded .running .exclusive [])

/-- `statistics` takes one lock after the other. -/
def statistics : List (LockStep StoreLock) :=
  sharing [] ++ (fileCall ++ cacheCall)

end Locking

namespace KeyValueStore

open Locking

/-! ## The locks of a step -/

/-- A check of a call behind the locks in front of it. -/
def lockedIf (condition : Bool) (part : List (LockStep StoreLock)) :
    List (LockStep StoreLock) := if condition then part else []

def setLocks (environment : Environment) (key value : Bytes)
    (expiresAtMs : Int64) (store : KeyValueStore) :
    List (LockStep StoreLock) :=
  exclusively (lockedIf store.opened (fileCall ++ lockedIf
    (store.setSection environment key value expiresAtMs).2.ok cacheCall))

def removeLocks (environment : Environment) (key : Bytes)
    (store : KeyValueStore) : List (LockStep StoreLock) :=
  exclusively (match store.find environment.nowMs key with
    | .missing => []
    | .expired => cacheCall
    | .live _ => fileCall ++
        lockedIf (store.removeSection environment key).2.ok cacheCall)

/-- The locks of the loop over the expired entries. -/
def purgeLocks (environment : Environment) (store : KeyValueStore) :
    List (LockStep StoreLock) :=
  repeated (store.expiredAt environment).length cacheCall

/-- The locks of the loop that rereads the live values. -/
def rereadLocks (environment : Environment) :
    List Bytes → KeyValueStore → List (LockStep StoreLock)
  | [], _ => []
  | key :: keys, store =>
      match store.index.lookup key with
      | none => rereadLocks environment keys store
      | some metadata =>
          fileCall ++ (match store.readStored environment key metadata with
            | (_, .error _) => []
            | (store, .ok _) => rereadLocks environment keys store)

def compactLocks (environment : Environment) (store : KeyValueStore) :
    List (LockStep StoreLock) :=
  let purged := store.purgeExpired environment
  let keys := (environment.hashOrder purged.index).keys
  exclusively (store.purgeLocks environment ++
    (purged.rereadLocks environment keys ++ lockedIf
      (purged.readLiveRecords environment keys).2.isOk
      (fileCall ++
        lockedIf (store.compactSection environment).2.isOk cacheCall)))

def openLocks (environment : Environment) (store : KeyValueStore) :
    List (LockStep StoreLock) :=
  lockedIf (!store.opened && !decide (store.config.cleanupIntervalMs ≤ 0))
    (fileCall ++
      lockedIf (store.storage.openFile environment.openAnswers).2.ok
        (fileCall ++ lockedIf
          ((store.storage.openFile environment.openAnswers).1.recover
            environment.openAnswers environment.recover
            environment.nowMs).2.isOk
          (exclusively [] ++ cacheCall)))

/-- `close` waits for the cleaner when it closes an open store. -/
def closeLocks (store : KeyValueStore) : List (LockStep StoreLock) :=
  lockedIf store.opened (guarded .running .exclusive [])

/-- The locks of what a call does first when its checks have passed. -/
def enterLocks (request : Request) (readMs nowMs : Int64)
    (store : KeyValueStore) : List (LockStep StoreLock) :=
  let environment := (request.readAt nowMs).environment
  match request.call with
  | .set key value ttl =>
      store.setLocks environment key value (deadline readMs ttl)
  | .get _ => [.acquire .index .shared]
  | .keyExists _ => [.acquire .index .shared]
  | .remove key => store.removeLocks environment key
  | .keys _ =>
      lockedIf store.opened (exclusively (store.purgeLocks environment))
  | .cleanupExpired => exclusively (store.purgeLocks environment)
  | .compact => store.compactLocks environment
  | .openStore => store.openLocks environment
  | .close => store.closeLocks

/-- The locks of the next step of a thread. -/
def locks (nowMs : Int64) (store : KeyValueStore) :
    Stage → List (LockStep StoreLock)
  | .checked request readMs => store.enterLocks request readMs nowMs
  | .locked _ key =>
      match store.find nowMs key with
      | .live _ => []
      | _ => [.release .index]
  | .found _ key _ =>
      cacheCall ++ lockedIf (store.lookupCache key).2.isSome [.release .index]
  | .missed request key metadata =>
      fileCall ++ lockedIf
        (!(store.readStored request.environment key metadata).2.isOk)
        [.release .index]
  | .read _ _ _ => cacheCall ++ [.release .index]
  | .expired _ key readMs =>
      exclusively (lockedIf (store.eraseIfExpired key readMs).2 cacheCall)
  | .cleaned _ _ => sharing []
  | _ => []

/-! ## The locks of a call -/

/-- The steps of one call, at whatever stores and clock readings, with the locks
on the way. -/
inductive Walks : Stage → List (LockStep StoreLock) → Stage → Prop
  | nil (stage : Stage) : Walks stage [] stage
  | cons (nowMs : Int64) (store : KeyValueStore) {stage last : Stage}
      {path : List (LockStep StoreLock)}
      (hrest : Walks (store.proceed nowMs stage).2 path last) :
      Walks stage (store.locks nowMs stage ++ path) last

/-- The path completes the call at this stage. -/
def Completes : Stage → List (LockStep StoreLock) → Prop
  | .resting, _ => False
  | .invoked request, path => Takes request.call path
  | .checked request _, path => Takes request.call path
  | .locked _ key, path => Takes (.get key) (.acquire .index .shared :: path)
  | .found _ key _, path => Takes (.get key) (.acquire .index .shared :: path)
  | .missed _ key _, path =>
      Takes (.get key) (.acquire .index .shared :: (cacheCall ++ path))
  | .read _ key _, path => Takes (.get key)
      (.acquire .index .shared :: (cacheCall ++ (fileCall ++ path)))
  | .expired _ key _, path => Takes (.get key) (sharing [] ++ path)
  | .cleaned _ _, path => path = sharing []
  | .answered _, path => path = []

variable {environment : Environment} {request : Request} {stage : Stage}
variable {path : List (LockStep StoreLock)}

theorem repeated_concat (count : ℕ) (part : List (LockStep StoreLock)) :
    repeated count part ++ part = repeated (count + 1) part := by
  rw [repeated, repeated, List.replicate_succ', List.flatten_append]
  simp

/-- The rereads are calls of the append-only store. -/
theorem exists_rereadLocks (environment : Environment) (keys : List Bytes)
    (store : KeyValueStore) :
    ∃ count, store.rereadLocks environment keys = repeated count fileCall := by
  induction keys generalizing store with
  | nil => exact ⟨0, rfl⟩
  | cons key keys ih =>
      rw [rereadLocks]
      split
      · exact ih store
      · split
        · exact ⟨1, rfl⟩
        next after _ _ =>
          obtain ⟨count, hcount⟩ := ih after
          exact ⟨count + 1, by rw [hcount]; rfl⟩

theorem takes_setLocks (environment : Environment) (key value : Bytes)
    (ttl : Option Int64) (expiresAtMs : Int64) (store : KeyValueStore) :
    Takes (.set key value ttl)
      (store.setLocks environment key value expiresAtMs) := by
  rw [setLocks]
  cases store.opened with
  | false => exact .setWhileClosed key value ttl
  | true =>
      cases (store.setSection environment key value expiresAtMs).2.ok with
      | false => exact .setFailed key value ttl
      | true => exact .set key value ttl

theorem takes_removeLocks (environment : Environment) (key : Bytes)
    (store : KeyValueStore) :
    Takes (.remove key) (store.removeLocks environment key) := by
  rw [removeLocks]
  cases store.find environment.nowMs key with
  | missing => exact .removeMissing key
  | expired => exact .removeExpired key
  | live metadata =>
      cases (store.removeSection environment key).2.ok with
      | false => exact .removeFailed key
      | true => exact .remove key

theorem takes_compactLocks (environment : Environment)
    (store : KeyValueStore) :
    Takes .compact (store.compactLocks environment) := by
  obtain ⟨read, hread⟩ := exists_rereadLocks environment
    (environment.hashOrder (store.purgeExpired environment).index).keys
    (store.purgeExpired environment)
  rw [compactLocks, purgeLocks, hread]
  cases ((store.purgeExpired environment).readLiveRecords environment
    (environment.hashOrder (store.purgeExpired environment).index).keys).2.isOk
    with
  | false =>
      rw [lockedIf, if_neg Bool.false_ne_true, List.append_nil]
      exact .compactFailed _ read
  | true =>
      rw [lockedIf, if_pos rfl]
      cases (store.compactSection environment).2.isOk with
      | false =>
          rw [lockedIf, if_neg Bool.false_ne_true, List.append_nil,
            repeated_concat]
          exact .compactFailed _ (read + 1)
      | true => exact .compact _ read

theorem takes_openLocks (environment : Environment) (store : KeyValueStore) :
    Takes .openStore (store.openLocks environment) := by
  rw [openLocks]
  cases !store.opened && !decide (store.config.cleanupIntervalMs ≤ 0) with
  | false => exact .turnedAway .openStore
  | true =>
      cases (store.storage.openFile environment.openAnswers).2.ok with
      | false => exact .openFailed
      | true =>
          cases ((store.storage.openFile environment.openAnswers).1.recover
            environment.openAnswers environment.recover
            environment.nowMs).2.isOk with
          | false => exact .recoverFailed
          | true => exact .openStore

/-- What a call does first, and what is left behind it. -/
theorem completes_enter (readMs nowMs : Int64) (store : KeyValueStore)
    (hcompletes : Completes (store.enter request readMs nowMs).2 path) :
    Takes request.call (store.enterLocks request readMs nowMs ++ path) := by
  obtain ⟨environment, call⟩ := request
  rw [enter] at hcompletes
  rw [enterLocks]
  cases call with
  | set key value ttl =>
      cases hcompletes
      rw [List.append_nil]
      exact takes_setLocks _ key value ttl _ store
  | get key => exact hcompletes
  | keyExists key => exact .keyExists hcompletes
  | remove key =>
      cases hcompletes
      rw [List.append_nil]
      exact takes_removeLocks _ key store
  | keys start =>
      cases hcompletes
      apply Takes.keys start
      cases store.opened with
      | false => exact .turnedAway .cleanupExpired
      | true => exact .cleanupExpired _
  | cleanupExpired =>
      cases hcompletes
      rw [List.append_nil]
      exact .cleanupExpired _
  | compact =>
      cases hcompletes
      rw [List.append_nil]
      exact takes_compactLocks _ store
  | openStore =>
      cases hcompletes
      rw [List.append_nil]
      exact takes_openLocks _ store
  | close =>
      cases hcompletes
      rw [List.append_nil, closeLocks]
      cases store.opened with
      | false => exact .turnedAway .close
      | true => exact .close

/-- The locks of a step in front of a path that completes the call behind it. -/
theorem completes_proceed (nowMs : Int64) (store : KeyValueStore)
    (hcompletes : Completes (store.proceed nowMs stage).2 path) :
    Completes stage (store.locks nowMs stage ++ path) := by
  cases stage with
  | resting => exact hcompletes
  | invoked request =>
      rw [proceed] at hcompletes
      split at hcompletes
      · exact hcompletes
      · cases hcompletes
        exact .turnedAway request.call
  | checked request readMs => exact completes_enter readMs nowMs store hcompletes
  | locked request key =>
      rw [proceed] at hcompletes
      rw [locks]
      cases hfind : store.find nowMs key with
      | missing =>
          rw [hfind] at hcompletes
          cases hcompletes
          exact .getMissing key
      | expired =>
          rw [hfind] at hcompletes
          exact hcompletes
      | live metadata =>
          rw [hfind] at hcompletes
          exact hcompletes
  | found request key metadata =>
      rw [proceed] at hcompletes
      rw [locks]
      split at hcompletes
      next hlooked =>
        cases hcompletes
        rw [hlooked, List.append_nil]
        exact .getCached key
      next hlooked =>
        rw [hlooked]
        exact hcompletes
  | missed request key metadata =>
      rw [proceed] at hcompletes
      rw [locks]
      split at hcompletes
      next hread =>
        cases hcompletes
        rw [hread, List.append_nil]
        exact .getUnreadable key
      next hread =>
        rw [hread]
        exact hcompletes
  | read request key value =>
      cases hcompletes
      exact .get key
  | expired request key readMs =>
      cases hcompletes
      rw [locks, List.append_nil]
      cases (store.eraseIfExpired key readMs).2 with
      | false => exact .getReplaced key
      | true => exact .getExpired key
  | cleaned request start =>
      cases hcompletes
      exact List.append_nil _
  | answered reply => exact hcompletes

/-- The steps of a call from its invocation to its answer take one of its
paths, whatever the store and the clock are at each of them. -/
theorem takes_of_walks {reply : Reply}
    (hwalks : Walks (.invoked request) path (.answered reply)) :
    Takes request.call path := by
  have hcompletes : ∀ {stage last : Stage}
      {path : List (LockStep StoreLock)}, Walks stage path last →
      Completes last [] → Completes stage path := by
    intro stage last path hwalks hlast
    induction hwalks with
    | nil stage => exact hlast
    | cons nowMs store _ ih => exact completes_proceed nowMs store (ih hlast)
  exact hcompletes hwalks rfl

/-! ## The locks of what changes -/

/-- The index, the file and the cache change only under their locks. -/
structure ChangesLocked (path : List (LockStep StoreLock))
    (before after : KeyValueStore) : Prop where
  index : after.index = before.index ∨ .acquire .index .exclusive ∈ path
  storage : after.storage = before.storage ∨ .acquire .file .exclusive ∈ path
  cache : after.cache = before.cache ∨ .acquire .cache .exclusive ∈ path

namespace ChangesLocked

variable {before after last : KeyValueStore}
variable {first second : List (LockStep StoreLock)}

theorem refl (path : List (LockStep StoreLock)) (store : KeyValueStore) :
    ChangesLocked path store store :=
  ⟨Or.inl rfl, Or.inl rfl, Or.inl rfl⟩

theorem mono (hchanges : ChangesLocked first before after)
    (hsubset : first ⊆ second) : ChangesLocked second before after :=
  ⟨hchanges.index.imp_right fun hmem => hsubset hmem,
    hchanges.storage.imp_right fun hmem => hsubset hmem,
    hchanges.cache.imp_right fun hmem => hsubset hmem⟩

theorem append (hfirst : ChangesLocked first before after)
    (hsecond : ChangesLocked second after last) :
    ChangesLocked (first ++ second) before last := by
  have hleft := hfirst.mono (List.subset_append_left first second)
  have hright := hsecond.mono (List.subset_append_right first second)
  refine ⟨?_, ?_, ?_⟩
  · rcases hright.index with hindex | hmem
    · rw [hindex]
      exact hleft.index
    · exact Or.inr hmem
  · rcases hright.storage with hstorage | hmem
    · rw [hstorage]
      exact hleft.storage
    · exact Or.inr hmem
  · rcases hright.cache with hcache | hmem
    · rw [hcache]
      exact hleft.cache
    · exact Or.inr hmem

theorem subset_exclusively (part : List (LockStep StoreLock)) :
    part ⊆ Locking.exclusively part := fun _ hmem =>
  List.mem_cons_of_mem _ (List.mem_append_left _ hmem)

/-- A section under the index lock may change the index. -/
theorem exclusively {part : List (LockStep StoreLock)}
    (hstorage : after.storage = before.storage ∨
      .acquire .file .exclusive ∈ part)
    (hcache : after.cache = before.cache ∨
      .acquire .cache .exclusive ∈ part) :
    ChangesLocked (exclusively part) before after := by
  exact ⟨Or.inr List.mem_cons_self,
    hstorage.imp_right fun hmem => subset_exclusively part hmem,
    hcache.imp_right fun hmem => subset_exclusively part hmem⟩

/-- Two parts of one section. -/
theorem section_append
    (hfirst : ChangesLocked (Locking.exclusively first) before after)
    (hsecond : ChangesLocked (Locking.exclusively second) after last) :
    ChangesLocked (Locking.exclusively (first ++ second)) before last := by
  apply (hfirst.append hsecond).mono
  intro step hmem
  simp only [Locking.exclusively, guarded, List.mem_append, List.mem_cons]
    at hmem ⊢
  tauto

end ChangesLocked

theorem mem_fileCall : .acquire .file .exclusive ∈ fileCall :=
  List.mem_cons_self

theorem mem_cacheCall : .acquire .cache .exclusive ∈ cacheCall :=
  List.mem_cons_self

theorem changesLocked_setSection (environment : Environment)
    (key value : Bytes) (expiresAtMs : Int64) (store : KeyValueStore) :
    ChangesLocked (store.setLocks environment key value expiresAtMs) store
      (store.setSection environment key value expiresAtMs).1 := by
  apply ChangesLocked.exclusively
  · cases hopened : store.opened with
    | true => exact Or.inr (List.mem_append_left _ mem_fileCall)
    | false =>
        left
        simp [setSection, hopened]
  · rw [setSection]
    split
    next hopened =>
      rw [hopened]
      split
      · exact Or.inl rfl
      · exact Or.inr (List.mem_append_right _ mem_cacheCall)
    · exact Or.inl rfl

theorem changesLocked_removeSection (environment : Environment) (key : Bytes)
    (store : KeyValueStore) :
    ChangesLocked (store.removeLocks environment key) store
      (store.removeSection environment key).1 := by
  rw [removeLocks]
  cases hfind : store.find environment.nowMs key with
  | missing =>
      rw [removeSection, hfind]
      exact .exclusively (Or.inl rfl) (Or.inl rfl)
  | expired =>
      rw [removeSection, hfind]
      exact .exclusively (Or.inl rfl) (Or.inr mem_cacheCall)
  | live metadata =>
      apply ChangesLocked.exclusively
      · exact Or.inr (List.mem_append_left _ mem_fileCall)
      · rw [removeSection, hfind]
        dsimp only
        split
        · exact Or.inr (List.mem_append_right _ mem_cacheCall)
        · exact Or.inl rfl

theorem changesLocked_purgeExpired (environment : Environment)
    (store : KeyValueStore) :
    ChangesLocked (exclusively (store.purgeLocks environment)) store
      (store.purgeExpired environment) := by
  refine ChangesLocked.exclusively (Or.inl ?_) ?_
  · rfl
  rw [purgeLocks, purgeExpired]
  cases store.expiredAt environment with
  | nil => exact Or.inl rfl
  | cons key keys => exact Or.inr (List.mem_append_left _ mem_cacheCall)

theorem changesLocked_readLiveRecords (environment : Environment)
    (keys : List Bytes) (store : KeyValueStore) :
    ChangesLocked (store.rereadLocks environment keys) store
      (store.readLiveRecords environment keys).1 := by
  induction keys generalizing store with
  | nil => exact .refl _ store
  | cons key keys ih =>
      rw [readLiveRecords, rereadLocks]
      cases store.index.lookup key with
      | none => exact ih store
      | some metadata =>
          have hread : ChangesLocked fileCall store
              (store.readStored environment key metadata).1 :=
            ⟨Or.inl rfl, Or.inr mem_fileCall, Or.inl rfl⟩
          dsimp only
          rcases hstored : store.readStored environment key metadata with
            ⟨after, status | value⟩ <;> rw [hstored] at hread
          · exact hread.append (.refl [] after)
          · have hrest := hread.append (ih after)
            dsimp only
            rcases hloop : after.readLiveRecords environment keys with
              ⟨rest, status | records⟩ <;> rw [hloop] at hrest <;>
              exact hrest

theorem changesLocked_compactSection (environment : Environment)
    (store : KeyValueStore) :
    ChangesLocked (store.compactLocks environment) store
      (store.compactSection environment).1 := by
  have hloop := (changesLocked_purgeExpired environment store).section_append
    ((changesLocked_readLiveRecords environment
      (environment.hashOrder (store.purgeExpired environment).index).keys
      (store.purgeExpired environment)).mono
        (ChangesLocked.subset_exclusively _))
  rw [compactLocks, ← List.append_assoc, compactSection]
  rcases hread : (store.purgeExpired environment).readLiveRecords environment
    (environment.hashOrder (store.purgeExpired environment).index).keys with
    ⟨after, status | records⟩ <;> rw [hread] at hloop
  · exact hloop.section_append (.refl _ after)
  · apply hloop.section_append
    dsimp only
    rcases after.storage.compact environment.openAnswers environment.compact
      (sortRecords records) with ⟨storage, status | state⟩
    · exact .exclusively (Or.inr (List.mem_append_left _ mem_fileCall))
        (Or.inl rfl)
    · exact .exclusively (Or.inr (List.mem_append_left _ mem_fileCall))
        (Or.inr (List.mem_append_right _ mem_cacheCall))

theorem changesLocked_openStore (environment : Environment)
    (store : KeyValueStore) :
    ChangesLocked (store.openLocks environment) store
      (store.openStore environment).1 := by
  rw [openLocks, openStore]
  cases hopened : store.opened with
  | true => exact .refl _ store
  | false =>
      by_cases hinterval : store.config.cleanupIntervalMs ≤ 0
      · rw [if_neg Bool.false_ne_true, if_pos hinterval]
        exact .refl _ store
      rw [if_neg Bool.false_ne_true, if_neg hinterval,
        decide_eq_false hinterval]
      dsimp only
      cases (store.storage.openFile environment.openAnswers).2.ok with
      | false =>
          exact ⟨Or.inl rfl, Or.inr (List.mem_append_left _ mem_fileCall),
            Or.inl rfl⟩
      | true =>
          rw [if_pos rfl]
          rcases (store.storage.openFile environment.openAnswers).1.recover
            environment.openAnswers environment.recover environment.nowMs with
            ⟨storage, status | state⟩
          · exact ⟨Or.inl rfl, Or.inr (List.mem_append_left _ mem_fileCall),
              Or.inl rfl⟩
          · -- an opening that has recovered the file has taken every lock
            refine ⟨Or.inr ?_, Or.inr ?_, Or.inr ?_⟩ <;>
              simp [lockedIf, fileCall, cacheCall, exclusively, guarded,
                Except.isOk, Except.toBool]

theorem changesLocked_close (store : KeyValueStore) :
    ChangesLocked store.closeLocks store store.close.1 := by
  rw [close]
  split <;> exact ⟨Or.inl rfl, Or.inl rfl, Or.inl rfl⟩

theorem changesLocked_eraseIfExpired (key : Bytes) (nowMs : Int64)
    (store : KeyValueStore) :
    ChangesLocked
      (exclusively (lockedIf (store.eraseIfExpired key nowMs).2 cacheCall))
      store (store.eraseIfExpired key nowMs).1 := by
  rw [eraseIfExpired]
  split
  · exact .refl _ store
  · split
    · exact .exclusively (Or.inl rfl) (Or.inr mem_cacheCall)
    · exact .refl _ store

theorem changesLocked_enter (request : Request) (readMs nowMs : Int64)
    (store : KeyValueStore) :
    ChangesLocked (store.enterLocks request readMs nowMs) store
      (store.enter request readMs nowMs).1 := by
  obtain ⟨environment, call⟩ := request
  cases call with
  | set key value ttl => exact changesLocked_setSection _ key value _ store
  | get key => exact ⟨Or.inl rfl, Or.inl rfl, Or.inl rfl⟩
  | keyExists key => exact ⟨Or.inl rfl, Or.inl rfl, Or.inl rfl⟩
  | remove key => exact changesLocked_removeSection _ key store
  | keys start =>
      rw [enter, enterLocks]
      dsimp only
      rw [cleanupExpired]
      cases store.opened with
      | false => exact .refl _ store
      | true =>
          exact changesLocked_purgeExpired _ store
  | cleanupExpired => exact changesLocked_purgeExpired _ store
  | compact => exact changesLocked_compactSection _ store
  | openStore => exact changesLocked_openStore _ store
  | close => exact changesLocked_close store

/-- A step changes the index, the file and the cache under their locks only. -/
theorem changesLocked_proceed (nowMs : Int64) (store : KeyValueStore)
    (stage : Stage) :
    ChangesLocked (store.locks nowMs stage) store
      (store.proceed nowMs stage).1 := by
  cases stage with
  | resting => exact .refl _ store
  | invoked request =>
      rw [proceed]
      split <;> exact .refl _ store
  | checked request readMs =>
      exact changesLocked_enter request readMs nowMs store
  | locked request key =>
      rw [proceed]
      split <;> exact .refl _ store
  | found request key metadata =>
      have hlookup : ChangesLocked (store.locks nowMs
          (.found request key metadata)) store (store.lookupCache key).1 :=
        ⟨Or.inl rfl, Or.inl rfl, Or.inr (List.mem_append_left _ mem_cacheCall)⟩
      rw [proceed]
      split
      next hlooked =>
        rw [hlooked] at hlookup
        exact hlookup
      next hlooked =>
        rw [hlooked] at hlookup
        exact hlookup
  | missed request key metadata =>
      have hstored : ChangesLocked (store.locks nowMs
          (.missed request key metadata)) store
          (store.readStored request.environment key metadata).1 :=
        ⟨Or.inl rfl, Or.inr (List.mem_append_left _ mem_fileCall), Or.inl rfl⟩
      rw [proceed]
      split
      next hread =>
        rw [hread] at hstored
        exact hstored
      next hread =>
        rw [hread] at hstored
        exact hstored
  | read request key value =>
      exact ⟨Or.inl rfl, Or.inl rfl,
        Or.inr (List.mem_append_left _ mem_cacheCall)⟩
  | expired request key readMs =>
      exact changesLocked_eraseIfExpired key readMs store
  | cleaned request start => exact .refl _ store
  | answered reply => exact .refl _ store

end KeyValueStore

end MiniKV
