import MiniKV.Store.Restarts

/-!
# What the statistics count

Each counter is the number of answers of one kind, so that the answers of a run
determine it, whatever fails.  The keys are accounted for as well: every key
that a `set` has brought in is still there, has been deleted or has expired.
-/

namespace MiniKV

/-- The counters of the statistics; a lookup is a hit or a miss of the cache. -/
inductive Counter
  | sets
  | gets
  | deletes
  | compactions
  | lookups
  deriving DecidableEq

namespace Counter

/-- The call has come as far as the index. -/
def processed {T : Type} : Result T → Bool
  | .ok _ => true
  | .error status =>
      status.code != .closed && status.code != .invalidArgument

/-- The call has found a live entry. -/
def foundLive {T : Type} (found : T → Bool) : Result T → Bool
  | .ok value => found value
  | .error status => status.code == .ioError || status.code == .corruption ||
      status.code == .thrown

/-- The answers that a counter counts. -/
def counts : Counter → Call → Reply → Bool
  | .sets, .set _ _ _, .status status => status.ok
  | .gets, .get _, .value result => processed result
  | .gets, .keyExists _, .flag result => processed result
  | .deletes, .remove _, .status status => status.ok
  | .compactions, .compact, .summary result => result.isOk
  | .lookups, .get _, .value result => foundLive (fun _ => true) result
  | .lookups, .keyExists _, .flag result => foundLive id result
  | _, _, _ => false

end Counter

/-- What the statistics say of a counter. -/
def EngineStatistics.reading (statistics : EngineStatistics) : Counter → ℕ
  | .sets => statistics.setOperations
  | .gets => statistics.getOperations
  | .deletes => statistics.deleteOperations
  | .compactions => statistics.compactions
  | .lookups => statistics.cache.hits + statistics.cache.misses

namespace LruCache

variable {Key Value : Type}

/-- How often the cache has been asked. -/
def lookups (cache : LruCache Key Value) : ℕ := cache.hits + cache.misses

theorem lookups_get (key : Key) (cache : LruCache Key Value) :
    (cache.get key).1.lookups = cache.lookups + 1 := by
  unfold get lookups
  split
  · rfl
  · dsimp only
    omega

variable [DecidableEq Key]

theorem lookups_put (key : Key) (value : Value) (cache : LruCache Key Value) :
    (cache.put key value).lookups = cache.lookups := by
  unfold put lookups
  dsimp only
  repeat' split
  all_goals rfl

theorem lookups_erase (key : Key) (cache : LruCache Key Value) :
    (cache.erase key).lookups = cache.lookups := by
  unfold erase lookups
  split <;> rfl

theorem lookups_eraseAll (keys : List Key) (cache : LruCache Key Value) :
    (keys.foldl (fun cache key => cache.erase key) cache).lookups =
      cache.lookups := by
  induction keys generalizing cache with
  | nil => rfl
  | cons key keys ih => rw [List.foldl_cons, ih, lookups_erase]

end LruCache

namespace KeyValueStore

open Counter

/-- The value of a counter. -/
def counter (store : KeyValueStore) : Counter → ℕ
  | .sets => store.setOperations
  | .gets => store.getOperations
  | .deletes => store.deleteOperations
  | .compactions => store.compactions
  | .lookups => store.cache.lookups

theorem reading_statistics (failed : Bool) (store : KeyValueStore)
    (counter : Counter) :
    (store.statistics failed).reading counter = store.counter counter := by
  cases counter <;> rfl

variable {environment : Environment} {store after : KeyValueStore}
variable {key : Bytes}

/-- A call that answers with this reply and raises the counters by it. -/
def Raises (call : Call) (store after : KeyValueStore) (reply : Reply) : Prop :=
  ∀ counter : Counter, after.counter counter =
    store.counter counter + (counter.counts call reply).toNat

/-- A call that no counter counts. -/
theorem Raises.of_same {call : Call} {reply : Reply}
    (hsame : after.counter = store.counter)
    (hcounts : ∀ counter : Counter, counter.counts call reply = false) :
    Raises call store after reply := by
  intro counter
  rw [hsame, hcounts]
  rfl

/-- A `SET` that has not been appended is not acknowledged. -/
theorem not_ok_of_appendSet {storage appended : AppendOnlyStore}
    {openAnswers : OpenAnswers} {answers : AppendAnswers} {value : Bytes}
    {expiresAtMs : Int64} {status : Status}
    (happend : storage.appendSet openAnswers answers key value expiresAtMs =
      (appended, .error status)) : ¬ status.ok = true := by
  have hfails := AppendOnlyStore.failsWith_appendRecordLocked openAnswers
    answers ⟨.set, key, value, expiresAtMs⟩ storage
  rw [← AppendOnlyStore.appendSet, happend, failsWith_error] at hfails
  rw [Status.ok_eq_true_iff]
  intro hcode
  rw [Status.Fails, hcode] at hfails
  simp at hfails

theorem raises_set (environment : Environment) (key value : Bytes)
    (ttl : Option Int64) (store : KeyValueStore) :
    Raises (.set key value ttl) store
      (store.set environment key value ttl).1
      (.status (store.set environment key value ttl).2) := by
  have hrefused : ∀ status : Status, ¬ status.ok = true →
      ∀ counter : Counter,
        counter.counts (.set key value ttl) (.status status) = false := by
    intro status hstatus counter
    cases counter <;> simp [counts, hstatus]
  unfold set
  split
  next hopened =>
    split
    · rw [setSection, if_pos hopened]
      split
      next heq => exact .of_same rfl (hrefused _ (not_ok_of_appendSet heq))
      next heq =>
        intro counter
        have hput := LruCache.lookups_put key value store.cache
        cases counter <;> first | rfl | exact hput
    next hinvalid => exact .of_same rfl (hrefused _ hinvalid)
  · exact .of_same rfl (hrefused _ Bool.false_ne_true)

theorem counter_getLive (environment : Environment) (key : Bytes)
    (metadata : RecordMetadata) (store : KeyValueStore) (counter : Counter) :
    (store.getLive environment key metadata).1.counter counter =
      store.counter counter + (counter == .lookups).toNat := by
  have hlookups := store.cache.lookups_get key
  unfold getLive lookupCache readStored fillCache
  split
  next looked value heq =>
    obtain ⟨rfl, -⟩ := Prod.mk.inj heq
    cases counter <;> first | rfl | exact hlookups
  next looked heq =>
    obtain ⟨rfl, -⟩ := Prod.mk.inj heq
    split
    next read status heq =>
      obtain ⟨rfl, -⟩ := Prod.mk.inj heq
      cases counter <;> first | rfl | exact hlookups
    next read value heq =>
      obtain ⟨rfl, -⟩ := Prod.mk.inj heq
      have hput := LruCache.lookups_put key value (store.cache.get key).1
      cases counter <;> first | rfl | exact hput.trans hlookups

theorem raises_get (environment : Environment) (key : Bytes)
    (store : KeyValueStore) :
    Raises (.get key) store (store.get environment key).1
      (.value (store.get environment key).2) := by
  unfold get
  split
  · split
    · dsimp only
      split
      · intro counter
        cases counter <;> rfl
      · intro counter
        unfold eraseIfExpired dropExpired
        split
        · cases counter <;> rfl
        · split
          · have herase := LruCache.lookups_erase key store.cache
            cases counter <;> first | rfl | exact herase
          · cases counter <;> rfl
      next metadata _ =>
        intro counter
        have hfails := failsWith_getLive environment key metadata
          { store with getOperations := store.getOperations + 1 }
        have hcounter := counter_getLive environment key metadata
          { store with getOperations := store.getOperations + 1 } counter
        rw [hcounter]
        generalize ({ store with
          getOperations := store.getOperations + 1 }.getLive
            environment key metadata).2 = result at hfails
        cases result with
        | ok value => cases counter <;> rfl
        | error status =>
            rw [failsWith_error, Status.Fails, List.mem_cons,
              List.mem_singleton] at hfails
            rcases hfails with (hcode | hcode) | ⟨hcode, -⟩ <;>
              cases counter <;>
              simp only [counts, processed, foundLive, hcode] <;> rfl
    next hinvalid =>
      have hamong := among_validateKey key
      rw [Status.Among, Status.Fails, List.mem_singleton] at hamong
      rcases hamong with hsuccess | hcode | ⟨-, hfalse⟩
      · rw [hsuccess] at hinvalid
        exact absurd Status.ok_success hinvalid
      · apply Raises.of_same rfl
        intro counter
        cases counter <;> simp [counts, processed, foundLive, hcode]
      · exact hfalse.elim
  · exact .of_same rfl fun counter => by cases counter <;> rfl

theorem counts_keyExists (environment : Environment) (key : Bytes)
    (store : KeyValueStore) (counter : Counter) :
    counter.counts (.keyExists key)
        (.flag (store.keyExists environment key).2) =
      counter.counts (.get key) (.value (store.get environment key).2) := by
  rw [snd_keyExists]
  generalize (store.get environment key).2 = result
  cases result with
  | ok value => cases counter <;> rfl
  | error status =>
      dsimp only
      split
      next hmissing =>
        cases counter <;>
          simp only [counts, processed, foundLive, hmissing] <;> rfl
      · cases counter <;> rfl

theorem raises_keyExists (environment : Environment) (key : Bytes)
    (store : KeyValueStore) :
    Raises (.keyExists key) store (store.keyExists environment key).1
      (.flag (store.keyExists environment key).2) := by
  intro counter
  rw [counts_keyExists, fst_keyExists]
  exact raises_get environment key store counter

theorem counter_dropExpired (key : Bytes) (store : KeyValueStore) :
    (store.dropExpired key).counter = store.counter := by
  funext counter
  cases counter with
  | lookups => exact LruCache.lookups_erase key store.cache
  | sets => rfl
  | gets => rfl
  | deletes => rfl
  | compactions => rfl

theorem counter_purgeExpired (environment : Environment)
    (store : KeyValueStore) :
    (store.purgeExpired environment).counter = store.counter := by
  funext counter
  cases counter with
  | lookups => exact LruCache.lookups_eraseAll _ store.cache
  | sets => rfl
  | gets => rfl
  | deletes => rfl
  | compactions => rfl

theorem raises_remove (environment : Environment) (key : Bytes)
    (store : KeyValueStore) :
    Raises (.remove key) store (store.remove environment key).1
      (.status (store.remove environment key).2) := by
  have hrefused : ∀ status : Status, ¬ status.ok = true →
      ∀ counter : Counter,
        counter.counts (.remove key) (.status status) = false := by
    intro status hstatus counter
    cases counter <;> simp [counts, hstatus]
  unfold remove
  split
  · split
    · unfold removeSection
      split
      · exact .of_same rfl (hrefused _ Bool.false_ne_true)
      · exact .of_same (counter_dropExpired key store)
          (hrefused _ Bool.false_ne_true)
      · dsimp only
        split
        · intro counter
          have herase := LruCache.lookups_erase key store.cache
          cases counter <;> first | rfl | exact herase
        next hfailed => exact .of_same rfl (hrefused _ hfailed)
    next hinvalid => exact .of_same rfl (hrefused _ hinvalid)
  · exact .of_same rfl (hrefused _ Bool.false_ne_true)

theorem raises_compact (environment : Environment) (store : KeyValueStore) :
    Raises .compact store (store.compact environment).1
      (.summary (store.compact environment).2) := by
  have hpurged := counter_purgeExpired environment store
  have hfailure : ∀ status : Status, ∀ counter : Counter,
      counter.counts .compact (.summary (.error status)) = false := by
    intro status counter
    cases counter <;> rfl
  unfold compact
  split
  · obtain ⟨_, _, hshape⟩ | ⟨_, _, hshape⟩ :=
      compactSection_shape environment store
    · rw [hshape]
      exact .of_same hpurged (hfailure _)
    · rw [hshape]
      intro counter
      have hcounter := congrFun hpurged counter
      cases counter with
      | compactions => exact congrArg (· + 1) hcounter
      | sets => exact hcounter
      | gets => exact hcounter
      | deletes => exact hcounter
      | lookups => exact hcounter
  · exact .of_same rfl (hfailure _)

/-- Every call raises the counters by what its answer says. -/
theorem raises_perform (request : Request) (store : KeyValueStore) :
    Raises request.call store (store.perform request).1
      (store.perform request).2 := by
  obtain ⟨environment, call⟩ := request
  cases call with
  | set key value ttl => exact raises_set environment key value ttl store
  | get key => exact raises_get environment key store
  | keyExists key => exact raises_keyExists environment key store
  | remove key => exact raises_remove environment key store
  | keys start =>
      have hpurged := counter_purgeExpired environment store
      refine Raises.of_same ?_ fun counter => by cases counter <;> rfl
      change (store.keys environment start).1.counter = store.counter
      unfold keys cleanupExpired
      split
      · exact hpurged
      · rfl
  | cleanupExpired =>
      have hpurged := counter_purgeExpired environment store
      refine Raises.of_same ?_ fun counter => by cases counter <;> rfl
      change (store.cleanupExpired environment).1.counter = store.counter
      unfold cleanupExpired
      split
      · exact hpurged
      · rfl
  | compact => exact raises_compact environment store
  | openStore =>
      refine Raises.of_same ?_ fun counter => by cases counter <;> rfl
      change (store.openStore environment).1.counter = store.counter
      unfold openStore
      dsimp only
      repeat' split
      all_goals rfl
  | close =>
      refine Raises.of_same ?_ fun counter => by cases counter <;> rfl
      change store.close.1.counter = store.counter
      unfold close
      split <;> rfl

/-- The statistics tell how many calls were answered in which way, whatever
has failed in between. -/
theorem statistics_count_replies (counter : Counter) (failed : Bool)
    (requests : List Request) (store : KeyValueStore) :
    ((machine.run requests store).1.statistics failed).reading counter =
      (store.statistics failed).reading counter +
        (requests.zip (machine.run requests store).2).countP
          fun answered => counter.counts answered.1.call answered.2 := by
  rw [reading_statistics, reading_statistics]
  exact @Machine.run_counted _ _ _ machine
    (fun store => store.counter counter)
    (fun request reply => counter.counts request.call reply)
    (fun request store => raises_perform request store counter)
    requests store

/-! ## The keys -/

/-- The keys that are there, have been deleted or have expired. -/
def keysAccounted (store : KeyValueStore) : ℕ :=
  store.index.size + store.deleteOperations + store.expiredKeys

theorem keysAccounted_dropExpired {metadata : RecordMetadata}
    (hfound : store.index.lookup key = some metadata) :
    (store.dropExpired key).keysAccounted = store.keysAccounted := by
  have hsize := FiniteMap.size_erase_of_found hfound
  unfold keysAccounted dropExpired
  dsimp only
  omega

theorem keysAccounted_purgeExpired (environment : Environment)
    (store : KeyValueStore) :
    (store.purgeExpired environment).keysAccounted = store.keysAccounted := by
  have hsize := (environment.hashOrder store.index).size_filter_add
    fun _ metadata => !isExpired metadata.expiresAtMs environment.nowMs
  simp only [Bool.not_not] at hsize
  unfold keysAccounted purgeExpired expiredAt
  dsimp only
  omega

/-- The index that a compaction takes over has the keys of the purged one. -/
theorem size_of_compactSection {summary : CompactionSummary}
    (hok : (store.compactSection environment).2 = .ok summary) :
    (store.compactSection environment).1.index.size =
      (store.purgeExpired environment).index.size := by
  have houtcome := compactSection_cases environment store
  generalize (store.compactSection environment).1 = after at houtcome ⊢
  rw [hok] at houtcome
  cases houtcome with
  | compacted live hlive hvisible hview =>
      have hcontents : after.view.contents =
          (store.purgeExpired environment).view.settled.contents := by
        rw [hview]
        exact hlive.contents_ofLog hvisible _
      apply FiniteMap.size_congr
      intro key
      have hkey := congrArg Option.isSome (congrFun hcontents key)
      rwa [View.contents, View.contents, Option.isSome_map,
        Option.isSome_map] at hkey

/-- What the answer adds to the keys: the first value of a key that is not in
the index. -/
def brings (request : Request) (store : KeyValueStore) : Reply → ℕ
  | .status status =>
      match request.call with
      | .set key _ _ => (status.ok && (store.index.lookup key).isNone).toNat
      | _ => 0
  | _ => 0

theorem keysAccounted_set (environment : Environment) (key value : Bytes)
    (ttl : Option Int64) (store : KeyValueStore) :
    (store.set environment key value ttl).1.keysAccounted =
      store.keysAccounted + ((store.set environment key value ttl).2.ok &&
        (store.index.lookup key).isNone).toNat := by
  have hrefused : ∀ status : Status, ¬ status.ok = true →
      store.keysAccounted = store.keysAccounted +
        (status.ok && (store.index.lookup key).isNone).toNat := by
    intro status hstatus
    simp [hstatus]
  unfold set
  split
  next hopened =>
    split
    · rw [setSection, if_pos hopened]
      split
      next heq => exact hrefused _ (not_ok_of_appendSet heq)
      next storage metadata heq =>
        unfold keysAccounted
        cases hfound : store.index.lookup key with
        | none =>
            have hsize := FiniteMap.size_insert_of_missing hfound metadata
            simp [hsize]
            omega
        | some found =>
            have hsize := FiniteMap.size_insert_of_found hfound metadata
            simp [hsize]
    next hinvalid => exact hrefused _ hinvalid
  · exact hrefused _ Bool.false_ne_true

theorem keysAccounted_getLive (environment : Environment) (key : Bytes)
    (metadata : RecordMetadata) (store : KeyValueStore) :
    (store.getLive environment key metadata).1.keysAccounted =
      store.keysAccounted := by
  unfold getLive lookupCache readStored fillCache
  split
  next heq =>
    obtain ⟨rfl, -⟩ := Prod.mk.inj heq
    rfl
  next heq =>
    obtain ⟨rfl, -⟩ := Prod.mk.inj heq
    split
    next heq =>
      obtain ⟨rfl, -⟩ := Prod.mk.inj heq
      rfl
    next heq =>
      obtain ⟨rfl, -⟩ := Prod.mk.inj heq
      rfl

theorem keysAccounted_get (environment : Environment) (key : Bytes)
    (store : KeyValueStore) :
    (store.get environment key).1.keysAccounted = store.keysAccounted := by
  unfold get
  split
  · split
    · dsimp only
      split
      · rfl
      · unfold eraseIfExpired
        split
        · rfl
        next hfound =>
          split
          · exact keysAccounted_dropExpired hfound
          · rfl
      · exact keysAccounted_getLive environment key _ _
    · rfl
  · rfl

theorem keysAccounted_removeSection (environment : Environment) (key : Bytes)
    (store : KeyValueStore) :
    (store.removeSection environment key).1.keysAccounted =
      store.keysAccounted := by
  unfold removeSection
  cases hfound : store.index.lookup key with
  | none =>
      rw [find_missing hfound]
  | some metadata =>
      cases hexpired : isExpired metadata.expiresAtMs environment.nowMs with
      | true =>
          rw [find_expired hfound hexpired]
          exact keysAccounted_dropExpired hfound
      | false =>
          rw [find_live hfound hexpired]
          have hsize := FiniteMap.size_erase_of_found hfound
          dsimp only
          split
          · unfold keysAccounted
            dsimp only
            omega
          · rfl

theorem keysAccounted_remove (environment : Environment) (key : Bytes)
    (store : KeyValueStore) :
    (store.remove environment key).1.keysAccounted = store.keysAccounted := by
  unfold remove
  split
  · split
    · exact keysAccounted_removeSection environment key store
    · rfl
  · rfl

theorem keysAccounted_cleanupExpired (environment : Environment)
    (store : KeyValueStore) :
    (store.cleanupExpired environment).1.keysAccounted =
      store.keysAccounted := by
  unfold cleanupExpired
  split
  · exact keysAccounted_purgeExpired environment store
  · rfl

theorem keysAccounted_compact (environment : Environment)
    (store : KeyValueStore) :
    (store.compact environment).1.keysAccounted = store.keysAccounted := by
  have hpurged := keysAccounted_purgeExpired environment store
  unfold compact
  split
  · obtain ⟨_, _, hshape⟩ | ⟨_, _, hshape⟩ :=
      compactSection_shape environment store
    · rw [hshape]
      exact hpurged
    · have hsize := size_of_compactSection (congrArg Prod.snd hshape)
      rw [hshape] at hsize ⊢
      unfold keysAccounted at hpurged ⊢
      rw [hsize]
      exact hpurged
  · rfl

/-- The call does not load the index from the file. -/
def StaysOpen (request : Request) (store : KeyValueStore) : Prop :=
  request.call ≠ .openStore ∨ store.opened = true

/-- Every call that does not load the index accounts for the keys. -/
theorem keysAccounted_perform {request : Request}
    (hstays : StaysOpen request store) :
    (store.perform request).1.keysAccounted = store.keysAccounted +
      brings request store (store.perform request).2 := by
  obtain ⟨environment, call⟩ := request
  cases call with
  | set key value ttl => exact keysAccounted_set environment key value ttl store
  | get key => exact keysAccounted_get environment key store
  | keyExists key =>
      have hget := keysAccounted_get environment key store
      rwa [← fst_keyExists] at hget
  | remove key => exact keysAccounted_remove environment key store
  | keys start =>
      change (store.keys environment start).1.keysAccounted =
        store.keysAccounted
      unfold keys
      split
      · exact keysAccounted_cleanupExpired environment store
      · rfl
  | cleanupExpired => exact keysAccounted_cleanupExpired environment store
  | compact => exact keysAccounted_compact environment store
  | openStore =>
      have hopened : store.opened = true :=
        hstays.resolve_left fun hcall => hcall rfl
      change (store.openStore environment).1.keysAccounted =
        store.keysAccounted
      rw [openStore, if_pos hopened]
  | close =>
      change store.close.1.keysAccounted = store.keysAccounted
      unfold close
      split <;> rfl

/-- No key is lost and none is counted twice: a key that a `SET` has brought in
is there, or it has been deleted, or it has expired. -/
theorem keys_are_conserved {requests : List Request} {store : KeyValueStore}
    (halong : machine.Along StaysOpen requests store) (failed : Bool) :
    let before := store.statistics failed
    let after := (machine.run requests store).1.statistics failed
    after.keyCount + after.deleteOperations + after.expiredKeys =
      before.keyCount + before.deleteOperations + before.expiredKeys +
        machine.tally brings requests store := by
  exact @Machine.run_tally _ _ _ machine StaysOpen keysAccounted brings
    (fun request store hstays => keysAccounted_perform hstays) _ _ halong

theorem keys_are_conserved_behind_deadline :
    let store := ((new .small none none).openStore (.calm 0)).1
    let requests : List Request := [⟨.calm 0, .set [1] [2] (some 10)⟩,
      ⟨.calm 20, .get [1]⟩, ⟨.calm 21, .set [1] [3] none⟩,
      ⟨.calm 22, .set [1] [4] none⟩, ⟨.calm 23, .remove [1]⟩]
    let after := (machine.run requests store).1.statistics false
    after.keyCount + after.deleteOperations + after.expiredKeys = 2 := by
  intro store requests after
  have halong : machine.Along StaysOpen requests store :=
    ⟨.inl (by simp), .inl (by simp), .inl (by simp), .inl (by simp),
      .inl (by simp), trivial⟩
  have hconserved := keys_are_conserved halong false
  exact hconserved.trans (by decide +kernel)

end KeyValueStore

end MiniKV
