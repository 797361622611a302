import MiniKV.Concurrent.Calls
import MiniKV.Concurrent.NoStaleRead
import MiniKV.Store.Refinement

/-!
# Calls are linearizable

What threads see of the store they see of a timed map whose calls happen one
after the other, each between its invocation and its answer.  A `get` takes
effect when it reads the clock under the shared lock, also when the file is read
later; a `set` when its section runs, with a deadline from an earlier reading.
`keys` takes effect twice: it forgets what has expired, and later it lists.
-/

namespace MiniKV

open TimedMap

/-- The map without what has expired at a clock reading. -/
def TimedMap.purged (nowMs : Int64) (map : TimedMap) : TimedMap := fun key =>
  (map key).filter fun stored => stored.2 ≤ 0 ∨ nowMs.toInt < stored.2

/-- What a timed map allows to a call that was invoked at one reading of the
clock and takes effect at another.  The call reads the clock in between.  Only
`keys` has two moments: what it lists at the second one has not expired at the
reading of the first, or it has been stored since. -/
inductive TimedMap.Amid (sinceMs nowMs : Int64) :
    ℕ → TimedMap → Request → Option Reply → TimedMap → Prop
  | reads {before after : TimedMap} {request : Request} {reply : Reply}
      {readMs : Int64} (hlists : ∀ start, request.call ≠ .keys start)
      (hsince : sinceMs ≤ readMs) (hnow : readMs ≤ nowMs)
      (hallowed : Allowed before (request.readAt readMs) reply after) :
      Amid sinceMs nowMs 0 before request (some reply) after
  | purges {before : TimedMap} {environment : Environment} {start : Bytes} :
      Amid sinceMs nowMs 0 before ⟨environment, .keys start⟩ none
        (before.purged nowMs)
  | lists {before : TimedMap} {environment : Environment} {start : Bytes}
      {listed : List Bytes} (hascending : listed.Pairwise (· < ·))
      (hpresent : ∀ key, before.Present nowMs key → start <+: key →
        key ∈ listed)
      (hstored : ∀ key ∈ listed, start <+: key ∧ (before key).isSome) :
      Amid sinceMs nowMs 1 before ⟨environment, .keys start⟩
        (some (.listing (.ok listed))) before

/-- `get` and `exists` ask for a key. -/
inductive Call.Asks (key : Bytes) : Call → Prop
  | get : Asks key (.get key)
  | keyExists : Asks key (.keyExists key)

/-- A call that threads may make up to the latest reading of the clock: it does
not open or close the store, nothing but its append fails, and its deadline
stays within `std::int64_t`. -/
structure Served (latest : Int64) (request : Request) : Prop where
  operates : request.call.Operates
  reliable : request.environment.Reliable
  range : KeyValueStore.InRange (request.readAt latest)

namespace Served

variable {latest : Int64} {request : Request}

theorem reliable_readAt (hserved : Served latest request) (nowMs : Int64) :
    (request.readAt nowMs).environment.Reliable :=
  ⟨hserved.reliable.openAnswers, hserved.reliable.recover,
    hserved.reliable.read, hserved.reliable.compact,
    hserved.reliable.startThread⟩

/-- An earlier reading makes an earlier deadline. -/
theorem range_readAt (hserved : Served latest request) {readMs : Int64}
    (hread : readMs ≤ latest) :
    KeyValueStore.InRange (request.readAt readMs) := by
  have hrange := hserved.range
  rw [Int64.le_iff_toInt_le] at hread
  obtain ⟨environment, call⟩ := request
  cases call with
  | set key value ttl =>
      intro count hcount hpositive
      have hlatest := hrange count hcount hpositive
      change latest.toInt + count.toInt < 2 ^ 63 at hlatest
      change readMs.toInt + count.toInt < 2 ^ 63
      omega
  | get key => trivial
  | keyExists key => trivial
  | remove key => trivial
  | keys start => trivial
  | cleanupExpired => trivial
  | compact => trivial
  | openStore => trivial
  | close => trivial

end Served

/-- How a thread of the store stands to the same thread of the timed map.  From
`found` on the answer is settled. -/
inductive Follows (latest clock : Int64) (view : View) :
    Stage → Stance Request Reply Int64 → Prop
  | resting : Follows latest clock view .resting .resting
  | invoked {request : Request} {since : Int64}
      (hserved : Served latest request) (hsince : since ≤ clock) :
      Follows latest clock view (.invoked request) (.pending request since 0)
  | checked {request : Request} {since readMs : Int64}
      (hserved : Served latest request)
      (hvalidates : request.call.validate.ok = true)
      (hsince : since ≤ readMs) (hread : readMs ≤ clock) :
      Follows latest clock view (.checked request readMs)
        (.pending request since 0)
  | locked {request : Request} {key : Bytes} {since : Int64}
      (hserved : Served latest request) (hasks : request.call.Asks key)
      (haccepted : AcceptedKey key) (hsince : since ≤ clock) :
      Follows latest clock view (.locked request key)
        (.pending request since 0)
  | found {request : Request} {key : Bytes} {metadata : RecordMetadata}
      (hserved : Served latest request)
      (hlookup : view.index.lookup key = some metadata) :
      Follows latest clock view (.found request key metadata)
        (.settled (request.call.conclude (.ok (view.valueAt metadata))))
  | missed {request : Request} {key : Bytes} {metadata : RecordMetadata}
      (hserved : Served latest request)
      (hlookup : view.index.lookup key = some metadata) :
      Follows latest clock view (.missed request key metadata)
        (.settled (request.call.conclude (.ok (view.valueAt metadata))))
  | read {request : Request} {key : Bytes} {metadata : RecordMetadata}
      (hlookup : view.index.lookup key = some metadata) :
      Follows latest clock view
        (.read request key (view.valueAt metadata))
        (.settled (request.call.conclude (.ok (view.valueAt metadata))))
  | expired {request : Request} {key : Bytes} {readMs : Int64}
      (hread : readMs ≤ clock) :
      Follows latest clock view (.expired request key readMs)
        (.settled (request.call.conclude
          (.error (.notFound "key has expired"))))
  | cleaned {environment : Environment} {start : Bytes} {since : Int64}
      (hsince : since ≤ clock) :
      Follows latest clock view
        (.cleaned ⟨environment, .keys start⟩ start)
        (.pending ⟨environment, .keys start⟩ since 1)
  | answered {reply : Reply} :
      Follows latest clock view (.answered reply) (.settled reply)

namespace Follows

variable {latest clock : Int64} {view : View} {stage : Stage}
variable {stance : Stance Request Reply Int64}

theorem mono (hfollows : Follows latest clock view stage stance)
    {laterMs : Int64} (hclock : clock ≤ laterMs) :
    Follows latest laterMs view stage stance := by
  cases hfollows with
  | resting => exact .resting
  | invoked hserved hsince =>
      exact .invoked hserved (Int64.le_trans hsince hclock)
  | checked hserved hvalidates hsince hread =>
      exact .checked hserved hvalidates hsince (Int64.le_trans hread hclock)
  | locked hserved hasks haccepted hsince =>
      exact .locked hserved hasks haccepted (Int64.le_trans hsince hclock)
  | found hserved hlookup => exact .found hserved hlookup
  | missed hserved hlookup => exact .missed hserved hlookup
  | read hlookup => exact .read hlookup
  | expired hread => exact .expired (Int64.le_trans hread hclock)
  | cleaned hsince => exact .cleaned (Int64.le_trans hsince hclock)
  | answered => exact .answered

/-- Another thread's step leaves alone what a thread under the shared lock
relies on. -/
theorem frame (hfollows : Follows latest clock view stage stance)
    (hcoherent : view.Coherent) {later : View}
    (hframe : stage.shared = true → view.Grows later) :
    Follows latest clock later stage stance := by
  cases hfollows with
  | resting => exact .resting
  | invoked hserved hsince => exact .invoked hserved hsince
  | checked hserved hvalidates hsince hread =>
      exact .checked hserved hvalidates hsince hread
  | locked hserved hasks haccepted hsince =>
      exact .locked hserved hasks haccepted hsince
  | found hserved hlookup =>
      rw [← (hframe rfl).valueAt_eq hcoherent hlookup]
      exact .found hserved ((hframe rfl).index ▸ hlookup)
  | missed hserved hlookup =>
      rw [← (hframe rfl).valueAt_eq hcoherent hlookup]
      exact .missed hserved ((hframe rfl).index ▸ hlookup)
  | read hlookup =>
      rw [← (hframe rfl).valueAt_eq hcoherent hlookup]
      exact .read ((hframe rfl).index ▸ hlookup)
  | expired hread => exact .expired hread
  | cleaned hsince => exact .cleaned hsince
  | answered => exact .answered

end Follows

namespace KeyValueStore

variable {latest clock : Int64} {store : KeyValueStore} {map : TimedMap}
variable {request : Request} {key : Bytes} {stage : Stage}
variable {stance : Stance Request Reply Int64}

/-! ## The replies -/

/-- A call whose arguments are turned away may take effect at any reading. -/
theorem allowed_refusal (hrejected : ¬ request.call.validate.ok = true) :
    Allowed map request (request.call.refusal request.call.validate) map := by
  obtain ⟨environment, call⟩ := request
  have hkey : ∀ key, ¬ (validateKey key).ok = true → ¬ AcceptedKey key :=
    fun key hfailed haccepted => hfailed ((acceptedKey_iff key).mp haccepted)
  cases call with
  | set key value ttl =>
      rcases validateSet_cases key value ttl with
        ⟨hsuccess, -⟩ | ⟨hcode, hrejected⟩
      · have hvalidates : (validateSet key value ttl).ok = true :=
          hsuccess ▸ Status.ok_success
        exact absurd hvalidates hrejected
      · exact .setRejected hrejected hcode
  | get key =>
      exact .getRejected (hkey key hrejected)
        (code_validateKey (hkey key hrejected))
  | keyExists key =>
      exact .existsRejected (hkey key hrejected)
        (code_validateKey (hkey key hrejected))
  | remove key =>
      exact .removeRejected (hkey key hrejected)
        (code_validateKey (hkey key hrejected))
  | keys start => exact absurd Status.ok_success hrejected
  | cleanupExpired => exact absurd Status.ok_success hrejected
  | compact => exact absurd Status.ok_success hrejected
  | openStore => exact absurd Status.ok_success hrejected
  | close => exact absurd Status.ok_success hrejected

theorem allowed_conclude_ok {environment : Environment} {call : Call}
    (hasks : call.Asks key) (haccepted : AcceptedKey key) {value : Bytes}
    (hlive : map.Live environment.nowMs key value) :
    Allowed map ⟨environment, call⟩ (call.conclude (.ok value)) map := by
  cases hasks with
  | get => exact .got haccepted hlive
  | keyExists => exact .existsTrue haccepted ⟨value, hlive⟩

theorem allowed_conclude_missing {environment : Environment} {call : Call}
    (hasks : call.Asks key) (haccepted : AcceptedKey key) (message : String)
    (hmissing : ¬ map.Present environment.nowMs key) :
    Allowed map ⟨environment, call⟩
      (call.conclude (.error (.notFound message))) map := by
  cases hasks with
  | get => exact .gotNothing haccepted hmissing rfl
  | keyExists => exact .existsFalse haccepted hmissing

theorem Asks.not_keys (hasks : request.call.Asks key) (start : Bytes) :
    request.call ≠ .keys start := by
  intro hcall
  rw [hcall] at hasks
  cases hasks

/-! ## The steps of one thread -/

/-- A step of the store is no step of the map, or a moment of its call. -/
inductive Matched (latest clock : Int64) (map : TimedMap)
    (next : KeyValueStore × Stage) : Stance Request Reply Int64 → Prop
  | stays {stance : Stance Request Reply Int64}
      (hrefines : Refines clock next.1 map)
      (hfollows : Follows latest clock next.1.view next.2 stance) :
      Matched latest clock map next stance
  | occurs {request : Request} {since : Int64} {passed : ℕ}
      {reply : Option Reply} {after : TimedMap}
      (hallowed : Amid since clock passed map request reply after)
      (hrefines : Refines clock next.1 after)
      (hfollows : Follows latest clock next.1.view next.2
        (AtomicObject.behind request since passed reply)) :
      Matched latest clock map next (.pending request since passed)

/-- A purge forgets the same in the store and in the map. -/
theorem Refines.purged (hrefines : Refines clock store map)
    {environment : Environment} (hclock : environment.nowMs = clock) :
    Refines clock (store.purgeExpired environment) (map.purged clock) := by
  obtain ⟨hopened, hcoherent, ledger, rfl, htracks⟩ := hrefines
  have hupkeep := upkeep_purgeExpired environment store
  refine ⟨hopened, hcoherent.upkeep hupkeep,
    fun key => unexpired clock (ledger key), ?_, ?_⟩
  · funext key
    rw [TimedMap.purged, ofLedger, ofLedger, unexpired, Option.filter_map]
    congr 2
    funext stored
    rw [Function.comp_apply, Bool.eq_iff_iff, decide_eq_true_iff,
      Bool.not_eq_true', isExpired_eq_false_iff]
  · intro key
    left
    rw [contents_purgeExpired, hclock, View.live]
    rcases htracks key with hsame | ⟨hnone, value, expiresAtMs, hstored,
      hexpired⟩
    · rw [hsame]
      rfl
    · dsimp only
      rw [hnone, hstored, unexpired, Option.filter_some_neg (by simp [hexpired])]
      rfl

theorem matched_invoked (hrefines : Refines clock store map)
    (hserved : Served latest request) {since : Int64} (hsince : since ≤ clock) :
    Matched latest clock map (store.proceed clock (.invoked request))
      (.pending request since 0) := by
  have hcheck : request.call.check store = request.call.validate :=
    if_pos hrefines.opened
  rw [proceed, hcheck]
  split
  next hvalidates =>
    exact .stays hrefines
      (.checked hserved hvalidates hsince (Int64.le_refl clock))
  next hrejected =>
    have hlists : ∀ start, request.call ≠ .keys start := by
      intro start hcall
      rw [hcall] at hrejected
      exact hrejected Status.ok_success
    exact .occurs (.reads hlists hsince (Int64.le_refl clock)
      (allowed_refusal hrejected)) hrefines .answered

theorem matched_set (hrefines : Refines clock store map)
    {environment : Environment} {value : Bytes} {ttl : Option Int64}
    (hserved : Served latest ⟨environment, .set key value ttl⟩)
    (hvalidates : (validateSet key value ttl).ok = true)
    {since readMs : Int64} (hsince : since ≤ readMs) (hread : readMs ≤ clock)
    (hlatest : clock ≤ latest) :
    Matched latest clock map
      (store.proceed clock
        (.checked ⟨environment, .set key value ttl⟩ readMs))
      (.pending ⟨environment, .set key value ttl⟩ since 0) := by
  have haccepted : AcceptedSet key value ttl := by
    rcases validateSet_cases key value ttl with
      ⟨-, haccepted⟩ | ⟨hcode, -⟩
    · exact haccepted
    · rw [Status.ok, hcode] at hvalidates
      cases hvalidates
  obtain ⟨next, hallowed, hnext⟩ := step_setSection hrefines
    (hserved.reliable_readAt readMs) hvalidates haccepted
    (hserved.range_readAt (Int64.le_trans hread hlatest))
  exact .occurs (.reads (by simp) hsince hread hallowed) hnext .answered

theorem matched_remove (hrefines : Refines clock store map)
    {environment : Environment}
    (hserved : Served latest ⟨environment, .remove key⟩)
    (hvalidates : (validateKey key).ok = true)
    {since readMs : Int64} (hsince : since ≤ clock) :
    Matched latest clock map
      (store.proceed clock (.checked ⟨environment, .remove key⟩ readMs))
      (.pending ⟨environment, .remove key⟩ since 0) := by
  obtain ⟨next, hallowed, hnext⟩ :=
    @step_remove _ _ _ key hrefines (hserved.reliable_readAt clock)
  rw [remove, if_pos hrefines.opened, if_pos hvalidates] at hallowed hnext
  exact .occurs (.reads (by simp) hsince (Int64.le_refl clock) hallowed)
    hnext .answered

theorem matched_compact (hrefines : Refines clock store map)
    {environment : Environment}
    (hserved : Served latest ⟨environment, .compact⟩)
    {since readMs : Int64} (hsince : since ≤ clock) :
    Matched latest clock map
      (store.proceed clock (.checked ⟨environment, .compact⟩ readMs))
      (.pending ⟨environment, .compact⟩ since 0) := by
  have hreliable := hserved.reliable_readAt clock
  have hallowed := step_compact hrefines hreliable
  rw [compact, if_pos hrefines.opened] at hallowed
  have hnext := hrefines.upkeeps
    (upkeeps_compactSection (not_losesFile_of_reliable hreliable))
    (opened_compactSection _ store)
  exact .occurs (.reads (by simp) hsince (Int64.le_refl clock) hallowed)
    hnext .answered

theorem matched_checked (hrefines : Refines clock store map)
    (hserved : Served latest request)
    (hvalidates : request.call.validate.ok = true) {since readMs : Int64}
    (hsince : since ≤ readMs) (hread : readMs ≤ clock)
    (hlatest : clock ≤ latest) :
    Matched latest clock map (store.proceed clock (.checked request readMs))
      (.pending request since 0) := by
  have hclock : since ≤ clock := Int64.le_trans hsince hread
  obtain ⟨environment, call⟩ := request
  have hclean := hrefines.upkeeps
    (upkeeps_cleanupExpired
      (Request.readAt ⟨environment, call⟩ clock).environment store)
    (opened_cleanupExpired _ store)
  have hcounted : Refines clock store.countGet map :=
    hrefines.upkeeps .refl rfl
  cases call with
  | set key value ttl =>
      exact matched_set hrefines hserved hvalidates hsince hread hlatest
  | get key =>
      exact .stays hcounted (.locked hserved .get
        ((acceptedKey_iff key).mpr hvalidates) hclock)
  | keyExists key =>
      exact .stays hcounted (.locked hserved .keyExists
        ((acceptedKey_iff key).mpr hvalidates) hclock)
  | remove key => exact matched_remove hrefines hserved hvalidates hclock
  | keys start =>
      have hcleaned := hrefines.purged
        (show (Request.readAt ⟨environment, .keys start⟩
          clock).environment.nowMs = clock from rfl)
      refine .occurs .purges ?_ (.cleaned hclock)
      change Refines clock (store.cleanupExpired _).1 _
      rw [cleanupExpired, if_pos hrefines.opened]
      exact hcleaned
  | cleanupExpired =>
      rw [cleanupExpired, if_pos hrefines.opened] at hclean
      exact .occurs (.reads (by simp) hclock (Int64.le_refl clock) .cleaned)
        hclean .answered
  | compact => exact matched_compact hrefines hserved hclock
  | openStore => exact absurd rfl hserved.operates.1
  | close => exact absurd rfl hserved.operates.2

/-- A `get` takes effect when it finds its key, or does not. -/
theorem matched_locked (hrefines : Refines clock store map)
    (hserved : Served latest request) (hasks : request.call.Asks key)
    (haccepted : AcceptedKey key) {since : Int64} (hsince : since ≤ clock) :
    Matched latest clock map (store.proceed clock (.locked request key))
      (.pending request since 0) := by
  have hpresent := hrefines.present_iff key
  have hreads : ∀ reply, Allowed map (request.readAt clock) reply map →
      Amid since clock 0 map request (some reply) map := fun reply =>
    .reads (Asks.not_keys hasks) hsince (Int64.le_refl clock)
  rw [proceed]
  cases hfound : store.index.lookup key with
  | none =>
      have hmissing : ¬ map.Present clock key := by
        rw [hpresent]
        rintro ⟨metadata, hlookup, -⟩
        exact Option.some_ne_none _ (hlookup.symm.trans hfound)
      rw [find_missing hfound]
      exact .occurs (hreads _ (allowed_conclude_missing hasks haccepted _
        hmissing)) hrefines .answered
  | some metadata =>
      cases hexpired : isExpired metadata.expiresAtMs clock with
      | true =>
          have hmissing : ¬ map.Present clock key := by
            rw [hpresent]
            rintro ⟨other, hlookup, hfresh⟩
            cases hlookup.symm.trans hfound
            rw [hexpired] at hfresh
            cases hfresh
          rw [find_expired hfound hexpired]
          exact .occurs (hreads _ (allowed_conclude_missing hasks haccepted _
            hmissing)) hrefines (.expired (Int64.le_refl clock))
      | false =>
          have hlive : map.Live clock key (store.view.valueAt metadata) :=
            (hrefines.live_iff key _).mpr ⟨metadata.expiresAtMs,
              View.contents_of_lookup hfound, hexpired⟩
          rw [find_live hfound hexpired]
          exact .occurs (hreads _ (allowed_conclude_ok hasks haccepted hlive))
            hrefines (.found hserved hfound)

/-- The cache holds what the index points to. -/
theorem matched_found (hrefines : Refines clock store map)
    (hserved : Served latest request) {metadata : RecordMetadata}
    (hlookup : store.index.lookup key = some metadata) :
    Matched latest clock map (store.proceed clock (.found request key metadata))
      (.settled (request.call.conclude
        (.ok (store.view.valueAt metadata)))) := by
  have hcoherent := hrefines.coherent
  have htouched : Refines clock (store.lookupCache key).1 map :=
    hrefines.upkeeps (.single (.touched store.view key)) rfl
  rw [proceed]
  split
  next touched value heq =>
    rw [heq] at htouched
    have hcached : (store.cache.get key).2 = some value :=
      congrArg Prod.snd heq
    have hholds : store.view.cache.Holds key value :=
      (LruCache.get_eq_some_iff hcoherent.wellFormed key value).mp hcached
    obtain ⟨other, hother, hvalue⟩ := hcoherent.cached key value hholds
    cases hlookup.symm.trans hother
    rw [← hvalue]
    exact .stays htouched .answered
  next touched heq =>
    have hgrows : store.view.Grows touched.view := by
      cases congrArg Prod.fst heq
      exact .of_same rfl rfl
    rw [heq] at htouched
    exact .stays htouched
      (Follows.frame (.missed hserved hlookup) hcoherent fun _ => hgrows)

/-- A read of the file returns what the index points to. -/
theorem matched_missed (hrefines : Refines clock store map)
    (hserved : Served latest request) {metadata : RecordMetadata}
    (hlookup : store.index.lookup key = some metadata) :
    Matched latest clock map
      (store.proceed clock (.missed request key metadata))
      (.settled (request.call.conclude
        (.ok (store.view.valueAt metadata)))) := by
  obtain ⟨entry, hpoints⟩ := hrefines.coherent.points key metadata hlookup
  have hreliable := hserved.reliable
  have hvalue := readStored_faultless hreliable.openAnswers
    (hreliable.read key) hpoints
  have hdrained := (drained_readStored request.environment key metadata
    store).drained
  have hread : Refines clock
      (store.readStored request.environment key metadata).1 map :=
    hrefines.upkeeps (.single (.drained _ hdrained)) rfl
  rw [proceed]
  split
  next heq =>
    rw [heq] at hvalue
    cases hvalue
  next read value heq =>
    rw [heq] at hvalue hdrained hread
    cases hvalue
    exact .stays hread (Follows.frame (.read hlookup) hrefines.coherent
      fun _ => .of_drained hdrained)

theorem matched_read (hrefines : Refines clock store map)
    {metadata : RecordMetadata}
    (hlookup : store.index.lookup key = some metadata) :
    Matched latest clock map
      (store.proceed clock
        (.read request key (store.view.valueAt metadata)))
      (.settled (request.call.conclude
        (.ok (store.view.valueAt metadata)))) :=
  .stays (hrefines.upkeeps
    (.single (.filled store.view key metadata hlookup)) rfl) .answered

/-- An entry that had expired at an earlier reading has expired. -/
theorem upkeeps_eraseExpired {readMs : Int64} (hread : readMs ≤ clock)
    (key : Bytes) (store : KeyValueStore) :
    Upkeeps clock store.view (store.eraseIfExpired key readMs).1.view := by
  unfold eraseIfExpired
  split
  · exact .refl
  next metadata hfound =>
    split
    next hexpired =>
      exact .single (.dropped store.view key metadata hfound
        (isExpired_mono hexpired hread))
    · exact .refl

theorem matched_expired (hrefines : Refines clock store map) {readMs : Int64}
    (hread : readMs ≤ clock) :
    Matched latest clock map (store.proceed clock (.expired request key readMs))
      (.settled (request.call.conclude
        (.error (.notFound "key has expired")))) :=
  .stays (hrefines.upkeeps (upkeeps_eraseExpired hread key store)
    (opened_eraseIfExpired key readMs store)) .answered

/-- `keys` lists what its purge has left and what has been stored since. -/
theorem matched_cleaned (hrefines : Refines clock store map)
    {environment : Environment} {start : Bytes} {since : Int64} :
    Matched latest clock map
      (store.proceed clock (.cleaned ⟨environment, .keys start⟩ start))
      (.pending ⟨environment, .keys start⟩ since 1) := by
  have hpresent : ∀ key, map.Present clock key → start <+: key →
      key ∈ store.listKeys environment start := by
    intro key hpresent hstart
    obtain ⟨metadata, hfound, -⟩ := (hrefines.present_iff key).mp hpresent
    rw [mem_listKeys, startsWith_iff, hfound]
    exact ⟨rfl, hstart⟩
  have hstored : ∀ key ∈ store.listKeys environment start,
      start <+: key ∧ (map key).isSome := by
    intro key hkey
    rw [mem_listKeys, startsWith_iff] at hkey
    obtain ⟨hfound, hstart⟩ := hkey
    obtain ⟨ledger, rfl, htracks⟩ := hrefines.tracks
    refine ⟨hstart, ?_⟩
    have hcontents : (store.view.contents key).isSome := by
      rw [View.contents, Option.isSome_map]
      exact hfound
    rw [ofLedger, Option.isSome_map]
    rcases htracks key with hsame | ⟨hnone, -⟩
    · exact hsame ▸ hcontents
    · rw [hnone] at hcontents
      cases hcontents
  exact .occurs (.lists (pairwise_listKeys _ _ _) hpresent hstored) hrefines
    .answered

/-- Every step of a thread is matched. -/
theorem matched_proceed (hrefines : Refines clock store map)
    (hlatest : clock ≤ latest)
    (hfollows : Follows latest clock store.view stage stance) :
    Matched latest clock map (store.proceed clock stage) stance := by
  cases hfollows with
  | resting => exact .stays hrefines .resting
  | invoked hserved hsince => exact matched_invoked hrefines hserved hsince
  | checked hserved hvalidates hsince hread =>
      exact matched_checked hrefines hserved hvalidates hsince hread hlatest
  | locked hserved hasks haccepted hsince =>
      exact matched_locked hrefines hserved hasks haccepted hsince
  | found hserved hlookup => exact matched_found hrefines hserved hlookup
  | missed hserved hlookup => exact matched_missed hrefines hserved hlookup
  | read hlookup => exact matched_read hrefines hlookup
  | expired hread => exact matched_expired hrefines hread
  | cleaned hsince => exact matched_cleaned hrefines
  | answered => exact .stays hrefines .answered

/-- Outside the exclusive sections a step leaves the index alone, and the file
but for what the put area adds to it. -/
theorem frame_proceed (hexclusive : stage.exclusive = false) (nowMs : Int64)
    (store : KeyValueStore) :
    store.view.Grows (store.proceed nowMs stage).1.view := by
  have hsame : store.view.Grows store.view := .of_same rfl rfl
  cases stage with
  | resting => exact hsame
  | invoked request =>
      rw [proceed]
      split <;> exact hsame
  | checked request readMs =>
      obtain ⟨environment, call⟩ := request
      cases call with
      | get key => exact .of_same rfl rfl
      | keyExists key => exact .of_same rfl rfl
      | set key value ttl => cases hexclusive
      | remove key => cases hexclusive
      | keys start => cases hexclusive
      | cleanupExpired => cases hexclusive
      | compact => cases hexclusive
      | openStore => cases hexclusive
      | close =>
          exact .of_same (congrArg View.index (view_close store))
            (congrArg View.bytes (view_close store))
  | locked request key =>
      rw [proceed]
      split <;> exact hsame
  | found request key metadata =>
      rw [proceed]
      split
      all_goals
        next heq =>
          cases congrArg Prod.fst heq
          exact .of_same rfl rfl
  | missed request key metadata =>
      have hgrows := View.Grows.of_drained (drained_readStored
        request.environment key metadata store).drained
      rw [proceed]
      split
      all_goals
        next heq =>
          rw [heq] at hgrows
          exact hgrows
  | read request key value => exact .of_same rfl rfl
  | expired request key readMs => cases hexclusive
  | cleaned request start => exact hsame
  | answered reply => exact hsame

end KeyValueStore

/-! ## The threads together -/

namespace Calls

variable {Thread : Type} [DecidableEq Thread] {latest : Int64}

/-- The timed map as an object that threads share. -/
abbrev SharedMap (Thread : Type) :=
  AtomicObject Thread Request Reply Int64 TimedMap

structure Simulates (latest : Int64) (calls : Calls Thread)
    (object : SharedMap Thread) : Prop where
  clock : object.clock = calls.clock
  bound : calls.clock ≤ latest
  refines : KeyValueStore.Refines calls.clock calls.store object.abstract
  follows : ∀ thread, Follows latest calls.clock calls.store.view
    (calls.stage thread) (object.stance thread)

/-- What the simulation asks of an event. -/
def Fits (latest : Int64) : Boundary Thread Request Reply Int64 → Prop
  | .invoke _ request => Served latest request
  | .answer _ _ => True
  | .tick nowMs => nowMs ≤ latest

namespace Simulates

variable {calls : Calls Thread} {object : SharedMap Thread}

/-- A thread that calls or returns. -/
theorem restage (hsimulates : Simulates latest calls object) {thread : Thread}
    {stage : Stage} {stance : Stance Request Reply Int64}
    (hfollows : Follows latest calls.clock calls.store.view stage stance) :
    Simulates latest
      { calls with stage := Function.update calls.stage thread stage }
      { object with
        stance := Function.update object.stance thread stance } where
  clock := hsimulates.clock
  bound := hsimulates.bound
  refines := hsimulates.refines
  follows other := by
    by_cases hother : other = thread
    · subst hother
      simpa using hfollows
    · simpa [hother] using hsimulates.follows other

omit [DecidableEq Thread] in
theorem tick (hsimulates : Simulates latest calls object) {nowMs : Int64}
    (hclock : calls.clock ≤ nowMs) (hlatest : nowMs ≤ latest) :
    Simulates latest { calls with clock := nowMs }
      { object with clock := nowMs } where
  clock := rfl
  bound := hlatest
  refines := hsimulates.refines.mono hclock
  follows thread := (hsimulates.follows thread).mono hclock

/-- A thread that goes on with its call. -/
theorem moved (hsimulates : Simulates latest calls object) {thread : Thread}
    (hgranted : calls.Granted thread) {after : SharedMap Thread}
    {stance : Stance Request Reply Int64}
    (hclock : after.clock = object.clock)
    (hstance : after.stance = Function.update object.stance thread stance)
    (hrefines : KeyValueStore.Refines calls.clock (calls.moved thread).store
      after.abstract)
    (hfollows : Follows latest calls.clock (calls.moved thread).store.view
      ((calls.moved thread).stage thread) stance) :
    Simulates latest (calls.moved thread) after where
  clock := hclock.trans hsimulates.clock
  bound := hsimulates.bound
  refines := hrefines
  follows other := by
    rw [hstance]
    by_cases hother : other = thread
    · subst hother
      rw [Function.update_self]
      exact hfollows
    · have hstage : (calls.moved thread).stage other = calls.stage other :=
        Function.update_of_ne hother _ _
      rw [hstage, Function.update_of_ne hother]
      apply (hsimulates.follows other).frame hsimulates.refines.coherent
      intro hshared
      apply KeyValueStore.frame_proceed
      rw [← Bool.not_eq_true]
      intro hexclusive
      rw [hgranted hexclusive other] at hshared
      cases hshared

/-- The forward simulation. -/
theorem step (hsimulates : Simulates latest calls object)
    {label : Option (Boundary Thread Request Reply Int64)}
    {next : Calls Thread} (hfits : ∀ event ∈ label, Fits latest event)
    (hstep : Step calls label next) :
    ∃ after, Observed (AtomicObject.Step Amid) object label.toList after ∧
      Simulates latest next after := by
  cases hstep with
  | tick hclock =>
      rw [← hsimulates.clock] at hclock
      exact ⟨_, .single (.tick hclock),
        hsimulates.tick (hsimulates.clock ▸ hclock) (hfits _ rfl)⟩
  | @invoke thread request hstage =>
      have hfollows := hsimulates.follows thread
      rw [hstage] at hfollows
      generalize hstance : object.stance thread = stance at hfollows
      cases hfollows with
      | resting =>
          refine ⟨_, .single (.invoke hstance), hsimulates.restage ?_⟩
          exact .invoked (hfits _ rfl) (hsimulates.clock ▸ Int64.le_refl _)
  | @move thread hgranted =>
      have hmatched := KeyValueStore.matched_proceed hsimulates.refines
        hsimulates.bound (hsimulates.follows thread)
      have hstage : (calls.moved thread).stage thread =
          (calls.store.proceed calls.clock (calls.stage thread)).2 :=
        Function.update_self _ _ _
      generalize hstance : object.stance thread = stance at hmatched
      cases hmatched with
      | stays hrefines hfollows =>
          refine ⟨object, .nil object, hsimulates.moved hgranted rfl
            (Function.update_eq_self thread _).symm hrefines ?_⟩
          rw [hstage, hstance]
          exact hfollows
      | occurs hallowed hrefines hfollows =>
          rw [← hsimulates.clock] at hallowed
          refine ⟨_, .single (.occur hstance hallowed),
            hsimulates.moved hgranted rfl rfl hrefines ?_⟩
          rw [hstage]
          exact hfollows
  | @answer thread reply hstage =>
      have hfollows := hsimulates.follows thread
      rw [hstage] at hfollows
      generalize hstance : object.stance thread = stance at hfollows
      cases hfollows with
      | answered =>
          exact ⟨_, .single (.answer hstance), hsimulates.restage .resting⟩

end Simulates

omit [DecidableEq Thread] in
theorem Simulates.start {store : KeyValueStore} {map : TimedMap}
    {clock : Int64} (hlatest : clock ≤ latest)
    (hrefines : KeyValueStore.Refines clock store map) :
    Simulates latest (start store clock : Calls Thread)
      (.start map clock) where
  clock := rfl
  bound := hlatest
  refines := hrefines
  follows _ := .resting

/-- Threads that call a store that has opened see a timed map of its recovered
records, with their calls one after the other. -/
theorem calls_are_linearizable (config : StoreConfig)
    (data temporary : Option Bytes) {opening : Environment}
    (hopening : opening.Reliable)
    (hopens : ((KeyValueStore.new config data temporary).openStore
      opening).2.ok = true)
    (hlatest : opening.nowMs ≤ latest)
    {events : List (Boundary Thread Request Reply Int64)}
    (hfits : ∀ event ∈ events, Fits latest event) {last : Calls Thread}
    (hrun : Observed Step (start ((KeyValueStore.new config data
      temporary).openStore opening).1 opening.nowMs) events last) :
    ∃ entries tail, LogWithTail entries tail (data.getD []) ∧
      ∃ object : SharedMap Thread,
        Observed (AtomicObject.Step Amid)
          (.start (TimedMap.ofLog entries) opening.nowMs) events object ∧
        AtomicObject.Sequential Amid (TimedMap.ofLog entries)
          object.occurrences object.abstract ∧
        KeyValueStore.Refines last.clock last.store object.abstract := by
  obtain ⟨entries, tail, hlog, hrefines⟩ :=
    KeyValueStore.refines_openStore hopening rfl rfl hopens
  obtain ⟨object, hobserved, hsimulates⟩ :=
    Observed.simulate (fun _ _ _ _ hevent hstep hrelated =>
      Simulates.step hrelated hevent hstep) hfits hrun
      (Simulates.start hlatest hrefines)
  obtain ⟨occurrences, hoccurrences, hsequential⟩ :=
    AtomicObject.accounts_of_observed hobserved
  rw [AtomicObject.start, List.nil_append] at hoccurrences
  rw [← hoccurrences] at hsequential
  exact ⟨entries, tail, hlog, object, hobserved, hsequential,
    hsimulates.refines⟩

/-- A `get` is invoked while a `set` with a deadline waits, and finds the key
expired. -/
def getAroundSet : List (Boundary Bool Request Reply Int64) :=
  [.invoke false ⟨.calm 0, .set [97] [98] (some 5)⟩,
    .invoke true ⟨.calm 0, .get [97]⟩, .tick 6,
    .answer false (.status .success),
    .answer true (.value (.error (.notFound "key has expired")))]

theorem fits_getAroundSet : ∀ event ∈ getAroundSet, Fits 6 event := by
  have hcalm := (Environment.faultless_calm 0).toReliable
  simp only [getAroundSet, List.forall_mem_cons]
  refine ⟨⟨by simp [Call.Operates], hcalm, ?_⟩,
    ⟨by simp [Call.Operates], hcalm, trivial⟩, Int64.le_refl 6,
    trivial, trivial, by simp⟩
  rintro count ⟨⟩ -
  decide

theorem observed_getAroundSet :
    ∃ last, Observed Step (start ((KeyValueStore.new .small none
      none).openStore (.calm 1)).1 1) getAroundSet last := by
  have hgranted : ∀ {calls : Calls Bool} {thread : Bool},
      (calls.stage thread).exclusive = false → calls.Granted thread :=
    fun hshared hexclusive => Bool.noConfusion (hshared.symm.trans hexclusive)
  exact ⟨_, .seen (@Step.invoke _ _ _ false _ rfl) <|
    .silent (@Step.move _ _ _ false (hgranted (by decide +kernel))) <|
    .seen (@Step.invoke _ _ _ true _ rfl) <|
    .seen (@Step.tick _ _ _ 6 (by decide)) <|
    .silent (@Step.move _ _ _ true (hgranted (by decide +kernel))) <|
    .silent (@Step.move _ _ _ false (by
      intro hexclusive thread
      cases thread <;> decide +kernel)) <|
    .silent (@Step.move _ _ _ true (hgranted (by decide +kernel))) <|
    .silent (@Step.move _ _ _ true (hgranted (by decide +kernel))) <|
    .silent (@Step.move _ _ _ true (by
      intro hexclusive thread
      cases thread <;> decide +kernel)) <|
    .seen (@Step.answer _ _ _ false _ (by with_unfolding_all rfl)) <|
    .seen (@Step.answer _ _ _ true _ (by with_unfolding_all rfl)) <| .nil _⟩

theorem calls_are_linearizable_around_set :
    ∃ last : Calls Bool, ∃ entries tail, LogWithTail entries tail [] ∧
      ∃ object : SharedMap Bool,
        Observed (AtomicObject.Step Amid)
          (.start (TimedMap.ofLog entries) 1) getAroundSet object ∧
        AtomicObject.Sequential Amid (TimedMap.ofLog entries)
          object.occurrences object.abstract ∧
        KeyValueStore.Refines last.clock last.store object.abstract := by
  obtain ⟨last, hlast⟩ := observed_getAroundSet
  have hopening := (Environment.faultless_calm 1).toReliable
  have hlatest : (1 : Int64) ≤ 6 := by decide
  exact ⟨last, calls_are_linearizable .small none none hopening
    (by decide +kernel) hlatest fits_getAroundSet hlast⟩

end Calls

end MiniKV
