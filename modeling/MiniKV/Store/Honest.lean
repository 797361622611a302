import MiniKV.Store.Opening
import MiniKV.Store.Refinement

/-!
# Right or honest

The file system may fail at every call.  As long as no compaction loses its
file, each reply is one that the timed map allows, or it reports an I/O error, a
corruption or an exception, and the map stays as it was: no call returns a wrong
value, and none takes a failed read for a missing key.
-/

namespace MiniKV

/-- The status with which a reply reports that its call has failed. -/
def Reply.failure : Reply → Option Status
  | .status reported => if reported.ok then none else some reported
  | .value (.error reported) => some reported
  | .flag (.error reported) => some reported
  | .listing (.error reported) => some reported
  | .summary (.error reported) => some reported
  | _ => none

/-- How the store reports what the file system did. -/
def Status.Faulty (status : Status) : Prop :=
  status.Fails True [.ioError, .corruption]

theorem Status.Fails.faulty {throws : Prop} {codes : List StatusCode}
    {status : Status} (hfails : status.Fails throws codes)
    (hcodes : codes ⊆ [.ioError, .corruption]) : status.Faulty :=
  hfails.mono hcodes fun _ => trivial

theorem OpenAnswers.Fails.faulty {answers : OpenAnswers} {status : Status}
    (hfails : answers.Fails status) : status.Faulty :=
  hfails.fails (by simp) fun _ => trivial

theorem Status.Faulty.code_ne {status : Status} (hfaulty : status.Faulty)
    {code : StatusCode} (hother : code ∉ [.ioError, .corruption])
    (hthrown : code ≠ .thrown) : status.code ≠ code := by
  rintro rfl
  exact hfaulty.elim hother fun hfaulty => hthrown hfaulty.1

/-- The replies to one call under a file system that may fail: what the map
allows, or the report of a failure that has changed nothing. -/
inductive TimedMap.Honest (before : TimedMap) (request : Request)
    (reply : Reply) : TimedMap → Prop
  | right {after : TimedMap} (hallowed : before.Allowed request reply after) :
      Honest before request reply after
  | failed {status : Status} (hreply : reply.failure = some status)
      (hfaulty : status.Faulty)
      (hunreliable : ¬ request.environment.Reliable) :
      Honest before request reply before

namespace KeyValueStore

open TimedMap

variable {environment : Environment} {store after : KeyValueStore}
variable {map : TimedMap} {key : Bytes}

/-- What `get` answers wherever its reads fail. -/
theorem get_honest (hrefines : Refines environment.nowMs store map)
    (haccepted : AcceptedKey key) :
    (∃ value, (store.get environment key).2 = .ok value ∧
        map.Live environment.nowMs key value) ∨
      (∃ status, (store.get environment key).2 = .error status ∧
        status.code = .notFound ∧ ¬ map.Present environment.nowMs key) ∨
      ∃ status, (store.get environment key).2 = .error status ∧
        status.Faulty := by
  have hpresent := hrefines.present_iff key
  let counted := { store with getOperations := store.getOperations + 1 }
  rw [get, if_pos hrefines.opened, if_pos ((acceptedKey_iff key).mp haccepted)]
  dsimp only
  cases hfound : counted.index.lookup key with
  | none =>
      refine Or.inr (Or.inl ⟨.notFound "key does not exist", ?_, rfl, ?_⟩)
      · rw [find_missing hfound]
      · rw [hpresent]
        rintro ⟨metadata, hmetadata, -⟩
        exact Option.some_ne_none _ (hmetadata.symm.trans hfound)
  | some metadata =>
      cases hexpired : isExpired metadata.expiresAtMs environment.nowMs with
      | true =>
          refine Or.inr (Or.inl ⟨.notFound "key has expired", ?_, rfl, ?_⟩)
          · rw [find_expired hfound hexpired]
          · rw [hpresent]
            rintro ⟨other, hother, hfresh⟩
            cases hother.symm.trans hfound
            rw [hexpired] at hfresh
            cases hfresh
      | false =>
          have hlive : map.Live environment.nowMs key
              (store.view.valueAt metadata) :=
            (hrefines.live_iff key _).mpr ⟨metadata.expiresAtMs,
              View.contents_eq_some_iff.mpr ⟨metadata, hfound, rfl, rfl⟩,
              hexpired⟩
          rw [find_live hfound hexpired]
          have hcoherent : counted.view.Coherent := hrefines.coherent
          have hcached := LruCache.get_eq_some_iff hcoherent.wellFormed key
          have hfails := failsWith_getLive environment key metadata counted
          unfold getLive lookupCache at hfails ⊢
          cases hlookup : (counted.cache.get key).2 with
          | some value =>
              obtain ⟨other, hother, hvalue⟩ :=
                hcoherent.cached key value ((hcached value).mp hlookup)
              cases hother.symm.trans hfound
              exact Or.inl ⟨value, rfl, hvalue ▸ hlive⟩
          | none =>
              rw [hlookup] at hfails
              dsimp only at hfails ⊢
              split
              next read status heq =>
                rw [heq] at hfails
                exact Or.inr (Or.inr ⟨status, rfl,
                  Status.Fails.faulty hfails (List.Subset.refl _)⟩)
              next read value heq =>
                have htouched := hcoherent.upkeep
                  (show Upkeep environment.nowMs _ _ from .touched _ key)
                have hgrows := View.Grows.of_drained (drained_readStored
                  environment key metadata (counted.lookupCache key).1).drained
                refine Or.inl ⟨value, rfl, ?_⟩
                rw [eq_valueAt_of_readStored (congrArg Prod.snd heq)]
                exact hgrows.valueAt_eq htouched hfound ▸ hlive

theorem honest_get (hrefines : Refines environment.nowMs store map)
    (hunreliable : ¬ environment.Reliable) (key : Bytes) :
    Honest map ⟨environment, .get key⟩
      (.value (store.get environment key).2) map := by
  by_cases haccepted : AcceptedKey key
  · rcases get_honest hrefines haccepted with ⟨value, hvalue, hlive⟩ |
      ⟨status, hstatus, hcode, hmissing⟩ | ⟨status, hstatus, hfaulty⟩
    · rw [hvalue]
      exact .right (.got haccepted hlive)
    · rw [hstatus]
      exact .right (.gotNothing haccepted hmissing hcode)
    · rw [hstatus]
      exact .failed rfl hfaulty hunreliable
  · rw [get_rejected hrefines.opened haccepted]
    exact .right (.getRejected haccepted (code_validateKey haccepted))

/-- A failed read is not taken for a missing key. -/
theorem honest_exists (hrefines : Refines environment.nowMs store map)
    (hunreliable : ¬ environment.Reliable) (key : Bytes) :
    Honest map ⟨environment, .keyExists key⟩
      (.flag (store.keyExists environment key).2) map := by
  rw [snd_keyExists]
  by_cases haccepted : AcceptedKey key
  · rcases get_honest hrefines haccepted with ⟨value, hvalue, hlive⟩ |
      ⟨status, hstatus, hcode, hmissing⟩ | ⟨status, hstatus, hfaulty⟩
    · rw [hvalue]
      exact .right (.existsTrue haccepted ⟨value, hlive⟩)
    · rw [hstatus]
      dsimp only
      rw [if_pos hcode]
      exact .right (.existsFalse haccepted hmissing)
    · rw [hstatus]
      dsimp only
      rw [if_neg (hfaulty.code_ne (by decide) (by decide))]
      exact .failed rfl hfaulty hunreliable
  · have hcode := code_validateKey haccepted
    rw [get_rejected hrefines.opened haccepted]
    dsimp only
    rw [if_neg (by rw [hcode]; decide)]
    exact .right (.existsRejected haccepted hcode)

theorem failure_status {status : Status} (hstatus : status.ok = false) :
    (Reply.status status).failure = some status := by
  rw [Reply.failure, if_neg (by rw [hstatus]; exact Bool.false_ne_true)]

theorem honest_set (hrefines : Refines environment.nowMs store map)
    (hunreliable : ¬ environment.Reliable) {value : Bytes}
    {ttl : Option Int64}
    (hrange : InRange ⟨environment, .set key value ttl⟩) :
    ∃ next, Honest map ⟨environment, .set key value ttl⟩
        (.status (store.set environment key value ttl).2) next ∧
      Refines environment.nowMs (store.set environment key value ttl).1
        next := by
  have hopened := opened_set environment key value ttl store
  rw [set, if_pos hrefines.opened] at hopened ⊢
  rcases validateSet_cases key value ttl with
    ⟨hsuccess, haccepted⟩ | ⟨hcode, hrejected⟩
  · have hvalid := valid_of_validateSet
      (hsuccess ▸ Status.ok_success) (deadline environment.nowMs ttl)
    rw [hsuccess, if_pos Status.ok_success] at hopened ⊢
    have houtcome := setSection_cases environment key value
      (deadline environment.nowMs ttl) hrefines.opened
    generalize store.setSection environment key value
      (deadline environment.nowMs ttl) = result at hopened houtcome ⊢
    obtain ⟨after, status⟩ := result
    dsimp only at hopened houtcome ⊢
    generalize hview : after.view = later at houtcome
    cases houtcome with
    | stored hrecord hfault _ =>
        have hcoherent : after.view.Coherent := by
          rw [hview]
          exact hrefines.coherent.settled.afterSet hrecord rfl
        have hcontents := View.contents_afterSet hrefines.coherent.settled
          hrecord rfl
        rw [← hview, View.contents_settled hrefines.coherent] at hcontents
        have hupdated := hrefines.update hcoherent hcontents hopened
        rw [Option.map_some, toInt_deadline hrange haccepted.ttl] at hupdated
        exact ⟨_, .right (.set haccepted hfault), hupdated⟩
    | failed hfailed =>
        exact ⟨map, .failed (failure_status hfailed.ok_eq)
          (hfailed.fails hvalid).faulty hunreliable,
          hrefines.appendFailed (hview ▸ hfailed) hopened⟩
  · have hfailed : ¬ (validateSet key value ttl).ok = true := by
      rw [Status.ok, hcode]
      decide
    rw [if_neg hfailed]
    exact ⟨map, .right (.setRejected hrejected hcode), hrefines⟩

theorem honest_remove (hrefines : Refines environment.nowMs store map)
    (hunreliable : ¬ environment.Reliable) :
    ∃ next, Honest map ⟨environment, .remove key⟩
        (.status (store.remove environment key).2) next ∧
      Refines environment.nowMs (store.remove environment key).1 next := by
  have hopened := opened_remove environment key store
  rw [remove, if_pos hrefines.opened] at hopened ⊢
  by_cases haccepted : AcceptedKey key
  · have hkey := (acceptedKey_iff key).mp haccepted
    rw [if_pos hkey] at hopened ⊢
    have hpresent := hrefines.present_iff key
    have houtcome := removeSection_cases environment key store
    generalize store.removeSection environment key = result
      at hopened houtcome ⊢
    obtain ⟨after, status⟩ := result
    dsimp only at hopened houtcome ⊢
    generalize hview : after.view = later at houtcome
    cases houtcome with
    | missing hmissing =>
        have hnothing : ¬ map.Present environment.nowMs key := by
          rw [hpresent]
          rintro ⟨metadata, hfound, -⟩
          exact Option.some_ne_none _ (hfound.symm.trans hmissing)
        have hupkeeps : Upkeeps environment.nowMs store.view after.view := by
          rw [hview]
        exact ⟨map, .right (.removedNothing haccepted hnothing rfl),
          hrefines.upkeeps hupkeeps hopened⟩
    | expired metadata hfound hexpired =>
        have hnothing : ¬ map.Present environment.nowMs key := by
          rw [hpresent]
          rintro ⟨other, hother, hfresh⟩
          cases hfound.symm.trans hother
          rw [hexpired] at hfresh
          cases hfresh
        have hupkeeps : Upkeeps environment.nowMs store.view after.view := by
          rw [hview]
          exact .single (.dropped store.view key metadata hfound hexpired)
        exact ⟨map, .right (.removedNothing haccepted hnothing rfl),
          hrefines.upkeeps hupkeeps hopened⟩
    | removed metadata hfound hlive hrecord hfault _ =>
        have hcoherent : after.view.Coherent := by
          rw [hview]
          exact hrefines.coherent.settled.afterRemove _
        have hcontents := View.contents_afterRemove hrefines.coherent.settled
          (deleteRecord key)
        rw [← hview, View.contents_settled hrefines.coherent] at hcontents
        exact ⟨_, .right (.removed haccepted
          (hpresent.mpr ⟨metadata, hfound, hlive⟩) hfault),
          hrefines.update hcoherent hcontents hopened⟩
    | failed metadata hfound hlive hfailed =>
        exact ⟨map, .failed (failure_status hfailed.ok_eq)
          (hfailed.fails (valid_deleteRecord hkey)).faulty hunreliable,
          hrefines.appendFailed (hview ▸ hfailed) hopened⟩
  · rw [if_neg fun hkey => haccepted ((acceptedKey_iff key).mpr hkey)]
    exact ⟨map, .right (.removeRejected haccepted
      (code_validateKey haccepted)), hrefines⟩

/-- A compaction of a coherent store fails as its file does. -/
theorem failsWith_rewriteLive (hcoherent : store.view.Coherent) :
    FailsWith (environment.openAnswers.Throws ∨
        environment.compact.reopen.Throws) [.ioError, .corruption]
      (store.rewriteLive environment).2 := by
  let visited := environment.hashOrder store.index
  have hread := failsWith_readLiveRecords environment visited.keys store
  unfold rewriteLive
  split
  next heq =>
    rw [heq] at hread
    exact hread.mono (List.Subset.refl _) Or.inl
  next heq =>
    obtain ⟨hrecords, -⟩ := readLiveRecords_ok
      (isSome_of_visited environment store) (congrArg Prod.snd heq)
    apply AppendOnlyStore.failsWith_compact _ (by simp)
    intro record hrecord fault output recordOffset
    rw [mem_sortRecords, hrecords, List.mem_filterMap] at hrecord
    obtain ⟨key, -, hlive⟩ := hrecord
    rw [AppendOnlyStore.writeRecord_of_valid
      (valid_liveRecord hcoherent.settled hlive)]
    cases fault with
    | some torn => exact Or.inl List.mem_cons_self
    | none => trivial

theorem honest_compact (hrefines : Refines environment.nowMs store map)
    (hunreliable : ¬ environment.Reliable) :
    Honest map ⟨environment, .compact⟩
      (.summary (store.compact environment).2) map := by
  have hpurged : (store.purgeExpired environment).view.Coherent :=
    hrefines.coherent.upkeep (upkeep_purgeExpired environment store)
  have hfails : FailsWith (environment.openAnswers.Throws ∨
      environment.compact.reopen.Throws) [.ioError, .corruption]
      ((store.purgeExpired environment).rewriteLive environment).2 :=
    failsWith_rewriteLive hpurged
  rw [compact, if_pos hrefines.opened, compactSection_eq_rewriteLive]
  generalize (store.purgeExpired environment).rewriteLive environment =
    rewrite at hfails ⊢
  obtain ⟨rewritten, result⟩ := rewrite
  cases result with
  | error status =>
      exact .failed rfl (Status.Fails.faulty hfails (List.Subset.refl _))
        hunreliable
  | ok state => exact .right .compacted

/-- Every call between opening and closing is right or honest. -/
theorem step_honest {startMs : Int64} {request : Request}
    (hrefines : Refines startMs store map) (hclock : startMs ≤ request.nowMs)
    (hoperates : request.call.Operates) (hrange : InRange request)
    (hkeeps : ¬ Loses request store) :
    ∃ next, Honest map request (store.perform request).2 next ∧
      Refines request.nowMs (store.perform request).1 next := by
  by_cases hreliable : request.environment.Reliable
  · obtain ⟨next, hallowed, hnext⟩ :=
      step_refines hrefines hclock hoperates hreliable hrange
    exact ⟨next, .right hallowed, hnext⟩
  have hnow := hrefines.mono hclock
  obtain ⟨environment, call⟩ := request
  cases call with
  | set key value ttl => exact honest_set hnow hreliable hrange
  | get key => exact ⟨map, honest_get hnow hreliable key, refines_get hnow⟩
  | keyExists key =>
      have hafter : Refines environment.nowMs
          (store.get environment key).1 map := refines_get hnow
      rw [← fst_keyExists] at hafter
      exact ⟨map, honest_exists hnow hreliable key, hafter⟩
  | remove key => exact honest_remove hnow hreliable
  | keys start =>
      exact ⟨map, .right (step_keys hnow start),
        hnow.upkeeps (upkeeps_keys environment start store)
          (opened_keys environment start store)⟩
  | cleanupExpired =>
      exact ⟨map, .right .cleaned,
        hnow.upkeeps (upkeeps_cleanupExpired environment store)
          (opened_cleanupExpired environment store)⟩
  | compact =>
      have hlast : ¬ (store.opened = true ∧ LosesFile environment store) :=
        fun hloses => hkeeps ⟨rfl, hloses⟩
      exact ⟨map, honest_compact hnow hreliable,
        hnow.upkeeps (upkeeps_compact hlast)
          (opened_compact environment store)⟩
  | openStore => exact absurd rfl hoperates.1
  | close => exact absurd rfl hoperates.2

/-- A store that opens stands for the map of its records, whatever failed
besides the reads. -/
theorem refines_opened {entries : List LogEntry} {tail : Bytes}
    (hfull : ∀ position, environment.recover.FullAt position)
    (hclosed : store.opened = false) (hpending : store.storage.pending = [])
    (hlog : LogWithTail entries tail store.storage.bytes)
    (hopens : (store.openStore environment).2.ok = true) :
    Refines environment.nowMs (store.openStore environment).1
      (ofLog entries) := by
  have hattempted :=
    openStore_attempted hfull hclosed (Or.inl hpending) hlog
  generalize store.openStore environment = result at hopens hattempted ⊢
  obtain ⟨after, status⟩ := result
  cases hattempted with
  | failed _ hstatus _ _ _ =>
      rw [hstatus] at hopens
      cases hopens
  | opened hopened hview =>
      rw [View.reopened_of_pending hpending] at hview
      have hcoherent := View.coherent_ofLog environment.nowMs entries
        store.view.cache
      have htracks := View.tracks_ofLog environment.nowMs entries
        store.view.cache
      rw [← hview] at hcoherent htracks
      exact ⟨hopened, hcoherent, View.ledgerOf entries,
        (ofLedger_ledgerOf entries).symm, htracks⟩

/-- Every run of a store that opened on a log is a run of the timed map of its
records in which each reply is right or reports a failure, wherever the file
system fails, as long as no compaction loses the file. -/
theorem run_is_right_or_honest (config : StoreConfig) {data : Bytes}
    (temporary : Option Bytes) {entries : List LogEntry} {tail : Bytes}
    (hlog : LogWithTail entries tail data) (opening : Environment)
    (hfull : ∀ position, opening.recover.FullAt position)
    (hopens : ((new config (some data) temporary).openStore opening).2.ok =
      true)
    (requests : List Request)
    (hoperates : ∀ request ∈ requests, request.call.Operates)
    (hrange : ∀ request ∈ requests, InRange request)
    (hpaced : Machine.Paced Request.nowMs opening.nowMs requests)
    (hkeeps : machine.Along (fun request store => ¬ Loses request store)
      requests ((new config (some data) temporary).openStore opening).1) :
    ∃ last, Machine.Trace Honest (TimedMap.ofLog entries) requests
      (machine.run requests
        ((new config (some data) temporary).openStore opening).1).2 last := by
  have hstart := refines_opened hfull rfl rfl hlog hopens
  have hoperations : machine.Along
      (fun request _ => request.call.Operates ∧ InRange request) requests
      ((new config (some data) temporary).openStore opening).1 :=
    .of_forall (fun request hrequest _ => ⟨hoperates request hrequest,
      hrange request hrequest⟩) _
  have halong := hoperations.and hkeeps
  have hstep : ∀ startMs request store map, Refines startMs store map →
      startMs ≤ request.nowMs →
      (request.call.Operates ∧ InRange request) ∧ ¬ Loses request store →
      ∃ next, Honest map request (machine.step request store).2 next ∧
        Refines request.nowMs (machine.step request store).1 next :=
    fun _ _ _ _ hrefines hclock hrequest => step_honest hrefines hclock
      hrequest.1.1 hrequest.1.2 hrequest.2
  obtain ⟨last, htrace, -⟩ :=
    Machine.exists_trace hstep hpaced halong hstart
  exact ⟨last, htrace⟩

/-- A run with a torn `set` whose record stays in the put area, a short read and
a compaction that fails. -/
theorem run_is_right_or_honest_behind_failures :
    let opened := ((new .small (some []) none).openStore (.calm 0)).1
    let requests : List Request :=
      [⟨.calm 1, .set [97] [98] none⟩,
        ⟨{ nowMs := 2, append := { write := some ⟨5, 30⟩ } },
          .set [97] [99] none⟩,
        ⟨.calm 3, .set [100] [101] none⟩,
        ⟨{ nowMs := 4, read := fun _ => { short := some 0 } }, .get [97]⟩,
        ⟨{ nowMs := 5, compact := { flush := false } }, .compact⟩]
    ∃ last, Machine.Trace Honest (TimedMap.ofLog []) requests
      (machine.run requests opened).2 last := by
  intro opened requests
  have hoperates : ∀ request ∈ requests, request.call.Operates := by
    simp [requests, Call.Operates]
  have hrange : ∀ request ∈ requests, InRange request := by
    simp [requests, InRange]
  have hpaced : Machine.Paced Request.nowMs 0 requests :=
    ⟨by decide, by decide, by decide, by decide, by decide, trivial⟩
  have hother : ∀ request store, request.call ≠ .compact →
      ¬ Loses request store := fun _ _ hcall hloses => hcall hloses.1
  have hkeeps : machine.Along (fun request store => ¬ Loses request store)
      requests opened := by
    refine ⟨hother _ _ (by simp), hother _ _ (by simp), hother _ _ (by simp),
      hother _ _ (by simp), ?_, trivial⟩
    rintro ⟨-, -, hloses⟩
    cases hloses.loses.flush
  exact run_is_right_or_honest .small none ⟨rfl, unfinishedTail_nil⟩ (.calm 0)
    (fun _ _ => rfl) (by decide +kernel) requests hoperates hrange hpaced hkeeps

end KeyValueStore

end MiniKV
