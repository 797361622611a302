import MiniKV.Store.Faultless
import MiniKV.Store.Refinement
import MiniKV.Store.StatusCodes

/-!
# Keys that were reported gone

A remove of a live key is on disk, a key that expired leaves memory only.  What
relates the two is that the store shows what its log says, up to keys whose
lifetime had ended at some reading of the run.  A key that was reported gone is
therefore hidden in the log by a Delete record, which no clock undoes, or by a
lifetime that a restart with an earlier reading finds running again.
-/

namespace MiniKV

namespace View

variable {view : View} {key : Bytes}

/-! ## A view that trails its log -/

/-- The view shows what the log of its file stores, up to entries that had
expired at `latestMs`. -/
structure Trails (latestMs : Int64) (view : View) : Prop where
  pending : view.pending = []
  coherent : view.Coherent
  log : ∃ entries, view.bytes = logFormat.imageAll entries ∧
    Tracks latestMs view (ledgerOf entries)

/-- The key is not shown, and in the log it is hidden or carries a deadline
that is `passed`. -/
structure Buried (key : Bytes) (passed : Int64 → Prop) (view : View) : Prop where
  pending : view.pending = []
  coherent : view.Coherent
  missing : view.contents key = none
  log : ∃ entries, view.bytes = logFormat.imageAll entries ∧
    ∀ value expiresAtMs, ledgerOf entries key = some (value, expiresAtMs) →
      passed expiresAtMs

theorem missing_of_erase {later : View} {index : Index}
    (hindex : later.index = index.erase key) : later.contents key = none :=
  contents_eq_none_iff.mpr (hindex ▸ FiniteMap.lookup_erase_self _ _)

theorem trails_ofLog (nowMs : Int64) (entries : List LogEntry)
    (cache : LruCache Bytes Bytes) :
    Trails nowMs (ofLog nowMs entries cache) :=
  ⟨rfl, coherent_ofLog nowMs entries cache, entries, rfl,
    tracks_ofLog nowMs entries cache⟩

theorem Trails.mono {nowMs latestMs : Int64} (htrails : Trails nowMs view)
    (hclock : nowMs ≤ latestMs) : Trails latestMs view := by
  obtain ⟨hpending, hcoherent, entries, hbytes, htracks⟩ := htrails
  exact ⟨hpending, hcoherent, entries, hbytes, htracks.mono hclock⟩

/-- A key that is not shown is buried. -/
theorem Trails.buried {latestMs : Int64} (htrails : Trails latestMs view)
    (hmissing : view.contents key = none) :
    view.Buried key fun expiresAtMs => isExpired expiresAtMs latestMs = true
    where
  pending := htrails.pending
  coherent := htrails.coherent
  missing := hmissing
  log := by
    obtain ⟨entries, hbytes, htracks⟩ := htrails.log
    refine ⟨entries, hbytes, fun value expiresAtMs hstored => ?_⟩
    rcases htracks key with hsame | ⟨-, other, deadlineMs, hother, hexpired⟩
    · rw [hmissing, hstored] at hsame
      cases hsame
    · rw [hstored] at hother
      cases hother
      exact hexpired

theorem Trails.upkeep {latestMs nowMs : Int64} (htrails : Trails latestMs view)
    (hclock : nowMs ≤ latestMs) {later : View}
    (hupkeep : Upkeep nowMs view later) : Trails latestMs later := by
  obtain ⟨hpending, hcoherent, entries, hbytes, htracks⟩ := htrails
  obtain ⟨hnothing, hlog⟩ := log_upkeep hpending hupkeep
  refine ⟨hnothing, hcoherent.upkeep hupkeep, ?_⟩
  rcases hlog with hsame | ⟨live, hlive, hbytes⟩
  · exact ⟨entries, hsame.trans hbytes,
      htracks.upkeep hcoherent hclock hupkeep⟩
  · refine ⟨live, hbytes, ?_⟩
    rw [hlive.ledgerOf_eq]
    exact (Tracks.refl latestMs view).upkeep hcoherent hclock hupkeep

/-- Upkeep neither shows a buried key nor digs it up. -/
theorem Buried.upkeep {passed : Int64 → Prop} (hburied : view.Buried key passed)
    {nowMs : Int64} {later : View} (hupkeep : Upkeep nowMs view later) :
    later.Buried key passed := by
  obtain ⟨hpending, hcoherent, hmissing, entries, hbytes, hpassed⟩ := hburied
  obtain ⟨hnothing, hlog⟩ := log_upkeep hpending hupkeep
  refine ⟨hnothing, hcoherent.upkeep hupkeep, ?_, ?_⟩
  · rcases contents_upkeep hcoherent hupkeep key with hsame | ⟨hgone, -⟩
    · exact hsame.trans hmissing
    · exact hgone
  · rcases hlog with hsame | ⟨live, hlive, hlog⟩
    · exact ⟨entries, hsame.trans hbytes, hpassed⟩
    · refine ⟨live, hlog, fun value expiresAtMs hstored => ?_⟩
      rw [hlive.ledgerOf_eq, hmissing] at hstored
      cases hstored

theorem Trails.upkeeps {latestMs nowMs : Int64}
    (htrails : Trails latestMs view) (hclock : nowMs ≤ latestMs)
    {later : View} (hupkeeps : Upkeeps nowMs view later) :
    Trails latestMs later := by
  induction hupkeeps with
  | refl => exact htrails
  | tail _ hlast ih => exact ih.upkeep hclock hlast

theorem Buried.upkeeps {passed : Int64 → Prop} (hburied : view.Buried key passed)
    {nowMs : Int64} {later : View} (hupkeeps : Upkeeps nowMs view later) :
    later.Buried key passed := by
  induction hupkeeps with
  | refl => exact hburied
  | tail _ hlast ih => exact ih.upkeep hlast

/-! ## An appended record -/

section AfterRecord

variable {record : Record} (hvalid : record.Valid)

theorem bytes_afterRecord_log {entries : List LogEntry}
    (hbytes : view.bytes = logFormat.imageAll entries) :
    (view.afterRecord record hvalid).bytes =
      logFormat.imageAll (entries ++ [.ofRecord record hvalid]) := by
  rw [bytes_afterRecord, imageAll_concat_ofRecord, hbytes]

theorem Trails.afterRecord {latestMs : Int64} (htrails : Trails latestMs view) :
    Trails latestMs (view.afterRecord record hvalid) := by
  obtain ⟨hpending, hcoherent, entries, hbytes, htracks⟩ := htrails
  refine ⟨(pending_afterRecord hvalid).trans hpending,
    hcoherent.afterRecord hvalid, _, bytes_afterRecord_log hvalid hbytes, ?_⟩
  have hledger : ledgerOf (entries ++ [.ofRecord record hvalid]) =
      Function.update (ledgerOf entries) record.key record.stored := by
    funext other
    rw [ledgerOf_concat, Function.update_apply]
    exact if_congr eq_comm rfl rfl
  rw [hledger]
  exact htracks.update (contents_afterRecord hvalid hcoherent)

/-- A record of another key, or a Delete record, leaves a key buried. -/
theorem Buried.afterRecord {passed : Int64 → Prop}
    (hburied : view.Buried key passed)
    (hrecord : record.key = key → record.stored = none) :
    (view.afterRecord record hvalid).Buried key passed := by
  obtain ⟨hpending, hcoherent, hmissing, entries, hbytes, hpassed⟩ := hburied
  refine ⟨(pending_afterRecord hvalid).trans hpending,
    hcoherent.afterRecord hvalid, ?_, _,
    bytes_afterRecord_log hvalid hbytes, fun value expiresAtMs hstored => ?_⟩
  · rw [contents_afterRecord hvalid hcoherent, Function.update_apply]
    split
    next hkey => exact hrecord hkey.symm
    · exact hmissing
  · rw [ledgerOf_concat] at hstored
    split at hstored
    next hkey =>
      rw [hrecord hkey] at hstored
      cases hstored
    · exact hpassed value expiresAtMs hstored

/-- A Delete record hides its key from every clock. -/
theorem Trails.buried_afterRecord {latestMs : Int64}
    (htrails : Trails latestMs view) (hnone : record.stored = none) :
    (view.afterRecord record hvalid).Buried record.key fun _ => False := by
  obtain ⟨hpending, hcoherent, entries, hbytes, -⟩ := htrails
  refine ⟨(pending_afterRecord hvalid).trans hpending,
    hcoherent.afterRecord hvalid, ?_, _,
    bytes_afterRecord_log hvalid hbytes, fun value expiresAtMs hstored => ?_⟩
  · rw [contents_afterRecord hvalid hcoherent, Function.update_self, hnone]
  · rw [ledgerOf_concat, if_pos rfl, hnone] at hstored
    cases hstored

end AfterRecord

/-- A restart shows no key whose deadlines have passed at its reading. -/
theorem Buried.reopened {passed : Int64 → Prop} (hburied : view.Buried key passed)
    {nowMs : Int64}
    (hpassed : ∀ expiresAtMs, passed expiresAtMs →
      isExpired expiresAtMs nowMs = true)
    {entries : List LogEntry} {tail : Bytes}
    (hlog : LogWithTail entries tail view.bytes)
    (cache : LruCache Bytes Bytes) :
    (ofLog nowMs entries cache).Buried key passed := by
  obtain ⟨-, -, -, others, hbytes, hothers⟩ := hburied
  have hwhole : LogWithTail others [] view.bytes :=
    hbytes ▸ logWithTail_imageAll others
  obtain ⟨rfl, -⟩ := hlog.unique hwhole
  refine ⟨rfl, coherent_ofLog nowMs entries cache, ?_, entries, rfl, hothers⟩
  cases hshown : (ofLog nowMs entries cache).contents key with
  | none => rfl
  | some found =>
      obtain ⟨value, expiresAtMs⟩ := found
      rw [contents_ofLog_eq, unexpired_eq_some_iff] at hshown
      rw [hpassed expiresAtMs (hothers value expiresAtMs hshown.1)] at hshown
      cases hshown.2

end View

namespace KeyValueStore

variable {environment : Environment} {store : KeyValueStore} {key : Bytes}

/-- The reply says that the key is gone: `remove` has removed it or not found
it, or `get` has not found it. -/
inductive ReportsGone (key : Bytes) : Call → Reply → Prop
  | removed {status : Status} (hstatus : status.ok = true) :
      ReportsGone key (.remove key) (.status status)
  | removedNothing {status : Status} (hstatus : status.code = .notFound) :
      ReportsGone key (.remove key) (.status status)
  | gotNothing {status : Status} (hstatus : status.code = .notFound) :
      ReportsGone key (.get key) (.value (.error status))

/-- The request is a `remove` of the key that succeeds. -/
def Removes (key : Bytes) (request : Request) (store : KeyValueStore) : Prop :=
  request.call = .remove key ∧
    (store.perform request).2 = .status .success

/-- The request is a `set` of the key that succeeds. -/
def SetsKey (key : Bytes) (request : Request) (store : KeyValueStore) : Prop :=
  ∃ value ttl, request.call = .set key value ttl ∧
    (store.perform request).2 = .status .success

/-- When the request reopens the store, its clock reading is not behind any of
these. -/
def ReopensBehind (readings : List Int64) (request : Request)
    (store : KeyValueStore) : Prop :=
  request.call = .openStore → store.opened = false →
    ∀ reading ∈ readings, reading ≤ request.nowMs

/-! ## Runs without I/O failure -/

/-- The put area is empty, and an open store trails its log. -/
structure Trailing (latestMs : Int64) (store : KeyValueStore) : Prop where
  pending : store.storage.pending = []
  trails : store.opened = true → store.view.Trails latestMs

theorem trailing_perform {request : Request} {latestMs : Int64}
    (htrailing : Trailing latestMs store)
    (hclock : request.nowMs ≤ latestMs)
    (hfaultless : request.environment.Faultless) :
    Trailing latestMs (store.perform request).1 := by
  refine ⟨pending_faultless hfaultless htrailing.pending, fun hopened => ?_⟩
  have hwas : request.call ≠ .openStore → store.opened = true := by
    intro hother
    by_contra hclosed
    exact hother (call_of_opened (Bool.not_eq_true _ ▸ hclosed) hopened)
  have houtcome := faultless_cases hfaultless htrailing.pending
  generalize (store.perform request).1 = after at houtcome hopened ⊢
  generalize (store.perform request).2 = reply at houtcome
  cases houtcome with
  | upkeep hupkeeps hstays =>
      exact (htrailing.trails (hstays hopened)).upkeeps hclock hupkeeps
  | stored hcall hvalid hview =>
      rw [hview]
      exact (htrailing.trails (hwas (by rw [hcall]; exact nofun))).afterRecord
        hvalid
  | removed hcall hvalid hview =>
      rw [hview]
      exact (htrailing.trails (hwas (by rw [hcall]; exact nofun))).afterRecord
        hvalid
  | reopened hcall hclosed hlog hview =>
      rw [hview]
      exact (View.trails_ofLog request.nowMs _ _).mono hclock

theorem trailing_run {requests : List Request} {latestMs : Int64}
    (hfaultless : ∀ request ∈ requests, request.environment.Faultless)
    (hclock : ∀ request ∈ requests, request.nowMs ≤ latestMs)
    (hstart : Trailing latestMs store) :
    Trailing latestMs (machine.run requests store).1 := by
  have halong : machine.Along (fun request _ =>
      request.environment.Faultless ∧ request.nowMs ≤ latestMs) requests store :=
    .of_forall (fun request hrequest _ =>
      ⟨hfaultless request hrequest, hclock request hrequest⟩) _
  have hstep : ∀ request before, Trailing latestMs before →
      request.environment.Faultless ∧ request.nowMs ≤ latestMs →
      Trailing latestMs (machine.step request before).1 :=
    fun _ _ hbefore hrequest => trailing_perform hbefore hrequest.2 hrequest.1
  exact Machine.run_invariant hstep halong hstart

/-- A buried key stays buried, if a restart finds that all its deadlines have passed. -/
theorem buried_perform {request : Request} {passed : Int64 → Prop}
    (hburied : store.view.Buried key passed)
    (hfaultless : request.environment.Faultless)
    (hunset : ¬ SetsKey key request store)
    (hpassed : request.call = .openStore → store.opened = false →
      ∀ expiresAtMs, passed expiresAtMs →
        isExpired expiresAtMs request.nowMs = true) :
    (store.perform request).1.view.Buried key passed := by
  have houtcome := faultless_cases hfaultless hburied.pending
  have hsets : ∀ value ttl, request.call = .set key value ttl →
      (store.perform request).2 ≠ .status .success :=
    fun value ttl hcall hreply => hunset ⟨value, ttl, hcall, hreply⟩
  generalize (store.perform request).1 = after at houtcome ⊢
  generalize (store.perform request).2 = reply at houtcome hsets
  cases houtcome with
  | upkeep hupkeeps _ => exact hburied.upkeeps hupkeeps
  | stored hcall hvalid hview =>
      rw [hview]
      exact hburied.afterRecord hvalid fun hkey =>
        absurd rfl (hsets _ _ (hkey ▸ hcall))
  | removed hcall hvalid hview =>
      rw [hview]
      exact hburied.afterRecord hvalid fun _ => rfl
  | reopened hcall hclosed hlog hview =>
      rw [hview]
      exact hburied.reopened (hpassed hcall hclosed) hlog _

theorem buried_run {requests : List Request} {passed : Int64 → Prop}
    (hburied : store.view.Buried key passed)
    (hfaultless : ∀ request ∈ requests, request.environment.Faultless)
    (hunset : machine.Along (fun request before => ¬ SetsKey key request before)
      requests store)
    (hpassed : machine.Along (fun request before =>
      request.call = .openStore → before.opened = false →
        ∀ expiresAtMs, passed expiresAtMs →
          isExpired expiresAtMs request.nowMs = true) requests store) :
    (machine.run requests store).1.view.Buried key passed := by
  have hworks : machine.Along
      (fun request _ => request.environment.Faultless) requests store :=
    .of_forall (fun request hrequest _ => hfaultless request hrequest) _
  have hstep : ∀ request before, before.view.Buried key passed →
      (request.environment.Faultless ∧ ¬ SetsKey key request before) ∧
        (request.call = .openStore → before.opened = false →
          ∀ expiresAtMs, passed expiresAtMs →
            isExpired expiresAtMs request.nowMs = true) →
      (machine.step request before).1.view.Buried key passed :=
    fun _ _ hbefore hrequest =>
      buried_perform hbefore hrequest.1.1 hrequest.1.2 hrequest.2
  exact Machine.run_invariant hstep ((hworks.and hunset).and hpassed) hburied

/-! ## What is reported gone is out of the index -/

/-- A `get` that finds a live entry never answers that there is none. -/
theorem code_getLive {metadata : RecordMetadata} {status : Status}
    (hget : (store.getLive environment key metadata).2 = .error status) :
    status.code ≠ .notFound := by
  have hfails := failsWith_getLive environment key metadata store
  rw [hget] at hfails
  rintro hcode
  rcases hfails with hamong | ⟨hthrown, -⟩
  · simp [hcode] at hamong
  · rw [hcode] at hthrown
    cases hthrown

theorem missing_of_find {nowMs : Int64}
    (hfind : store.find nowMs key = .missing) :
    store.index.lookup key = none := by
  cases hfound : store.index.lookup key with
  | none => rfl
  | some metadata =>
      cases hexpired : isExpired metadata.expiresAtMs nowMs with
      | true => cases (find_expired hfound hexpired).symm.trans hfind
      | false => cases (find_live hfound hexpired).symm.trans hfind

theorem missing_eraseIfExpired {nowMs : Int64}
    (hfind : store.find nowMs key = .expired) :
    (store.eraseIfExpired key nowMs).1.view.contents key = none := by
  rw [eraseIfExpired]
  cases hfound : store.index.lookup key with
  | none => exact View.contents_eq_none_iff.mpr hfound
  | some metadata =>
      cases hexpired : isExpired metadata.expiresAtMs nowMs with
      | true =>
          dsimp only
          rw [if_pos hexpired]
          exact View.missing_of_erase rfl
      | false => cases (find_live hfound hexpired).symm.trans hfind

theorem missing_of_get {status : Status}
    (hget : (store.get environment key).2 = .error status)
    (hstatus : status.code = .notFound) :
    (validateKey key).ok = true ∧
      (store.get environment key).1.view.contents key = none := by
  rw [get] at hget ⊢
  by_cases hopened : store.opened = true
  · rw [if_pos hopened] at hget ⊢
    by_cases hkey : (validateKey key).ok = true
    · rw [if_pos hkey] at hget ⊢
      dsimp only at hget ⊢
      refine ⟨hkey, ?_⟩
      split at hget
      next hfind => exact View.contents_eq_none_iff.mpr (missing_of_find hfind)
      next hfind => exact missing_eraseIfExpired hfind
      next metadata hfind => exact absurd hstatus (code_getLive hget)
    · rw [if_neg hkey] at hget
      cases hget
      rw [code_validateKey (mt (acceptedKey_iff key).mp hkey)] at hstatus
      cases hstatus
  · rw [if_neg hopened] at hget
    cases hget
    cases hstatus

theorem missing_of_removeSection (hkey : (validateKey key).ok = true)
    (hgone : (store.removeSection environment key).2.ok = true ∨
      (store.removeSection environment key).2.code = .notFound) :
    (store.removeSection environment key).1.view.contents key = none := by
  have houtcome := removeSection_cases environment key store
  generalize (store.removeSection environment key).1.view = view
    at houtcome ⊢
  generalize (store.removeSection environment key).2 = status
    at houtcome hgone
  cases houtcome with
  | missing hmissing => exact View.contents_eq_none_iff.mpr hmissing
  | expired => exact View.missing_of_erase rfl
  | removed => exact View.missing_of_erase rfl
  | failed metadata _ _ hfailed =>
      rcases hgone with hok | hnotFound
      · rw [hfailed.ok_eq] at hok
        cases hok
      · rcases hfailed.fails (valid_deleteRecord hkey) with
          hcode | ⟨hthrown, -⟩
        · rw [hcode] at hnotFound
          cases hnotFound
        · rw [hthrown] at hnotFound
          cases hnotFound

theorem missing_of_remove
    (hgone : (store.remove environment key).2.ok = true ∨
      (store.remove environment key).2.code = .notFound) :
    (validateKey key).ok = true ∧
      (store.remove environment key).1.view.contents key = none := by
  rw [remove] at hgone ⊢
  by_cases hopened : store.opened = true
  · rw [if_pos hopened] at hgone ⊢
    by_cases hkey : (validateKey key).ok = true
    · rw [if_pos hkey] at hgone ⊢
      exact ⟨hkey, missing_of_removeSection hkey hgone⟩
    · rw [if_neg hkey,
        code_validateKey (mt (acceptedKey_iff key).mp hkey)] at hgone
      rcases hgone with hok | hnotFound
      · exact absurd hok hkey
      · cases hnotFound
  · rw [if_neg hopened] at hgone
    rcases hgone with hok | hnotFound
    · cases hok
    · cases hnotFound

theorem missing_of_reported {request : Request}
    (hgone : ReportsGone key request.call (store.perform request).2) :
    (validateKey key).ok = true ∧
      (store.perform request).1.view.contents key = none := by
  obtain ⟨environment, call⟩ := request
  generalize hreply : (store.perform ⟨environment, call⟩).2 = reply at hgone
  cases hgone with
  | removed hstatus =>
      cases hreply
      exact missing_of_remove (Or.inl hstatus)
  | removedNothing hstatus =>
      cases hreply
      exact missing_of_remove (Or.inr hstatus)
  | gotNothing hstatus =>
      exact missing_of_get (Reply.value.inj hreply) hstatus

theorem get_of_missing (hopened : store.opened = true)
    (hkey : (validateKey key).ok = true)
    (hmissing : store.view.contents key = none) :
    (store.get environment key).2 =
      .error (.notFound "key does not exist") := by
  let counted := { store with getOperations := store.getOperations + 1 }
  have hfind : counted.find environment.nowMs key = .missing :=
    find_missing (View.contents_eq_none_iff.mp hmissing)
  rw [get, if_pos hopened, if_pos hkey]
  dsimp only
  rw [hfind]

/-- Only an open store reports a key gone. -/
theorem opened_of_reported {request : Request}
    (hgone : ReportsGone key request.call (store.perform request).2) :
    store.opened = true := by
  obtain ⟨environment, call⟩ := request
  by_contra hclosed
  have hremove : (store.remove environment key).2 =
      .closed "store is not open" := by rw [remove, if_neg hclosed]
  have hget : (store.get environment key).2 =
      .error (.closed "store is not open") := by rw [get, if_neg hclosed]
  generalize hreply : (store.perform ⟨environment, call⟩).2 = reply at hgone
  cases hgone with
  | removed hstatus =>
      cases hreply
      rw [hremove] at hstatus
      cases hstatus
  | removedNothing hstatus =>
      cases hreply
      rw [hremove] at hstatus
      cases hstatus
  | gotNothing hstatus =>
      cases hget.symm.trans (Reply.value.inj hreply)
      cases hstatus

/-- A key that was reported gone is buried under the readings of the run. -/
theorem buried_of_reported {request : Request} {latestMs : Int64}
    (htrailing : Trailing latestMs store) (hclock : request.nowMs ≤ latestMs)
    (hfaultless : request.environment.Faultless)
    (hgone : ReportsGone key request.call (store.perform request).2) :
    (store.perform request).1.view.Buried key
      fun expiresAtMs => isExpired expiresAtMs latestMs = true := by
  have hoperates : request.call.Operates := by
    generalize (store.perform request).2 = reply at hgone
    generalize request.call = call at hgone ⊢
    cases hgone <;> exact ⟨nofun, nofun⟩
  have hopened : (store.perform request).1.opened = true :=
    (opened_perform hoperates).trans (opened_of_reported hgone)
  exact ((trailing_perform htrailing hclock hfaultless).trails hopened).buried
    (missing_of_reported hgone).2

/-- A key that was removed is buried under its Delete record. -/
theorem buried_of_removes {request : Request} {latestMs : Int64}
    (htrailing : Trailing latestMs store)
    (hremoves : Removes key request store) :
    (store.perform request).1.view.Buried key fun _ => False := by
  obtain ⟨environment, call⟩ := request
  obtain ⟨hcall, hreply⟩ := hremoves
  cases hcall
  have hopened : store.opened = true :=
    opened_of_reported (show ReportsGone key _ _ by
      rw [hreply]
      exact .removed rfl)
  have hstatus : (store.remove environment key).2 = .success :=
    Reply.status.inj hreply
  change (store.remove environment key).1.view.Buried key _
  rw [remove, if_pos hopened] at hstatus ⊢
  split at hstatus
  next hkey =>
    rw [if_pos hkey]
    have houtcome := removeSection_cases environment key store
    generalize (store.removeSection environment key).1.view = view
      at houtcome ⊢
    generalize (store.removeSection environment key).2 = status
      at houtcome hstatus
    cases houtcome with
    | missing => cases hstatus
    | expired => cases hstatus
    | removed metadata _ _ hvalid _ _ =>
        rw [View.settled_of_pending htrailing.pending]
        exact (htrailing.trails hopened).buried_afterRecord hvalid rfl
    | failed metadata _ _ hfailed =>
        have hfails := hfailed.ok_eq
        rw [hstatus] at hfails
        cases hfails
  next hkey =>
    exact absurd (congrArg Status.ok hstatus) hkey

/-- A latest one of some readings. -/
theorem exists_latest {readings : List Int64} (hsome : readings ≠ []) :
    ∃ latestMs ∈ readings, ∀ reading ∈ readings, reading ≤ latestMs := by
  induction readings with
  | nil => exact absurd rfl hsome
  | cons reading readings ih =>
      by_cases hlast : readings = []
      · rw [hlast]
        exact ⟨reading, by simp, by simp⟩
      · obtain ⟨latestMs, hlatest, hbound⟩ := ih hlast
        rcases Int64.le_total reading latestMs with hle | hle
        · exact ⟨latestMs, List.mem_cons_of_mem _ hlatest,
            List.forall_mem_cons.mpr ⟨hle, hbound⟩⟩
        · exact ⟨reading, List.mem_cons_self,
            List.forall_mem_cons.mpr ⟨Int64.le_refl _, fun other hother =>
              Int64.le_trans (hbound other hother) hle⟩⟩

/-- In every run without I/O failure from a new store, whatever the clock
reads: a key that was reported gone is not found on an open store until a `set`
of the key succeeds, if `remove` has removed it, and otherwise as long as no
reopening behind the report reads the clock earlier than it was read up to the
report. -/
theorem reported_gone_stays_gone (config : StoreConfig)
    (data temporary : Option Bytes) {earlier requests : List Request}
    {report : Request}
    (hfaultless : ∀ request ∈ earlier ++ report :: requests,
      request.environment.Faultless)
    {store : KeyValueStore}
    (hstore : (machine.run earlier (new config data temporary)).1 = store)
    (hgone : ReportsGone key report.call (store.perform report).2)
    (hunset : machine.Along (fun request before => ¬ SetsKey key request before)
      requests (store.perform report).1)
    (hreopens : Removes key report store ∨
      machine.Along (ReopensBehind ((earlier ++ [report]).map Request.nowMs))
        requests (store.perform report).1)
    (hopened : (machine.run requests (store.perform report).1).1.opened = true)
    (later : Environment) :
    ((machine.run requests (store.perform report).1).1.get later key).2 =
      .error (.notFound "key does not exist") := by
  rw [List.forall_mem_append, List.forall_mem_cons] at hfaultless
  obtain ⟨hearlier, hreport, hrequests⟩ := hfaultless
  obtain ⟨latestMs, hlatest, hbound⟩ :=
    exists_latest (show (earlier ++ [report]).map Request.nowMs ≠ [] by simp)
  rw [List.forall_mem_map, List.forall_mem_append] at hbound
  have hclock : report.nowMs ≤ latestMs :=
    hbound.2 report (List.mem_singleton_self report)
  have hnew : Trailing latestMs (new config data temporary) :=
    ⟨rfl, fun hopens => by cases hopens⟩
  have htrailing : Trailing latestMs store :=
    hstore ▸ trailing_run hearlier hbound.1 hnew
  have hmissing : (machine.run requests (store.perform report).1).1.view.contents
      key = none := by
    rcases hreopens with hremoves | hbehind
    · have hburied := buried_of_removes htrailing hremoves
      exact (buried_run hburied hrequests hunset
        (.of_forall (fun _ _ _ _ _ _ => False.elim) _)).missing
    · have hburied := buried_of_reported htrailing hclock hreport hgone
      refine (buried_run hburied hrequests hunset ?_).missing
      exact hbehind.imp fun request before hreopens hcall hclosed _ hexpired =>
        isExpired_mono hexpired (hreopens hcall hclosed latestMs hlatest)
  exact get_of_missing hopened (missing_of_reported hgone).1 hmissing

/-- A store in which one key expires at 7. -/
def expiringAtSeven : KeyValueStore :=
  (machine.run [⟨.calm 1, .openStore⟩,
    ⟨.calm 2, .set [97] [98] (some 5)⟩] (new .small none none)).1

/-- A restart behind the expiry, and the clock goes back then. -/
theorem reported_gone_stays_gone_behind_expiry :
    let report : Request := ⟨.calm 10, .get [97]⟩
    let requests : List Request :=
      [⟨.calm 3, .close⟩, ⟨.calm 10, .openStore⟩, ⟨.calm 1, .compact⟩]
    let reopened := (machine.run requests
      (expiringAtSeven.perform report).1).1
    (reopened.get (.calm 0) [97]).2 =
      .error (.notFound "key does not exist") := by
  intro report requests reopened
  have hgone : ReportsGone [97] report.call
      (expiringAtSeven.perform report).2 := by
    have hreply : (expiringAtSeven.perform report).2 =
        .value (.error (.notFound "key has expired")) :=
      congrArg Reply.value (by decide +kernel)
    rw [hreply]
    exact .gotNothing rfl
  have hfaultless : ∀ request ∈ [⟨.calm 1, .openStore⟩,
      ⟨.calm 2, .set [97] [98] (some 5)⟩] ++ report :: requests,
      request.environment.Faultless := by
    simp [report, requests, Environment.faultless_calm]
  have hunset : machine.Along
      (fun request before => ¬ SetsKey [97] request before) requests
      (expiringAtSeven.perform report).1 := by
    apply Machine.Along.of_forall
    intro request hrequest before hsets
    obtain ⟨value, ttl, hcall, -⟩ := hsets
    simp only [requests, List.mem_cons, List.not_mem_nil, or_false] at hrequest
    rcases hrequest with rfl | rfl | rfl <;> cases hcall
  have hlatest : ∀ reading ∈ ([1, 2, 10] : List Int64), reading ≤ 10 := by
    simp only [List.forall_mem_cons]
    exact ⟨by decide, by decide, by decide, List.forall_mem_nil _⟩
  have hreopens : machine.Along (ReopensBehind [1, 2, 10]) requests
      (expiringAtSeven.perform report).1 :=
    ⟨nofun, fun _ _ => hlatest, nofun, trivial⟩
  have hopened : (machine.run requests
      (expiringAtSeven.perform report).1).1.opened = true := by
    decide +kernel
  have hstore : (machine.run [⟨.calm 1, .openStore⟩,
      ⟨.calm 2, .set [97] [98] (some 5)⟩] (new .small none none)).1 =
      expiringAtSeven := by rw [expiringAtSeven]
  exact reported_gone_stays_gone .small none none hfaultless hstore hgone
    hunset (Or.inr hreopens) hopened (.calm 0)

/-- The clock goes back behind the expiry before the restart. -/
theorem reported_gone_comes_back :
    let gone := expiringAtSeven.get (.calm 10) [97]
    let reopened := (machine.run
      [⟨.calm 11, .close⟩, ⟨.calm 3, .openStore⟩] gone.1).1
    gone.2 = .error (.notFound "key has expired") ∧
      (reopened.get (.calm 3) [97]).2 = .ok [98] := by
  decide +kernel

end KeyValueStore

end MiniKV
