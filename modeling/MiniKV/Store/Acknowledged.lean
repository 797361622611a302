import MiniKV.Store.LogLedger
import MiniKV.Store.PutArea

/-!
# Acknowledged writes behind a failed append

Every append seeks to the physical end of the file, so what a failed append left
there stays where it is, and what the put area holds of it comes behind.  As
long as nothing is written behind a part of a record, such a part is a tail that
the next opening drops, and every acknowledged write survives.
-/

namespace MiniKV

open AppendOnlyStore (recordBytes drained)

/-- The record that a `set` or a `remove` is to append. -/
def Request.record (request : Request) : Option Record :=
  match request.call with
  | .set key value ttl =>
      some ⟨.set, key, value, KeyValueStore.deadline request.nowMs ttl⟩
  | .remove key => some (KeyValueStore.deleteRecord key)
  | _ => none

namespace KeyValueStore

/-- The call passes its checks and comes to its append. -/
def Appends (request : Request) (store : KeyValueStore) : Prop :=
  match request.call with
  | .set key value ttl => (validateSet key value ttl).ok = true
  | .remove key => (validateKey key).ok = true ∧
      ∃ metadata, store.find request.nowMs key = .live metadata
  | _ => False

/-- The seek of an append works. -/
def Seeks (request : Request) (store : KeyValueStore) : Prop :=
  store.storage.pending = [] ∨ request.environment.append.drain = none

/-- What the append of a call writes does not come behind a part of a record:
the bytes that an earlier append has left in the put area, and those of its own
record. -/
def AtBoundary (request : Request) (store : KeyValueStore) : Prop :=
  Appends request store →
    Fits store.storage.bytes
      (drained request.environment.append.drain store.storage.pending) ∧
    (Seeks request store →
      (request.environment.append.fault = none →
        WholeLog (store.storage.bytes ++ store.storage.pending)) ∧
      ∀ torn record, request.environment.append.fault = some torn →
        request.record = some record →
        Fits (store.storage.bytes ++ store.storage.pending)
          (torn.written (recordBytes record)))

/-- What a call that writes does to the file and answers. -/
inductive Written (request : Request) (record : Record)
    (store : KeyValueStore) : KeyValueStore → Reply → Prop
  | refused (after : KeyValueStore) (status : Status)
      (hstatus : status.ok = false)
      (hbytes : after.storage.bytes = store.storage.bytes)
      (hpending : after.storage.pending = store.storage.pending)
      (hupkeeps : Upkeeps request.nowMs store.view after.view) :
      Written request record store after (.status status)
  | failed (after : KeyValueStore) (status : Status)
      (happends : Appends request store) (hvalid : record.Valid)
      (hfailed : AppendFailed request.environment record store.view after.view
        status) :
      Written request record store after (.status status)
  | written (after : KeyValueStore) (happends : Appends request store)
      (hvalid : record.Valid)
      (hfault : request.environment.append.fault = none)
      (hdrain : store.storage.pending = [] ∨
        request.environment.append.drain = none)
      (hview : after.view = store.view.settled.afterRecord record hvalid) :
      Written request record store after (.status .success)

variable {store : KeyValueStore} {request : Request} {record : Record}

theorem written_set {environment : Environment} {key value : Bytes}
    {ttl : Option Int64} (hopened : store.opened = true) :
    Written ⟨environment, .set key value ttl⟩
      ⟨.set, key, value, deadline environment.nowMs ttl⟩ store
      (store.set environment key value ttl).1
      (.status (store.set environment key value ttl).2) := by
  rw [set, if_pos hopened]
  by_cases hvalidates : (validateSet key value ttl).ok = true
  · rw [if_pos hvalidates]
    have houtcome := setSection_cases environment key value
      (deadline environment.nowMs ttl) hopened
    generalize store.setSection environment key value
      (deadline environment.nowMs ttl) = result at houtcome ⊢
    obtain ⟨after, status⟩ := result
    dsimp only at houtcome ⊢
    generalize hview : after.view = view at houtcome
    cases houtcome with
    | stored hvalid hfault hdrain =>
        exact .written after hvalidates hvalid hfault hdrain hview
    | failed hfailed =>
        rw [← hview] at hfailed
        exact .failed after status hvalidates
          (valid_of_validateSet hvalidates _) hfailed
  · rw [if_neg hvalidates]
    exact .refused _ _ (Bool.not_eq_true _ ▸ hvalidates) rfl rfl .refl

theorem written_remove {environment : Environment} {key : Bytes}
    (hopened : store.opened = true) :
    Written ⟨environment, .remove key⟩ (deleteRecord key) store
      (store.remove environment key).1
      (.status (store.remove environment key).2) := by
  rw [remove, if_pos hopened]
  by_cases hkey : (validateKey key).ok = true
  · rw [if_pos hkey]
    have houtcome := removeSection_cases environment key store
    generalize store.removeSection environment key = result at houtcome ⊢
    obtain ⟨after, status⟩ := result
    dsimp only at houtcome ⊢
    generalize hview : after.view = view at houtcome
    have hbytes : after.storage.bytes = view.bytes :=
      congrArg View.bytes hview
    have hpending : after.storage.pending = view.pending :=
      congrArg View.pending hview
    cases houtcome with
    | missing hmissing =>
        exact .refused after _ rfl hbytes hpending (hview ▸ .refl)
    | expired metadata hfound hexpired =>
        have hdropped : Upkeep environment.nowMs store.view after.view :=
          hview ▸ .dropped store.view key metadata hfound hexpired
        exact .refused after _ rfl hbytes hpending (.single hdropped)
    | removed metadata hfound hlive hvalid hfault hdrain =>
        exact .written after ⟨hkey, metadata, find_live hfound hlive⟩ hvalid
          hfault hdrain hview
    | failed metadata hfound hlive hfailed =>
        rw [← hview] at hfailed
        exact .failed after status ⟨hkey, metadata, find_live hfound hlive⟩
          (valid_deleteRecord hkey) hfailed
  · rw [if_neg hkey]
    exact .refused _ _ (Bool.not_eq_true _ ▸ hkey) rfl rfl .refl

theorem written_perform (hopened : store.opened = true)
    (hrecord : request.record = some record) :
    Written request record store (store.perform request).1
      (store.perform request).2 := by
  obtain ⟨environment, call⟩ := request
  cases call with
  | set key value ttl =>
      cases hrecord
      exact written_set hopened
  | remove key =>
      cases hrecord
      exact written_remove hopened
  | _ => cases hrecord

theorem operates_of_record (hrecord : request.record = some record) :
    request.call.Operates := by
  obtain ⟨environment, call⟩ := request
  cases call with
  | set key value ttl => exact ⟨nofun, nofun⟩
  | remove key => exact ⟨nofun, nofun⟩
  | _ => cases hrecord

/-! ## One call at a boundary -/

/-- An open store whose file is a log of these records with an unfinished tail,
and whose put area holds a part of a record of this kind at most. -/
structure LoggedWith (kind : Record → Prop) (entries : List LogEntry)
    (store : KeyValueStore) : Prop where
  opened : store.opened = true
  log : ∃ tail, LogWithTail entries tail store.storage.bytes
  held : RecordPart kind store.storage.pending

section Boundary

variable {kind : Record → Prop} {entries : List LogEntry}

/-- Behind a seek that works. -/
theorem LoggedWith.settled (hlogged : LoggedWith kind entries store)
    (hfits : Fits store.storage.bytes store.storage.pending) :
    ∃ grown tail, LogWithTail grown tail
        (store.storage.bytes ++ store.storage.pending) ∧
      GrownBy kind entries grown := by
  obtain ⟨tail, hlog⟩ := hlogged.log
  exact hlogged.held.logWithTail hlog hfits

/-- A seek that works drains what there is to drain. -/
theorem drained_of_seeks {fault : Option ℕ} {pending : Bytes}
    (hdrain : pending = [] ∨ fault = none) :
    drained fault pending = pending := by
  rcases hdrain with rfl | rfl
  · exact AppendOnlyStore.drained_nil fault
  · exact AppendOnlyStore.drained_none pending

/-- A failing append adds a part of a record at most. -/
theorem logged_failed (hlogged : LoggedWith kind entries store)
    (hrecord : request.record = some record)
    (hvalid : record.Valid) (hkind : kind record)
    (happends : Appends request store) (hboundary : AtBoundary request store)
    {after : View} {status : Status}
    (hfailed : AppendFailed request.environment record store.view after
      status) :
    ∃ grown tail, LogWithTail grown tail after.bytes ∧
      RecordPart kind after.pending ∧ GrownBy kind entries grown := by
  obtain ⟨hseek, hown⟩ := hboundary happends
  cases hfailed with
  | unsought rest _ hrest =>
      obtain ⟨tail, hlog⟩ := hlogged.log
      have hpart : RecordPart kind rest ∧
          Fits store.storage.bytes rest := by
        rcases hrest with rfl | ⟨count, hdrain, rfl⟩
        · exact ⟨.nil, fun hne => absurd rfl hne⟩
        · rw [hdrain] at hseek
          exact ⟨hlogged.held.of_prefix (List.take_prefix _ _), hseek⟩
      obtain ⟨grown, remains, hgrown, hadded⟩ :=
        hpart.1.logWithTail hlog hpart.2
      exact ⟨grown, remains, hgrown, hlogged.held, hadded⟩
  | torn torn _ htorn _ _ hdrain =>
      have hdrains : store.storage.pending = [] ∨
        request.environment.append.drain = none := hdrain
      rw [drained_of_seeks hdrains] at hseek
      obtain ⟨grown, tail, hlog, hadded⟩ := hlogged.settled hseek
      have hfits : Fits (store.storage.bytes ++ store.storage.pending)
          (torn.written (recordBytes record)) := by
        rcases htorn with ⟨-, hinvalid⟩ | hfault
        · exact absurd hvalid hinvalid
        · exact (hown hdrains).2 torn record hfault hrecord
      obtain ⟨last, remains, hlast, hown⟩ :=
        (RecordPart.take hvalid hkind torn.left).logWithTail hlog hfits
      refine ⟨last, remains, hlast, .take hvalid hkind torn.held, ?_⟩
      obtain ⟨added, rfl, hadded⟩ := hadded
      obtain ⟨others, rfl, hothers⟩ := hown
      refine ⟨added ++ others, List.append_assoc _ _ _, fun entry hentry => ?_⟩
      exact (List.mem_append.mp hentry).elim (hadded entry) (hothers entry)

/-- One call at a boundary keeps the file a log, and an acknowledged record is
its last one. -/
theorem logged_perform (hlogged : LoggedWith kind entries store)
    (hrecord : request.record = some record) (hkind : kind record)
    (hboundary : AtBoundary request store) :
    ∃ grown status, LoggedWith kind grown (store.perform request).1 ∧
      GrownBy kind entries grown ∧
      (store.perform request).2 = .status status ∧
      (status.ok = true → (store.perform request).1.storage.pending = [] ∧
        ∃ others entry, grown = others ++ [entry] ∧ entry.record = record) := by
  have hstays := (opened_perform (operates_of_record hrecord)).trans
    hlogged.opened
  have hwritten := written_perform hlogged.opened hrecord
  generalize (store.perform request).1 = after at hwritten hstays ⊢
  generalize (store.perform request).2 = reply at hwritten ⊢
  have hunacknowledged : ∀ {status : Status}, status.ok = false →
      status.ok = true → after.storage.pending = [] ∧
        ∃ others entry, entries = others ++ [entry] ∧ entry.record = record :=
    fun hfailed hok => by rw [hfailed] at hok; cases hok
  cases hwritten with
  | refused status hstatus hbytes hpending hupkeeps =>
      obtain ⟨tail, hlog⟩ := hlogged.log
      exact ⟨entries, status, ⟨hstays, ⟨tail, hbytes ▸ hlog⟩,
        hpending ▸ hlogged.held⟩, .refl entries, rfl, hunacknowledged hstatus⟩
  | failed status happends hvalid hfailed =>
      obtain ⟨grown, tail, hlog, hheld, hadded⟩ :=
        logged_failed hlogged hrecord hvalid hkind happends hboundary hfailed
      refine ⟨grown, status, ⟨hstays, ⟨tail, hlog⟩, hheld⟩, hadded, rfl,
        fun hok => ?_⟩
      rw [hfailed.ok_eq] at hok
      cases hok
  | written happends hvalid hfault hdrain hview =>
      have hbytes := congrArg View.bytes hview
      have hpending : after.storage.pending = [] :=
        (congrArg View.pending hview).trans (View.pending_afterRecord hvalid)
      rw [View.bytes_afterRecord] at hbytes
      change after.storage.bytes = store.storage.bytes ++ store.storage.pending ++
        recordBytes record at hbytes
      obtain ⟨hseek, hown⟩ := hboundary happends
      rw [drained_of_seeks hdrain] at hseek
      obtain ⟨grown, tail, hlog, hadded⟩ := hlogged.settled hseek
      have hwhole := ((hown hdrain).1 hfault).eq_imageAll hlog
      rw [hwhole, ← imageAll_concat_ofRecord grown hvalid] at hbytes
      refine ⟨grown ++ [.ofRecord record hvalid], .success,
        ⟨hstays, ⟨[], hbytes ▸ logWithTail_imageAll _⟩, ?_⟩,
        hadded.concat hkind, rfl, fun _ => ⟨hpending, grown, _, rfl, rfl⟩⟩
      rw [hpending]
      exact .nil

end Boundary

/-! ## Runs of writing calls -/

/-- An open store whose file is a log with an unfinished tail. -/
def Logged (store : KeyValueStore) : Prop :=
  ∃ entries, LoggedWith (fun _ => True) entries store

/-- The last whole record of a key in the data file.  The put area holds
nothing of a later one. -/
def LastLogged (key : Bytes) (record : Record) (store : KeyValueStore) :
    Prop :=
  ∃ entries offset entry,
    LoggedWith (fun other => other.key ≠ key) entries store ∧
      lastEntry key entries = some (offset, entry) ∧ entry.record = record

/-- A call of the run: it writes, and at a boundary. -/
def Writes (request : Request) (store : KeyValueStore) : Prop :=
  request.record.isSome ∧ AtBoundary request store

theorem logged_step (hlogged : Logged store) (hwrites : Writes request store) :
    Logged (store.perform request).1 := by
  obtain ⟨entries, hlogged⟩ := hlogged
  obtain ⟨hsome, hboundary⟩ := hwrites
  obtain ⟨record, hrecord⟩ := Option.isSome_iff_exists.mp hsome
  obtain ⟨grown, status, hgrown, -⟩ :=
    logged_perform hlogged hrecord trivial hboundary
  exact ⟨grown, hgrown⟩

/-- An acknowledged call leaves its record as the last one of its key. -/
theorem lastLogged_of_acknowledged (hlogged : Logged store)
    (hrecord : request.record = some record)
    (hboundary : AtBoundary request store) {status : Status}
    (hreply : (store.perform request).2 = .status status)
    (hstatus : status.ok = true) :
    LastLogged record.key record (store.perform request).1 := by
  obtain ⟨entries, hlogged⟩ := hlogged
  obtain ⟨grown, other, hgrown, -, hother, hacknowledged⟩ :=
    logged_perform hlogged hrecord trivial hboundary
  rw [hreply] at hother
  cases hother
  obtain ⟨hpending, others, entry, rfl, rfl⟩ := hacknowledged hstatus
  refine ⟨_, logSize others, entry, ⟨hgrown.opened, hgrown.log, ?_⟩, ?_, rfl⟩
  · rw [hpending]
    exact .nil
  · rw [lastEntry_concat, if_pos rfl]

/-- Calls on other keys leave it there. -/
theorem lastLogged_step {key : Bytes} {last : Record}
    (hlast : LastLogged key last store) (hwrites : Writes request store)
    (hother : ∀ record, request.record = some record → record.key ≠ key) :
    LastLogged key last (store.perform request).1 := by
  obtain ⟨entries, offset, entry, hlogged, hfound, rfl⟩ := hlast
  obtain ⟨hsome, hboundary⟩ := hwrites
  obtain ⟨record, hrecord⟩ := Option.isSome_iff_exists.mp hsome
  obtain ⟨grown, status, hgrown, hadded, -⟩ :=
    logged_perform hlogged hrecord (hother record hrecord) hboundary
  exact ⟨grown, offset, entry, hgrown, hadded.lastEntry_eq.trans hfound, rfl⟩

theorem logged_run {requests : List Request} (hlogged : Logged store)
    (hwrites : machine.Along Writes requests store) :
    Logged (machine.run requests store).1 :=
  Machine.run_invariant (fun _ _ => logged_step) hwrites hlogged

theorem lastLogged_run {requests : List Request} {key : Bytes} {last : Record}
    (hlast : LastLogged key last store)
    (hwrites : machine.Along Writes requests store)
    (hother : ∀ request ∈ requests, ∀ record,
      request.record = some record → record.key ≠ key) :
    LastLogged key last (machine.run requests store).1 := by
  have halong := hwrites.and (Machine.Along.of_forall
    (fun request hrequest _ => hother request hrequest) store)
  have hstep : ∀ request before, LastLogged key last before →
      (Writes request before ∧ ∀ record, request.record = some record →
        record.key ≠ key) →
      LastLogged key last (machine.step request before).1 :=
    fun _ _ hbefore hrequest => lastLogged_step hbefore hrequest.1 hrequest.2
  exact Machine.run_invariant hstep halong hlast

/-! ## Restarting behind such a run -/

/-- A restart finds a log, and the last records of the keys that the put area
does not hold. -/
theorem logWithTail_restart (hlogged : Logged store) {how : Restart}
    (hfits : Fits store.storage.bytes (how.written store.storage.pending)) :
    ∃ entries tail,
      LogWithTail entries tail (store.restart how).storage.bytes ∧
      ∀ key record, LastLogged key record store → ∃ offset entry,
        lastEntry key entries = some (offset, entry) ∧
          entry.record = record := by
  have hbytes := bytes_restart how store
  have hleads : how.written store.storage.pending <+:
      store.storage.pending := by
    cases how with
    | closed => exact List.nil_prefix
    | died config => exact List.nil_prefix
    | exited config drain => exact AppendOnlyStore.drained_prefix drain _
  obtain ⟨others, -, ⟨otherTail, hothers⟩, hheld⟩ := hlogged
  obtain ⟨entries, tail, hentries, -⟩ :=
    (hheld.of_prefix hleads).logWithTail hothers hfits
  rw [← hbytes] at hentries
  refine ⟨entries, tail, hentries, fun key record hlast => ?_⟩
  obtain ⟨earlier, offset, entry, ⟨-, ⟨_, hearlier⟩, hpart⟩, hfound, hrecord⟩ :=
    hlast
  obtain ⟨grown, remains, hgrown, hadded⟩ :=
    (hpart.of_prefix hleads).logWithTail hearlier hfits
  rw [← hbytes] at hgrown
  obtain ⟨rfl, -⟩ := hgrown.unique hentries
  exact ⟨offset, entry, hadded.lastEntry_eq.trans hfound, hrecord⟩

/-- A restart shows what the last record of a key says. -/
theorem get_of_lastEntry {key : Bytes} {entries : List LogEntry}
    {offset : ℕ} {entry : LogEntry}
    (hfound : lastEntry key entries = some (offset, entry))
    {later : Environment} (hlater : later.Reliable) {reopened : KeyValueStore}
    (hopened : reopened.opened = true) {tail : Bytes} {before : View}
    (hview : reopened.view = before.reopened later.nowMs entries tail) :
    (entry.record.operation = .set →
      isExpired entry.record.expiresAtMs later.nowMs = false →
      (reopened.get later key).2 = .ok entry.record.value) ∧
    (entry.record.operation = .delete →
      (reopened.get later key).2 =
        .error (.notFound "key does not exist")) := by
  obtain ⟨earlier, -, hlastFor⟩ := lastEntry_eq_some_iff.mp hfound
  have hcoherent : reopened.view.Coherent := by
    rw [hview]
    exact View.coherent_reopened _ _ _ _
  constructor
  · intro hset hfresh
    apply get_of_contents hlater hopened hcoherent ?_ hfresh
    rw [hview, View.contents_reopened, View.contents_ofLog]
    exact ⟨earlier, entry, hlastFor, ⟨hset, hfresh⟩, rfl, rfl⟩
  · intro hdelete
    have hkey : (validateKey key).ok = true := by
      rw [validateKey_ok_iff, ← hlastFor.1]
      exact ⟨entry.valid.key_ne_nil, entry.valid.key_size⟩
    have hmissing : reopened.view.contents key = none := by
      rw [View.contents_eq_none_iff, hview]
      change (replay later.nowMs entries).lookup key = none
      rw [lookup_replay, hfound]
      apply if_neg
      rintro ⟨hset, -⟩
      rw [hdelete] at hset
      cases hset
    rw [get_answer hlater.openAnswers (hlater.read key) hopened hkey hcoherent,
      View.answer, hmissing]

/-- In every run of `set` and `remove` calls that writes nothing behind a part of
a record, whatever appends fail: opening the store again succeeds and shows every
acknowledged write that no later call on its key follows. -/
theorem acknowledged_writes_survive (config : StoreConfig)
    (data temporary : Option Bytes) (opening : Environment)
    (hopening : opening.Reliable)
    (hopens : ((new config data temporary).openStore opening).2.ok = true)
    (requests : List Request)
    (hwrites : ∀ request ∈ requests, request.record.isSome)
    (hboundary : machine.Along AtBoundary requests
      ((new config data temporary).openStore opening).1)
    (how : Restart)
    (later : Environment) (hlater : later.Reliable) :
    let start := ((new config data temporary).openStore opening).1
    let final := (machine.run requests start).1
    let fresh := final.restart how
    Fits final.storage.bytes (how.written final.storage.pending) →
    0 < fresh.config.cleanupIntervalMs →
    ∃ reopened, fresh.openStore later = (reopened, .success) ∧
      ∀ earlier request following status record,
        requests = earlier ++ request :: following →
        request.record = some record →
        (∀ other ∈ following, ∀ otherRecord,
          other.record = some otherRecord → otherRecord.key ≠ record.key) →
        (perform request (machine.run earlier start).1).2 = .status status →
        status.ok = true →
        (record.operation = .set →
          isExpired record.expiresAtMs later.nowMs = false →
          (reopened.get later record.key).2 = .ok record.value) ∧
        (record.operation = .delete →
          (reopened.get later record.key).2 =
            .error (.notFound "key does not exist")) := by
  intro start final fresh hfits hinterval
  have hlogged : Logged start := by
    obtain ⟨entries, tail, -, hview, hopened⟩ :=
      openStore_ok hopening rfl hopens
    rw [View.reopened_of_pending rfl] at hview
    have hbytes : start.storage.bytes = logFormat.imageAll entries :=
      congrArg View.bytes hview
    have hpending : start.storage.pending = [] := congrArg View.pending hview
    refine ⟨entries, hopened, ⟨[], hbytes ▸ logWithTail_imageAll entries⟩, ?_⟩
    rw [hpending]
    exact .nil
  have halong : machine.Along Writes requests start :=
    (Machine.Along.of_forall (fun request hrequest _ =>
      hwrites request hrequest) start).and hboundary
  obtain ⟨entries, tail, hlog, hlasts⟩ :=
    logWithTail_restart (logged_run hlogged halong) hfits
  obtain ⟨reopened, hresult, hview, hopened, -⟩ :=
    openStore_log hlater (opened_restart how final) hinterval hlog
  refine ⟨reopened, hresult, ?_⟩
  intro earlier request following status record hsplit hrecord hother hreply
    hstatus
  rw [hsplit, Machine.along_append] at halong
  obtain ⟨hearlier, hwritten, hfollowing⟩ := halong
  have hlast := lastLogged_of_acknowledged (logged_run hlogged hearlier)
    hrecord hwritten.2 hreply hstatus
  have hfinal := lastLogged_run hlast hfollowing hother
  have hrun : final = (machine.run following (machine.step request
      (machine.run earlier start).1).1).1 := by
    change (machine.run requests start).1 = _
    rw [hsplit, Machine.run_append, Machine.run_cons]
  change LastLogged _ _ (machine.run following (machine.step request
    (machine.run earlier start).1).1).1 at hfinal
  rw [← hrun] at hfinal
  obtain ⟨offset, entry, hfound, rfl⟩ := hlasts _ _ hfinal
  exact get_of_lastEntry hfound hlater hopened hview

/-- A write that succeeds, and then one on another key whose record stays in the
put area and is written as the process ends. -/
theorem acknowledged_write_survives_held_write :
    let requests : List Request :=
      [⟨.calm 1, .set [97] [98] none⟩,
        ⟨{ nowMs := 2, append := { flush := some ⟨0, 29⟩ } },
          .set [99] [] none⟩]
    let start := ((new .small none none).openStore (.calm 0)).1
    let final := (machine.run requests start).1
    let fresh := final.restart (.exited .small none)
    ∃ reopened, fresh.openStore (.calm 3) = (reopened, .success) ∧
      (reopened.get (.calm 3) [97]).2 = .ok [98] := by
  intro requests start final fresh
  have hcalm := fun nowMs => (Environment.faultless_calm nowMs).toReliable
  have hboundary : machine.Along AtBoundary requests start := by
    refine ⟨fun _ => ⟨fun hdrained => absurd ?_ hdrained,
      fun _ => ⟨fun _ => ⟨[], by decide +kernel⟩, nofun⟩⟩,
      fun _ => ⟨fun hdrained => absurd ?_ hdrained,
      fun _ => ⟨nofun, ?_⟩⟩, trivial⟩
    · decide +kernel
    · decide +kernel
    · rintro torn record ⟨⟩ - hwritten
      exact absurd rfl hwritten
  have hfits : Fits final.storage.bytes
      (Restart.written (.exited .small none) final.storage.pending) :=
    fun _ => Or.inl ⟨[.ofRecord ⟨.set, [97], [98], 0⟩ (by decide)],
      by decide +kernel⟩
  obtain ⟨reopened, hresult, hsurvives⟩ := acknowledged_writes_survive .small
    none none (.calm 0) (hcalm 0) (by decide +kernel) requests
    (by decide) hboundary (.exited .small none) (.calm 3) (hcalm 3) hfits
    (by decide)
  refine ⟨reopened, hresult, ?_⟩
  have hreply : (perform ⟨.calm 1, .set [97] [98] none⟩ start).2 =
      .status .success :=
    congrArg Reply.status (by decide +kernel)
  exact (hsurvives [] _ _ .success ⟨.set, [97], [98], 0⟩ rfl rfl (by decide)
    hreply rfl).1 rfl (by decide)

/-- One byte that a failed `set` leaves makes the next, successful one
unreadable, and the file with it. -/
theorem write_behind_torn_write_is_lost :
    let start := ((new .small none none).openStore (.calm 0)).1
    let torn := (start.set { nowMs := 1, append := { flush := some ⟨1, 30⟩ } }
      [97] [98] none).1
    let retried := torn.set (.calm 2) [97] [98] none
    let fresh := retried.1.restart (.died .small)
    retried.2 = .success ∧
      (fresh.openStore (.calm 3)).2.code = .corruption ∧
      ((fresh.openStore (.calm 3)).1.get (.calm 3) [97]).2 ≠ .ok [98] := by
  decide +kernel

end KeyValueStore

end MiniKV
