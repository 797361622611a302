import MiniKV.Store.StatusCodes

/-!
# Opening under faults

An open reports success exactly when it leaves the store open, whatever fails.
An attempt that fails keeps the records of the file, as long as no read of the
scan comes back short, so that the next attempt finds them all.
-/

namespace MiniKV

namespace AppendOnlyStore

variable {answers : RecoverAnswers}
variable {store : AppendOnlyStore} {entries : List LogEntry} {tail : Bytes}

theorem scanRecord_of_full {position : ℕ} (hfull : answers.FullAt position)
    (file : Bytes) :
    scanRecord answers file position = scanRecord {} file position := by
  have hcalm : RecoverAnswers.FullAt {} position := fun _ => rfl
  rw [scanRecord, scanRecord]
  simp only [scanRead_of_full hfull, scanRead_of_full hcalm]

/-- The loop depends on the reads only. -/
theorem scan_of_full (hfull : ∀ position, answers.FullAt position)
    (nowMs : Int64) (file : Bytes) (position : ℕ) (state : RecoveryState) :
    scan answers nowMs file position state =
      scan {} nowMs file position state := by
  induction position, state using scan.induct answers nowMs file with
  | case1 position state hinside status herror =>
      have hcalm := herror
      rw [scanRecord_of_full (hfull position)] at hcalm
      rw [scan, scan, if_pos hinside, if_pos hinside, herror, hcalm]
  | case2 position state hinside htail =>
      have hcalm := htail
      rw [scanRecord_of_full (hfull position)] at hcalm
      rw [scan, scan, if_pos hinside, if_pos hinside, htail, hcalm]
  | case3 position state hinside header key value hfound ih =>
      have hcalm := hfound
      rw [scanRecord_of_full (hfull position)] at hcalm
      rw [scan, if_pos hinside, hfound]
      dsimp only
      rw [ih]
      conv_rhs => rw [scan, if_pos hinside, hcalm]
  | case4 position state hend =>
      rw [scan, scan, if_neg hend, if_neg hend]

/-- What an attempt to open that fails can make of a log and of the bytes in the
put area behind it. -/
inductive Leaves (entries : List LogEntry) (bytes pending : Bytes) :
    AppendOnlyStore → Prop
  | untouched (after : AppendOnlyStore) (hbytes : after.bytes = bytes)
      (hpending : after.pending = pending) : Leaves entries bytes pending after
  | drained (after : AppendOnlyStore) (hbytes : after.bytes = bytes ++ pending)
      (hpending : after.pending = []) : Leaves entries bytes pending after
  | cut (after : AppendOnlyStore)
      (hbytes : after.bytes = logFormat.imageAll entries)
      (hpending : after.pending = []) : Leaves entries bytes pending after

/-- Nothing comes out of an empty put area. -/
theorem Leaves.log {bytes : Bytes} {after : AppendOnlyStore}
    (hleaves : Leaves entries bytes [] after)
    (hlog : LogWithTail entries tail bytes) :
    after.pending = [] ∧ ∃ rest, LogWithTail entries rest after.bytes := by
  cases hleaves with
  | untouched hbytes hpending => exact ⟨hpending, tail, hbytes ▸ hlog⟩
  | drained hbytes hpending =>
      rw [List.append_nil] at hbytes
      exact ⟨hpending, tail, hbytes ▸ hlog⟩
  | cut hbytes hpending =>
      exact ⟨hpending, [], hbytes ▸ logWithTail_imageAll entries⟩

/-- What a recovery with full reads does to a log: it fails and keeps the
records, or it succeeds and has replayed them. -/
inductive RecoveredLog (nowMs : Int64) (entries : List LogEntry) (tail : Bytes)
    (before : AppendOnlyStore) : AppendOnlyStore → Result RecoveryState → Prop
  | failed (after : AppendOnlyStore) (status : Status)
      (hstatus : status.ok = false)
      (hleaves : Leaves entries before.bytes before.pending after) :
      RecoveredLog nowMs entries tail before after (.error status)
  | replayed (after : AppendOnlyStore) (dropped : ℕ)
      (hbytes : after.bytes = logFormat.imageAll entries ++
        if tail = [] then before.pending else [])
      (hpending : after.pending = []) :
      RecoveredLog nowMs entries tail before after
        (.ok ⟨replay nowMs entries, entries.length, dropped⟩)

/-- Where the seek works, the put area is in the file behind it. -/
theorem drain_of_drains {fault : Option ℕ}
    (hdrains : store.pending = [] ∨ fault = none) :
    (store.drain fault).2 = true ∧
      (store.drain fault).1.bytes = store.bytes ++ store.pending ∧
      (store.drain fault).1.pending = [] := by
  refine ⟨(store.snd_drain_iff fault).mpr hdrains, ?_, ?_⟩
  · rw [bytes_drain]
    rcases hdrains with hnothing | rfl
    · rw [hnothing, drained_nil]
    · rw [drained_none]
  · rw [pending_drain]
    rcases hdrains with hnothing | rfl
    · rw [hnothing, ite_self]
    · rw [if_pos rfl]

theorem recover_cases (openAnswers : OpenAnswers)
    (hfull : ∀ position, answers.FullAt position)
    (hdrains : store.pending = [] ∨ answers.drain = none)
    (hlog : LogWithTail entries tail store.bytes) (nowMs : Int64) :
    RecoveredLog nowMs entries tail store
      (store.recover openAnswers answers nowMs).1
      (store.recover openAnswers answers nowMs).2 := by
  have hscan := scan_log nowMs entries hlog.2
  have hbytes := store.bytes_ensureOpenLocked openAnswers
  have hpending := store.pending_ensureOpenLocked openAnswers
  unfold recover
  dsimp only
  generalize store.ensureOpenLocked openAnswers = opening at hbytes hpending ⊢
  obtain ⟨opened, status⟩ := opening
  dsimp only at hbytes hpending ⊢
  rw [← scan_of_full hfull, ← hlog.1, ← hbytes] at hscan
  rw [← hpending] at hdrains
  obtain ⟨hsought, hfile, hheld⟩ := drain_of_drains hdrains
  rw [hbytes, hpending] at hfile
  split
  next hopens =>
    cases answers.fileSize with
    | some message => exact .failed _ _ rfl (.untouched _ hbytes hpending)
    | none =>
        dsimp only
        rw [hsought, RecoverAnswers.behindSeek, if_pos rfl, hscan]
        dsimp only
        by_cases htail : 0 < tail.length
        · rw [if_pos htail]
          have hclosed : ((opened.drain answers.drain).1.closeFile
              answers.close).bytes = store.bytes ++ store.pending := by
            rw [bytes_closeFile, hheld, drained_nil, List.append_nil, hfile]
          cases answers.resize with
          | some message => exact .failed _ _ rfl (.drained _ hclosed rfl)
          | none =>
              have hcut : ((opened.drain answers.drain).1.closeFile
                  answers.close).bytes.take (logSize entries) =
                    logFormat.imageAll entries := by
                rw [hclosed, hlog.1, ← length_imageAll, List.append_assoc,
                  List.take_left]
              dsimp only
              rw [hcut]
              have hnothing := pending_reopenLocked answers.reopen
                (((opened.drain answers.drain).1.closeFile
                  answers.close).withBytes (logFormat.imageAll entries))
              have hwhole := bytes_reopenLocked answers.reopen
                (((opened.drain answers.drain).1.closeFile
                  answers.close).withBytes (logFormat.imageAll entries))
              rw [pending_withBytes, pending_closeFile, List.append_nil,
                bytes_withBytes] at hwhole
              split
              · have hsome : tail ≠ [] := List.length_pos_iff.mp htail
                refine .replayed _ _ ?_ hnothing
                rw [if_neg hsome, List.append_nil]
                exact hwhole
              next hfailed =>
                exact .failed _ _ (Bool.not_eq_true _ ▸ hfailed)
                  (.cut _ hwhole hnothing)
        · rw [if_neg htail]
          have hnil : tail = [] := List.length_eq_zero_iff.mp (by omega)
          refine .replayed _ _ ?_ hheld
          rw [hfile, if_pos hnil, hlog.1, hnil, List.append_nil]
  next hopens =>
    exact .failed _ _ (Bool.not_eq_true _ ▸ hopens)
      (.untouched _ hbytes hpending)

end AppendOnlyStore

namespace KeyValueStore

variable {environment : Environment} {store : KeyValueStore}
variable {entries : List LogEntry} {tail : Bytes}

/-! ## Whether the store is open -/

/-- An open reports success exactly when it leaves the store open. -/
theorem ok_openStore_iff (environment : Environment) (store : KeyValueStore) :
    (store.openStore environment).2.ok = true ↔
      (store.openStore environment).1.opened = true := by
  unfold openStore
  split
  next hopened => simp [hopened]
  next hclosed =>
    split
    · simp [hclosed]
    dsimp only
    split
    · have hrecover := AppendOnlyStore.failsWith_recover
        environment.openAnswers environment.recover environment.nowMs
        (store.storage.openFile environment.openAnswers).1
      split
      next status heq =>
        rw [heq, failsWith_error] at hrecover
        have hstatus : status.code ≠ .ok := by
          intro hcode
          rw [Status.Fails, hcode] at hrecover
          simp at hrecover
        simp [Status.ok_eq_true_iff, hstatus, hclosed]
      · split
        · split
          · simp
          · simp
        · simp
    next hfailed => simp [hfailed, hclosed]

/-- Whether the store is open, judged by the replies to the calls. -/
def reportedOpen : Bool → List Request → List Reply → Bool
  | _, ⟨_, .openStore⟩ :: requests, .status status :: replies =>
      reportedOpen status.ok requests replies
  | _, ⟨_, .close⟩ :: requests, _ :: replies =>
      reportedOpen false requests replies
  | reported, _ :: requests, _ :: replies =>
      reportedOpen reported requests replies
  | reported, _, _ => reported

/-- What a closed store answers. -/
def closedReply : Call → Reply
  | .set _ _ _ => .status (.closed "store is not open")
  | .get _ => .value (.error (.closed "store is not open"))
  | .keyExists _ => .flag (.error (.closed "store is not open"))
  | .remove _ => .status (.closed "store is not open")
  | .keys _ => .listing (.error (.closed "store is not open"))
  | .cleanupExpired => .count 0
  | .compact => .summary (.error (.closed "store is not open"))
  | .openStore => .status .success
  | .close => .status .success

/-- A closed store turns every call away and stays as it is. -/
theorem perform_closed (hclosed : store.opened = false) {request : Request}
    (hcall : request.call ≠ .openStore) :
    store.perform request = (store, closedReply request.call) := by
  have hshut : ¬ store.opened = true := by
    rw [hclosed]
    exact Bool.false_ne_true
  have hget : ∀ environment key, store.get environment key =
      (store, .error (.closed "store is not open")) := fun _ _ => by
    rw [get, if_neg hshut]
  obtain ⟨environment, call⟩ := request
  rw [perform]
  cases call with
  | set key value ttl =>
      dsimp only
      rw [set, if_neg hshut]
      rfl
  | get key =>
      dsimp only
      rw [hget]
      rfl
  | keyExists key =>
      dsimp only
      rw [keyExists, hget]
      rfl
  | remove key =>
      dsimp only
      rw [remove, if_neg hshut]
      rfl
  | keys start =>
      dsimp only
      rw [keys, if_neg hshut]
      rfl
  | cleanupExpired =>
      dsimp only
      rw [cleanupExpired, if_neg hshut]
      rfl
  | compact =>
      dsimp only
      rw [compact, if_neg hshut]
      rfl
  | openStore => exact absurd rfl hcall
  | close =>
      dsimp only
      rw [close, if_neg hshut]
      rfl

/-- The replies of a run tell whether the store is open. -/
theorem opened_run (requests : List Request) (store : KeyValueStore) :
    (machine.run requests store).1.opened =
      reportedOpen store.opened requests (machine.run requests store).2 := by
  induction requests generalizing store with
  | nil => rfl
  | cons request requests ih =>
      rw [Machine.run_cons]
      dsimp only
      rw [ih]
      change reportedOpen (store.perform request).1.opened _ _ =
        reportedOpen _ (request :: requests) ((store.perform request).2 :: _)
      by_cases hopen : request.call = .openStore
      · obtain ⟨environment, call⟩ := request
        cases hopen
        have hreported : (store.openStore environment).1.opened =
            (store.openStore environment).2.ok := by
          rw [Bool.eq_iff_iff]
          exact (ok_openStore_iff environment store).symm
        exact congrArg (fun opened => reportedOpen opened requests _) hreported
      by_cases hclose : request.call = .close
      · obtain ⟨environment, call⟩ := request
        cases hclose
        exact congrArg (fun opened => reportedOpen opened requests _)
          (opened_close store)
      · rw [opened_perform ⟨hopen, hclose⟩]
        obtain ⟨environment, call⟩ := request
        cases call with
        | openStore => exact absurd rfl hopen
        | close => exact absurd rfl hclose
        | _ => rfl

/-- Over every run, whatever fails in it: the store is open exactly when the
replies say so, and a store that they report closed turns every call away and
stays as it is. -/
theorem replies_report_open (config : StoreConfig)
    (data temporary : Option Bytes) (requests : List Request) :
    let final := machine.run requests (new config data temporary)
    final.1.opened = reportedOpen false requests final.2 ∧
      (reportedOpen false requests final.2 = false →
        ∀ request : Request, request.call ≠ .openStore →
          final.1.perform request = (final.1, closedReply request.call)) := by
  intro final
  have hopened : final.1.opened = reportedOpen false requests final.2 :=
    opened_run requests (new config data temporary)
  exact ⟨hopened, fun hreported _ => perform_closed (hopened.trans hreported)⟩

/-! ## Attempts that fail -/

/-- What an attempt to open a closed store on a log does when no read comes
back short. -/
inductive Attempted (environment : Environment) (entries : List LogEntry)
    (tail : Bytes) (before : KeyValueStore) : KeyValueStore → Status → Prop
  | failed (after : KeyValueStore) (status : Status)
      (hstatus : status.ok = false) (hclosed : after.opened = false)
      (hconfig : after.config = before.config)
      (hleaves : AppendOnlyStore.Leaves entries before.storage.bytes
        before.storage.pending after.storage) :
      Attempted environment entries tail before after status
  | opened (after : KeyValueStore) (hopened : after.opened = true)
      (hview : after.view =
        before.view.reopened environment.nowMs entries tail) :
      Attempted environment entries tail before after .success

theorem openStore_attempted
    (hfull : ∀ position, environment.recover.FullAt position)
    (hclosed : store.opened = false)
    (hdrains : store.storage.pending = [] ∨ environment.recover.drain = none)
    (hlog : LogWithTail entries tail store.storage.bytes) :
    Attempted environment entries tail store (store.openStore environment).1
      (store.openStore environment).2 := by
  have hbytes : (store.storage.openFile environment.openAnswers).1.bytes =
      store.storage.bytes :=
    store.storage.bytes_ensureOpenLocked environment.openAnswers
  have hpending : (store.storage.openFile environment.openAnswers).1.pending =
      store.storage.pending :=
    store.storage.pending_ensureOpenLocked environment.openAnswers
  rw [openStore, if_neg (by rw [hclosed]; exact Bool.false_ne_true)]
  split
  · exact .failed _ _ rfl hclosed rfl (.untouched _ rfl rfl)
  dsimp only
  split
  · rw [← hpending] at hdrains
    have hrecover := AppendOnlyStore.recover_cases environment.openAnswers
      hfull hdrains (hbytes.symm ▸ hlog) environment.nowMs
    generalize (store.storage.openFile environment.openAnswers).1.recover
      environment.openAnswers environment.recover environment.nowMs =
        recovery at hrecover ⊢
    obtain ⟨storage, result⟩ := recovery
    cases hrecover with
    | failed status hstatus hleaves =>
        rw [hbytes, hpending] at hleaves
        exact .failed _ _ hstatus hclosed rfl hleaves
    | replayed dropped hfile hheld =>
        rw [hpending] at hfile
        have hview : View.mk storage.bytes storage.pending
            (replay environment.nowMs entries) store.cache.clear =
              store.view.reopened environment.nowMs entries tail := by
          rw [hfile, hheld]
          rfl
        dsimp only
        split
        · split
          · exact .opened _ rfl hview
          · refine .failed _ _ rfl rfl rfl ?_
            by_cases hnil : tail = []
            · rw [if_pos hnil] at hfile
              refine .drained _ ?_ hheld
              rw [hlog.1, hnil, List.append_nil]
              exact hfile
            · rw [if_neg hnil, List.append_nil] at hfile
              exact .cut _ hfile hheld
        · exact .opened _ rfl hview
  next hfailed =>
    exact .failed _ _ (Bool.not_eq_true _ ▸ hfailed) hclosed rfl
      (.untouched _ hbytes hpending)

/-- A request on a store that is to stay closed: an open that fails, with full
reads, or another call. -/
def KeepsClosed (request : Request) (store : KeyValueStore) : Prop :=
  request.call = .openStore →
    (∀ position, request.environment.recover.FullAt position) ∧
      (store.openStore request.environment).2.ok = false

/-- A closed store over a file with these records. -/
structure Waiting (config : StoreConfig) (entries : List LogEntry)
    (store : KeyValueStore) : Prop where
  closed : store.opened = false
  config_eq : store.config = config
  pending : store.storage.pending = []
  log : ∃ rest, LogWithTail entries rest store.storage.bytes

theorem Waiting.perform {config : StoreConfig} {request : Request}
    (hwaiting : Waiting config entries store)
    (hkeeps : KeepsClosed request store) :
    Waiting config entries (store.perform request).1 := by
  by_cases hcall : request.call = .openStore
  · obtain ⟨hfull, hfailed⟩ := hkeeps hcall
    obtain ⟨rest, hlog⟩ := hwaiting.log
    have hattempted := openStore_attempted hfull hwaiting.closed
      (Or.inl hwaiting.pending) hlog
    have hnothing := hwaiting.pending
    obtain ⟨environment, call⟩ := request
    cases hcall
    change Waiting config entries (store.openStore environment).1
    generalize store.openStore environment = result at hfailed hattempted ⊢
    obtain ⟨after, status⟩ := result
    cases hattempted with
    | failed _ _ hclosed hconfig hleaves =>
        rw [hnothing] at hleaves
        obtain ⟨hpending, hkept⟩ := hleaves.log hlog
        exact ⟨hclosed, hconfig.trans hwaiting.config_eq, hpending, hkept⟩
    | opened hopened hview => cases hfailed
  · rw [perform_closed hwaiting.closed hcall]
    exact hwaiting

/-- Over every file that recovery accepts: however many attempts to open fail,
with an error or an exception, and whatever is called in between, the next open
that succeeds shows exactly the records of the original file, and one under
which nothing fails does succeed.  No attempt may read less than is there. -/
theorem failed_opens_are_harmless {config : StoreConfig}
    {data temporary : Option Bytes}
    (hlog : LogWithTail entries tail (data.getD []))
    (requests : List Request)
    (hkeeps : machine.Along KeepsClosed requests (new config data temporary)) :
    let store := (machine.run requests (new config data temporary)).1
    store.opened = false ∧ ∀ environment : Environment,
      (∀ position, environment.recover.FullAt position) →
      ((store.openStore environment).2.ok = true →
        (store.openStore environment).1.storage.bytes =
            logFormat.imageAll entries ∧
          (store.openStore environment).1.index =
            replay environment.nowMs entries) ∧
      (environment.Reliable → 0 < config.cleanupIntervalMs →
        (store.openStore environment).2.ok = true) := by
  intro store
  have hstart : Waiting config entries (new config data temporary) :=
    ⟨rfl, rfl, rfl, tail, hlog⟩
  have hwaiting : Waiting config entries store :=
    Machine.run_invariant (fun _ _ hwaiting hkept => hwaiting.perform hkept)
      hkeeps hstart
  obtain ⟨rest, hrest⟩ := hwaiting.log
  refine ⟨hwaiting.closed, fun environment hfull => ⟨fun hopens => ?_,
    fun hreliable hinterval => ?_⟩⟩
  · have hattempted := openStore_attempted hfull hwaiting.closed
      (Or.inl hwaiting.pending) hrest
    generalize store.openStore environment = result at hopens hattempted ⊢
    obtain ⟨after, status⟩ := result
    cases hattempted with
    | failed _ hstatus _ _ _ =>
        rw [hstatus] at hopens
        cases hopens
    | opened _ hview =>
        rw [View.reopened_of_pending hwaiting.pending] at hview
        exact ⟨congrArg View.bytes hview, congrArg View.index hview⟩
  · rw [← hwaiting.config_eq] at hinterval
    obtain ⟨after, hresult, -⟩ :=
      openStore_log hreliable hwaiting.closed hinterval hrest
    rw [hresult]
    rfl

/-- A file with a torn tail that cannot be cut off at first, and a `set`
between two attempts. -/
theorem failed_opens_are_harmless_behind_failed_resize :
    let entry : LogEntry := ⟨⟨.set, [97], [98], 0⟩, 0, by decide⟩
    let requests : List Request :=
      [⟨{ nowMs := 1, recover := { resize := some "busy" } }, .openStore⟩,
        ⟨.calm 2, .set [99] [100] none⟩,
        ⟨{ nowMs := 3, openAnswers := { openFile := false } }, .openStore⟩]
    let store := (machine.run requests
      (new .small (some (entry.image ++ [77, 75, 86])) none)).1
    store.opened = false ∧ ∀ environment : Environment,
      (∀ position, environment.recover.FullAt position) →
      ((store.openStore environment).2.ok = true →
        (store.openStore environment).1.storage.bytes =
            logFormat.imageAll [entry] ∧
          (store.openStore environment).1.index =
            replay environment.nowMs [entry]) ∧
      (environment.Reliable → 0 < StoreConfig.small.cleanupIntervalMs →
        (store.openStore environment).2.ok = true) := by
  intro entry requests
  have hlog : LogWithTail [entry] [77, 75, 86]
      ((some (entry.image ++ [77, 75, 86])).getD []) :=
    ⟨rfl, Or.inl (by decide)⟩
  have hkeeps : machine.Along KeepsClosed requests
      (new .small (some (entry.image ++ [77, 75, 86])) none) :=
    ⟨fun _ => ⟨fun _ _ => rfl, by decide +kernel⟩, nofun,
      fun _ => ⟨fun _ _ => rfl, by decide +kernel⟩, trivial⟩
  exact failed_opens_are_harmless hlog requests hkeeps

end KeyValueStore

end MiniKV
