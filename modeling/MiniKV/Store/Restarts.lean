import MiniKV.Library.Stuttering
import MiniKV.Store.CompactionCrash
import MiniKV.Store.FailedWrites
import MiniKV.Store.Honest

/-!
# One map for all processes

A process may end between any two calls, with the remains of its last append in
the file or in the put area, and another one starts over the same files with
another configuration.  All of them answer from one timed map: what fails is
reported and changes nothing, and no restart changes anything, as long as what
comes into the file behind a failure is harmless.
-/

namespace MiniKV

open AppendOnlyStore (recordBytes)

/-- When the store is opened again, and behind what. -/
structure Handover where
  nowMs : Int64
  how : Restart

/-- The configuration behind a restart. -/
def Restart.configured (how : Restart) (config : StoreConfig) : StoreConfig :=
  match how with
  | .closed => config
  | .died next => next
  | .exited next _ => next

/-- What the callers know: the map, the configuration of the running process and
whether its store is open. -/
structure Life where
  map : TimedMap
  config : StoreConfig
  opened : Bool

namespace Life

open KeyValueStore (closedReply)

/-- What a call or a restart is answered with. -/
inductive Answers (before : Life) :
    Request ⊕ Handover → Option Reply → Life → Prop
  | served {request : Request} {reply : Reply} {after : TimedMap}
      (hopened : before.opened = true) (hoperates : request.call.Operates)
      (hhonest : TimedMap.Honest before.map request reply after) :
      Answers before (.inl request) (some reply) { before with map := after }
  | turnedAway {request : Request} (hclosed : before.opened = false)
      (hcall : request.call ≠ .openStore) :
      Answers before (.inl request) (some (closedReply request.call)) before
  | opened {environment : Environment} :
      Answers before (.inl ⟨environment, .openStore⟩)
        (some (.status .success)) { before with opened := true }
  | refused {environment : Environment} {status : Status}
      (hclosed : before.opened = false) (hstatus : status.ok = false)
      (hcause : environment.Reliable →
        before.config.cleanupIntervalMs ≤ 0) :
      Answers before (.inl ⟨environment, .openStore⟩) (some (.status status))
        before
  | closed {environment : Environment} :
      Answers before (.inl ⟨environment, .close⟩) (some (.status .success))
        { before with opened := false }
  | restarted {next : Handover} :
      Answers before (.inr next) none
        ⟨before.map, next.how.configured before.config, false⟩

end Life

namespace View

variable {nowMs : Int64} {view : View} {ledger : Ledger}

/-- The unexpired part of a ledger tracks the ledger. -/
theorem Tracks.of_unexpired
    (hcontents : ∀ key, view.contents key = unexpired nowMs (ledger key)) :
    Tracks nowMs view ledger := by
  intro key
  rw [hcontents, unexpired]
  cases hstored : ledger key with
  | none => exact Or.inl rfl
  | some stored =>
      rw [Option.filter_some]
      cases hexpired : isExpired stored.2 nowMs with
      | true => exact Or.inr ⟨rfl, stored.1, stored.2, rfl, hexpired⟩
      | false => exact Or.inl rfl

/-- What has expired is missed on neither side. -/
theorem Tracks.alike (htracks : Tracks nowMs view ledger) (key : Bytes) :
    Alike nowMs (view.contents key) (ledger key) := by
  rcases htracks key with hsame | ⟨hnone, value, expiresAtMs, hstored, hexpired⟩
  · rw [hsame]
    exact lawful_alike.refl nowMs _
  · intro laterMs hclock
    rw [hnone, hstored, unexpired, unexpired, Option.filter_some,
      isExpired_mono hexpired hclock]
    rfl

/-- A file that replays to the index stands for the view. -/
theorem Replays.inStep (hreplays : view.Replays nowMs)
    (hcoherent : view.Coherent) : view.InStep Alike nowMs := by
  obtain ⟨entries, hbytes, -⟩ := hreplays.contents_reopened (Int64.le_refl _)
  have hlog := logWithTail_imageAll entries
  rw [← hbytes] at hlog
  refine ⟨hcoherent, entries, [], hlog, fun key laterMs hclock => ?_⟩
  obtain ⟨others, hothers, hcontents⟩ := hreplays.contents_reopened hclock
  have hother := logWithTail_imageAll others
  rw [← hothers] at hother
  rw [← contents_ofLog_eq laterMs entries view.cache,
    ← (hother.unique hlog).1, hcontents]
  rfl

end View

theorem Alike.trans {nowMs : Int64} {first second third : Option (Bytes × Int64)}
    (hfirst : Alike nowMs first second) (hsecond : Alike nowMs second third) :
    Alike nowMs first third :=
  fun laterMs hclock => (hfirst laterMs hclock).trans (hsecond laterMs hclock)

namespace KeyValueStore

open TimedMap

variable {environment : Environment} {store : KeyValueStore}
variable {map : TimedMap} {nowMs laterMs : Int64} {bytes rest : Bytes}

/-! ## The configuration -/

theorem config_set (environment : Environment) (key value : Bytes)
    (ttl : Option Int64) (store : KeyValueStore) :
    (store.set environment key value ttl).1.config = store.config := by
  unfold set setSection
  repeat' split
  all_goals rfl

theorem config_get (environment : Environment) (key : Bytes)
    (store : KeyValueStore) :
    (store.get environment key).1.config = store.config := by
  unfold get getLive lookupCache readStored fillCache eraseIfExpired
    dropExpired
  dsimp only
  repeat' split
  all_goals grind

theorem config_remove (environment : Environment) (key : Bytes)
    (store : KeyValueStore) :
    (store.remove environment key).1.config = store.config := by
  unfold remove removeSection dropExpired
  dsimp only
  repeat' split
  all_goals rfl

/-- The loop that rereads the live values opens the file at most. -/
theorem fst_readLiveRecords (environment : Environment) (keys : List Bytes)
    (store : KeyValueStore) :
    ∃ storage, (store.readLiveRecords environment keys).1 =
      { store with storage := storage } := by
  induction keys generalizing store with
  | nil => exact ⟨store.storage, rfl⟩
  | cons key keys ih =>
      rw [readLiveRecords]
      split
      · exact ih store
      next metadata _ =>
        have hread : (store.readStored environment key metadata).1 =
            { store with storage :=
              (store.readStored environment key metadata).1.storage } := rfl
        split
        next heq =>
          rw [heq] at hread
          exact ⟨_, hread⟩
        next read value heq =>
          rw [heq] at hread
          dsimp only at hread
          obtain ⟨storage, hrest⟩ := ih read
          have hboth : (read.readLiveRecords environment keys).1 =
              { store with storage := storage } := by
            rw [hrest, hread]
          split
          next heq =>
            rw [heq] at hboth
            exact ⟨storage, hboth⟩
          next heq =>
            rw [heq] at hboth
            exact ⟨storage, hboth⟩

/-- A compaction puts a purged store on another file, and when it succeeds it
takes the index over and counts itself. -/
theorem compactSection_shape (environment : Environment)
    (store : KeyValueStore) :
    (∃ storage status, store.compactSection environment =
      ({ store.purgeExpired environment with storage := storage },
        .error status)) ∨
    (∃ storage, ∃ state : CompactionState, store.compactSection environment =
      ({ store.purgeExpired environment with
          storage := storage
          index := state.index
          cache := (store.purgeExpired environment).cache.clear
          compactions := (store.purgeExpired environment).compactions + 1 },
        .ok ⟨state.index.size, state.oldFileBytes, state.newFileBytes⟩)) := by
  obtain ⟨storage, hread⟩ := fst_readLiveRecords environment
    (environment.hashOrder (store.purgeExpired environment).index).keys
    (store.purgeExpired environment)
  unfold compactSection
  dsimp only
  split
  next heq =>
    rw [heq] at hread
    dsimp only at hread
    rw [hread]
    exact .inl ⟨_, _, rfl⟩
  next heq =>
    rw [heq] at hread
    dsimp only at hread
    rw [hread]
    split
    · exact .inl ⟨_, _, rfl⟩
    · exact .inr ⟨_, _, rfl⟩

theorem config_compact (environment : Environment) (store : KeyValueStore) :
    (store.compact environment).1.config = store.config := by
  unfold compact
  split
  · obtain ⟨_, _, hshape⟩ | ⟨_, _, hshape⟩ :=
      compactSection_shape environment store
    all_goals rw [hshape]; rfl
  · rfl

theorem config_openStore (environment : Environment) (store : KeyValueStore) :
    (store.openStore environment).1.config = store.config := by
  unfold openStore
  dsimp only
  repeat' split
  all_goals rfl

/-- No call changes the configuration. -/
theorem config_perform (request : Request) (store : KeyValueStore) :
    (store.perform request).1.config = store.config := by
  obtain ⟨environment, call⟩ := request
  cases call with
  | set key value ttl => exact config_set environment key value ttl store
  | get key => exact config_get environment key store
  | keyExists key =>
      have hget := config_get environment key store
      rwa [← fst_keyExists] at hget
  | remove key => exact config_remove environment key store
  | keys start =>
      change (store.keys environment start).1.config = store.config
      unfold keys cleanupExpired
      repeat' split
      all_goals rfl
  | cleanupExpired =>
      change (store.cleanupExpired environment).1.config = store.config
      unfold cleanupExpired
      split <;> rfl
  | compact => exact config_compact environment store
  | openStore => exact config_openStore environment store
  | close =>
      change store.close.1.config = store.config
      unfold close
      split <;> rfl

/-! ## What stays in the file -/

/-- The file holds the map, up to what has expired. -/
def Rests (nowMs : Int64) (bytes : Bytes) (map : TimedMap) : Prop :=
  ∃ entries tail ledger, LogWithTail entries tail bytes ∧
    map = ofLedger ledger ∧
    ∀ key, Alike nowMs (View.ledgerOf entries key) (ledger key)

/-- Bytes behind a file at rest that change nothing of what it holds: the end of
the file stays an unfinished tail, or a record comes in that says what the log
says anyway. -/
def HarmlessAtRest (nowMs : Int64) (bytes rest : Bytes) : Prop :=
  rest ≠ [] →
    (∃ entries tail, LogWithTail entries tail bytes ∧
      UnfinishedTail (tail ++ rest)) ∨
    ∃ entries, bytes = logFormat.imageAll entries ∧
      ∃ record : Record, record.Valid ∧ rest = recordBytes record ∧
        Alike nowMs record.stored (View.ledgerOf entries record.key)

theorem HarmlessAtRest.nil : HarmlessAtRest nowMs bytes [] :=
  fun hne => absurd rfl hne

theorem rests_ofLog {entries : List LogEntry} {tail : Bytes}
    (hlog : LogWithTail entries tail bytes) (nowMs : Int64) :
    Rests nowMs bytes (ofLog entries) :=
  ⟨entries, tail, View.ledgerOf entries, hlog,
    (ofLedger_ledgerOf entries).symm, fun _ => lawful_alike.refl nowMs _⟩

theorem Rests.mono (hrests : Rests nowMs bytes map) (hclock : nowMs ≤ laterMs) :
    Rests laterMs bytes map := by
  obtain ⟨entries, tail, ledger, hlog, hmap, halike⟩ := hrests
  exact ⟨entries, tail, ledger, hlog, hmap, fun key => (halike key).mono hclock⟩

theorem Rests.append (hrests : Rests nowMs bytes map)
    (hharmless : HarmlessAtRest nowMs bytes rest) :
    Rests nowMs (bytes ++ rest) map := by
  obtain ⟨entries, tail, ledger, hlog, hmap, halike⟩ := hrests
  by_cases hnothing : rest = []
  · rw [hnothing, List.append_nil]
    exact ⟨entries, tail, ledger, hlog, hmap, halike⟩
  rcases hharmless hnothing with ⟨others, remains, hothers, hunfinished⟩ |
    ⟨others, hbytes, record, hvalid, hrest, hsays⟩
  · obtain ⟨rfl, rfl⟩ := hothers.unique hlog
    exact ⟨others, remains ++ rest, ledger, hlog.append hunfinished, hmap,
      halike⟩
  · have hgrown := logWithTail_imageAll (others ++ [.ofRecord record hvalid])
    have hwhole := logWithTail_imageAll others
    rw [imageAll_concat_ofRecord, ← hbytes, ← hrest] at hgrown
    rw [← hbytes] at hwhole
    obtain ⟨rfl, -⟩ := hwhole.unique hlog
    refine ⟨_, [], ledger, hgrown, hmap, fun key => ?_⟩
    rw [View.ledgerOf_concat]
    by_cases hkey : record.key = key
    · rw [if_pos hkey, ← hkey]
      exact hsays.trans (halike record.key)
    · rw [if_neg hkey]
      exact halike key

/-- What a running store leaves behind when its process ends. -/
theorem Refines.rests (hrefines : Refines nowMs store map)
    (hinStep : store.view.InStep Alike nowMs) :
    Rests nowMs store.storage.bytes map := by
  obtain ⟨-, -, ledger, hmap, htracks⟩ := hrefines
  obtain ⟨-, entries, tail, hlog, halike⟩ := hinStep
  exact ⟨entries, tail, ledger, hlog, hmap,
    fun key => (halike key).trans (htracks.alike key)⟩

/-- Harmless bytes are harmless for the view that recovery builds. -/
theorem HarmlessAtRest.harmless {entries : List LogEntry}
    (hharmless : HarmlessAtRest nowMs (logFormat.imageAll entries) rest)
    (cache : LruCache Bytes Bytes) :
    (View.ofLog nowMs entries cache).Harmless Alike nowMs rest := by
  intro hne
  rcases hharmless hne with hunfinished |
    ⟨others, hothers, record, hvalid, hrest, hsays⟩
  · exact Or.inl hunfinished
  · refine Or.inr ⟨⟨entries, rfl⟩, record, hvalid, hrest, ?_⟩
    have hlog := logWithTail_imageAll others
    rw [← hothers] at hlog
    rw [(hlog.unique (logWithTail_imageAll entries)).1] at hsays
    refine hsays.trans fun laterMs hclock => ?_
    rw [View.contents_ofLog_eq, unexpired_unexpired hclock]

/-- A store that opens on such a file stands for the map again. -/
theorem Rests.refines {after : KeyValueStore} {entries : List LogEntry}
    {tail : Bytes} {before : View} (hrests : Rests nowMs bytes map)
    (hharmless : HarmlessAtRest nowMs bytes before.pending)
    (hlog : LogWithTail entries tail bytes) (hopened : after.opened = true)
    (hview : after.view = before.reopened nowMs entries tail) :
    Refines nowMs after map ∧ after.view.InStep Alike nowMs := by
  obtain ⟨others, remains, ledger, hother, hmap, halike⟩ := hrests
  obtain ⟨rfl, rfl⟩ := hother.unique hlog
  have hbehind : (View.ofLog nowMs others before.cache).Harmless Alike nowMs
      (if remains = [] then before.pending else []) := by
    by_cases hnil : remains = []
    · rw [if_pos hnil]
      rw [hlog.1, hnil, List.append_nil] at hharmless
      exact hharmless.harmless before.cache
    · rw [if_neg hnil]
      exact .nil
  have hinStep := (View.InStep.ofLog lawful_alike nowMs others
    before.cache).stray hbehind []
  change (before.reopened nowMs others remains).InStep Alike nowMs at hinStep
  rw [← hview] at hinStep
  refine ⟨⟨hopened, hinStep.coherent, ledger, hmap, .of_unexpired ?_⟩, hinStep⟩
  intro key
  rw [hview, View.contents_reopened, View.contents_ofLog_eq]
  exact halike key nowMs (Int64.le_refl nowMs)

/-! ## Lives -/

theorem config_restart (how : Restart) (store : KeyValueStore) :
    (store.restart how).config = how.configured store.config := by
  cases how with
  | closed =>
      change store.close.1.config = store.config
      unfold close
      split <;> rfl
  | died next => rfl
  | exited next drain => rfl

/-- Calls, and restarts between them. -/
def lives : Machine (Request ⊕ Handover) KeyValueStore (Option Reply) :=
  machine.withSilent fun next store => store.restart next.how

/-- The clock readings of calls and restarts. -/
def reading : Request ⊕ Handover → Int64 :=
  Sum.elim Request.nowMs Handover.nowMs

/-- An attempt to open a closed store that reads the whole file, and what it
writes of the put area is harmless. -/
structure ReadsWhole (environment : Environment) (store : KeyValueStore) :
    Prop where
  full : ∀ position, environment.recover.FullAt position
  drains : store.storage.pending = [] ∨ environment.recover.drain = none
  harmless : HarmlessAtRest environment.nowMs store.storage.bytes
    store.storage.pending

/-- A call whose failures stay contained, and whose deadline is in range; an
attempt to open that reads the whole file; and a restart that writes only what
is harmless. -/
def Survives : Request ⊕ Handover → KeyValueStore → Prop
  | .inl request, store =>
      (store.opened = true → Contained Alike request store ∧ InRange request) ∧
      (store.opened = false → request.call = .openStore →
        ReadsWhole request.environment store)
  | .inr next, store =>
      HarmlessAtRest next.nowMs store.storage.bytes
        (next.how.written store.storage.pending)

/-- The store, running or at rest, stands for the map. -/
structure Lives (nowMs : Int64) (store : KeyValueStore) (life : Life) :
    Prop where
  config_eq : store.config = life.config
  opened_eq : store.opened = life.opened
  running : store.opened = true →
    Refines nowMs store life.map ∧ store.view.InStep Alike nowMs
  resting : store.opened = false → Rests nowMs store.storage.bytes life.map

namespace Lives

variable {life : Life}

theorem of_rests (hclosed : store.opened = false)
    (hrests : Rests nowMs store.storage.bytes map) :
    Lives nowMs store ⟨map, store.config, false⟩ where
  config_eq := rfl
  opened_eq := hclosed
  running hopened := by
    rw [hclosed] at hopened
    cases hopened
  resting _ := hrests

theorem of_refines (hrefines : Refines nowMs store map)
    (hinStep : store.view.InStep Alike nowMs) :
    Lives nowMs store ⟨map, store.config, true⟩ where
  config_eq := rfl
  opened_eq := hrefines.opened
  running _ := ⟨hrefines, hinStep⟩
  resting hclosed := by
    rw [hrefines.opened] at hclosed
    cases hclosed

theorem rests (hlives : Lives nowMs store life) :
    Rests nowMs store.storage.bytes life.map := by
  cases hopened : store.opened with
  | true =>
      obtain ⟨hrefines, hinStep⟩ := hlives.running hopened
      exact hrefines.rests hinStep
  | false => exact hlives.resting hopened

end Lives

/-- A call on a running store. -/
theorem answers_running {request : Request}
    (hrefines : Refines request.nowMs store map)
    (hinStep : store.view.InStep Alike request.nowMs)
    (hcontained : Contained Alike request store) (hrange : InRange request) :
    ∃ next, Life.Answers ⟨map, store.config, true⟩ (.inl request)
        (some (store.perform request).2) next ∧
      Lives request.nowMs (store.perform request).1 next := by
  have hopened := hrefines.opened
  have hconfig := config_perform request store
  by_cases hopen : request.call = .openStore
  · obtain ⟨environment, call⟩ := request
    cases hopen
    have hsame : store.openStore environment = (store, .success) := by
      rw [openStore, if_pos hopened]
    rw [perform, hsame]
    exact ⟨_, .opened, .of_refines hrefines hinStep⟩
  by_cases hclose : request.call = .close
  · obtain ⟨environment, call⟩ := request
    cases hclose
    have hrests : Rests environment.nowMs store.close.1.storage.bytes map := by
      have hview : store.close.1.storage.bytes = store.storage.bytes :=
        congrArg View.bytes (view_close store)
      rw [hview]
      exact hrefines.rests hinStep
    have hlives := Lives.of_rests (opened_close store) hrests
    have hsuccess : store.close.2 = .success := by
      unfold close
      split <;> rfl
    change store.close.1.config = store.config at hconfig
    rw [hconfig] at hlives
    rw [perform]
    dsimp only
    rw [hsuccess]
    exact ⟨_, .closed, hlives⟩
  have hoperates : request.call.Operates := ⟨hopen, hclose⟩
  obtain ⟨after, hhonest, hnext⟩ := step_honest hrefines (Int64.le_refl _)
    hoperates hrange hcontained.keeps
  have hstays := (opened_perform hoperates).trans hopened
  have hlives := Lives.of_refines hnext (inStep_perform lawful_alike
    (fun _ => hinStep) (fun _ _ halike => halike) hcontained hstays)
  rw [hconfig] at hlives
  exact ⟨_, .served rfl hoperates hhonest, hlives⟩

/-- An attempt to open a closed store. -/
theorem answers_opening (hclosed : store.opened = false)
    (hrests : Rests environment.nowMs store.storage.bytes map)
    (hwhole : ReadsWhole environment store) :
    ∃ next, Life.Answers ⟨map, store.config, false⟩
        (.inl ⟨environment, .openStore⟩)
        (some (.status (store.openStore environment).2)) next ∧
      Lives environment.nowMs (store.openStore environment).1 next := by
  obtain ⟨entries, tail, ledger, hlog, hmap, halike⟩ := id hrests
  have hattempted :=
    openStore_attempted hwhole.full hclosed hwhole.drains hlog
  have hconfig := config_openStore environment store
  have hcause : (store.openStore environment).2.ok = false →
      environment.Reliable → store.config.cleanupIntervalMs ≤ 0 := by
    intro hfailed hreliable
    by_contra hinterval
    obtain ⟨after, hresult, -⟩ := openStore_log hreliable hclosed
      (Int64.not_le.mp hinterval) hlog
    rw [hresult] at hfailed
    cases hfailed
  generalize store.openStore environment = result at hattempted hconfig hcause ⊢
  obtain ⟨after, status⟩ := result
  dsimp only at hconfig hcause ⊢
  cases hattempted with
  | failed _ hstatus hshut _ hleaves =>
      have hkept : Rests environment.nowMs after.storage.bytes map := by
        cases hleaves with
        | untouched hbytes _ =>
            rw [hbytes]
            exact hrests
        | drained hbytes _ =>
            rw [hbytes]
            exact hrests.append hwhole.harmless
        | cut hbytes _ =>
            rw [hbytes]
            exact ⟨entries, [], ledger, logWithTail_imageAll entries, hmap,
              halike⟩
      have hlives := Lives.of_rests hshut hkept
      rw [hconfig] at hlives
      exact ⟨_, .refused rfl hstatus (hcause hstatus), hlives⟩
  | opened hopened hview =>
      obtain ⟨hrefines, hinStep⟩ :=
        hrests.refines hwhole.harmless hlog hopened hview
      have hlives := Lives.of_refines hrefines hinStep
      rw [hconfig] at hlives
      exact ⟨_, .opened, hlives⟩

/-- Every call and every restart is answered from the map. -/
theorem answers_lives {life : Life} {event : Request ⊕ Handover}
    (hlives : Lives nowMs store life) (hclock : nowMs ≤ reading event)
    (hsurvives : Survives event store) :
    ∃ next, life.Answers event (lives.step event store).2 next ∧
      Lives (reading event) (lives.step event store).1 next := by
  have hrests := hlives.rests.mono hclock
  obtain ⟨map, config, opened⟩ := life
  obtain ⟨hconfig, hopened, hrunning, -⟩ := hlives
  dsimp only at hconfig hopened hrests hrunning
  subst hconfig
  cases event with
  | inr next =>
      have hkept := hrests.append hsurvives
      change Rests next.nowMs _ _ at hkept
      rw [← bytes_restart] at hkept
      have hnext := Lives.of_rests (opened_restart next.how store) hkept
      rw [config_restart] at hnext
      exact ⟨_, .restarted, hnext⟩
  | inl request =>
      cases opened with
      | true =>
          obtain ⟨hrefines, hinStep⟩ := hrunning hopened
          obtain ⟨hcontained, hrange⟩ := hsurvives.1 hopened
          exact answers_running (hrefines.mono hclock)
            (hinStep.mono fun _ _ halike => halike.mono hclock) hcontained
            hrange
      | false =>
          by_cases hopen : request.call = .openStore
          · obtain ⟨environment, call⟩ := request
            cases hopen
            exact answers_opening hopened hrests (hsurvives.2 hopened rfl)
          · have hturned := perform_closed hopened hopen
            refine ⟨⟨map, store.config, false⟩, ?_, ?_⟩
            · change Life.Answers _ _ (some (store.perform request).2) _
              rw [hturned]
              exact .turnedAway rfl hopen
            · change Lives _ (store.perform request).1 _
              rw [hturned]
              exact .of_rests hopened hrests

/-- Over every file that recovery accepts, on a clock that does not go back:
however many processes work on it one after the other, with whatever
configurations, and wherever the file system fails, each reply is one that the
map of the original records allows, or it reports a failure that has changed
nothing.  The deadlines are in range, every opening reads the whole file, no
compaction loses its file, and what a failing call or the end of a process
writes is harmless. -/
theorem lives_share_one_map (config : StoreConfig) {data : Bytes}
    (temporary : Option Bytes) {entries : List LogEntry} {tail : Bytes}
    (hlog : LogWithTail entries tail data) (events : List (Request ⊕ Handover))
    (startMs : Int64) (hpaced : Machine.Paced reading startMs events)
    (hsurvives : lives.Along Survives events
      (new config (some data) temporary)) :
    ∃ last, Machine.Trace Life.Answers ⟨ofLog entries, config, false⟩ events
      (lives.run events (new config (some data) temporary)).2 last := by
  have hstep : ∀ beforeMs event store life, Lives beforeMs store life →
      beforeMs ≤ reading event → Survives event store →
      ∃ next, life.Answers event (lives.step event store).2 next ∧
        Lives (reading event) (lives.step event store).1 next :=
    fun _ _ _ _ => answers_lives
  have hstart : Lives startMs (new config (some data) temporary)
      ⟨ofLog entries, config, false⟩ := .of_rests rfl (rests_ofLog hlog startMs)
  obtain ⟨last, htrace, -⟩ :=
    Machine.exists_trace hstep hpaced hsurvives hstart
  exact ⟨last, htrace⟩

/-- A process dies in the middle of a `set`; the next one cannot cut the tail
off at first and works with another cache.  It ends with all but the value of
another `set` in the put area. -/
theorem lives_share_one_map_behind_torn_sets :
    let events : List (Request ⊕ Handover) :=
      [.inl ⟨.calm 1, .openStore⟩, .inl ⟨.calm 2, .set [97] [98] none⟩,
        .inl ⟨{ nowMs := 3, append := { write := some ⟨5, 0⟩ } },
          .set [97] [99] none⟩,
        .inr ⟨4, .died ⟨"data.log", 8, 50, false⟩⟩,
        .inl ⟨{ nowMs := 5, recover := { resize := some "busy" } }, .openStore⟩,
        .inl ⟨.calm 6, .get [97]⟩, .inl ⟨.calm 7, .openStore⟩,
        .inl ⟨{ nowMs := 8, read := fun _ => { short := some 0 } }, .get [97]⟩,
        .inl ⟨{ nowMs := 9, append := { flush := some ⟨0, 29⟩ } },
          .set [97] [99] none⟩,
        .inr ⟨10, .exited .small none⟩, .inl ⟨.calm 11, .openStore⟩,
        .inl ⟨.calm 12, .get [97]⟩]
    ∃ last, Machine.Trace Life.Answers ⟨ofLog [], .small, false⟩ events
      (lives.run events (new .small (some []) none)).2 last := by
  intro events
  have hpaced : Machine.Paced reading 1 events :=
    ⟨by decide, by decide, by decide, by decide, by decide, by decide,
      by decide, by decide, by decide, by decide, by decide, by decide, trivial⟩
  let first : LogEntry := .ofRecord ⟨.set, [97], [98], 0⟩ (by decide)
  have hopen : ∀ (environment : Environment) (store : KeyValueStore),
      environment.recover.short = (fun _ _ => none) → store.opened = false →
      store.storage.pending = [] →
      Survives (.inl ⟨environment, .openStore⟩) store := by
    intro environment store hshort hclosed hpending
    refine ⟨fun hopened => ?_, fun _ _ => ⟨fun _ site => ?_, Or.inl hpending,
      ?_⟩⟩
    · rw [hclosed] at hopened
      cases hopened
    · rw [hshort]
    · rw [hpending]
      exact .nil
  have hget : ∀ (environment : Environment) (store : KeyValueStore),
      store.storage.pending = [] →
      Survives (.inl ⟨environment, .get [97]⟩) store :=
    fun _ _ hpending =>
      ⟨fun _ => ⟨contained_quiet nofun hpending rfl, trivial⟩, nofun⟩
  have hset : ∀ (environment : Environment) (store : KeyValueStore)
      (value : Bytes), store.storage.pending = [] →
      WholeLog store.storage.bytes →
      (∀ torn, environment.append.fault = some torn → torn.left <
        (recordBytes ⟨.set, [97], value,
          deadline environment.nowMs none⟩).length) →
      Survives (.inl ⟨environment, .set [97] value none⟩) store :=
    fun _ _ _ hpending hwhole hcut =>
      ⟨fun _ => ⟨contained_set hpending hwhole hcut, nofun⟩, nofun⟩
  have hsurvives : lives.Along Survives events
      (new .small (some []) none) := by
    refine ⟨hopen _ _ rfl rfl rfl, hset _ _ _ ?_ ⟨[], ?_⟩ nofun,
      hset _ _ _ ?_ ⟨[first], ?_⟩ ?_, .nil, hopen _ _ rfl ?_ ?_,
      hget _ _ ?_, hopen _ _ rfl ?_ ?_, hget _ _ ?_,
      hset _ _ _ ?_ ⟨[first], ?_⟩ ?_, ?_, hopen _ _ rfl ?_ ?_, hget _ _ ?_,
      trivial⟩
    case refine_5 | refine_14 =>
      rintro torn ⟨⟩
      decide +kernel
    case refine_15 =>
      intro _
      have hcut : UnfinishedTail
          ((recordBytes ⟨.set, [97], [99], 0⟩).take 29) :=
        unfinishedTail_take (by decide) (by decide +kernel)
      exact Or.inl ⟨[first], [], ⟨by decide +kernel, unfinishedTail_nil⟩,
        (congrArg UnfinishedTail (by decide +kernel)).mpr hcut⟩
    all_goals decide +kernel
  exact lives_share_one_map .small none ⟨rfl, unfinishedTail_nil⟩ events 1
    hpaced hsurvives

end KeyValueStore

end MiniKV
