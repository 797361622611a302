import MiniKV.Library.AtomicRewrite
import MiniKV.Store.Compaction
import MiniKV.Store.Leftover
import MiniKV.Store.LogLedger
import MiniKV.Store.Recovered

/-!
# Crashes during a compaction

`compact` changes the disk by removing an old compaction file, writing a new one
byte after byte and renaming it over the data file.  A process that dies behind
any of these steps leaves the old data file or the new one, and both show the
same keys at every reading behind those of the run.
-/

namespace MiniKV

open AppendOnlyStore (recordBytes)

namespace AppendOnlyStore

variable {store : AppendOnlyStore}

/-- The data file and the compaction file on the disk. -/
def files (store : AppendOnlyStore) : Files UInt8 :=
  ⟨store.data, store.temporary⟩

/-- What `compact` does to the disk: `ensureOpenLocked`, the removal of an old
compaction file, the new one with its records, the rename, `reopenLocked`. -/
def compactSteps (records : List Record) : List (RewriteStep UInt8) :=
  Files.rewriteSteps (records.flatMap recordBytes)

theorem Rewritten.imageAll_eq {records : List Record} {entries : List LogEntry}
    (hrewritten : Rewritten records entries) :
    logFormat.imageAll entries = records.flatMap recordBytes := by
  rw [← hrewritten.records_eq, List.flatMap_map]
  exact List.flatMap_congr fun entry hentry =>
    image_of_reserved (hrewritten.reserved entry hentry)

/-- A compaction that no failure stops has done all these steps. -/
theorem files_compact {records : List Record}
    (hvalid : ∀ record ∈ records, record.Valid) (store : AppendOnlyStore) :
    (store.compact {} {} records).1.files =
      Files.run (compactSteps records) store.files := by
  have hwrites : ∃ outcome,
      writeLiveRecords (fun _ => true) records 0 [] 0 .empty = .ok outcome :=
    writeLiveRecords_of_valid hvalid (fun _ _ => rfl) 0 [] .empty
  obtain ⟨⟨output, index, offset⟩, hwritten⟩ := hwrites
  obtain ⟨entries, hrewritten, houtput, -⟩ := writeLiveRecords_ok hwritten
  rw [List.nil_append, hrewritten.imageAll_eq] at houtput
  rw [compactSteps, Files.run_rewriteSteps, ← houtput]
  have hreopened : ∀ closed : AppendOnlyStore, closed.stream = none →
      closed.data = some output → closed.temporary = none →
      (closed.reopenLocked {}).1.files = ⟨some output, none⟩ := by
    intro closed hclosed hdata htemporary
    have hshut : closed.fileOpen = false := by simp [fileOpen, hclosed]
    rw [reopenLocked, closeFile_of_closed closed hclosed,
      ensureOpenLocked_faultless]
    dsimp only
    rw [opened_of_closed closed hshut, files]
    simp [bytes, withBytes, hdata, htemporary]
  simp only [compact, ensureOpenLocked_faultless, Status.ok_success, if_true,
    hwritten]
  rw [if_pos (by rw [reopenLocked, ensureOpenLocked_faultless]; rfl)]
  exact hreopened _ rfl rfl rfl

end AppendOnlyStore

namespace View

/-- What a restart reads from a whole log. -/
theorem Replays.contents_reopened {nowMs laterMs : Int64} {view : View}
    (hreplays : Replays nowMs view) (hclock : nowMs ≤ laterMs) :
    ∃ entries, view.bytes = logFormat.imageAll entries ∧
      ∀ cache, (ofLog laterMs entries cache).contents = view.live laterMs := by
  obtain ⟨-, entries, hbytes, hreplay⟩ := hreplays
  refine ⟨entries, hbytes, fun cache => ?_⟩
  have hindex : (ofLog laterMs entries cache).index =
      view.index.filter fun _ metadata =>
        !isExpired metadata.expiresAtMs laterMs := hreplay laterMs hclock
  funext key
  apply Option.ext
  rintro ⟨value, expiresAtMs⟩
  rw [live_eq_some_iff, contents_eq_some_iff, contents_eq_some_iff]
  have hvalue : ∀ metadata, (ofLog laterMs entries cache).valueAt metadata =
      view.valueAt metadata := fun metadata => by
    rw [valueAt, valueAt, hbytes]
    rfl
  have hlookup : ∀ metadata,
      (ofLog laterMs entries cache).index.lookup key = some metadata ↔
        view.index.lookup key = some metadata ∧
          isExpired metadata.expiresAtMs laterMs = false := by
    intro metadata
    rw [hindex, FiniteMap.lookup_filter, Option.filter_eq_some_iff,
      Bool.not_eq_true']
  constructor
  · rintro ⟨metadata, hfound, hstored, rfl⟩
    obtain ⟨hlive, hfresh⟩ := (hlookup metadata).mp hfound
    exact ⟨⟨metadata, hlive, hvalue metadata ▸ hstored, rfl⟩, hfresh⟩
  · rintro ⟨⟨metadata, hlive, hstored, rfl⟩, hfresh⟩
    exact ⟨metadata, (hlookup metadata).mpr ⟨hlive, hfresh⟩,
      (hvalue metadata).trans hstored, rfl⟩

end View

namespace KeyValueStore

variable {environment : Environment} {store : KeyValueStore}

/-- The disk steps of a compaction of this store. -/
def compactDiskSteps (environment : Environment) (store : KeyValueStore) :
    List (RewriteStep UInt8) :=
  let purged := store.purgeExpired environment
  match (purged.readLiveRecords environment
      (environment.hashOrder purged.index).keys).2 with
  | .ok liveRecords => AppendOnlyStore.compactSteps (sortRecords liveRecords)
  | .error _ => []

/-- The disk behind a process that dies after this number of disk steps of
`compact`. -/
def crashedCompact (environment : Environment) (count : ℕ)
    (store : KeyValueStore) : Files UInt8 :=
  Files.run ((store.compactDiskSteps environment).take count)
    store.storage.files

/-- The whole compaction has done all its disk steps. -/
theorem files_compact (hreliable : environment.Reliable)
    (hopened : store.opened = true) (hcoherent : store.view.Coherent) :
    (store.compact environment).1.storage.files =
      Files.run (store.compactDiskSteps environment) store.storage.files := by
  let purged := store.purgeExpired environment
  have hpurged : purged.view.Coherent :=
    hcoherent.upkeep (upkeep_purgeExpired environment store)
  obtain ⟨read, records, hloop, hvalid⟩ := readLiveRecords_valid
    hreliable.openAnswers hreliable.read hpurged
    (isSome_of_visited environment purged)
  have hfiles := AppendOnlyStore.files_compact hvalid read.storage
  obtain ⟨state, hstate⟩ :=
    AppendOnlyStore.compact_faultless hvalid read.storage
  rcases hresult : read.storage.compact {} {} (sortRecords records) with
    ⟨storage, result⟩
  rw [hresult] at hstate hfiles
  dsimp only at hstate hfiles
  rw [compact, if_pos hopened, compactSection, compactDiskSteps, hloop]
  dsimp only
  rw [hreliable.openAnswers, hreliable.compact, hresult, hstate]
  dsimp only
  rw [hfiles, AppendOnlyStore.compactSteps, Files.run_rewriteSteps,
    Files.run_rewriteSteps]

/-- A crash leaves the data file from before the compaction or the one from
behind it. -/
theorem contents_crashedCompact (hreliable : environment.Reliable)
    (hopened : store.opened = true) (hcoherent : store.view.Coherent)
    (count : ℕ) :
    (store.crashedCompact environment count).contents = store.view.bytes ∨
      (store.crashedCompact environment count).contents =
        (store.compact environment).1.view.bytes := by
  have hfinal := congrArg Files.contents
    (files_compact hreliable hopened hcoherent)
  change (store.compact environment).1.view.bytes = _ at hfinal
  rw [hfinal, crashedCompact, compactDiskSteps]
  cases ((store.purgeExpired environment).readLiveRecords environment
    (environment.hashOrder (store.purgeExpired environment).index).keys).2 with
  | error status => exact Or.inl (by rw [List.take_nil]; rfl)
  | ok liveRecords =>
      dsimp only
      rw [AppendOnlyStore.compactSteps, Files.run_rewriteSteps]
      exact Files.contents_crashed _ count store.storage.files

/-! ## Runs without I/O failure -/

/-- The put area is empty, and while the store is open its file replays at
`laterMs`. -/
structure ReplaysUntil (laterMs : Int64) (store : KeyValueStore) : Prop where
  pending : store.storage.pending = []
  replays : store.opened = true → store.view.Replays laterMs

theorem replays_until {request : Request} {laterMs : Int64}
    (hreplays : ReplaysUntil laterMs store) (hclock : request.nowMs ≤ laterMs)
    (hfaultless : request.environment.Faultless) :
    ReplaysUntil laterMs (store.perform request).1 := by
  have hreliable := hfaultless.toReliable
  have heffects := effects_perform (fun _ => hreliable)
    fun hloses : Loses request store =>
      not_losesFile_of_reliable hreliable hloses.2.2
  refine ⟨View.pending_effects hfaultless.not_lossy hreplays.pending heffects,
    fun hopened => ?_⟩
  cases hbefore : store.opened with
  | true =>
      exact (hreplays.replays hbefore).effects hclock hfaultless.not_lossy
        heffects
  | false =>
      have hcall := call_of_opened hbefore hopened
      have houtcome := openStore_cases hreliable hbefore
      obtain ⟨environment, call⟩ := request
      cases hcall
      change (store.openStore environment).1.opened = true at hopened
      change (store.openStore environment).1.view.Replays laterMs
      generalize (store.openStore environment).1 = after
        at houtcome hopened ⊢
      generalize (store.openStore environment).2 = status at houtcome
      cases houtcome with
      | recovered entries tail _ hview _ =>
          rw [hview, View.reopened_of_pending hreplays.pending]
          exact (View.replays_ofLog _ entries _).mono hclock
      | failed _ _ _ hclosed =>
          rw [hclosed] at hopened
          cases hopened

theorem replays_run {requests : List Request} {laterMs : Int64}
    (hfaultless : ∀ request ∈ requests, request.environment.Faultless)
    (hreadings : ∀ request ∈ requests, request.nowMs ≤ laterMs)
    (hstart : ReplaysUntil laterMs store) :
    ReplaysUntil laterMs (machine.run requests store).1 := by
  have halong : machine.Along (fun request _ =>
      request.environment.Faultless ∧ request.nowMs ≤ laterMs) requests store :=
    .of_forall (fun request hrequest _ =>
      ⟨hfaultless request hrequest, hreadings request hrequest⟩) _
  have hstep : ∀ request before, ReplaysUntil laterMs before →
      request.environment.Faultless ∧ request.nowMs ≤ laterMs →
      ReplaysUntil laterMs (machine.step request before).1 :=
    fun _ _ hbefore hrequest => replays_until hbefore hrequest.2 hrequest.1
  exact Machine.run_invariant hstep halong hstart

/-- What is live behind a compaction was live before it. -/
theorem live_compact (hreliable : environment.Reliable)
    (hopened : store.opened = true) (hcoherent : store.view.Coherent)
    {laterMs : Int64} (hclock : environment.nowMs ≤ laterMs) :
    (store.compact environment).1.view.live laterMs =
      store.view.live laterMs := by
  obtain ⟨after, summary, hresult, -, -, -, hcontents⟩ :=
    compact_of_coherent hreliable hopened hcoherent
  rw [hresult]
  funext key
  apply Option.ext
  rintro ⟨value, expiresAtMs⟩
  rw [View.live_eq_some_iff, View.live_eq_some_iff, hcontents,
    View.live_eq_some_iff, and_assoc, and_congr_right_iff,
    and_iff_right_iff_imp]
  exact fun _ hfresh => isExpired_of_later hfresh hclock

/-- A process that dies behind any disk step of a compaction, in any run
without I/O failure: a restart at a reading behind all those of the run drops
nothing from the file and shows what the store showed, and the compaction file
that the crash left never makes a difference. -/
theorem compact_crash_safe (config freshConfig : StoreConfig)
    (data temporary : Option Bytes) (requests : List Request)
    (hfaultless : ∀ request ∈ requests, request.environment.Faultless)
    (environment : Environment) (hreliable : environment.Reliable)
    (later : Environment) (hlater : later.Reliable)
    (hreadings : ∀ request ∈ requests, request.nowMs ≤ later.nowMs)
    (hclock : environment.nowMs ≤ later.nowMs)
    (hinterval : 0 < freshConfig.cleanupIntervalMs) :
    let store := (machine.run requests (new config data temporary)).1
    store.opened = true → ∀ count,
    let crashed := store.crashedCompact environment count
    let fresh := new freshConfig crashed.target crashed.temporary
    (∃ reopened, fresh.openStore later = (reopened, .success) ∧
      reopened.truncatedTailBytes = 0 ∧
      reopened.view.contents = store.view.live later.nowMs) ∧
    ∀ other following, Beside (machine.run following fresh)
      (machine.run following (new freshConfig crashed.target other)) := by
  intro store hopened count crashed fresh
  have hcoherent : store.view.Coherent :=
    coherent_of_reachable (reachable_run (fun request hrequest =>
      (hfaultless request hrequest).toReliable) config data temporary)
  have hbefore : store.view.Replays later.nowMs :=
    (replays_run hfaultless hreadings
      ⟨rfl, fun hnew => by cases hnew⟩).replays hopened
  have hafter : (store.compact environment).1.view.Replays later.nowMs := by
    have heffects : Upkeeps environment.nowMs store.view
        (store.compact environment).1.view :=
      upkeeps_compact fun hloses => not_losesFile_of_reliable hreliable hloses.2
    exact hbefore.effects hclock not_false (heffects.effects False)
  have hwhole : ∃ entries, fresh.storage.bytes = logFormat.imageAll entries ∧
      ∀ cache, (View.ofLog later.nowMs entries cache).contents =
        store.view.live later.nowMs := by
    rcases contents_crashedCompact hreliable hopened hcoherent count with
      hold | hnew
    · obtain ⟨entries, hentries, hcontents⟩ :=
        hbefore.contents_reopened (Int64.le_refl _)
      exact ⟨entries, hold.trans hentries, hcontents⟩
    · obtain ⟨entries, hentries, hcontents⟩ :=
        hafter.contents_reopened (Int64.le_refl _)
      rw [live_compact hreliable hopened hcoherent hclock] at hcontents
      exact ⟨entries, hnew.trans hentries, hcontents⟩
  obtain ⟨entries, hentries, hcontents⟩ := hwhole
  have hlog : LogWithTail entries [] fresh.storage.bytes :=
    hentries ▸ logWithTail_imageAll entries
  obtain ⟨reopened, hresult, hview, -, htail⟩ :=
    openStore_log hlater rfl hinterval hlog
  rw [View.reopened_of_pending rfl] at hview
  refine ⟨⟨reopened, hresult, htail, by rw [hview]; exact hcontents _⟩, ?_⟩
  exact fun other following => run_beside other following fresh

/-- A crash in the first record of the compaction file. -/
theorem compact_crash_safe_in_compaction_file :
    let requests : List Request :=
      [⟨.calm 1, .openStore⟩, ⟨.calm 2, .set [97] [98] none⟩,
        ⟨.calm 3, .set [97] [99] none⟩]
    let store := (machine.run requests (new .small none none)).1
    let crashed := store.crashedCompact (.calm 4) 8
    let fresh := new .small crashed.target crashed.temporary
    (∃ reopened, fresh.openStore (.calm 5) = (reopened, .success) ∧
      reopened.truncatedTailBytes = 0 ∧
      reopened.view.contents = store.view.live 5) ∧
    ∀ other following, Beside (machine.run following fresh)
      (machine.run following (new .small crashed.target other)) := by
  intro requests store
  have hfaultless : ∀ request ∈ requests, request.environment.Faultless := by
    simp [requests, Environment.faultless_calm]
  have hreadings : ∀ request ∈ requests,
      request.nowMs ≤ (Environment.calm 5).nowMs := by
    simp only [requests, List.forall_mem_cons]
    exact ⟨by decide, by decide, by decide, List.forall_mem_nil _⟩
  have hcalm := fun nowMs => (Environment.faultless_calm nowMs).toReliable
  have hopened : store.opened = true := by decide +kernel
  exact compact_crash_safe .small .small none none requests hfaultless
    (.calm 4) (hcalm 4) (.calm 5) (hcalm 5) hreadings (by decide) (by decide)
    hopened 8

/-- A key is dropped at 10, the clock goes back, and the process dies before a
compaction at 3 has changed the disk: the restart shows the key. -/
theorem compact_crash_behind_clock_set_back :
    let store := (machine.run
      [⟨.calm 1, .openStore⟩, ⟨.calm 2, .set [97] [98] (some 5)⟩,
        ⟨.calm 10, .get [97]⟩] (new .small none none)).1
    let crashed := store.crashedCompact (.calm 3) 0
    let reopened := ((new .small crashed.target crashed.temporary).openStore
      (.calm 3)).1
    store.opened = true ∧ store.view.live 3 [97] = none ∧
      reopened.view.contents [97] = some ([98], 7) := by
  decide +kernel

end KeyValueStore

end MiniKV
