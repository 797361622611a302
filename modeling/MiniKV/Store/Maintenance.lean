import MiniKV.Store.Restarts

/-!
# Maintenance is unobservable

Cleaning up, compacting and opening again, in the same process or in another one
with another configuration, change no answer: a run with such steps anywhere in
between answers its calls as the run without them does.
-/

namespace MiniKV

/-- What an operator does to a store between the calls of its users. -/
inductive Maintenance
  | clean (environment : Environment)
  | compact (environment : Environment)
  | reopen (how : Restart) (environment : Environment)

def Maintenance.environment : Maintenance → Environment
  | .clean environment => environment
  | .compact environment => environment
  | .reopen _ environment => environment

/-- Replies that differ at most in the text of a failure and in the numbers that
a cleanup or a compaction reports about the file. -/
inductive Reply.Agrees : Reply → Reply → Prop
  | status {left right : Status} (hcode : left.code = right.code) :
      Agrees (.status left) (.status right)
  | value (value : Bytes) : Agrees (.value (.ok value)) (.value (.ok value))
  | valueFailed {left right : Status} (hcode : left.code = right.code) :
      Agrees (.value (.error left)) (.value (.error right))
  | flag (flag : Bool) : Agrees (.flag (.ok flag)) (.flag (.ok flag))
  | flagFailed {left right : Status} (hcode : left.code = right.code) :
      Agrees (.flag (.error left)) (.flag (.error right))
  | listing (listed : List Bytes) :
      Agrees (.listing (.ok listed)) (.listing (.ok listed))
  | count (left right : ℕ) : Agrees (.count left) (.count right)
  | summary (left right : CompactionSummary) :
      Agrees (.summary (.ok left)) (.summary (.ok right))

namespace TimedMap

variable {map leftAfter rightAfter : TimedMap} {nowMs : Int64}
variable {request : Request} {left right : Reply}

theorem Live.unique {key value other : Bytes}
    (hlive : map.Live nowMs key value) (hother : map.Live nowMs key other) :
    value = other := by
  obtain ⟨expiry, hfound, -⟩ := hlive
  obtain ⟨late, hlate, -⟩ := hother
  cases hfound.symm.trans hlate
  rfl

/-- The map leaves a call one answer, unless the put area decides it. -/
theorem Allowed.agrees (hdrain : request.environment.append.drain = none)
    (hleft : map.Allowed request left leftAfter)
    (hright : map.Allowed request right rightAfter) :
    left.Agrees right ∧ leftAfter = rightAfter := by
  have hworks : request.environment.append.fault = none →
      ¬ request.environment.FailsAppend :=
    fun hfault hfails => hfails.elim (fun hne => hne hdrain)
      fun hne => hne hfault
  cases hleft with
  | set haccepted hfault =>
      cases hright with
      | set => exact ⟨.status rfl, rfl⟩
      | setFailed _ hfails => exact absurd hfails (hworks hfault)
      | setRejected hrejected => exact absurd haccepted hrejected
  | setFailed haccepted hfails hstatus =>
      cases hright with
      | set _ hfault => exact absurd hfails (hworks hfault)
      | setFailed _ _ hother => exact ⟨.status (hstatus.trans hother.symm), rfl⟩
      | setRejected hrejected => exact absurd haccepted hrejected
  | setRejected hrejected hstatus =>
      cases hright with
      | set haccepted => exact absurd haccepted hrejected
      | setFailed haccepted => exact absurd haccepted hrejected
      | setRejected _ hother => exact ⟨.status (hstatus.trans hother.symm), rfl⟩
  | got haccepted hlive =>
      cases hright with
      | got _ hother =>
          rw [hlive.unique hother]
          exact ⟨.value _, rfl⟩
      | gotNothing _ hmissing => exact absurd ⟨_, hlive⟩ hmissing
      | getRejected hrejected => exact absurd haccepted hrejected
  | gotNothing haccepted hmissing hstatus =>
      cases hright with
      | got _ hlive => exact absurd ⟨_, hlive⟩ hmissing
      | gotNothing _ _ hother =>
          exact ⟨.valueFailed (hstatus.trans hother.symm), rfl⟩
      | getRejected hrejected => exact absurd haccepted hrejected
  | getRejected hrejected hstatus =>
      cases hright with
      | got haccepted => exact absurd haccepted hrejected
      | gotNothing haccepted => exact absurd haccepted hrejected
      | getRejected _ hother =>
          exact ⟨.valueFailed (hstatus.trans hother.symm), rfl⟩
  | existsTrue haccepted hpresent =>
      cases hright with
      | existsTrue => exact ⟨.flag true, rfl⟩
      | existsFalse _ hmissing => exact absurd hpresent hmissing
      | existsRejected hrejected => exact absurd haccepted hrejected
  | existsFalse haccepted hmissing =>
      cases hright with
      | existsTrue _ hpresent => exact absurd hpresent hmissing
      | existsFalse => exact ⟨.flag false, rfl⟩
      | existsRejected hrejected => exact absurd haccepted hrejected
  | existsRejected hrejected hstatus =>
      cases hright with
      | existsTrue haccepted => exact absurd haccepted hrejected
      | existsFalse haccepted => exact absurd haccepted hrejected
      | existsRejected _ hother =>
          exact ⟨.flagFailed (hstatus.trans hother.symm), rfl⟩
  | removed haccepted hpresent hfault =>
      cases hright with
      | removed => exact ⟨.status rfl, rfl⟩
      | removedNothing _ hmissing => exact absurd hpresent hmissing
      | removeFailed _ _ hfails => exact absurd hfails (hworks hfault)
      | removeRejected hrejected => exact absurd haccepted hrejected
  | removedNothing haccepted hmissing hstatus =>
      cases hright with
      | removed _ hpresent => exact absurd hpresent hmissing
      | removedNothing _ _ hother =>
          exact ⟨.status (hstatus.trans hother.symm), rfl⟩
      | removeFailed _ hpresent => exact absurd hpresent hmissing
      | removeRejected hrejected => exact absurd haccepted hrejected
  | removeFailed haccepted hpresent hfails hstatus =>
      cases hright with
      | removed _ _ hfault => exact absurd hfails (hworks hfault)
      | removedNothing _ hmissing => exact absurd hpresent hmissing
      | removeFailed _ _ _ hother =>
          exact ⟨.status (hstatus.trans hother.symm), rfl⟩
      | removeRejected hrejected => exact absurd haccepted hrejected
  | removeRejected hrejected hstatus =>
      cases hright with
      | removed haccepted => exact absurd haccepted hrejected
      | removedNothing haccepted => exact absurd haccepted hrejected
      | removeFailed haccepted => exact absurd haccepted hrejected
      | removeRejected _ hother =>
          exact ⟨.status (hstatus.trans hother.symm), rfl⟩
  | keys hascending hlisted =>
      cases hright with
      | keys hother hsame =>
          have hequal := List.Pairwise.eq_of_mem_iff hascending hother
            fun key => (hlisted key).trans (hsame key).symm
          rw [hequal]
          exact ⟨.listing _, rfl⟩
  | cleaned =>
      cases hright with
      | cleaned => exact ⟨.count _ _, rfl⟩
  | compacted =>
      cases hright with
      | compacted => exact ⟨.summary _ _, rfl⟩

end TimedMap

/-- The environment without a fault of the put area. -/
def Environment.undrained (environment : Environment) : Environment :=
  { environment with append := { environment.append with drain := none } }

def Request.undrained (request : Request) : Request :=
  ⟨request.environment.undrained, request.call⟩

/-- An empty put area is written without a fault. -/
theorem AppendOnlyStore.appendRecordLocked_of_pending {store : AppendOnlyStore}
    (hpending : store.pending = []) (openAnswers : OpenAnswers)
    (answers : AppendAnswers) (record : Record) :
    store.appendRecordLocked openAnswers answers record =
      store.appendRecordLocked openAnswers { answers with drain := none }
        record := by
  have hheld : (store.ensureOpenLocked openAnswers).1.pending = [] := by
    rw [pending_ensureOpenLocked, hpending]
  unfold appendRecordLocked
  dsimp only
  rw [drain_of_pending _ hheld, drain_of_pending _ hheld]

namespace KeyValueStore

open TimedMap

variable {environment : Environment} {store left right : KeyValueStore}
variable {map : TimedMap} {nowMs : Int64}

theorem readLiveRecords_undrained (environment : Environment)
    (keys : List Bytes) (store : KeyValueStore) :
    store.readLiveRecords environment keys =
      store.readLiveRecords environment.undrained keys := by
  induction keys generalizing store with
  | nil => rfl
  | cons key keys ih =>
      simp only [readLiveRecords, ih]
      rfl

theorem perform_undrained (hpending : store.storage.pending = [])
    (request : Request) :
    store.perform request = store.perform request.undrained := by
  obtain ⟨environment, call⟩ := request
  have happend := AppendOnlyStore.appendRecordLocked_of_pending hpending
    environment.openAnswers environment.append
  cases call with
  | set key value ttl =>
      have hsection : ∀ expiresAtMs,
          store.setSection environment key value expiresAtMs =
            store.setSection environment.undrained key value expiresAtMs := by
        intro expiresAtMs
        rw [setSection, AppendOnlyStore.appendSet, happend]
        rfl
      simp only [perform, set, hsection]
      rfl
  | remove key =>
      have hsection : store.removeSection environment key =
          store.removeSection environment.undrained key := by
        unfold removeSection AppendOnlyStore.appendDelete
        rw [happend]
        rfl
      simp only [perform, remove, hsection]
      rfl
  | compact =>
      have hsection : store.compactSection environment =
          store.compactSection environment.undrained := by
        unfold compactSection
        dsimp only
        rw [readLiveRecords_undrained environment]
        rfl
      simp only [perform, compact, hsection]
      rfl
  | _ => rfl

/-- The step of an operator. -/
def maintain : Maintenance → KeyValueStore → KeyValueStore
  | .clean environment, store => (store.cleanupExpired environment).1
  | .compact environment, store => (store.compact environment).1
  | .reopen how environment, store =>
      ((store.restart how).openStore environment).1

/-- The clock readings of calls and of maintenance. -/
def serviceReading : Request ⊕ Maintenance → Int64 :=
  Sum.elim Request.nowMs fun service => service.environment.nowMs

/-- A call between opening and closing in which only an append may fail, without
leaving a byte in the file or in the put area; or maintenance without failure,
and by a process with a positive cleanup interval. -/
def Serviceable : Request ⊕ Maintenance → Prop
  | .inl request => request.call.Operates ∧ request.environment.Reliable ∧
      ¬ request.environment.Lossy ∧ InRange request
  | .inr service => service.environment.Reliable ∧
      ∀ how environment, service = .reopen how environment →
      ∀ config : StoreConfig, 0 < config.cleanupIntervalMs →
        0 < (how.configured config).cleanupIntervalMs

/-- An open store that stands for the map and whose file replays to it. -/
structure Serves (nowMs : Int64) (store : KeyValueStore) (map : TimedMap) :
    Prop where
  refines : Refines nowMs store map
  replays : View.Replays nowMs store.view
  interval : 0 < store.config.cleanupIntervalMs

namespace Serves

theorem mono (hserves : Serves nowMs store map) {laterMs : Int64}
    (hclock : nowMs ≤ laterMs) : Serves laterMs store map :=
  ⟨hserves.refines.mono hclock, hserves.replays.mono hclock, hserves.interval⟩

theorem rests (hserves : Serves nowMs store map) :
    Rests nowMs store.storage.bytes map :=
  hserves.refines.rests (hserves.replays.inStep hserves.refines.coherent)

/-- A closed store over the file of such a store opens to another one. -/
theorem openStore (hreliable : environment.Reliable)
    (hclosed : store.opened = false)
    (hpending : store.storage.pending = [])
    (hinterval : 0 < store.config.cleanupIntervalMs)
    (hrests : Rests environment.nowMs store.storage.bytes map) :
    Serves environment.nowMs (store.openStore environment).1 map := by
  obtain ⟨entries, tail, -, hlog, -⟩ := id hrests
  obtain ⟨after, hresult, hview, hopened, -⟩ :=
    openStore_log hreliable hclosed hinterval hlog
  have hconfig := config_openStore environment store
  have hharmless : HarmlessAtRest environment.nowMs store.storage.bytes
      store.view.pending := fun hne => absurd hpending hne
  have hrefines := (hrests.refines hharmless hlog hopened hview).1
  rw [View.reopened_of_pending hpending] at hview
  have hreplays := View.replays_ofLog environment.nowMs entries store.cache
  change View.Replays _ (View.ofLog _ _ store.view.cache) at hreplays
  rw [← hview] at hreplays
  rw [hresult] at hconfig ⊢
  exact ⟨hrefines, hreplays, hconfig ▸ hinterval⟩

theorem upkeeps {after : KeyValueStore} (hserves : Serves nowMs store map)
    (hupkeeps : Upkeeps nowMs store.view after.view)
    (hopened : after.opened = store.opened)
    (hconfig : after.config = store.config) : Serves nowMs after map where
  refines := hserves.refines.upkeeps hupkeeps hopened
  replays := hserves.replays.effects (Int64.le_refl _) not_false
    (hupkeeps.effects False)
  interval := hconfig ▸ hserves.interval

/-- Maintenance leaves the map as it is. -/
theorem maintain {service : Maintenance} {startMs : Int64}
    (hserves : Serves startMs store map)
    (hclock : startMs ≤ service.environment.nowMs)
    (hserviceable : Serviceable (.inr service)) :
    Serves service.environment.nowMs (store.maintain service) map := by
  obtain ⟨hreliable, hinterval⟩ := hserviceable
  have hnow := hserves.mono hclock
  cases service with
  | clean environment =>
      exact hnow.upkeeps (upkeeps_cleanupExpired environment store)
        (opened_cleanupExpired environment store)
        (config_perform ⟨environment, .cleanupExpired⟩ store)
  | compact environment =>
      have hkeeps : ¬ (store.opened = true ∧ LosesFile environment store) :=
        fun hloses => not_losesFile_of_reliable hreliable hloses.2
      exact hnow.upkeeps (upkeeps_compact hkeeps)
        (opened_compact environment store) (config_compact environment store)
  | reopen how environment =>
      have hpending : store.storage.pending = [] := hnow.replays.1
      have hnothing : (store.restart how).storage.pending = [] := by
        rcases pending_restart how store with hnil | hsame
        · exact hnil
        · rw [hsame, hpending]
      have hwritten : how.written store.storage.pending = [] := by
        rw [hpending]
        cases how with
        | closed | died => rfl
        | exited _ drain => exact AppendOnlyStore.drained_nil drain
      have hrests := hnow.rests
      rw [← List.append_nil store.storage.bytes, ← hwritten, ← bytes_restart]
        at hrests
      have hpositive :=
        hinterval how environment rfl store.config hnow.interval
      rw [← config_restart] at hpositive
      exact .openStore hreliable (opened_restart how store) hnothing hpositive
        hrests

/-- A call changes the map as it changes any store for that map. -/
theorem perform {request : Request} {startMs : Int64}
    (hserves : Serves startMs store map) (hclock : startMs ≤ request.nowMs)
    (hserviceable : Serviceable (.inl request)) :
    ∃ next, map.Allowed request.undrained (store.perform request).2 next ∧
      Serves request.nowMs (store.perform request).1 next := by
  obtain ⟨hoperates, hreliable, hlossless, hrange⟩ := hserviceable
  have hundrained : request.undrained.environment.Reliable :=
    ⟨hreliable.openAnswers, hreliable.recover, hreliable.read,
      hreliable.compact, hreliable.startThread⟩
  have hsame := perform_undrained hserves.replays.1 request
  obtain ⟨next, hallowed, hnext⟩ : ∃ next, map.Allowed request.undrained
      (store.perform request.undrained).2 next ∧
      Refines request.nowMs (store.perform request.undrained).1 next :=
    step_refines hserves.refines hclock hoperates hundrained hrange
  rw [← hsame] at hallowed hnext
  have heffects := effects_perform (fun _ => hreliable)
    (fun hloses : Loses request store =>
      not_losesFile_of_reliable hreliable hloses.2.2)
  exact ⟨next, hallowed, hnext,
    (hserves.replays.mono hclock).effects (Int64.le_refl _) hlossless heffects,
    config_perform request store ▸ hserves.interval⟩

end Serves

/-- Two stores for one map. -/
def SameMap (nowMs : Int64) (left right : KeyValueStore) : Prop :=
  ∃ map, Serves nowMs left map ∧ Serves nowMs right map

/-- Maintenance is unobservable, on a clock that does not go back: two processes
with positive cleanup intervals open copies of one file without a failure and
get the same calls; whatever maintenance one of them undergoes in between, and
whenever, it gives the answers of the other. -/
theorem maintenance_is_unobservable (config other : StoreConfig)
    (hconfig : 0 < config.cleanupIntervalMs)
    (hother : 0 < other.cleanupIntervalMs) {data : Bytes}
    (temporary : Option Bytes) {entries : List LogEntry} {tail : Bytes}
    (hlog : LogWithTail entries tail data) (opening : Environment)
    (hopening : opening.Reliable) (inputs : List (Request ⊕ Maintenance))
    (hpaced : Machine.Paced serviceReading opening.nowMs inputs)
    (hserviceable : ∀ input ∈ inputs, Serviceable input) :
    List.Forall₂ Reply.Agrees
      (machine.run (Machine.answered inputs)
        ((new config (some data) temporary).openStore opening).1).2
      (machine.outputs maintain inputs
        ((new other (some data) temporary).openStore opening).1) := by
  have hrests := rests_ofLog hlog opening.nowMs
  have hstart : SameMap opening.nowMs
      ((new config (some data) temporary).openStore opening).1
      ((new other (some data) temporary).openStore opening).1 :=
    ⟨ofLog entries, .openStore hopening rfl rfl hconfig hrests,
      .openStore hopening rfl rfl hother hrests⟩
  have hstep : ∀ startMs request left right, SameMap startMs left right →
      startMs ≤ serviceReading (.inl request) →
      Serviceable (.inl request) →
      Reply.Agrees (machine.step request left).2
          (machine.step request right).2 ∧
        SameMap (serviceReading (.inl request))
          (machine.step request left).1 (machine.step request right).1 := by
    rintro startMs request left right ⟨map, hleft, hright⟩ hclock hrequest
    obtain ⟨next, hallowed, hnext⟩ := hleft.perform hclock hrequest
    obtain ⟨later, hlater, hlast⟩ := hright.perform hclock hrequest
    obtain ⟨hagrees, rfl⟩ := hallowed.agrees rfl hlater
    exact ⟨hagrees, next, hnext, hlast⟩
  have hsilent : ∀ startMs service left right, SameMap startMs left right →
      startMs ≤ serviceReading (.inr service) → Serviceable (.inr service) →
      SameMap (serviceReading (.inr service)) left (maintain service right) := by
    rintro startMs service left right ⟨map, hleft, hright⟩ hclock hservice
    exact ⟨map, hleft.mono hclock, hright.maintain hclock hservice⟩
  exact Machine.outputs_agree hstep hsilent hpaced hserviceable hstart

/-- Every kind of maintenance, once behind the deadline of a key. -/
theorem maintenance_is_unobservable_behind_deadline :
    let large : StoreConfig := ⟨"data.log", 64, 50, true⟩
    let inputs : List (Request ⊕ Maintenance) :=
      [.inl ⟨.calm 1, .set [97] [98] (some 10)⟩, .inr (.compact (.calm 2)),
        .inl ⟨.calm 3, .set [99] [100] none⟩,
        .inr (.reopen (.exited .small none) (.calm 12)),
        .inl ⟨.calm 13, .get [97]⟩, .inr (.clean (.calm 14)),
        .inl ⟨.calm 15, .keys []⟩, .inr (.reopen .closed (.calm 16)),
        .inl ⟨.calm 17, .remove [99]⟩]
    List.Forall₂ Reply.Agrees
      (machine.run (Machine.answered inputs)
        ((new .small (some []) none).openStore (.calm 0)).1).2
      (machine.outputs maintain inputs
        ((new large (some []) none).openStore (.calm 0)).1) := by
  intro large inputs
  have hcalm := fun nowMs => Environment.faultless_calm nowMs
  have hcall : ∀ nowMs call, Call.Operates call → InRange ⟨.calm nowMs, call⟩ →
      Serviceable (.inl ⟨.calm nowMs, call⟩) :=
    fun nowMs _ hoperates hrange =>
      ⟨hoperates, (hcalm nowMs).toReliable, (hcalm nowMs).not_lossy, hrange⟩
  have hclosed : Serviceable (.inr (.reopen .closed (.calm 16))) := by
    refine ⟨(hcalm 16).toReliable, ?_⟩
    rintro how environment ⟨⟩ config hinterval
    exact hinterval
  have hexited :
      Serviceable (.inr (.reopen (.exited .small none) (.calm 12))) := by
    refine ⟨(hcalm 12).toReliable, ?_⟩
    rintro how environment ⟨⟩ config -
    exact (by decide : 0 < StoreConfig.small.cleanupIntervalMs)
  have hservice : ∀ service : Maintenance, service.environment.Reliable →
      (∀ how environment, service ≠ .reopen how environment) →
      Serviceable (.inr service) :=
    fun _ hreliable hother => ⟨hreliable, fun how environment hreopen =>
      absurd hreopen (hother how environment)⟩
  have hserviceable : ∀ input ∈ inputs, Serviceable input := by
    simp only [inputs, List.forall_mem_cons]
    refine ⟨hcall _ _ (by simp [Call.Operates]) ?_,
      hservice _ (hcalm 2).toReliable (by simp),
      hcall _ _ (by simp [Call.Operates]) (by simp [InRange]), hexited,
      hcall _ _ (by simp [Call.Operates]) trivial,
      hservice _ (hcalm 14).toReliable (by simp),
      hcall _ _ (by simp [Call.Operates]) trivial, hclosed,
      hcall _ _ (by simp [Call.Operates]) trivial, by simp⟩
    rintro count ⟨⟩ -
    decide
  have hpaced : Machine.Paced serviceReading 0 inputs :=
    ⟨by decide, by decide, by decide, by decide, by decide, by decide,
      by decide, by decide, by decide, trivial⟩
  have hlog : LogWithTail [] [] [] := ⟨rfl, unfinishedTail_nil⟩
  exact maintenance_is_unobservable .small large (by decide) (by decide) none
    hlog (.calm 0) (hcalm 0).toReliable inputs hpaced hserviceable

end KeyValueStore

end MiniKV
