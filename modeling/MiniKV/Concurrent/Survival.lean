import MiniKV.Concurrent.Linearizable
import MiniKV.Store.Restarts

/-!
# Calls and the deaths of their process

A process may die at any moment of any execution, with threads in the middle of
their calls and with an unfinished record at the end of the file, and another
one opens a store over the same files.  The callers cannot tell the file from a
timed map that is never lost: a call that was pending has taken effect, or it
never will.
-/

namespace MiniKV

open TimedMap

/-- The end of a process and the opening in the next one.  The last append may
have written a part of its record, and a compaction its temporary file. -/
structure Death where
  rest : Bytes
  temporary : Option Bytes
  config : StoreConfig
  reopening : Environment

/-- When the next process opens its store. -/
abbrev Death.reading (death : Death) : Int64 := death.reopening.nowMs

/-- A death that leaves at most a part of a record, with an opening whose I/O
works. -/
structure Death.Fits (latest : Int64) (death : Death) : Prop where
  unfinished : UnfinishedTail death.rest
  reliable : death.reopening.Reliable
  bound : death.reading ≤ latest

/-- As long as a call has not appended, its append leaves nothing behind when it
fails, in the file or in the put area. -/
def Stage.Lossless : Stage → Prop
  | .invoked request => ¬ request.environment.Lossy
  | .checked request _ => ¬ request.environment.Lossy
  | _ => True

namespace KeyValueStore

variable {latest clock : Int64} {store : KeyValueStore} {map : TimedMap}
variable {request : Request} {key : Bytes} {stage : Stage}
variable {stance : Stance Request Reply Int64}

/-! ## The file in step with the index -/

theorem lossless_proceed (hlossless : stage.Lossless) (nowMs : Int64)
    (store : KeyValueStore) : (store.proceed nowMs stage).2.Lossless := by
  cases stage with
  | invoked request =>
      rw [proceed]
      split
      · exact hlossless
      · trivial
  | checked request readMs =>
      obtain ⟨environment, call⟩ := request
      cases call <;> trivial
  | locked request key =>
      rw [proceed]
      split <;> trivial
  | found request key metadata =>
      rw [proceed]
      split <;> trivial
  | missed request key metadata =>
      rw [proceed]
      split <;> trivial
  | resting => trivial
  | read request key value => trivial
  | expired request key readMs => trivial
  | cleaned request start => trivial
  | answered reply => trivial

theorem replays_upkeeps {later : View}
    (hreplays : View.Replays clock store.view)
    (hupkeeps : Upkeeps clock store.view later) : View.Replays clock later :=
  hreplays.effects (Int64.le_refl clock) id (hupkeeps.effects False)

theorem replays_checked (hopened : store.opened = true)
    (hreplays : View.Replays clock store.view)
    (hserved : Served latest request)
    (hlossless : ¬ request.environment.Lossy) (readMs : Int64) :
    View.Replays clock
      (store.proceed clock (.checked request readMs)).1.view := by
  have hreliable := hserved.reliable_readAt clock
  have heffects : ∀ {later : View}, Effects clock
      (request.readAt clock).environment.Lossy store.view later →
      View.Replays clock later :=
    hreplays.effects (Int64.le_refl clock) hlossless
  obtain ⟨environment, call⟩ := request
  let current : Environment := { environment with nowMs := clock }
  cases call with
  | set key value ttl =>
      exact heffects ((setSection_cases current key value _ hopened).effects
        rfl)
  | get key => exact hreplays
  | keyExists key => exact hreplays
  | remove key => exact heffects (removeSection_cases current key store).effects
  | keys start =>
      exact replays_upkeeps hreplays (upkeeps_cleanupExpired current store)
  | cleanupExpired =>
      exact replays_upkeeps hreplays
        (.single (upkeep_purgeExpired current store))
  | compact =>
      exact replays_upkeeps hreplays
        (upkeeps_compactSection (not_losesFile_of_reliable hreliable))
  | openStore => exact absurd rfl hserved.operates.1
  | close => exact absurd rfl hserved.operates.2

/-- The file stays in step with the index, whatever a thread does next. -/
theorem replays_proceed (hopened : store.opened = true)
    (hreplays : View.Replays clock store.view) (hlossless : stage.Lossless)
    (hfollows : Follows latest clock store.view stage stance) :
    View.Replays clock (store.proceed clock stage).1.view := by
  cases hfollows with
  | @invoked request since hserved hsince =>
      rw [proceed]
      split <;> exact hreplays
  | checked hserved hvalidates hsince hread =>
      exact replays_checked hopened hreplays hserved hlossless _
  | locked hserved hasks haccepted hsince =>
      rw [proceed]
      split <;> exact hreplays
  | @found request key metadata hserved hlookup =>
      have htouched := replays_upkeeps hreplays (.single (.touched _ key))
      rw [proceed]
      split
      all_goals
        next heq =>
          cases congrArg Prod.fst heq
          exact htouched
  | @missed request key metadata hserved hlookup =>
      have hread := replays_upkeeps hreplays (.single (.drained _
        (drained_readStored request.environment key metadata store).drained))
      rw [proceed]
      split
      all_goals
        next heq =>
          rw [heq] at hread
          exact hread
  | read hlookup =>
      exact replays_upkeeps hreplays (.single (.filled _ _ _ hlookup))
  | expired hread =>
      exact replays_upkeeps hreplays (upkeeps_eraseExpired hread _ store)
  | resting => exact hreplays
  | cleaned hsince => exact hreplays
  | answered => exact hreplays

/-- What a store in step leaves in its file stands for the map, also behind an
unfinished record. -/
theorem Refines.rests_torn (hrefines : Refines clock store map)
    (hreplays : View.Replays clock store.view) {rest : Bytes}
    (hrest : UnfinishedTail rest) :
    Rests clock (store.storage.bytes ++ rest) map := by
  have hrests := hrefines.rests (hreplays.inStep hrefines.coherent)
  obtain ⟨-, entries, himage, -⟩ := hreplays
  have hlog := logWithTail_imageAll entries
  rw [← himage] at hlog
  exact hrests.append fun _ => Or.inl ⟨entries, [], hlog, hrest⟩

end KeyValueStore

namespace Calls

variable {Thread : Type} [DecidableEq Thread] {latest : Int64}

/-! ## Executions with deaths -/

/-- The store that the next process finds. -/
def remains (calls : Calls Thread) (death : Death) : KeyValueStore :=
  .new death.config (some (calls.store.storage.bytes ++ death.rest))
    death.temporary

/-- A step of the threads, or the process dies and the next one opens. -/
inductive Mortal (calls : Calls Thread) :
    Option (Boundary Thread Request Reply Int64 ⊕ Death) → Calls Thread → Prop
  | call {label : Option (Boundary Thread Request Reply Int64)}
      {next : Calls Thread} (hstep : Step calls label next) :
      Mortal calls (label.map .inl) next
  | death {death : Death} (hclock : calls.clock ≤ death.reading)
      (hopens : ((calls.remains death).openStore death.reopening).2.ok =
        true) :
      Mortal calls (some (.inr death))
        (start ((calls.remains death).openStore death.reopening).1
          death.reading)

/-- What the file needs in order to stay in step, and every death to be
survived. -/
def Endurable (latest : Int64) :
    Boundary Thread Request Reply Int64 ⊕ Death → Prop
  | .inl (.invoke _ request) =>
      Served latest request ∧ ¬ request.environment.Lossy
  | .inl event => Fits latest event
  | .inr death => death.Fits latest

structure Endures (latest : Int64) (calls : Calls Thread)
    (object : SharedMap Thread) : Prop where
  simulates : Simulates latest calls object
  replays : View.Replays calls.clock calls.store.view
  lossless : ∀ thread, (calls.stage thread).Lossless

namespace Endures

variable {calls : Calls Thread} {object : SharedMap Thread}

omit [DecidableEq Thread] in
theorem fits {event : Boundary Thread Request Reply Int64}
    (hendurable : Endurable latest (.inl event)) : Fits latest event := by
  cases event with
  | invoke thread request => exact hendurable.1
  | answer thread reply => exact hendurable
  | tick nowMs => exact hendurable

omit [DecidableEq Thread] in
/-- A new process with no thread in a call. -/
theorem start {store : KeyValueStore} {map : TimedMap} {clock : Int64}
    (hlatest : clock ≤ latest)
    (hrefines : KeyValueStore.Refines clock store map)
    (hreplays : View.Replays clock store.view) {object : SharedMap Thread}
    (hclock : object.clock = clock) (hmap : object.abstract = map)
    (hstance : object.stance = fun _ => .resting) :
    Endures latest (start store clock) object where
  simulates :=
    { clock := hclock
      bound := hlatest
      refines := hmap ▸ hrefines
      follows := fun _ => hstance ▸ .resting }
  replays := hreplays
  lossless _ := trivial

/-- Between deaths the file stays in step. -/
theorem step (hendures : Endures latest calls object)
    {label : Option (Boundary Thread Request Reply Int64)}
    {next : Calls Thread}
    (hendurable : ∀ event ∈ label, Endurable latest (.inl event))
    (hstep : Step calls label next) :
    View.Replays next.clock next.store.view ∧
      ∀ thread, (next.stage thread).Lossless := by
  obtain ⟨hsimulates, hreplays, hlossless⟩ := hendures
  have hupdate : ∀ (thread : Thread) {stage : Stage}, stage.Lossless →
      ∀ other, (Function.update calls.stage thread stage other).Lossless := by
    intro thread stage hstage
    exact Function.forall_update_iff _ _ |>.mpr
      ⟨hstage, fun other _ => hlossless other⟩
  cases hstep with
  | tick hclock => exact ⟨hreplays.mono hclock, hlossless⟩
  | @invoke thread request hstage =>
      exact ⟨hreplays, hupdate thread (hendurable _ rfl).2⟩
  | @move thread hgranted =>
      exact ⟨KeyValueStore.replays_proceed hsimulates.refines.opened hreplays
        (hlossless thread) (hsimulates.follows thread),
        hupdate thread
          (KeyValueStore.lossless_proceed (hlossless thread) _ _)⟩
  | @answer thread reply hstage => exact ⟨hreplays, hupdate thread trivial⟩

omit [DecidableEq Thread] in
/-- The next process finds the map in the file. -/
theorem death (hendures : Endures latest calls object) {death : Death}
    (hfits : death.Fits latest) (hclock : calls.clock ≤ death.reading)
    (hopens : ((calls.remains death).openStore death.reopening).2.ok = true) :
    Endures latest
      (Calls.start ((calls.remains death).openStore death.reopening).1
        death.reading)
      { object with
        clock := death.reading
        stance := fun _ => .resting } := by
  obtain ⟨entries, tail, hlog, hview, hopened⟩ :=
    KeyValueStore.openStore_ok hfits.reliable rfl hopens
  have hharmless : KeyValueStore.HarmlessAtRest death.reading
      (calls.store.storage.bytes ++ death.rest) [] := .nil
  have hrests : KeyValueStore.Rests calls.clock
      (calls.store.storage.bytes ++ death.rest) object.abstract :=
    hendures.simulates.refines.rests_torn hendures.replays hfits.unfinished
  obtain ⟨hrefines, -⟩ :=
    (hrests.mono hclock).refines hharmless hlog hopened hview
  have hreplays :=
    KeyValueStore.replays_openStore hfits.reliable rfl rfl hopens
  exact .start hfits.bound hrefines hreplays rfl rfl rfl

/-- The forward simulation, with deaths as crashes. -/
theorem mortal (hendures : Endures latest calls object)
    {label : Option (Boundary Thread Request Reply Int64 ⊕ Death)}
    {next : Calls Thread}
    (hendurable : ∀ event ∈ label, Endurable latest event)
    (hstep : Mortal calls label next) :
    ∃ after, Observed (AtomicObject.Durable Amid Death.reading) object
        label.toList after ∧ Endures latest next after := by
  cases hstep with
  | @call label next hstep =>
      have hevents : ∀ event ∈ label, Endurable latest (.inl event) := by
        intro event hevent
        exact hendurable _ (Option.mem_map_of_mem _ hevent)
      obtain ⟨after, hobserved, hsimulates⟩ := hendures.simulates.step
        (fun event hevent => fits (hevents event hevent)) hstep
      obtain ⟨hreplays, hlossless⟩ := hendures.step hevents hstep
      have hdurable : Observed (AtomicObject.Durable Amid Death.reading) object
          (label.toList.map .inl) after :=
        AtomicObject.Durable.of_observed hobserved
      rw [← Option.toList_map] at hdurable
      exact ⟨after, hdurable, hsimulates, hreplays, hlossless⟩
  | @death death hclock hopens =>
      have hcrash : object.clock ≤ death.reading :=
        hendures.simulates.clock ▸ hclock
      exact ⟨_, .single (.crash hcrash),
        hendures.death (hendurable _ rfl) hclock hopens⟩

end Endures

/-- Threads that call a store that has opened, in one process after the other,
see a timed map of the recovered records that no death touches.  Each call takes
effect once between its invocation and its answer, `keys` at two moments, or not
any more when its process dies first. -/
theorem calls_are_durably_linearizable (config : StoreConfig)
    (data temporary : Option Bytes) {opening : Environment}
    (hopening : opening.Reliable)
    (hopens : ((KeyValueStore.new config data temporary).openStore
      opening).2.ok = true)
    (hlatest : opening.nowMs ≤ latest)
    {events : List (Boundary Thread Request Reply Int64 ⊕ Death)}
    (hendurable : ∀ event ∈ events, Endurable latest event)
    {last : Calls Thread}
    (hrun : Observed Mortal (start ((KeyValueStore.new config data
      temporary).openStore opening).1 opening.nowMs) events last) :
    ∃ entries tail, LogWithTail entries tail (data.getD []) ∧
      ∃ object : SharedMap Thread,
        Observed (AtomicObject.Durable Amid Death.reading)
          (.start (TimedMap.ofLog entries) opening.nowMs) events object ∧
        AtomicObject.Sequential Amid (TimedMap.ofLog entries)
          object.occurrences object.abstract ∧
        KeyValueStore.Refines last.clock last.store object.abstract := by
  obtain ⟨entries, tail, hlog, hrefines⟩ :=
    KeyValueStore.refines_openStore hopening rfl rfl hopens
  have hstart : Endures latest (start ((KeyValueStore.new config data
      temporary).openStore opening).1 opening.nowMs : Calls Thread)
      (.start (TimedMap.ofLog entries) opening.nowMs) :=
    .start hlatest hrefines
      (KeyValueStore.replays_openStore hopening rfl rfl hopens) rfl rfl rfl
  obtain ⟨object, hobserved, hendures⟩ :=
    Observed.simulate (fun _ _ _ _ hevent hstep hrelated =>
      Endures.mortal hrelated hevent hstep) hendurable hrun hstart
  obtain ⟨occurrences, hoccurrences, hsequential⟩ :=
    AtomicObject.accounts_of_durable hobserved
  rw [AtomicObject.start, List.nil_append] at hoccurrences
  rw [← hoccurrences] at hsequential
  exact ⟨entries, tail, hlog, object, hobserved, hsequential,
    hendures.simulates.refines⟩

/-- A process dies between the section of a `set` and its answer, with two bytes
of another record in the file; a `get` in the next one finds the value. -/
def getBehindDeath : List (Boundary Bool Request Reply Int64 ⊕ Death) :=
  [.inl (.invoke false ⟨.calm 0, .set [97] [98] none⟩),
    .inr ⟨[75, 86], none, ⟨"data.log", 8, 50, false⟩, .calm 4⟩,
    .inl (.invoke true ⟨.calm 0, .get [97]⟩),
    .inl (.answer true (.value (.ok [98])))]

theorem endurable_getBehindDeath :
    ∀ event ∈ getBehindDeath, Endurable 6 event := by
  have hcalm := Environment.faultless_calm 0
  simp only [getBehindDeath, List.forall_mem_cons]
  exact ⟨⟨⟨by simp [Call.Operates], hcalm.toReliable, nofun⟩, hcalm.not_lossy⟩,
    ⟨.inl (by decide), (Environment.faultless_calm 4).toReliable, by decide⟩,
    ⟨⟨by simp [Call.Operates], hcalm.toReliable, trivial⟩, hcalm.not_lossy⟩,
    trivial, by simp⟩

/-- The value that the `get` of a thread is about to return. -/
def value (calls : Calls Thread) (thread : Thread) : Option Bytes :=
  match calls.stage thread with
  | .answered (.value (.ok value)) => some value
  | _ => none

omit [DecidableEq Thread] in
theorem stage_of_value {calls : Calls Thread} {thread : Thread} {value : Bytes}
    (hvalue : calls.value thread = some value) :
    calls.stage thread = .answered (.value (.ok value)) := by
  unfold Calls.value at hvalue
  split at hvalue
  next heq =>
    cases hvalue
    exact heq
  next => cases hvalue

theorem observed_getBehindDeath :
    ∃ last, Observed Mortal (start ((KeyValueStore.new .small none
      none).openStore (.calm 1)).1 1) getBehindDeath last := by
  have hgranted : ∀ {calls : Calls Bool} {thread : Bool},
      (calls.stage thread).exclusive = false → calls.Granted thread :=
    fun hshared hexclusive => Bool.noConfusion (hshared.symm.trans hexclusive)
  have hmove : ∀ {calls : Calls Bool} {thread : Bool},
      calls.Granted thread → Mortal calls none (calls.moved thread) :=
    fun hfree => .call (.move hfree)
  exact ⟨_, .seen (.call (@Step.invoke _ _ _ false _ rfl)) <|
    .silent (@hmove _ false (hgranted (by decide +kernel))) <|
    .silent (@hmove _ false (by
      intro hexclusive thread
      cases thread <;> decide +kernel)) <|
    .seen (.death (by decide +kernel) (by decide +kernel)) <|
    .seen (.call (@Step.invoke _ _ _ true _ rfl)) <|
    .silent (@hmove _ true (hgranted (by decide +kernel))) <|
    .silent (@hmove _ true (hgranted (by decide +kernel))) <|
    .silent (@hmove _ true (hgranted (by decide +kernel))) <|
    .silent (@hmove _ true (hgranted (by decide +kernel))) <|
    .silent (@hmove _ true (hgranted (by decide +kernel))) <|
    .silent (@hmove _ true (hgranted (by decide +kernel))) <|
    .seen (.call (@Step.answer _ _ _ true _
      (stage_of_value (by decide +kernel)))) <| .nil _⟩

theorem calls_are_durably_linearizable_behind_death :
    ∃ last : Calls Bool, ∃ entries tail, LogWithTail entries tail [] ∧
      ∃ object : SharedMap Bool,
        Observed (AtomicObject.Durable Amid Death.reading)
          (.start (TimedMap.ofLog entries) 1) getBehindDeath object ∧
        AtomicObject.Sequential Amid (TimedMap.ofLog entries)
          object.occurrences object.abstract ∧
        KeyValueStore.Refines last.clock last.store object.abstract := by
  obtain ⟨last, hlast⟩ := observed_getBehindDeath
  have hopening := (Environment.faultless_calm 1).toReliable
  have hlatest : (1 : Int64) ≤ 6 := by decide
  exact ⟨last, calls_are_durably_linearizable .small none none hopening
    (by decide +kernel) hlatest endurable_getBehindDeath hlast⟩

end Calls

end MiniKV
