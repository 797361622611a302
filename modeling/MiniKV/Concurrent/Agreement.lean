import MiniKV.Concurrent.Calls
import MiniKV.Concurrent.NoStaleRead

/-!
# The two models of the threads

`Calls` executes every call from its invocation to its answer, whatever fails
under it; `System` has the steps that touch the store, and records what they
did.  As long as nothing fails, each execution of the calls of an open store is
one of the system: the stores are the same at every moment, and each value and
each listing that is answered is one that the system has recorded.  What is
proved of the system therefore holds of the calls.
-/

namespace MiniKV

/-- A call on an open store under which nothing fails. -/
structure Request.Works (request : Request) : Prop where
  operates : request.call.Operates
  faultless : request.environment.Faultless

theorem Request.Works.faultless_readAt {request : Request}
    (hworks : request.Works) (nowMs : Int64) :
    (request.readAt nowMs).environment.Faultless :=
  ⟨⟨hworks.faultless.openAnswers, hworks.faultless.recover,
    hworks.faultless.read, hworks.faultless.compact,
    hworks.faultless.startThread⟩, hworks.faultless.append⟩

namespace System

variable {Thread : Type}

/-- The system has recorded what the reply tells. -/
structure Records (system : System Thread) (reply : Reply) : Prop where
  value : ∀ value, reply = .value (.ok value) →
    ∃ returned ∈ system.returned, returned.value = value
  listing : ∀ keys, reply = .listing (.ok keys) →
    ∃ listed ∈ system.listed, listed.keys = keys

/-- Where a thread stands in the calls and where in the system. -/
inductive Stands (system : System Thread) : Stage → Position → Prop
  | resting : Stands system .resting .idle
  | invoked {request : Request} (hworks : request.Works) :
      Stands system (.invoked request) .idle
  | setReady {environment : Environment} {key value : Bytes}
      {ttl : Option Int64} {readMs : Int64}
      (hworks : Request.Works ⟨environment, .set key value ttl⟩) :
      Stands system (.checked ⟨environment, .set key value ttl⟩ readMs)
        (.setReady key value (KeyValueStore.deadline readMs ttl))
  | checked {request : Request} {readMs : Int64} (hworks : request.Works)
      (hvalidates : request.call.validate.ok = true)
      (hset : ∀ key value ttl, request.call ≠ .set key value ttl) :
      Stands system (.checked request readMs) .idle
  | locked {request : Request} {key : Bytes} {before : List Section}
      (hworks : request.Works) :
      Stands system (.locked request key) (.getLocked key before)
  | found {request : Request} {key : Bytes} {metadata : RecordMetadata}
      {nowMs : Int64} {before : List Section} (hworks : request.Works) :
      Stands system (.found request key metadata)
        (.getFound key metadata nowMs before)
  | missed {request : Request} {key : Bytes} {metadata : RecordMetadata}
      {nowMs : Int64} {before : List Section} (hworks : request.Works) :
      Stands system (.missed request key metadata)
        (.getMissed key metadata nowMs before)
  | read {request : Request} {key value : Bytes} {nowMs : Int64}
      {before : List Section} :
      Stands system (.read request key value)
        (.getRead key value nowMs before)
  | expired {request : Request} {key : Bytes} {readMs : Int64} :
      Stands system (.expired request key readMs) (.getExpired key readMs)
  | cleaned {request : Request} {start : Bytes} {nowMs : Int64} :
      Stands system (.cleaned request start) (.keysCleaned start nowMs)
  | answered {reply : Reply} (hrecords : system.Records reply) :
      Stands system (.answered reply) .idle

/-- The system has the store of the calls and its threads where theirs are. -/
structure Mirrors (initial : Ledger) (calls : Calls Thread)
    (system : System Thread) : Prop where
  invariant : system.Invariant initial
  store : system.store = calls.store
  clock : system.clock ≤ calls.clock
  stands : ∀ thread, Stands system (calls.stage thread) (system.position thread)

variable {initial : Ledger} {calls : Calls Thread}
variable {system later : System Thread} {stage : Stage} {position : Position}
variable {request : Request} {reply : Reply}

/-! ## What is recorded -/

theorem Records.of_subset (hrecords : system.Records reply)
    (hreturned : system.returned ⊆ later.returned)
    (hlisted : system.listed ⊆ later.listed) : later.Records reply where
  value value hvalue := by
    obtain ⟨returned, hmem, heq⟩ := hrecords.value value hvalue
    exact ⟨returned, hreturned hmem, heq⟩
  listing keys hkeys := by
    obtain ⟨listed, hmem, heq⟩ := hrecords.listing keys hkeys
    exact ⟨listed, hlisted hmem, heq⟩

/-- Threads that take no step stand where they stood. -/
theorem Stands.of_subset (hstands : Stands system stage position)
    (hreturned : system.returned ⊆ later.returned)
    (hlisted : system.listed ⊆ later.listed) : Stands later stage position := by
  cases hstands with
  | resting => exact .resting
  | invoked hworks => exact .invoked hworks
  | setReady hworks => exact .setReady hworks
  | checked hworks hvalidates hset => exact .checked hworks hvalidates hset
  | locked hworks => exact .locked hworks
  | found hworks => exact .found hworks
  | missed hworks => exact .missed hworks
  | read => exact .read
  | expired => exact .expired
  | cleaned => exact .cleaned
  | answered hrecords =>
      exact .answered (hrecords.of_subset hreturned hlisted)

/-- A reply without a value or a listing needs no record. -/
theorem records_other (hvalue : ∀ value, reply ≠ .value (.ok value))
    (hlisting : ∀ keys, reply ≠ .listing (.ok keys)) (system : System Thread) :
    system.Records reply where
  value value hreply := absurd hreply (hvalue value)
  listing keys hreply := absurd hreply (hlisting keys)

theorem records_refusal (call : Call) (status : Status)
    (system : System Thread) : system.Records (call.refusal status) := by
  cases call <;> exact records_other (by simp [Call.refusal])
    (by simp [Call.refusal]) system

theorem records_conclude_error (call : Call) (status : Status)
    (system : System Thread) :
    system.Records (call.conclude (.error status)) := by
  cases call <;> exact records_other (by simp [Call.conclude])
    (by simp [Call.conclude]) system

theorem records_conclude_ok (call : Call) {returned : Returned}
    (hreturned : returned ∈ system.returned) :
    system.Records (call.conclude (.ok returned.value)) where
  value value hreply := by
    refine ⟨returned, hreturned, ?_⟩
    cases call <;> simp_all [Call.conclude]
  listing keys hreply := by cases call <;> simp [Call.conclude] at hreply

/-! ## One step -/

theorem mem_returned_answer [DecidableEq Thread] (system : System Thread)
    (thread : Thread) (returned : Returned) (store : KeyValueStore) :
    returned ∈ (system.answer thread returned store).returned :=
  List.mem_append_right _ (List.mem_singleton_self returned)

theorem Stands.shared_iff (hstands : Stands system stage position) :
    position.Shared ↔ stage.shared = true := by
  cases hstands <;> simp [Position.Shared, Stage.shared]

/-- Where the calls leave the shared lock free, the system does. -/
theorem Mirrors.free (hmirrors : Mirrors initial calls system)
    (hfree : calls.Free) : system.Free := by
  intro thread hshared
  rw [(hmirrors.stands thread).shared_iff, hfree thread] at hshared
  cases hshared

variable [DecidableEq Thread]

/-- What the system does while one thread of the calls takes a step. -/
structure Matches (system : System Thread) (thread : Thread) (clock : Int64)
    (next : KeyValueStore × Stage) (position : Position)
    (later : System Thread) : Prop where
  steps : Relation.ReflGen Step system later
  store : later.store = next.1
  clock : later.clock ≤ clock
  position_eq : later.position =
    Function.update system.position thread position
  returned : system.returned ⊆ later.returned
  listed : system.listed ⊆ later.listed
  stands : Stands later next.2 position

variable {thread : Thread} {clock : Int64} {store : KeyValueStore}
variable {next : KeyValueStore × Stage}

/-- The step of the calls is none of the system. -/
theorem matches_stays (hclock : system.clock ≤ clock)
    (hposition : system.position thread = position)
    (hstands : Stands system stage position) :
    ∃ position later,
      Matches system thread clock (system.store, stage) position later :=
  ⟨position, system, .refl, rfl, hclock,
    by rw [← hposition, Function.update_eq_self], List.Subset.refl _,
    List.Subset.refl _, hstands⟩

/-- A step of the system after which its thread stands with that of the
calls. -/
theorem matches_step (hstep : Step system later) (hclock : later.clock ≤ clock)
    (hstore : later.store = store)
    (hposition : later.position =
      Function.update system.position thread position)
    (hreturned : system.returned ⊆ later.returned)
    (hlisted : system.listed ⊆ later.listed)
    (hstands : Stands later stage position) :
    ∃ position later,
      Matches system thread clock (store, stage) position later :=
  ⟨position, later, .single hstep, hstore, hclock, hposition, hreturned,
    hlisted, hstands⟩

theorem matches_invoked (hopened : system.store.opened = true)
    (hclock : system.clock ≤ clock)
    (hposition : system.position thread = .idle) (hworks : request.Works) :
    ∃ position later, Matches system thread clock
      (system.store.proceed clock (.invoked request)) position later := by
  have hcheck : request.call.check system.store = request.call.validate :=
    if_pos hopened
  rw [KeyValueStore.proceed, hcheck]
  split
  next hvalidates =>
    by_cases hset : ∃ key value ttl, request.call = .set key value ttl
    · obtain ⟨environment, call⟩ := request
      obtain ⟨key, value, ttl, rfl⟩ := hset
      exact matches_step (.setReady hposition hvalidates hclock)
        (Int64.le_refl clock) rfl rfl (List.Subset.refl _) (List.Subset.refl _)
        (.setReady hworks)
    · apply matches_stays hclock hposition
      apply Stands.checked hworks hvalidates
      intro key value ttl hcall
      exact hset ⟨key, value, ttl, hcall⟩
  · exact matches_stays hclock hposition
      (.answered (records_refusal _ _ system))

theorem matches_checked (hopened : system.store.opened = true)
    (hclock : system.clock ≤ clock) (hfree : system.Free ∨ ∃ key,
      request.call = .get key ∨ request.call = .keyExists key)
    (hposition : system.position thread = .idle) (hworks : request.Works)
    (hvalidates : request.call.validate.ok = true)
    (hset : ∀ key value ttl, request.call ≠ .set key value ttl)
    (readMs : Int64) :
    ∃ position later, Matches system thread clock
      (system.store.proceed clock (.checked request readMs)) position
        later := by
  have hfaultless := hworks.faultless_readAt clock
  obtain ⟨environment, call⟩ := request
  rw [KeyValueStore.proceed, KeyValueStore.enter]
  cases call with
  | set key value ttl => exact absurd rfl (hset key value ttl)
  | get key =>
      exact matches_step (.getLocked hposition hvalidates) hclock rfl rfl
        (List.Subset.refl _) (List.Subset.refl _) (.locked hworks)
  | keyExists key =>
      exact matches_step (.getLocked hposition hvalidates) hclock rfl rfl
        (List.Subset.refl _) (List.Subset.refl _) (.locked hworks)
  | remove key =>
      have hexcludes := hfree.resolve_right (by simp)
      exact matches_step
        (.remove hposition hvalidates hexcludes hfaultless hclock)
        (Int64.le_refl clock) rfl rfl (List.Subset.refl _) (List.Subset.refl _)
        (.answered (records_other (by simp) (by simp) _))
  | keys start =>
      have hexcludes := hfree.resolve_right (by simp)
      dsimp only
      rw [KeyValueStore.cleanupExpired, if_pos hopened]
      exact matches_step (.keysCleaned hposition hexcludes hfaultless hclock)
        (Int64.le_refl clock) rfl rfl (List.Subset.refl _) (List.Subset.refl _)
        .cleaned
  | cleanupExpired =>
      have hexcludes := hfree.resolve_right (by simp)
      exact matches_step
        (.cleanupExpired hposition hexcludes hfaultless hclock)
        (Int64.le_refl clock) rfl rfl (List.Subset.refl _) (List.Subset.refl _)
        (.answered (records_other (by simp) (by simp) _))
  | compact =>
      have hexcludes := hfree.resolve_right (by simp)
      exact matches_step (.compact hposition hexcludes hfaultless hclock)
        (Int64.le_refl clock) rfl rfl (List.Subset.refl _) (List.Subset.refl _)
        (.answered (records_other (by simp) (by simp) _))
  | openStore => exact absurd rfl hworks.operates.1
  | close => exact absurd rfl hworks.operates.2

theorem matches_locked {key : Bytes} {before : List Section}
    (hclock : system.clock ≤ clock)
    (hposition : system.position thread = .getLocked key before)
    (hworks : request.Works) :
    ∃ position later, Matches system thread clock
      (system.store.proceed clock (.locked request key)) position later := by
  rw [KeyValueStore.proceed]
  cases hfind : system.store.find clock key with
  | missing =>
      have hmissing : system.store.find system.clock key = .missing := by
        rw [KeyValueStore.find] at hfind
        split at hfind
        next hnone => exact KeyValueStore.find_missing hnone
        · split at hfind <;> cases hfind
      exact matches_step (.getMissing hposition hmissing) hclock rfl rfl
        (List.Subset.refl _) (List.Subset.refl _)
        (.answered (records_conclude_error _ _ _))
  | expired =>
      exact matches_step (.getExpired hposition hclock hfind)
        (Int64.le_refl clock) rfl rfl (List.Subset.refl _) (List.Subset.refl _)
        .expired
  | live metadata =>
      exact matches_step (.getFound hposition hclock hfind)
        (Int64.le_refl clock) rfl rfl (List.Subset.refl _) (List.Subset.refl _)
        (.found hworks)

theorem matches_found {key : Bytes} {metadata : RecordMetadata}
    {nowMs : Int64} {before : List Section} (hclock : system.clock ≤ clock)
    (hposition : system.position thread = .getFound key metadata nowMs before)
    (hworks : request.Works) :
    ∃ position later, Matches system thread clock
      (system.store.proceed clock (.found request key metadata)) position
        later := by
  rw [KeyValueStore.proceed]
  split
  next looked value hlooked =>
    have hstep := Step.getCached hposition (congrArg Prod.snd hlooked)
    rw [show looked = (system.store.lookupCache key).1 by rw [hlooked]]
    have hrecords := records_conclude_ok request.call
      (mem_returned_answer system thread ⟨key, value, nowMs, before⟩
        (system.store.lookupCache key).1)
    exact matches_step hstep hclock rfl rfl (List.subset_append_left _ _)
      (List.Subset.refl _) (.answered hrecords)
  next looked hlooked =>
    have hstep := Step.getMissed hposition (congrArg Prod.snd hlooked)
    rw [show looked = (system.store.lookupCache key).1 by rw [hlooked]]
    exact matches_step hstep hclock rfl rfl (List.Subset.refl _)
      (List.Subset.refl _) (.missed hworks)

theorem matches_missed {key : Bytes} {metadata : RecordMetadata}
    {nowMs : Int64} {before : List Section} (hclock : system.clock ≤ clock)
    (hposition : system.position thread = .getMissed key metadata nowMs before)
    (hworks : request.Works) :
    ∃ position later, Matches system thread clock
      (system.store.proceed clock (.missed request key metadata)) position
        later := by
  rw [KeyValueStore.proceed]
  split
  next after status hread =>
    have hstep := Step.getUnreadable hposition hworks.faultless
      (congrArg Prod.snd hread)
    rw [show after = (system.store.readStored request.environment key
      metadata).1 by rw [hread]]
    exact matches_step hstep hclock rfl rfl (List.Subset.refl _)
      (List.Subset.refl _) (.answered (records_conclude_error _ _ _))
  next after value hread =>
    have hstep := Step.getRead hposition hworks.faultless
      (congrArg Prod.snd hread)
    rw [show after = (system.store.readStored request.environment key
      metadata).1 by rw [hread]]
    exact matches_step hstep hclock rfl rfl (List.Subset.refl _)
      (List.Subset.refl _) .read

/-- Every step of a thread is matched. -/
theorem matches_proceed (hopened : system.store.opened = true)
    (hclock : system.clock ≤ clock)
    (hfree : stage.exclusive = true → system.Free)
    (hstands : Stands system stage (system.position thread)) :
    ∃ position later, Matches system thread clock
      (system.store.proceed clock stage) position later := by
  generalize hposition : system.position thread = position at hstands
  cases hstands with
  | resting => exact matches_stays hclock hposition .resting
  | invoked hworks => exact matches_invoked hopened hclock hposition hworks
  | setReady hworks =>
      have hfaultless := hworks.faultless_readAt clock
      exact matches_step (.setSection hposition (hfree rfl) hfaultless) hclock rfl
        rfl (List.Subset.refl _) (List.Subset.refl _)
        (.answered (records_other (by simp) (by simp) _))
  | @checked request readMs hworks hvalidates hset =>
      have hexcludes : system.Free ∨ ∃ key,
          request.call = .get key ∨ request.call = .keyExists key := by
        obtain ⟨environment, call⟩ := request
        cases call with
        | get key => exact Or.inr ⟨key, Or.inl rfl⟩
        | keyExists key => exact Or.inr ⟨key, Or.inr rfl⟩
        | close => exact absurd rfl hworks.operates.2
        | _ => exact Or.inl (hfree rfl)
      exact matches_checked hopened hclock hexcludes hposition hworks
        hvalidates hset readMs
  | locked hworks => exact matches_locked hclock hposition hworks
  | found hworks => exact matches_found hclock hposition hworks
  | missed hworks => exact matches_missed hclock hposition hworks
  | @read request key value nowMs before =>
      have hrecords := records_conclude_ok request.call
        (mem_returned_answer system thread ⟨key, value, nowMs, before⟩
          (system.store.fillCache key value))
      exact matches_step (.getFilled hposition) hclock rfl rfl
        (List.subset_append_left _ _) (List.Subset.refl _) (.answered hrecords)
  | expired =>
      exact matches_step (.eraseIfExpired hposition (hfree rfl)) hclock rfl rfl
        (List.Subset.refl _) (List.Subset.refl _)
        (.answered (records_conclude_error _ _ _))
  | @cleaned request start nowMs =>
      have hstep : Step system (system.list thread ⟨nowMs, system.store.index,
          system.store.listKeys request.environment start⟩) :=
        .keysListed hposition
      refine matches_step hstep hclock rfl rfl (List.Subset.refl _)
        (List.subset_append_left _ _) (.answered ?_)
      refine ⟨by simp, fun keys hkeys => ?_⟩
      cases hkeys
      exact ⟨_, List.mem_append_right _ (List.mem_singleton_self _), rfl⟩
  | answered hrecords =>
      exact matches_stays hclock hposition (.answered hrecords)

/-! ## Executions -/

/-- A request that is seen works. -/
def Working : Boundary Thread Request Reply Int64 → Prop
  | .invoke _ request => request.Works
  | _ => True

/-- A thread stands elsewhere, and the system stays as it is. -/
theorem Mirrors.restage (hmirrors : Mirrors initial calls system)
    {thread : Thread} {stage : Stage}
    (hstands : Stands system stage (system.position thread)) :
    Mirrors initial
      { calls with stage := Function.update calls.stage thread stage }
      system where
  invariant := hmirrors.invariant
  store := hmirrors.store
  clock := hmirrors.clock
  stands other := by
    dsimp only
    by_cases hother : other = thread
    · subst hother
      rw [Function.update_self]
      exact hstands
    · rw [Function.update_of_ne hother]
      exact hmirrors.stands other

theorem Mirrors.moved (hmirrors : Mirrors initial calls system)
    {thread : Thread} (hgranted : calls.Granted thread) :
    ∃ later, Reaches system later ∧
      Mirrors initial (calls.moved thread) later := by
  obtain ⟨position, later, hmatches⟩ := matches_proceed
    hmirrors.invariant.opened hmirrors.clock
    (fun hexclusive => hmirrors.free (hgranted hexclusive))
    (hmirrors.stands thread)
  rw [hmirrors.store] at hmatches
  have hinvariant : later.Invariant initial := by
    cases hmatches.steps with
    | refl => exact hmirrors.invariant
    | single hstep => exact hmirrors.invariant.step hstep
  refine ⟨later, hmatches.steps.to_reflTransGen, hinvariant, hmatches.store,
    hmatches.clock, fun other => ?_⟩
  rw [hmatches.position_eq, Calls.moved]
  dsimp only
  by_cases hother : other = thread
  · subst hother
    rw [Function.update_self, Function.update_self]
    exact hmatches.stands
  · rw [Function.update_of_ne hother, Function.update_of_ne hother]
    exact (hmirrors.stands other).of_subset hmatches.returned hmatches.listed

/-- Every step of the calls is matched by steps of the system. -/
theorem Mirrors.step (hmirrors : Mirrors initial calls system)
    {label : Option (Boundary Thread Request Reply Int64)}
    {after : Calls Thread} (hworking : ∀ event ∈ label, Working event)
    (hstep : Calls.Step calls label after) :
    ∃ later, Reaches system later ∧ Mirrors initial after later := by
  cases hstep with
  | tick hclock =>
      exact ⟨system, .refl, hmirrors.invariant, hmirrors.store,
        Int64.le_trans hmirrors.clock hclock, hmirrors.stands⟩
  | @invoke thread request hstage =>
      have hstands := hmirrors.stands thread
      rw [hstage] at hstands
      generalize hposition : system.position thread = position at hstands
      cases hstands
      exact ⟨system, .refl, hmirrors.restage
        (hposition ▸ .invoked (hworking _ rfl))⟩
  | move hgranted => exact hmirrors.moved hgranted
  | @answer thread reply hstage =>
      have hstands := hmirrors.stands thread
      rw [hstage] at hstands
      generalize hposition : system.position thread = position at hstands
      cases hstands
      exact ⟨system, .refl, hmirrors.restage (hposition ▸ .resting)⟩

/-- Every execution of calls of an open store under which nothing fails is one
of the system. -/
theorem calls_are_mirrored {store : KeyValueStore}
    (hopened : store.opened = true) (hcoherent : store.view.Coherent)
    {events : List (Boundary Thread Request Reply Int64)}
    (hworking : ∀ event ∈ events, Working event) {last : Calls Thread}
    (hrun : Observed Calls.Step (Calls.start store clock) events last) :
    ∃ system, Reaches (start store clock) system ∧
      Mirrors store.view.contents last system := by
  have hstart : Mirrors store.view.contents
      (Calls.start store clock : Calls Thread) (start store clock) :=
    ⟨.start hopened hcoherent clock, rfl, Int64.le_refl clock,
      fun _ => .resting⟩
  generalize (start store clock : System Thread) = system at hstart ⊢
  generalize (Calls.start store clock : Calls Thread) = calls at hrun hstart
  induction hrun generalizing system with
  | nil => exact ⟨system, .refl, hstart⟩
  | silent hfirst _ ih =>
      obtain ⟨middle, hreaches, hmiddle⟩ := hstart.step (by simp) hfirst
      obtain ⟨later, hrest, hlast⟩ := ih hworking middle hmiddle
      exact ⟨later, hreaches.trans hrest, hlast⟩
  | seen hfirst _ ih =>
      rw [List.forall_mem_cons] at hworking
      obtain ⟨middle, hreaches, hmiddle⟩ :=
        hstart.step (by simpa using hworking.1) hfirst
      obtain ⟨later, hrest, hlast⟩ := ih hworking.2 middle hmiddle
      exact ⟨later, hreaches.trans hrest, hlast⟩

end System

end MiniKV
