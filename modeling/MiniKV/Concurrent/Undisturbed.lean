import MiniKV.Concurrent.Calls
import MiniKV.Store.Refinement

/-!
# A call that nobody disturbs

Taken apart into its steps, a call does what it does as a whole as long as no
other thread comes between them.  A run of the store in which the clock never
goes back is therefore one of the executions of its threads.
-/

namespace MiniKV

open TimedMap

namespace KeyValueStore

variable {environment : Environment} {store : KeyValueStore} {key : Bytes}

/-- The steps of a thread on its own. -/
abbrev Proceeds (nowMs : Int64) :
    KeyValueStore × Stage → KeyValueStore × Stage → Prop :=
  Relation.ReflTransGen fun first second =>
    first.1.proceed nowMs first.2 = second

theorem proceed_accepted (hopened : store.opened = true) {call : Call}
    (hvalidates : call.validate.ok = true) (environment : Environment)
    (nowMs : Int64) :
    store.proceed nowMs (.invoked ⟨environment, call⟩) =
      (store, .checked ⟨environment, call⟩ nowMs) := by
  have hcheck : call.check store = call.validate := if_pos hopened
  rw [proceed, hcheck, if_pos hvalidates]

theorem proceed_rejected (hopened : store.opened = true) {call : Call}
    (hrejected : ¬ call.validate.ok = true) (environment : Environment)
    (nowMs : Int64) :
    store.proceed nowMs (.invoked ⟨environment, call⟩) =
      (store, .answered (call.refusal call.validate)) := by
  have hcheck : call.check store = call.validate := if_pos hopened
  rw [proceed, hcheck, if_neg hrejected]

/-- The part of `get` that has found a live entry, step by step. -/
theorem proceeds_getLive (nowMs : Int64) (environment : Environment)
    (call : Call) (key : Bytes) (metadata : RecordMetadata)
    (store : KeyValueStore) :
    Proceeds nowMs (store, .found ⟨environment, call⟩ key metadata)
      ((store.getLive environment key metadata).1,
        .answered (call.conclude
          (store.getLive environment key metadata).2)) := by
  rw [getLive]
  rcases hlooked : store.lookupCache key with ⟨looked, cached⟩
  cases cached with
  | some value =>
      have hanswered : store.proceed nowMs
          (.found ⟨environment, call⟩ key metadata) =
            (looked, .answered (call.conclude (.ok value))) := by
        rw [proceed, hlooked]
      exact .single hanswered
  | none =>
      have hmissed : store.proceed nowMs
          (.found ⟨environment, call⟩ key metadata) =
            (looked, .missed ⟨environment, call⟩ key metadata) := by
        rw [proceed, hlooked]
      refine .head hmissed ?_
      dsimp only
      rcases hstored : looked.readStored environment key metadata with
        ⟨read, result⟩
      cases result with
      | error status =>
          have hanswered : looked.proceed nowMs
              (.missed ⟨environment, call⟩ key metadata) =
                (read, .answered (call.conclude (.error status))) := by
            rw [proceed, hstored]
          exact .single hanswered
      | ok value =>
          have hread : looked.proceed nowMs
              (.missed ⟨environment, call⟩ key metadata) =
                (read, .read ⟨environment, call⟩ key value) := by
            rw [proceed, hstored]
          exact .head hread (.single rfl)

/-- A `get` or an `exists` whose check has passed, step by step. -/
theorem proceeds_get {call : Call} (hopened : store.opened = true)
    (hasks : call = .get key ∨ call = .keyExists key)
    (hvalidates : call.validate.ok = true) :
    Proceeds environment.nowMs (store, .invoked ⟨environment, call⟩)
      ((store.get environment key).1,
        .answered (call.conclude (store.get environment key).2)) := by
  let counted := { store with getOperations := store.getOperations + 1 }
  have hchecked :=
    proceed_accepted hopened hvalidates environment environment.nowMs
  have hlocked : store.proceed environment.nowMs
      (.checked ⟨environment, call⟩ environment.nowMs) =
        (counted, .locked ⟨environment, call⟩ key) := by
    rcases hasks with rfl | rfl <;> rfl
  have hkey : (validateKey key).ok = true := by
    rcases hasks with rfl | rfl <;> exact hvalidates
  refine .head hchecked (.head hlocked ?_)
  rw [get, if_pos hopened, if_pos hkey]
  cases hfind : counted.find environment.nowMs key with
  | missing =>
      have hanswered : counted.proceed environment.nowMs
          (.locked ⟨environment, call⟩ key) =
            (counted, .answered (call.conclude
              (.error (.notFound "key does not exist")))) := by
        rw [proceed, hfind]
      dsimp only
      rw [hfind]
      exact .single hanswered
  | expired =>
      have hexpired : counted.proceed environment.nowMs
          (.locked ⟨environment, call⟩ key) =
            (counted, .expired ⟨environment, call⟩ key environment.nowMs) := by
        rw [proceed, hfind]
      dsimp only
      rw [hfind]
      exact .head hexpired (.single rfl)
  | live metadata =>
      have hfound : counted.proceed environment.nowMs
          (.locked ⟨environment, call⟩ key) =
            (counted, .found ⟨environment, call⟩ key metadata) := by
        rw [proceed, hfind]
      dsimp only
      rw [hfind]
      exact .head hfound
        (proceeds_getLive environment.nowMs environment call key metadata _)

/-- A call whose checks have passed, step by step. -/
theorem proceeds_accepted {call : Call} (hopened : store.opened = true)
    (hoperates : call.Operates) (hvalidates : call.validate.ok = true) :
    Proceeds environment.nowMs (store, .invoked ⟨environment, call⟩)
      ((store.perform ⟨environment, call⟩).1,
        .answered (store.perform ⟨environment, call⟩).2) := by
  have hchecked :=
    proceed_accepted hopened hvalidates environment environment.nowMs
  cases call with
  | set key value ttl =>
      have hset : store.set environment key value ttl =
          store.setSection environment key value
            (deadline environment.nowMs ttl) := by
        rw [set, if_pos hopened]
        exact if_pos hvalidates
      refine .head hchecked (.single ?_)
      dsimp only [perform]
      rw [hset]
      rfl
  | get key => exact proceeds_get hopened (.inl rfl) hvalidates
  | keyExists key =>
      have hget := @proceeds_get environment store key _ hopened (.inr rfl)
        hvalidates
      have hconclude : Call.conclude (.keyExists key)
          (store.get environment key).2 =
            .flag (store.keyExists environment key).2 := by
        rw [snd_keyExists]
        rfl
      rw [hconclude, ← fst_keyExists] at hget
      exact hget
  | remove key =>
      have hremove : store.remove environment key =
          store.removeSection environment key := by
        rw [remove, if_pos hopened]
        exact if_pos hvalidates
      refine .head hchecked (.single ?_)
      dsimp only [perform]
      rw [hremove]
      rfl
  | keys start =>
      have hkeys : store.keys environment start =
          ((store.cleanupExpired environment).1,
            .ok ((store.cleanupExpired environment).1.listKeys environment
              start)) := by
        rw [keys, if_pos hopened]
      refine .head hchecked (.head rfl (.single ?_))
      dsimp only [perform]
      rw [hkeys]
      rfl
  | cleanupExpired =>
      have hcleaned : store.cleanupExpired environment =
          (store.purgeExpired environment,
            (store.expiredAt environment).length) := by
        rw [cleanupExpired, if_pos hopened]
      refine .head hchecked (.single ?_)
      dsimp only [perform]
      rw [hcleaned]
      rfl
  | compact =>
      have hcompact : store.compact environment =
          store.compactSection environment := by
        rw [compact, if_pos hopened]
      refine .head hchecked (.single ?_)
      dsimp only [perform]
      rw [hcompact]
      rfl
  | openStore => exact absurd rfl hoperates.1
  | close => exact absurd rfl hoperates.2

/-- A call whose checks turn it away. -/
theorem perform_rejected {call : Call} (hopened : store.opened = true)
    (hrejected : ¬ call.validate.ok = true) :
    store.perform ⟨environment, call⟩ =
      (store, call.refusal call.validate) := by
  cases call with
  | set key value ttl =>
      have hset : store.set environment key value ttl =
          (store, validateSet key value ttl) := by
        rw [set, if_pos hopened]
        exact if_neg hrejected
      dsimp only [perform]
      rw [hset]
      rfl
  | get key =>
      have hkey : ¬ AcceptedKey key := fun haccepted =>
        hrejected ((acceptedKey_iff key).mp haccepted)
      dsimp only [perform]
      rw [get_rejected hopened hkey]
      rfl
  | keyExists key =>
      have hkey : ¬ AcceptedKey key := fun haccepted =>
        hrejected ((acceptedKey_iff key).mp haccepted)
      have hexists : store.keyExists environment key =
          (store, .error (validateKey key)) := by
        rw [keyExists, get_rejected hopened hkey]
        exact if_neg (by rw [code_validateKey hkey]; decide)
      dsimp only [perform]
      rw [hexists]
      rfl
  | remove key =>
      have hremove : store.remove environment key =
          (store, validateKey key) := by
        rw [remove, if_pos hopened]
        exact if_neg hrejected
      dsimp only [perform]
      rw [hremove]
      rfl
  | keys start => exact absurd Status.ok_success hrejected
  | cleanupExpired => exact absurd Status.ok_success hrejected
  | compact => exact absurd Status.ok_success hrejected
  | openStore => exact absurd Status.ok_success hrejected
  | close => exact absurd Status.ok_success hrejected

/-- The steps of a call come to what the call does as a whole. -/
theorem proceeds_perform {request : Request} (hopened : store.opened = true)
    (hoperates : request.call.Operates) :
    Proceeds request.nowMs (store, .invoked request)
      ((store.perform request).1, .answered (store.perform request).2) := by
  obtain ⟨environment, call⟩ := request
  by_cases hvalidates : call.validate.ok = true
  · exact proceeds_accepted hopened hoperates hvalidates
  · rw [perform_rejected hopened hvalidates]
    exact .single
      (proceed_rejected hopened hvalidates environment environment.nowMs)

end KeyValueStore

/-! ## One thread on its own -/

namespace Calls

variable {Thread : Type} [DecidableEq Thread] {thread : Thread}
variable {store : KeyValueStore} {clock : Int64}

/-- Only one thread is in a call. -/
def alone (store : KeyValueStore) (clock : Int64) (thread : Thread)
    (stage : Stage) : Calls Thread where
  store := store
  clock := clock
  stage := Function.update (fun _ => .resting) thread stage

@[simp]
theorem stage_alone (store : KeyValueStore) (clock : Int64) (thread : Thread)
    (stage : Stage) :
    (alone store clock thread stage).stage thread = stage := by
  simp [alone]

/-- A thread waits for no other thread. -/
theorem granted_alone (store : KeyValueStore) (clock : Int64)
    (thread : Thread) (stage : Stage) :
    (alone store clock thread stage).Granted thread := by
  intro hexclusive other
  rw [stage_alone] at hexclusive
  by_cases hother : other = thread
  · subst hother
    rw [stage_alone]
    cases stage <;> first | rfl | cases hexclusive
  · simp [alone, hother, Stage.shared]

theorem moved_alone (store : KeyValueStore) (clock : Int64) (thread : Thread)
    (stage : Stage) :
    (alone store clock thread stage).moved thread =
      alone (store.proceed clock stage).1 clock thread
        (store.proceed clock stage).2 := by
  rw [moved, stage_alone]
  simp [alone]

/-- Nothing is seen of the steps within a call. -/
theorem observed_of_proceeds {first second : KeyValueStore × Stage}
    (hproceeds : KeyValueStore.Proceeds clock first second) :
    Observed Step (alone first.1 clock thread first.2) []
      (alone second.1 clock thread second.2) := by
  induction hproceeds with
  | refl => exact .nil _
  | @tail middle last _ hlast ih =>
      have hmoved := moved_alone middle.1 clock thread middle.2
      rw [hlast] at hmoved
      have hstep : Step (alone middle.1 clock thread middle.2) none _ :=
        .move (granted_alone middle.1 clock thread middle.2)
      rw [hmoved] at hstep
      exact ih.trans (.silent hstep (.nil _))

/-- What is seen of a request and its reply. -/
def undisturbed (thread : Thread) (answered : Request × Reply) :
    List (Boundary Thread Request Reply Int64) :=
  [.tick answered.1.nowMs, .invoke thread answered.1,
    .answer thread answered.2]

theorem observed_perform {request : Request} (hopened : store.opened = true)
    (hoperates : request.call.Operates) (hclock : clock ≤ request.nowMs) :
    Observed Step (start store clock)
      (undisturbed thread (request, (store.perform request).2))
      (start (store.perform request).1 request.nowMs) := by
  let after := (store.perform request).1
  let settled : Calls Thread := alone after request.nowMs thread
    (.answered (store.perform request).2)
  have hcalled : Observed Step
      (alone store request.nowMs thread (.invoked request)) [] settled :=
    observed_of_proceeds (KeyValueStore.proceeds_perform hopened hoperates)
  have hanswer : Step settled
      (some (.answer thread (store.perform request).2)) _ :=
    .answer (stage_alone _ _ _ _)
  have hback : Function.update settled.stage thread .resting =
      fun _ => Stage.resting := by
    simp [settled, alone]
  rw [hback] at hanswer
  exact .seen (.tick hclock) (.seen (.invoke rfl)
    (hcalled.trans (.seen hanswer (.nil (start after request.nowMs)))))

/-- A run of an open store is an execution of its threads in which nobody is
disturbed, when the clock never goes back. -/
theorem runs_are_executions {requests : List Request}
    (hopened : store.opened = true)
    (hoperates : ∀ request ∈ requests, request.call.Operates)
    (hpaced : Machine.Paced Request.nowMs clock requests) :
    Observed Step (start store clock)
      ((requests.zip (KeyValueStore.machine.run requests store).2).flatMap
        (undisturbed thread))
      (start (KeyValueStore.machine.run requests store).1
        (Machine.lastReading Request.nowMs clock requests)) := by
  induction requests generalizing store clock with
  | nil => exact .nil _
  | cons request requests ih =>
      rw [List.forall_mem_cons] at hoperates
      have hfirst := @observed_perform _ _ thread _ _ _ hopened hoperates.1
        hpaced.1
      have hnext : (store.perform request).1.opened = true :=
        (KeyValueStore.opened_perform hoperates.1).trans hopened
      exact hfirst.trans (ih hnext hoperates.2 hpaced.2)

end Calls

end MiniKV
