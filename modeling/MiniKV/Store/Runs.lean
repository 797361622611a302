import MiniKV.Library.Machine
import MiniKV.Store.CompactSection

/-!
# Runs of the store

The calls of the store form a machine.  Unless a compaction loses its file, a
call on an open store is a row of effects, so that every run keeps an open
store coherent.
-/

namespace MiniKV

/-- The calls on a store. -/
inductive Call
  | set (key value : Bytes) (ttl : Option Int64)
  | get (key : Bytes)
  | keyExists (key : Bytes)
  | remove (key : Bytes)
  | keys (start : Bytes)
  | cleanupExpired
  | compact
  | openStore
  | close

/-- The calls between opening and closing. -/
def Call.Operates (call : Call) : Prop := call ≠ .openStore ∧ call ≠ .close

/-- A call with what it learns from outside. -/
structure Request where
  environment : Environment
  call : Call

/-- The clock reading of a call. -/
abbrev Request.nowMs (request : Request) : Int64 := request.environment.nowMs

inductive Reply
  | status (status : Status)
  | value (result : Result Bytes)
  | flag (result : Result Bool)
  | listing (result : Result (List Bytes))
  | count (removed : ℕ)
  | summary (result : Result CompactionSummary)

/-- Everything but the appends works. -/
structure Environment.Reliable (environment : Environment) : Prop where
  openAnswers : environment.openAnswers = {}
  recover : environment.recover = {}
  read : ∀ key, environment.read key = {}
  compact : environment.compact = {}
  startThread : environment.startThread = none

/-- Nothing fails. -/
structure Environment.Faultless (environment : Environment) : Prop
    extends Environment.Reliable environment where
  append : environment.append = {}

/-- The environment in which a call learns its clock reading only. -/
def Environment.calm (nowMs : Int64) : Environment := { nowMs := nowMs }

theorem Environment.faultless_calm (nowMs : Int64) :
    (calm nowMs).Faultless :=
  ⟨⟨rfl, rfl, fun _ => rfl, rfl, rfl⟩, rfl⟩

/-- A store with room for one cached value. -/
def StoreConfig.small : StoreConfig := ⟨"data.log", 1, 1000, false⟩

/-- A failing append leaves bytes behind, in the file or in the put area. -/
def Environment.Lossy (environment : Environment) : Prop :=
  ∃ torn, environment.append.fault = some torn ∧
    ¬ (torn.left = 0 ∧ torn.held = 0)

/-- A write that an append asks for fails: that of its own record, or that of
what an earlier append has left in the put area. -/
def Environment.FailsAppend (environment : Environment) : Prop :=
  environment.append.drain ≠ none ∨ environment.append.fault ≠ none

theorem Environment.Faultless.not_lossy {environment : Environment}
    (hfaultless : environment.Faultless) : ¬ environment.Lossy := by
  rintro ⟨torn, htorn, -⟩
  rw [hfaultless.append] at htorn
  cases htorn

/-- What a failed append leaves is nothing, or the environment is lossy. -/
theorem Environment.torn_cases {environment : Environment} {torn : Torn}
    (htorn : torn = ⟨0, 0⟩ ∨ environment.append.fault = some torn)
    (bytes : Bytes) :
    torn.written bytes = [] ∧ torn.kept bytes = [] ∨ environment.Lossy := by
  by_cases hnothing : torn.left = 0 ∧ torn.held = 0
  · left
    rw [Torn.written, Torn.kept, hnothing.1, hnothing.2, List.take_zero]
    exact ⟨rfl, rfl⟩
  · right
    rcases htorn with rfl | hfault
    · exact absurd ⟨rfl, rfl⟩ hnothing
    · exact ⟨torn, hfault, hnothing⟩

/-- Some effects in a row. -/
abbrev Effects (nowMs : Int64) (lossy : Prop) : View → View → Prop :=
  Relation.ReflTransGen (Effect nowMs lossy)

theorem Upkeeps.effects {nowMs : Int64} {before after : View}
    (hupkeeps : Upkeeps nowMs before after) (lossy : Prop) :
    Effects nowMs lossy before after :=
  Relation.ReflTransGen.mono (fun _ _ => .upkeep _) _ _ hupkeeps

theorem View.Coherent.effects {view later : View} {nowMs : Int64}
    {lossy : Prop} (hcoherent : view.Coherent)
    (heffects : Effects nowMs lossy view later) : later.Coherent := by
  induction heffects with
  | refl => exact hcoherent
  | tail _ hlast ih => exact ih.effect hlast

namespace KeyValueStore

/-- One call on the store. -/
def perform (request : Request) (store : KeyValueStore) :
    KeyValueStore × Reply :=
  match request.call with
  | .set key value ttl =>
      let result := store.set request.environment key value ttl
      (result.1, .status result.2)
  | .get key =>
      let result := store.get request.environment key
      (result.1, .value result.2)
  | .keyExists key =>
      let result := store.keyExists request.environment key
      (result.1, .flag result.2)
  | .remove key =>
      let result := store.remove request.environment key
      (result.1, .status result.2)
  | .keys start =>
      let result := store.keys request.environment start
      (result.1, .listing result.2)
  | .cleanupExpired =>
      let result := store.cleanupExpired request.environment
      (result.1, .count result.2)
  | .compact =>
      let result := store.compact request.environment
      (result.1, .summary result.2)
  | .openStore =>
      let result := store.openStore request.environment
      (result.1, .status result.2)
  | .close =>
      let result := store.close
      (result.1, .status result.2)

/-- The store as a machine. -/
def machine : Machine Request KeyValueStore Reply := ⟨perform⟩

variable {environment : Environment} {store : KeyValueStore}

/-! ## Calls as effects -/

theorem AppendFailed.effects {record : Record} {before after : View}
    {status : Status}
    (hfailed : AppendFailed environment record before after status) :
    Effects environment.nowMs environment.Lossy before after := by
  cases hfailed with
  | unsought rest _ hrest _ _ =>
      have hleads : rest <+: before.pending := by
        rcases hrest with rfl | ⟨count, -, rfl⟩
        · exact List.nil_prefix
        · exact List.take_prefix _ _
      exact .single (.upkeep _
        (.drained before ⟨rest, before.pending, hleads, Or.inr rfl, rfl⟩))
  | torn torn _ htorn _ _ _ =>
      have hsettled : Effect environment.nowMs environment.Lossy before
          before.settled :=
        .upkeep _ (.drained before (.settled before))
      rcases Environment.torn_cases (htorn.imp_left And.left)
        (AppendOnlyStore.recordBytes record) with
        ⟨hwritten, hkept⟩ | hlossy
      · rw [hwritten, hkept, List.append_nil]
        exact .single hsettled
      · exact (Relation.ReflTransGen.single hsettled).tail
          (.stray before.settled hlossy _ _)

theorem SetOutcome.effects {record : Record} {before after : View}
    {status : Status}
    (houtcome : SetOutcome environment record before after status)
    (hoperation : record.operation = .set) :
    Effects environment.nowMs environment.Lossy before after := by
  cases houtcome with
  | stored hvalid =>
      exact (Relation.ReflTransGen.single
        (.upkeep _ (.drained before (.settled before)))).tail
          (.set before.settled record hvalid hoperation rfl)
  | failed hfailed => exact hfailed.effects

theorem RemoveOutcome.effects {key : Bytes} {before after : View}
    {status : Status}
    (houtcome : RemoveOutcome environment key before after status) :
    Effects environment.nowMs environment.Lossy before after := by
  cases houtcome with
  | missing => exact .refl
  | expired metadata hfound hexpired =>
      exact .single (.upkeep _ (.dropped before key metadata hfound hexpired))
  | removed metadata hfound hlive hvalid =>
      exact (Relation.ReflTransGen.single
        (.upkeep _ (.drained before (.settled before)))).tail
          (.removed before.settled _ hvalid rfl rfl)
  | failed metadata hfound hlive hfailed => exact hfailed.effects

theorem effects_set (key value : Bytes) (ttl : Option Int64) :
    Effects environment.nowMs environment.Lossy store.view
      (store.set environment key value ttl).1.view := by
  unfold set
  split
  next hopened =>
    split
    · exact (setSection_cases environment key value _ hopened).effects rfl
    · exact .refl
  · exact .refl

theorem effects_remove (key : Bytes) :
    Effects environment.nowMs environment.Lossy store.view
      (store.remove environment key).1.view := by
  unfold remove
  split
  · split
    · exact (removeSection_cases environment key store).effects
    · exact .refl
  · exact .refl

theorem fst_keyExists (environment : Environment) (key : Bytes)
    (store : KeyValueStore) :
    (store.keyExists environment key).1 = (store.get environment key).1 := by
  unfold keyExists
  split
  next heq => rw [heq]
  next heq =>
    rw [heq]
    split <;> rfl

theorem snd_keyExists (environment : Environment) (key : Bytes)
    (store : KeyValueStore) :
    (store.keyExists environment key).2 =
      match (store.get environment key).2 with
      | .ok _ => .ok true
      | .error status =>
          if status.code = .notFound then .ok false else .error status := by
  rw [keyExists]
  rcases store.get environment key with ⟨after, result⟩
  cases result with
  | ok value => rfl
  | error status =>
      dsimp only
      split <;> rfl

theorem upkeeps_cleanupExpired (environment : Environment)
    (store : KeyValueStore) :
    Upkeeps environment.nowMs store.view
      (store.cleanupExpired environment).1.view := by
  unfold cleanupExpired
  split
  · exact .single (upkeep_purgeExpired environment store)
  · exact .refl

theorem upkeeps_keys (environment : Environment) (start : Bytes)
    (store : KeyValueStore) :
    Upkeeps environment.nowMs store.view
      (store.keys environment start).1.view := by
  unfold keys
  split
  · exact upkeeps_cleanupExpired environment store
  · exact .refl

theorem upkeeps_compactSection (hkeeps : ¬ LosesFile environment store) :
    Upkeeps environment.nowMs store.view
      (store.compactSection environment).1.view := by
  have hpurge := upkeep_purgeExpired environment store
  have houtcome := compactSection_cases environment store
  generalize (store.compactSection environment).1 = after at houtcome ⊢
  generalize (store.compactSection environment).2 = result at houtcome
  cases houtcome with
  | failed status hdrained =>
      exact (Relation.ReflTransGen.single hpurge).tail
        (.drained _ hdrained.drained)
  | lost status hlost => exact absurd hlost hkeeps
  | compacted live hlive hvisible hview =>
      rw [hview]
      exact ((Relation.ReflTransGen.single hpurge).tail
        (.drained _ (.settled _))).tail (.compacted _ live hlive hvisible)

/-- The compaction of this request would lose its file. -/
def Loses (request : Request) (store : KeyValueStore) : Prop :=
  request.call = .compact ∧ store.opened = true ∧
    LosesFile request.environment store

theorem not_losesFile_of_reliable (hreliable : environment.Reliable) :
    ¬ LosesFile environment store := by
  intro hloses
  have hreopen := hloses.loses.reopen
  rw [hreliable.compact] at hreopen
  exact AppendOnlyStore.ReopenFails.not_faultless hreopen

theorem upkeeps_compact (hkeeps : ¬ (store.opened = true ∧
    LosesFile environment store)) :
    Upkeeps environment.nowMs store.view
      (store.compact environment).1.view := by
  unfold compact
  split
  next hopened =>
    exact upkeeps_compactSection fun hloses => hkeeps ⟨hopened, hloses⟩
  · exact .refl

/-! ## Opening and closing -/

/-- Opening a closed store on a log with an unfinished tail. -/
theorem openStore_log (hreliable : environment.Reliable)
    (hclosed : store.opened = false)
    (hinterval : 0 < store.config.cleanupIntervalMs) {entries : List LogEntry}
    {tail : Bytes} (hlog : LogWithTail entries tail store.storage.bytes) :
    ∃ after, store.openStore environment = (after, .success) ∧
      after.view = store.view.reopened environment.nowMs entries tail ∧
      after.opened = true ∧ after.truncatedTailBytes = tail.length := by
  have hopening := store.storage.ensureOpenLocked_faultless
  have hbytes : store.storage.opened.bytes = store.storage.bytes :=
    store.storage.bytes_opened
  have hrecover := AppendOnlyStore.recover_of_logWithTail
    (hbytes.symm ▸ hlog) environment.nowMs
  have hview : View.mk (store.storage.opened.recovered entries tail).bytes
      (store.storage.opened.recovered entries tail).pending
      (replay environment.nowMs entries) store.cache.clear =
        store.view.reopened environment.nowMs entries tail := by
    rw [AppendOnlyStore.bytes_recovered _ (hbytes.trans hlog.1),
      AppendOnlyStore.pending_recovered, AppendOnlyStore.pending_opened]
    rfl
  unfold openStore AppendOnlyStore.openFile
  rw [if_neg (by rw [hclosed]; exact Bool.false_ne_true),
    if_neg (Int64.not_le.mpr hinterval), hreliable.openAnswers,
    hreliable.recover, hreliable.startThread, hopening]
  simp only [Status.ok_success, if_true]
  rw [hrecover]
  dsimp only
  split
  · exact ⟨_, rfl, hview, rfl, rfl⟩
  · exact ⟨_, rfl, hview, rfl, rfl⟩

/-- What `open` does with a closed store when nothing but an append fails. -/
inductive OpenOutcome (environment : Environment) (before : KeyValueStore) :
    KeyValueStore → Status → Prop
  | recovered (after : KeyValueStore) (entries : List LogEntry) (tail : Bytes)
      (hlog : LogWithTail entries tail before.storage.bytes)
      (hview : after.view =
        before.view.reopened environment.nowMs entries tail)
      (hopened : after.opened = true) :
      OpenOutcome environment before after .success
  | failed (after : KeyValueStore) (status : Status)
      (hstatus : status.ok = false)
      (hdrained : before.view.Drained after.view) (hclosed : after.opened = false) :
      OpenOutcome environment before after status

theorem openStore_cases (hreliable : environment.Reliable)
    (hclosed : store.opened = false) :
    OpenOutcome environment store (store.openStore environment).1
      (store.openStore environment).2 := by
  by_cases hinterval : 0 < store.config.cleanupIntervalMs
  · rcases logWithTail_or_malformed store.storage.bytes with
      ⟨entries, tail, hlog⟩ | ⟨entries, rest, hfile, hmalformed⟩
    · obtain ⟨after, hresult, hview, hopened, -⟩ :=
        openStore_log hreliable hclosed hinterval hlog
      rw [hresult]
      exact .recovered after entries tail hlog hview hopened
    · have hopening := store.storage.ensureOpenLocked_faultless
      have hbytes : store.storage.opened.bytes = store.storage.bytes :=
        store.storage.bytes_opened
      obtain ⟨message, hmessage⟩ := AppendOnlyStore.recover_not_log
        (hbytes.trans hfile) hmalformed environment.nowMs
      unfold openStore AppendOnlyStore.openFile
      rw [if_neg (by rw [hclosed]; exact Bool.false_ne_true),
        if_neg (Int64.not_le.mpr hinterval), hreliable.openAnswers,
        hreliable.recover, hopening]
      simp only [Status.ok_success, if_true]
      rw [hmessage]
      dsimp only
      have hview : view { store with storage := store.storage.opened.settled } =
          store.view.settled := by
        rw [view, AppendOnlyStore.bytes_settled, AppendOnlyStore.pending_settled,
          AppendOnlyStore.pending_opened, hbytes]
        rfl
      exact .failed _ _ rfl (hview ▸ View.Drained.settled store.view) hclosed
  · rw [openStore, if_neg (by rw [hclosed]; exact Bool.false_ne_true),
      if_pos (Int64.not_lt.mp hinterval)]
    exact .failed _ _ rfl (.refl _) hclosed

/-- A store that opens has recovered a log. -/
theorem openStore_ok (hreliable : environment.Reliable)
    (hclosed : store.opened = false)
    (hopens : (store.openStore environment).2.ok = true) :
    ∃ entries tail, LogWithTail entries tail store.storage.bytes ∧
      (store.openStore environment).1.view =
        store.view.reopened environment.nowMs entries tail ∧
      (store.openStore environment).1.opened = true := by
  have houtcome := openStore_cases hreliable hclosed
  generalize (store.openStore environment).1 = after at houtcome ⊢
  generalize (store.openStore environment).2 = status at houtcome hopens
  cases houtcome with
  | recovered entries tail hlog hview hopened =>
      exact ⟨entries, tail, hlog, hview, hopened⟩
  | failed _ hstatus _ _ =>
      rw [hstatus] at hopens
      cases hopens

theorem effects_openStore (hreliable : environment.Reliable) (lossy : Prop) :
    Effects environment.nowMs lossy store.view
      (store.openStore environment).1.view := by
  by_cases hopened : store.opened = true
  · rw [openStore, if_pos hopened]
  · have houtcome := openStore_cases hreliable (Bool.not_eq_true _ ▸ hopened)
    generalize (store.openStore environment).1 = after at houtcome ⊢
    generalize (store.openStore environment).2 = status at houtcome
    cases houtcome with
    | recovered entries tail hlog hview _ =>
        rw [hview]
        have hheld : (if tail = [] then store.view.pending else []) = [] ∨
            tail = [] ∧ (if tail = [] then store.view.pending else []) =
              store.view.pending := by
          by_cases hnil : tail = []
          · exact Or.inr ⟨hnil, if_pos hnil⟩
          · exact Or.inl (if_neg hnil)
        exact (Relation.ReflTransGen.single
          (.recovered store.view entries tail _ hlog hheld)).tail
            (.upkeep _ (.drained _ (.settled _)))
    | failed _ _ hdrained _ =>
        exact .single (.upkeep _ (.drained store.view hdrained))

theorem view_close (store : KeyValueStore) : store.close.1.view = store.view := by
  unfold close
  split <;> rfl

theorem opened_close (store : KeyValueStore) :
    store.close.1.opened = false := by
  unfold close
  split
  · rfl
  next hclosed => exact Bool.not_eq_true _ ▸ hclosed

/-- Every request is a row of effects, unless its compaction loses the file. -/
theorem effects_perform {request : Request}
    (hreliable : request.call = .openStore → request.environment.Reliable)
    (hkeeps : ¬ Loses request store) :
    Effects request.nowMs request.environment.Lossy store.view
      (store.perform request).1.view := by
  obtain ⟨environment, call⟩ := request
  cases call with
  | set key value ttl => exact effects_set key value ttl
  | get key => exact (upkeeps_get environment key store).effects _
  | keyExists key =>
      have hupkeeps := upkeeps_get environment key store
      rw [← fst_keyExists] at hupkeeps
      exact hupkeeps.effects _
  | remove key => exact effects_remove key
  | keys start => exact (upkeeps_keys environment start store).effects _
  | cleanupExpired => exact (upkeeps_cleanupExpired environment store).effects _
  | compact =>
      have hlast : ¬ (store.opened = true ∧ LosesFile environment store) :=
        fun hloses => hkeeps ⟨rfl, hloses⟩
      exact (upkeeps_compact hlast).effects _
  | openStore => exact effects_openStore (hreliable rfl) _
  | close =>
      have hview := view_close store
      change Effects _ _ _ store.close.1.view
      rw [hview]

/-! ## Open and closed stores -/

theorem opened_set (environment : Environment) (key value : Bytes)
    (ttl : Option Int64) (store : KeyValueStore) :
    (store.set environment key value ttl).1.opened = store.opened := by
  unfold set
  split
  · split
    · exact opened_setSection environment key value _ store
    · rfl
  · rfl

theorem opened_remove (environment : Environment) (key : Bytes)
    (store : KeyValueStore) :
    (store.remove environment key).1.opened = store.opened := by
  unfold remove
  split
  · split
    · exact opened_removeSection environment key store
    · rfl
  · rfl

theorem opened_cleanupExpired (environment : Environment)
    (store : KeyValueStore) :
    (store.cleanupExpired environment).1.opened = store.opened := by
  unfold cleanupExpired
  split <;> rfl

theorem opened_keys (environment : Environment) (start : Bytes)
    (store : KeyValueStore) :
    (store.keys environment start).1.opened = store.opened := by
  unfold keys
  split
  · exact opened_cleanupExpired environment store
  · rfl

theorem opened_compact (environment : Environment) (store : KeyValueStore) :
    (store.compact environment).1.opened = store.opened := by
  unfold compact
  split
  · exact opened_compactSection environment store
  · rfl

/-- Only `open` and `close` change whether the store is open. -/
theorem opened_perform {request : Request}
    (hoperates : request.call.Operates) :
    (store.perform request).1.opened = store.opened := by
  obtain ⟨environment, call⟩ := request
  cases call with
  | set key value ttl => exact opened_set environment key value ttl store
  | get key => exact opened_get environment key store
  | keyExists key =>
      have hget := opened_get environment key store
      rwa [← fst_keyExists] at hget
  | remove key => exact opened_remove environment key store
  | keys start => exact opened_keys environment start store
  | cleanupExpired => exact opened_cleanupExpired environment store
  | compact => exact opened_compact environment store
  | openStore => exact absurd rfl hoperates.1
  | close => exact absurd rfl hoperates.2

/-- Only `open` opens a store. -/
theorem call_of_opened {request : Request} (hclosed : store.opened = false)
    (hopened : (store.perform request).1.opened = true) :
    request.call = .openStore := by
  by_contra hother
  by_cases hclose : request.call = .close
  · obtain ⟨environment, call⟩ := request
    cases hclose
    change store.close.1.opened = true at hopened
    rw [close, if_neg (by rw [hclosed]; exact Bool.false_ne_true),
      hclosed] at hopened
    cases hopened
  · rw [opened_perform ⟨hother, hclose⟩, hclosed] at hopened
    cases hopened

/-- A key of a coherent store passes its check. -/
theorem validateKey_of_found (hcoherent : store.view.Coherent) {key : Bytes}
    {metadata : RecordMetadata}
    (hfound : store.index.lookup key = some metadata) :
    (validateKey key).ok = true := by
  obtain ⟨entry, hpoints⟩ := hcoherent.points key metadata hfound
  rw [validateKey_ok_iff, ← hpoints.key_eq]
  exact ⟨entry.valid.key_ne_nil, entry.valid.key_size⟩

/-- An open coherent store returns what it shows, cached or not. -/
theorem get_of_contents (hreliable : environment.Reliable)
    (hopened : store.opened = true) (hcoherent : store.view.Coherent)
    {key value : Bytes} {expiresAtMs : Int64}
    (hcontents : store.view.contents key = some (value, expiresAtMs))
    (hfresh : isExpired expiresAtMs environment.nowMs = false) :
    (store.get environment key).2 = .ok value := by
  obtain ⟨metadata, hfound, -⟩ := View.contents_eq_some_iff.mp hcontents
  have hkey := validateKey_of_found hcoherent hfound
  rw [get_answer hreliable.openAnswers (hreliable.read key) hopened hkey
    hcoherent, View.answer, hcontents]
  exact if_neg (by rw [hfresh]; exact Bool.false_ne_true)

/-! ## Reachable stores -/

/-- A request that neither recovers with a failure nor loses the file. -/
structure Sound (request : Request) (store : KeyValueStore) : Prop where
  opening : request.call = .openStore → request.environment.Reliable
  keeps : ¬ Loses request store

/-- The stores that a run of such requests reaches from a new one. -/
def ReachableBy (condition : Request → KeyValueStore → Prop)
    (store : KeyValueStore) : Prop :=
  ∃ config data temporary requests,
    machine.Along condition requests (new config data temporary) ∧
      (machine.run requests (new config data temporary)).1 = store

/-- The stores that some run of sound requests reaches; appends may fail
anywhere, and compactions wherever they keep the file. -/
abbrev Reachable : KeyValueStore → Prop := ReachableBy Sound

theorem Sound.of_reliable {request : Request}
    (hreliable : request.environment.Reliable) : Sound request store where
  opening _ := hreliable
  keeps hloses := not_losesFile_of_reliable hreliable hloses.2.2

/-- A run in which nothing but appends fails. -/
theorem reachable_run {requests : List Request}
    (hreliable : ∀ request ∈ requests, request.environment.Reliable)
    (config : StoreConfig) (data temporary : Option Bytes) :
    Reachable (machine.run requests (new config data temporary)).1 :=
  ⟨config, data, temporary, requests,
    .of_forall (fun request hrequest _ => .of_reliable
      (hreliable request hrequest)) _, rfl⟩

theorem coherent_new (config : StoreConfig) (data temporary : Option Bytes) :
    (new config data temporary).view.Coherent where
  points key metadata hfound := by cases hfound
  wellFormed := LruCache.wellFormed_new config.cacheCapacity
  cached key value hholds :=
    absurd hholds (LruCache.not_holds_new config.cacheCapacity key value)

/-- Coherence is an invariant. -/
theorem coherent_of_reachable (hreachable : Reachable store) :
    store.view.Coherent := by
  obtain ⟨config, data, temporary, requests, halong, rfl⟩ := hreachable
  have hstep : ∀ request before, before.view.Coherent → Sound request before →
      (machine.step request before).1.view.Coherent :=
    fun _ _ hcoherent hsound =>
      hcoherent.effects (effects_perform hsound.opening hsound.keeps)
  exact Machine.run_invariant hstep halong
    (coherent_new config data temporary)

end KeyValueStore

end MiniKV
