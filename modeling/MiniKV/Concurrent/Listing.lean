import MiniKV.Concurrent.NoStaleRead

/-!
# What keys lists

`keys` purges at its clock reading and lists the index later, under a lock of
its own.  A `set` that computed its deadline before that reading and runs its
section in the gap puts an expired entry in front of the listing; nothing else
does.
-/

namespace MiniKV

namespace System

variable {Thread : Type} [DecidableEq Thread]

/-- What one step of one thread does. -/
structure Progress (system next : System Thread) : Prop where
  executes : ∃ sections, next.history = system.history ++ sections ∧
    KeyValueStore.Executes sections system.store.view.contents
      next.store.view.contents
  moves : ∃ thread position,
    next.position = Function.update system.position thread position ∧
      ∀ start nowMs, position = .keysCleaned start nowMs →
        ∀ key value expiresAtMs,
          next.store.view.contents key = some (value, expiresAtMs) →
            isExpired expiresAtMs nowMs = false
  lists : next.listed = system.listed ∨
    ∃ thread start nowMs environment,
      system.position thread = .keysCleaned start nowMs ∧
        next.listed = system.listed ++ [⟨nowMs, system.store.index,
          system.store.listKeys environment start⟩]

variable {initial : Ledger} {system next : System Thread}

/-- A step that leaves the contents alone and does not start a listing. -/
theorem Progress.move {thread : Thread} {position : Position}
    {store : KeyValueStore}
    (hcontents : store.view.contents = system.store.view.contents)
    (hposition : ∀ start nowMs, position ≠ .keysCleaned start nowMs) :
    Progress system (system.move thread position store) where
  executes := ⟨[], (List.append_nil _).symm, Or.inl ⟨rfl, hcontents⟩⟩
  moves := ⟨thread, position, rfl, fun start nowMs hsame =>
    absurd hsame (hposition start nowMs)⟩
  lists := Or.inl rfl

/-- A step that executes sections. -/
theorem Progress.exclude {thread : Thread} {position : Position}
    {store : KeyValueStore} {sections : List Section}
    (hexecutes : KeyValueStore.Executes sections system.store.view.contents
      store.view.contents)
    (hposition : ∀ start nowMs, position = .keysCleaned start nowMs →
      ∀ key value expiresAtMs,
        store.view.contents key = some (value, expiresAtMs) →
          isExpired expiresAtMs nowMs = false) :
    Progress system (system.exclude thread position store sections) where
  executes := ⟨sections, rfl, hexecutes⟩
  moves := ⟨thread, position, rfl, hposition⟩
  lists := Or.inl rfl

/-- A reading of the clock in front of a step. -/
theorem Progress.read {nowMs : Int64}
    (hprogress : Progress (system.read nowMs) next) : Progress system next :=
  ⟨hprogress.executes, hprogress.moves, hprogress.lists⟩

/-- What a purge leaves has not expired at its reading. -/
theorem fresh_purgeExpired (environment : Environment) (store : KeyValueStore)
    (key value : Bytes) (expiresAtMs : Int64)
    (hfound : (store.purgeExpired environment).view.contents key =
      some (value, expiresAtMs)) :
    isExpired expiresAtMs environment.nowMs = false := by
  rw [KeyValueStore.contents_purgeExpired, View.live_eq_some_iff] at hfound
  exact hfound.2

/-- A thread that reads the file does not change the contents. -/
theorem contents_readStored {store : KeyValueStore}
    (hcoherent : store.view.Coherent) (environment : Environment) (key : Bytes)
    (metadata : RecordMetadata) :
    (store.readStored environment key metadata).1.view.contents =
      store.view.contents :=
  View.contents_drained hcoherent
    (KeyValueStore.drained_readStored environment key metadata store).drained

theorem Invariant.progress_setSection (hinvariant : Invariant initial system)
    {thread : Thread} {key value : Bytes} {expiresAtMs : Int64}
    {environment : Environment}
    (hposition : system.position thread = .setReady key value expiresAtMs)
    (hfaultless : environment.Faultless) :
    Progress system (system.exclude thread .idle
      (system.store.setSection environment key value expiresAtMs).1
      [.set key value expiresAtMs]) := by
  have hvalid := hinvariant.justified thread
  rw [hposition] at hvalid
  obtain ⟨-, hchanges⟩ := KeyValueStore.changes_setSection hfaultless
    hinvariant.opened hinvariant.coherent hvalid
  exact .exclude (Or.inr ⟨_, rfl, hchanges⟩) fun _ _ hsame => by cases hsame

/-- Every step is such a progress. -/
theorem Invariant.progress (hinvariant : Invariant initial system)
    (hstep : Step system next) : Progress system next := by
  have hcoherent := hinvariant.coherent
  have hopened := hinvariant.opened
  cases hstep with
  | setReady => exact .read (.move rfl fun _ _ hsame => by cases hsame)
  | setSection hposition hfree hfaultless =>
      exact hinvariant.progress_setSection hposition hfaultless
  | getLocked => exact .move rfl fun _ _ hsame => by cases hsame
  | getMissing => exact .move rfl fun _ _ hsame => by cases hsame
  | getExpired => exact .read (.move rfl fun _ _ hsame => by cases hsame)
  | getFound => exact .read (.move rfl fun _ _ hsame => by cases hsame)
  | @getCached thread key value before metadata nowMs =>
      have hmoved : Progress system (system.move thread .idle
          (system.store.lookupCache key).1) :=
        .move rfl fun _ _ hsame => by cases hsame
      exact ⟨hmoved.executes, hmoved.moves, hmoved.lists⟩
  | getMissed => exact .move rfl fun _ _ hsame => by cases hsame
  | getRead =>
      exact .move (contents_readStored hcoherent _ _ _) fun _ _ hsame => by
        cases hsame
  | getUnreadable =>
      exact .move (contents_readStored hcoherent _ _ _) fun _ _ hsame => by
        cases hsame
  | @getFilled thread key value before nowMs =>
      have hmoved : Progress system (system.move thread .idle
          (system.store.fillCache key value)) :=
        .move rfl fun _ _ hsame => by cases hsame
      exact ⟨hmoved.executes, hmoved.moves, hmoved.lists⟩
  | @eraseIfExpired thread key nowMs =>
      exact .exclude (Or.inr ⟨_, rfl,
        KeyValueStore.changes_eraseIfExpired key nowMs system.store⟩)
        fun _ _ hsame => by cases hsame
  | @remove thread key environment hposition hkey hfree hfaultless =>
      obtain ⟨-, hexecutes⟩ := KeyValueStore.executes_removeSection
        hfaultless hcoherent hkey
      exact .read (.exclude hexecutes fun _ _ hsame => by cases hsame)
  | @cleanupExpired thread environment =>
      exact .read (.exclude (Or.inr ⟨_, rfl,
        KeyValueStore.changes_purgeExpired environment system.store⟩)
        fun _ _ hsame => by cases hsame)
  | @keysCleaned thread start environment =>
      refine .read (.exclude (Or.inr ⟨_, rfl,
        KeyValueStore.changes_purgeExpired environment system.store⟩) ?_)
      intro other nowMs hsame
      cases hsame
      exact fresh_purgeExpired environment system.store
  | @keysListed thread start nowMs environment hposition =>
      have hmoved : Progress system (system.move thread .idle system.store) :=
        .move rfl fun _ _ hsame => by cases hsame
      exact ⟨hmoved.executes, hmoved.moves,
        Or.inr ⟨thread, start, nowMs, environment, hposition, rfl⟩⟩
  | @compact thread environment hposition hfree hfaultless =>
      obtain ⟨-, hchanges⟩ := KeyValueStore.changes_compactSection
        hfaultless.toReliable hopened hcoherent
      exact .read (.exclude (Or.inr ⟨_, rfl, hchanges⟩)
        fun _ _ hsame => by cases hsame)

/-! ## Listings -/

/-- Every key of a listing had an unexpired entry when it was listed, judged at
the clock reading of the same call. -/
def ListsLive (system : System Thread) : Prop :=
  ∀ listed ∈ system.listed, ∀ key ∈ listed.keys,
    ∃ metadata, listed.index.lookup key = some metadata ∧
      isExpired metadata.expiresAtMs listed.nowMs = false

/-- A set section of this step does not store a deadline that has passed at the
reading of a `keys` that has purged and has not listed yet. -/
def SetsFresh (system next : System Thread) : Prop :=
  ∀ key value expiresAtMs,
    next.history = system.history ++ [.set key value expiresAtMs] →
      ∀ thread start nowMs,
        system.position thread = .keysCleaned start nowMs →
          KeyValueStore.startsWith start key = true →
            isExpired expiresAtMs nowMs = false

/-- Any number of steps that all meet a condition. -/
abbrev ReachesBy (condition : System Thread → System Thread → Prop) :
    System Thread → System Thread → Prop :=
  Relation.ReflTransGen fun system next =>
    Step system next ∧ condition system next

/-- What a listing in the gap will find. -/
structure Listing (system : System Thread) : Prop where
  gap : ∀ thread start nowMs,
    system.position thread = .keysCleaned start nowMs →
      ∀ key value expiresAtMs,
        system.store.view.contents key = some (value, expiresAtMs) →
          KeyValueStore.startsWith start key = true →
            isExpired expiresAtMs nowMs = false
  live : ListsLive system

theorem Listing.gap_step (hlisting : Listing system)
    (hprogress : Progress system next) (hfresh : SetsFresh system next)
    {thread : Thread} {start : Bytes} {nowMs : Int64}
    (hposition : next.position thread = .keysCleaned start nowMs)
    {key value : Bytes} {expiresAtMs : Int64}
    (hfound : next.store.view.contents key = some (value, expiresAtMs))
    (hstart : KeyValueStore.startsWith start key = true) :
    isExpired expiresAtMs nowMs = false := by
  obtain ⟨mover, position, hmoves, hpurged⟩ := hprogress.moves
  rw [hmoves] at hposition
  by_cases hmover : thread = mover
  · rw [hmover, Function.update_self] at hposition
    exact hpurged start nowMs hposition key value expiresAtMs hfound
  · rw [Function.update_of_ne hmover] at hposition
    obtain ⟨sections, hhistory, hexecutes⟩ := hprogress.executes
    rcases hexecutes with ⟨-, hsame⟩ | ⟨executed, rfl, hchanges⟩
    · rw [hsame] at hfound
      exact hlisting.gap thread start nowMs hposition key value expiresAtMs
        hfound hstart
    · rcases hchanges.fresh key value expiresAtMs hfound with
        rfl | ⟨hbefore, -⟩
      · exact hfresh key value expiresAtMs hhistory thread start nowMs
          hposition hstart
      · exact hlisting.gap thread start nowMs hposition key value expiresAtMs
          hbefore hstart

theorem Listing.live_step (hlisting : Listing system)
    (hprogress : Progress system next) : ListsLive next := by
  rcases hprogress.lists with hsame | ⟨thread, start, nowMs, environment,
    hposition, hlisted⟩
  · rw [ListsLive, hsame]
    exact hlisting.live
  · intro listed hmem key hkey
    rw [hlisted] at hmem
    rcases List.mem_append.mp hmem with hold | hnew
    · exact hlisting.live listed hold key hkey
    · rw [List.mem_singleton.mp hnew] at hkey ⊢
      obtain ⟨hindexed, hstart⟩ :=
        (KeyValueStore.mem_listKeys environment start key system.store).mp hkey
      obtain ⟨metadata, hfound⟩ := Option.isSome_iff_exists.mp hindexed
      refine ⟨metadata, hfound, ?_⟩
      exact hlisting.gap thread start nowMs hposition key _ _
        (View.contents_of_lookup hfound) hstart

/-- In every run in which each set section that runs between the purge and the
listing of a `keys` stores a deadline behind the reading of that call, every
`keys` lists live keys only. -/
theorem keys_lists_live {store : KeyValueStore}
    (hreachable : KeyValueStore.Reachable store)
    (hopened : store.opened = true) (clock : Int64) {system : System Thread}
    (hreaches : ReachesBy SetsFresh (start store clock) system) :
    ListsLive system := by
  have hcoherent := KeyValueStore.coherent_of_reachable hreachable
  have hboth : Invariant store.view.contents system ∧ Listing system := by
    induction hreaches with
    | refl =>
        refine ⟨Invariant.start hopened hcoherent clock, ?_, ?_⟩
        · intro thread begin nowMs hposition
          cases hposition
        · exact fun listed hlisted => absurd hlisted List.not_mem_nil
    | tail _ hlast ih =>
        obtain ⟨hinvariant, hlisting⟩ := ih
        have hprogress := hinvariant.progress hlast.1
        refine ⟨hinvariant.step hlast.1, ?_, hlisting.live_step hprogress⟩
        intro thread begin nowMs hposition key value expiresAtMs
        exact hlisting.gap_step hprogress hlast.2 hposition
  exact hboth.2.live

/-- A set without a deadline in the gap of a `keys`. -/
theorem keys_lists_live_around_set :
    let store := (KeyValueStore.machine.run [⟨.calm 1, .openStore⟩]
      (KeyValueStore.new .small none none)).1
    ∃ system : System Bool, ReachesBy SetsFresh (start store 1) system ∧
      system.listed.map Listed.keys = [[[97]]] ∧ ListsLive system := by
  intro store
  have hreachable : KeyValueStore.Reachable store := by
    apply KeyValueStore.reachable_run
    intro request hrequest
    rw [List.mem_singleton.mp hrequest]
    exact (Environment.faultless_calm 1).toReliable
  have hopened : store.opened = true := by decide +kernel
  have hvalidates :
      (KeyValueStore.validateSet [97] [98] none).ok = true := by decide +kernel
  let cleaned : System Bool := ((start store 1).read 2).exclude true
    (.keysCleaned [] 2) (store.purgeExpired (.calm 2)) [.purge 2]
  have hcleaned : Step (start store 1) cleaned :=
    .keysCleaned rfl (fun _ => id) (Environment.faultless_calm 2) (by decide)
  let ready : System Bool := (cleaned.read 2).move false
    (.setReady [97] [98] 0) cleaned.store
  have hclock : (2 : Int64) ≤ 2 := by decide
  have hready : Step cleaned ready := .setReady rfl hvalidates hclock
  let stored : System Bool := ready.exclude false .idle
    (ready.store.setSection (.calm 2) [97] [98] 0).1 [.set [97] [98] 0]
  have hstored : Step ready stored :=
    .setSection rfl (by intro thread; cases thread <;> exact id)
      (Environment.faultless_calm 2)
  let listed : System Bool := stored.list true ⟨2, stored.store.index,
    stored.store.listKeys (.calm 2) []⟩
  have hlisted : Step stored listed := .keysListed rfl
  have hunset : ∀ {system next : System Bool}, next.history = system.history →
      SetsFresh system next := by
    intro system next hsame key value expiresAtMs hhistory
    rw [hsame] at hhistory
    simp at hhistory
  have hpurge : SetsFresh (start store 1) cleaned := by
    intro key value expiresAtMs hhistory
    cases hhistory
  have hset : SetsFresh ready stored := by
    intro key value expiresAtMs hhistory thread begin nowMs
    cases hhistory
    exact fun _ _ => rfl
  have hreaches : ReachesBy SetsFresh (start store 1) listed :=
    (((Relation.ReflTransGen.single ⟨hcleaned, hpurge⟩).tail
      ⟨hready, hunset rfl⟩).tail ⟨hstored, hset⟩).tail ⟨hlisted, hunset rfl⟩
  exact ⟨listed, hreaches, by decide +kernel,
    keys_lists_live hreachable hopened 1 hreaches⟩

/-- A `set` computes its deadline, a `keys` purges at a later reading, the `set`
stores, and the `keys` lists the expired key. -/
theorem keys_lists_expired_key :
    let store := (KeyValueStore.machine.run [⟨.calm 1, .openStore⟩]
      (KeyValueStore.new .small none none)).1
    KeyValueStore.Reachable store ∧ store.opened = true ∧
      ∃ system : System Bool, Reaches (start store 1) system ∧
        ¬ ListsLive system := by
  intro store
  have hreachable : KeyValueStore.Reachable store := by
    apply KeyValueStore.reachable_run
    intro request hrequest
    rw [List.mem_singleton.mp hrequest]
    exact (Environment.faultless_calm 1).toReliable
  have hvalidates :
      (KeyValueStore.validateSet [97] [98] (some 5)).ok = true := by
    decide +kernel
  let ready : System Bool := ((start store 1).read 2).move false
    (.setReady [97] [98] 7) store
  have hclock : (1 : Int64) ≤ 2 := by decide
  have hready : Step (start store 1) ready := .setReady rfl hvalidates hclock
  let cleaned : System Bool := (ready.read 10).exclude true
    (.keysCleaned [] 10) (ready.store.purgeExpired (.calm 10)) [.purge 10]
  have hcleaned : Step ready cleaned :=
    .keysCleaned rfl (by intro thread; cases thread <;> exact id)
      (Environment.faultless_calm 10) (by decide)
  let stored : System Bool := cleaned.exclude false .idle
    (cleaned.store.setSection (.calm 10) [97] [98] 7).1 [.set [97] [98] 7]
  have hstored : Step cleaned stored :=
    .setSection rfl (by intro thread; cases thread <;> exact id)
      (Environment.faultless_calm 10)
  let listed : System Bool := stored.list true ⟨10, stored.store.index,
    stored.store.listKeys (.calm 10) []⟩
  have hlisted : Step stored listed := .keysListed rfl
  refine ⟨hreachable, by decide +kernel, listed,
    (((Relation.ReflTransGen.single hready).tail hcleaned).tail hstored).tail
      hlisted, ?_⟩
  intro hlive
  have hkey : [97] ∈ stored.store.listKeys (.calm 10) [] := by decide +kernel
  obtain ⟨metadata, hfound, hfresh⟩ :=
    hlive _ (List.mem_singleton_self _) [97] hkey
  have hstoredAt : stored.store.index.lookup [97] = some ⟨0, 29, 1, 7⟩ := by
    decide +kernel
  cases hstoredAt.symm.trans hfound
  cases hfresh

end System

end MiniKV
