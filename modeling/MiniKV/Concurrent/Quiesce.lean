import MiniKV.Concurrent.Closing

/-!
# What close leaves running

`close` waits for no call.  When it returns while a section that can still write
is under way, or when such a section begins before the next `open` has returned,
the file and the index change behind it.  Without such sections the store is
quiet, and what `open` recovers holds every call that returned success.
-/

namespace MiniKV

/-- What is left of the call changes neither the file nor the index while the
store stays closed. -/
def Progress.harmless (index : Index) : Progress → Bool
  | .idle => true
  | .waiting _ => true
  | .locked (.set _ _ _) => true
  | .locked (.remove key) => (index.lookup key).isNone
  | _ => false

/-- Where the thread stands behind taking the lock. -/
def Progress.entered : Progress → Progress
  | .waiting writer => .locked writer
  | progress => progress

/-- The next step is the second test of `isOpen` in `set`. -/
def Progress.rechecks : Progress → Bool
  | .locked (.set _ _ _) => true
  | _ => false

/-- `opened_`. -/
def Lifecycle.opened : Lifecycle → Bool
  | .published => true
  | .running => true
  | _ => false

/-- `open` has set `opened_` and has not returned. -/
def Lifecycle.publishing : Lifecycle → Bool
  | .published => true
  | _ => false

/-- `close` has cleared `opened_` and has not returned. -/
def Lifecycle.stopping : Lifecycle → Bool
  | .closing => true
  | _ => false

namespace KeyValueStore

variable {environment : Environment} {store : KeyValueStore}
variable {progress : Progress}

/-- No step of a call opens or closes the store. -/
theorem opened_advance (environment : Environment) (store : KeyValueStore)
    (progress : Progress) :
    (store.advance environment progress).store.opened = store.opened := by
  cases progress with
  | locked writer =>
      cases writer with
      | set key value expiresAtMs =>
          rw [advance]
          split <;> rfl
      | remove key =>
          rw [advance]
          dsimp only
          repeat' split
          all_goals rfl
      | compact => rfl
  | rechecked key value expiresAtMs =>
      rw [advance]
      split <;> rfl
  | purged =>
      rw [advance]
      split
      · exact opened_rewriteLive environment store
      · exact opened_rewriteLive environment store
  | _ => rfl

/-- A harmless section ends without a change, provided that `set` finds the
store closed. -/
theorem advance_of_harmless (environment : Environment)
    (hholds : progress.holds = true)
    (hharmless : progress.harmless store.index = true)
    (hcloses : progress.rechecks = true → store.opened = false) :
    store.advance environment progress = ⟨store, .idle, none⟩ ∧
      store.testsExpiry progress = false := by
  cases progress with
  | locked writer =>
      cases writer with
      | set key value expiresAtMs =>
          refine ⟨?_, rfl⟩
          rw [advance, hcloses rfl]
          rfl
      | remove key =>
          have hmissing : store.index.lookup key = none :=
            Option.isNone_iff_eq_none.mp hharmless
          refine ⟨?_, ?_⟩
          · rw [advance, find_missing hmissing]
          · rw [testsExpiry, hmissing]
            rfl
      | compact => cases hharmless
  | idle => cases hholds
  | waiting writer => cases hholds
  | _ => cases hharmless

theorem beginOpen_shut (environment : Environment)
    (hshut : store.opened = false) :
    (store.beginOpen environment).1.opened =
        (store.beginOpen environment).2.opened ∧
      (store.beginOpen environment).1.index = store.index := by
  rw [beginOpen]
  split
  · exact ⟨hshut, rfl⟩
  · dsimp only
    split
    · exact ⟨hshut, rfl⟩
    · exact ⟨hshut, rfl⟩

theorem recoverStep_shut (environment : Environment)
    (hshut : store.opened = false) :
    (store.recoverStep environment).1.opened =
        (store.recoverStep environment).2.opened ∧
      (store.recoverStep environment).1.index = store.index := by
  rw [recoverStep]
  split
  · exact ⟨hshut, rfl⟩
  · exact ⟨hshut, rfl⟩

/-- A thread that does not hold the lock is harmless. -/
theorem harmless_of_off (index : Index) (hoff : progress.holds = false) :
    progress.harmless index = true := by
  cases progress with
  | idle => rfl
  | waiting writer => rfl
  | _ => cases hoff

end KeyValueStore

namespace Session

variable {Thread : Type}

/-- The condition under which closing works: a section that begins between the
return of `close` and the return of the next `open` is harmless, no `set` tests
`isOpen` again between the store to `opened_` and the return of `open`, and
`close` does not return while a section that can still write is under way. -/
def Orderly : Action Thread → Session Thread → Prop
  | .lock thread, session =>
      session.lifecycle.quiet = true → session.holder = none →
        (session.progress thread).entered.harmless session.store.index = true
  | .advance thread _, session =>
      session.lifecycle.publishing = true →
        (session.progress thread).rechecks = false
  | .endClose, session =>
      session.lifecycle.stopping = true → ∀ thread,
        (session.progress thread).harmless session.store.index = true
  | _, _ => True

/-- The steps of `set`, `remove` and `compact`. -/
def Operates : Action Thread → Prop
  | .call _ _ _ => True
  | .lock _ => True
  | .advance _ _ => True
  | _ => False

/-- The lock is held by the thread that stands under it, `opened_` follows the
thread that closes and opens, and a quiet store has harmless sections only. -/
structure Guarded (session : Session Thread) : Prop where
  held : ∀ thread, (session.progress thread).holds = true ↔
    session.holder = some thread
  opened : session.store.opened = session.lifecycle.opened
  quiet : session.lifecycle.quiet = true → ∀ thread,
    (session.progress thread).harmless session.store.index = true

variable {session : Session Thread} {thread : Thread}

theorem guarded_start (config : StoreConfig) (data temporary : Option Bytes) :
    (start config data temporary : Session Thread).Guarded where
  held _ := ⟨nofun, nofun⟩
  opened := rfl
  quiet _ _ := rfl

/-- The thread that closes and opens moves on. -/
theorem Guarded.enter (hguarded : session.Guarded)
    {next : KeyValueStore × Lifecycle}
    (hopened : next.1.opened = next.2.opened)
    (hquiet : next.2.quiet = true → ∀ thread,
      (session.progress thread).harmless next.1.index = true) :
    (session.enter next).Guarded :=
  ⟨hguarded.held, hopened, hquiet⟩

variable [DecidableEq Thread]

/-! ## Steps on a quiet store -/

/-- A step under the lock of a quiet store ends a section without a change. -/
theorem advance_of_quiet (hguarded : session.Guarded)
    {environment : Environment}
    (horderly : Orderly (.advance thread environment) session)
    (hquiet : session.lifecycle.quiet = true)
    (hholds : (session.progress thread).holds = true) :
    session.advance thread environment =
      { session.move thread .idle with holder := none } := by
  have hcloses : (session.progress thread).rechecks = true →
      session.store.opened = false := by
    intro hrechecks
    rw [hguarded.opened]
    cases hlifecycle : session.lifecycle with
    | published =>
        have hother := horderly (by rw [hlifecycle]; rfl)
        rw [hrechecks] at hother
        cases hother
    | running =>
        rw [hlifecycle] at hquiet
        cases hquiet
    | _ => rfl
  obtain ⟨hadvance, htests⟩ := KeyValueStore.advance_of_harmless
    environment hholds (hguarded.quiet hquiet thread) hcloses
  rw [advance, hadvance, htests]
  rfl

/-- No step of a call changes a quiet store. -/
theorem store_step_of_quiet (hguarded : session.Guarded)
    {action : Action Thread} (hoperates : Operates action)
    (horderly : Orderly action session)
    (hquiet : session.lifecycle.quiet = true) :
    (session.step action).store = session.store := by
  cases action with
  | call thread environment call =>
      rw [step]
      split <;> rfl
  | lock thread =>
      rw [step]
      split <;> rfl
  | advance thread environment =>
      rw [step]
      split
      next hholds =>
        rw [advance_of_quiet hguarded horderly hquiet hholds]
        rfl
      · rfl
  | _ => exact absurd hoperates id

/-! ## The guard is an invariant -/

theorem Guarded.move (hguarded : session.Guarded) {progress : Progress}
    (hsame : progress.holds = (session.progress thread).holds)
    (hharmless : session.lifecycle.quiet = true →
      progress.harmless session.store.index = true) :
    (session.move thread progress).Guarded where
  held other := by
    change (Function.update session.progress thread progress other).holds =
      true ↔ session.holder = some other
    by_cases hother : other = thread
    · subst hother
      rw [Function.update_self, hsame]
      exact hguarded.held other
    · rw [Function.update_of_ne hother]
      exact hguarded.held other
  opened := hguarded.opened
  quiet hquiet other := by
    change (Function.update session.progress thread progress other).harmless
      session.store.index = true
    by_cases hother : other = thread
    · subst hother
      rw [Function.update_self]
      exact hharmless hquiet
    · rw [Function.update_of_ne hother]
      exact hguarded.quiet hquiet other

/-- A waiting thread takes the free lock. -/
theorem Guarded.lock (hguarded : session.Guarded) {progress : Progress}
    (hfree : session.holder = none) (hholds : progress.holds = true)
    (hharmless : session.lifecycle.quiet = true →
      progress.harmless session.store.index = true) :
    ({ session.move thread progress with holder := some thread } :
      Session Thread).Guarded where
  held other := by
    change (Function.update session.progress thread progress other).holds =
      true ↔ some thread = some other
    by_cases hother : other = thread
    · subst hother
      rw [Function.update_self]
      exact ⟨fun _ => rfl, fun _ => hholds⟩
    · rw [Function.update_of_ne hother, hguarded.held, hfree]
      exact ⟨nofun, fun hsame => absurd (Option.some.inj hsame).symm hother⟩
  opened := hguarded.opened
  quiet hquiet other := by
    change (Function.update session.progress thread progress other).harmless
      session.store.index = true
    by_cases hother : other = thread
    · subst hother
      rw [Function.update_self]
      exact hharmless hquiet
    · rw [Function.update_of_ne hother]
      exact hguarded.quiet hquiet other

/-- A step under the lock keeps it or gives it back. -/
theorem Guarded.advance (hguarded : session.Guarded)
    {environment : Environment}
    (horderly : Orderly (.advance thread environment) session)
    (hholds : (session.progress thread).holds = true) :
    (session.advance thread environment).Guarded where
  held other := by
    change (Function.update session.progress thread _ other).holds = true ↔
      (if _ then session.holder else none) = some other
    have hholder := (hguarded.held thread).mp hholds
    by_cases hother : other = thread
    · subst hother
      rw [Function.update_self]
      split
      next hkept => exact ⟨fun _ => hholder, fun _ => hkept⟩
      next hgiven => exact ⟨fun hkept => absurd hkept hgiven, nofun⟩
    · rw [Function.update_of_ne hother, hguarded.held, hholder]
      split
      · exact Iff.rfl
      · exact ⟨fun hsame => absurd (Option.some.inj hsame).symm hother, nofun⟩
  opened := (KeyValueStore.opened_advance environment session.store
    (session.progress thread)).trans hguarded.opened
  quiet hquiet other := by
    rw [advance_of_quiet hguarded horderly hquiet hholds]
    change (Function.update session.progress thread .idle other).harmless
      session.store.index = true
    by_cases hother : other = thread
    · subst hother
      rw [Function.update_self]
      rfl
    · rw [Function.update_of_ne hother]
      exact hguarded.quiet hquiet other

theorem guarded_step (hguarded : session.Guarded) {action : Action Thread}
    (horderly : Orderly action session) : (session.step action).Guarded := by
  cases action with
  | call thread environment call =>
      rw [step]
      split
      next hidle _ =>
        exact hguarded.move (by rw [hidle]; rfl) fun _ => rfl
      · exact hguarded
  | lock thread =>
      rw [step]
      split
      next writer hwaiting hfree =>
        refine hguarded.lock hfree rfl fun hquiet => ?_
        have hentered := horderly hquiet hfree
        rwa [hwaiting] at hentered
      · exact hguarded
  | advance thread environment =>
      rw [step]
      split
      next hholds => exact hguarded.advance horderly hholds
      · exact hguarded
  | beginClose =>
      rw [step]
      split
      · exact hguarded.enter rfl Bool.noConfusion
      · exact hguarded
  | endClose =>
      rw [step]
      split
      next hclosing =>
        have hharmless := horderly (by rw [hclosing]; rfl)
        exact hguarded.enter (by rw [hguarded.opened, hclosing]; rfl)
          fun _ => hharmless
      · exact hguarded
  | beginOpen environment =>
      rw [step]
      split
      next hclosed =>
        have hshut : session.store.opened = false := by
          rw [hguarded.opened, hclosed]
          rfl
        have hbegin := KeyValueStore.beginOpen_shut environment hshut
        have hharmless := hguarded.quiet (by rw [hclosed]; rfl)
        rw [← hbegin.2] at hharmless
        exact hguarded.enter hbegin.1 fun _ => hharmless
      · exact hguarded
  | recover environment =>
      rw [step]
      split
      next hopening =>
        have hshut : session.store.opened = false := by
          rw [hguarded.opened, hopening]
          rfl
        have hrecover := KeyValueStore.recoverStep_shut environment hshut
        have hharmless := hguarded.quiet (by rw [hopening]; rfl)
        rw [← hrecover.2] at hharmless
        exact ⟨hguarded.held, hrecover.1, fun _ => hharmless⟩
      · exact hguarded
  | install =>
      rw [step]
      split
      next state hrecovered hfree =>
        refine hguarded.enter (by
          change session.store.opened = false
          rw [hguarded.opened, hrecovered]
          rfl) fun _ other => ?_
        have hoff := hguarded.held other
        rw [hfree] at hoff
        have hidle : ¬ (session.progress other).holds = true :=
          fun hholds => Option.some_ne_none other (hoff.mp hholds).symm
        exact KeyValueStore.harmless_of_off _ (Bool.eq_false_iff.mpr hidle)
      · exact hguarded
  | publish =>
      rw [step]
      split
      next state hinstalled =>
        have hharmless := hguarded.quiet (by rw [hinstalled]; rfl)
        exact hguarded.enter rfl fun _ => hharmless
      · exact hguarded
  | endOpen environment =>
      rw [step]
      split
      next hpublished =>
        have hopen : session.store.opened = true := by
          rw [hguarded.opened, hpublished]
          rfl
        have hharmless := hguarded.quiet (by rw [hpublished]; rfl)
        rw [KeyValueStore.endOpen]
        split
        · exact hguarded.enter rfl fun _ => hharmless
        · exact hguarded.enter hopen Bool.noConfusion
      · exact hguarded

end Session

end MiniKV
