import MiniKV.Store.Runs

/-!
# Waking the cleaner

The cleaner thread waits on a condition variable between two cleanups, and
`close` stores a flag and notifies it.  The flag is stored without the mutex of
the condition variable, so both can fall between the cleaner's test of its
predicate and its falling asleep.  Each test, each hand-over of the mutex and
each change of a flag is a step of its own, and other calls on the store touch
neither the flags nor the condition variable.  An action that is not possible
in a state leaves it as it is.
-/

namespace MiniKV

/-- Where the cleaner stands in `cleanerLoop`. -/
inductive CleanerStage
  /-- The thread does not run, or it has been joined. -/
  | absent
  | starting
  /-- It is at the condition of its loop, from here to `blocking` with the
  mutex. -/
  | looping
  /-- `wait_for` is about to test its predicate. -/
  | waiting
  /-- The predicate was false, and `wait_for` is about to give the mutex back
  and to fall asleep in one step. -/
  | blocking
  | blocked
  | notified
  | timedOut
  /-- `wait_for` has returned. -/
  | waited
  | unlocked
  | cleaned
  | finished
  deriving DecidableEq

/-- Where the thread that closes the store stands in `close`. -/
inductive CloserStage
  | idle
  /-- `opened_` has been cleared. -/
  | exchanged
  /-- `stopRequested_` has been set. -/
  | stopping
  /-- `notify_all` has returned. -/
  | joining
  deriving DecidableEq

/-- The store with the thread that cleans it and the one that closes it. -/
structure Cleaning where
  store : KeyValueStore
  cleaner : CleanerStage
  closer : CloserStage

inductive CleaningAction
  /-- The cleaner goes on, which it cannot do asleep. -/
  | clean (environment : Environment)
  /-- The cleaner sleeps no longer than this, whatever the interval is. -/
  | timeout
  | close
  | openStore (environment : Environment)

namespace KeyValueStore

/-- `opened_.exchange(false)`. -/
def clearOpened (store : KeyValueStore) : KeyValueStore :=
  { store with opened := false }

/-- `stopRequested_.store(true)`. -/
def requestStop (store : KeyValueStore) : KeyValueStore :=
  { store with stopRequested := true }

/-- The two stores of `close` make up what it does to an open store. -/
theorem close_eq_stores {store : KeyValueStore} (hopened : store.opened = true) :
    store.close = (store.clearOpened.requestStop, .success) :=
  if_pos hopened

/-- The next step of the cleaner. -/
def advanceCleaner (environment : Environment) (store : KeyValueStore) :
    CleanerStage → KeyValueStore × CleanerStage
  | .absent => (store, .absent)
  | .starting => (store, .looping)
  | .looping => (store, if store.stopRequested then .finished else .waiting)
  | .waiting => (store, if store.stopRequested then .waited else .blocking)
  | .blocking => (store, .blocked)
  | .blocked => (store, .blocked)
  -- A notified thread takes the mutex back and tests its predicate again, one
  -- that has timed out returns behind that test.
  | .notified => (store, .waiting)
  | .timedOut => (store, .waited)
  | .waited => (store, if store.stopRequested then .finished else .unlocked)
  | .unlocked => ((store.cleanupExpired environment).1, .cleaned)
  | .cleaned => (store, .looping)
  | .finished => (store, .finished)

end KeyValueStore

/-- `notify_all` wakes a cleaner that is asleep at that moment. -/
def CleanerStage.notify : CleanerStage → CleanerStage
  | .blocked => .notified
  | stage => stage

namespace Cleaning

/-- The next step of `close`. -/
def advanceCloser (state : Cleaning) : Cleaning :=
  match state.closer with
  | .idle =>
      if state.store.opened then
        { state with store := state.store.clearOpened, closer := .exchanged }
      else
        state
  | .exchanged =>
      { state with store := state.store.requestStop, closer := .stopping }
  | .stopping =>
      { state with cleaner := state.cleaner.notify, closer := .joining }
  | .joining =>
      if state.cleaner = .finished ∨ state.cleaner = .absent then
        { state with cleaner := .absent, closer := .idle }
      else
        state

/-- `open` starts the cleaner when it opens a closed store. -/
def openCleaned (environment : Environment) (state : Cleaning) : Cleaning :=
  let opened := (state.store.openStore environment).1
  if state.store.opened = false ∧ opened.opened = true ∧
      state.store.config.startBackgroundCleaner = true then
    { state with store := opened, cleaner := .starting }
  else
    { state with store := opened }

def perform (action : CleaningAction) (state : Cleaning) : Cleaning :=
  match action with
  | .clean environment =>
      let next := state.store.advanceCleaner environment state.cleaner
      { state with store := next.1, cleaner := next.2 }
  | .timeout =>
      if state.cleaner = .blocked then
        { state with cleaner := .timedOut }
      else
        state
  | .close => state.advanceCloser
  | .openStore environment =>
      if state.closer = .idle ∧ state.cleaner = .absent then
        state.openCleaned environment
      else
        state

def machine : Machine CleaningAction Cleaning Unit :=
  ⟨fun action state => (state.perform action, ())⟩

/-- A store that no thread has opened yet. -/
def start (config : StoreConfig) (data temporary : Option Bytes) : Cleaning :=
  ⟨.new config data temporary, .absent, .idle⟩

/-- The cleaner is asleep, or it will be with its next step whatever happens. -/
def FallsAsleep (stage : CleanerStage) : Prop :=
  stage = .blocking ∨ stage = .blocked

/-- `close` has notified and waits for a cleaner that only its timeout can
wake. -/
structure Missed (state : Cleaning) : Prop where
  joining : state.closer = .joining
  stopRequested : state.store.stopRequested = true
  asleep : FallsAsleep state.cleaner

/-- `notify_all` runs while the cleaner stands between its test of the flag and
its falling asleep. -/
structure NotifiesIntoGap (action : CleaningAction) (state : Cleaning) :
    Prop where
  close : action = .close
  stopping : state.closer = .stopping
  blocking : state.cleaner = .blocking

/-! ## Runs -/

variable {state : Cleaning} {environment : Environment}

theorem stopRequested_cleanupExpired (environment : Environment)
    (store : KeyValueStore) :
    (store.cleanupExpired environment).1.stopRequested =
      store.stopRequested := by
  rw [KeyValueStore.cleanupExpired]
  split
  · rfl
  · rfl

theorem stopRequested_advanceCleaner (environment : Environment)
    (store : KeyValueStore) (stage : CleanerStage) :
    (store.advanceCleaner environment stage).1.stopRequested =
      store.stopRequested := by
  cases stage with
  | unlocked => exact stopRequested_cleanupExpired environment store
  | _ => rfl

/-- The cleaner falls asleep only when it has found the flag clear. -/
theorem fallsAsleep_of_advanceCleaner {store : KeyValueStore}
    {stage : CleanerStage}
    (hasleep : FallsAsleep (store.advanceCleaner environment stage).2) :
    FallsAsleep stage ∨ store.stopRequested = false := by
  cases hstop : store.stopRequested with
  | false => exact Or.inr rfl
  | true =>
      left
      cases stage with
      | blocking => exact Or.inl rfl
      | blocked => exact Or.inr rfl
      | _ => simp [FallsAsleep, KeyValueStore.advanceCleaner, hstop] at hasleep

theorem not_fallsAsleep_notify {stage : CleanerStage}
    (hstage : stage ≠ .blocking) : ¬ FallsAsleep stage.notify := by
  cases stage with
  | blocking => exact absurd rfl hstage
  | _ => simp [FallsAsleep, CleanerStage.notify]

/-- A stop signal that is out reaches the cleaner. -/
structure Heard (state : Cleaning) : Prop where
  requested : state.closer = .stopping ∨ state.closer = .joining →
    state.store.stopRequested = true
  awake : state.closer = .joining → ¬ FallsAsleep state.cleaner

theorem Heard.not_missed (hheard : state.Heard) : ¬ state.Missed :=
  fun hmissed => hheard.awake hmissed.joining hmissed.asleep

theorem heard_start (config : StoreConfig) (data temporary : Option Bytes) :
    (start config data temporary).Heard where
  requested hcloser := by rcases hcloser with hcloser | hcloser <;> cases hcloser
  awake hcloser := by cases hcloser

/-- A state in which `close` has not stored the flag yet. -/
theorem heard_of_early (hstopping : state.closer ≠ .stopping)
    (hjoining : state.closer ≠ .joining) : state.Heard where
  requested hcloser := by
    rcases hcloser with hcloser | hcloser
    · exact absurd hcloser hstopping
    · exact absurd hcloser hjoining
  awake hcloser := absurd hcloser hjoining

namespace Heard

theorem clean (hheard : state.Heard) (environment : Environment) :
    (state.perform (.clean environment)).Heard where
  requested hcloser :=
    (stopRequested_advanceCleaner environment _ _).trans
      (hheard.requested hcloser)
  awake hcloser hasleep := by
    have hrequested := hheard.requested (Or.inr hcloser)
    rcases fallsAsleep_of_advanceCleaner hasleep with hbefore | hclear
    · exact hheard.awake hcloser hbefore
    · cases hrequested.symm.trans hclear

theorem timeout (hheard : state.Heard) : (state.perform .timeout).Heard := by
  rw [perform]
  split
  · exact ⟨hheard.requested, fun _ => by simp [FallsAsleep]⟩
  · exact hheard

theorem close (hheard : state.Heard)
    (hgap : ¬ NotifiesIntoGap .close state) : (state.perform .close).Heard := by
  obtain ⟨store, cleaner, closer⟩ := state
  cases closer with
  | idle =>
      rw [perform, advanceCloser]
      dsimp only
      split
      · exact heard_of_early (by simp) (by simp)
      · exact hheard
  | exchanged => exact ⟨fun _ => rfl, fun hcloser => by cases hcloser⟩
  | stopping =>
      refine ⟨fun _ => hheard.requested (Or.inl rfl), fun _ => ?_⟩
      apply not_fallsAsleep_notify
      intro hblocking
      exact hgap ⟨rfl, rfl, hblocking⟩
  | joining =>
      rw [perform, advanceCloser]
      dsimp only
      split
      · exact heard_of_early (by simp) (by simp)
      · exact hheard

theorem openStore (hheard : state.Heard) (environment : Environment) :
    (state.perform (.openStore environment)).Heard := by
  rw [perform]
  split
  next hidle =>
    have hcloser : (state.openCleaned environment).closer = .idle := by
      rw [openCleaned]
      split
      · exact hidle.1
      · exact hidle.1
    exact heard_of_early (by simp [hcloser]) (by simp [hcloser])
  · exact hheard

/-- The step rule. -/
theorem perform (hheard : state.Heard) {action : CleaningAction}
    (hgap : ¬ NotifiesIntoGap action state) : (state.perform action).Heard := by
  cases action with
  | clean environment => exact hheard.clean environment
  | timeout => exact hheard.timeout
  | close => exact hheard.close hgap
  | openStore environment => exact hheard.openStore environment

/-- The run rule. -/
theorem run (hheard : state.Heard) {actions : List CleaningAction}
    (halong : machine.Along (fun action state => ¬ NotifiesIntoGap action state)
      actions state) : (machine.run actions state).1.Heard :=
  Machine.run_invariant (fun _ _ hheard hgap => hheard.perform hgap) halong
    hheard

end Heard

/-- A notification in the gap is missed at once. -/
theorem missed_of_gap (hheard : state.Heard) {action : CleaningAction}
    (hgap : NotifiesIntoGap action state) :
    (machine.step action state).1.Missed := by
  obtain ⟨store, cleaner, closer⟩ := state
  obtain ⟨rfl, hstopping, hblocking⟩ := hgap
  dsimp only at hstopping hblocking
  subst hstopping hblocking
  exact ⟨rfl, hheard.requested (Or.inl rfl), Or.inl rfl⟩

/-- Over every run of the cleaner, of `close` and of `open`, with any number of
rounds and of timeouts: no stop signal is missed in a state of the run exactly
when no `notify_all` falls into the gap. -/
theorem stop_signal_heard_iff (config : StoreConfig)
    (data temporary : Option Bytes) (actions : List CleaningAction) :
    (∀ earlier, earlier <+: actions →
        ¬ (machine.run earlier (start config data temporary)).1.Missed) ↔
      machine.Along (fun action state => ¬ NotifiesIntoGap action state) actions
        (start config data temporary) := by
  constructor
  · intro hheard
    induction actions using List.reverseRecOn with
    | nil => exact trivial
    | append_singleton actions action ih =>
        have halong := ih fun earlier hearlier =>
          hheard earlier (hearlier.trans (List.prefix_append actions [action]))
        apply Machine.along_append.mpr
        refine ⟨halong, ?_, trivial⟩
        intro hgap
        apply hheard (actions ++ [action]) List.prefix_rfl
        rw [Machine.run_append]
        exact missed_of_gap ((heard_start config data temporary).run halong) hgap
  · rintro halong earlier ⟨later, rfl⟩
    have hbefore := (Machine.along_append.mp halong).1
    exact ((heard_start config data temporary).run hbefore).not_missed

/-! ## A missed signal -/

theorem fallsAsleep_advanceCleaner {stage : CleanerStage}
    (hasleep : FallsAsleep stage) (environment : Environment)
    (store : KeyValueStore) :
    store.advanceCleaner environment stage = (store, .blocked) := by
  rcases hasleep with rfl | rfl
  · rfl
  · rfl

theorem Missed.perform (hmissed : state.Missed) {action : CleaningAction}
    (haction : action ≠ .timeout) : (state.perform action).Missed := by
  obtain ⟨store, cleaner, closer⟩ := state
  obtain ⟨hjoining, hrequested, hasleep⟩ := hmissed
  dsimp only at hjoining hrequested hasleep
  subst hjoining
  cases action with
  | clean environment =>
      have hnext := fallsAsleep_advanceCleaner hasleep environment store
      rw [Cleaning.perform, hnext]
      exact ⟨rfl, hrequested, Or.inr rfl⟩
  | timeout => exact absurd rfl haction
  | close =>
      have hruns : ¬ (cleaner = .finished ∨ cleaner = .absent) := by
        rcases hasleep with rfl | rfl
        · simp
        · simp
      rw [Cleaning.perform, advanceCloser]
      dsimp only
      rw [if_neg hruns]
      exact ⟨rfl, hrequested, hasleep⟩
  | openStore environment =>
      rw [Cleaning.perform, if_neg fun hidle => by cases hidle.1]
      exact ⟨rfl, hrequested, hasleep⟩

/-- `close` hangs for as long as the cleaner does not time out. -/
theorem Missed.run (hmissed : state.Missed) {actions : List CleaningAction}
    (hactions : ∀ action ∈ actions, action ≠ .timeout) :
    (machine.run actions state).1.Missed :=
  Machine.run_invariant (fun _ _ hmissed haction => hmissed.perform haction)
    (Machine.Along.of_forall (fun action haction _ => hactions action haction) _)
    hmissed

/-- The cleaner finds the flag clear, `close` runs up to its notification, and
the cleaner falls asleep. -/
theorem stop_signal_missed_in_gap :
    let config : StoreConfig := ⟨"data.log", 1, 1000, true⟩
    let clean := CleaningAction.clean (.calm 2)
    let state := (machine.run
      [.openStore (.calm 1), clean, clean, clean, .close, .close, .close, clean]
      (start config none none)).1
    state.cleaner = .blocked ∧ state.Missed ∧
      ∀ actions : List CleaningAction,
        (∀ action ∈ actions, action ≠ .timeout) →
        (machine.run actions state).1.Missed := by
  intro config clean state
  have hmissed : state.Missed :=
    ⟨by decide +kernel, by decide +kernel, Or.inr (by decide +kernel)⟩
  exact ⟨by decide +kernel, hmissed, fun _ hactions => hmissed.run hactions⟩

end Cleaning

end MiniKV
