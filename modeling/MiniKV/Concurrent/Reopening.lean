import MiniKV.Concurrent.Quiesce
import MiniKV.Concurrent.Settled

/-!
# Opening again behind close

In an orderly run without I/O failure the file of a closed store holds every
call that has returned success, and so does the index that the next `open` puts
in place.
-/

namespace MiniKV

namespace View

variable {latest nowMs : Int64} {acknowledged : Acknowledged} {view : View}
variable {progress : Progress}

/-- Nothing has been stored yet, or the view is settled. -/
def Early (latest : Int64) (acknowledged : Acknowledged) (view : View) : Prop :=
  view.pending = [] ∧
    ((∀ key, acknowledged key = none) ∨ view.Settled latest acknowledged)

/-- What recovery has read holds every acknowledged call. -/
def Recovered (latest : Int64) (acknowledged : Acknowledged) (view : View)
    (state : RecoveryState) : Prop :=
  ∃ entries nowMs, nowMs ≤ latest ∧ view.pending = [] ∧
    view.bytes = logFormat.imageAll entries ∧
    state.index = replay nowMs entries ∧
    ∀ key stored, acknowledged key = some stored →
      KeptUntil latest stored (ledgerOf entries key)

/-- What holds of the view while the store closes and opens and a thread stands
under the lock. -/
def Consistent (latest : Int64) (acknowledged : Acknowledged) (view : View)
    (progress : Progress) : Lifecycle → Prop
  | .closed => view.Early latest acknowledged
  | .opening => view.Early latest acknowledged
  | .recovered state => view.Recovered latest acknowledged state
  | .installed state =>
      view.Recovered latest acknowledged state ∧ view.index = state.index
  | _ => view.Staged latest acknowledged progress

/-- A section that can no longer write is not between its record and its
index entry. -/
theorem staged_iff_settled {index : Index}
    (hharmless : progress.harmless index = true) :
    view.Staged latest acknowledged progress ↔
      view.Settled latest acknowledged := by
  cases progress with
  | idle => exact Iff.rfl
  | waiting writer => exact Iff.rfl
  | locked writer => exact Iff.rfl
  | _ => cases hharmless

theorem consistent_iff_staged {lifecycle : Lifecycle}
    (hbusy : lifecycle.quiet = false) :
    view.Consistent latest acknowledged progress lifecycle ↔
      view.Staged latest acknowledged progress := by
  cases lifecycle with
  | running => exact Iff.rfl
  | closing => exact Iff.rfl
  | _ => cases hbusy

/-- The view alone stays consistent when the section moves on. -/
theorem Consistent.restage {other : Progress} {lifecycle : Lifecycle}
    (hconsistent : view.Consistent latest acknowledged progress lifecycle)
    (hstaged : view.Staged latest acknowledged progress →
      view.Staged latest acknowledged other) :
    view.Consistent latest acknowledged other lifecycle := by
  cases lifecycle with
  | published => exact hstaged hconsistent
  | running => exact hstaged hconsistent
  | closing => exact hstaged hconsistent
  | _ => exact hconsistent

theorem Early.mono (hearly : view.Early nowMs acknowledged)
    (hclock : nowMs ≤ latest) : view.Early latest acknowledged :=
  ⟨hearly.1, hearly.2.imp_right fun hsettled => hsettled.mono hclock⟩

/-- The index that recovery has read holds every acknowledged call. -/
theorem Recovered.settled {state : RecoveryState}
    (hrecovered : view.Recovered latest acknowledged state) :
    (View.mk view.bytes view.pending state.index view.cache.clear).Settled
      latest acknowledged := by
  obtain ⟨entries, nowMs, hclock, hpending, hbytes, hindex, hledger⟩ :=
    hrecovered
  rw [hbytes, hpending, hindex]
  exact
    { pending := rfl
      coherent := coherent_ofLog nowMs entries view.cache
      whole := ⟨entries, rfl⟩
      lasting := fun key stored hstored =>
        .reopened hclock (hledger key stored hstored) view.cache }

/-- Recovering from the whole log of a settled view. -/
theorem Settled.recovered (hsettled : view.Settled latest acknowledged)
    {entries : List LogEntry} {tail : Bytes} {later : View}
    {state : RecoveryState} (hlog : LogWithTail entries tail view.bytes)
    (hclock : nowMs ≤ latest) (hpending : later.pending = [])
    (hbytes : later.bytes = logFormat.imageAll entries)
    (hindex : state.index = replay nowMs entries) :
    later.Recovered latest acknowledged state := by
  refine ⟨entries, nowMs, hclock, hpending, hbytes, hindex, ?_⟩
  intro key stored hstored
  obtain ⟨others, himage, hledger⟩ := (hsettled.lasting key stored hstored).file
  have hothers : LogWithTail others [] view.bytes :=
    himage ▸ logWithTail_imageAll others
  obtain ⟨hsame, -⟩ := hlog.unique hothers
  exact hsame ▸ hledger

end View

namespace KeyValueStore

variable {environment : Environment} {store : KeyValueStore}
variable {latest next : Int64} {acknowledged : Acknowledged}

theorem consistent_beginOpen (progress : Progress)
    (hearly : store.view.Early latest acknowledged) :
    (store.beginOpen environment).1.view.Consistent latest acknowledged progress
      (store.beginOpen environment).2 := by
  have hbytes : (store.storage.openFile environment.openAnswers).1.bytes =
      store.storage.bytes :=
    AppendOnlyStore.bytes_ensureOpenLocked store.storage environment.openAnswers
  have hpending :
      (store.storage.openFile environment.openAnswers).1.pending =
        store.storage.pending :=
    AppendOnlyStore.pending_ensureOpenLocked store.storage
      environment.openAnswers
  have hview : view { store with
      storage := (store.storage.openFile environment.openAnswers).1 } =
      store.view :=
    view_withStorage hbytes hpending
  rw [beginOpen]
  split
  · exact hearly
  · dsimp only
    rw [hview]
    split
    · exact hearly
    · exact hearly

theorem consistent_recoverStep (hfaultless : environment.Faultless)
    (progress : Progress) (hlatest : latest ≤ next)
    (hreading : environment.nowMs ≤ next)
    (hearly : store.view.Early latest acknowledged) :
    (store.recoverStep environment).1.view.Consistent next acknowledged progress
      (store.recoverStep environment).2 := by
  rw [recoverStep, hfaultless.openAnswers, hfaultless.recover]
  obtain ⟨hpending, hnone | hsettled⟩ := hearly
  · rcases hrecover : store.storage.recover {} {} environment.nowMs with
      ⟨storage, result⟩
    cases result with
    | error status =>
        have hnothing :=
          store.storage.pending_recover environment.nowMs
        rw [hrecover] at hnothing
        exact ⟨hnothing, Or.inl hnone⟩
    | ok state =>
        obtain ⟨entries, tail, hlog, hstorage, hstate⟩ :=
          AppendOnlyStore.logWithTail_of_recover hrecover
        refine ⟨entries, environment.nowMs, hreading, ?_, ?_, ?_, ?_⟩
        · change storage.pending = _
          rw [hstorage, AppendOnlyStore.pending_recovered]
        · change storage.bytes = _
          rw [hstorage,
            store.storage.bytes_recovered_of_pending hlog.1 hpending]
        · rw [hstate]
        · intro key stored hstored
          rw [hnone key] at hstored
          cases hstored
  · have hbefore := hsettled.mono hlatest
    obtain ⟨entries, himage⟩ := hbefore.whole
    have hlog : LogWithTail entries [] store.storage.bytes := by
      change LogWithTail entries [] store.view.bytes
      rw [himage]
      exact logWithTail_imageAll entries
    rw [AppendOnlyStore.recover_of_logWithTail hlog]
    exact hbefore.recovered hlog hreading
      (store.storage.pending_recovered entries [])
      (store.storage.bytes_recovered_of_pending hlog.1 hpending) rfl

end KeyValueStore

/-- `open` has put the recovered index in place and has not set `opened_`. -/
def Lifecycle.replaced : Lifecycle → Bool
  | .installed _ => true
  | _ => false

/-- Nothing fails in recovery and under the lock. -/
def Action.Faultless {Thread : Type} : Action Thread → Prop
  | .advance _ environment => environment.Faultless
  | .recover environment => environment.Faultless
  | _ => True

namespace Session

variable {Thread : Type}

/-- Where the thread that holds the lock stands. -/
def stage (session : Session Thread) : Progress :=
  match session.holder with
  | none => .idle
  | some thread => session.progress thread

/-- The file holds every acknowledged call, but for a record of the thread that
holds the lock. -/
def Consistent (session : Session Thread) : Prop :=
  session.store.view.Consistent session.latest session.acknowledged
    session.stage session.lifecycle

variable {session : Session Thread} {thread : Thread}

theorem consistent_start (config : StoreConfig)
    (data temporary : Option Bytes) :
    (start config data temporary : Session Thread).Consistent :=
  ⟨rfl, Or.inl fun _ => rfl⟩

theorem Guarded.harmless_stage (hguarded : session.Guarded)
    (hquiet : session.lifecycle.quiet = true) :
    session.stage.harmless session.store.index = true := by
  rw [stage]
  split
  · rfl
  next thread _ => exact hguarded.quiet hquiet thread

theorem Guarded.stage_eq (hguarded : session.Guarded)
    (hholds : (session.progress thread).holds = true) :
    session.stage = session.progress thread := by
  rw [stage, (hguarded.held thread).mp hholds]

/-- A store that is closed without a running section keeps what it holds. -/
theorem Consistent.early (hconsistent : session.Consistent)
    (hharmless : session.stage.harmless session.store.index = true)
    (hstaged : session.lifecycle = .closing ∨ session.lifecycle = .published) :
    session.store.view.Early session.latest session.acknowledged := by
  rw [Consistent] at hconsistent
  have hsettled : session.store.view.Settled session.latest
      session.acknowledged := by
    apply (View.staged_iff_settled hharmless).mp
    rcases hstaged with hclosing | hpublished
    · rw [hclosing] at hconsistent
      exact hconsistent
    · rw [hpublished] at hconsistent
      exact hconsistent
  exact ⟨hsettled.pending, Or.inr hsettled⟩

variable [DecidableEq Thread]

/-- A thread that does not hold the lock moves on. -/
theorem Guarded.stage_move (hguarded : session.Guarded)
    (hoff : (session.progress thread).holds = false) (progress : Progress) :
    (session.move thread progress).stage = session.stage := by
  rw [stage, stage]
  change (match session.holder with
    | none => Progress.idle
    | some holder => Function.update session.progress thread progress holder) =
    _
  cases hholder : session.holder with
  | none => rfl
  | some holder =>
      have hother : holder ≠ thread := by
        rintro rfl
        rw [(hguarded.held holder).mpr hholder] at hoff
        cases hoff
      exact Function.update_of_ne hother progress session.progress

/-- The holder moves on, and gives the lock back in the end. -/
theorem Guarded.stage_advance (hguarded : session.Guarded)
    (hholds : (session.progress thread).holds = true)
    (environment : Environment) :
    let after := session.store.advance environment (session.progress thread)
    (session.advance thread environment).stage =
      if after.progress.holds then after.progress else .idle := by
  intro after
  have hholder := (hguarded.held thread).mp hholds
  rw [stage]
  change (match if after.progress.holds then session.holder else none with
    | none => Progress.idle
    | some holder =>
        Function.update session.progress thread after.progress holder) = _
  split_ifs
  · rw [hholder]
    exact Function.update_self thread after.progress session.progress
  · rfl

/-- An expiry that a step tests has been tested before `latest`. -/
theorem le_latest_advance (session : Session Thread) (thread : Thread)
    (environment : Environment) :
    session.latest ≤ (session.advance thread environment).latest ∧
      (session.store.testsExpiry (session.progress thread) = true →
        environment.nowMs ≤ (session.advance thread environment).latest) := by
  have hafter : (session.advance thread environment).latest =
      if session.store.testsExpiry (session.progress thread) then
        laterReading session.latest environment.nowMs
      else
        session.latest := rfl
  rw [hafter]
  split
  next htests =>
    exact ⟨le_laterReading_left _ _, fun _ => le_laterReading_right _ _⟩
  next hnot => exact ⟨Int64.le_refl _, fun htests => absurd htests hnot⟩

/-- A step under the lock leaves the view consistent. -/
theorem consistent_advance (hguarded : session.Guarded)
    (hconsistent : session.Consistent) {environment : Environment}
    (hfaultless : environment.Faultless)
    (horderly : Orderly (.advance thread environment) session)
    (hholds : (session.progress thread).holds = true) :
    (session.advance thread environment).Consistent := by
  cases hquiet : session.lifecycle.quiet with
  | true =>
      rw [advance_of_quiet hguarded horderly hquiet hholds]
      refine View.Consistent.restage hconsistent fun hstaged => ?_
      exact (View.staged_iff_settled (hguarded.harmless_stage hquiet)).mp
        hstaged
  | false =>
      have hbefore := (View.consistent_iff_staged hquiet).mp hconsistent
      rw [hguarded.stage_eq hholds] at hbefore
      obtain ⟨hlatest, htests⟩ := session.le_latest_advance thread environment
      have hafter := KeyValueStore.staged_advance hfaultless hlatest htests
        hbefore
      apply (View.consistent_iff_staged hquiet).mpr
      rw [hguarded.stage_advance hholds environment]
      split
      · exact hafter
      next hgiven =>
        exact (View.staged_iff_settled (KeyValueStore.harmless_of_off
          session.store.index (Bool.eq_false_iff.mpr hgiven))).mp hafter

/-- In an orderly run without I/O failure every step leaves the view
consistent. -/
theorem consistent_step (hguarded : session.Guarded)
    (hconsistent : session.Consistent) {action : Action Thread}
    (horderly : Orderly action session) (hfaultless : action.Faultless) :
    (session.step action).Consistent := by
  cases action with
  | call thread environment call =>
      rw [step]
      split
      next hidle _ =>
        rw [Consistent, hguarded.stage_move (by rw [hidle]; rfl)]
        exact hconsistent
      · exact hconsistent
  | lock thread =>
      rw [step]
      split
      next writer hwaiting hfree =>
        refine View.Consistent.restage hconsistent fun hstaged => ?_
        have hidle : session.stage = .idle := by rw [stage, hfree]
        have hlocked : stage { session.move thread (.locked writer) with
            holder := some thread } = .locked writer :=
          Function.update_self thread _ session.progress
        rw [hidle] at hstaged
        rw [hlocked]
        exact hstaged
      · exact hconsistent
  | advance thread environment =>
      rw [step]
      split
      next hholds =>
        exact consistent_advance hguarded hconsistent hfaultless horderly hholds
      · exact hconsistent
  | beginClose =>
      rw [step]
      split
      next hrunning =>
        rw [Consistent, hrunning] at hconsistent
        exact hconsistent
      · exact hconsistent
  | endClose =>
      rw [step]
      split
      next hclosing =>
        have hall := horderly (by rw [hclosing]; rfl)
        have hharmless : session.stage.harmless session.store.index = true := by
          rw [stage]
          split
          · rfl
          next thread _ => exact hall thread
        exact hconsistent.early hharmless (Or.inl hclosing)
      · exact hconsistent
  | beginOpen environment =>
      rw [step]
      split
      next hclosed =>
        rw [Consistent, hclosed] at hconsistent
        exact KeyValueStore.consistent_beginOpen session.stage hconsistent
      · exact hconsistent
  | recover environment =>
      rw [step]
      split
      next hopening =>
        rw [Consistent, hopening] at hconsistent
        exact KeyValueStore.consistent_recoverStep hfaultless session.stage
          (le_laterReading_left _ _) (le_laterReading_right _ _) hconsistent
      · exact hconsistent
  | install =>
      rw [step]
      split
      next state hrecovered _ =>
        rw [Consistent, hrecovered] at hconsistent
        exact ⟨hconsistent, rfl⟩
      · exact hconsistent
  | publish =>
      rw [step]
      split
      next state hinstalled =>
        have hharmless := hguarded.harmless_stage (by rw [hinstalled]; rfl)
        rw [Consistent, hinstalled] at hconsistent
        obtain ⟨hrecovered, hindex⟩ := hconsistent
        have hsettled := hrecovered.settled
        rw [← hindex] at hsettled
        exact (View.staged_iff_settled hharmless).mpr hsettled
      · exact hconsistent
  | endOpen environment =>
      rw [step]
      split
      next hpublished =>
        have hharmless := hguarded.harmless_stage (by rw [hpublished]; rfl)
        rw [KeyValueStore.endOpen]
        split
        · exact hconsistent.early hharmless (Or.inr hpublished)
        · rw [Consistent, hpublished] at hconsistent
          exact hconsistent
      · exact hconsistent

/-! ## What an orderly run guarantees -/

/-- A step of a call leaves the file and the index of a quiet store alone. -/
def Unmoved (session : Session Thread) (action : Action Thread) : Prop :=
  Operates action → session.lifecycle.quiet = true →
    (session.step action).store.storage.bytes = session.store.storage.bytes ∧
      (session.step action).store.index = session.store.index

/-- The index that `open` puts in place holds every call that has returned
success, unless what it stored has expired. -/
def Complete (session : Session Thread) : Prop :=
  session.lifecycle.replaced = true → ∀ key stored,
    session.acknowledged key = some stored →
      View.KeptUntil session.latest stored (session.store.view.contents key)

omit [DecidableEq Thread] in
theorem Consistent.complete (hconsistent : session.Consistent) :
    session.Complete := by
  intro hreplaced key stored hstored
  rw [Consistent] at hconsistent
  cases hlifecycle : session.lifecycle with
  | installed state =>
      rw [hlifecycle] at hconsistent
      obtain ⟨hrecovered, hindex⟩ := hconsistent
      have hshown := (hrecovered.settled.lasting key stored hstored).shown
      rw [← hindex] at hshown
      exact hshown
  | _ =>
      rw [hlifecycle] at hreplaced
      cases hreplaced

variable {actions : List (Action Thread)} {first : Session Thread}

theorem guarded_run (hguarded : first.Guarded)
    (horderly : machine.Along Orderly actions first) :
    (machine.run actions first).1.Guarded := by
  have hstep : ∀ action (session : Session Thread), session.Guarded →
      Orderly action session → (machine.step action session).1.Guarded :=
    fun _ _ hbefore haction => guarded_step hbefore haction
  exact Machine.run_invariant hstep horderly hguarded

theorem consistent_run (hguarded : first.Guarded)
    (hconsistent : first.Consistent)
    (horderly : machine.Along Orderly actions first)
    (hfaultless : ∀ action ∈ actions, action.Faultless) :
    (machine.run actions first).1.Consistent := by
  have hworks := horderly.and (Machine.Along.of_forall
    (fun action haction _ => hfaultless action haction) first)
  have hstep : ∀ action (session : Session Thread),
      session.Guarded ∧ session.Consistent →
      Orderly action session ∧ action.Faultless →
      (machine.step action session).1.Guarded ∧
        (machine.step action session).1.Consistent :=
    fun _ _ hbefore haction => ⟨guarded_step hbefore.1 haction.1,
      consistent_step hbefore.1 hbefore.2 haction.1 haction.2⟩
  exact (Machine.run_invariant hstep hworks ⟨hguarded, hconsistent⟩).2

/-- In every orderly run no step of a call changes the file or the index
between the return of `close` and the return of the next `open`; and without
I/O failure that `open` misses no call that has returned success. -/
theorem close_quiesces (config : StoreConfig) (data temporary : Option Bytes)
    {actions : List (Action Thread)}
    (horderly : machine.Along Orderly actions
      (start config data temporary)) :
    let session := (machine.run actions (start config data temporary)).1
    (∀ action, Orderly action session → session.Unmoved action) ∧
      ((∀ action ∈ actions, action.Faultless) → session.Complete) := by
  intro session
  have hstart : (start config data temporary : Session Thread).Guarded :=
    guarded_start config data temporary
  have hguarded : session.Guarded := guarded_run hstart horderly
  constructor
  · intro action hnext hoperates hquiet
    rw [store_step_of_quiet hguarded hoperates hnext hquiet]
    exact ⟨rfl, rfl⟩
  · intro hfaultless
    have hconsistent : session.Consistent :=
      consistent_run hstart (consistent_start config data temporary) horderly
        hfaultless
    exact hconsistent.complete

/-! ## A remove behind close -/

instance [Fintype Thread] (action : Action Thread) (session : Session Thread) :
    Decidable (Orderly action session) :=
  match action with
  | .call _ _ _ => .isTrue trivial
  | .lock _ => inferInstanceAs (Decidable (_ → _ → _ = _))
  | .advance _ _ => inferInstanceAs (Decidable (_ → _ = _))
  | .beginClose => .isTrue trivial
  | .endClose => inferInstanceAs (Decidable (_ → ∀ _, _ = _))
  | .beginOpen _ => .isTrue trivial
  | .recover _ => .isTrue trivial
  | .install => .isTrue trivial
  | .publish => .isTrue trivial
  | .endOpen _ => .isTrue trivial

/-- The store is opened, `[97]` is set, and a thread in `remove` is past its
test of `isOpen` when `close` returns. -/
def removeBehindClose : List (Action Unit) :=
  [.beginOpen (.calm 1), .recover (.calm 1), .install, .publish,
    .endOpen (.calm 1), .call () (.calm 2) (.set [97] [98] none), .lock (),
    .advance () (.calm 2), .advance () (.calm 2), .advance () (.calm 2),
    .call () (.calm 3) (.remove [97]), .beginClose, .endClose]

/-- Opening again up to the new index, before the thread goes on. -/
theorem close_quiesces_of_set :
    let session := (machine.run (removeBehindClose ++
      [.beginOpen (.calm 4), .recover (.calm 4), .install])
      (start .small none none)).1
    session.acknowledged [97] = some (some ([98], 0)) ∧
      session.lifecycle.replaced = true ∧
      (∀ action, Orderly action session → session.Unmoved action) ∧
      session.Complete := by
  intro session
  have horderly : machine.Along Orderly (removeBehindClose ++
      [.beginOpen (.calm 4), .recover (.calm 4), .install])
      (start .small none none) := by decide +kernel
  have hquiesces := close_quiesces .small none none horderly
  have hfaultless : ∀ action ∈ removeBehindClose ++
      [.beginOpen (.calm 4), .recover (.calm 4), .install],
      action.Faultless := by
    simp [removeBehindClose, Action.Faultless, Environment.faultless_calm]
  exact ⟨by decide +kernel, by decide +kernel, hquiesces.1,
    hquiesces.2 hfaultless⟩

/-- The thread takes the lock once recovery has read the file.  It writes its
record and returns success, and the index that `open` then puts in place shows
the key. -/
theorem remove_runs_behind_close :
    let recovered := (machine.run (removeBehindClose ++
      [.beginOpen (.calm 4), .recover (.calm 4), .lock ()])
      (start .small none none)).1
    let installed := (machine.run
      [.advance () (.calm 5), .advance () (.calm 5), .install] recovered).1
    ¬ recovered.Unmoved (.advance () (.calm 5)) ∧ ¬ installed.Complete := by
  intro recovered installed
  constructor
  · intro hunmoved
    have hsame := (hunmoved trivial (by decide +kernel)).1
    revert hsame
    decide +kernel
  · intro hcomplete
    have hstored : installed.acknowledged [97] = some none := by
      decide +kernel
    have hshown : installed.store.view.contents [97] = some ([98], 0) := by
      decide +kernel
    have hkept := hcomplete (by decide +kernel) [97] none hstored
    rw [hshown] at hkept
    rcases hkept with hsame | ⟨hgone, -⟩
    · cases hsame
    · cases hgone

end Session

end MiniKV
