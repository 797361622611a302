import MiniKV.Store.Compaction
import MiniKV.Store.InStep

/-!
# Failed compactions

A compaction that fails before its rename leaves the file and the index in
step.  Behind the rename it replaces the index only when the new file opens, so
a failure there leaves the old offsets over the new file.
-/

namespace MiniKV

/-- What is shown is stored, with the same expiry. -/
def Kept : Standing := fun _ stored shown =>
  ∀ found, shown = some found → stored = some found

theorem lawful_kept : Standing.Lawful Kept where
  refl _ _ _ hshown := hshown
  forget _ _ _ hnone := by cases hnone

namespace KeyValueStore

variable {store after : KeyValueStore} {environment later last : Environment}
variable {key value : Bytes} {expiresAtMs : Int64}

theorem coherent_clear (hcoherent : store.view.Coherent) :
    (view { store with cache := store.cache.clear }).Coherent :=
  hcoherent.restrict (fun _ _ hfound => hfound) store.cache.wellFormed_clear
    fun key value hholds => absurd hholds (store.cache.not_holds_clear key value)

/-- The store still returns the value: from the cache or the file, behind a
later compaction, and behind a restart. -/
structure Unharmed (later last : Environment) (after : KeyValueStore)
    (key value : Bytes) : Prop where
  cached : (after.get last key).2 = .ok value
  uncached : (get last key { after with cache := after.cache.clear }).2 =
    .ok value
  compacts : ∃ compacted summary, after.compact later =
    (compacted, .ok summary) ∧ (compacted.get last key).2 = .ok value

theorem unharmed_of_coherent (hlater : later.Reliable) (hlast : last.Reliable)
    (hclock : later.nowMs ≤ last.nowMs) (hopened : after.opened = true)
    (hcoherent : after.view.Coherent)
    (hcontents : after.view.contents key = some (value, expiresAtMs))
    (hfresh : isExpired expiresAtMs last.nowMs = false) :
    Unharmed later last after key value where
  cached := get_of_contents hlast hopened hcoherent hcontents hfresh
  uncached := by
    have hcleared := coherent_clear hcoherent
    generalize hstore : { after with cache := after.cache.clear } = cleared
      at hcleared ⊢
    have hopens : cleared.opened = true := by
      rw [← hstore]
      exact hopened
    have hshows : cleared.view.contents key = some (value, expiresAtMs) := by
      rw [← hstore]
      exact hcontents
    exact get_of_contents hlast hopens hcleared hshows hfresh
  compacts := by
    obtain ⟨compacted, summary, hresult, -, hstays, hagain, hlive⟩ :=
      compact_of_coherent hlater hopened hcoherent
    refine ⟨compacted, summary, hresult, ?_⟩
    apply get_of_contents hlast hstays hagain ?_ hfresh
    rw [hlive, View.live_eq_some_iff]
    exact ⟨hcontents, isExpired_of_later hfresh hclock⟩

/-- A restart from the data file of such a store. -/
theorem reopen_of_inStep {nowMs : Int64}
    (hinStep : after.view.InStep Kept nowMs) {how : Restart}
    (hharmless : after.view.Harmless Kept nowMs
      (how.written after.storage.pending))
    (hcontents : after.view.contents key = some (value, expiresAtMs))
    (hlater : later.Reliable) (hlast : last.Reliable)
    (hclock : later.nowMs ≤ last.nowMs)
    (hfresh : isExpired expiresAtMs last.nowMs = false)
    (hinterval : 0 < (after.restart how).config.cleanupIntervalMs) :
    ∃ reopened, (after.restart how).openStore later = (reopened, .success) ∧
      (reopened.get last key).2 = .ok value := by
  obtain ⟨-, entries, tail, hlog, hkept⟩ := hinStep.stray hharmless []
  have hrestarted : LogWithTail entries tail
      (after.restart how).storage.bytes := by
    rw [bytes_restart]
    exact hlog
  obtain ⟨reopened, hresult, hview, hopened, -⟩ :=
    openStore_log hlater (opened_restart how after) hinterval hrestarted
  refine ⟨reopened, hresult, ?_⟩
  have hcoherent : reopened.view.Coherent := by
    rw [hview]
    exact View.coherent_reopened _ _ _ _
  apply get_of_contents hlast hopened hcoherent ?_ hfresh
  have hstored : View.ledgerOf entries key = some (value, expiresAtMs) := by
    apply hkept
    rw [View.contents_stray hinStep.coherent]
    exact hcontents
  rw [hview, View.contents_reopened, View.contents_ofLog_eq, hstored]
  exact unexpired_eq_some_iff.mpr ⟨rfl, isExpired_of_later hfresh hclock⟩

theorem inStep_of_reachable (hreachable : ReachableBy (Contained Kept) store)
    (hopened : store.opened = true) (nowMs : Int64) :
    store.view.InStep Kept nowMs := by
  obtain ⟨config, data, temporary, requests, halong, rfl⟩ := hreachable
  have hstep : ∀ request before,
      (before.opened = true → before.view.InStep Kept nowMs) →
      Contained Kept request before →
      ((machine.step request before).1.opened = true →
        (machine.step request before).1.view.InStep Kept nowMs) :=
    fun _ _ hbefore hcontained hstays => (inStep_perform lawful_kept hbefore
      (fun _ _ hkept => hkept) hcontained hstays).mono fun _ _ hkept => hkept
  have hstart : (new config data temporary).opened = true →
      (new config data temporary).view.InStep Kept nowMs :=
    fun hnew => by cases hnew
  exact Machine.run_invariant hstep halong hstart hopened

/-- What a failing compaction that keeps the file leaves behind. -/
theorem compact_failed {status : Status} (hopened : store.opened = true)
    (hkeeps : ¬ LosesFile environment store)
    (hfailed : (store.compact environment).2 = .error status) :
    (store.purgeExpired environment).view.Drained
      (store.compact environment).1.view := by
  have houtcome := compactSection_cases environment store
  rw [compact, if_pos hopened] at hfailed ⊢
  generalize store.compactSection environment = result at hfailed houtcome ⊢
  obtain ⟨after, outcome⟩ := result
  dsimp only at hfailed houtcome ⊢
  cases houtcome with
  | failed _ hdrained => exact hdrained.drained
  | lost _ hlost => exact absurd hlost hkeeps
  | compacted => cases hfailed

/-- In a run in which no compaction replaces the data file and then fails to
open the new one, a failed compaction harms no value: neither at once, nor
behind a later compaction, nor behind a restart when nothing that failed appends
have left hides a value that the store shows. -/
theorem failed_compaction_harmless (hreachable : Reachable store)
    (hopened : store.opened = true) (hkeeps : ¬ LosesFile environment store)
    {status : Status}
    (hfailed : (store.compact environment).2 = .error status)
    (hlive : store.view.contents key = some (value, expiresAtMs))
    (hlater : later.Reliable) (hlast : last.Reliable)
    (hclock : environment.nowMs ≤ later.nowMs)
    (hlastClock : later.nowMs ≤ last.nowMs)
    (hfresh : isExpired expiresAtMs last.nowMs = false) :
    let after := (store.compact environment).1
    Unharmed later last after key value ∧
      (ReachableBy (Contained Kept) store →
        Contained Kept ⟨environment, .compact⟩ store → ∀ how : Restart,
        after.view.Harmless Kept environment.nowMs
          (how.written after.storage.pending) →
        0 < (after.restart how).config.cleanupIntervalMs →
        ∃ reopened, (after.restart how).openStore later =
            (reopened, .success) ∧
          (reopened.get last key).2 = .ok value) := by
  intro after
  have hdrained := compact_failed hopened hkeeps hfailed
  have hpurge := upkeep_purgeExpired environment store
  have hstays : after.opened = true :=
    (opened_compact environment store).trans hopened
  have hpurged := (coherent_of_reachable hreachable).upkeep hpurge
  have hcoherent : after.view.Coherent := hpurged.drained hdrained
  have hcontents : after.view.contents key = some (value, expiresAtMs) := by
    have hnow := isExpired_of_later hfresh
      (Int64.le_trans hclock hlastClock)
    rw [View.contents_drained hpurged hdrained, contents_purgeExpired,
      View.live_eq_some_iff]
    exact ⟨hlive, hnow⟩
  refine ⟨unharmed_of_coherent hlater hlast hlastClock hstays hcoherent
    hcontents hfresh, fun hrun hcontained how hharmless hinterval => ?_⟩
  have hinStep : after.view.InStep Kept environment.nowMs :=
    inStep_compact lawful_kept rfl hopened
      (inStep_of_reachable hrun hopened environment.nowMs) hcontained
  exact reopen_of_inStep hinStep hharmless hcontents hlater hlast hlastClock
    hfresh hinterval

/-- Two values of one key and one of another. -/
def overwrites : List Request :=
  [⟨.calm 1, .openStore⟩, ⟨.calm 2, .set [97] [120] none⟩,
    ⟨.calm 3, .set [97] [121] none⟩, ⟨.calm 4, .set [98] [122] none⟩]

theorem sound_overwrites {request : Request} (hrequest : request ∈ overwrites)
    (store : KeyValueStore) : Sound request store where
  opening _ := by
    simp only [overwrites, List.mem_cons, List.not_mem_nil, or_false]
      at hrequest
    rcases hrequest with rfl | rfl | rfl | rfl <;>
      exact (Environment.faultless_calm _).toReliable
  keeps hloses := by
    simp only [overwrites, List.mem_cons, List.not_mem_nil, or_false]
      at hrequest
    rcases hrequest with rfl | rfl | rfl | rfl <;> cases hloses.1

theorem reachable_overwrites :
    Reachable (machine.run overwrites (new .small none none)).1 :=
  ⟨.small, none, none, overwrites,
    .of_forall (fun _ hrequest => sound_overwrites hrequest) _, rfl⟩

theorem contained_overwrites : ReachableBy (Contained Kept)
    (machine.run overwrites (new .small none none)).1 := by
  refine ⟨.small, none, none, overwrites, ⟨contained_quiet nofun rfl rfl,
    contained_set ?_ ⟨[], ?_⟩ nofun,
    contained_set ?_ ⟨[.ofRecord ⟨.set, [97], [120], 0⟩ (by decide)], ?_⟩ nofun,
    contained_set ?_ ⟨[.ofRecord ⟨.set, [97], [120], 0⟩ (by decide),
      .ofRecord ⟨.set, [97], [121], 0⟩ (by decide)], ?_⟩ nofun, trivial⟩, rfl⟩
  all_goals decide +kernel

/-- A compaction whose rename fails. -/
theorem failed_compaction_harmless_at_rename :
    let store := (machine.run overwrites (new .small none none)).1
    let environment : Environment :=
      { nowMs := 5, compact := { rename := some "busy" } }
    let after := (store.compact environment).1
    Unharmed (.calm 6) (.calm 7) after [97] [121] ∧
      ∃ reopened, (after.restart .closed).openStore (.calm 6) =
          (reopened, .success) ∧
        (reopened.get (.calm 7) [97]).2 = .ok [121] := by
  intro store environment after
  have hcalm := fun nowMs => (Environment.faultless_calm nowMs).toReliable
  have hkeeps : ¬ LosesFile environment store := by
    intro hloses
    cases hloses.loses.rename
  have hfailed : (store.compact environment).2 = .error (.ioError
      "failed to replace data file after compaction: busy") := by
    decide +kernel
  have hlive : store.view.contents [97] = some ([121], 0) := by
    decide +kernel
  obtain ⟨hunharmed, hrestarts⟩ := failed_compaction_harmless
    reachable_overwrites (by decide +kernel) hkeeps hfailed hlive (hcalm 6)
    (hcalm 7) (by decide) (by decide) (by decide)
  have hcontained : Contained Kept ⟨environment, .compact⟩ store :=
    contained_quiet (fun hloses => hkeeps hloses.2.2) (by decide +kernel) rfl
  exact ⟨hunharmed, hrestarts contained_overwrites hcontained .closed .nil
    (by decide +kernel)⟩

/-- A compaction that replaces the file and cannot open the new one: the old
offset of one key is the offset of the other key's value in the new file. -/
theorem get_wrong_value_behind_lost_file :
    let store := (machine.run overwrites (new .small none none)).1
    let environment : Environment :=
      { nowMs := 5, compact := { reopen := { openFile := false } } }
    Reachable store ∧ store.opened = true ∧
      (store.compact environment).2 =
        .error (.ioError "failed to open data file: data.log") ∧
      store.view.contents [97] = some ([121], 0) ∧
      ((store.compact environment).1.get (.calm 6) [97]).2 ≠ .ok [121] ∧
      ((store.compact environment).1.get (.calm 6) [97]).2 = .ok [122] :=
  ⟨reachable_overwrites, by decide +kernel, by decide +kernel,
    by decide +kernel, by decide +kernel, by decide +kernel⟩

end KeyValueStore

end MiniKV
