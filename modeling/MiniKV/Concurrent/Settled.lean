import MiniKV.Concurrent.Closing
import MiniKV.Store.Lasting

/-!
# What acknowledged calls leave behind

A view is settled when its file and its index hold every call that has returned
success.  A section takes a settled view through stages that are not settled,
with its record in the file and not yet in the index, and ends on a settled
one.
-/

namespace MiniKV

open AppendOnlyStore (recordBytes)

theorem le_laterReading_left (left right : Int64) :
    left ≤ laterReading left right := by
  rw [laterReading]
  split
  next hle => exact hle
  · exact Int64.le_refl left

theorem le_laterReading_right (left right : Int64) :
    right ≤ laterReading left right := by
  rw [laterReading]
  split
  · exact Int64.le_refl right
  next hnot => exact (Int64.le_total left right).resolve_left hnot

namespace View

/-- The file and the index hold every acknowledged call. -/
structure Settled (latest : Int64) (acknowledged : Acknowledged)
    (view : View) : Prop where
  pending : view.pending = []
  coherent : view.Coherent
  whole : ∃ entries, view.bytes = logFormat.imageAll entries
  lasting : ∀ key stored, acknowledged key = some stored →
    view.Lasting latest key stored

namespace Settled

variable {latest nowMs : Int64} {acknowledged : Acknowledged}
variable {view later : View}

theorem mono (hsettled : Settled nowMs acknowledged view)
    (hclock : nowMs ≤ latest) : Settled latest acknowledged view where
  pending := hsettled.pending
  coherent := hsettled.coherent
  whole := hsettled.whole
  lasting key stored hstored :=
    (hsettled.lasting key stored hstored).mono hclock

theorem upkeep (hsettled : Settled latest acknowledged view)
    (hclock : nowMs ≤ latest) (hupkeep : Upkeep nowMs view later) :
    Settled latest acknowledged later := by
  obtain ⟨hnothing, hlog⟩ := log_upkeep hsettled.pending hupkeep
  refine ⟨hnothing, hsettled.coherent.upkeep hupkeep, ?_, ?_⟩
  · rcases hlog with hsame | ⟨live, -, hbytes⟩
    · rw [hsame]
      exact hsettled.whole
    · exact ⟨live, hbytes⟩
  · intro key stored hstored
    exact (hsettled.lasting key stored hstored).upkeep hclock hupkeep

/-- The record of a call that returns success. -/
theorem afterRecord (hsettled : Settled latest acknowledged view)
    {record : Record} (hvalid : record.Valid) :
    Settled latest (acknowledged.add (some (record.key, record.stored)))
      (view.afterRecord record hvalid) := by
  obtain ⟨entries, himage⟩ := hsettled.whole
  have hrecord : (view.afterRecord record hvalid).Lasting latest record.key
      record.stored :=
    .of_record hvalid hsettled.pending hsettled.coherent himage latest
  obtain ⟨others, hothers, -⟩ := hrecord.file
  refine ⟨hrecord.pending, hrecord.coherent, ⟨others, hothers⟩, ?_⟩
  intro key stored hstored
  rw [Acknowledged.add] at hstored
  by_cases hkey : key = record.key
  · rw [hkey, Function.update_self] at hstored
    cases hstored
    rw [hkey]
    exact hrecord
  · rw [Function.update_of_ne hkey] at hstored
    exact (hsettled.lasting key stored hstored).afterRecord hvalid
      (Ne.symm hkey)

end Settled

/-- The view while a thread stands under the lock. -/
def Staged (latest : Int64) (acknowledged : Acknowledged) (view : View) :
    Progress → Prop
  | .appendedSet key value metadata => ∃ base expiresAtMs,
      ∃ hvalid : (⟨.set, key, value, expiresAtMs⟩ : Record).Valid,
        Settled latest acknowledged base ∧
        metadata = (LogEntry.ofRecord _ hvalid).metadata base.bytes.length ∧
        view = { base with
          bytes := base.bytes ++ recordBytes ⟨.set, key, value, expiresAtMs⟩ }
  | .appendedRemove key => ∃ base,
      (KeyValueStore.deleteRecord key).Valid ∧
        Settled latest acknowledged base ∧
        view = { base with
          bytes := base.bytes ++
            recordBytes (KeyValueStore.deleteRecord key) }
  | .purged => Settled latest acknowledged view ∧ ∃ nowMs, nowMs ≤ latest ∧
      ∀ key metadata, view.index.lookup key = some metadata →
        isExpired metadata.expiresAtMs nowMs = false
  | .rewritten state => ∃ base live nowMs, nowMs ≤ latest ∧
      Settled latest acknowledged base ∧ base.Canonical live ∧
      (∀ entry ∈ live, entry.Visible nowMs) ∧
      state.index = replay nowMs live ∧
      view = { base with bytes := logFormat.imageAll live }
  | _ => Settled latest acknowledged view

end View

namespace KeyValueStore

variable {environment : Environment} {store : KeyValueStore}
variable {latest nowMs : Int64} {acknowledged : Acknowledged}

/-- Rereading and rewriting the live values, once the expired ones are gone. -/
theorem rewriteLive_faultless (hfaultless : environment.Faultless)
    (hsettled : store.view.Settled latest acknowledged)
    (hfresh : ∀ key metadata, store.index.lookup key = some metadata →
      isExpired metadata.expiresAtMs nowMs = false) :
    (∃ status, (store.rewriteLive environment).2 = .error status ∧
      (store.rewriteLive environment).1.view = store.view) ∨
    ∃ state live, (store.rewriteLive environment).2 = .ok state ∧
      store.view.Canonical live ∧ (∀ entry ∈ live, entry.Visible nowMs) ∧
      state.index = replay nowMs live ∧
      (store.rewriteLive environment).1.view =
        { store.view with bytes := logFormat.imageAll live } := by
  have hrewrite := rewriteLive_cases environment store
  have hpending := hsettled.pending
  generalize store.rewriteLive environment = rewrite at hrewrite ⊢
  obtain ⟨after, result⟩ := rewrite
  dsimp only at hrewrite
  cases hrewrite with
  | failed status hdrained =>
      exact Or.inl ⟨status, rfl, hdrained.drained.eq_of_pending hpending⟩
  | lost status _ hlost =>
      have hreopen := hlost.reopen
      rw [hfaultless.compact] at hreopen
      exact absurd hreopen AppendOnlyStore.ReopenFails.not_faultless
  | rewritten state live hlive hview _ _ hindex =>
      rw [View.settled_of_pending hpending] at hlive
      rw [← hpending] at hview
      have hvisible := visible_of_fresh hlive hfresh
      exact Or.inr ⟨state, live, rfl, hlive, hvisible, hindex nowMs hvisible,
        hview⟩

/-- The view of a store whose file has changed. -/
theorem view_withStorage {storage : AppendOnlyStore} {bytes pending : Bytes}
    (hbytes : storage.bytes = bytes) (hpending : storage.pending = pending) :
    view { store with storage := storage } =
      { store.view with bytes := bytes, pending := pending } := by
  rw [view, view, hbytes, hpending]

/-- An append without I/O failure writes the whole record or nothing. -/
theorem appended_cases (hfaultless : environment.Faultless) (record : Record)
    (hpending : store.view.pending = []) :
    let appended := store.storage.appendRecordLocked environment.openAnswers
      environment.append record
    (∃ status, status.ok = false ∧ appended.2 = .error status ∧
        view { store with storage := appended.1 } = store.view) ∨
      ∃ hvalid : record.Valid,
        appended.2 = .ok ((LogEntry.ofRecord record hvalid).metadata
          store.view.bytes.length) ∧
        view { store with storage := appended.1 } =
          { store.view with
            bytes := store.view.bytes ++ recordBytes record } := by
  intro appended
  have happended : AppendOnlyStore.Appended environment.openAnswers
      environment.append record store.view.bytes store.view.pending
      appended.1.bytes appended.1.pending appended.2 :=
    AppendOnlyStore.appendRecordLocked_cases environment.openAnswers
      environment.append record store.storage
  generalize appended = done at happended ⊢
  obtain ⟨storage, result⟩ := done
  dsimp only at happended ⊢
  rw [view_withStorage rfl rfl]
  generalize storage.bytes = bytes at happended ⊢
  generalize storage.pending = held at happended ⊢
  cases result with
  | error status =>
      have hfailed : AppendFailed environment record store.view
          { store.view with bytes := bytes, pending := held } status :=
        .of_appended happended
      exact Or.inl ⟨status, hfailed.ok_eq, rfl,
        hfailed.eq_of_faultless hfaultless hpending⟩
  | ok metadata =>
      cases happended with
      | written hvalid _ _ =>
          refine Or.inr ⟨hvalid, ?_, ?_⟩
          · rw [hpending, List.append_nil]
          · rw [hpending, List.append_nil, ← hpending]

theorem appendedDelete_cases (hfaultless : environment.Faultless) (key : Bytes)
    (hpending : store.view.pending = []) :
    let appended := store.storage.appendDelete environment.openAnswers
      environment.append key
    (appended.2.ok = false ∧
        view { store with storage := appended.1 } = store.view) ∨
      (deleteRecord key).Valid ∧ appended.2.ok = true ∧
        view { store with storage := appended.1 } =
          { store.view with
            bytes := store.view.bytes ++ recordBytes (deleteRecord key) } := by
  have happended := appended_cases hfaultless (deleteRecord key) hpending
  rw [deleteRecord] at happended
  rw [AppendOnlyStore.appendDelete, deleteRecord]
  rcases hresult : store.storage.appendRecordLocked environment.openAnswers
    environment.append ⟨.delete, key, [], 0⟩ with ⟨grown, result⟩
  rw [hresult] at happended
  rcases happended with ⟨status, hstatus, rfl, hview⟩ | ⟨hvalid, rfl, hview⟩
  · exact Or.inl ⟨hstatus, hview⟩
  · exact Or.inr ⟨hvalid, rfl, hview⟩

variable {next : Int64}

theorem staged_rechecked (hfaultless : environment.Faultless)
    {key value : Bytes} {expiresAtMs : Int64} (hlatest : latest ≤ next)
    (hsettled : store.view.Settled latest acknowledged) :
    let after := store.advance environment (.rechecked key value expiresAtMs)
    after.store.view.Staged next (acknowledged.add after.stored)
      after.progress := by
  intro after
  have hbefore := hsettled.mono hlatest
  have happended := appended_cases hfaultless ⟨.set, key, value, expiresAtMs⟩
    hsettled.pending
  have hafter : after = store.advance environment
    (.rechecked key value expiresAtMs) := rfl
  rw [advance, AppendOnlyStore.appendSet] at hafter
  rcases happended with
    ⟨status, -, hresult, hview⟩ | ⟨hvalid, hresult, hview⟩
  · rw [hresult] at hafter
    rw [hafter]
    exact hview.symm ▸ hbefore
  · rw [hresult] at hafter
    rw [hafter]
    exact ⟨store.view, expiresAtMs, hvalid, hbefore, rfl, hview⟩

theorem staged_appendedSet {key value : Bytes} {metadata : RecordMetadata}
    (hlatest : latest ≤ next)
    (hstaged : store.view.Staged latest acknowledged
      (.appendedSet key value metadata)) :
    (store.indexSet key value metadata).view.Settled next
      (acknowledged.add (some (key, some (value, metadata.expiresAtMs)))) := by
  obtain ⟨base, expiresAtMs, hvalid, hsettled, hmetadata, hview⟩ := hstaged
  have hafter : (store.indexSet key value metadata).view =
      base.afterRecord ⟨.set, key, value, expiresAtMs⟩ hvalid := by
    rw [View.afterRecord, View.afterSet, ← hmetadata]
    change View.mk store.view.bytes store.view.pending
      (store.view.index.insert key metadata)
      (store.view.cache.put key value) = _
    rw [hview]
  have hexpiresAtMs : metadata.expiresAtMs = expiresAtMs := by
    rw [hmetadata]
    rfl
  rw [hafter, hexpiresAtMs]
  exact (hsettled.mono hlatest).afterRecord hvalid

theorem staged_appendedRemove {key : Bytes} (hlatest : latest ≤ next)
    (hstaged : store.view.Staged latest acknowledged (.appendedRemove key)) :
    (store.indexRemove key).view.Settled next
      (acknowledged.add (some (key, none))) := by
  obtain ⟨base, hvalid, hsettled, hview⟩ := hstaged
  have hafter : (store.indexRemove key).view =
      base.afterRecord (deleteRecord key) hvalid := by
    rw [View.afterRecord, View.afterRemove]
    change View.mk store.view.bytes store.view.pending
      (store.view.index.erase key) (store.view.cache.erase key) = _
    rw [hview]
  rw [hafter]
  exact (hsettled.mono hlatest).afterRecord hvalid

theorem staged_removing (hfaultless : environment.Faultless) {key : Bytes}
    (hlatest : latest ≤ next)
    (htests : store.testsExpiry (.locked (.remove key)) = true →
      environment.nowMs ≤ next)
    (hsettled : store.view.Settled latest acknowledged) :
    (store.advance environment (.locked (.remove key))).store.view.Staged next
      (acknowledged.add
        (store.advance environment (.locked (.remove key))).stored)
      (store.advance environment (.locked (.remove key))).progress := by
  have hbefore := hsettled.mono hlatest
  rw [advance]
  cases hfound : store.index.lookup key with
  | none =>
      rw [find_missing hfound]
      exact hbefore
  | some metadata =>
      have hreading : environment.nowMs ≤ next :=
        htests (by rw [testsExpiry, hfound]; rfl)
      cases hexpired : isExpired metadata.expiresAtMs environment.nowMs with
      | true =>
          rw [find_expired hfound hexpired]
          exact hbefore.upkeep hreading
            (.dropped store.view key metadata hfound hexpired)
      | false =>
          rw [find_live hfound hexpired]
          dsimp only
          rcases appendedDelete_cases hfaultless key hsettled.pending with
            ⟨hstatus, hview⟩ | ⟨hvalid, hstatus, hview⟩
          · rw [if_neg (by rw [hstatus]; exact Bool.false_ne_true)]
            exact hview.symm ▸ hbefore
          · rw [if_pos hstatus]
            exact ⟨store.view, hvalid, hbefore, hview⟩

theorem staged_purged (hfaultless : environment.Faultless)
    (hlatest : latest ≤ next)
    (hstaged : store.view.Staged latest acknowledged .purged) :
    (store.advance environment .purged).store.view.Staged next
      (acknowledged.add (store.advance environment .purged).stored)
      (store.advance environment .purged).progress := by
  obtain ⟨hsettled, nowMs, hclock, hfresh⟩ := hstaged
  have hbefore := hsettled.mono hlatest
  rw [advance]
  rcases rewriteLive_faultless hfaultless hsettled hfresh with
    ⟨status, hresult, hview⟩ |
    ⟨state, live, hresult, hlive, hvisible, hindex, hview⟩
  · rw [hresult]
    exact hview ▸ hbefore
  · rw [hresult]
    exact ⟨store.view, live, nowMs, Int64.le_trans hclock hlatest, hbefore,
      hlive, hvisible, hindex, hview⟩

theorem staged_rewritten {state : CompactionState} (hlatest : latest ≤ next)
    (hstaged : store.view.Staged latest acknowledged (.rewritten state)) :
    (store.indexCompacted state).view.Settled next acknowledged := by
  obtain ⟨base, live, nowMs, hclock, hsettled, hlive, hvisible, hindex,
    hview⟩ := hstaged
  have hcompacted : store.view =
      { base with bytes := logFormat.imageAll live, pending := [] } := by
    rw [hview, ← hsettled.pending]
  rw [view_indexCompacted hcompacted hindex]
  exact (hsettled.mono hlatest).upkeep (Int64.le_trans hclock hlatest)
    (.compacted base live hlive hvisible)

/-- Every step under the lock leads from stage to stage. -/
theorem staged_advance (hfaultless : environment.Faultless)
    {progress : Progress} (hlatest : latest ≤ next)
    (htests : store.testsExpiry progress = true → environment.nowMs ≤ next)
    (hstaged : store.view.Staged latest acknowledged progress) :
    (store.advance environment progress).store.view.Staged next
      (acknowledged.add (store.advance environment progress).stored)
      (store.advance environment progress).progress := by
  cases progress with
  | idle => exact View.Settled.mono hstaged hlatest
  | waiting writer => exact View.Settled.mono hstaged hlatest
  | locked writer =>
      cases writer with
      | set key value expiresAtMs =>
          rw [advance]
          split
          · exact View.Settled.mono hstaged hlatest
          · exact View.Settled.mono hstaged hlatest
      | remove key => exact staged_removing hfaultless hlatest htests hstaged
      | compact =>
          have hreading := htests rfl
          refine ⟨(View.Settled.mono hstaged hlatest).upkeep hreading
            (upkeep_purgeExpired environment store),
            environment.nowMs, hreading, ?_⟩
          intro key metadata hfound
          exact ((lookup_purgeExpired environment store key metadata).mp
            hfound).2
  | rechecked key value expiresAtMs =>
      exact staged_rechecked hfaultless hlatest hstaged
  | appendedSet key value metadata => exact staged_appendedSet hlatest hstaged
  | appendedRemove key => exact staged_appendedRemove hlatest hstaged
  | purged => exact staged_purged hfaultless hlatest hstaged
  | rewritten state => exact staged_rewritten hlatest hstaged

end KeyValueStore

end MiniKV
