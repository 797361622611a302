import MiniKV.Store.LogLedger
import MiniKV.Store.Recovered

/-!
# Calls without an I/O failure

When nothing fails and the put area is empty, a call does upkeep, appends one
whole record, or loads the log of the file.  The put area stays empty.
-/

namespace MiniKV

namespace View

variable {view later : View}

theorem settled_of_pending (hpending : view.pending = []) :
    view.settled = view := by
  rw [settled, hpending, List.append_nil, ← hpending]

/-- Over an empty put area upkeep leaves the file alone, or it is a
compaction. -/
theorem log_upkeep (hpending : view.pending = []) {nowMs : Int64}
    (hupkeep : Upkeep nowMs view later) :
    later.pending = [] ∧ (later.bytes = view.bytes ∨
      ∃ live, view.Canonical live ∧
        later.bytes = logFormat.imageAll live) := by
  cases hupkeep with
  | drained hdrained =>
      rw [hdrained.eq_of_pending hpending]
      exact ⟨hpending, Or.inl rfl⟩
  | touched | filled | dropped | purged => exact ⟨hpending, Or.inl rfl⟩
  | compacted live hlive hvisible => exact ⟨rfl, Or.inr ⟨live, hlive, rfl⟩⟩

end View

namespace KeyValueStore

variable {environment : Environment} {store : KeyValueStore} {key : Bytes}

/-- What a request can do when nothing fails and the put area is empty. -/
inductive FaultlessOutcome (request : Request) (before : KeyValueStore) :
    KeyValueStore → Reply → Prop
  | upkeep {after : KeyValueStore} {reply : Reply}
      (hupkeeps : Upkeeps request.nowMs before.view after.view)
      (hstays : after.opened = true → before.opened = true) :
      FaultlessOutcome request before after reply
  | stored {after : KeyValueStore} {record : Record} {value : Bytes}
      {ttl : Option Int64} (hcall : request.call = .set record.key value ttl)
      (hvalid : record.Valid)
      (hview : after.view = before.view.afterRecord record hvalid) :
      FaultlessOutcome request before after (.status .success)
  | removed {after : KeyValueStore} {key : Bytes}
      (hcall : request.call = .remove key) (hvalid : (deleteRecord key).Valid)
      (hview : after.view =
        before.view.afterRecord (deleteRecord key) hvalid) :
      FaultlessOutcome request before after (.status .success)
  | reopened {after : KeyValueStore} {entries : List LogEntry} {tail : Bytes}
      {reply : Reply} (hcall : request.call = .openStore)
      (hclosed : before.opened = false)
      (hlog : LogWithTail entries tail before.view.bytes)
      (hview : after.view = View.ofLog request.nowMs entries before.cache) :
      FaultlessOutcome request before after reply

/-- Without an I/O failure a failing append leaves the view as it is. -/
theorem AppendFailed.eq_of_faultless {record : Record} {before after : View}
    {status : Status} (hfaultless : environment.Faultless)
    (hpending : before.pending = [])
    (hfailed : AppendFailed environment record before after status) :
    after = before := by
  cases hfailed with
  | unsought rest _ hrest _ _ =>
      have hnothing : rest = [] := by
        rcases hrest with hnil | ⟨count, hdrain, -⟩
        · exact hnil
        · rw [hfaultless.append] at hdrain
          cases hdrain
      rw [hnothing, List.append_nil]
  | torn torn _ htorn _ _ _ =>
      rcases htorn with ⟨rfl, -⟩ | hfault
      · rw [Torn.written, Torn.kept, List.take_zero, List.append_nil,
          hpending, List.append_nil, ← hpending]
      · rw [hfaultless.append] at hfault
        cases hfault

theorem faultless_set {value : Bytes} {ttl : Option Int64}
    (hfaultless : environment.Faultless)
    (hpending : store.storage.pending = []) :
    FaultlessOutcome ⟨environment, .set key value ttl⟩ store
      (store.set environment key value ttl).1
      (.status (store.set environment key value ttl).2) := by
  rw [set]
  split
  next hopened =>
    split
    · have houtcome := setSection_cases environment key value
        (deadline environment.nowMs ttl) hopened
      generalize store.setSection environment key value
        (deadline environment.nowMs ttl) = served at houtcome ⊢
      obtain ⟨after, status⟩ := served
      dsimp only at houtcome ⊢
      generalize hview : after.view = view at houtcome
      cases houtcome with
      | stored hvalid _ _ =>
          rw [View.settled_of_pending hpending] at hview
          exact .stored rfl hvalid hview
      | failed hfailed =>
          rw [hfailed.eq_of_faultless hfaultless hpending] at hview
          exact .upkeep (hview ▸ .refl) fun _ => hopened
    · exact .upkeep .refl id
  · exact .upkeep .refl id

theorem faultless_remove (hfaultless : environment.Faultless)
    (hpending : store.storage.pending = []) :
    FaultlessOutcome ⟨environment, .remove key⟩ store
      (store.remove environment key).1
      (.status (store.remove environment key).2) := by
  rw [remove]
  split
  next hopened =>
    split
    · have houtcome := removeSection_cases environment key store
      generalize store.removeSection environment key = served at houtcome ⊢
      obtain ⟨after, status⟩ := served
      dsimp only at houtcome ⊢
      generalize hview : after.view = view at houtcome
      cases houtcome with
      | missing => exact .upkeep (hview ▸ .refl) fun _ => hopened
      | expired metadata hfound hexpired =>
          exact .upkeep (hview ▸ .single (.dropped _ key metadata hfound
            hexpired)) fun _ => hopened
      | removed metadata _ _ hvalid _ _ =>
          rw [View.settled_of_pending hpending] at hview
          exact .removed rfl hvalid hview
      | failed metadata _ _ hfailed =>
          rw [hfailed.eq_of_faultless hfaultless hpending] at hview
          exact .upkeep (hview ▸ .refl) fun _ => hopened
    · exact .upkeep .refl id
  · exact .upkeep .refl id

theorem faultless_openStore (hreliable : environment.Reliable)
    (hpending : store.storage.pending = []) :
    FaultlessOutcome ⟨environment, .openStore⟩ store
      (store.openStore environment).1
      (.status (store.openStore environment).2) := by
  by_cases hopened : store.opened = true
  · rw [openStore, if_pos hopened]
    exact .upkeep .refl id
  · have hclosed := Bool.not_eq_true _ ▸ hopened
    have houtcome := openStore_cases hreliable hclosed
    generalize store.openStore environment = opening at houtcome ⊢
    obtain ⟨after, status⟩ := opening
    dsimp only at houtcome ⊢
    cases houtcome with
    | recovered entries tail hlog hview _ =>
        rw [View.reopened_of_pending hpending] at hview
        exact .reopened rfl hclosed hlog hview
    | failed _ _ hdrained hfailed =>
        exact .upkeep (.single (.drained _ hdrained)) fun hopens => by
          rw [hfailed] at hopens
          cases hopens

theorem faultless_cases {request : Request}
    (hfaultless : request.environment.Faultless)
    (hpending : store.storage.pending = []) :
    FaultlessOutcome request store (store.perform request).1
      (store.perform request).2 := by
  obtain ⟨environment, call⟩ := request
  cases call with
  | set other value ttl => exact faultless_set hfaultless hpending
  | get other =>
      exact .upkeep (upkeeps_get environment other store)
        (congrArg (· = true) (opened_get environment other store)).mp
  | keyExists other =>
      have hupkeeps := upkeeps_get environment other store
      have hopened := opened_get environment other store
      rw [← fst_keyExists] at hupkeeps hopened
      exact .upkeep hupkeeps (congrArg (· = true) hopened).mp
  | remove other => exact faultless_remove hfaultless hpending
  | keys start =>
      exact .upkeep (upkeeps_keys environment start store)
        (congrArg (· = true) (opened_keys environment start store)).mp
  | cleanupExpired =>
      exact .upkeep (upkeeps_cleanupExpired environment store)
        (congrArg (· = true) (opened_cleanupExpired environment store)).mp
  | compact =>
      exact .upkeep (upkeeps_compact fun hloses =>
        not_losesFile_of_reliable hfaultless.toReliable hloses.2)
        (congrArg (· = true) (opened_compact environment store)).mp
  | openStore => exact faultless_openStore hfaultless.toReliable hpending
  | close =>
      have hview : (store.perform ⟨environment, .close⟩).1.view = store.view :=
        view_close store
      have hclosed := opened_close store
      exact .upkeep (hview ▸ .refl) fun hopens => by
        change store.close.1.opened = true at hopens
        rw [hclosed] at hopens
        cases hopens

theorem pending_faultless {request : Request}
    (hfaultless : request.environment.Faultless)
    (hpending : store.storage.pending = []) :
    (store.perform request).1.storage.pending = [] :=
  View.pending_effects hfaultless.not_lossy hpending
    (effects_perform (fun _ => hfaultless.toReliable)
      fun hloses : Loses request store =>
        not_losesFile_of_reliable hfaultless.toReliable hloses.2.2)

end KeyValueStore

end MiniKV
