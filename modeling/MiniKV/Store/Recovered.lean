import MiniKV.Store.Runs

/-!
# The live index is the recovered index

The live path computes its index entry by entry and writes nothing when an
entry expires; recovery computes its own from the file.  They agree because
every effect without a failure keeps one equation: at any later reading,
replaying the file gives what has not expired of the live index.
-/

namespace MiniKV

namespace View

/-- The put area is empty, and at every later reading the data file replays to
what is then left of the index. -/
def Replays (nowMs : Int64) (view : View) : Prop :=
  view.pending = [] ∧ ∃ entries, view.bytes = logFormat.imageAll entries ∧
    ∀ laterMs, nowMs ≤ laterMs → replay laterMs entries =
      view.index.filter fun _ metadata =>
        !isExpired metadata.expiresAtMs laterMs

theorem replays_ofLog (nowMs : Int64) (entries : List LogEntry)
    (cache : LruCache Bytes Bytes) :
    Replays nowMs (ofLog nowMs entries cache) :=
  ⟨rfl, entries, rfl, fun _ hclock => replay_later hclock entries⟩

/-- The file is the same, and only expired entries are gone from the index. -/
structure Forgets (nowMs : Int64) (view later : View) : Prop where
  bytes : later.bytes = view.bytes
  pending : later.pending = view.pending
  index : ∀ key, later.index.lookup key = view.index.lookup key ∨
    later.index.lookup key = none ∧ ∃ metadata,
      view.index.lookup key = some metadata ∧
        isExpired metadata.expiresAtMs nowMs = true

theorem Forgets.mono {nowMs laterMs : Int64} {view later : View}
    (hforgets : Forgets nowMs view later) (hclock : nowMs ≤ laterMs) :
    Forgets laterMs view later where
  bytes := hforgets.bytes
  pending := hforgets.pending
  index key := (hforgets.index key).imp_right fun hgone =>
    ⟨hgone.1, hgone.2.imp fun _ hfound =>
      ⟨hfound.1, isExpired_mono hfound.2 hclock⟩⟩

/-- Upkeep forgets, or it is a compaction, when there is nothing to drain. -/
theorem upkeep_cases {nowMs : Int64} {view later : View}
    (hpending : view.pending = []) (hupkeep : Upkeep nowMs view later) :
    Forgets nowMs view later ∨ ∃ live, later = ofLog nowMs live view.cache := by
  cases hupkeep with
  | drained hdrained =>
      rw [hdrained.eq_of_pending hpending]
      exact Or.inl ⟨rfl, rfl, fun _ => Or.inl rfl⟩
  | touched key => exact Or.inl ⟨rfl, rfl, fun _ => Or.inl rfl⟩
  | filled key metadata hfound => exact Or.inl ⟨rfl, rfl, fun _ => Or.inl rfl⟩
  | dropped key metadata hfound hexpired =>
      refine Or.inl ⟨rfl, rfl, fun other => ?_⟩
      by_cases hother : other = key
      · subst hother
        exact Or.inr ⟨FiniteMap.lookup_erase_self _ _, metadata, hfound,
          hexpired⟩
      · exact Or.inl (FiniteMap.lookup_erase_of_ne _ hother)
  | purged keys hkeys =>
      refine Or.inl ⟨rfl, rfl, fun other => ?_⟩
      cases hfound : view.index.lookup other with
      | none => exact Or.inl (by simp [hfound])
      | some metadata =>
          cases hexpired : isExpired metadata.expiresAtMs nowMs with
          | true => exact Or.inr ⟨by simp [hfound, hexpired], metadata, rfl,
              hexpired⟩
          | false => exact Or.inl (by simp [hfound, hexpired])
  | compacted live hlive hvisible => exact Or.inr ⟨live, rfl⟩

/-- Without a lossy append an empty put area stays empty. -/
theorem pending_effects {nowMs : Int64} {lossy : Prop} {view later : View}
    (hlossless : ¬ lossy) (hpending : view.pending = [])
    (heffects : Effects nowMs lossy view later) : later.pending = [] := by
  induction heffects with
  | refl => exact hpending
  | tail hearlier hlast ih =>
      cases hlast with
      | upkeep hupkeep =>
          rcases upkeep_cases ih hupkeep with hforgets | ⟨live, rfl⟩
          · exact hforgets.pending.trans ih
          · rfl
      | stray hlossy => exact absurd hlossy hlossless
      | set => exact ih
      | removed => exact ih
      | recovered _ _ _ _ hheld =>
          exact hheld.elim id fun hkept => hkept.2.trans ih

namespace Replays

variable {nowMs : Int64} {view : View}

theorem mono (hreplays : Replays nowMs view) {laterMs : Int64}
    (hclock : nowMs ≤ laterMs) : Replays laterMs view := by
  obtain ⟨hpending, entries, hbytes, hreplay⟩ := hreplays
  exact ⟨hpending, entries, hbytes, fun lastMs hlast =>
    hreplay lastMs (Int64.le_trans hclock hlast)⟩

/-- Forgetting entries that have expired, and changing the cache. -/
theorem forget (hreplays : Replays nowMs view) {later : View}
    (hforgets : Forgets nowMs view later) : Replays nowMs later := by
  obtain ⟨hpending, entries, himage, hreplay⟩ := hreplays
  refine ⟨hforgets.pending.trans hpending, entries,
    hforgets.bytes.trans himage, fun laterMs hclock => ?_⟩
  rw [hreplay laterMs hclock]
  ext key : 1
  rw [FiniteMap.lookup_filter, FiniteMap.lookup_filter]
  rcases hforgets.index key with hsame | ⟨hgone, metadata, hfound, hexpired⟩
  · rw [hsame]
  · have hlater := isExpired_mono hexpired hclock
    rw [hgone, hfound]
    simp [hlater]

theorem upkeep (hreplays : Replays nowMs view) {earlierMs : Int64}
    (hclock : earlierMs ≤ nowMs) {later : View}
    (hupkeep : Upkeep earlierMs view later) : Replays nowMs later := by
  rcases upkeep_cases hreplays.1 hupkeep with hforgets | ⟨live, rfl⟩
  · exact hreplays.forget (hforgets.mono hclock)
  · exact (replays_ofLog earlierMs live _).mono hclock

/-- An appended Set record shows its key from then on, until it expires. -/
theorem afterSet (hreplays : Replays nowMs view) {record : Record}
    (hvalid : record.Valid) (hoperation : record.operation = .set) :
    Replays nowMs (view.afterSet record hvalid) := by
  obtain ⟨hpending, entries, himage, hreplay⟩ := hreplays
  refine ⟨hpending, entries ++ [.ofRecord record hvalid], ?_,
    fun laterMs hclock => ?_⟩
  · rw [imageAll_concat_ofRecord, ← himage]
    rfl
  · have hlength : view.bytes.length = logSize entries := by
      rw [himage, length_imageAll]
    ext key : 1
    rw [lookup_replay_concat, hreplay laterMs hclock, View.afterSet, hlength,
      LogEntry.record_ofRecord]
    simp only [FiniteMap.lookup_filter, FiniteMap.lookup_insert]
    by_cases hkey : record.key = key
    · rw [if_pos hkey, if_pos hkey.symm, shown, Option.filter_some]
      cases hexpired : isExpired record.expiresAtMs laterMs <;>
        simp [LogEntry.Visible, LogEntry.metadata, hoperation, hexpired]
    · rw [if_neg hkey, if_neg (Ne.symm hkey)]

/-- An appended Delete record hides its key. -/
theorem afterRemove (hreplays : Replays nowMs view) {record : Record}
    (hvalid : record.Valid) (hoperation : record.operation = .delete) :
    Replays nowMs (view.afterRemove record) := by
  obtain ⟨hpending, entries, himage, hreplay⟩ := hreplays
  refine ⟨hpending, entries ++ [.ofRecord record hvalid], ?_,
    fun laterMs hclock => ?_⟩
  · rw [imageAll_concat_ofRecord, ← himage]
    rfl
  · ext key : 1
    rw [lookup_replay_concat, hreplay laterMs hclock, View.afterRemove,
      LogEntry.record_ofRecord]
    simp only [FiniteMap.lookup_filter, FiniteMap.lookup_erase]
    by_cases hkey : record.key = key
    · rw [if_pos hkey, if_pos hkey.symm, shown, Option.filter_none, if_neg]
      intro hvisible
      have hset := hvisible.1
      rw [LogEntry.record_ofRecord, hoperation] at hset
      cases hset
    · rw [if_neg hkey, if_neg (Ne.symm hkey)]

theorem effect (hreplays : Replays nowMs view) {earlierMs : Int64}
    (hclock : earlierMs ≤ nowMs) {lossy : Prop} (hlossless : ¬ lossy)
    {later : View} (heffect : Effect earlierMs lossy view later) :
    Replays nowMs later := by
  cases heffect with
  | upkeep hupkeep => exact hreplays.upkeep hclock hupkeep
  | stray hlossy rest => exact absurd hlossy hlossless
  | set record hvalid hoperation => exact hreplays.afterSet hvalid hoperation
  | removed record hvalid hoperation =>
      exact hreplays.afterRemove hvalid hoperation
  | recovered entries tail held hlog hheld =>
      have hnothing : held = [] :=
        hheld.elim id fun hkept => hkept.2.trans hreplays.1
      rw [hnothing]
      exact (replays_ofLog earlierMs entries _).mono hclock

theorem effects (hreplays : Replays nowMs view) {earlierMs : Int64}
    (hclock : earlierMs ≤ nowMs) {lossy : Prop} (hlossless : ¬ lossy)
    {later : View} (heffects : Effects earlierMs lossy view later) :
    Replays nowMs later := by
  induction heffects with
  | refl => exact hreplays
  | tail _ hlast ih => exact ih.effect hclock hlossless hlast

/-- Recovering the data file of such a view. -/
theorem recover (hreplays : Replays nowMs view) {storage : AppendOnlyStore}
    (hbytes : storage.bytes = view.bytes) {laterMs : Int64}
    (hclock : nowMs ≤ laterMs) :
    ∃ after state, storage.recover {} {} laterMs = (after, .ok state) ∧
      state.truncatedBytes = 0 ∧
      state.index = view.index.filter fun _ metadata =>
        !isExpired metadata.expiresAtMs laterMs := by
  obtain ⟨-, entries, himage, hreplay⟩ := hreplays
  have hlog : LogWithTail entries [] storage.bytes :=
    ⟨by rw [hbytes, himage, List.append_nil], unfinishedTail_nil⟩
  exact ⟨_, _, AppendOnlyStore.recover_of_logWithTail hlog laterMs, rfl,
    hreplay laterMs hclock⟩

end Replays

end View

namespace KeyValueStore

variable {store : KeyValueStore}

/-- Opening a store leaves the recovered index behind. -/
theorem replays_openStore {environment : Environment}
    (hreliable : environment.Reliable) (hclosed : store.opened = false)
    (hpending : store.storage.pending = [])
    (hopens : (store.openStore environment).2.ok = true) :
    View.Replays environment.nowMs (store.openStore environment).1.view := by
  obtain ⟨entries, tail, -, hview, -⟩ :=
    openStore_ok hreliable hclosed hopens
  rw [hview, View.reopened_of_pending hpending]
  exact View.replays_ofLog _ entries _

theorem replays_perform {request : Request} {nowMs : Int64}
    (hreplays : View.Replays nowMs store.view)
    (hclock : nowMs ≤ request.nowMs)
    (hfaultless : request.environment.Faultless) :
    View.Replays request.nowMs (store.perform request).1.view :=
  (hreplays.mono hclock).effects (Int64.le_refl _) hfaultless.not_lossy
    (effects_perform (fun _ => hfaultless.toReliable) fun hloses =>
      not_losesFile_of_reliable hfaultless.toReliable hloses.2.2)

/-- The live state is the recovered state: behind any run without I/O failure,
a recovery from the disk alone returns what has not expired of the live
index. -/
theorem recover_eq_live_index (config freshConfig : StoreConfig)
    (data temporary : Option Bytes) (opening : Environment)
    (hopening : opening.Faultless)
    (hopens : ((new config data temporary).openStore opening).2.ok = true)
    (requests : List Request)
    (hfaultless : ∀ request ∈ requests, request.environment.Faultless)
    (hpaced : Machine.Paced Request.nowMs opening.nowMs requests)
    (laterMs : Int64)
    (hlater : Machine.lastReading Request.nowMs opening.nowMs requests ≤
      laterMs) :
    let final := (machine.run requests
      ((new config data temporary).openStore opening).1).1
    let fresh := new freshConfig final.storage.data final.storage.temporary
    ∃ after state,
      fresh.storage.recover {} {} laterMs = (after, .ok state) ∧
        state.truncatedBytes = 0 ∧
        state.index = final.index.filter fun _ metadata =>
          !isExpired metadata.expiresAtMs laterMs := by
  have hstart := replays_openStore hopening.toReliable rfl rfl hopens
  have halong : machine.Along
      (fun request _ => request.environment.Faultless) requests
      ((new config data temporary).openStore opening).1 :=
    .of_forall (fun request hrequest _ => hfaultless request hrequest) _
  have hstep : ∀ startMs request store,
      View.Replays startMs (view store) → startMs ≤ request.nowMs →
        request.environment.Faultless →
        View.Replays request.nowMs (machine.step request store).1.view :=
    fun _ _ _ => replays_perform
  have hreplays := Machine.timed_invariant hstep hpaced halong hstart
  intro final fresh
  have hbytes : fresh.storage.bytes = final.view.bytes := rfl
  exact hreplays.recover hbytes hlater

/-- Opening an empty disk, setting a key with a lifetime of 10 and removing
another key, then recovering behind the deadline. -/
theorem recover_eq_live_index_behind_deadline :
    let requests : List Request :=
      [⟨.calm 5, .set [97] [98] (some 10)⟩, ⟨.calm 6, .set [99] [] none⟩,
        ⟨.calm 7, .remove [99]⟩]
    let final := (machine.run requests
      ((new .small none none).openStore (.calm 3)).1).1
    let fresh := new .small final.storage.data final.storage.temporary
    ∃ after state,
      fresh.storage.recover {} {} 15 = (after, .ok state) ∧
        state.truncatedBytes = 0 ∧
        state.index = final.index.filter fun _ metadata =>
          !isExpired metadata.expiresAtMs 15 := by
  intro requests
  have hfaultless : ∀ request ∈ requests, request.environment.Faultless := by
    simp [requests, Environment.faultless_calm]
  have hpaced : Machine.Paced Request.nowMs 3 requests :=
    ⟨by decide, by decide, by decide, trivial⟩
  exact recover_eq_live_index .small .small none none (.calm 3)
    (Environment.faultless_calm 3) (by decide +kernel) requests hfaultless
    hpaced 15 (by decide)

end KeyValueStore

end MiniKV
