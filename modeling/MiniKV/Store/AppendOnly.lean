import MiniKV.Store.Runs

/-!
# The file is append-only

Between two compactions that replace the file, every call leaves the bytes of
the file where they are, whatever fails.  The index never comes to point into
old bytes: an entry is the one that was there before, or it points to a whole
record that has been appended since.
-/

namespace MiniKV

namespace View

/-- The file has only grown, and the index points to nothing else that is
old. -/
structure Extends (before after : View) : Prop where
  bytes : before.bytes <+: after.bytes
  entries : ∀ key metadata, after.index.lookup key = some metadata →
    before.index.lookup key = some metadata ∨
      before.bytes.length ≤ metadata.recordOffset ∧
        ∃ entry, after.PointsTo key metadata entry

variable {before middle after : View}

/-- The file is as it was, and the index may have forgotten entries. -/
theorem Extends.of_restricted (hbytes : after.bytes = before.bytes)
    (hindex : ∀ key metadata, after.index.lookup key = some metadata →
      before.index.lookup key = some metadata) : before.Extends after where
  bytes := by rw [hbytes]
  entries key metadata hfound := Or.inl (hindex key metadata hfound)

theorem Extends.refl (view : View) : view.Extends view :=
  .of_restricted rfl fun _ _ hfound => hfound

theorem Extends.trans (hfirst : before.Extends middle)
    (hsecond : middle.Extends after) : before.Extends after where
  bytes := hfirst.bytes.trans hsecond.bytes
  entries := by
    intro key metadata hfound
    rcases hsecond.entries key metadata hfound with hmiddle | ⟨hbehind, hnew⟩
    · rcases hfirst.entries key metadata hmiddle with
        hbefore | ⟨hbehind, entry, hpoints⟩
      · exact Or.inl hbefore
      · obtain ⟨rest, hrest⟩ := hsecond.bytes
        exact Or.inr ⟨hbehind, entry, hpoints.append hrest.symm⟩
    · exact Or.inr ⟨hfirst.bytes.length_le.trans hbehind, hnew⟩

theorem Extends.stray (view : View) (rest held : Bytes) :
    view.Extends
      { view with bytes := view.bytes ++ rest, pending := held } where
  bytes := List.prefix_append _ _
  entries _ _ hfound := Or.inl hfound

theorem Extends.drained (hdrained : before.Drained after) :
    before.Extends after := by
  obtain ⟨rest, held, -, -, rfl⟩ := hdrained
  exact .stray before rest held

theorem Extends.settled (view : View) : view.Extends view.settled :=
  .drained (.settled view)

theorem Extends.afterSet (view : View) {record : Record}
    (hvalid : record.Valid) (hoperation : record.operation = .set) :
    view.Extends (view.afterSet record hvalid) where
  bytes := List.prefix_append _ _
  entries := by
    intro key metadata hfound
    change (view.index.insert _ _).lookup key = _ at hfound
    rw [FiniteMap.lookup_insert] at hfound
    split at hfound
    next hkey =>
      cases hfound
      rw [hkey]
      exact Or.inr ⟨le_refl _, _,
        Coherent.pointsTo_afterSet view hvalid hoperation⟩
    · exact Or.inl hfound

theorem Extends.afterRemove (view : View) (record : Record) :
    view.Extends (view.afterRemove record) where
  bytes := List.prefix_append _ _
  entries := by
    intro key metadata hfound
    change (view.index.erase _).lookup key = _ at hfound
    rw [FiniteMap.lookup_erase] at hfound
    split at hfound
    · cases hfound
    · exact Or.inl hfound

/-- An entry that stays in the index of an extended file keeps its value. -/
theorem Extends.valueAt_eq (hextends : before.Extends after) {key : Bytes}
    {metadata : RecordMetadata} {entry : LogEntry}
    (hpoints : before.PointsTo key metadata entry) :
    after.valueAt metadata = before.valueAt metadata := by
  obtain ⟨rest, hrest⟩ := hextends.bytes
  rw [hpoints.valueAt_eq, (hpoints.append hrest.symm).valueAt_eq]

end View

namespace KeyValueStore

open View (Extends)

variable {environment : Environment} {store : KeyValueStore}

theorem lookup_of_lookup_erase {index : Index} {key other : Bytes}
    {metadata : RecordMetadata}
    (hfound : (index.erase key).lookup other = some metadata) :
    index.lookup other = some metadata := by
  rw [FiniteMap.lookup_erase] at hfound
  split at hfound
  · cases hfound
  · exact hfound

theorem extends_readStored (environment : Environment) (key : Bytes)
    (metadata : RecordMetadata) (store : KeyValueStore) :
    Extends store.view (store.readStored environment key metadata).1.view :=
  .drained (drained_readStored environment key metadata store).drained

theorem extends_getLive (environment : Environment) (key : Bytes)
    (metadata : RecordMetadata) (store : KeyValueStore) :
    Extends store.view (store.getLive environment key metadata).1.view := by
  have hlooked : Extends store.view (store.lookupCache key).1.view :=
    .of_restricted rfl fun _ _ hfound => hfound
  unfold getLive
  split
  next looked value heq =>
    rw [heq] at hlooked
    exact hlooked
  next looked heq =>
    rw [heq] at hlooked
    have hread := extends_readStored environment key metadata looked
    split
    next read status hresult =>
      rw [hresult] at hread
      exact hlooked.trans hread
    next read value hresult =>
      rw [hresult] at hread
      have hfilled : Extends read.view (read.fillCache key value).view :=
        .of_restricted rfl fun _ _ hfound => hfound
      exact (hlooked.trans hread).trans hfilled

theorem extends_get (environment : Environment) (key : Bytes)
    (store : KeyValueStore) :
    Extends store.view (store.get environment key).1.view := by
  unfold get
  split
  · split
    · dsimp only
      split
      · exact .refl _
      · unfold eraseIfExpired
        split
        · exact .refl _
        · split
          · exact .of_restricted rfl fun _ _ => lookup_of_lookup_erase
          · exact .refl _
      next metadata _ =>
        exact extends_getLive environment key metadata
          { store with getOperations := store.getOperations + 1 }
    · exact .refl _
  · exact .refl _

theorem extends_failed {record : Record} {before after : View}
    {status : Status}
    (hfailed : AppendFailed environment record before after status) :
    before.Extends after := by
  obtain ⟨rest, held, rfl⟩ := hfailed.stray
  exact .stray before rest held

theorem extends_set (environment : Environment) (key value : Bytes)
    (ttl : Option Int64) (store : KeyValueStore) :
    Extends store.view (store.set environment key value ttl).1.view := by
  unfold set
  split
  next hopened =>
    split
    · have houtcome := setSection_cases environment key value
        (deadline environment.nowMs ttl) hopened
      generalize (store.setSection environment key value
        (deadline environment.nowMs ttl)).1.view = after at houtcome ⊢
      generalize (store.setSection environment key value
        (deadline environment.nowMs ttl)).2 = status at houtcome
      cases houtcome with
      | stored hvalid _ _ =>
          exact (Extends.settled store.view).trans
            (.afterSet store.view.settled hvalid rfl)
      | failed hfailed => exact extends_failed hfailed
    · exact .refl _
  · exact .refl _

theorem extends_remove (environment : Environment) (key : Bytes)
    (store : KeyValueStore) :
    Extends store.view (store.remove environment key).1.view := by
  unfold remove
  split
  · split
    · have houtcome := removeSection_cases environment key store
      generalize (store.removeSection environment key).1.view = after
        at houtcome ⊢
      generalize (store.removeSection environment key).2 = status at houtcome
      cases houtcome with
      | missing => exact .refl _
      | expired => exact .of_restricted rfl fun _ _ => lookup_of_lookup_erase
      | removed =>
          exact (Extends.settled store.view).trans
            (.afterRemove store.view.settled _)
      | failed metadata _ _ hfailed => exact extends_failed hfailed
    · exact .refl _
  · exact .refl _

theorem extends_purgeExpired (environment : Environment)
    (store : KeyValueStore) :
    Extends store.view (store.purgeExpired environment).view :=
  .of_restricted rfl fun key metadata hfound =>
    ((lookup_purgeExpired environment store key metadata).mp hfound).1

theorem extends_cleanupExpired (environment : Environment)
    (store : KeyValueStore) :
    Extends store.view (store.cleanupExpired environment).1.view := by
  unfold cleanupExpired
  split
  · exact extends_purgeExpired environment store
  · exact .refl _

/-- The request replaces the data file by another one: it opens the store, or
its compaction comes to the rename. -/
def Replaces (request : Request) (store : KeyValueStore) : Prop :=
  request.call = .openStore ∨ Loses request store ∨
    request.call = .compact ∧ ∃ summary,
      (store.compact request.environment).2 = .ok summary

theorem extends_compact
    (hkeeps : ¬ Replaces ⟨environment, .compact⟩ store) :
    Extends store.view (store.compact environment).1.view := by
  unfold compact
  split
  next hopened =>
    have houtcome := compactSection_cases environment store
    have hfailed : ∀ summary,
        (store.compactSection environment).2 ≠ .ok summary := by
      intro summary hsummary
      refine hkeeps (Or.inr (Or.inr ⟨rfl, summary, ?_⟩))
      rw [compact, if_pos hopened, hsummary]
    generalize (store.compactSection environment).1 = after at houtcome ⊢
    generalize (store.compactSection environment).2 = result
      at houtcome hfailed
    cases houtcome with
    | failed status hdrained =>
        exact (extends_purgeExpired environment store).trans
          (.drained hdrained.drained)
    | lost status hlost =>
        exact absurd (Or.inr (Or.inl ⟨rfl, hopened, hlost⟩)) hkeeps
    | compacted => exact absurd rfl (hfailed _)
  · exact .refl _

/-- A call that does not replace the file extends it. -/
theorem extends_perform {request : Request}
    (hkeeps : ¬ Replaces request store) :
    Extends store.view (store.perform request).1.view := by
  obtain ⟨environment, call⟩ := request
  cases call with
  | set key value ttl => exact extends_set environment key value ttl store
  | get key => exact extends_get environment key store
  | keyExists key =>
      have hget := extends_get environment key store
      rw [← fst_keyExists] at hget
      exact hget
  | remove key => exact extends_remove environment key store
  | keys start =>
      change Extends _ (store.keys environment start).1.view
      unfold keys
      split
      · exact extends_cleanupExpired environment store
      · exact .refl _
  | cleanupExpired => exact extends_cleanupExpired environment store
  | compact => exact extends_compact hkeeps
  | openStore => exact absurd (Or.inl rfl) hkeeps
  | close =>
      change Extends _ store.close.1.view
      rw [view_close]
      exact .refl _

/-- Over every run that does not replace the file, from every reachable store
and whatever fails: the file only grows, an index entry that is still there
reads the same bytes as before, and every other one points to a whole record
behind the old end of the file. -/
theorem file_is_append_only (hreachable : Reachable store)
    (requests : List Request)
    (hkeeps : machine.Along (fun request store => ¬ Replaces request store)
      requests store) :
    let after := (machine.run requests store).1
    store.storage.bytes <+: after.storage.bytes ∧
      ∀ key metadata, after.index.lookup key = some metadata →
        (store.index.lookup key = some metadata ∧
          after.view.valueAt metadata = store.view.valueAt metadata) ∨
        store.storage.bytes.length ≤ metadata.recordOffset ∧
          ∃ entry, after.view.PointsTo key metadata entry := by
  intro after
  have hcoherent := coherent_of_reachable hreachable
  have hstep : ∀ request before, Extends store.view before.view →
      ¬ Replaces request before →
      Extends store.view (machine.step request before).1.view :=
    fun _ _ hbefore hkept => hbefore.trans (extends_perform hkept)
  have hextends : Extends store.view after.view :=
    Machine.run_invariant hstep hkeeps (.refl store.view)
  refine ⟨hextends.bytes, fun key metadata hfound => ?_⟩
  rcases hextends.entries key metadata hfound with hbefore | hnew
  · obtain ⟨entry, hpoints⟩ := hcoherent.points key metadata hbefore
    exact Or.inl ⟨hbefore, hextends.valueAt_eq hpoints⟩
  · exact Or.inr hnew

/-- A run with a torn `set`, a failing compaction and a `set` that works. -/
theorem file_is_append_only_behind_failed_compaction :
    let store := (machine.run [⟨.calm 1, .openStore⟩,
      ⟨.calm 2, .set [97] [98] none⟩] (new .small none none)).1
    let requests : List Request :=
      [⟨{ nowMs := 3, append := { write := some ⟨5, 30⟩ } },
          .set [97] [99] none⟩,
        ⟨{ nowMs := 4, compact := { flush := false } }, .compact⟩,
        ⟨.calm 5, .set [100] [101] none⟩]
    let after := (machine.run requests store).1
    store.storage.bytes <+: after.storage.bytes ∧
      ∀ key metadata, after.index.lookup key = some metadata →
        (store.index.lookup key = some metadata ∧
          after.view.valueAt metadata = store.view.valueAt metadata) ∨
        store.storage.bytes.length ≤ metadata.recordOffset ∧
          ∃ entry, after.view.PointsTo key metadata entry := by
  intro store requests
  have hreachable : Reachable store := by
    apply reachable_run
    simp only [List.forall_mem_cons, List.not_mem_nil, false_imp_iff,
      implies_true, and_true]
    exact ⟨(Environment.faultless_calm 1).toReliable,
      (Environment.faultless_calm 2).toReliable⟩
  have hset : ∀ environment key value store,
      ¬ Replaces ⟨environment, .set key value none⟩ store := by
    rintro environment key value store (hopen | hloses | ⟨hcompact, -⟩)
    · cases hopen
    · cases hloses.1
    · cases hcompact
  have hkeeps : machine.Along (fun request store => ¬ Replaces request store)
      requests store := by
    refine ⟨hset _ _ _ _, ?_, hset _ _ _ _, trivial⟩
    rintro (hopen | ⟨-, -, hloses⟩ | ⟨-, summary, hsummary⟩)
    · cases hopen
    · cases hloses.loses.flush
    · have hfails : ((machine.run (requests.take 1) store).1.compact
          { nowMs := 4, compact := { flush := false } }).2.isOk = false := by
        decide +kernel
      exact absurd (hsummary ▸ hfails) nofun
  exact file_is_append_only hreachable requests hkeeps

end KeyValueStore

end MiniKV
