import MiniKV.Store.Runs

/-!
# A left-over compaction file

The compaction file is written and renamed, never read: what it holds before
makes no difference to any answer, to the data file or to memory.
-/

namespace MiniKV

namespace AppendOnlyStore

/-- The same store with another compaction file on its disk. -/
def beside (temporary : Option Bytes) (store : AppendOnlyStore) :
    AppendOnlyStore :=
  { store with temporary := temporary }

/-- The same answer, and stores that differ in the compaction file only. -/
def Beside {Answer : Type} (left right : AppendOnlyStore × Answer) : Prop :=
  left.2 = right.2 ∧ ∃ temporary, right.1 = left.1.beside temporary

theorem Beside.refl {Answer : Type} (result : AppendOnlyStore × Answer) :
    Beside result result :=
  ⟨rfl, result.1.temporary, rfl⟩

theorem ensureOpenLocked_beside (answers : OpenAnswers)
    (temporary : Option Bytes) (store : AppendOnlyStore) :
    (store.beside temporary).ensureOpenLocked answers =
      ((store.ensureOpenLocked answers).1.beside temporary,
        (store.ensureOpenLocked answers).2) := by
  have hdata : (store.beside temporary).data = store.data := rfl
  have hfileOpen : (store.beside temporary).fileOpen = store.fileOpen := rfl
  rw [ensureOpenLocked, ensureOpenLocked, hdata, hfileOpen]
  by_cases hopen : store.fileOpen = true
  · rw [if_pos hopen, if_pos hopen]
  · rw [if_neg hopen, if_neg hopen]
    cases answers.createDirectories with
    | some message => rfl
    | none =>
        cases answers.fileExists with
        | some what => rfl
        | none =>
            dsimp only
            by_cases hcreate : (store.data.isNone && !answers.createFile) = true
            · rw [if_pos hcreate, if_pos hcreate]
              rfl
            · rw [if_neg hcreate, if_neg hcreate]
              cases answers.openFile with
              | true => rfl
              | false => rfl

@[simp]
theorem bytes_beside (temporary : Option Bytes) (store : AppendOnlyStore) :
    (store.beside temporary).bytes = store.bytes := rfl

@[simp]
theorem pending_beside (temporary : Option Bytes) (store : AppendOnlyStore) :
    (store.beside temporary).pending = store.pending := rfl

theorem drain_beside (fault : Option ℕ) (temporary : Option Bytes)
    (store : AppendOnlyStore) :
    (store.beside temporary).drain fault =
      ((store.drain fault).1.beside temporary, (store.drain fault).2) := by
  rw [drain, drain, pending_beside]
  by_cases hpending : store.pending = []
  · rw [if_pos hpending, if_pos hpending]
  · rw [if_neg hpending, if_neg hpending]
    cases fault with
    | none => rfl
    | some count => rfl

theorem closeFile_beside (fault : Option ℕ) (temporary : Option Bytes)
    (store : AppendOnlyStore) :
    (store.beside temporary).closeFile fault =
      (store.closeFile fault).beside temporary := by
  rw [closeFile, closeFile, drain_beside]
  rfl

theorem reopenLocked_beside (answers : OpenAnswers)
    (temporary : Option Bytes) (store : AppendOnlyStore) :
    (store.beside temporary).reopenLocked answers =
      ((store.reopenLocked answers).1.beside temporary,
        (store.reopenLocked answers).2) := by
  rw [reopenLocked, reopenLocked, closeFile_beside, ensureOpenLocked_beside]

theorem readValue_beside (openAnswers : OpenAnswers) (answers : ReadAnswers)
    (metadata : RecordMetadata) (temporary : Option Bytes)
    (store : AppendOnlyStore) :
    (store.beside temporary).readValue openAnswers answers metadata =
      ((store.readValue openAnswers answers metadata).1.beside temporary,
        (store.readValue openAnswers answers metadata).2) := by
  apply Prod.ext
  · simp only [fst_readValue, sought, ensureOpenLocked_beside, drain_beside]
    split <;> rfl
  · rw [snd_readValue, ensureOpenLocked_beside, bytes_beside, pending_beside,
      snd_readValue]

theorem appendRecordLocked_beside (openAnswers : OpenAnswers)
    (answers : AppendAnswers) (record : Record) (temporary : Option Bytes)
    (store : AppendOnlyStore) :
    (store.beside temporary).appendRecordLocked openAnswers answers record =
      ((store.appendRecordLocked openAnswers answers record).1.beside temporary,
        (store.appendRecordLocked openAnswers answers record).2) := by
  simp only [appendRecordLocked, ensureOpenLocked_beside, drain_beside,
    bytes_beside]
  generalize store.ensureOpenLocked openAnswers = opened
  by_cases hopens : opened.2.ok = true
  · simp only [if_pos hopens]
    generalize opened.1.drain answers.drain = sought
    by_cases hseek : (sought.2 && answers.seek) = true
    · simp only [if_pos hseek]
      rcases writeRecord answers.write sought.1.bytes record
        sought.1.bytes.length with ⟨output, result⟩
      cases result with
      | error status => rfl
      | ok metadata =>
          cases hflush : answers.flush with
          | none => rfl
          | some torn => rfl
    · simp only [if_neg hseek]
  · simp only [if_neg hopens]

theorem appendDelete_beside (openAnswers : OpenAnswers)
    (answers : AppendAnswers) (key : Bytes) (temporary : Option Bytes)
    (store : AppendOnlyStore) :
    (store.beside temporary).appendDelete openAnswers answers key =
      ((store.appendDelete openAnswers answers key).1.beside temporary,
        (store.appendDelete openAnswers answers key).2) := by
  rw [appendDelete, appendDelete, appendRecordLocked_beside]
  rcases store.appendRecordLocked openAnswers answers
    ⟨.delete, key, [], 0⟩ with ⟨after, result⟩
  cases result with
  | error status => rfl
  | ok metadata => rfl

theorem recover_beside (openAnswers : OpenAnswers) (answers : RecoverAnswers)
    (nowMs : Int64) (temporary : Option Bytes) (store : AppendOnlyStore) :
    Beside (store.recover openAnswers answers nowMs)
      ((store.beside temporary).recover openAnswers answers nowMs) := by
  simp only [recover, ensureOpenLocked_beside, bytes_beside]
  generalize store.ensureOpenLocked openAnswers = opened
  by_cases hopens : opened.2.ok = true
  · simp only [if_pos hopens]
    cases answers.fileSize with
    | some message => exact ⟨rfl, _, rfl⟩
    | none =>
        dsimp only
        rw [drain_beside]
        generalize opened.1.drain answers.drain = sought
        dsimp only
        cases scan (answers.behindSeek sought.2) nowMs opened.1.bytes 0
            ⟨.empty, 0, 0⟩ with
        | error status => exact ⟨rfl, _, rfl⟩
        | ok found =>
            obtain ⟨state, position⟩ := found
            dsimp only
            by_cases htail : state.truncatedBytes > 0
            · rw [if_pos htail, if_pos htail, closeFile_beside]
              let closed := sought.1.closeFile answers.close
              cases answers.resize with
              | some message => exact ⟨rfl, _, rfl⟩
              | none =>
                  have hreopen := reopenLocked_beside answers.reopen temporary
                    (closed.withBytes (closed.bytes.take position))
                  let finish : AppendOnlyStore × Status →
                      AppendOnlyStore × Result RecoveryState := fun reopened =>
                    if reopened.2.ok then (reopened.1, .ok state)
                    else (reopened.1, .error reopened.2)
                  change Beside (finish ((closed.withBytes
                      (closed.bytes.take position)).reopenLocked
                        answers.reopen))
                    (finish (((closed.withBytes
                      (closed.bytes.take position)).beside
                        temporary).reopenLocked answers.reopen))
                  rw [hreopen]
                  dsimp only [finish]
                  split
                  · exact ⟨rfl, _, rfl⟩
                  · exact ⟨rfl, _, rfl⟩
            · rw [if_neg htail, if_neg htail]
              exact ⟨rfl, _, rfl⟩
  · simp only [if_neg hopens]
    exact ⟨rfl, _, rfl⟩

theorem compact_beside (openAnswers : OpenAnswers) (answers : CompactAnswers)
    (records : List Record) (temporary : Option Bytes)
    (store : AppendOnlyStore) :
    Beside (store.compact openAnswers answers records)
      ((store.beside temporary).compact openAnswers answers records) := by
  simp only [compact, ensureOpenLocked_beside, bytes_beside]
  generalize store.ensureOpenLocked openAnswers = opened
  by_cases hopens : opened.2.ok = true
  · simp only [if_pos hopens]
    cases answers.fileSize with
    | some message => exact ⟨rfl, _, rfl⟩
    | none =>
        dsimp only
        by_cases hcreate : answers.createTemporary = true
        · simp only [if_pos hcreate]
          cases writeLiveRecords answers.write records 0 [] 0 .empty with
          | error status => exact ⟨rfl, _, rfl⟩
          | ok written =>
              dsimp only
              cases answers.flush with
              | false => exact ⟨rfl, _, rfl⟩
              | true => exact .refl _
        · simp only [if_neg hcreate]
          exact ⟨rfl, _, rfl⟩
  · simp only [if_neg hopens]
    exact ⟨rfl, _, rfl⟩

end AppendOnlyStore

namespace KeyValueStore

/-- The same store with another compaction file on its disk. -/
def beside (temporary : Option Bytes) (store : KeyValueStore) : KeyValueStore :=
  { store with storage := store.storage.beside temporary }

/-- The same answer, and stores that differ in the compaction file only. -/
def Beside {Answer : Type} (left right : KeyValueStore × Answer) : Prop :=
  left.2 = right.2 ∧ ∃ temporary, right.1 = left.1.beside temporary

theorem Beside.congr {Answer Other : Type} {left right : KeyValueStore × Answer}
    (hbeside : Beside left right) (answer : Answer → Other) :
    Beside (left.1, answer left.2) (right.1, answer right.2) :=
  ⟨congrArg answer hbeside.1, hbeside.2⟩

variable (temporary : Option Bytes)

@[simp]
theorem opened_beside (store : KeyValueStore) :
    (store.beside temporary).opened = store.opened := rfl

@[simp]
theorem storage_beside (store : KeyValueStore) :
    (store.beside temporary).storage = store.storage.beside temporary := rfl

@[simp]
theorem index_beside (store : KeyValueStore) :
    (store.beside temporary).index = store.index := rfl

/-! ## Calls on single keys -/

theorem setSection_beside (environment : Environment) (key value : Bytes)
    (expiresAtMs : Int64) (store : KeyValueStore) :
    Beside (store.setSection environment key value expiresAtMs)
      ((store.beside temporary).setSection environment key value
        expiresAtMs) := by
  have happended := AppendOnlyStore.appendRecordLocked_beside
    environment.openAnswers environment.append ⟨.set, key, value, expiresAtMs⟩
    temporary store.storage
  rw [setSection, setSection, opened_beside, storage_beside,
    AppendOnlyStore.appendSet, AppendOnlyStore.appendSet, happended]
  split
  · rcases store.storage.appendRecordLocked environment.openAnswers
      environment.append ⟨.set, key, value, expiresAtMs⟩ with
      ⟨storage, result⟩
    cases result with
    | error status => exact ⟨rfl, _, rfl⟩
    | ok metadata => exact ⟨rfl, _, rfl⟩
  · exact ⟨rfl, _, rfl⟩

theorem set_beside (environment : Environment) (key value : Bytes)
    (ttl : Option Int64) (store : KeyValueStore) :
    Beside (store.set environment key value ttl)
      ((store.beside temporary).set environment key value ttl) := by
  rw [set, set]
  change Beside _ (if store.opened then _ else _)
  split
  · split
    · exact setSection_beside temporary environment key value _ store
    · exact ⟨rfl, _, rfl⟩
  · exact ⟨rfl, _, rfl⟩

theorem removeSection_beside (environment : Environment) (key : Bytes)
    (store : KeyValueStore) :
    Beside (store.removeSection environment key)
      ((store.beside temporary).removeSection environment key) := by
  have happended := AppendOnlyStore.appendDelete_beside
    environment.openAnswers environment.append key temporary store.storage
  have hfind : (store.beside temporary).find environment.nowMs key =
      store.find environment.nowMs key := rfl
  rw [removeSection, removeSection, hfind]
  cases store.find environment.nowMs key with
  | missing => exact ⟨rfl, _, rfl⟩
  | expired => exact ⟨rfl, _, rfl⟩
  | live metadata =>
      change Beside _ (if ((store.storage.beside temporary).appendDelete
        environment.openAnswers environment.append key).2.ok then
          ({ store with
              storage := ((store.storage.beside temporary).appendDelete
                environment.openAnswers environment.append key).1
              cache := store.cache.erase key
              index := store.index.erase key
              deleteOperations := store.deleteOperations + 1 }, .success)
        else
          ({ store with
              storage := ((store.storage.beside temporary).appendDelete
                environment.openAnswers environment.append key).1 },
            ((store.storage.beside temporary).appendDelete
              environment.openAnswers environment.append key).2))
      rw [happended]
      dsimp only
      split
      · exact ⟨rfl, _, rfl⟩
      · exact ⟨rfl, _, rfl⟩

theorem remove_beside (environment : Environment) (key : Bytes)
    (store : KeyValueStore) :
    Beside (store.remove environment key)
      ((store.beside temporary).remove environment key) := by
  rw [remove, remove]
  change Beside _ (if store.opened then _ else _)
  split
  · split
    · exact removeSection_beside temporary environment key store
    · exact ⟨rfl, _, rfl⟩
  · exact ⟨rfl, _, rfl⟩

theorem readStored_beside (environment : Environment) (key : Bytes)
    (metadata : RecordMetadata) (store : KeyValueStore) :
    (store.beside temporary).readStored environment key metadata =
      ((store.readStored environment key metadata).1.beside temporary,
        (store.readStored environment key metadata).2) := by
  have hread := AppendOnlyStore.readValue_beside environment.openAnswers
    (environment.read key) metadata temporary store.storage
  rw [readStored, readStored]
  change ({ store with storage := ((store.storage.beside temporary).readValue
    environment.openAnswers (environment.read key) metadata).1 },
      ((store.storage.beside temporary).readValue environment.openAnswers
        (environment.read key) metadata).2) = _
  rw [hread]
  rfl

theorem getLive_beside (environment : Environment) (key : Bytes)
    (metadata : RecordMetadata) (store : KeyValueStore) :
    Beside (store.getLive environment key metadata)
      ((store.beside temporary).getLive environment key metadata) := by
  rw [getLive, getLive]
  have hlookup : (store.beside temporary).lookupCache key =
      ((store.lookupCache key).1.beside temporary,
        (store.lookupCache key).2) := rfl
  rw [hlookup]
  rcases store.lookupCache key with ⟨looked, cached⟩
  cases cached with
  | some value => exact ⟨rfl, _, rfl⟩
  | none =>
      dsimp only
      rw [readStored_beside]
      rcases looked.readStored environment key metadata with ⟨read, result⟩
      cases result with
      | error status => exact ⟨rfl, _, rfl⟩
      | ok value => exact ⟨rfl, _, rfl⟩

theorem eraseIfExpired_beside (key : Bytes) (nowMs : Int64)
    (store : KeyValueStore) :
    ((store.beside temporary).eraseIfExpired key nowMs).1 =
      (store.eraseIfExpired key nowMs).1.beside temporary := by
  rw [eraseIfExpired, eraseIfExpired, index_beside]
  cases store.index.lookup key with
  | none => rfl
  | some metadata =>
      dsimp only
      by_cases hexpired : isExpired metadata.expiresAtMs nowMs = true
      · rw [if_pos hexpired, if_pos hexpired]
        rfl
      · rw [if_neg hexpired, if_neg hexpired]

theorem get_beside (environment : Environment) (key : Bytes)
    (store : KeyValueStore) :
    Beside (store.get environment key)
      ((store.beside temporary).get environment key) := by
  let counted := { store with getOperations := store.getOperations + 1 }
  let other := store.beside temporary
  let otherCounted := { other with getOperations := other.getOperations + 1 }
  have hfind : otherCounted.find environment.nowMs key =
      counted.find environment.nowMs key := rfl
  rw [get, get]
  by_cases hopened : store.opened = true
  · have hother : other.opened = true := hopened
    rw [if_pos hopened, if_pos hother]
    split
    · dsimp only
      rw [hfind]
      cases counted.find environment.nowMs key with
      | missing => exact ⟨rfl, _, rfl⟩
      | expired => exact ⟨rfl, _, eraseIfExpired_beside temporary key _ counted⟩
      | live metadata =>
          exact getLive_beside temporary environment key metadata counted
    · exact ⟨rfl, _, rfl⟩
  · have hother : ¬ other.opened = true := hopened
    rw [if_neg hopened, if_neg hother]
    exact ⟨rfl, _, rfl⟩

theorem keyExists_beside (environment : Environment) (key : Bytes)
    (store : KeyValueStore) :
    Beside (store.keyExists environment key)
      ((store.beside temporary).keyExists environment key) := by
  obtain ⟨hanswer, other, hstore⟩ := get_beside temporary environment key store
  refine ⟨?_, other, ?_⟩
  · rw [snd_keyExists, snd_keyExists, hanswer]
  · rw [fst_keyExists, fst_keyExists, hstore]

/-! ## Calls on the whole store -/

theorem cleanupExpired_beside (environment : Environment)
    (store : KeyValueStore) :
    Beside (store.cleanupExpired environment)
      ((store.beside temporary).cleanupExpired environment) := by
  rw [cleanupExpired, cleanupExpired]
  change Beside _ (if store.opened then _ else _)
  split
  · exact ⟨rfl, _, rfl⟩
  · exact ⟨rfl, _, rfl⟩

theorem keys_beside (environment : Environment) (start : Bytes)
    (store : KeyValueStore) :
    Beside (store.keys environment start)
      ((store.beside temporary).keys environment start) := by
  obtain ⟨-, other, hcleaned⟩ :=
    cleanupExpired_beside temporary environment store
  rw [keys, keys]
  change Beside _ (if store.opened then _ else _)
  split
  · dsimp only
    rw [hcleaned]
    exact ⟨rfl, _, rfl⟩
  · exact ⟨rfl, _, rfl⟩

theorem readLiveRecords_beside (environment : Environment) (keys : List Bytes)
    (store : KeyValueStore) :
    (store.beside temporary).readLiveRecords environment keys =
      ((store.readLiveRecords environment keys).1.beside temporary,
        (store.readLiveRecords environment keys).2) := by
  induction keys generalizing store with
  | nil => rfl
  | cons key keys ih =>
      rw [readLiveRecords, readLiveRecords, index_beside]
      cases store.index.lookup key with
      | none => exact ih store
      | some metadata =>
          dsimp only
          rw [readStored_beside]
          rcases store.readStored environment key metadata with ⟨read, result⟩
          cases result with
          | error status => rfl
          | ok value =>
              dsimp only
              rw [ih read]
              rcases read.readLiveRecords environment keys with ⟨rest, outcome⟩
              cases outcome with
              | error status => rfl
              | ok records => rfl

theorem compactSection_beside (environment : Environment)
    (store : KeyValueStore) :
    Beside (store.compactSection environment)
      ((store.beside temporary).compactSection environment) := by
  let purged := store.purgeExpired environment
  have hpurged : (store.beside temporary).purgeExpired environment =
      purged.beside temporary := rfl
  rw [compactSection, compactSection, hpurged]
  rw [readLiveRecords_beside, index_beside]
  rcases purged.readLiveRecords environment
    (environment.hashOrder purged.index).keys with ⟨read, outcome⟩
  cases outcome with
  | error status => exact ⟨rfl, _, rfl⟩
  | ok records =>
      have hbeside := AppendOnlyStore.compact_beside environment.openAnswers
        environment.compact (sortRecords records) temporary read.storage
      dsimp only
      rw [storage_beside]
      generalize read.storage.compact environment.openAnswers
        environment.compact (sortRecords records) = left at hbeside ⊢
      generalize (read.storage.beside temporary).compact
        environment.openAnswers environment.compact (sortRecords records) =
          right at hbeside ⊢
      obtain ⟨storage, result⟩ := left
      obtain ⟨besideStorage, besideResult⟩ := right
      obtain ⟨rfl, other, rfl⟩ := hbeside
      cases result with
      | error status => exact ⟨rfl, other, rfl⟩
      | ok state => exact ⟨rfl, other, rfl⟩

theorem compact_beside (environment : Environment) (store : KeyValueStore) :
    Beside (store.compact environment)
      ((store.beside temporary).compact environment) := by
  rw [compact, compact]
  change Beside _ (if store.opened then _ else _)
  split
  · exact compactSection_beside temporary environment store
  · exact ⟨rfl, _, rfl⟩

theorem close_beside (store : KeyValueStore) :
    Beside store.close (store.beside temporary).close := by
  rw [close, close]
  change Beside _ (if store.opened then _ else _)
  split
  · exact ⟨rfl, _, rfl⟩
  · exact ⟨rfl, _, rfl⟩

theorem openStore_beside (environment : Environment) (store : KeyValueStore) :
    Beside (store.openStore environment)
      ((store.beside temporary).openStore environment) := by
  have hopened : (store.beside temporary).opened = store.opened := rfl
  have hconfig : (store.beside temporary).config = store.config := rfl
  have hstorage : (store.beside temporary).storage =
      store.storage.beside temporary := rfl
  simp only [openStore, AppendOnlyStore.openFile, hopened, hconfig, hstorage,
    AppendOnlyStore.ensureOpenLocked_beside]
  split
  · exact ⟨rfl, _, rfl⟩
  split
  · exact ⟨rfl, _, rfl⟩
  generalize store.storage.ensureOpenLocked environment.openAnswers = opening
  split
  · have hbeside := AppendOnlyStore.recover_beside environment.openAnswers
      environment.recover environment.nowMs temporary opening.1
    generalize opening.1.recover environment.openAnswers environment.recover
      environment.nowMs = left at hbeside ⊢
    generalize (opening.1.beside temporary).recover environment.openAnswers
      environment.recover environment.nowMs = right at hbeside ⊢
    obtain ⟨storage, result⟩ := left
    obtain ⟨besideStorage, besideResult⟩ := right
    obtain ⟨rfl, other, rfl⟩ := hbeside
    cases result with
    | error status => exact ⟨rfl, other, rfl⟩
    | ok state =>
        dsimp only
        split
        · cases environment.startThread with
          | none => exact ⟨rfl, other, rfl⟩
          | some what => exact ⟨rfl, other, rfl⟩
        · exact ⟨rfl, other, rfl⟩
  · exact ⟨rfl, _, rfl⟩

/-! ## Runs -/

theorem perform_beside (request : Request) (store : KeyValueStore) :
    Beside (store.perform request)
      ((store.beside temporary).perform request) := by
  obtain ⟨environment, call⟩ := request
  cases call with
  | set key value ttl =>
      exact .congr (set_beside temporary environment key value ttl store) _
  | get key => exact .congr (get_beside temporary environment key store) _
  | keyExists key =>
      exact .congr (keyExists_beside temporary environment key store) _
  | remove key => exact .congr (remove_beside temporary environment key store) _
  | keys start => exact .congr (keys_beside temporary environment start store) _
  | cleanupExpired =>
      exact .congr (cleanupExpired_beside temporary environment store) _
  | compact => exact .congr (compact_beside temporary environment store) _
  | openStore => exact .congr (openStore_beside temporary environment store) _
  | close => exact .congr (close_beside temporary store) _

/-- In every run, whatever fails, the left-over file changes no answer, and
nothing of the store but itself. -/
theorem run_beside (requests : List Request) (store : KeyValueStore) :
    Beside (machine.run requests store)
      (machine.run requests (store.beside temporary)) := by
  have hstep : ∀ request ∈ requests, ∀ left right : KeyValueStore,
      (∃ temporary, right = left.beside temporary) →
      (machine.step request left).2 = (machine.step request right).2 ∧
        ∃ temporary, (machine.step request right).1 =
          (machine.step request left).1.beside temporary := by
    rintro request - left _ ⟨other, rfl⟩
    exact perform_beside other request left
  obtain ⟨hanswers, hstore⟩ :=
    Machine.run_related hstep ⟨temporary, rfl⟩
  exact ⟨List.forall₂_eq_eq_eq ▸ hanswers, hstore⟩

end KeyValueStore

end MiniKV
