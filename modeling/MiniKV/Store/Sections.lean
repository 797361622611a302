import MiniKV.Store.Ledger

/-!
# The sections of the store as effects

What each lock-held section of the store does to its view and what it answers.
Nothing above this file unfolds a section.
-/

namespace MiniKV

open AppendOnlyStore (recordBytes)

/-- What `get` answers on a coherent view when its reads work. -/
def View.answer (view : View) (nowMs : Int64) (key : Bytes) : Result Bytes :=
  match view.contents key with
  | none => .error (.notFound "key does not exist")
  | some (value, expiresAtMs) =>
      if isExpired expiresAtMs nowMs then
        .error (.notFound "key has expired")
      else
        .ok value

namespace KeyValueStore

variable {environment : Environment} {store : KeyValueStore} {key : Bytes}

/-! ## Set -/

/-- What a failing append does to a view.  It stops in its seek, or it leaves a
part of its record in the file and in the put area. -/
inductive AppendFailed (environment : Environment) (record : Record)
    (before : View) : View → Status → Prop
  | unsought (rest : Bytes) (status : Status)
      (hrest : rest = [] ∨ ∃ count, environment.append.drain = some count ∧
        rest = before.pending.take count)
      (hstatus : status.ok = false)
      (hfails : environment.openAnswers.Fails status) :
      AppendFailed environment record before
        { before with bytes := before.bytes ++ rest } status
  | torn (torn : Torn) (status : Status)
      (htorn : torn = ⟨0, 0⟩ ∧ ¬ record.Valid ∨
        environment.append.fault = some torn)
      (hstatus : status.ok = false)
      (hcode : record.Valid → status.code = .ioError)
      (hdrain : before.pending = [] ∨ environment.append.drain = none) :
      AppendFailed environment record before
        { before with
          bytes := before.bytes ++ before.pending ++
            torn.written (recordBytes record)
          pending := torn.kept (recordBytes record) } status

namespace AppendFailed

variable {record : Record} {before after : View} {status : Status}

theorem of_appended {bytes pending : Bytes}
    (happended : AppendOnlyStore.Appended environment.openAnswers
      environment.append record before.bytes before.pending bytes pending
      (.error status)) :
    AppendFailed environment record before
      { before with bytes := bytes, pending := pending } status := by
  cases happended with
  | unsought rest status hrest hstatus hfails =>
      exact .unsought rest status hrest hstatus hfails
  | torn torn status htorn hstatus hcode hdrain =>
      exact .torn torn status htorn hstatus hcode hdrain

variable (hfailed : AppendFailed environment record before after status)

include hfailed

theorem ok_eq : status.ok = false := by
  cases hfailed with
  | unsought _ _ _ hstatus _ => exact hstatus
  | torn _ _ _ hstatus _ _ => exact hstatus

/-- An append of a valid record fails with an I/O error or an exception. -/
theorem fails (hvalid : record.Valid) :
    environment.openAnswers.Fails status := by
  cases hfailed with
  | unsought _ _ _ _ hfails => exact hfails
  | torn _ _ _ _ hcode _ => exact Or.inl (hcode hvalid)

/-- A failing append adds to the file, and that is all it does. -/
theorem stray : ∃ rest held, after =
    { before with bytes := before.bytes ++ rest, pending := held } := by
  cases hfailed with
  | unsought rest _ _ _ _ => exact ⟨rest, before.pending, rfl⟩
  | torn torn _ _ _ _ _ =>
      exact ⟨before.pending ++ torn.written (recordBytes record), _,
        by rw [List.append_assoc]⟩

theorem coherent (hcoherent : before.Coherent) : after.Coherent := by
  obtain ⟨rest, held, rfl⟩ := hfailed.stray
  exact hcoherent.stray rest held

end AppendFailed

/-- What the section of `set` does with a record. -/
inductive SetOutcome (environment : Environment) (record : Record)
    (before : View) : View → Status → Prop
  | stored (hvalid : record.Valid)
      (hfault : environment.append.fault = none)
      (hdrain : before.pending = [] ∨ environment.append.drain = none) :
      SetOutcome environment record before
        (before.settled.afterSet record hvalid) .success
  | failed {after : View} {status : Status}
      (hfailed : AppendFailed environment record before after status) :
      SetOutcome environment record before after status

theorem setSection_cases (environment : Environment) (key value : Bytes)
    (expiresAtMs : Int64) (hopened : store.opened = true) :
    SetOutcome environment ⟨.set, key, value, expiresAtMs⟩ store.view
      (store.setSection environment key value expiresAtMs).1.view
      (store.setSection environment key value expiresAtMs).2 := by
  have happended := AppendOnlyStore.appendRecordLocked_cases
    environment.openAnswers environment.append
    ⟨.set, key, value, expiresAtMs⟩ store.storage
  rw [setSection, if_pos hopened, AppendOnlyStore.appendSet]
  generalize store.storage.appendRecordLocked environment.openAnswers
    environment.append ⟨.set, key, value, expiresAtMs⟩ = appended
    at happended ⊢
  obtain ⟨storage, result⟩ := appended
  dsimp only at happended
  generalize hbytes : storage.bytes = data at happended
  generalize hpending : storage.pending = held at happended
  cases result with
  | error status =>
      simp only [view, hbytes, hpending]
      exact .failed (.of_appended happended)
  | ok metadata =>
      cases happended with
      | written hvalid hfault hdrain =>
          simp only [view, hbytes, hpending]
          exact .stored hvalid hfault hdrain

theorem setSection_faultless (hopenAnswers : environment.openAnswers = {})
    (happend : environment.append = {}) (hopened : store.opened = true)
    {value : Bytes} {expiresAtMs : Int64}
    (hvalid : (⟨.set, key, value, expiresAtMs⟩ : Record).Valid) :
    (store.setSection environment key value expiresAtMs).2 = .success := by
  rw [setSection, if_pos hopened, AppendOnlyStore.appendSet, hopenAnswers,
    happend, AppendOnlyStore.appendRecordLocked_faultless hvalid]

theorem opened_setSection (environment : Environment) (key value : Bytes)
    (expiresAtMs : Int64) (store : KeyValueStore) :
    (store.setSection environment key value expiresAtMs).1.opened =
      store.opened := by
  unfold setSection
  repeat' split
  all_goals rfl

/-! ## Get -/

theorem find_missing {nowMs : Int64}
    (hmissing : store.index.lookup key = none) :
    store.find nowMs key = .missing := by
  rw [find, hmissing]

theorem find_expired {nowMs : Int64} {metadata : RecordMetadata}
    (hfound : store.index.lookup key = some metadata)
    (hexpired : isExpired metadata.expiresAtMs nowMs = true) :
    store.find nowMs key = .expired := by
  rw [find, hfound]
  exact if_pos hexpired

theorem find_live {nowMs : Int64} {metadata : RecordMetadata}
    (hfound : store.index.lookup key = some metadata)
    (hlive : isExpired metadata.expiresAtMs nowMs = false) :
    store.find nowMs key = .live metadata := by
  rw [find, hfound]
  exact if_neg (by simp [hlive])

theorem lookup_of_find_live {nowMs : Int64} {metadata : RecordMetadata}
    (hfind : store.find nowMs key = .live metadata) :
    store.index.lookup key = some metadata ∧
      isExpired metadata.expiresAtMs nowMs = false := by
  cases hfound : store.index.lookup key with
  | none =>
      rw [find_missing hfound] at hfind
      cases hfind
  | some other =>
      cases hexpired : isExpired other.expiresAtMs nowMs with
      | true =>
          rw [find_expired hfound hexpired] at hfind
          cases hfind
      | false =>
          rw [find_live hfound hexpired] at hfind
          cases hfind
          exact ⟨rfl, hexpired⟩

/-- Reading a value writes the put area at most. -/
theorem drained_readStored (environment : Environment) (key : Bytes)
    (metadata : RecordMetadata) (store : KeyValueStore) :
    store.view.DrainedBy (· = (environment.read key).drain)
      (store.readStored environment key metadata).1.view := by
  rw [readStored, view, view]
  dsimp only
  rw [AppendOnlyStore.fst_readValue]
  rcases AppendOnlyStore.sought_cases environment.openAnswers
    (environment.read key).drain store.storage with
    ⟨hbytes, hpending⟩ | ⟨hbytes, hpending⟩
  · refine ⟨[], store.storage.pending, Or.inl rfl, Or.inr rfl, ?_⟩
    rw [hbytes, hpending, List.append_nil]
  · refine ⟨_, if (environment.read key).drain = none then []
      else store.storage.pending, Or.inr ⟨_, rfl, rfl⟩, ite_eq_or_eq _ _ _, ?_⟩
    rw [hbytes, hpending]

/-- A read returns the bytes of the file behind it. -/
theorem eq_valueAt_of_readStored {metadata : RecordMetadata} {value : Bytes}
    (hread : (store.readStored environment key metadata).2 = .ok value) :
    value = (store.readStored environment key metadata).1.view.valueAt
      metadata :=
  AppendOnlyStore.eq_of_readValue_ok hread

theorem readStored_faultless (hopenAnswers : environment.openAnswers = {})
    (hread : environment.read key = {}) {metadata : RecordMetadata}
    {entry : LogEntry} (hpoints : store.view.PointsTo key metadata entry) :
    (store.readStored environment key metadata).2 =
      .ok (store.view.valueAt metadata) := by
  rw [hpoints.valueAt_eq, hpoints.metadata_eq, readStored, hopenAnswers, hread]
  dsimp only
  rw [AppendOnlyStore.readValue_stored hpoints.stored]

theorem upkeeps_getLive {metadata : RecordMetadata}
    (hfound : store.index.lookup key = some metadata) :
    Upkeeps environment.nowMs store.view
      (store.getLive environment key metadata).1.view := by
  have htouched : Upkeeps environment.nowMs store.view
      (store.lookupCache key).1.view := .single (.touched _ key)
  unfold getLive
  rcases hlookup : store.lookupCache key with ⟨looked, cached⟩
  rw [hlookup] at htouched
  cases cached with
  | some value => exact htouched
  | none =>
      dsimp only at htouched ⊢
      have hdrained : Upkeep environment.nowMs looked.view _ :=
        .drained looked.view
          (drained_readStored environment key metadata looked).drained
      have hindex : (looked.readStored environment key metadata).1.index.lookup
          key = some metadata := by
        have hsame := congrArg (fun pair => pair.1.index) hlookup
        change store.index = looked.index at hsame
        change looked.index.lookup key = _
        rwa [← hsame]
      have hvalue : ∀ value,
          (looked.readStored environment key metadata).2 = .ok value →
          value = (looked.readStored environment key
            metadata).1.view.valueAt metadata :=
        fun _ => eq_valueAt_of_readStored
      generalize looked.readStored environment key metadata = reading
        at hdrained hindex hvalue ⊢
      obtain ⟨read, result⟩ := reading
      cases result with
      | error status => exact htouched.tail hdrained
      | ok value =>
          have hfilled : Upkeep environment.nowMs read.view
              { read.view with
                cache := read.view.cache.put key
                  (read.view.valueAt metadata) } :=
            .filled read.view key metadata hindex
          rw [← hvalue value rfl] at hfilled
          exact (htouched.tail hdrained).tail hfilled

theorem upkeeps_eraseIfExpired (nowMs : Int64) (key : Bytes)
    (store : KeyValueStore) :
    Upkeeps nowMs store.view (store.eraseIfExpired key nowMs).1.view := by
  unfold eraseIfExpired
  split
  · exact .refl
  next metadata hfound =>
    split
    next hexpired => exact .single (.dropped _ key metadata hfound hexpired)
    · exact .refl

theorem upkeeps_get (environment : Environment) (key : Bytes)
    (store : KeyValueStore) :
    Upkeeps environment.nowMs store.view
      (store.get environment key).1.view := by
  unfold get
  split
  · split
    · let counted := { store with getOperations := store.getOperations + 1 }
      dsimp only
      split
      · exact .refl
      · exact upkeeps_eraseIfExpired environment.nowMs key counted
      next metadata hfind =>
        have hfound : counted.index.lookup key = some metadata :=
          (lookup_of_find_live hfind).1
        exact upkeeps_getLive hfound
    · exact .refl
  · exact .refl

theorem opened_get (environment : Environment) (key : Bytes)
    (store : KeyValueStore) :
    (store.get environment key).1.opened = store.opened := by
  unfold get eraseIfExpired dropExpired getLive lookupCache readStored fillCache
  repeat' split
  all_goals first | rfl | grind

theorem getLive_answer (hopenAnswers : environment.openAnswers = {})
    (hread : environment.read key = {}) (hcoherent : store.view.Coherent)
    {metadata : RecordMetadata}
    (hfound : store.index.lookup key = some metadata) :
    (store.getLive environment key metadata).2 =
      .ok (store.view.valueAt metadata) := by
  obtain ⟨entry, hpoints⟩ := hcoherent.points key metadata hfound
  have hcached := LruCache.get_eq_some_iff hcoherent.wellFormed key
  unfold getLive lookupCache
  cases hlookup : (store.cache.get key).2 with
  | some value =>
      obtain ⟨other, hother, hvalue⟩ :=
        hcoherent.cached key value ((hcached value).mp hlookup)
      have hsame : metadata = other :=
        Option.some.inj (hfound.symm.trans hother)
      rw [hsame, ← hvalue]
  | none =>
      let looked := { store with cache := (store.cache.get key).1 }
      have hlooked : looked.view.PointsTo key metadata entry := ⟨hpoints.stored,
        hpoints.key_eq, hpoints.operation_eq, hpoints.metadata_eq⟩
      have hvalue := readStored_faultless hopenAnswers hread hlooked
      dsimp only
      rcases hreading : looked.readStored environment key metadata with
        ⟨read, result⟩
      rw [hreading] at hvalue
      dsimp only at hvalue
      rw [hvalue]
      rfl

theorem get_answer (hopenAnswers : environment.openAnswers = {})
    (hread : environment.read key = {}) (hopened : store.opened = true)
    (hkey : (validateKey key).ok = true) (hcoherent : store.view.Coherent) :
    (store.get environment key).2 =
      store.view.answer environment.nowMs key := by
  let counted := { store with getOperations := store.getOperations + 1 }
  rw [get, if_pos hopened, if_pos hkey, View.answer]
  cases hfound : counted.index.lookup key with
  | none =>
      have hnone : store.view.contents key = none :=
        View.contents_eq_none_iff.mpr hfound
      rw [hnone]
      dsimp only
      rw [find_missing hfound]
  | some metadata =>
      have hsome : store.view.contents key =
          some (store.view.valueAt metadata, metadata.expiresAtMs) :=
        View.contents_eq_some_iff.mpr ⟨metadata, hfound, rfl, rfl⟩
      rw [hsome]
      dsimp only
      cases hexpired : isExpired metadata.expiresAtMs environment.nowMs with
      | true =>
          rw [find_expired hfound hexpired]
          rfl
      | false =>
          have hcounted : counted.view.Coherent := hcoherent
          rw [find_live hfound hexpired]
          exact getLive_answer hopenAnswers hread hcounted hfound

/-! ## Remove -/

/-- The record of a remove. -/
abbrev deleteRecord (key : Bytes) : Record := ⟨.delete, key, [], 0⟩

/-- What the section of `remove` finds and does. -/
inductive RemoveOutcome (environment : Environment) (key : Bytes)
    (before : View) : View → Status → Prop
  | missing (hmissing : before.index.lookup key = none) :
      RemoveOutcome environment key before before
        (.notFound "key does not exist")
  | expired (metadata : RecordMetadata)
      (hfound : before.index.lookup key = some metadata)
      (hexpired : isExpired metadata.expiresAtMs environment.nowMs = true) :
      RemoveOutcome environment key before
        { before with
          index := before.index.erase key
          cache := before.cache.erase key } (.notFound "key has expired")
  | removed (metadata : RecordMetadata)
      (hfound : before.index.lookup key = some metadata)
      (hlive : isExpired metadata.expiresAtMs environment.nowMs = false)
      (hvalid : (deleteRecord key).Valid)
      (hfault : environment.append.fault = none)
      (hdrain : before.pending = [] ∨ environment.append.drain = none) :
      RemoveOutcome environment key before
        (before.settled.afterRemove (deleteRecord key)) .success
  | failed (metadata : RecordMetadata)
      (hfound : before.index.lookup key = some metadata)
      (hlive : isExpired metadata.expiresAtMs environment.nowMs = false)
      {after : View} {status : Status}
      (hfailed : AppendFailed environment (deleteRecord key) before after
        status) :
      RemoveOutcome environment key before after status

theorem removeSection_cases (environment : Environment) (key : Bytes)
    (store : KeyValueStore) :
    RemoveOutcome environment key store.view
      (store.removeSection environment key).1.view
      (store.removeSection environment key).2 := by
  unfold removeSection
  cases hfound : store.index.lookup key with
  | none =>
      rw [find_missing hfound]
      exact .missing hfound
  | some metadata =>
      cases hexpired : isExpired metadata.expiresAtMs environment.nowMs with
      | true =>
          rw [find_expired hfound hexpired]
          have houtcome : RemoveOutcome environment key store.view
              { store.view with
                index := store.view.index.erase key
                cache := store.view.cache.erase key }
              (.notFound "key has expired") :=
            .expired metadata hfound hexpired
          exact houtcome
      | false =>
          rw [find_live hfound hexpired]
          obtain ⟨result, happended, hstatus⟩ :=
            AppendOnlyStore.appendDelete_cases environment.openAnswers
              environment.append key store.storage
          generalize store.storage.appendDelete environment.openAnswers
            environment.append key = appended at happended hstatus ⊢
          obtain ⟨storage, status⟩ := appended
          dsimp only at happended hstatus
          generalize hbytes : storage.bytes = data at happended
          generalize hpending : storage.pending = held at happended
          subst hstatus
          cases result with
          | error status =>
              have hfailed : AppendFailed environment (deleteRecord key)
                  store.view { store.view with bytes := data, pending := held }
                  status := .of_appended happended
              simp only [view, hbytes, hpending, hfailed.ok_eq,
                Bool.false_eq_true, if_false]
              exact .failed metadata hfound hexpired hfailed
          | ok metadata =>
              cases happended with
              | written hvalid hfault hdrain =>
                  simp only [view, hbytes, hpending, Status.ok_success, if_true]
                  exact .removed _ hfound hexpired hvalid hfault hdrain

theorem removeSection_faultless (hopenAnswers : environment.openAnswers = {})
    (happend : environment.append = {}) (hvalid : (deleteRecord key).Valid)
    {metadata : RecordMetadata}
    (hfound : store.index.lookup key = some metadata)
    (hlive : isExpired metadata.expiresAtMs environment.nowMs = false) :
    (store.removeSection environment key).2 = .success := by
  have happended := AppendOnlyStore.appendRecordLocked_faultless hvalid
    store.storage
  rw [removeSection, find_live hfound hlive, hopenAnswers, happend,
    AppendOnlyStore.appendDelete, happended]
  rfl

theorem opened_removeSection (environment : Environment) (key : Bytes)
    (store : KeyValueStore) :
    (store.removeSection environment key).1.opened = store.opened := by
  unfold removeSection dropExpired
  dsimp only
  repeat' split
  all_goals rfl

/-! ## Purge and listing -/

theorem mem_expiredAt (environment : Environment) (store : KeyValueStore)
    (key : Bytes) :
    key ∈ store.expiredAt environment ↔ ∃ metadata,
      store.view.index.lookup key = some metadata ∧
        isExpired metadata.expiresAtMs environment.nowMs = true := by
  rw [expiredAt, List.mem_filter,
    (environment.hashOrder store.index).mem_keys]
  change _ ↔ ∃ metadata, store.index.lookup key = some metadata ∧ _
  cases store.index.lookup key <;> simp

theorem upkeep_purgeExpired (environment : Environment)
    (store : KeyValueStore) :
    Upkeep environment.nowMs store.view
      (store.purgeExpired environment).view :=
  .purged store.view _ (store.mem_expiredAt environment)

/-- What is left after a purge is unexpired at its reading. -/
theorem lookup_purgeExpired (environment : Environment)
    (store : KeyValueStore) (key : Bytes) (metadata : RecordMetadata) :
    (store.purgeExpired environment).index.lookup key = some metadata ↔
      store.index.lookup key = some metadata ∧
        isExpired metadata.expiresAtMs environment.nowMs = false := by
  rw [purgeExpired]
  simp [Option.filter_eq_some_iff]

theorem mem_listKeys (environment : Environment) (start key : Bytes)
    (store : KeyValueStore) :
    key ∈ store.listKeys environment start ↔
      (store.index.lookup key).isSome ∧ startsWith start key = true := by
  rw [listKeys, List.mem_insertionSort, List.mem_filter,
    (environment.hashOrder store.index).mem_keys]

theorem pairwise_listKeys (environment : Environment) (start : Bytes)
    (store : KeyValueStore) :
    (store.listKeys environment start).Pairwise (· < ·) := by
  have hsorted : (store.listKeys environment start).Pairwise (· ≤ ·) :=
    List.pairwise_insertionSort _ _
  have hnodup : (store.listKeys environment start).Nodup := by
    rw [listKeys, (List.perm_insertionSort _ _).nodup_iff]
    exact (environment.hashOrder store.index).nodup.filter _
  exact (hsorted.and hnodup).imp fun hpair => lt_of_le_of_ne hpair.1 hpair.2

/-! ## The checks -/

theorem validateKey_ok_iff (key : Bytes) :
    (validateKey key).ok = true ↔
      key ≠ [] ∧ key.length ≤ kMaximumKeySize := by
  unfold validateKey
  split
  next hnil => simp [hnil]
  next hkey =>
    split
    next hlong => simp [Nat.not_le.mpr hlong]
    next hshort => simp [hkey, Nat.not_lt.mp hshort]

theorem validateValue_ok_iff (value : Bytes) :
    (validateValue value).ok = true ↔ value.length ≤ kMaximumValueSize := by
  unfold validateValue
  split
  next hlong => simp [Nat.not_le.mpr hlong]
  next hshort => simp [Nat.not_lt.mp hshort]

/-- The keys and values that pass the checks make valid records. -/
theorem valid_setRecord {key value : Bytes}
    (hkey : (validateKey key).ok = true)
    (hvalue : (validateValue value).ok = true) (expiresAtMs : Int64) :
    (⟨.set, key, value, expiresAtMs⟩ : Record).Valid where
  key_ne_nil := ((validateKey_ok_iff key).mp hkey).1
  key_size := ((validateKey_ok_iff key).mp hkey).2
  value_size := (validateValue_ok_iff value).mp hvalue
  delete_value hdelete := by cases hdelete

theorem valid_of_validateSet {key value : Bytes} {ttl : Option Int64}
    (hvalidates : (validateSet key value ttl).ok = true)
    (expiresAtMs : Int64) :
    (⟨.set, key, value, expiresAtMs⟩ : Record).Valid := by
  unfold validateSet at hvalidates
  split at hvalidates
  next hkey =>
    split at hvalidates
    next hvalue => exact valid_setRecord hkey hvalue expiresAtMs
    next hvalue => exact absurd hvalidates hvalue
  next hkey => exact absurd hvalidates hkey

theorem valid_deleteRecord {key : Bytes}
    (hkey : (validateKey key).ok = true) : (deleteRecord key).Valid where
  key_ne_nil := ((validateKey_ok_iff key).mp hkey).1
  key_size := ((validateKey_ok_iff key).mp hkey).2
  value_size := Nat.zero_le _
  delete_value _ := rfl

end KeyValueStore

end MiniKV
