import MiniKV.Store.Runs

/-!
# The codes of failures

Each layer of the store fails with a few codes only, and never with the code of
success.  A `Result` is therefore `ok` exactly when it carries a value, and a
caller that tests `ok` first never meets the exception of `ensureValue`.  The
one exception that a call lets through is that of `std::filesystem::exists`,
under an opening of the data file.
-/

namespace MiniKV

/-- This status has one of these codes, or it stands for an exception, which is
there where `throws` holds only. -/
def Status.Fails (throws : Prop) (codes : List StatusCode) (status : Status) :
    Prop :=
  status.code ∈ codes ∨ status.code = .thrown ∧ throws

theorem Status.Fails.mono {throws mayThrow : Prop}
    {codes more : List StatusCode} {status : Status}
    (hfails : status.Fails throws codes) (hmore : codes ⊆ more)
    (hthrows : throws → mayThrow) : status.Fails mayThrow more :=
  hfails.imp (fun hcode => hmore hcode) (And.imp_right hthrows)

/-- A result that is a value or fails with one of these codes. -/
def FailsWith {T : Type} (throws : Prop) (codes : List StatusCode) :
    Result T → Prop
  | .ok _ => True
  | .error status => status.Fails throws codes

@[simp]
theorem failsWith_ok {T : Type} (throws : Prop) (codes : List StatusCode)
    (value : T) : FailsWith throws codes (.ok value) := trivial

@[simp]
theorem failsWith_error {T : Type} (throws : Prop) (codes : List StatusCode)
    (status : Status) :
    FailsWith throws codes (.error status : Result T) ↔
      status.Fails throws codes := Iff.rfl

theorem FailsWith.mono {T : Type} {throws mayThrow : Prop}
    {codes more : List StatusCode} {result : Result T}
    (hfails : FailsWith throws codes result) (hmore : codes ⊆ more)
    (hthrows : throws → mayThrow) : FailsWith mayThrow more result := by
  cases result with
  | ok value => trivial
  | error status => exact Status.Fails.mono hfails hmore hthrows

/-- A status that is success or fails with one of these codes. -/
def Status.Among (throws : Prop) (codes : List StatusCode) (status : Status) :
    Prop :=
  status = .success ∨ status.Fails throws codes

theorem Status.Among.mono {throws mayThrow : Prop}
    {codes more : List StatusCode} {status : Status}
    (hamong : status.Among throws codes) (hmore : codes ⊆ more)
    (hthrows : throws → mayThrow) : status.Among mayThrow more :=
  hamong.imp_right fun hfails => hfails.mono hmore hthrows

theorem Status.ok_eq_true_iff (status : Status) :
    status.ok = true ↔ status.code = .ok := by
  rw [ok, beq_iff_eq]

/-- `std::filesystem::exists` throws under this opening. -/
def OpenAnswers.Throws (answers : OpenAnswers) : Prop :=
  answers.fileExists ≠ none

theorem OpenAnswers.Fails.fails {answers : OpenAnswers} {status : Status}
    (hfails : answers.Fails status) {throws : Prop} {codes : List StatusCode}
    (hioError : .ioError ∈ codes) (hthrows : answers.Throws → throws) :
    status.Fails throws codes :=
  hfails.imp (fun hcode => by rwa [hcode]) (And.imp_right hthrows)

/-! ## The append-only file -/

namespace AppendOnlyStore

variable {store : AppendOnlyStore}

/-- Opening the stream succeeds or fails with an I/O error or the exception. -/
theorem among_ensureOpenLocked (answers : OpenAnswers)
    (store : AppendOnlyStore) :
    (store.ensureOpenLocked answers).2.Among answers.Throws [.ioError] := by
  by_cases hopens : (store.ensureOpenLocked answers).2.ok = true
  · left
    unfold ensureOpenLocked at hopens ⊢
    repeat' split
    all_goals first | rfl | simp_all
  · exact Or.inr ((fails_ensureOpenLocked _ hopens).fails
      (List.mem_singleton_self _) id)

theorem failsWith_writeRecord (fault : Option Torn) (output : Bytes)
    (record : Record) (recordOffset : ℕ) :
    FailsWith False [.invalidArgument, .ioError]
      (writeRecord fault output record recordOffset).2 := by
  unfold writeRecord
  repeat' split
  all_goals simp [Status.Fails, Status.invalidArgument, Status.ioError]

theorem failsWith_appendRecordLocked (openAnswers : OpenAnswers)
    (answers : AppendAnswers) (record : Record) (store : AppendOnlyStore) :
    FailsWith openAnswers.Throws [.invalidArgument, .ioError]
      (store.appendRecordLocked openAnswers answers record).2 := by
  unfold appendRecordLocked
  dsimp only
  split
  · split
    · generalize ((store.ensureOpenLocked openAnswers).1.drain
        answers.drain).1 = sought
      have hwrite := failsWith_writeRecord answers.write sought.bytes record
        sought.bytes.length
      split
      next heq =>
        rw [heq] at hwrite
        exact hwrite.mono (List.Subset.refl _) False.elim
      next heq =>
        split
        · simp [Status.Fails, Status.ioError]
        · trivial
    · simp [Status.Fails, Status.ioError]
  next hfailed => exact (fails_ensureOpenLocked _ hfailed).fails (by simp) id

theorem failsWith_readValue (openAnswers : OpenAnswers)
    (answers : ReadAnswers) (metadata : RecordMetadata)
    (store : AppendOnlyStore) :
    FailsWith openAnswers.Throws [.ioError, .corruption]
      (store.readValue openAnswers answers metadata).2 := by
  unfold readValue
  dsimp only
  split
  · split
    · cases answers.short <;> dsimp only <;> split
      all_goals simp [Status.Fails, Status.corruption]
    · simp [Status.Fails, Status.ioError]
  next hfailed => exact (fails_ensureOpenLocked _ hfailed).fails (by simp) id

theorem failsWith_scanRecord (answers : RecoverAnswers) (file : Bytes)
    (position : ℕ) :
    FailsWith False [.ioError, .corruption]
      (scanRecord answers file position) := by
  unfold scanRecord
  dsimp only
  repeat' split
  all_goals simp [Status.Fails, Status.ioError, Status.corruption]

theorem failsWith_scan (answers : RecoverAnswers) (nowMs : Int64)
    (file : Bytes) (position : ℕ) (state : RecoveryState) :
    FailsWith False [.ioError, .corruption]
      (scan answers nowMs file position state) := by
  induction position, state using scan.induct answers nowMs file with
  | case1 position state hinside status herror =>
      have hrecord := failsWith_scanRecord answers file position
      rw [scan, if_pos hinside, herror]
      rwa [herror] at hrecord
  | case2 position state hinside htail =>
      rw [scan, if_pos hinside, htail]
      trivial
  | case3 position state hinside header key value hfound ih =>
      rw [scan, if_pos hinside, hfound]
      exact ih
  | case4 position state hend =>
      rw [scan, if_neg hend]
      trivial

theorem failsWith_recover (openAnswers : OpenAnswers)
    (answers : RecoverAnswers) (nowMs : Int64) (store : AppendOnlyStore) :
    FailsWith (openAnswers.Throws ∨ answers.reopen.Throws)
      [.ioError, .corruption]
      (store.recover openAnswers answers nowMs).2 := by
  unfold recover
  dsimp only
  split
  · split
    · simp [Status.Fails, Status.ioError]
    · generalize (store.ensureOpenLocked openAnswers).1 = opened
      have hscan := failsWith_scan
        (answers.behindSeek (opened.drain answers.drain).2) nowMs opened.bytes
        0 ⟨.empty, 0, 0⟩
      split
      next heq =>
        rw [heq] at hscan
        exact hscan.mono (List.Subset.refl _) False.elim
      · split
        · split
          · simp [Status.Fails, Status.ioError]
          · split
            · trivial
            next hfailed =>
              exact (fails_ensureOpenLocked _ hfailed).fails (by simp) Or.inr
        · trivial
  next hfailed =>
    exact (fails_ensureOpenLocked _ hfailed).fails (by simp) Or.inl

section Rewrite

variable {codes : List StatusCode} {records : List Record}
variable (hwrite : ∀ record ∈ records, ∀ fault output recordOffset,
  FailsWith False codes (writeRecord fault output record recordOffset).2)

include hwrite

theorem failsWith_writeLiveRecords (works : ℕ → Bool) (number : ℕ)
    (output : Bytes) (offset : ℕ) (index : Index) :
    FailsWith False codes
      (writeLiveRecords works records number output offset index) := by
  induction records generalizing number output offset index with
  | nil => trivial
  | cons record records ih =>
      rw [List.forall_mem_cons] at hwrite
      have hfirst := hwrite.1 (if works number then none else some ⟨0, 0⟩)
        output offset
      rw [writeLiveRecords]
      split
      next heq => rwa [heq] at hfirst
      · exact ih hwrite.2 _ _ _ _

/-- A compaction fails as one of its records does, or with an I/O error. -/
theorem failsWith_compact (hioError : .ioError ∈ codes)
    (openAnswers : OpenAnswers) (answers : CompactAnswers)
    (store : AppendOnlyStore) :
    FailsWith (openAnswers.Throws ∨ answers.reopen.Throws) codes
      (store.compact openAnswers answers records).2 := by
  have hrecords := failsWith_writeLiveRecords hwrite answers.write 0 [] 0
    .empty
  unfold compact
  dsimp only
  split
  · split
    · exact Or.inl hioError
    · split
      · split
        next heq =>
          rw [heq] at hrecords
          exact hrecords.mono (List.Subset.refl _) False.elim
        · split
          · split
            · split
              · exact Or.inl hioError
              next hfailed =>
                exact (fails_ensureOpenLocked _ hfailed).fails hioError Or.inr
            · split
              · trivial
              next hfailed =>
                exact (fails_ensureOpenLocked _ hfailed).fails hioError Or.inr
          · exact Or.inl hioError
      · exact Or.inl hioError
  next hfailed =>
    exact (fails_ensureOpenLocked _ hfailed).fails hioError Or.inl

end Rewrite

end AppendOnlyStore

namespace KeyValueStore

variable {environment : Environment} {store : KeyValueStore}

/-! ## The calls of the store -/

theorem among_validateKey (key : Bytes) :
    (validateKey key).Among False [.invalidArgument] := by
  unfold validateKey
  repeat' split
  all_goals simp [Status.Among, Status.Fails, Status.invalidArgument]

theorem among_validateSet (key value : Bytes) (ttl : Option Int64) :
    (validateSet key value ttl).Among False [.invalidArgument] := by
  unfold validateSet
  split
  · split
    · split
      all_goals simp [Status.Among, Status.Fails, Status.invalidArgument]
    · unfold validateValue
      split
      all_goals simp [Status.Among, Status.Fails, Status.invalidArgument]
  · exact among_validateKey key

theorem among_set (environment : Environment) (key value : Bytes)
    (ttl : Option Int64) (store : KeyValueStore) :
    (store.set environment key value ttl).2.Among
      environment.openAnswers.Throws [.closed, .invalidArgument, .ioError] := by
  unfold set
  split
  next hopened =>
    split
    · have happend := AppendOnlyStore.failsWith_appendRecordLocked
        environment.openAnswers environment.append
        ⟨.set, key, value, deadline environment.nowMs ttl⟩ store.storage
      rw [← AppendOnlyStore.appendSet] at happend
      rw [setSection, if_pos hopened]
      split
      next heq =>
        rw [heq] at happend
        exact Or.inr (Status.Fails.mono happend (by simp) id)
      · exact Or.inl rfl
    · exact (among_validateSet key value ttl).mono (by simp) False.elim
  · exact Or.inr (Or.inl List.mem_cons_self)

theorem failsWith_readStored (environment : Environment) (key : Bytes)
    (metadata : RecordMetadata) (store : KeyValueStore) :
    FailsWith environment.openAnswers.Throws [.ioError, .corruption]
      (store.readStored environment key metadata).2 :=
  AppendOnlyStore.failsWith_readValue environment.openAnswers
    (environment.read key) metadata store.storage

theorem failsWith_getLive (environment : Environment) (key : Bytes)
    (metadata : RecordMetadata) (store : KeyValueStore) :
    FailsWith environment.openAnswers.Throws [.ioError, .corruption]
      (store.getLive environment key metadata).2 := by
  unfold getLive
  split
  · trivial
  next looked _ =>
    have hread := failsWith_readStored environment key metadata looked
    split
    next heq => rwa [heq] at hread
    · trivial

/-- What the codes of a call on a key are when it is not turned away. -/
theorem failsWith_get (environment : Environment) (key : Bytes)
    (store : KeyValueStore) :
    FailsWith environment.openAnswers.Throws
      [.closed, .invalidArgument, .notFound, .ioError, .corruption]
      (store.get environment key).2 := by
  unfold get
  split
  · split
    · dsimp only
      split
      · simp [Status.Fails, Status.notFound]
      · simp [Status.Fails, Status.notFound]
      · exact (failsWith_getLive environment key _ _).mono (by simp) id
    next hrejected =>
      rcases among_validateKey key with hsuccess | hfails
      · rw [hsuccess] at hrejected
        exact absurd Status.ok_success hrejected
      · exact hfails.mono (by simp) False.elim
  · simp [Status.Fails, Status.closed]

theorem failsWith_keyExists (environment : Environment) (key : Bytes)
    (store : KeyValueStore) :
    FailsWith environment.openAnswers.Throws
      [.closed, .invalidArgument, .ioError, .corruption]
      (store.keyExists environment key).2 := by
  have hget := failsWith_get environment key store
  unfold keyExists
  split
  · trivial
  next status heq =>
    rw [heq, failsWith_error] at hget
    split
    · trivial
    next hother => simpa [Status.Fails, hother] using hget

theorem among_remove (environment : Environment) (key : Bytes)
    (store : KeyValueStore) :
    (store.remove environment key).2.Among environment.openAnswers.Throws
      [.closed, .invalidArgument, .notFound, .ioError] := by
  unfold remove
  split
  · split
    · unfold removeSection
      split
      · simp [Status.Among, Status.Fails, Status.notFound]
      · simp [Status.Among, Status.Fails, Status.notFound]
      · have happend := AppendOnlyStore.failsWith_appendRecordLocked
          environment.openAnswers environment.append ⟨.delete, key, [], 0⟩
          store.storage
        dsimp only
        split
        · exact Or.inl rfl
        next hfailed =>
          unfold AppendOnlyStore.appendDelete at hfailed ⊢
          split
          next heq =>
            rw [heq] at hfailed
            exact absurd Status.ok_success hfailed
          next heq =>
            rw [heq] at happend
            exact Or.inr (Status.Fails.mono happend (by simp) id)
    · exact (among_validateKey key).mono (by simp) False.elim
  · exact Or.inr (Or.inl List.mem_cons_self)

theorem failsWith_readLiveRecords (environment : Environment)
    (keys : List Bytes) (store : KeyValueStore) :
    FailsWith environment.openAnswers.Throws [.ioError, .corruption]
      (store.readLiveRecords environment keys).2 := by
  induction keys generalizing store with
  | nil => trivial
  | cons key keys ih =>
      rw [readLiveRecords]
      split
      · exact ih store
      next metadata _ =>
        have hread := failsWith_readStored environment key metadata store
        split
        next heq => rwa [heq] at hread
        next read _ _ =>
          have hrest := ih read
          split
          next heq => rwa [heq] at hrest
          · trivial

theorem failsWith_compact (environment : Environment)
    (store : KeyValueStore) :
    FailsWith (environment.openAnswers.Throws ∨
        environment.compact.reopen.Throws)
      [.closed, .invalidArgument, .ioError, .corruption]
      (store.compact environment).2 := by
  unfold compact
  split
  · rw [compactSection_eq_rewriteLive]
    have hrewrite : FailsWith (environment.openAnswers.Throws ∨
          environment.compact.reopen.Throws)
        [.invalidArgument, .ioError, .corruption]
        ((store.purgeExpired environment).rewriteLive environment).2 := by
      have hread := failsWith_readLiveRecords environment
        (environment.hashOrder (store.purgeExpired environment).index).keys
        (store.purgeExpired environment)
      unfold rewriteLive
      split
      next heq =>
        rw [heq] at hread
        exact hread.mono (by simp) Or.inl
      next records _ =>
        have hwrite : ∀ record ∈ sortRecords records,
            ∀ fault output recordOffset,
              FailsWith False [.invalidArgument, .ioError]
                (AppendOnlyStore.writeRecord fault output record
                  recordOffset).2 :=
          fun record _ fault output =>
            AppendOnlyStore.failsWith_writeRecord fault output record
        exact (AppendOnlyStore.failsWith_compact hwrite (by simp) _ _ _).mono
          (by simp) id
    generalize (store.purgeExpired environment).rewriteLive environment =
      rewrite at hrewrite ⊢
    obtain ⟨rewritten, result⟩ := rewrite
    cases result with
    | error status => exact Status.Fails.mono hrewrite (by simp) id
    | ok state => trivial
  · simp [Status.Fails, Status.closed]

theorem among_openStore (environment : Environment) (store : KeyValueStore) :
    (store.openStore environment).2.Among
      (environment.openAnswers.Throws ∨ environment.recover.reopen.Throws)
      [.invalidArgument, .ioError, .corruption] := by
  unfold openStore
  split
  · exact Or.inl rfl
  split
  · exact Or.inr (Or.inl List.mem_cons_self)
  dsimp only
  split
  · have hrecover := AppendOnlyStore.failsWith_recover environment.openAnswers
      environment.recover environment.nowMs
      (store.storage.openFile environment.openAnswers).1
    split
    next heq =>
      rw [heq] at hrecover
      exact Or.inr (Status.Fails.mono hrecover (by simp) id)
    · split
      · split
        · exact Or.inl rfl
        · simp [Status.Among, Status.Fails, Status.ioError]
      · exact Or.inl rfl
  · have hopens := AppendOnlyStore.among_ensureOpenLocked
      environment.openAnswers store.storage
    exact hopens.mono (by simp) Or.inl

theorem close_status (store : KeyValueStore) : store.close.2 = .success := by
  unfold close
  split <;> rfl

end KeyValueStore

/-! ## All calls -/

/-- The codes with which a call can fail. -/
def Call.codes : Call → List StatusCode
  | .set _ _ _ => [.closed, .invalidArgument, .ioError]
  | .get _ => [.closed, .invalidArgument, .notFound, .ioError, .corruption]
  | .keyExists _ => [.closed, .invalidArgument, .ioError, .corruption]
  | .remove _ => [.closed, .invalidArgument, .notFound, .ioError]
  | .keys _ => [.closed]
  | .cleanupExpired => []
  | .compact => [.closed, .invalidArgument, .ioError, .corruption]
  | .openStore => [.invalidArgument, .ioError, .corruption]
  | .close => []

/-- A call ends with an exception only where `std::filesystem::exists` throws
under one of its openings of the data file. -/
def Request.Throws (request : Request) : Prop :=
  match request.call with
  | .set _ _ _ | .get _ | .keyExists _ | .remove _ =>
      request.environment.openAnswers.Throws
  | .compact =>
      request.environment.openAnswers.Throws ∨
        request.environment.compact.reopen.Throws
  | .openStore =>
      request.environment.openAnswers.Throws ∨
        request.environment.recover.reopen.Throws
  | .keys _ | .cleanupExpired | .close => False

/-- A result whose status tells whether it has a value, so that `take` throws
behind no successful test of `ok`. -/
def Guarded {T : Type} (result : Result T) : Prop :=
  (StoredResult.ofResult result).ok = true ↔
    ∃ value, (StoredResult.ofResult result).take = .ok value

/-- What a reply says about a failure of its call. -/
structure Reply.Tells (throws : Prop) (codes : List StatusCode)
    (reply : Reply) : Prop where
  status : ∀ status, reply = .status status → status.Among throws codes
  value : ∀ result, reply = .value result →
    FailsWith throws codes result ∧ Guarded result
  flag : ∀ result, reply = .flag result →
    FailsWith throws codes result ∧ Guarded result
  listing : ∀ result, reply = .listing result →
    FailsWith throws codes result ∧ Guarded result
  summary : ∀ result, reply = .summary result →
    FailsWith throws codes result ∧ Guarded result

theorem Call.ok_not_mem_codes (call : Call) : .ok ∉ call.codes := by
  cases call <;> simp [codes]

/-- A failure with another code than that of success is not mistaken for a
value. -/
theorem FailsWith.guarded {T : Type} {throws : Prop} {codes : List StatusCode}
    {result : Result T} (hfails : FailsWith throws codes result)
    (hcodes : .ok ∉ codes) : Guarded result := by
  cases result with
  | ok value => exact ⟨fun _ => ⟨value, rfl⟩, fun _ => rfl⟩
  | error status =>
      have hstatus : status.ok = false := by
        rw [← Bool.not_eq_true, Status.ok_eq_true_iff]
        intro hcode
        rcases hfails with hamong | ⟨hthrown, -⟩
        · exact hcodes (hcode ▸ hamong)
        · rw [hcode] at hthrown
          cases hthrown
      constructor
      · intro hok
        exact absurd (hstatus.symm.trans hok) Bool.false_ne_true
      · rintro ⟨value, htake⟩
        rw [StoredResult.take] at htake
        split at htake
        next hvalue => cases hvalue
        · cases htake

namespace KeyValueStore

/-- Whatever a call finds and whatever fails under it, it fails with a code of
its own, or with the exception of `std::filesystem::exists`. -/
theorem tells_perform (request : Request) (store : KeyValueStore) :
    (store.perform request).2.Tells request.Throws request.call.codes := by
  have hguarded : ∀ {T : Type} {result : Result T},
      FailsWith request.Throws request.call.codes result →
      FailsWith request.Throws request.call.codes result ∧ Guarded result :=
    fun hfails => ⟨hfails, hfails.guarded request.call.ok_not_mem_codes⟩
  obtain ⟨environment, call⟩ := request
  cases call with
  | set key value ttl =>
      refine ⟨?_, nofun, nofun, nofun, nofun⟩
      rintro _ ⟨⟩
      exact among_set environment key value ttl store
  | get key =>
      refine ⟨nofun, ?_, nofun, nofun, nofun⟩
      rintro _ ⟨⟩
      exact hguarded (failsWith_get environment key store)
  | keyExists key =>
      refine ⟨nofun, nofun, ?_, nofun, nofun⟩
      rintro _ ⟨⟩
      exact hguarded (failsWith_keyExists environment key store)
  | remove key =>
      refine ⟨?_, nofun, nofun, nofun, nofun⟩
      rintro _ ⟨⟩
      exact among_remove environment key store
  | keys start =>
      refine ⟨nofun, nofun, nofun, ?_, nofun⟩
      rintro _ ⟨⟩
      apply hguarded
      unfold keys
      split
      · trivial
      · exact Or.inl (List.mem_singleton_self _)
  | cleanupExpired => exact ⟨nofun, nofun, nofun, nofun, nofun⟩
  | compact =>
      refine ⟨nofun, nofun, nofun, nofun, ?_⟩
      rintro _ ⟨⟩
      exact hguarded (failsWith_compact environment store)
  | openStore =>
      refine ⟨?_, nofun, nofun, nofun, nofun⟩
      rintro _ ⟨⟩
      exact among_openStore environment store
  | close =>
      refine ⟨?_, nofun, nofun, nofun, nofun⟩
      rintro _ ⟨⟩
      exact Or.inl (close_status store)

end KeyValueStore

end MiniKV
