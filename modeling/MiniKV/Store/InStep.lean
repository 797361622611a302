import MiniKV.Recovery.Faults
import MiniKV.Store.Acknowledged

/-!
# A log that stands for a view

A restart shows what the log stores, and the running store what its view shows.
A failing append changes nothing in memory and is taken back neither from the
file nor from the put area, so the two stay together only as long as what comes
into the file is harmless: the end of the file stays an unfinished tail, or a
record comes in that says what the store shows anyway.
-/

namespace MiniKV

open AppendOnlyStore (recordBytes drained)

/-- A record that is cut short is an unfinished tail. -/
theorem unfinishedTail_take {record : Record} (hvalid : record.Valid)
    {left : ℕ} (hcut : left < (recordBytes record).length) :
    UnfinishedTail ((recordBytes record).take left) := by
  rw [← head_eq_incomplete_iff, ← LogEntry.image_ofRecord record hvalid]
  rw [← LogEntry.image_ofRecord record hvalid] at hcut
  apply logFormat.head_cut (List.take_prefix _ _)
  intro hwhole
  have hlength := congrArg List.length hwhole
  rw [List.length_take] at hlength
  exact absurd hcut (by change ¬ left < (logFormat.image _).length; omega)

/-- When what a log stores under a key may stand for what a view shows under it,
at this reading and from then on. -/
abbrev Standing :=
  Int64 → Option (Bytes × Int64) → Option (Bytes × Int64) → Prop

/-- What is stored stands for itself, and forgetting what has expired is
allowed. -/
structure Standing.Lawful (stands : Standing) : Prop where
  refl : ∀ nowMs stored, stands nowMs stored stored
  forget : ∀ {nowMs stored value expiresAtMs},
    stands nowMs stored (some (value, expiresAtMs)) →
    isExpired expiresAtMs nowMs = true → stands nowMs stored none

namespace View

variable {stands : Standing}

/-- The record stores what the view shows under its key. -/
def Says (stands : Standing) (nowMs : Int64) (view : View) (record : Record) :
    Prop :=
  stands nowMs record.stored (view.contents record.key)

/-- Bytes behind the file that change nothing a restart shows. -/
def Harmless (stands : Standing) (nowMs : Int64) (view : View) (rest : Bytes) :
    Prop :=
  rest ≠ [] →
    (∃ entries tail, LogWithTail entries tail view.bytes ∧
      UnfinishedTail (tail ++ rest)) ∨
    (WholeLog view.bytes ∧ ∃ record, record.Valid ∧
      rest = recordBytes record ∧ view.Says stands nowMs record)

theorem Harmless.nil {nowMs : Int64} {view : View} :
    view.Harmless stands nowMs [] :=
  fun hne => absurd rfl hne

/-- The log in the file stands for the view. -/
structure InStep (stands : Standing) (nowMs : Int64) (view : View) : Prop where
  coherent : view.Coherent
  log : ∃ entries tail, LogWithTail entries tail view.bytes ∧
    ∀ key, stands nowMs (ledgerOf entries key) (view.contents key)

namespace InStep

variable {nowMs : Int64} {view later : View}

theorem mono {laterMs : Int64} (hinStep : InStep stands nowMs view)
    (hlater : ∀ stored shown, stands nowMs stored shown →
      stands laterMs stored shown) : InStep stands laterMs view := by
  obtain ⟨hcoherent, entries, tail, hlog, hshows⟩ := hinStep
  exact ⟨hcoherent, entries, tail, hlog, fun key => hlater _ _ (hshows key)⟩

theorem ofLog (hlawful : stands.Lawful) (nowMs : Int64)
    (entries : List LogEntry) (cache : LruCache Bytes Bytes) :
    InStep stands nowMs (View.ofLog nowMs entries cache) where
  coherent := coherent_ofLog nowMs entries cache
  log := by
    refine ⟨entries, [], logWithTail_imageAll entries, fun key => ?_⟩
    rcases tracks_ofLog nowMs entries cache key with
      hsame | ⟨hnone, value, expiresAtMs, hstored, hexpired⟩
    · rw [hsame]
      exact hlawful.refl nowMs _
    · rw [hnone]
      rw [hstored]
      exact hlawful.forget (hlawful.refl nowMs _) hexpired

/-- Harmless bytes, and a view that shows the same or less. -/
theorem of_shown (hinStep : InStep stands nowMs view) {rest : Bytes}
    (hharmless : view.Harmless stands nowMs rest) (hcoherent : later.Coherent)
    (hbytes : later.bytes = view.bytes ++ rest)
    (hshown : ∀ stored key, stands nowMs stored (view.contents key) →
      stands nowMs stored (later.contents key)) :
    InStep stands nowMs later := by
  obtain ⟨-, entries, tail, hlog, hstands⟩ := hinStep
  refine ⟨hcoherent, ?_⟩
  rw [hbytes]
  clear hbytes hcoherent
  by_cases hnothing : rest = []
  · rw [hnothing, List.append_nil]
    exact ⟨entries, tail, hlog, fun key => hshown _ key (hstands key)⟩
  rcases hharmless hnothing with
    ⟨others, remains, hothers, hunfinished⟩ |
    ⟨hwhole, record, hvalid, hrest, hsays⟩
  · obtain ⟨rfl, rfl⟩ := hothers.unique hlog
    exact ⟨others, remains ++ rest, hlog.append hunfinished,
      fun key => hshown _ key (hstands key)⟩
  · have hgrown := logWithTail_imageAll (entries ++ [.ofRecord record hvalid])
    rw [imageAll_concat_ofRecord, ← hwhole.eq_imageAll hlog, ← hrest] at hgrown
    refine ⟨_, [], hgrown, fun key => hshown _ key ?_⟩
    rw [ledgerOf_concat]
    by_cases hkey : record.key = key
    · rw [if_pos hkey, ← hkey]
      exact hsays
    · rw [if_neg hkey]
      exact hstands key

theorem stray (hinStep : InStep stands nowMs view) {rest : Bytes}
    (hharmless : view.Harmless stands nowMs rest) (held : Bytes) :
    InStep stands nowMs
      { view with bytes := view.bytes ++ rest, pending := held } := by
  refine hinStep.of_shown hharmless (hinStep.coherent.stray rest held) rfl ?_
  intro stored key hstands
  rwa [contents_stray hinStep.coherent]

/-- Upkeep that leaves the file but for harmless bytes. -/
theorem upkeeps (hlawful : stands.Lawful) (hinStep : InStep stands nowMs view)
    (hupkeeps : Upkeeps nowMs view later) {rest : Bytes}
    (hbytes : later.bytes = view.bytes ++ rest)
    (hharmless : view.Harmless stands nowMs rest) :
    InStep stands nowMs later := by
  refine hinStep.of_shown hharmless (hinStep.coherent.upkeeps hupkeeps) hbytes ?_
  intro stored key hstands
  have hcoherent := hinStep.coherent
  clear hharmless hbytes hinStep
  induction hupkeeps with
  | refl => exact hstands
  | tail hearlier hlast ih =>
      rcases contents_upkeep (hcoherent.upkeeps hearlier) hlast key with
        hsame | ⟨hgone, value, expiresAtMs, hcontents, hexpired⟩
      · rwa [hsame]
      · rw [hgone]
        rw [hcontents] at ih
        exact hlawful.forget ih hexpired

/-- A record behind a whole log makes good what the log said under its key. -/
theorem afterRecord (hlawful : stands.Lawful) (hcoherent : view.Coherent)
    {entries : List LogEntry} (hbytes : view.bytes = logFormat.imageAll entries)
    {record : Record} (hstands : ∀ key, record.key ≠ key →
      stands nowMs (ledgerOf entries key) (view.contents key))
    (hvalid : record.Valid) :
    InStep stands nowMs (view.afterRecord record hvalid) := by
  have hgrown := logWithTail_imageAll (entries ++ [.ofRecord record hvalid])
  rw [imageAll_concat_ofRecord, ← hbytes, ← bytes_afterRecord hvalid] at hgrown
  refine ⟨hcoherent.afterRecord hvalid, _, [], hgrown, fun key => ?_⟩
  rw [contents_afterRecord hvalid hcoherent, ledgerOf_concat]
  by_cases hkey : record.key = key
  · rw [if_pos hkey, ← hkey, Function.update_self]
    exact hlawful.refl nowMs _
  · rw [if_neg hkey, Function.update_of_ne (Ne.symm hkey)]
    exact hstands key hkey

end InStep

end View

namespace KeyValueStore

variable {environment : Environment} {store : KeyValueStore}
variable {request : Request} {nowMs : Int64} {stands : Standing}

/-! ## The condition on a call -/

/-- The faults of the seeks with which a call may write the put area, unless it
appends and its append succeeds. -/
inductive SeeksWith (request : Request) (store : KeyValueStore) :
    Option ℕ → Prop
  | appending (happends : Appends request store)
      (hfails : request.environment.FailsAppend) :
      SeeksWith request store request.environment.append.drain
  | reading (key : Bytes) (metadata : RecordMetadata)
      (hcall : request.call = .get key ∨ request.call = .keyExists key)
      (hlive : store.find request.nowMs key = .live metadata)
      (huncached : (store.cache.get key).2 = none) :
      SeeksWith request store (request.environment.read key).drain
  | compacting (fault : Option ℕ) (hcall : request.call = .compact)
      (hfault : RereadFault request.environment
        (store.purgeExpired request.environment) fault) :
      SeeksWith request store fault

/-- The put area is empty, or it holds a record that says what the store shows,
or that the record of the call replaces. -/
def Overwrites (stands : Standing) (nowMs : Int64) (record : Record)
    (store : KeyValueStore) : Prop :=
  store.storage.pending ≠ [] → WholeLog store.storage.bytes ∧
    ∃ held : Record, held.Valid ∧ store.storage.pending = recordBytes held ∧
      (held.key = record.key ∨ store.view.Says stands nowMs held)

/-- The call keeps the file when it compacts.  What a failing call writes of the
put area and of its own record is harmless, and so is what an opening writes
behind the records that it recovers.  A successful append comes behind whole
records, and the one that it finds in the put area does not matter. -/
structure Contained (stands : Standing) (request : Request)
    (store : KeyValueStore) : Prop where
  keeps : ¬ Loses request store
  seeks : ∀ fault, SeeksWith request store fault →
    store.view.Harmless stands request.nowMs
      (drained fault store.storage.pending)
  fails : Appends request store → Seeks request store → ∀ torn record,
    request.environment.append.fault = some torn →
    request.record = some record →
    store.view.settled.Harmless stands request.nowMs
      (torn.written (recordBytes record))
  succeeds : Appends request store → Seeks request store →
    request.environment.append.fault = none → ∀ record,
    request.record = some record →
    WholeLog (store.storage.bytes ++ store.storage.pending) ∧
      Overwrites stands request.nowMs record store
  opens : request.call = .openStore → ∀ entries,
    store.storage.bytes = logFormat.imageAll entries →
    (View.ofLog request.nowMs entries store.cache).Harmless stands request.nowMs
      (drained request.environment.recover.drain store.storage.pending)

/-! ## Writing calls -/

/-- What a failed append leaves. -/
theorem inStep_failed (hinStep : store.view.InStep stands request.nowMs)
    (hcontained : Contained stands request store) {record : Record}
    (hrecord : request.record = some record)
    (happends : Appends request store) (hvalid : record.Valid)
    {after : View} {status : Status}
    (hfailed : AppendFailed request.environment record store.view after
      status) : after.InStep stands request.nowMs := by
  have hseeks : ∀ fault, fault = request.environment.append.drain →
      request.environment.FailsAppend →
      store.view.Harmless stands request.nowMs
        (drained fault store.storage.pending) := by
    rintro fault rfl hfails
    exact hcontained.seeks _ (.appending happends hfails)
  cases hfailed with
  | unsought rest _ hrest =>
      refine hinStep.stray ?_ store.view.pending
      rcases hrest with rfl | ⟨count, hdrain, rfl⟩
      · exact .nil
      · exact hseeks (some count) hdrain.symm
          (Or.inl (by rw [hdrain]; exact nofun))
  | torn torn _ htorn _ _ hdrain =>
      rcases htorn with ⟨-, hinvalid⟩ | hfault
      · exact absurd hvalid hinvalid
      have hdrains : Seeks request store := hdrain
      have hharmless := hseeks _ rfl (Or.inr (by rw [hfault]; exact nofun))
      rw [drained_of_seeks hdrains] at hharmless
      have hsettled : store.view.settled.InStep stands request.nowMs :=
        hinStep.stray hharmless []
      exact hsettled.stray (hcontained.fails happends hdrains torn record
        hfault hrecord) _

section Lawful

variable (hlawful : stands.Lawful)

include hlawful

/-- What a successful append leaves. -/
theorem inStep_succeeded (hinStep : store.view.InStep stands request.nowMs)
    (hcontained : Contained stands request store) {record : Record}
    (hrecord : request.record = some record)
    (happends : Appends request store) (hvalid : record.Valid)
    (hfault : request.environment.append.fault = none)
    (hdrain : store.storage.pending = [] ∨
      request.environment.append.drain = none) :
    (store.view.settled.afterRecord record hvalid).InStep stands
      request.nowMs := by
  obtain ⟨⟨entries, hentries⟩, hheld⟩ :=
    hcontained.succeeds happends hdrain hfault record hrecord
  obtain ⟨hcoherent, others, tail, hlog, hstands⟩ := hinStep
  have hgrown := logWithTail_imageAll entries
  rw [← hentries] at hgrown
  refine .afterRecord hlawful hcoherent.settled hentries ?_ hvalid
  intro key hother
  rw [View.contents_settled hcoherent]
  by_cases hpending : store.storage.pending = []
  · rw [hpending, List.append_nil] at hgrown
    rw [(hgrown.unique hlog).1]
    exact hstands key
  · obtain ⟨hwhole, held, hrest, hholds, hreplaced⟩ := hheld hpending
    have hbehind := logWithTail_imageAll (others ++ [.ofRecord held hrest])
    rw [imageAll_concat_ofRecord, ← hwhole.eq_imageAll hlog, ← hholds]
      at hbehind
    rw [(hgrown.unique hbehind).1, View.ledgerOf_concat]
    by_cases hkey : held.key = key
    · rw [if_pos hkey]
      rcases hreplaced with hsame | hsays
      · exact absurd (hsame.symm.trans hkey) hother
      · rw [← hkey]
        exact hsays
    · rw [if_neg hkey]
      exact hstands key

theorem inStep_writing (hopened : store.opened = true)
    (hinStep : store.view.InStep stands request.nowMs)
    (hcontained : Contained stands request store) {record : Record}
    (hrecord : request.record = some record) :
    (store.perform request).1.view.InStep stands request.nowMs := by
  have hwritten := written_perform hopened hrecord
  generalize (store.perform request).1 = after at hwritten ⊢
  generalize (store.perform request).2 = reply at hwritten
  cases hwritten with
  | refused status hstatus hbytes hpending hupkeeps =>
      exact hinStep.upkeeps hlawful hupkeeps (hbytes.trans (List.append_nil _).symm)
        View.Harmless.nil
  | failed status happends hvalid hfailed =>
      exact inStep_failed hinStep hcontained hrecord happends hvalid hfailed
  | written happends hvalid hfault hdrain hview =>
      rw [hview]
      exact inStep_succeeded hlawful hinStep hcontained hrecord happends hvalid hfault
        hdrain

/-! ## Every call -/

omit hlawful in
/-- A `get` writes the put area when it reads a value from the file. -/
theorem bytes_get (environment : Environment) (key : Bytes)
    (store : KeyValueStore) :
    (store.get environment key).1.storage.bytes = store.storage.bytes ∨
      ∃ metadata, store.find environment.nowMs key = .live metadata ∧
        (store.cache.get key).2 = none ∧
        (store.get environment key).1.storage.bytes = store.storage.bytes ++
          drained (environment.read key).drain store.storage.pending := by
  rw [get]
  split
  case isFalse => exact Or.inl rfl
  split
  case isFalse => exact Or.inl rfl
  let counted := { store with getOperations := store.getOperations + 1 }
  dsimp only
  split
  · exact Or.inl rfl
  · left
    unfold eraseIfExpired dropExpired
    repeat' split
    all_goals rfl
  next metadata hlive =>
    change counted.find environment.nowMs key = .live metadata at hlive
    rw [getLive]
    cases hcached : (store.cache.get key).2 with
    | some value =>
        left
        rw [lookupCache, hcached]
    | none =>
        let looked := { counted with cache := (store.cache.get key).1 }
        have hread : (looked.readStored environment key metadata).1.storage =
            store.storage.sought environment.openAnswers
              (environment.read key).drain :=
          AppendOnlyStore.fst_readValue _ _ _ _
        have hafter : (store.storage.sought environment.openAnswers
            (environment.read key).drain).bytes = store.storage.bytes ∨
            (store.storage.sought environment.openAnswers
              (environment.read key).drain).bytes = store.storage.bytes ++
              drained (environment.read key).drain store.storage.pending :=
          (AppendOnlyStore.sought_cases _ _ _).imp And.left And.left
        rw [← hread] at hafter
        rw [lookupCache, hcached]
        dsimp only
        change _ ∨ ∃ other, counted.find environment.nowMs key = .live other ∧
          _ ∧ _
        rcases hreading : looked.readStored environment key metadata with
          ⟨read, result⟩
        rw [hreading] at hafter
        refine hafter.imp ?_ fun hbytes => ⟨metadata, hlive, rfl, ?_⟩
        · intro hbytes
          cases result with
          | error status => exact hbytes
          | ok value => exact hbytes
        · cases result with
          | error status => exact hbytes
          | ok value => exact hbytes

theorem inStep_get {key : Bytes}
    (hcall : request.call = .get key ∨ request.call = .keyExists key)
    (hinStep : store.view.InStep stands request.nowMs)
    (hcontained : Contained stands request store) :
    (store.get request.environment key).1.view.InStep stands request.nowMs := by
  have hupkeeps := upkeeps_get request.environment key store
  rcases bytes_get request.environment key store with
    hsame | ⟨metadata, hlive, huncached, hbytes⟩
  · exact hinStep.upkeeps hlawful hupkeeps (hsame.trans (List.append_nil _).symm)
      View.Harmless.nil
  · exact hinStep.upkeeps hlawful hupkeeps hbytes
      (hcontained.seeks _ (.reading key metadata hcall hlive huncached))

theorem inStep_compact (hcall : request.call = .compact)
    (hopened : store.opened = true)
    (hinStep : store.view.InStep stands request.nowMs)
    (hcontained : Contained stands request store) :
    (store.compact request.environment).1.view.InStep stands request.nowMs := by
  have hkeeps : ¬ (store.opened = true ∧ LosesFile request.environment store) :=
    fun hloses => hcontained.keeps ⟨hcall, hloses⟩
  have hupkeeps := upkeeps_compact hkeeps
  have houtcome := compactSection_cases request.environment store
  rw [compact, if_pos hopened] at hupkeeps ⊢
  generalize (store.compactSection request.environment).1 = after
    at houtcome hupkeeps ⊢
  generalize (store.compactSection request.environment).2 = result at houtcome
  cases houtcome with
  | failed status hdrained =>
      obtain ⟨rest, held, hrest, -, hview⟩ := hdrained
      have hbytes : after.view.bytes = store.view.bytes ++ rest :=
        congrArg View.bytes hview
      refine hinStep.upkeeps hlawful hupkeeps hbytes ?_
      rcases hrest with rfl | ⟨fault, hfault, rfl⟩
      · exact .nil
      · exact hcontained.seeks fault (.compacting fault hcall hfault)
  | lost status hlost => exact absurd ⟨hopened, hlost⟩ hkeeps
  | compacted live hlive hvisible hview =>
      rw [hview]
      exact .ofLog hlawful _ live _

omit hlawful in
/-- An opening that succeeds, whatever failed in it, shows what it left in the
file. -/
theorem view_openStore (hclosed : store.opened = false)
    (hopened : (store.openStore environment).1.opened = true) :
    ∃ entries rest held, (store.openStore environment).1.view =
        { View.ofLog environment.nowMs entries store.cache with
          bytes := logFormat.imageAll entries ++ rest
          pending := held } ∧
      (rest = [] ∨ store.storage.bytes = logFormat.imageAll entries ∧
        rest = drained environment.recover.drain store.storage.pending) := by
  have hbytes := store.storage.bytes_ensureOpenLocked environment.openAnswers
  have hpending :=
    store.storage.pending_ensureOpenLocked environment.openAnswers
  rw [openStore, if_neg (by rw [hclosed]; exact Bool.false_ne_true)]
    at hopened ⊢
  split at hopened
  · rw [hclosed] at hopened
    cases hopened
  next hinterval =>
    rw [if_neg hinterval]
    dsimp only at hopened ⊢
    split at hopened
    next hopening =>
      rw [if_pos hopening]
      split at hopened
      · rw [hclosed] at hopened
        cases hopened
      next storage state hrecover =>
        obtain ⟨entries, rest, hafter, hrest, -, hindex⟩ :=
          AppendOnlyStore.whole_of_recover hrecover
        rw [AppendOnlyStore.openFile, hbytes, hpending] at hrest
        have hview : View.mk storage.bytes storage.pending state.index
            store.cache.clear =
              { View.ofLog environment.nowMs entries store.cache with
                bytes := logFormat.imageAll entries ++ rest
                pending := storage.pending } := by
          rw [hafter, hindex]
          rfl
        refine ⟨entries, rest, storage.pending, ?_, hrest⟩
        by_cases hcleaner : store.config.startBackgroundCleaner = true
        · rw [if_pos hcleaner] at hopened ⊢
          cases hthread : environment.startThread with
          | none => exact hview
          | some what =>
              rw [hthread] at hopened
              cases hopened
        · rw [if_neg hcleaner]
          exact hview
    · rw [hclosed] at hopened
      cases hopened

theorem inStep_openStore (hcall : request.call = .openStore)
    (hclosed : store.opened = false) (hcontained : Contained stands request store)
    (hopened : (store.openStore request.environment).1.opened = true) :
    (store.openStore request.environment).1.view.InStep stands request.nowMs := by
  obtain ⟨entries, rest, held, hview, hrest⟩ := view_openStore hclosed hopened
  rw [hview]
  refine (View.InStep.ofLog hlawful request.nowMs entries store.cache).stray ?_ held
  rcases hrest with rfl | ⟨hbytes, rfl⟩
  · exact .nil
  · exact hcontained.opens hcall entries hbytes

theorem inStep_opened (hopened : store.opened = true)
    (hinStep : store.view.InStep stands request.nowMs)
    (hcontained : Contained stands request store)
    (hstays : (store.perform request).1.opened = true) :
    (store.perform request).1.view.InStep stands request.nowMs := by
  have hupkeep : ∀ {after : View}, Upkeeps request.nowMs store.view after →
      after.bytes = store.view.bytes → after.InStep stands request.nowMs :=
    fun hupkeeps hbytes => hinStep.upkeeps hlawful hupkeeps
      (hbytes.trans (List.append_nil _).symm) View.Harmless.nil
  obtain ⟨environment, call⟩ := request
  cases call with
  | set key value ttl => exact inStep_writing hlawful hopened hinStep hcontained rfl
  | get key => exact inStep_get hlawful (Or.inl rfl) hinStep hcontained
  | keyExists key =>
      have hget := inStep_get hlawful (Or.inr rfl) hinStep hcontained
      rwa [← fst_keyExists] at hget
  | remove key => exact inStep_writing hlawful hopened hinStep hcontained rfl
  | keys start =>
      refine hupkeep (upkeeps_keys environment start store) ?_
      change (store.keys environment start).1.storage.bytes = _
      unfold keys cleanupExpired
      rw [if_pos hopened, if_pos hopened]
      rfl
  | cleanupExpired =>
      refine hupkeep (upkeeps_cleanupExpired environment store) ?_
      change (store.cleanupExpired environment).1.storage.bytes = _
      unfold cleanupExpired
      rw [if_pos hopened]
      rfl
  | compact => exact inStep_compact hlawful rfl hopened hinStep hcontained
  | openStore =>
      change (store.openStore environment).1.view.InStep stands _
      rw [openStore, if_pos hopened]
      exact hinStep
  | close =>
      change store.close.1.opened = true at hstays
      rw [opened_close] at hstays
      cases hstays

theorem inStep_perform (hinStep : store.opened = true →
      store.view.InStep stands nowMs)
    (hlater : ∀ stored shown, stands nowMs stored shown →
      stands request.nowMs stored shown)
    (hcontained : Contained stands request store)
    (hstays : (store.perform request).1.opened = true) :
    (store.perform request).1.view.InStep stands request.nowMs := by
  cases hopened : store.opened with
  | true =>
      exact inStep_opened hlawful hopened ((hinStep hopened).mono hlater)
        hcontained hstays
  | false =>
      have hcall := call_of_opened hopened hstays
      obtain ⟨environment, call⟩ := request
      cases hcall
      exact inStep_openStore hlawful rfl hopened hcontained hstays

end Lawful

/-! ## Calls over an empty put area -/

/-- A call that appends nothing. -/
theorem contained_quiet (hkeeps : ¬ Loses request store)
    (hpending : store.storage.pending = []) (hquiet : request.record = none) :
    Contained stands request store where
  keeps := hkeeps
  seeks fault _ := by
    rw [hpending, AppendOnlyStore.drained_nil]
    exact .nil
  fails _ _ _ _ _ hrecord := by
    rw [hquiet] at hrecord
    cases hrecord
  succeeds _ _ _ _ hrecord := by
    rw [hquiet] at hrecord
    cases hrecord
  opens _ entries _ := by
    rw [hpending, AppendOnlyStore.drained_nil]
    exact .nil

/-- A `set` behind an empty put area and a whole log. -/
theorem contained_set {environment : Environment} {key value : Bytes}
    {ttl : Option Int64} (hpending : store.storage.pending = [])
    (hwhole : WholeLog store.storage.bytes)
    (hcut : ∀ torn, environment.append.fault = some torn → torn.left <
      (recordBytes ⟨.set, key, value, deadline environment.nowMs ttl⟩).length) :
    Contained stands ⟨environment, .set key value ttl⟩ store where
  keeps := nofun
  seeks fault _ := by
    rw [hpending, AppendOnlyStore.drained_nil]
    exact .nil
  fails happends _ torn record hfault hrecord := by
    cases hrecord
    intro _
    obtain ⟨entries, hentries⟩ := hwhole
    have hcut := unfinishedTail_take (valid_of_validateSet happends _)
      (hcut torn hfault)
    refine Or.inl ⟨entries, [], ?_, hcut⟩
    change LogWithTail entries [] (store.storage.bytes ++ store.storage.pending)
    rw [hpending, List.append_nil, hentries]
    exact logWithTail_imageAll entries
  succeeds _ _ _ record _ := by
    rw [hpending, List.append_nil]
    exact ⟨hwhole, fun hne => absurd hpending hne⟩
  opens := nofun

end KeyValueStore

end MiniKV
