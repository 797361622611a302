import MiniKV.Concurrent.System

/-!
# No stale read and no lost update

A thread under the shared lock keeps exclusive sections out, so the history it
took the lock at is still the whole history.  Each exclusive section changes
the contents of the store as its name says, whichever thread runs it and
whenever its clock reading was taken.
-/

namespace MiniKV

namespace Section

/-- The section sets or removes this key. -/
inductive Touches (key : Bytes) : Section → Prop
  | set (value : Bytes) (expiresAtMs : Int64) :
      Touches key (.set key value expiresAtMs)
  | remove : Touches key (.remove key)

/-- The section may end an entry of this key and expiry: it sets or removes the
key, or it expires entries at a reading that is not before the expiry. -/
inductive Ends (key : Bytes) (expiresAtMs : Int64) : Section → Prop
  | touched {executed : Section} (htouches : executed.Touches key) :
      Ends key expiresAtMs executed
  | expired (nowMs : Int64) (hexpired : isExpired expiresAtMs nowMs = true) :
      Ends key expiresAtMs (.expire key nowMs)
  | purged (nowMs : Int64) (hexpired : isExpired expiresAtMs nowMs = true) :
      Ends key expiresAtMs (.purge nowMs)
  | compacted (nowMs : Int64) (hexpired : isExpired expiresAtMs nowMs = true) :
      Ends key expiresAtMs (.compact nowMs)

/-- What a section does to the contents of the store. -/
structure Changes (executed : Section) (before after : Ledger) : Prop where
  fresh : ∀ key value expiresAtMs, after key = some (value, expiresAtMs) →
    executed = .set key value expiresAtMs ∨
      before key = some (value, expiresAtMs) ∧ ¬ executed.Touches key
  stored : ∀ key value expiresAtMs, executed = .set key value expiresAtMs →
    after key = some (value, expiresAtMs)
  kept : ∀ key value expiresAtMs, before key = some (value, expiresAtMs) →
    after key = some (value, expiresAtMs) ∨ executed.Ends key expiresAtMs

variable {before : Ledger}

theorem changes_set (key value : Bytes) (expiresAtMs : Int64) :
    Changes (.set key value expiresAtMs) before
      (Function.update before key (some (value, expiresAtMs))) where
  fresh other found foundMs hfound := by
    by_cases hother : other = key
    · subst hother
      rw [Function.update_self] at hfound
      cases hfound
      exact Or.inl rfl
    · rw [Function.update_of_ne hother] at hfound
      refine Or.inr ⟨hfound, ?_⟩
      rintro ⟨⟩
      exact hother rfl
  stored other found foundMs hset := by
    cases hset
    exact Function.update_self _ _ _
  kept other found foundMs hfound := by
    by_cases hother : other = key
    · subst hother
      exact Or.inr (.touched (.set value expiresAtMs))
    · rw [Function.update_of_ne hother]
      exact Or.inl hfound

theorem changes_remove (key : Bytes) :
    Changes (.remove key) before (Function.update before key none) where
  fresh other found foundMs hfound := by
    by_cases hother : other = key
    · subst hother
      rw [Function.update_self] at hfound
      cases hfound
    · rw [Function.update_of_ne hother] at hfound
      refine Or.inr ⟨hfound, ?_⟩
      rintro ⟨⟩
      exact hother rfl
  stored other found foundMs hset := by cases hset
  kept other found foundMs hfound := by
    by_cases hother : other = key
    · subst hother
      exact Or.inr (.touched .remove)
    · rw [Function.update_of_ne hother]
      exact Or.inl hfound

/-- An expiry section that forgets entries only where it may. -/
theorem changes_forget {executed : Section} {after : Ledger}
    (huntouched : ∀ key, ¬ executed.Touches key)
    (hforgets : ∀ key, after key = before key ∨
      after key = none ∧ ∀ value expiresAtMs,
        before key = some (value, expiresAtMs) →
          executed.Ends key expiresAtMs) :
    Changes executed before after where
  fresh key value expiresAtMs hfound := by
    rcases hforgets key with hsame | ⟨hgone, -⟩
    · exact Or.inr ⟨hsame ▸ hfound, huntouched key⟩
    · rw [hgone] at hfound
      cases hfound
  stored key value expiresAtMs hset :=
    absurd (hset ▸ Touches.set value expiresAtMs) (huntouched key)
  kept key value expiresAtMs hfound := by
    rcases hforgets key with hsame | ⟨-, hends⟩
    · exact Or.inl (hsame.trans hfound)
    · exact Or.inr (hends value expiresAtMs hfound)

end Section

namespace KeyValueStore

variable {store : KeyValueStore} {environment : Environment}
variable {key value : Bytes} {expiresAtMs nowMs : Int64}

theorem changes_setSection (hfaultless : environment.Faultless)
    (hopened : store.opened = true) (hcoherent : store.view.Coherent)
    (hvalid : (⟨.set, key, value, expiresAtMs⟩ : Record).Valid) :
    (store.setSection environment key value expiresAtMs).1.view.Coherent ∧
      Section.Changes (.set key value expiresAtMs) store.view.contents
        (store.setSection environment key value
          expiresAtMs).1.view.contents := by
  have houtcome := setSection_cases environment key value expiresAtMs hopened
  have hsuccess := setSection_faultless hfaultless.openAnswers
    hfaultless.append hopened hvalid
  generalize (store.setSection environment key value expiresAtMs).1.view =
    after at houtcome ⊢
  generalize (store.setSection environment key value expiresAtMs).2 = status
    at houtcome hsuccess
  cases houtcome with
  | stored hrecord hfault hdrain =>
      rw [View.contents_afterSet hcoherent.settled hrecord rfl,
        View.contents_settled hcoherent]
      exact ⟨hcoherent.settled.afterSet hrecord rfl,
        Section.changes_set key value expiresAtMs⟩
  | failed hfailed =>
      have hstatus := hfailed.ok_eq
      rw [hsuccess] at hstatus
      cases hstatus

theorem contents_dropped (view : View) (key : Bytes)
    (cache : LruCache Bytes Bytes) :
    (⟨view.bytes, view.pending, view.index.erase key, cache⟩ :
      View).contents =
      Function.update view.contents key none := by
  funext other
  by_cases hother : other = key
  · subst hother
    rw [Function.update_self, View.contents_eq_none_iff]
    exact FiniteMap.lookup_erase_self _ _
  · rw [Function.update_of_ne hother, View.contents, View.contents,
      FiniteMap.lookup_erase_of_ne _ hother]
    rfl

/-- Forgetting one expired entry. -/
theorem changes_dropped {metadata : RecordMetadata}
    (hfound : store.index.lookup key = some metadata)
    (hexpired : isExpired metadata.expiresAtMs nowMs = true) :
    Section.Changes (.expire key nowMs) store.view.contents
      (store.dropExpired key).view.contents := by
  apply Section.changes_forget
  · rintro other ⟨⟩
  · intro other
    have hcontents : (store.dropExpired key).view.contents =
        Function.update store.view.contents key none :=
      contents_dropped store.view key _
    rw [hcontents]
    by_cases hother : other = key
    · subst hother
      refine Or.inr ⟨Function.update_self _ _ _, ?_⟩
      intro value expiresAtMs hstored
      obtain ⟨found, hlookup, -, rfl⟩ :=
        View.contents_eq_some_iff.mp hstored
      cases hfound.symm.trans hlookup
      exact .expired nowMs hexpired
    · exact Or.inl (Function.update_of_ne hother _ _)

theorem changes_nothing (key : Bytes) (nowMs : Int64) (ledger : Ledger) :
    Section.Changes (.expire key nowMs) ledger ledger := by
  apply Section.changes_forget
  · rintro other ⟨⟩
  · exact fun other => Or.inl rfl

theorem changes_eraseIfExpired (key : Bytes) (nowMs : Int64)
    (store : KeyValueStore) :
    Section.Changes (.expire key nowMs) store.view.contents
      (store.eraseIfExpired key nowMs).1.view.contents := by
  rw [eraseIfExpired]
  split
  · exact changes_nothing key nowMs _
  next metadata hfound =>
    split
    next hexpired => exact changes_dropped hfound hexpired
    · exact changes_nothing key nowMs _

/-- Forgetting everything that has expired. -/
theorem changes_live {executed : Section} (view : View)
    (huntouched : ∀ key, ¬ executed.Touches key)
    (hends : ∀ key expiresAtMs, isExpired expiresAtMs nowMs = true →
      executed.Ends key expiresAtMs) :
    executed.Changes view.contents (view.live nowMs) := by
  apply Section.changes_forget huntouched
  intro key
  rw [View.live]
  cases hstored : view.contents key with
  | none => exact Or.inl rfl
  | some stored =>
      obtain ⟨value, expiresAtMs⟩ := stored
      cases hexpired : isExpired expiresAtMs nowMs with
      | true =>
          refine Or.inr ⟨Option.filter_some_neg (by simp [hexpired]), ?_⟩
          intro other otherMs hother
          cases hother
          exact hends key _ hexpired
      | false => exact Or.inl (Option.filter_some_pos (by simp [hexpired]))

theorem changes_purgeExpired (environment : Environment)
    (store : KeyValueStore) :
    Section.Changes (.purge environment.nowMs) store.view.contents
      (store.purgeExpired environment).view.contents := by
  rw [contents_purgeExpired]
  apply changes_live
  · rintro key ⟨⟩
  · exact fun key expiresAtMs hexpired => .purged _ hexpired

theorem changes_compactSection (hreliable : environment.Reliable)
    (hopened : store.opened = true) (hcoherent : store.view.Coherent) :
    (store.compactSection environment).1.view.Coherent ∧
      Section.Changes (.compact environment.nowMs) store.view.contents
        (store.compactSection environment).1.view.contents := by
  obtain ⟨after, summary, hresult, -, -, hafter, hcontents⟩ :=
    compact_of_coherent hreliable hopened hcoherent
  rw [compact, if_pos hopened] at hresult
  rw [hresult, hcontents]
  refine ⟨hafter, changes_live _ ?_ ?_⟩
  · rintro key ⟨⟩
  · exact fun key expiresAtMs hexpired => .compacted _ hexpired

/-- At most one section, with what it does to the contents. -/
def Executes (sections : List Section) (before after : Ledger) : Prop :=
  sections = [] ∧ after = before ∨
    ∃ executed, sections = [executed] ∧ executed.Changes before after

theorem executes_removeSection (hfaultless : environment.Faultless)
    (hcoherent : store.view.Coherent)
    (hkey : (validateKey key).ok = true) :
    (store.removeSection environment key).1.view.Coherent ∧
      Executes (System.removeSections key environment.nowMs
          (store.find environment.nowMs key)) store.view.contents
        (store.removeSection environment key).1.view.contents := by
  have houtcome := removeSection_cases environment key store
  have hworks : ∀ metadata, store.index.lookup key = some metadata →
      isExpired metadata.expiresAtMs environment.nowMs = false →
      (store.removeSection environment key).2 = .success := fun metadata =>
    removeSection_faultless hfaultless.openAnswers hfaultless.append
      (valid_deleteRecord hkey)
  generalize (store.removeSection environment key).1.view = after
    at houtcome ⊢
  generalize (store.removeSection environment key).2 = status
    at houtcome hworks
  cases houtcome with
  | missing hmissing =>
      rw [find_missing hmissing]
      exact ⟨hcoherent, Or.inl ⟨rfl, rfl⟩⟩
  | expired metadata hfound hexpired =>
      have hdropped := hcoherent.upkeep
        (.dropped store.view key metadata hfound hexpired)
      rw [find_expired hfound hexpired]
      exact ⟨hdropped, Or.inr ⟨_, rfl, changes_dropped hfound hexpired⟩⟩
  | removed metadata hfound hlive hvalid hfault hdrain =>
      rw [find_live hfound hlive, View.contents_afterRemove hcoherent.settled,
        View.contents_settled hcoherent]
      exact ⟨hcoherent.settled.afterRemove _,
        Or.inr ⟨_, rfl, Section.changes_remove key⟩⟩
  | failed metadata hfound hlive hfailed =>
      have hstatus := hfailed.ok_eq
      rw [hworks metadata hfound hlive] at hstatus
      cases hstatus

theorem coherent_eraseIfExpired (hcoherent : store.view.Coherent)
    (key : Bytes) (nowMs : Int64) :
    (store.eraseIfExpired key nowMs).1.view.Coherent := by
  have hupkeeps := upkeeps_eraseIfExpired nowMs key store
  exact hcoherent.effects (hupkeeps.effects False)

theorem opened_eraseIfExpired (key : Bytes) (nowMs : Int64)
    (store : KeyValueStore) :
    (store.eraseIfExpired key nowMs).1.opened = store.opened := by
  rw [eraseIfExpired]
  split
  · rfl
  · split <;> rfl

end KeyValueStore

namespace System

variable {Thread : Type} [DecidableEq Thread]

/-- The last set of a key in a history, or what the store held at its start
when no section touched the key. -/
def LastSet (initial : Ledger) (history : List Section) (key value : Bytes)
    (expiresAtMs : Int64) : Prop :=
  (∃ earlier later, history = earlier ++ .set key value expiresAtMs :: later ∧
      ∀ executed ∈ later, ¬ executed.Touches key) ∨
    initial key = some (value, expiresAtMs) ∧
      ∀ executed ∈ history, ¬ executed.Touches key

/-- What is known about a thread that stands here. -/
def Justified (view : View) (history : List Section) : Position → Prop
  | .setReady key value expiresAtMs =>
      (⟨.set, key, value, expiresAtMs⟩ : Record).Valid
  | .getLocked _ before => before = history
  | .getFound key metadata nowMs before =>
      before = history ∧ view.index.lookup key = some metadata ∧
        isExpired metadata.expiresAtMs nowMs = false
  | .getMissed key metadata nowMs before =>
      before = history ∧ view.index.lookup key = some metadata ∧
        isExpired metadata.expiresAtMs nowMs = false
  | .getRead key value nowMs before =>
      before = history ∧ ∃ metadata, view.index.lookup key = some metadata ∧
        isExpired metadata.expiresAtMs nowMs = false ∧
        value = view.valueAt metadata
  | _ => True

/-- What is known about a `get` that returned. -/
def Correct (initial : Ledger) (history : List Section)
    (returned : Returned) : Prop :=
  returned.before <+: history ∧ ∃ expiresAtMs,
    LastSet initial returned.before returned.key returned.value expiresAtMs ∧
      isExpired expiresAtMs returned.nowMs = false

structure Invariant (initial : Ledger) (system : System Thread) : Prop where
  opened : system.store.opened = true
  coherent : system.store.view.Coherent
  shows : ∀ key value expiresAtMs,
    system.store.view.contents key = some (value, expiresAtMs) →
    LastSet initial system.history key value expiresAtMs
  keeps : ∀ earlier key value expiresAtMs later,
    system.history = earlier ++ .set key value expiresAtMs :: later →
    system.store.view.contents key = some (value, expiresAtMs) ∨
      ∃ executed ∈ later, executed.Ends key expiresAtMs
  justified : ∀ thread,
    Justified system.store.view system.history (system.position thread)
  correct : ∀ returned ∈ system.returned,
    Correct initial system.history returned

variable {initial : Ledger} {system : System Thread}

/-- A thread outside the shared lock knows nothing about the store. -/
theorem Justified.of_not_shared {view later : View}
    {history longer : List Section} {position : Position}
    (hjustified : Justified view history position)
    (hshared : ¬ position.Shared) : Justified later longer position := by
  cases position with
  | getLocked => exact absurd trivial hshared
  | getFound => exact absurd trivial hshared
  | getMissed => exact absurd trivial hshared
  | getRead => exact absurd trivial hshared
  | _ => exact hjustified

/-- What a thread knows stays true while the index stays and the file grows. -/
theorem Justified.of_extends {view later : View} {history : List Section}
    {position : Position} (hjustified : Justified view history position)
    (hcoherent : view.Coherent) (hgrows : view.Grows later) :
    Justified later history position := by
  have hindex := hgrows.index
  cases position with
  | getFound key metadata nowMs before =>
      rw [Justified] at hjustified ⊢
      rwa [hindex]
  | getMissed key metadata nowMs before =>
      rw [Justified] at hjustified ⊢
      rwa [hindex]
  | getRead key value nowMs before =>
      rw [Justified] at hjustified ⊢
      obtain ⟨hbefore, metadata, hfound, hfresh, hvalue⟩ := hjustified
      exact ⟨hbefore, metadata, hindex ▸ hfound, hfresh,
        hvalue.trans (hgrows.valueAt_eq hcoherent hfound).symm⟩
  | _ => exact hjustified

theorem justified_update {view : View} {history : List Section}
    {positions : Thread → Position} {thread : Thread} {position : Position}
    (hposition : Justified view history position)
    (hothers : ∀ other, Justified view history (positions other))
    (other : Thread) :
    Justified view history (Function.update positions thread position other) := by
  by_cases hother : other = thread
  · subst hother
    rwa [Function.update_self]
  · rw [Function.update_of_ne hother]
    exact hothers other

/-- A step that leaves the index, the history and what is in the file alone. -/
theorem Invariant.move (hinvariant : Invariant initial system)
    {thread : Thread} {position : Position} {store : KeyValueStore}
    (hopened : store.opened = true) (hcoherent : store.view.Coherent)
    (hgrows : system.store.view.Grows store.view)
    (hposition : Justified system.store.view system.history position) :
    Invariant initial (system.move thread position store) where
  opened := hopened
  coherent := hcoherent
  shows key value expiresAtMs hcontents := by
    apply hinvariant.shows
    rw [← hgrows.contents_eq hinvariant.coherent]
    exact hcontents
  keeps earlier key value expiresAtMs later hhistory := by
    have hkept := hinvariant.keeps earlier key value expiresAtMs later hhistory
    rw [← hgrows.contents_eq hinvariant.coherent] at hkept
    exact hkept
  justified := by
    apply justified_update (hposition.of_extends hinvariant.coherent hgrows)
    exact fun other => (hinvariant.justified other).of_extends
      hinvariant.coherent hgrows
  correct := hinvariant.correct

omit [DecidableEq Thread] in
/-- Reading the clock changes nothing else. -/
theorem Invariant.read (hinvariant : Invariant initial system)
    (nowMs : Int64) : Invariant initial (system.read nowMs) :=
  ⟨hinvariant.opened, hinvariant.coherent, hinvariant.shows, hinvariant.keeps,
    hinvariant.justified, hinvariant.correct⟩

/-- Returning a value that the index entry of the key points to. -/
theorem Invariant.answer (hinvariant : Invariant initial system)
    {thread : Thread} {store : KeyValueStore} (hopened : store.opened = true)
    (hcoherent : store.view.Coherent)
    (hgrows : system.store.view.Grows store.view)
    {returned : Returned} (hbefore : returned.before = system.history)
    {metadata : RecordMetadata}
    (hfound : system.store.index.lookup returned.key = some metadata)
    (hfresh : isExpired metadata.expiresAtMs returned.nowMs = false)
    (hvalue : returned.value = system.store.view.valueAt metadata) :
    Invariant initial (system.answer thread returned store) := by
  have hidle : Justified system.store.view system.history .idle := trivial
  have hmoved : Invariant initial (system.move thread .idle store) :=
    hinvariant.move hopened hcoherent hgrows hidle
  refine ⟨hmoved.opened, hmoved.coherent, hmoved.shows, hmoved.keeps,
    hmoved.justified, ?_⟩
  intro other hother
  rcases List.mem_append.mp hother with hold | hnew
  · exact hinvariant.correct other hold
  · rw [List.mem_singleton.mp hnew]
    have hshown := hinvariant.shows returned.key returned.value
      metadata.expiresAtMs (View.contents_eq_some_iff.mpr
        ⟨metadata, hfound, hvalue.symm, rfl⟩)
    refine ⟨hbefore ▸ List.prefix_refl _, metadata.expiresAtMs, ?_, hfresh⟩
    rw [hbefore]
    exact hshown

/-- What a new section at the end of a history means for its last sets. -/
theorem LastSet.concat {history : List Section} {executed : Section}
    {key value : Bytes} {expiresAtMs : Int64}
    (hlast : LastSet initial history key value expiresAtMs)
    (huntouched : ¬ executed.Touches key) :
    LastSet initial (history ++ [executed]) key value expiresAtMs := by
  rcases hlast with ⟨earlier, later, rfl, hlater⟩ | ⟨hinitial, hhistory⟩
  · refine Or.inl ⟨earlier, later ++ [executed], by simp, ?_⟩
    intro other hother
    rcases List.mem_append.mp hother with hold | hnew
    · exact hlater other hold
    · rwa [List.mem_singleton.mp hnew]
  · refine Or.inr ⟨hinitial, ?_⟩
    intro other hother
    rcases List.mem_append.mp hother with hold | hnew
    · exact hhistory other hold
    · rwa [List.mem_singleton.mp hnew]

/-- A step that executes sections while no thread holds the shared lock. -/
theorem Invariant.exclude (hinvariant : Invariant initial system)
    (hfree : system.Free) {thread : Thread} {position : Position}
    (hshared : ¬ position.Shared)
    (hposition : Justified system.store.view system.history position)
    {store : KeyValueStore} (hopened : store.opened = true)
    (hcoherent : store.view.Coherent) {sections : List Section}
    (hexecutes : KeyValueStore.Executes sections
      system.store.view.contents store.view.contents) :
    Invariant initial (system.exclude thread position store sections) where
  opened := hopened
  coherent := hcoherent
  shows key value expiresAtMs hcontents := by
    change store.view.contents key = _ at hcontents
    change LastSet initial (system.history ++ sections) _ _ _
    rcases hexecutes with ⟨rfl, hsame⟩ | ⟨executed, rfl, hchanges⟩
    · rw [List.append_nil]
      exact hinvariant.shows key value expiresAtMs (hsame ▸ hcontents)
    · rcases hchanges.fresh key value expiresAtMs hcontents with
        rfl | ⟨hold, huntouched⟩
      · exact Or.inl ⟨system.history, [], rfl, by simp⟩
      · exact (hinvariant.shows key value expiresAtMs hold).concat huntouched
  keeps earlier key value expiresAtMs later hhistory := by
    change system.history ++ sections = _ at hhistory
    change store.view.contents key = _ ∨ _
    rcases hexecutes with ⟨rfl, hsame⟩ | ⟨executed, rfl, hchanges⟩
    · rw [List.append_nil] at hhistory
      rw [hsame]
      exact hinvariant.keeps earlier key value expiresAtMs later hhistory
    · rcases List.eq_nil_or_concat later with rfl | ⟨front, last, rfl⟩
      · obtain ⟨-, hlast⟩ := List.append_inj' hhistory rfl
        exact Or.inl (hchanges.stored key value expiresAtMs
          (List.singleton_inj.mp hlast))
      · rw [List.concat_eq_append] at hhistory ⊢
        rw [← List.cons_append, ← List.append_assoc] at hhistory
        obtain ⟨hfront, hlast⟩ := List.append_inj' hhistory rfl
        rw [← List.singleton_inj.mp hlast]
        rcases hinvariant.keeps earlier key value expiresAtMs front hfront with
          hold | ⟨ender, hender, hends⟩
        · rcases hchanges.kept key value expiresAtMs hold with hstays | hends
          · exact Or.inl hstays
          · exact Or.inr ⟨executed, by simp, hends⟩
        · exact Or.inr ⟨ender, by simp [hender], hends⟩
  justified := by
    apply justified_update (hposition.of_not_shared hshared)
    exact fun other =>
      (hinvariant.justified other).of_not_shared (hfree other)
  correct returned hreturned := by
    obtain ⟨hgrows, hlast⟩ := hinvariant.correct returned hreturned
    exact ⟨hgrows.trans (List.prefix_append _ _), hlast⟩

/-- A `get` answers from the cache what the index points to. -/
theorem Invariant.getCached (hinvariant : Invariant initial system)
    {thread : Thread} {key value : Bytes} {before : List Section}
    {metadata : RecordMetadata} {nowMs : Int64}
    (hposition : system.position thread = .getFound key metadata nowMs before)
    (hcached : (system.store.lookupCache key).2 = some value) :
    Invariant initial (system.answer thread ⟨key, value, nowMs, before⟩
      (system.store.lookupCache key).1) := by
  have hfound := hinvariant.justified thread
  rw [hposition] at hfound
  obtain ⟨hbefore, hlookup, hfresh⟩ := hfound
  have hcoherent := hinvariant.coherent
  have hholds : system.store.view.cache.Holds key value :=
    (LruCache.get_eq_some_iff hcoherent.wellFormed key value).mp hcached
  obtain ⟨other, hother, hvalue⟩ := hcoherent.cached key value hholds
  cases hlookup.symm.trans hother
  have hopened : (system.store.lookupCache key).1.opened = true :=
    hinvariant.opened
  have htouched : (system.store.lookupCache key).1.view.Coherent :=
    hcoherent.upkeep (show Upkeep nowMs _ _ from .touched system.store.view key)
  exact hinvariant.answer hopened htouched (.of_same rfl rfl) hbefore hlookup
    hfresh hvalue

/-- A lookup in the cache changes its order only. -/
theorem Invariant.getMissed (hinvariant : Invariant initial system)
    {thread : Thread} {key : Bytes} {before : List Section}
    {metadata : RecordMetadata} {nowMs : Int64}
    (hposition : system.position thread =
      .getFound key metadata nowMs before) :
    Invariant initial (system.move thread
      (.getMissed key metadata nowMs before)
      (system.store.lookupCache key).1) := by
  have hfound := hinvariant.justified thread
  rw [hposition] at hfound
  have hopened : (system.store.lookupCache key).1.opened = true :=
    hinvariant.opened
  have htouched : (system.store.lookupCache key).1.view.Coherent :=
    hinvariant.coherent.upkeep
      (show Upkeep nowMs _ _ from .touched system.store.view key)
  exact hinvariant.move hopened htouched (.of_same rfl rfl) hfound

/-- A thread moves on behind a read of the file. -/
theorem Invariant.moveRead (hinvariant : Invariant initial system)
    {thread : Thread} {position : Position} {key : Bytes}
    {metadata : RecordMetadata} (environment : Environment)
    (hposition : Justified system.store.view system.history position) :
    Invariant initial (system.move thread position
      (system.store.readStored environment key metadata).1) := by
  have hdrained := (KeyValueStore.drained_readStored environment key metadata
    system.store).drained
  have hopened :
      (system.store.readStored environment key metadata).1.opened = true :=
    hinvariant.opened
  have hcoherent :
      (system.store.readStored environment key metadata).1.view.Coherent :=
    hinvariant.coherent.upkeep
      (show Upkeep environment.nowMs _ _ from .drained _ hdrained)
  exact hinvariant.move hopened hcoherent (.of_drained hdrained) hposition

theorem Invariant.getRead (hinvariant : Invariant initial system)
    {thread : Thread} {key value : Bytes} {before : List Section}
    {metadata : RecordMetadata} {nowMs : Int64} {environment : Environment}
    (hposition : system.position thread =
      .getMissed key metadata nowMs before)
    (hread : (system.store.readStored environment key metadata).2 =
      .ok value) :
    Invariant initial (system.move thread (.getRead key value nowMs before)
      (system.store.readStored environment key metadata).1) := by
  have hfound := hinvariant.justified thread
  rw [hposition] at hfound
  obtain ⟨hbefore, hlookup, hfresh⟩ := hfound
  have hvalue : value = system.store.view.valueAt metadata := by
    have hgrows := View.Grows.of_drained
      (KeyValueStore.drained_readStored environment key metadata
        system.store).drained
    rw [← hgrows.valueAt_eq hinvariant.coherent hlookup]
    exact KeyValueStore.eq_valueAt_of_readStored hread
  exact hinvariant.moveRead environment
    ⟨hbefore, metadata, hlookup, hfresh, hvalue⟩

/-- A `get` caches and returns what it has read. -/
theorem Invariant.getFilled (hinvariant : Invariant initial system)
    {thread : Thread} {key value : Bytes} {before : List Section}
    {nowMs : Int64}
    (hposition : system.position thread = .getRead key value nowMs before) :
    Invariant initial (system.answer thread ⟨key, value, nowMs, before⟩
      (system.store.fillCache key value)) := by
  have hfound := hinvariant.justified thread
  rw [hposition] at hfound
  obtain ⟨hbefore, metadata, hlookup, hfresh, hvalue⟩ := hfound
  have hopened : (system.store.fillCache key value).opened = true :=
    hinvariant.opened
  have hfilled : (system.store.fillCache key value).view.Coherent := by
    rw [hvalue]
    exact hinvariant.coherent.upkeep (show Upkeep nowMs _ _ from
      .filled system.store.view key metadata hlookup)
  exact hinvariant.answer hopened hfilled (.of_same rfl rfl) hbefore hlookup
    hfresh hvalue

/-- A thread returns behind exclusive sections. -/
theorem Invariant.excludeIdle (hinvariant : Invariant initial system)
    (hfree : system.Free) {thread : Thread} {store : KeyValueStore}
    (hopened : store.opened = true) (hcoherent : store.view.Coherent)
    {sections : List Section}
    (hexecutes : KeyValueStore.Executes sections
      system.store.view.contents store.view.contents) :
    Invariant initial (system.exclude thread .idle store sections) := by
  have hshared : ¬ Position.Shared .idle := id
  have hidle : Justified system.store.view system.history .idle := trivial
  exact hinvariant.exclude hfree hshared hidle hopened hcoherent hexecutes

theorem Invariant.setSection (hinvariant : Invariant initial system)
    (hfree : system.Free) {thread : Thread} {key value : Bytes}
    {expiresAtMs : Int64} {environment : Environment}
    (hposition : system.position thread = .setReady key value expiresAtMs)
    (hfaultless : environment.Faultless) :
    Invariant initial (system.exclude thread .idle
      (system.store.setSection environment key value expiresAtMs).1
      [.set key value expiresAtMs]) := by
  have hvalid := hinvariant.justified thread
  rw [hposition] at hvalid
  obtain ⟨hafter, hchanges⟩ := KeyValueStore.changes_setSection hfaultless
    hinvariant.opened hinvariant.coherent hvalid
  have hopened := (KeyValueStore.opened_setSection environment key value
    expiresAtMs system.store).trans hinvariant.opened
  exact hinvariant.excludeIdle hfree hopened hafter
    (Or.inr ⟨_, rfl, hchanges⟩)

/-- The purge of `cleanupExpired` and of `keys`. -/
theorem Invariant.purge (hinvariant : Invariant initial system)
    (hfree : system.Free) {thread : Thread} {position : Position}
    (hshared : ¬ position.Shared)
    (hposition : Justified system.store.view system.history position)
    (environment : Environment) :
    Invariant initial ((system.read environment.nowMs).exclude thread position
      (system.store.purgeExpired environment) [.purge environment.nowMs]) := by
  have hread := hinvariant.read environment.nowMs
  have hopened : (system.store.purgeExpired environment).opened = true :=
    hinvariant.opened
  have hcoherent := hinvariant.coherent.upkeep
    (KeyValueStore.upkeep_purgeExpired environment system.store)
  exact hread.exclude hfree hshared hposition hopened hcoherent
    (Or.inr ⟨_, rfl, KeyValueStore.changes_purgeExpired environment
      system.store⟩)

/-- A `keys` lists the index and changes nothing. -/
theorem Invariant.list (hinvariant : Invariant initial system)
    (thread : Thread) (listed : Listed) :
    Invariant initial (system.list thread listed) := by
  have hidle : Justified system.store.view system.history .idle := trivial
  have hmoved : Invariant initial (system.move thread .idle system.store) :=
    hinvariant.move hinvariant.opened hinvariant.coherent (.of_same rfl rfl)
      hidle
  exact ⟨hmoved.opened, hmoved.coherent, hmoved.shows, hmoved.keeps,
    hmoved.justified, hmoved.correct⟩

/-- Every step of every thread keeps the invariant. -/
theorem Invariant.step (hinvariant : Invariant initial system)
    {next : System Thread} (hstep : Step system next) :
    Invariant initial next := by
  have hcoherent := hinvariant.coherent
  have hopened := hinvariant.opened
  have hidle : Justified system.store.view system.history .idle := trivial
  have hshared : ¬ Position.Shared .idle := id
  cases hstep with
  | @setReady thread key value ttl nowMs hposition hvalidates hclock =>
      exact (hinvariant.read nowMs).move hopened hcoherent (.of_same rfl rfl)
        (KeyValueStore.valid_of_validateSet hvalidates _)
  | setSection hposition hfree hfaultless =>
      exact hinvariant.setSection hfree hposition hfaultless
  | @getLocked thread key hposition hkey =>
      have hlocked : Justified system.store.view system.history
          (.getLocked key system.history) := rfl
      exact hinvariant.move hopened hcoherent (.of_same rfl rfl) hlocked
  | getMissing hposition hfind =>
      exact hinvariant.move hopened hcoherent (.of_same rfl rfl) hidle
  | @getExpired thread key before nowMs hposition hclock hfind =>
      have hexpired : Justified system.store.view system.history
          (.getExpired key nowMs) := trivial
      exact (hinvariant.read nowMs).move hopened hcoherent (.of_same rfl rfl)
        hexpired
  | @getFound thread key before metadata nowMs hposition hclock hfind =>
      have hbefore := hinvariant.justified thread
      rw [hposition] at hbefore
      have hfound : Justified system.store.view system.history
          (.getFound key metadata nowMs before) :=
        ⟨hbefore, KeyValueStore.lookup_of_find_live hfind⟩
      exact (hinvariant.read nowMs).move hopened hcoherent (.of_same rfl rfl)
        hfound
  | getCached hposition hcached =>
      exact hinvariant.getCached hposition hcached
  | getMissed hposition hcached => exact hinvariant.getMissed hposition
  | getRead hposition hfaultless hread =>
      exact hinvariant.getRead hposition hread
  | @getUnreadable thread key before metadata nowMs environment =>
      exact hinvariant.moveRead environment hidle
  | getFilled hposition => exact hinvariant.getFilled hposition
  | @eraseIfExpired thread key nowMs hposition hfree =>
      have hstays := (KeyValueStore.opened_eraseIfExpired key nowMs
        system.store).trans hopened
      exact hinvariant.excludeIdle hfree hstays
        (KeyValueStore.coherent_eraseIfExpired hcoherent key nowMs)
        (Or.inr ⟨_, rfl,
          KeyValueStore.changes_eraseIfExpired key nowMs system.store⟩)
  | @remove thread key environment hposition hkey hfree hfaultless hclock =>
      obtain ⟨hafter, hexecutes⟩ := KeyValueStore.executes_removeSection
        hfaultless hcoherent hkey
      have hstays := (KeyValueStore.opened_removeSection environment key
        system.store).trans hopened
      exact (hinvariant.read environment.nowMs).excludeIdle hfree hstays
        hafter hexecutes
  | @cleanupExpired thread environment hposition hfree =>
      exact hinvariant.purge hfree hshared hidle environment
  | @keysCleaned thread start environment hposition hfree =>
      have hunshared : ¬ (Position.keysCleaned start environment.nowMs).Shared :=
        id
      have hcleaned : Justified system.store.view system.history
          (.keysCleaned start environment.nowMs) := trivial
      exact hinvariant.purge hfree hunshared hcleaned environment
  | keysListed hposition => exact hinvariant.list _ _
  | @compact thread environment hposition hfree hfaultless hclock =>
      obtain ⟨hafter, hchanges⟩ := KeyValueStore.changes_compactSection
        hfaultless.toReliable hopened hcoherent
      have hstays := (KeyValueStore.opened_compactSection environment
        system.store).trans hopened
      exact (hinvariant.read environment.nowMs).excludeIdle hfree hstays
        hafter (Or.inr ⟨_, rfl, hchanges⟩)

/-- What a client of several threads relies on. -/
structure Consistent (initial : Ledger) (system : System Thread) : Prop where
  answers : ∀ returned ∈ system.returned,
    Correct initial system.history returned
  caches : ∀ key value, system.store.cache.Holds key value →
    ∃ metadata, system.store.index.lookup key = some metadata ∧
      (system.store.storage.readValue {} {} metadata).2 = .ok value
  keeps : ∀ earlier key value expiresAtMs later,
    system.history = earlier ++ .set key value expiresAtMs :: later →
    (∃ metadata, system.store.index.lookup key = some metadata ∧
      metadata.expiresAtMs = expiresAtMs ∧
      (system.store.storage.readValue {} {} metadata).2 = .ok value) ∨
    ∃ executed ∈ later, executed.Ends key expiresAtMs

omit [DecidableEq Thread] in
theorem Invariant.consistent (hinvariant : Invariant initial system) :
    Consistent initial system where
  answers := hinvariant.correct
  caches key value hholds := by
    obtain ⟨metadata, hfound, rfl⟩ :=
      hinvariant.coherent.cached key value hholds
    exact ⟨metadata, hfound,
      KeyValueStore.readValue_of_lookup hinvariant.coherent hfound⟩
  keeps earlier key value expiresAtMs later hhistory := by
    rcases hinvariant.keeps earlier key value expiresAtMs later hhistory with
      hcontents | hender
    · obtain ⟨metadata, hfound, rfl, hexpiresAtMs⟩ :=
        View.contents_eq_some_iff.mp hcontents
      exact Or.inl ⟨metadata, hfound, hexpiresAtMs,
        KeyValueStore.readValue_of_lookup hinvariant.coherent hfound⟩
    · exact Or.inr hender

omit [DecidableEq Thread] in
/-- An open store at which no section has run. -/
theorem Invariant.start {store : KeyValueStore} (hopened : store.opened = true)
    (hcoherent : store.view.Coherent) (clock : Int64) :
    Invariant store.view.contents (start store clock : System Thread) where
  opened := hopened
  coherent := hcoherent
  shows _ _ _ hcontents :=
    Or.inr ⟨hcontents, fun _ hexecuted => absurd hexecuted List.not_mem_nil⟩
  keeps _ _ _ _ _ hhistory :=
    absurd hhistory.symm (List.append_ne_nil_of_right_ne_nil _
      (List.cons_ne_nil _ _))
  justified _ := trivial
  correct _ hreturned := absurd hreturned List.not_mem_nil

/-- Whatever the threads do in whatever order, no `get` returns a stale value,
no stale value is cached, and no set is lost. -/
theorem no_stale_read_no_lost_update {store : KeyValueStore}
    (hreachable : KeyValueStore.Reachable store)
    (hopened : store.opened = true) (clock : Int64) {system : System Thread}
    (hreaches : Reaches (start store clock) system) :
    Consistent store.view.contents system := by
  have hcoherent := KeyValueStore.coherent_of_reachable hreachable
  have hinvariant : Invariant store.view.contents system := by
    induction hreaches with
    | refl => exact Invariant.start hopened hcoherent clock
    | tail _ hlast ih => exact ih.step hlast
  exact hinvariant.consistent

/-- One thread sets a key that another one then reads from the cache. -/
theorem no_stale_read_no_lost_update_of_two_threads :
    let store := (KeyValueStore.machine.run [⟨.calm 1, .openStore⟩]
      (KeyValueStore.new .small none none)).1
    ∃ system : System Bool, Reaches (start store 1) system ∧
      system.returned = [⟨[97], [98], 3, [.set [97] [98] 0]⟩] ∧
      Consistent store.view.contents system := by
  intro store
  have hreachable : KeyValueStore.Reachable store := by
    apply KeyValueStore.reachable_run
    intro request hrequest
    rw [List.mem_singleton.mp hrequest]
    exact (Environment.faultless_calm 1).toReliable
  have hopened : store.opened = true := by decide +kernel
  let ready : System Bool :=
    ((start store 1).read 2).move false (.setReady [97] [98] 0) store
  have hvalidates :
      (KeyValueStore.validateSet [97] [98] none).ok = true := by decide +kernel
  have hclock : (1 : Int64) ≤ 2 := by decide
  have hready : Step (start store 1) ready := .setReady rfl hvalidates hclock
  let stored : System Bool := ready.exclude false .idle
    (store.setSection (.calm 2) [97] [98] 0).1 [.set [97] [98] 0]
  have hstored : Step ready stored :=
    .setSection rfl (by intro thread; cases thread <;> exact id)
      (Environment.faultless_calm 2)
  let locked : System Bool := stored.move true
    (.getLocked [97] stored.history)
    { stored.store with getOperations := stored.store.getOperations + 1 }
  have hlocked : Step stored locked := .getLocked rfl (by decide +kernel)
  let found : System Bool := (locked.read 3).move true
    (.getFound [97] ⟨0, 29, 1, 0⟩ 3 stored.history) locked.store
  have hfound : Step locked found := by
    apply Step.getFound rfl (by decide)
    exact KeyValueStore.find_live (by decide +kernel) (by decide)
  let answered : System Bool := found.answer true
    ⟨[97], [98], 3, stored.history⟩ (found.store.lookupCache [97]).1
  have hanswered : Step found answered := .getCached rfl (by decide +kernel)
  have hreaches : Reaches (start store 1) answered :=
    ((((Relation.ReflTransGen.single hready).tail hstored).tail hlocked).tail
      hfound).tail hanswered
  exact ⟨answered, hreaches, rfl,
    no_stale_read_no_lost_update hreachable hopened 1 hreaches⟩

end System

end MiniKV
