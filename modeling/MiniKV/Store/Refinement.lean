import MiniKV.Store.LogLedger
import MiniKV.Store.TimedMap

/-!
# The store refines the timed map

A store stands for a timed map when it is coherent and shows what the map
holds, up to entries that have expired.  Every call keeps this relation and
answers as the map allows, also when an append fails halfway.
-/

namespace MiniKV

open TimedMap

namespace View

theorem Tracks.upkeeps {nowMs : Int64} {view later : View} {ledger : Ledger}
    (htracks : Tracks nowMs view ledger) (hcoherent : view.Coherent)
    (hupkeeps : Upkeeps nowMs view later) : Tracks nowMs later ledger := by
  induction hupkeeps with
  | refl => exact htracks
  | tail hearlier hlast ih =>
      exact ih.upkeep (hcoherent.upkeeps hearlier) (Int64.le_refl nowMs) hlast

end View

theorem TimedMap.ofLedger_ledgerOf (entries : List LogEntry) :
    ofLedger (View.ledgerOf entries) = ofLog entries := by
  funext key
  rw [ofLedger, View.ledgerOf, ofLog, Option.map_bind]
  congr 1
  funext found
  rw [Function.comp_apply, Record.stored]
  split <;> rfl

theorem Environment.append_eq_of_not_fails {environment : Environment}
    (hworks : ¬ environment.FailsAppend) : environment.append = {} := by
  rw [FailsAppend, not_or, not_not, not_not] at hworks
  obtain ⟨hdrain, hfault⟩ := hworks
  generalize environment.append = answers at hdrain hfault ⊢
  obtain ⟨drain, seek, write, flush⟩ := answers
  cases hdrain
  cases seek with
  | false => cases hfault
  | true =>
      obtain ⟨hwrite, hflush⟩ := Option.or_eq_none_iff.mp hfault
      cases hwrite
      cases hflush
      rfl

/-- A deadline is the sum that it stands for while that sum is in range. -/
theorem toInt_deadline {nowMs : Int64} {ttl : Option Int64}
    (hrange : ∀ count, ttl = some count → 0 < count →
      nowMs.toInt + count.toInt < 2 ^ 63)
    (hpositive : ∀ count, ttl = some count → 0 < count) :
    (KeyValueStore.deadline nowMs ttl).toInt = expiry nowMs ttl := by
  cases ttl with
  | none => rfl
  | some count =>
      have hcount := hpositive count rfl
      have hsum := hrange count rfl hcount
      have hnow := nowMs.le_toInt
      rw [Int64.lt_iff_toInt_lt, Int64.toInt_zero] at hcount
      rw [KeyValueStore.deadline, expiry, Int64.toInt_add]
      apply Int.bmod_eq_of_le <;> omega

namespace KeyValueStore

/-- The store stands for this map at a clock reading. -/
structure Refines (nowMs : Int64) (store : KeyValueStore) (map : TimedMap) :
    Prop where
  opened : store.opened = true
  coherent : store.view.Coherent
  tracks : ∃ ledger, map = ofLedger ledger ∧
    View.Tracks nowMs store.view ledger

/-- The deadline of a `set` stays within `std::int64_t`. -/
def InRange (request : Request) : Prop :=
  match request.call with
  | .set _ _ ttl => ∀ count, ttl = some count → 0 < count →
      request.nowMs.toInt + count.toInt < 2 ^ 63
  | _ => True

variable {store after : KeyValueStore} {map : TimedMap} {nowMs : Int64}
variable {environment : Environment} {key : Bytes}

namespace Refines

theorem mono (hrefines : Refines nowMs store map) {laterMs : Int64}
    (hclock : nowMs ≤ laterMs) : Refines laterMs store map := by
  obtain ⟨hopened, hcoherent, ledger, hmap, htracks⟩ := hrefines
  exact ⟨hopened, hcoherent, ledger, hmap, htracks.mono hclock⟩

theorem upkeeps (hrefines : Refines nowMs store map)
    (hupkeeps : Upkeeps nowMs store.view after.view)
    (hopened : after.opened = store.opened) : Refines nowMs after map := by
  obtain ⟨ledger, hmap, htracks⟩ := hrefines.tracks
  exact ⟨hopened.trans hrefines.opened, hrefines.coherent.upkeeps hupkeeps,
    ledger, hmap, htracks.upkeeps hrefines.coherent hupkeeps⟩

/-- Bytes that a failed append leaves change nothing. -/
theorem stray (hrefines : Refines nowMs store map) {rest held : Bytes}
    (hview : after.view =
      { store.view with
        bytes := store.view.bytes ++ rest
        pending := held })
    (hopened : after.opened = store.opened) : Refines nowMs after map := by
  obtain ⟨ledger, hmap, htracks⟩ := hrefines.tracks
  refine ⟨hopened.trans hrefines.opened, ?_, ledger, hmap, ?_⟩
  · rw [hview]
    exact hrefines.coherent.stray rest held
  · rw [hview]
    exact htracks.stray hrefines.coherent rest held

/-- A failing append changes nothing. -/
theorem appendFailed (hrefines : Refines nowMs store map) {record : Record}
    {status : Status} (hfailed : AppendFailed environment record store.view
      after.view status)
    (hopened : after.opened = store.opened) : Refines nowMs after map := by
  obtain ⟨rest, held, hview⟩ := hfailed.stray
  exact hrefines.stray hview hopened

theorem update (hrefines : Refines nowMs store map)
    {stored : Option (Bytes × Int64)} (hcoherent : after.view.Coherent)
    (hcontents : after.view.contents =
      Function.update store.view.contents key stored)
    (hopened : after.opened = store.opened) :
    Refines nowMs after (Function.update map key
      (stored.map fun found => (found.1, found.2.toInt))) := by
  obtain ⟨ledger, rfl, htracks⟩ := hrefines.tracks
  exact ⟨hopened.trans hrefines.opened, hcoherent, _,
    (ofLedger_update ledger key stored).symm, htracks.update hcontents⟩

/-- What is unexpired in the store is live in the map, and the other way
round. -/
theorem live_iff (hrefines : Refines nowMs store map) (key value : Bytes) :
    map.Live nowMs key value ↔ ∃ expiresAtMs,
      store.view.contents key = some (value, expiresAtMs) ∧
        isExpired expiresAtMs nowMs = false := by
  obtain ⟨ledger, rfl, htracks⟩ := hrefines.tracks
  rw [live_ofLedger]
  apply exists_congr
  intro expiresAtMs
  apply and_congr_left
  intro hfresh
  exact (htracks.live_iff (Int64.le_refl _) hfresh).symm

theorem present_iff (hrefines : Refines nowMs store map) (key : Bytes) :
    map.Present nowMs key ↔ ∃ metadata,
      store.index.lookup key = some metadata ∧
        isExpired metadata.expiresAtMs nowMs = false := by
  constructor
  · rintro ⟨value, hlive⟩
    obtain ⟨expiresAtMs, hcontents, hfresh⟩ :=
      (hrefines.live_iff key value).mp hlive
    obtain ⟨metadata, hfound, -, rfl⟩ :=
      View.contents_eq_some_iff.mp hcontents
    exact ⟨metadata, hfound, hfresh⟩
  · rintro ⟨metadata, hfound, hfresh⟩
    exact ⟨_, (hrefines.live_iff key _).mpr ⟨metadata.expiresAtMs,
      View.contents_eq_some_iff.mpr ⟨metadata, hfound, rfl, rfl⟩, hfresh⟩⟩

/-- What `get` answers, in terms of the map. -/
theorem answer_cases (hrefines : Refines nowMs store map) (key : Bytes) :
    (∃ value, store.view.answer nowMs key = .ok value ∧
        map.Live nowMs key value) ∨
      ∃ status, store.view.answer nowMs key = .error status ∧
        status.code = .notFound ∧ ¬ map.Present nowMs key := by
  cases hcontents : store.view.contents key with
  | none =>
      have hanswer : store.view.answer nowMs key =
          .error (.notFound "key does not exist") := by
        rw [View.answer, hcontents]
      refine Or.inr ⟨_, hanswer, rfl, ?_⟩
      rintro ⟨value, hlive⟩
      obtain ⟨expiresAtMs, hfound, -⟩ := (hrefines.live_iff key value).mp hlive
      rw [hcontents] at hfound
      cases hfound
  | some stored =>
      obtain ⟨value, expiresAtMs⟩ := stored
      cases hexpired : isExpired expiresAtMs nowMs with
      | true =>
          have hanswer : store.view.answer nowMs key =
              .error (.notFound "key has expired") := by
            rw [View.answer, hcontents]
            exact if_pos hexpired
          refine Or.inr ⟨_, hanswer, rfl, ?_⟩
          rintro ⟨other, hlive⟩
          obtain ⟨otherMs, hfound, hfresh⟩ :=
            (hrefines.live_iff key other).mp hlive
          rw [hcontents] at hfound
          cases hfound
          rw [hexpired] at hfresh
          cases hfresh
      | false =>
          have hanswer : store.view.answer nowMs key = .ok value := by
            rw [View.answer, hcontents]
            exact if_neg (by rw [hexpired]; exact Bool.false_ne_true)
          exact Or.inl ⟨value, hanswer, (hrefines.live_iff key value).mpr
            ⟨expiresAtMs, hcontents, hexpired⟩⟩

end Refines

/-! ## The checks -/

theorem acceptedKey_iff (key : Bytes) :
    AcceptedKey key ↔ (validateKey key).ok = true :=
  (validateKey_ok_iff key).symm

theorem code_validateKey (hrejected : ¬ AcceptedKey key) :
    (validateKey key).code = .invalidArgument := by
  rw [acceptedKey_iff] at hrejected
  unfold validateKey at hrejected ⊢
  split
  · rfl
  next hnil =>
    split
    · rfl
    next hlong =>
      rw [if_neg hnil, if_neg hlong] at hrejected
      exact absurd rfl hrejected

theorem code_validateValue {value : Bytes}
    (hrejected : ¬ (validateValue value).ok = true) :
    (validateValue value).code = .invalidArgument := by
  unfold validateValue at hrejected ⊢
  split
  · rfl
  next hlong =>
    rw [if_neg hlong] at hrejected
    exact absurd rfl hrejected

theorem validateSet_cases (key value : Bytes) (ttl : Option Int64) :
    (validateSet key value ttl = .success ∧ AcceptedSet key value ttl) ∨
      (validateSet key value ttl).code = .invalidArgument ∧
        ¬ AcceptedSet key value ttl := by
  unfold validateSet
  by_cases hkey : (validateKey key).ok = true
  · rw [if_pos hkey]
    by_cases hvalue : (validateValue value).ok = true
    · rw [if_pos hvalue]
      by_cases httl : (ttl.any fun count => decide (count ≤ 0)) = true
      · rw [if_pos httl]
        obtain ⟨count, rfl, hcount⟩ := (Option.any_eq_true _ _).mp httl
        refine Or.inr ⟨rfl, fun haccepted => ?_⟩
        have hpositive := haccepted.ttl count rfl
        exact Int64.not_le.mpr hpositive (of_decide_eq_true hcount)
      · rw [if_neg httl]
        refine Or.inl ⟨rfl, (acceptedKey_iff key).mpr hkey,
          (validateValue_ok_iff value).mp hvalue, ?_⟩
        rintro count rfl
        exact Int64.not_le.mp fun hcount => httl (decide_eq_true hcount)
    · rw [if_neg hvalue]
      exact Or.inr ⟨code_validateValue hvalue, fun haccepted =>
        hvalue ((validateValue_ok_iff value).mpr haccepted.value)⟩
  · rw [if_neg hkey]
    have hrejected : ¬ AcceptedKey key := fun haccepted =>
      hkey ((acceptedKey_iff key).mp haccepted)
    exact Or.inr ⟨code_validateKey hrejected,
      fun haccepted => hrejected haccepted.key⟩

/-! ## One lemma for each call -/

/-- The section of `set` may run behind the reading that its deadline rests
on. -/
theorem step_setSection (hrefines : Refines nowMs store map)
    (hreliable : environment.Reliable) {value : Bytes} {ttl : Option Int64}
    (hvalidates : (validateSet key value ttl).ok = true)
    (haccepted : AcceptedSet key value ttl)
    (hrange : InRange ⟨environment, .set key value ttl⟩) :
    ∃ next, Allowed map ⟨environment, .set key value ttl⟩
        (.status (store.setSection environment key value
          (deadline environment.nowMs ttl)).2) next ∧
      Refines nowMs (store.setSection environment key value
        (deadline environment.nowMs ttl)).1 next := by
  have hvalid :=
    valid_of_validateSet hvalidates (deadline environment.nowMs ttl)
  have hopened := opened_setSection environment key value
    (deadline environment.nowMs ttl) store
  have hworks : environment.append = {} →
      (store.setSection environment key value
        (deadline environment.nowMs ttl)).2 = .success := fun happend =>
    setSection_faultless hreliable.openAnswers happend hrefines.opened hvalid
  have houtcome := setSection_cases environment key value
    (deadline environment.nowMs ttl) hrefines.opened
  generalize store.setSection environment key value
    (deadline environment.nowMs ttl) = result at hopened hworks houtcome ⊢
  obtain ⟨after, status⟩ := result
  dsimp only at hopened hworks houtcome ⊢
  generalize hview : after.view = later at houtcome
  cases houtcome with
  | stored hrecord hfault =>
      have hcoherent : after.view.Coherent := by
        rw [hview]
        exact hrefines.coherent.settled.afterSet hrecord rfl
      have hcontents := View.contents_afterSet hrefines.coherent.settled
        hrecord rfl
      rw [← hview, View.contents_settled hrefines.coherent] at hcontents
      have hupdated := hrefines.update hcoherent hcontents hopened
      rw [Option.map_some, toInt_deadline hrange haccepted.ttl] at hupdated
      exact ⟨_, .set haccepted hfault, hupdated⟩
  | failed hfailed =>
      have hfails : environment.FailsAppend := by
        by_contra hnone
        have hstatus := hfailed.ok_eq
        rw [hworks (Environment.append_eq_of_not_fails hnone)] at hstatus
        cases hstatus
      have hcode := (hfailed.fails hvalid).code_eq
        (by rw [hreliable.openAnswers])
      exact ⟨map, .setFailed haccepted hfails hcode,
        hrefines.appendFailed (hview ▸ hfailed) hopened⟩

theorem step_set (hrefines : Refines environment.nowMs store map)
    (hreliable : environment.Reliable) {value : Bytes} {ttl : Option Int64}
    (hrange : InRange ⟨environment, .set key value ttl⟩) :
    ∃ next, Allowed map ⟨environment, .set key value ttl⟩
        (.status (store.set environment key value ttl).2) next ∧
      Refines environment.nowMs (store.set environment key value ttl).1
        next := by
  rw [set, if_pos hrefines.opened]
  rcases validateSet_cases key value ttl with
    ⟨hsuccess, haccepted⟩ | ⟨hcode, hrejected⟩
  · have hvalidates : (validateSet key value ttl).ok = true :=
      hsuccess ▸ Status.ok_success
    rw [if_pos hvalidates]
    exact step_setSection hrefines hreliable hvalidates haccepted hrange
  · have hfailed : ¬ (validateSet key value ttl).ok = true := by
      rw [Status.ok, hcode]
      decide
    rw [if_neg hfailed]
    exact ⟨map, .setRejected hrejected hcode, hrefines⟩

theorem get_rejected (hopened : store.opened = true)
    (hrejected : ¬ AcceptedKey key) :
    store.get environment key = (store, .error (validateKey key)) := by
  rw [acceptedKey_iff] at hrejected
  rw [get, if_pos hopened, if_neg hrejected]

theorem refines_get (hrefines : Refines environment.nowMs store map) :
    Refines environment.nowMs (store.get environment key).1 map :=
  hrefines.upkeeps (upkeeps_get environment key store)
    (opened_get environment key store)

theorem get_cases (hrefines : Refines environment.nowMs store map)
    (hreliable : environment.Reliable) (haccepted : AcceptedKey key) :
    (∃ value, (store.get environment key).2 = .ok value ∧
        map.Live environment.nowMs key value) ∨
      ∃ status, (store.get environment key).2 = .error status ∧
        status.code = .notFound ∧ ¬ map.Present environment.nowMs key := by
  rw [get_answer hreliable.openAnswers (hreliable.read key) hrefines.opened
    ((acceptedKey_iff key).mp haccepted) hrefines.coherent]
  exact hrefines.answer_cases key

theorem step_get (hrefines : Refines environment.nowMs store map)
    (hreliable : environment.Reliable) :
    Allowed map ⟨environment, .get key⟩
      (.value (store.get environment key).2) map := by
  by_cases haccepted : AcceptedKey key
  · rcases get_cases hrefines hreliable haccepted with
      ⟨value, hvalue, hlive⟩ | ⟨status, hstatus, hcode, hmissing⟩
    · rw [hvalue]
      exact .got haccepted hlive
    · rw [hstatus]
      exact .gotNothing haccepted hmissing hcode
  · rw [get_rejected hrefines.opened haccepted]
    exact .getRejected haccepted (code_validateKey haccepted)

/-- `exists` answers what `get` answers, without the value. -/
theorem step_exists (hrefines : Refines environment.nowMs store map)
    (hreliable : environment.Reliable) :
    Allowed map ⟨environment, .keyExists key⟩
      (.flag (store.keyExists environment key).2) map := by
  rw [snd_keyExists]
  by_cases haccepted : AcceptedKey key
  · rcases get_cases hrefines hreliable haccepted with
      ⟨value, hvalue, hlive⟩ | ⟨status, hstatus, hcode, hmissing⟩
    · rw [hvalue]
      exact .existsTrue haccepted ⟨value, hlive⟩
    · rw [hstatus]
      dsimp only
      rw [if_pos hcode]
      exact .existsFalse haccepted hmissing
  · have hcode := code_validateKey haccepted
    rw [get_rejected hrefines.opened haccepted]
    dsimp only
    rw [if_neg (by rw [hcode]; decide)]
    exact .existsRejected haccepted hcode

theorem step_remove (hrefines : Refines environment.nowMs store map)
    (hreliable : environment.Reliable) :
    ∃ next, Allowed map ⟨environment, .remove key⟩
        (.status (store.remove environment key).2) next ∧
      Refines environment.nowMs (store.remove environment key).1 next := by
  have hopened := opened_remove environment key store
  rw [remove, if_pos hrefines.opened] at hopened ⊢
  by_cases haccepted : AcceptedKey key
  · have hkey := (acceptedKey_iff key).mp haccepted
    rw [if_pos hkey] at hopened ⊢
    have hpresent := hrefines.present_iff key
    have hworks : ∀ metadata, environment.append = {} →
        store.index.lookup key = some metadata →
        isExpired metadata.expiresAtMs environment.nowMs = false →
        (store.removeSection environment key).2 = .success :=
      fun metadata happend => removeSection_faultless hreliable.openAnswers
        happend (valid_deleteRecord hkey)
    have houtcome := removeSection_cases environment key store
    generalize store.removeSection environment key = result
      at hopened hworks houtcome ⊢
    obtain ⟨after, status⟩ := result
    dsimp only at hopened hworks houtcome ⊢
    generalize hview : after.view = later at houtcome
    cases houtcome with
    | missing hmissing =>
        have hnothing : ¬ map.Present environment.nowMs key := by
          rw [hpresent]
          rintro ⟨metadata, hfound, -⟩
          exact Option.some_ne_none _ (hfound.symm.trans hmissing)
        have hupkeeps : Upkeeps environment.nowMs store.view after.view := by
          rw [hview]
        exact ⟨map, .removedNothing haccepted hnothing rfl,
          hrefines.upkeeps hupkeeps hopened⟩
    | expired metadata hfound hexpired =>
        have hnothing : ¬ map.Present environment.nowMs key := by
          rw [hpresent]
          rintro ⟨other, hother, hfresh⟩
          cases hfound.symm.trans hother
          rw [hexpired] at hfresh
          cases hfresh
        have hupkeeps : Upkeeps environment.nowMs store.view after.view := by
          rw [hview]
          exact .single (.dropped store.view key metadata hfound hexpired)
        exact ⟨map, .removedNothing haccepted hnothing rfl,
          hrefines.upkeeps hupkeeps hopened⟩
    | removed metadata hfound hlive hrecord hfault =>
        have hcoherent : after.view.Coherent := by
          rw [hview]
          exact hrefines.coherent.settled.afterRemove _
        have hcontents := View.contents_afterRemove hrefines.coherent.settled
          (deleteRecord key)
        rw [← hview, View.contents_settled hrefines.coherent] at hcontents
        exact ⟨_, .removed haccepted (hpresent.mpr ⟨metadata, hfound, hlive⟩)
          hfault, hrefines.update hcoherent hcontents hopened⟩
    | failed metadata hfound hlive hfailed =>
        have hfails : environment.FailsAppend := by
          by_contra hnone
          have hstatus := hfailed.ok_eq
          rw [hworks metadata (Environment.append_eq_of_not_fails hnone) hfound
            hlive] at hstatus
          cases hstatus
        have hcode := (hfailed.fails (valid_deleteRecord hkey)).code_eq
          (by rw [hreliable.openAnswers])
        exact ⟨map, .removeFailed haccepted
          (hpresent.mpr ⟨metadata, hfound, hlive⟩) hfails hcode,
          hrefines.appendFailed (hview ▸ hfailed) hopened⟩
  · rw [if_neg fun hkey => haccepted ((acceptedKey_iff key).mpr hkey)]
    exact ⟨map, .removeRejected haccepted (code_validateKey haccepted),
      hrefines⟩

theorem startsWith_iff (start key : Bytes) :
    startsWith start key = true ↔ start <+: key := by
  rw [startsWith, List.prefix_iff_eq_take, Bool.or_eq_true, beq_iff_eq,
    beq_iff_eq]
  constructor
  · rintro (rfl | htake)
    · rfl
    · exact htake.symm
  · intro htake
    exact Or.inr htake.symm

theorem step_keys (hrefines : Refines environment.nowMs store map)
    (start : Bytes) :
    Allowed map ⟨environment, .keys start⟩
      (.listing (store.keys environment start).2) map := by
  rw [keys, if_pos hrefines.opened, cleanupExpired, if_pos hrefines.opened]
  apply Allowed.keys (pairwise_listKeys _ _ _)
  intro key
  rw [mem_listKeys, startsWith_iff, hrefines.present_iff,
    Option.isSome_iff_exists]
  simp only [lookup_purgeExpired]

theorem step_compact (hrefines : Refines environment.nowMs store map)
    (hreliable : environment.Reliable) :
    Allowed map ⟨environment, .compact⟩
      (.summary (store.compact environment).2) map := by
  obtain ⟨summary, hsummary⟩ := compactSection_faultless hreliable.openAnswers
    hreliable.read hreliable.compact hrefines.coherent
  rw [compact, if_pos hrefines.opened, hsummary]
  exact .compacted

/-- Every call between opening and closing answers as the map allows. -/
theorem step_refines {startMs : Int64} {request : Request}
    (hrefines : Refines startMs store map) (hclock : startMs ≤ request.nowMs)
    (hoperates : request.call.Operates)
    (hreliable : request.environment.Reliable) (hrange : InRange request) :
    ∃ next, Allowed map request (store.perform request).2 next ∧
      Refines request.nowMs (store.perform request).1 next := by
  have hnow := hrefines.mono hclock
  obtain ⟨environment, call⟩ := request
  cases call with
  | set key value ttl => exact step_set hnow hreliable hrange
  | get key => exact ⟨map, step_get hnow hreliable, refines_get hnow⟩
  | keyExists key =>
      have hafter : Refines environment.nowMs
          (store.get environment key).1 map := refines_get hnow
      rw [← fst_keyExists] at hafter
      exact ⟨map, step_exists hnow hreliable, hafter⟩
  | remove key => exact step_remove hnow hreliable
  | keys start =>
      exact ⟨map, step_keys hnow start,
        hnow.upkeeps (upkeeps_keys environment start store)
          (opened_keys environment start store)⟩
  | cleanupExpired =>
      exact ⟨map, .cleaned,
        hnow.upkeeps (upkeeps_cleanupExpired environment store)
          (opened_cleanupExpired environment store)⟩
  | compact =>
      have hkeeps : ¬ (store.opened = true ∧ LosesFile environment store) :=
        fun hloses => not_losesFile_of_reliable hreliable hloses.2
      exact ⟨map, step_compact hnow hreliable,
        hnow.upkeeps (upkeeps_compact hkeeps) (opened_compact environment store)⟩
  | openStore => exact absurd rfl hoperates.1
  | close => exact absurd rfl hoperates.2

/-- A store that opens stands for the map of its records. -/
theorem refines_openStore (hreliable : environment.Reliable)
    (hclosed : store.opened = false) (hpending : store.storage.pending = [])
    (hopens : (store.openStore environment).2.ok = true) :
    ∃ entries tail, LogWithTail entries tail store.storage.bytes ∧
      Refines environment.nowMs (store.openStore environment).1
        (ofLog entries) := by
  obtain ⟨entries, tail, hlog, hview, hopened⟩ :=
    openStore_ok hreliable hclosed hopens
  have hcoherent := View.coherent_ofLog environment.nowMs entries store.cache
  have htracks := View.tracks_ofLog environment.nowMs entries store.cache
  rw [View.reopened_of_pending hpending] at hview
  have hcache : store.view.cache = store.cache := rfl
  rw [← hcache, ← hview] at hcoherent htracks
  exact ⟨entries, tail, hlog, hopened, hcoherent, View.ledgerOf entries,
    (ofLedger_ledgerOf entries).symm, htracks⟩

/-- Every run of a store that opened is a run of the timed map of its recovered
records. -/
theorem run_refines_timed_map (config : StoreConfig)
    (data temporary : Option Bytes) (opening : Environment)
    (hopening : opening.Reliable)
    (hopens : ((new config data temporary).openStore opening).2.ok = true)
    (requests : List Request)
    (hoperates : ∀ request ∈ requests, request.call.Operates)
    (hreliable : ∀ request ∈ requests, request.environment.Reliable)
    (hrange : ∀ request ∈ requests, InRange request)
    (hpaced : Machine.Paced Request.nowMs opening.nowMs requests) :
    ∃ entries tail, LogWithTail entries tail (data.getD []) ∧
      ∃ last, Machine.Trace Allowed (TimedMap.ofLog entries) requests
        (machine.run requests
          ((new config data temporary).openStore opening).1).2 last := by
  obtain ⟨entries, tail, hlog, hstart⟩ :=
    refines_openStore hopening rfl rfl hopens
  have halong : machine.Along (fun request _ => request.call.Operates ∧
      request.environment.Reliable ∧ InRange request) requests
      ((new config data temporary).openStore opening).1 :=
    .of_forall (fun request hrequest _ => ⟨hoperates request hrequest,
      hreliable request hrequest, hrange request hrequest⟩) _
  have hstep : ∀ startMs request store map, Refines startMs store map →
      startMs ≤ request.nowMs →
      (request.call.Operates ∧ request.environment.Reliable ∧
        InRange request) →
      ∃ next, Allowed map request (machine.step request store).2 next ∧
        Refines request.nowMs (machine.step request store).1 next :=
    fun _ _ _ _ hrefines hclock hrequest => step_refines hrefines hclock
      hrequest.1 hrequest.2.1 hrequest.2.2
  obtain ⟨last, htrace, -⟩ :=
    Machine.exists_trace hstep hpaced halong hstart
  exact ⟨entries, tail, hlog, last, htrace⟩

/-- A run on an empty disk in which the second `set` leaves five bytes of its
record behind. -/
theorem run_refines_timed_map_torn_set :
    let requests : List Request :=
      [⟨.calm 1, .set [97] [98] (some 10)⟩,
        ⟨{ nowMs := 2, append := { write := some ⟨5, 30⟩ } }, .set [97] [99] none⟩,
        ⟨.calm 3, .compact⟩, ⟨.calm 11, .get [97]⟩]
    ∃ entries tail, LogWithTail entries tail [] ∧
      ∃ last, Machine.Trace Allowed (TimedMap.ofLog entries) requests
        (machine.run requests
          ((new .small none none).openStore (.calm 0)).1).2 last := by
  intro requests
  have hcalm := fun nowMs => (Environment.faultless_calm nowMs).toReliable
  have hoperates : ∀ request ∈ requests, request.call.Operates := by
    simp [requests, Call.Operates]
  have hreliable : ∀ request ∈ requests, request.environment.Reliable := by
    simp only [requests, List.forall_mem_cons]
    exact ⟨hcalm 1, ⟨rfl, rfl, fun _ => rfl, rfl, rfl⟩, hcalm 3, hcalm 11,
      by simp⟩
  have hrange : ∀ request ∈ requests, InRange request := by
    simp only [requests, List.forall_mem_cons]
    refine ⟨?_, by simp [InRange], trivial, trivial, by simp⟩
    rintro count ⟨⟩ -
    decide
  have hpaced : Machine.Paced Request.nowMs 0 requests :=
    ⟨by decide, by decide, by decide, by decide, trivial⟩
  exact run_refines_timed_map .small none none (.calm 0) (hcalm 0)
    (by decide +kernel) requests hoperates hreliable hrange hpaced

/-- A record with a negative expiry, as a data file may hold it. -/
def negativeExpiry : LogEntry := ⟨⟨.set, [97], [98], -1⟩, 0, by decide⟩

/-- With zero as the only expiry that never comes, the map of this file would
hide the key that the store returns. -/
theorem negative_expiry_stays_live :
    let opened := (new .small (some negativeExpiry.image) none).openStore
      (.calm 0)
    opened.2.ok = true ∧ LogWithTail [negativeExpiry] [] negativeExpiry.image ∧
      ¬ ((opened.1.get (.calm 0) [97]).2 = .ok [98] ↔
        ∃ expiry, TimedMap.ofLog [negativeExpiry] [97] = some ([98], expiry) ∧
          (expiry = 0 ∨ (0 : ℤ) < expiry)) := by
  have hget : ((((new .small (some negativeExpiry.image) none).openStore
      (.calm 0)).1.get (.calm 0) [97]).2 = .ok [98]) := by
    decide +kernel
  have hstored : TimedMap.ofLog [negativeExpiry] [97] = some ([98], -1) := by
    decide +kernel
  refine ⟨by decide +kernel, ⟨by simp [logFormat], unfinishedTail_nil⟩, ?_⟩
  intro hclaim
  obtain ⟨expiry, heq, hexpiry⟩ := hclaim.mp hget
  rw [hstored] at heq
  cases heq
  exact absurd hexpiry (by decide)

end KeyValueStore

end MiniKV
