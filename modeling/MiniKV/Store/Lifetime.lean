import MiniKV.Concrete.CommandParser
import MiniKV.Store.CompactionCrash
import MiniKV.Store.Lasting

/-!
# From the text of a lifetime to the expiry of its key

The parser guards the product of a lifetime, `set` adds the clock reading
without a guard of its own.  While that sum is in range the key is live before
it and gone from then on, for every operation that tests expiry and across
restarts; beyond the range the key never expires.
-/

namespace MiniKV

namespace KeyValueStore

variable {environment : Environment} {store : KeyValueStore}
variable {laterMs : Int64} {key : Bytes}
variable {stored : Option (Bytes × Int64)}

/-! ## Calls that leave a key alone -/

/-- The call neither stores nor removes the key. -/
def Leaves (key : Bytes) (call : Call) : Prop :=
  (∀ value ttl, call ≠ .set key value ttl) ∧ call ≠ .remove key

theorem lasting_perform {request : Request}
    (hlasting : store.view.Lasting laterMs key stored)
    (hfaultless : request.environment.Faultless)
    (hclock : request.nowMs ≤ laterMs) (hleaves : Leaves key request.call) :
    (store.perform request).1.view.Lasting laterMs key stored := by
  have houtcome := faultless_cases hfaultless hlasting.pending
  generalize (store.perform request).1 = after at houtcome ⊢
  generalize (store.perform request).2 = reply at houtcome
  cases houtcome with
  | upkeep hupkeeps _ => exact hlasting.upkeeps hclock hupkeeps
  | stored hcall hvalid hview =>
      rw [hview]
      exact hlasting.afterRecord hvalid fun hkey =>
        hleaves.1 _ _ (hkey ▸ hcall)
  | removed hcall hvalid hview =>
      rw [hview]
      exact hlasting.afterRecord hvalid fun hkey =>
        hleaves.2 (hkey ▸ hcall)
  | reopened hcall hclosed hlog hview =>
      obtain ⟨others, himage, hledger⟩ := hlasting.file
      have hwhole : LogWithTail others [] store.view.bytes :=
        himage ▸ logWithTail_imageAll others
      rw [hview, (hlog.unique hwhole).1]
      exact .reopened hclock hledger store.cache

/-! ## Operations that test expiry -/

/-- At the reading of the environment every operation that tests expiry takes
the key for live when `expiry` is still to come, and for gone otherwise. -/
structure JudgesBy (expiry : ℤ) (environment : Environment)
    (key value : Bytes) (store : KeyValueStore) : Prop where
  get_live : environment.nowMs.toInt < expiry →
    (store.get environment key).2 = .ok value
  get_gone : expiry ≤ environment.nowMs.toInt →
    ∃ message, (store.get environment key).2 = .error (.notFound message)
  remove_live : environment.nowMs.toInt < expiry →
    (store.remove environment key).2 = .success
  remove_gone : expiry ≤ environment.nowMs.toInt →
    ∃ message, (store.remove environment key).2 = .notFound message
  cleanupExpired :
    ((store.cleanupExpired environment).1.index.lookup key).isSome ↔
      environment.nowMs.toInt < expiry
  compact :
    ((store.compact environment).1.index.lookup key).isSome ↔
      environment.nowMs.toInt < expiry
  recover : ∃ after state,
    store.storage.recover {} {} environment.nowMs = (after, .ok state) ∧
      ((state.index.lookup key).isSome ↔ environment.nowMs.toInt < expiry)

section Judged

variable {value : Bytes} {expiresAtMs : Int64}
variable (hfaultless : environment.Faultless) (hopened : store.opened = true)
variable (hkey : (validateKey key).ok = true)
variable (hlasting : store.view.Lasting environment.nowMs key
  (some (value, expiresAtMs)))
variable (hpositive : 0 < expiresAtMs.toInt)

include hlasting

/-- A positive expiry divides the readings. -/
theorem fresh_of_lt (hbefore : environment.nowMs.toInt < expiresAtMs.toInt) :
    store.view.contents key = some (value, expiresAtMs) ∧
      isExpired expiresAtMs environment.nowMs = false := by
  have hfresh := isExpired_eq_false_iff.mpr (Or.inr hbefore)
  exact ⟨hlasting.shown.eq_of_fresh hfresh, hfresh⟩

include hpositive

theorem gone_of_le (hbehind : expiresAtMs.toInt ≤ environment.nowMs.toInt) :
    store.view.contents key = none ∨ store.view.contents key = some (value, expiresAtMs) ∧
      isExpired expiresAtMs environment.nowMs = true := by
  rcases hlasting.shown with hsame | ⟨hnone, -⟩
  · refine Or.inr ⟨hsame, ?_⟩
    rw [← Bool.not_eq_false, isExpired_eq_false_iff]
    exact not_or.mpr ⟨not_le.mpr hpositive, not_lt.mpr hbehind⟩
  · exact Or.inl hnone

theorem isSome_live_iff : (store.view.live environment.nowMs key).isSome ↔
    environment.nowMs.toInt < expiresAtMs.toInt := by
  rw [View.live]
  rcases lt_or_ge environment.nowMs.toInt expiresAtMs.toInt with hbefore | hbehind
  · obtain ⟨hsame, hfresh⟩ := fresh_of_lt hlasting hbefore
    simp [hsame, hfresh, hbefore]
  · rcases gone_of_le hlasting hpositive hbehind with hnone | ⟨hsame, hexpired⟩
    · simp [hnone, hbehind]
    · simp [hsame, hexpired, hbehind]

theorem recover_judged : ∃ after state,
    store.storage.recover {} {} environment.nowMs = (after, .ok state) ∧
      ((state.index.lookup key).isSome ↔
        environment.nowMs.toInt < expiresAtMs.toInt) := by
  obtain ⟨entries, himage, hledger⟩ := hlasting.file
  have hbytes : store.storage.bytes = logFormat.imageAll entries := himage
  have hlog : LogWithTail entries [] store.storage.bytes :=
    hbytes ▸ logWithTail_imageAll entries
  refine ⟨_, _, AppendOnlyStore.recover_of_logWithTail hlog _, ?_⟩
  rw [View.isSome_replay_iff]
  constructor
  · rintro ⟨found, hfound, hfresh⟩
    rcases hledger with hsame | ⟨hnone, -⟩
    · cases hfound.symm.trans hsame
      exact (isExpired_eq_false_iff.mp hfresh).resolve_left
        (not_le.mpr hpositive)
    · cases hfound.symm.trans hnone
  · intro hbefore
    have hfresh := isExpired_eq_false_iff.mpr (Or.inr hbefore)
    exact ⟨_, hledger.eq_of_fresh hfresh, hfresh⟩

include hopened hkey hfaultless

theorem get_judged :
    (environment.nowMs.toInt < expiresAtMs.toInt →
      (store.get environment key).2 = .ok value) ∧
    (expiresAtMs.toInt ≤ environment.nowMs.toInt →
      ∃ message, (store.get environment key).2 =
        .error (.notFound message)) := by
  rw [get_answer hfaultless.openAnswers (hfaultless.read key) hopened hkey
    hlasting.coherent, View.answer]
  constructor
  · intro hbefore
    obtain ⟨hsame, hfresh⟩ := fresh_of_lt hlasting hbefore
    rw [hsame]
    exact if_neg (by rw [hfresh]; exact Bool.false_ne_true)
  · intro hbehind
    rcases gone_of_le hlasting hpositive hbehind with hnone | ⟨hsame, hexpired⟩
    · rw [hnone]
      exact ⟨_, rfl⟩
    · rw [hsame]
      exact ⟨_, if_pos hexpired⟩

theorem remove_judged :
    (environment.nowMs.toInt < expiresAtMs.toInt →
      (store.remove environment key).2 = .success) ∧
    (expiresAtMs.toInt ≤ environment.nowMs.toInt →
      ∃ message, (store.remove environment key).2 = .notFound message) := by
  rw [remove, if_pos hopened, if_pos hkey]
  constructor
  · intro hbefore
    obtain ⟨hsame, hfresh⟩ := fresh_of_lt hlasting hbefore
    obtain ⟨metadata, hfound, -, hexpiresAtMs⟩ :=
      View.contents_eq_some_iff.mp hsame
    rw [← hexpiresAtMs] at hfresh
    exact removeSection_faultless hfaultless.openAnswers hfaultless.append
      (valid_deleteRecord hkey) hfound hfresh
  · intro hbehind
    rw [removeSection]
    rcases gone_of_le hlasting hpositive hbehind with hnone | ⟨hsame, hexpired⟩
    · rw [find_missing (View.contents_eq_none_iff.mp hnone)]
      exact ⟨_, rfl⟩
    · obtain ⟨metadata, hfound, -, hexpiresAtMs⟩ :=
        View.contents_eq_some_iff.mp hsame
      rw [← hexpiresAtMs] at hexpired
      rw [find_expired hfound hexpired]
      exact ⟨_, rfl⟩

theorem judgesBy_of_lasting :
    JudgesBy expiresAtMs.toInt environment key value store := by
  have hget := get_judged hfaultless hopened hkey hlasting hpositive
  have hremove := remove_judged hfaultless hopened hkey hlasting hpositive
  refine ⟨hget.1, hget.2, hremove.1, hremove.2, ?_, ?_,
    recover_judged hlasting hpositive⟩
  · rw [cleanupExpired, if_pos hopened,
      ← isSome_live_iff hlasting hpositive, ← contents_purgeExpired,
      View.contents, Option.isSome_map]
    rfl
  · obtain ⟨after, summary, hresult, -, -, -, hcontents⟩ :=
      compact_of_coherent hfaultless.toReliable hopened hlasting.coherent
    rw [hresult, ← isSome_live_iff hlasting hpositive, ← hcontents,
      View.contents, Option.isSome_map]
    rfl

end Judged

/-! ## From the command to the expiry -/

/-- A `set` that succeeds is kept until its deadline. -/
theorem lasting_of_set (hfaultless : environment.Faultless)
    (hopened : store.opened = true) (hcoherent : store.view.Coherent)
    (hwhole : store.view.pending = [] ∧
      ∃ entries, store.view.bytes = logFormat.imageAll entries)
    {value : Bytes} {ttl : Option Int64}
    (hvalidates : (validateSet key value ttl).ok = true) (laterMs : Int64) :
    (store.set environment key value ttl).1.view.Lasting laterMs key
      (some (value, deadline environment.nowMs ttl)) := by
  have hvalid := valid_of_validateSet hvalidates
    (deadline environment.nowMs ttl)
  have hsucceeds := setSection_faultless hfaultless.openAnswers
    hfaultless.append hopened hvalid
  have houtcome := setSection_cases environment key value
    (deadline environment.nowMs ttl) hopened
  rw [set, if_pos hopened, if_pos hvalidates]
  rw [hsucceeds] at houtcome
  generalize (store.setSection environment key value
    (deadline environment.nowMs ttl)).1.view = view at houtcome ⊢
  cases houtcome with
  | stored hrecord _ _ =>
      obtain ⟨hpending, entries, himage⟩ := hwhole
      rw [View.settled_of_pending hpending]
      exact .of_record hrecord hpending hcoherent himage laterMs
  | failed hfailed => cases hfailed.ok_eq

/-- The lifetime of a `set` is exact: no computation wraps, the stored expiry is
positive and what it should be, and however the store goes on without storing
or removing the key, every operation judges the key by it. -/
structure ExactTtl (environment : Environment) (key value : Bytes)
    (ttl : Int64) (seconds : ℤ) (store : KeyValueStore) : Prop where
  product : ttl.toInt = 1000 * seconds
  sum : (deadline environment.nowMs (some ttl)).toInt =
    environment.nowMs.toInt + ttl.toInt
  stored : ∃ metadata,
    (store.set environment key value (some ttl)).1.index.lookup key =
        some metadata ∧
      metadata.expiresAtMs.toInt = environment.nowMs.toInt + 1000 * seconds ∧
      0 < metadata.expiresAtMs.toInt
  judged : ∀ following : List Request, ∀ later : Environment,
    (∀ request ∈ following, request.environment.Faultless ∧
      request.nowMs ≤ later.nowMs ∧ Leaves key request.call) →
    later.Faultless →
    let final := (machine.run following
      (store.set environment key value (some ttl)).1).1
    final.opened = true →
    JudgesBy (environment.nowMs.toInt + 1000 * seconds) later key value final

/-- Inside `std::int64_t` the lifetime is exact. -/
theorem exactTtl_of_le (hfaultless : environment.Faultless)
    (hopened : store.opened = true) (hcoherent : store.view.Coherent)
    (hwhole : store.view.pending = [] ∧
      ∃ entries, store.view.bytes = logFormat.imageAll entries)
    {value : Bytes} {ttl : Int64} {seconds : ℤ}
    (hvalidates : (validateSet key value (some ttl)).ok = true)
    (hnow : 0 ≤ environment.nowMs.toInt) (hseconds : 0 < seconds)
    (hproduct : ttl.toInt = 1000 * seconds)
    (hrange : environment.nowMs.toInt + 1000 * seconds ≤
      Int64.maxValue.toInt) :
    ExactTtl environment key value ttl seconds store := by
  have hmaximum : Int64.maxValue.toInt = 2 ^ 63 - 1 := by decide
  have hsum : (deadline environment.nowMs (some ttl)).toInt =
      environment.nowMs.toInt + ttl.toInt := by
    rw [deadline, Int64.toInt_add]
    apply Int.bmod_eq_of_le <;> omega
  have hexact : (deadline environment.nowMs (some ttl)).toInt =
      environment.nowMs.toInt + 1000 * seconds := by
    rw [hsum, hproduct]
  have hpositive : 0 < (deadline environment.nowMs (some ttl)).toInt := by
    omega
  have hlasting := lasting_of_set hfaultless hopened hcoherent hwhole
    hvalidates
  refine ⟨hproduct, hsum, ?_, ?_⟩
  · have hfresh := isExpired_minValue
      (deadline environment.nowMs (some ttl))
    have hsame := (hlasting Int64.minValue).shown.eq_of_fresh hfresh
    obtain ⟨metadata, hfound, -, hexpiresAtMs⟩ :=
      View.contents_eq_some_iff.mp hsame
    exact ⟨metadata, hfound, by rw [hexpiresAtMs, hexact],
      by rw [hexpiresAtMs]; exact hpositive⟩
  · intro following later hfollowing hlater final hfinal
    have hkey : (validateKey key).ok = true := by
      have hvalid := valid_of_validateSet hvalidates 0
      exact (validateKey_ok_iff key).mpr ⟨hvalid.key_ne_nil, hvalid.key_size⟩
    have hstep : ∀ request before,
        before.view.Lasting later.nowMs key
          (some (value, deadline environment.nowMs (some ttl))) →
        request.environment.Faultless ∧ request.nowMs ≤ later.nowMs ∧
          Leaves key request.call →
        (machine.step request before).1.view.Lasting later.nowMs key
          (some (value, deadline environment.nowMs (some ttl))) :=
      fun _ _ hbefore hrequest => lasting_perform hbefore hrequest.1
        hrequest.2.1 hrequest.2.2
    have hkept := Machine.run_invariant hstep
      (.of_forall (fun request hrequest _ => hfollowing request hrequest) _)
      (hlasting later.nowMs)
    have hjudged := judgesBy_of_lasting hlater hfinal hkey hkept hpositive
    rwa [hexact] at hjudged

/-- The lifetime in a command line is exact as long as the sum of its
milliseconds and the clock reading is a `std::int64_t`. -/
theorem ttl_is_exact (config : StoreConfig) (data temporary : Option Bytes)
    (requests : List Request)
    (hfaultless : ∀ request ∈ requests, request.environment.Faultless)
    (environment : Environment) (henvironment : environment.Faultless)
    (hnow : 0 ≤ environment.nowMs) {input : Bytes} {command : Command}
    {ttl : Int64} (hparse : CommandParser.parse input = .ok command)
    (httl : command.ttl = some ttl) :
    let store := (machine.run requests (new config data temporary)).1
    store.opened = true →
    (validateSet command.key command.value command.ttl).ok = true →
    ∃ name word text seconds,
      CommandParser.tokenize input =
          .ok [name, command.key, command.value, word, text] ∧
        CommandParser.fromChars text = some (seconds, []) ∧
        (ExactTtl environment command.key command.value ttl seconds.toInt
            store ↔
          environment.nowMs.toInt + 1000 * seconds.toInt ≤
            Int64.maxValue.toInt) := by
  intro store hopened hvalidates
  obtain ⟨name, key, value, word, text, htokens, -, -, hnumber, rfl⟩ :=
    CommandParser.parse_ttl hparse httl
  obtain ⟨seconds, hseconds, hpositive, hproduct⟩ :=
    CommandParser.parseTtl_ok hnumber
  refine ⟨name, word, text, seconds, htokens, hseconds, ?_, ?_⟩
  · intro hexact
    obtain ⟨metadata, -, hexpiresAtMs, -⟩ := hexact.stored
    rw [← hexpiresAtMs]
    exact metadata.expiresAtMs.toInt_le
  · intro hrange
    have hcoherent : store.view.Coherent :=
      coherent_of_reachable (reachable_run (fun request hrequest =>
        (hfaultless request hrequest).toReliable) config data temporary)
    have hnew : ReplaysUntil Int64.maxValue (new config data temporary) :=
      ⟨rfl, fun hopens => by cases hopens⟩
    have hreplays : store.view.Replays Int64.maxValue :=
      (replays_run hfaultless (fun request _ => request.nowMs.le_maxValue)
        hnew).replays hopened
    obtain ⟨hpending, entries, himage, -⟩ := hreplays
    rw [Int64.le_iff_toInt_le, Int64.toInt_zero] at hnow
    exact exactTtl_of_le henvironment hopened hcoherent
      ⟨hpending, entries, himage⟩ hvalidates hnow hpositive hproduct hrange

/-- `SET a b TTL 9` at the reading 2. -/
theorem ttl_is_exact_for_nine_seconds :
    let input : Bytes :=
      [83, 69, 84, 32, 97, 32, 98, 32, 84, 84, 76, 32, 57]
    let store :=
      (machine.run [⟨.calm 1, .openStore⟩] (new .small none none)).1
    ∃ name word text seconds,
      CommandParser.tokenize input = .ok [name, [97], [98], word, text] ∧
        CommandParser.fromChars text = some (seconds, []) ∧
        (ExactTtl (.calm 2) [97] [98] 9000 seconds.toInt store ↔
          (2 : Int64).toInt + 1000 * seconds.toInt ≤ Int64.maxValue.toInt) := by
  intro input store
  have hparse : CommandParser.parse input =
      .ok ⟨.set, [97], [98], some 9000⟩ := by decide +kernel
  have hfaultless : ∀ request ∈ [⟨.calm 1, .openStore⟩],
      Environment.Faultless (Request.environment request) := by
    simp [Environment.faultless_calm]
  exact ttl_is_exact .small none none _ hfaultless (.calm 2)
    (Environment.faultless_calm 2) (by decide) hparse rfl
    (by decide +kernel) (by decide)

/-- `SET a b TTL 9223372036854775` at the reading 1000: the parser accepts the
line, the deadline wraps, and the key never expires. -/
theorem ttl_wraps_at_reading_thousand :
    let input : Bytes :=
      [83, 69, 84, 32, 97, 32, 98, 32, 84, 84, 76, 32, 57, 50, 50, 51, 51, 55,
      50, 48, 51, 54, 56, 53, 52, 55, 55, 53]
    let store :=
      (machine.run [⟨.calm 1, .openStore⟩] (new .small none none)).1
    let after := store.set (.calm 1000) [97] [98] (some 9223372036854775000)
    CommandParser.parse input =
        .ok ⟨.set, [97], [98], some 9223372036854775000⟩ ∧
      after.2 = .success ∧
      (after.1.index.lookup [97]).map (fun metadata =>
        metadata.expiresAtMs.toInt) = some (-9223372036854775616) ∧
      (after.1.get (.calm Int64.maxValue) [97]).2 = .ok [98] := by
  decide +kernel

end KeyValueStore

end MiniKV
