import MiniKV.Store.Runs

/-!
# What the store is for

The store stands for a map from keys to a value and an expiry.  This file says
which replies such a map allows to each call; it knows no file, no index and no
cache.
-/

namespace MiniKV

/-- Each key with its value and its expiry; an expiry of zero or less means
that the key does not expire. -/
abbrev TimedMap := Bytes → Option (Bytes × ℤ)

namespace TimedMap

/-- The key has this value at a clock reading. -/
def Live (map : TimedMap) (nowMs : Int64) (key value : Bytes) : Prop :=
  ∃ expiry, map key = some (value, expiry) ∧
    (expiry ≤ 0 ∨ nowMs.toInt < expiry)

/-- The key is there at a clock reading. -/
def Present (map : TimedMap) (nowMs : Int64) (key : Bytes) : Prop :=
  ∃ value, map.Live nowMs key value

/-- The keys that the store can hold. -/
def AcceptedKey (key : Bytes) : Prop :=
  key ≠ [] ∧ key.length ≤ kMaximumKeySize

/-- The arguments that `set` does not reject. -/
structure AcceptedSet (key value : Bytes) (ttl : Option Int64) : Prop where
  key : AcceptedKey key
  value : value.length ≤ kMaximumValueSize
  ttl : ∀ count, ttl = some count → 0 < count

/-- The expiry of a value stored at a clock reading, without overflow. -/
def expiry (nowMs : Int64) : Option Int64 → ℤ
  | none => 0
  | some count => nowMs.toInt + count.toInt

/-- The replies to one call, with the map before and after it. -/
inductive Allowed (before : TimedMap) : Request → Reply → TimedMap → Prop
  | set {environment : Environment} {key value : Bytes} {ttl : Option Int64}
      (haccepted : AcceptedSet key value ttl)
      (hfault : environment.append.fault = none) :
      Allowed before ⟨environment, .set key value ttl⟩ (.status .success)
        (Function.update before key
          (some (value, expiry environment.nowMs ttl)))
  | setFailed {environment : Environment} {key value : Bytes}
      {ttl : Option Int64} {status : Status}
      (haccepted : AcceptedSet key value ttl)
      (hfails : environment.FailsAppend)
      (hstatus : status.code = .ioError) :
      Allowed before ⟨environment, .set key value ttl⟩ (.status status) before
  | setRejected {environment : Environment} {key value : Bytes}
      {ttl : Option Int64} {status : Status}
      (hrejected : ¬ AcceptedSet key value ttl)
      (hstatus : status.code = .invalidArgument) :
      Allowed before ⟨environment, .set key value ttl⟩ (.status status) before
  | got {environment : Environment} {key value : Bytes}
      (haccepted : AcceptedKey key)
      (hlive : before.Live environment.nowMs key value) :
      Allowed before ⟨environment, .get key⟩ (.value (.ok value)) before
  | gotNothing {environment : Environment} {key : Bytes} {status : Status}
      (haccepted : AcceptedKey key)
      (hmissing : ¬ before.Present environment.nowMs key)
      (hstatus : status.code = .notFound) :
      Allowed before ⟨environment, .get key⟩ (.value (.error status)) before
  | getRejected {environment : Environment} {key : Bytes} {status : Status}
      (hrejected : ¬ AcceptedKey key)
      (hstatus : status.code = .invalidArgument) :
      Allowed before ⟨environment, .get key⟩ (.value (.error status)) before
  | existsTrue {environment : Environment} {key : Bytes}
      (haccepted : AcceptedKey key)
      (hpresent : before.Present environment.nowMs key) :
      Allowed before ⟨environment, .keyExists key⟩ (.flag (.ok true)) before
  | existsFalse {environment : Environment} {key : Bytes}
      (haccepted : AcceptedKey key)
      (hmissing : ¬ before.Present environment.nowMs key) :
      Allowed before ⟨environment, .keyExists key⟩ (.flag (.ok false)) before
  | existsRejected {environment : Environment} {key : Bytes} {status : Status}
      (hrejected : ¬ AcceptedKey key)
      (hstatus : status.code = .invalidArgument) :
      Allowed before ⟨environment, .keyExists key⟩ (.flag (.error status))
        before
  | removed {environment : Environment} {key : Bytes}
      (haccepted : AcceptedKey key)
      (hpresent : before.Present environment.nowMs key)
      (hfault : environment.append.fault = none) :
      Allowed before ⟨environment, .remove key⟩ (.status .success)
        (Function.update before key none)
  | removedNothing {environment : Environment} {key : Bytes} {status : Status}
      (haccepted : AcceptedKey key)
      (hmissing : ¬ before.Present environment.nowMs key)
      (hstatus : status.code = .notFound) :
      Allowed before ⟨environment, .remove key⟩ (.status status) before
  | removeFailed {environment : Environment} {key : Bytes} {status : Status}
      (haccepted : AcceptedKey key)
      (hpresent : before.Present environment.nowMs key)
      (hfails : environment.FailsAppend)
      (hstatus : status.code = .ioError) :
      Allowed before ⟨environment, .remove key⟩ (.status status) before
  | removeRejected {environment : Environment} {key : Bytes} {status : Status}
      (hrejected : ¬ AcceptedKey key)
      (hstatus : status.code = .invalidArgument) :
      Allowed before ⟨environment, .remove key⟩ (.status status) before
  | keys {environment : Environment} {start : Bytes} {listed : List Bytes}
      (hascending : listed.Pairwise (· < ·))
      (hlisted : ∀ key, key ∈ listed ↔
        before.Present environment.nowMs key ∧ start <+: key) :
      Allowed before ⟨environment, .keys start⟩ (.listing (.ok listed)) before
  | cleaned {environment : Environment} {removed : ℕ} :
      Allowed before ⟨environment, .cleanupExpired⟩ (.count removed) before
  | compacted {environment : Environment} {summary : CompactionSummary} :
      Allowed before ⟨environment, .compact⟩ (.summary (.ok summary)) before

/-- The map behind a ledger of machine integers. -/
def ofLedger (ledger : Ledger) : TimedMap := fun key =>
  (ledger key).map fun stored => (stored.1, stored.2.toInt)

theorem ofLedger_update (ledger : Ledger) (key : Bytes)
    (stored : Option (Bytes × Int64)) :
    ofLedger (Function.update ledger key stored) =
      Function.update (ofLedger ledger) key
        (stored.map fun found => (found.1, found.2.toInt)) := by
  funext other
  by_cases hother : other = key
  · subst hother
    rw [Function.update_self, ofLedger, Function.update_self]
  · rw [Function.update_of_ne hother, ofLedger, ofLedger,
      Function.update_of_ne hother]

theorem live_ofLedger {ledger : Ledger} {nowMs : Int64} {key value : Bytes} :
    (ofLedger ledger).Live nowMs key value ↔
      ∃ expiresAtMs, ledger key = some (value, expiresAtMs) ∧
        isExpired expiresAtMs nowMs = false := by
  constructor
  · rintro ⟨expiry, hstored, hexpiry⟩
    obtain ⟨⟨stored, expiresAtMs⟩, hledger, heq⟩ :=
      Option.map_eq_some_iff.mp hstored
    cases heq
    exact ⟨expiresAtMs, hledger, isExpired_eq_false_iff.mpr hexpiry⟩
  · rintro ⟨expiresAtMs, hledger, hfresh⟩
    refine ⟨expiresAtMs.toInt, ?_, isExpired_eq_false_iff.mp hfresh⟩
    rw [ofLedger, hledger]
    rfl

/-- The map that the records of a log stand for: the last record of a key
decides. -/
def ofLog (entries : List LogEntry) : TimedMap := fun key =>
  (lastEntry key entries).bind fun found =>
    if found.2.record.operation = .set then
      some (found.2.record.value, found.2.record.expiresAtMs.toInt)
    else
      none

end TimedMap

end MiniKV
