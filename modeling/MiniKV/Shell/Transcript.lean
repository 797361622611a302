import MiniKV.Concrete.Shell
import MiniKV.Store.Maintenance

/-!
# What the shell prints

The text behind each prompt is what the timed map says, or it reports a failure
that has changed nothing, unless an exception aborts the program there.  One map
serves all the processes that work on a path one after the other.
-/

namespace MiniKV

open KeyValueStore TimedMap

namespace CommandParser

/-! ## Rejected lines -/

theorem failsWith_step (scanner : Scanner) (character : UInt8) :
    FailsWith False [.invalidArgument] (scanner.step character) := by
  unfold Scanner.step
  repeat' split
  all_goals simp [Status.Fails, Status.invalidArgument]

theorem failsWith_scan (input : Bytes) (scanner : Scanner) :
    FailsWith False [.invalidArgument] (input.foldlM Scanner.step scanner) := by
  induction input generalizing scanner with
  | nil => exact trivial
  | cons character input ih =>
      have hstep := failsWith_step scanner character
      rw [List.foldlM_cons]
      cases hnext : scanner.step character with
      | error status =>
          rw [hnext] at hstep
          exact hstep
      | ok next => exact ih next

end CommandParser

namespace KeyValueStore

variable {store : KeyValueStore} {map : TimedMap}

end KeyValueStore

namespace Shell

open CommandParser

/-- The file system may fail, but an append that fails leaves nothing in the file
or in the put area, the file opens again behind a compaction, and recovery reads
in full. -/
structure Gentle (environment : Environment) : Prop where
  append : ¬ environment.Lossy
  compact : ¬ AppendOnlyStore.ReopenFails environment.compact.reopen
  recover : ∀ position, environment.recover.FullAt position

/-- The deadline of the command stays within `std::int64_t`. -/
def CommandInRange (environment : Environment) (command : Command) : Prop :=
  ∀ count, command.ttl = some count → 0 < count →
    environment.nowMs.toInt + count.toInt < 2 ^ 63

def Turn.InRange : Turn → Prop
  | .line text environment _ =>
      ∀ command, parse text = .ok command → CommandInRange environment command
  | .cleaner _ => True

/-! ## The texts -/

/-- What may be printed for a command, with the map behind it. -/
inductive Shows (hitRate : CacheStatistics → String) (map : TimedMap)
    (environment : Environment) : Command → String → TimedMap → Prop
  | stored {key value : Bytes} {ttl : Option Int64}
      (haccepted : AcceptedSet key value ttl)
      (hworks : environment.append.fault = none) :
      Shows hitRate map environment ⟨.set, key, value, ttl⟩ "OK\n"
        (Function.update map key (some (value, expiry environment.nowMs ttl)))
  | found {key value stored : Bytes} {ttl : Option Int64}
      (hlive : map.Live environment.nowMs key value) :
      Shows hitRate map environment ⟨.get, key, stored, ttl⟩
        (shownText value ++ "\n") map
  | nothing {key stored : Bytes} {ttl : Option Int64}
      (haccepted : AcceptedKey key)
      (hmissing : ¬ map.Present environment.nowMs key) :
      Shows hitRate map environment ⟨.get, key, stored, ttl⟩ "(nil)\n" map
  | deleted {key stored : Bytes} {ttl : Option Int64}
      (hpresent : map.Present environment.nowMs key)
      (hworks : environment.append.fault = none) :
      Shows hitRate map environment ⟨.delete, key, stored, ttl⟩ "1\n"
        (Function.update map key none)
  | undeleted {key stored : Bytes} {ttl : Option Int64}
      (haccepted : AcceptedKey key)
      (hmissing : ¬ map.Present environment.nowMs key) :
      Shows hitRate map environment ⟨.delete, key, stored, ttl⟩ "0\n" map
  | there {key stored : Bytes} {ttl : Option Int64}
      (hpresent : map.Present environment.nowMs key) :
      Shows hitRate map environment ⟨.exists, key, stored, ttl⟩ "1\n" map
  | gone {key stored : Bytes} {ttl : Option Int64}
      (haccepted : AcceptedKey key)
      (hmissing : ¬ map.Present environment.nowMs key) :
      Shows hitRate map environment ⟨.exists, key, stored, ttl⟩ "0\n" map
  | listed {start stored : Bytes} {ttl : Option Int64} {listed : List Bytes}
      (hascending : listed.Pairwise (· < ·))
      (hlisted : ∀ key, key ∈ listed ↔
        map.Present environment.nowMs key ∧ start <+: key) :
      Shows hitRate map environment ⟨.keys, start, stored, ttl⟩
        (numberedKeys 1 listed ++ toString listed.length ++ " key(s)\n") map
  | statistics {command : Command} (statistics : EngineStatistics)
      (htype : command.type = .stats) :
      Shows hitRate map environment command
        (statisticsText hitRate statistics) map
  | compacted {command : Command} (summary : CompactionSummary)
      (htype : command.type = .compact) :
      Shows hitRate map environment command (compactText (.ok summary)) map
  | help {command : Command} (htype : command.type = .help) :
      Shows hitRate map environment command helpText map
  | rejected {command : Command} {status : Status}
      (hcode : status.code = .invalidArgument)
      (hlimits : ¬ (AcceptedKey command.key ∧ (command.type = .set →
        AcceptedSet command.key command.value command.ttl))) :
      Shows hitRate map environment command (errorText status) map
  | failed {command : Command} {status : Status}
      (hcode : status.code = .ioError ∨ status.code = .corruption)
      (hfails : ¬ environment.Faultless) :
      Shows hitRate map environment command (errorText status) map

/-- What a command does: it prints a text, or an exception has changed
nothing. -/
inductive Executes (hitRate : CacheStatistics → String) (map : TimedMap)
    (environment : Environment) (command : Command) :
    Except String String → TimedMap → Prop
  | shown {output : String} {next : TimedMap}
      (hshows : Shows hitRate map environment command output next) :
      Executes hitRate map environment command (.ok output) next
  | thrown (what : String) (hfails : ¬ environment.Faultless) :
      Executes hitRate map environment command (.error what) map

/-- The texts behind the prompts of a session, the exception that ends it, and
the map that it leaves. -/
inductive Transcript (hitRate : CacheStatistics → String) :
    TimedMap → List Turn → List String → Option String → TimedMap → Prop
  | ended (map : TimedMap) : Transcript hitRate map [] ["\n"] none map
  | cleaned {map last : TimedMap} {environment : Environment}
      {turns : List Turn} {texts : List String} {exception : Option String}
      (hrest : Transcript hitRate map turns texts exception last) :
      Transcript hitRate map (.cleaner environment :: turns) texts exception
        last
  | garbled {map last : TimedMap} {text : Bytes} {environment : Environment}
      {fileSizeFailed : Bool} {status : Status} {turns : List Turn}
      {texts : List String} {exception : Option String}
      (hparse : parse text = .error status)
      (hcode : status.code = .invalidArgument)
      (hrest : Transcript hitRate map turns texts exception last) :
      Transcript hitRate map (.line text environment fileSizeFailed :: turns)
        (errorText status :: texts) exception last
  | shown {map next last : TimedMap} {text : Bytes} {environment : Environment}
      {fileSizeFailed : Bool} {command : Command} {output : String}
      {turns : List Turn} {texts : List String} {exception : Option String}
      (hparse : parse text = .ok command) (htype : command.type ≠ .exit)
      (hshows : Shows hitRate map environment command output next)
      (hrest : Transcript hitRate next turns texts exception last) :
      Transcript hitRate map (.line text environment fileSizeFailed :: turns)
        (output :: texts) exception last
  | aborted {map : TimedMap} {text : Bytes} {environment : Environment}
      {fileSizeFailed : Bool} {command : Command} {turns : List Turn}
      (what : String) (hparse : parse text = .ok command)
      (hfails : ¬ environment.Faultless) :
      Transcript hitRate map (.line text environment fileSizeFailed :: turns)
        [""] (some what) map
  | left {map : TimedMap} {text : Bytes} {environment : Environment}
      {fileSizeFailed : Bool} {command : Command} {turns : List Turn}
      (hparse : parse text = .ok command) (htype : command.type = .exit) :
      Transcript hitRate map (.line text environment fileSizeFailed :: turns)
        ["Bye.\n"] none map

/-! ## One command -/

section Commands

variable {hitRate : CacheStatistics → String} {environment : Environment}
variable {map next : TimedMap} {key stored : Bytes} {ttl : Option Int64}

end Commands

variable {hitRate : CacheStatistics → String} {environment : Environment}
variable {store : KeyValueStore} {map : TimedMap} {startMs : Int64}

/-- The clock reading of a turn. -/
def Turn.nowMs (turn : Turn) : Int64 := turn.environment.nowMs

def Process.readings (process : Process) : List Int64 :=
  process.opening.nowMs :: process.turns.map Turn.nowMs

/-- The process works on this path, under a gentle file system. -/
structure Process.Fits (path : String) (process : Process) : Prop where
  path : ∀ config, readArguments process.arguments defaultConfig =
    .serve config → config.dataFile = path
  opening : Gentle process.opening
  turns : ∀ turn ∈ process.turns, Gentle turn.environment ∧ turn.InRange

/-- How the program ends behind a session. -/
def endingOf : Option String → Ending
  | none => .success
  | some what => .aborted what

/-- What a process prints and how it ends, with the map behind it. -/
inductive Process.Tells (process : Process) (map : TimedMap) :
    Outcome → TimedMap → Prop
  | served {outcome : Outcome} {last : TimedMap} {config : StoreConfig}
      {exception : Option String}
      (harguments : readArguments process.arguments defaultConfig =
        .serve config)
      (hending : outcome.ending = endingOf exception)
      (hout : outcome.out = banner)
      (htranscript : Transcript process.hitRate map process.turns
        outcome.session exception last) :
      Tells process map outcome last
  | unopened {outcome : Outcome} {config : StoreConfig} {status : Status}
      (harguments : readArguments process.arguments defaultConfig =
        .serve config)
      (hending : outcome.ending = .failure) (hsession : outcome.session = [])
      (herr : outcome.err =
        "Failed to open MiniKV Store: " ++ status.toString ++ "\n")
      (hcause : process.opening.Reliable → config.cleanupIntervalMs ≤ 0) :
      Tells process map outcome map
  | aborted {outcome : Outcome} {config : StoreConfig} (what : String)
      (harguments : readArguments process.arguments defaultConfig =
        .serve config)
      (hending : outcome.ending = .aborted what)
      (hsession : outcome.session = [])
      (hcause : process.opening.Reliable → config.cleanupIntervalMs ≤ 0) :
      Tells process map outcome map
  | turnedAway {outcome : Outcome}
      (harguments : ∀ config,
        readArguments process.arguments defaultConfig ≠ .serve config)
      (hsession : outcome.session = []) :
      Tells process map outcome map

theorem interval_of_ok (hclosed : store.opened = false)
    (hopens : (store.openStore environment).2.ok = true) :
    0 < store.config.cleanupIntervalMs := by
  rw [openStore, if_neg (by rw [hclosed]; exact Bool.false_ne_true)] at hopens
  split at hopens
  · cases hopens
  next hinterval => exact Int64.not_le.mp hinterval

/-- An empty put area leaves nothing to the destructor. -/
theorem bytes_destroyed {storage : AppendOnlyStore}
    (hpending : storage.pending = []) (drain : Option ℕ) :
    (destroyed drain storage).data.getD [] = storage.bytes := by
  have hbytes := storage.bytes_closeFile drain
  rwa [hpending, AppendOnlyStore.drained_nil, List.append_nil] at hbytes

end Shell

end MiniKV
