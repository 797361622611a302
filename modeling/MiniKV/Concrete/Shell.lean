import MiniKV.Concrete.CommandParser
import MiniKV.Concrete.KeyValueStore

/-!
# The command shell

`main` reads its arguments, opens a store and executes one command for each line
of the standard input.  A text is printed byte by byte, each byte standing for
one character.  The cleaner thread may purge between two lines; these passes are
part of the input of a session.
-/

namespace MiniKV.Shell

open CommandParser

/-! ## Arguments -/

/-- `std::from_chars` for `unsigned long long`, with the value and the rest
behind it. -/
def fromCharsUnsigned (text : Bytes) : Option (ℕ × Bytes) :=
  let digits := text.takeWhile isDigit
  if digits = [] then
    none
  else if decimal digits < 2 ^ 64 then
    some (decimal digits, text.dropWhile isDigit)
  else
    none

def parsePositiveSize (text : Bytes) : Option ℕ :=
  match fromCharsUnsigned text with
  | some (parsed, []) => if parsed = 0 then none else some parsed
  | _ => none

/-- The values that the fields of `StoreConfig` start with. -/
def defaultConfig : StoreConfig := ⟨"data/minikv.aof", 128, 1000, true⟩

/-- What the loop over the arguments ends with: a configuration, the help text,
or a message and whether the usage follows it. -/
inductive Arguments
  | serve (config : StoreConfig)
  | help
  | invalid (message : String) (showUsage : Bool)

def helpOptions : List Bytes :=
  [literal ['-', '-', 'h', 'e', 'l', 'p'], literal ['-', 'h']]

def dataOption : Bytes := literal ['-', '-', 'd', 'a', 't', 'a']

def cacheOption : Bytes := literal ['-', '-', 'c', 'a', 'c', 'h', 'e']

def cleanupOption : Bytes :=
  literal ['-', '-', 'c', 'l', 'e', 'a', 'n', 'u', 'p', '-', 'm', 's']

def unknownArgument (argument : Bytes) : Arguments :=
  .invalid ("Unknown or incomplete argument: " ++ shownText argument ++ "\n")
    true

/-- The loop over the arguments.  The conversion of a size to a signed number of
milliseconds wraps. -/
def readArguments : List Bytes → StoreConfig → Arguments
  | [], config => .serve config
  | argument :: rest, config =>
      if argument ∈ helpOptions then
        .help
      else
        match rest with
        | [] => unknownArgument argument
        | value :: others =>
            if argument = dataOption then
              readArguments others { config with dataFile := shownText value }
            else if argument = cacheOption then
              match parsePositiveSize value with
              | none => .invalid "Invalid cache capacity.\n" false
              | some capacity =>
                  readArguments others { config with cacheCapacity := capacity }
            else if argument = cleanupOption then
              match parsePositiveSize value with
              | none => .invalid "Invalid cleanup interval.\n" false
              | some milliseconds =>
                  readArguments others
                    { config with
                      cleanupIntervalMs := Int64.ofNat milliseconds }
            else
              unknownArgument argument

/-! ## Printing -/

def usage (program : String) : String :=
  "Usage: " ++ program ++
    " [--data PATH] [--cache CAPACITY] [--cleanup-ms MILLISECONDS]\n"

/-- What `printHelp` prints. -/
def helpText : String :=
  "Commands:\n" ++
  "  SET key value                 Store a value\n" ++
  "  SET key value TTL seconds     Store a value with expiration\n" ++
  "  GET key                       Read a value\n" ++
  "  DEL key                       Delete a value\n" ++
  "  EXISTS key                    Test whether a key exists\n" ++
  "  KEYS [prefix]                 List keys, optionally by prefix\n" ++
  "  STATS                         Show engine and cache statistics\n" ++
  "  COMPACT                       Rewrite only live records\n" ++
  "  HELP                          Show this help\n" ++
  "  EXIT                          Close the store and exit\n" ++
  "Quote values containing spaces, for example:\n" ++
  "  SET greeting \"hello world\" TTL 60\n"

/-- What `printStatistics` prints.  The hit rate is a rounded floating-point
number, whose text is a parameter. -/
def statisticsText (hitRate : CacheStatistics → String)
    (statistics : EngineStatistics) : String :=
  "keys                : " ++ toString statistics.keyCount ++ "\n" ++
  "data file bytes     : " ++ toString statistics.dataFileBytes ++ "\n" ++
  "SET operations      : " ++ toString statistics.setOperations ++ "\n" ++
  "GET operations      : " ++ toString statistics.getOperations ++ "\n" ++
  "DEL operations      : " ++ toString statistics.deleteOperations ++ "\n" ++
  "expired keys        : " ++ toString statistics.expiredKeys ++ "\n" ++
  "compactions         : " ++ toString statistics.compactions ++ "\n" ++
  "recovered records   : " ++ toString statistics.recoveredRecords ++ "\n" ++
  "truncated tail bytes: " ++ toString statistics.truncatedTailBytes ++ "\n" ++
  "cache size/capacity : " ++ toString statistics.cache.size ++ "/" ++
    toString statistics.cache.capacity ++ "\n" ++
  "cache hits          : " ++ toString statistics.cache.hits ++ "\n" ++
  "cache misses        : " ++ toString statistics.cache.misses ++ "\n" ++
  "cache evictions     : " ++ toString statistics.cache.evictions ++ "\n" ++
  "cache hit rate      : " ++ hitRate statistics.cache ++ "%\n"

def errorText (status : Status) : String :=
  "(error) " ++ status.toString ++ "\n"

def setText (status : Status) : String :=
  if status.ok then "OK\n" else errorText status

def getText : Result Bytes → String
  | .ok value => shownText value ++ "\n"
  | .error status =>
      if status.code = .notFound then "(nil)\n" else errorText status

def deleteText (status : Status) : String :=
  if status.ok then
    "1\n"
  else if status.code = .notFound then
    "0\n"
  else
    errorText status

def existsText : Result Bool → String
  | .ok flag => if flag then "1\n" else "0\n"
  | .error status => errorText status

/-- The keys with their numbers, the first of which is `number`. -/
def numberedKeys : ℕ → List Bytes → String
  | _, [] => ""
  | number, key :: keys =>
      toString number ++ ") " ++ shownText key ++ "\n" ++
        numberedKeys (number + 1) keys

def keysText : Result (List Bytes) → String
  | .ok keys => numberedKeys 1 keys ++ toString keys.length ++ " key(s)\n"
  | .error status => errorText status

def compactText : Result CompactionSummary → String
  | .ok summary =>
      "OK: " ++ toString summary.liveKeys ++ " live key(s), " ++
        toString summary.oldFileBytes ++ " -> " ++
        toString summary.newFileBytes ++ " bytes\n"
  | .error status => errorText status

/-! ## The session -/

/-- A line of the input with what its command learns from outside, or a pass of
the cleaner thread. -/
inductive Turn
  | line (text : Bytes) (environment : Environment) (fileSizeFailed : Bool)
  | cleaner (environment : Environment)

def Turn.environment : Turn → Environment
  | .line _ environment _ => environment
  | .cleaner environment => environment

/-- The text for a status, unless the call has ended with an exception. -/
def unlessThrown (status : Status) (text : String) : Except String String :=
  if status.code = .thrown then .error status.message else .ok text

/-- The text for a result, unless the call has ended with an exception. -/
def resultText {T : Type} (text : Result T → String) (result : Result T) :
    Except String String :=
  match result with
  | .ok _ => .ok (text result)
  | .error status => unlessThrown status (text result)

/-- The `switch` over the type of a command: the store behind it, and the text
that is printed or the exception that is let through. -/
def execute (hitRate : CacheStatistics → String) (environment : Environment)
    (fileSizeFailed : Bool) (command : Command) (store : KeyValueStore) :
    KeyValueStore × Except String String :=
  match command.type with
  | .set =>
      let result := store.set environment command.key command.value command.ttl
      (result.1, unlessThrown result.2 (setText result.2))
  | .get =>
      let result := store.get environment command.key
      (result.1, resultText getText result.2)
  | .delete =>
      let result := store.remove environment command.key
      (result.1, unlessThrown result.2 (deleteText result.2))
  | .exists =>
      let result := store.keyExists environment command.key
      (result.1, resultText existsText result.2)
  | .keys =>
      let result := store.keys environment command.key
      (result.1, resultText keysText result.2)
  | .stats =>
      (store, .ok (statisticsText hitRate (store.statistics fileSizeFailed)))
  | .compact =>
      let result := store.compact environment
      (result.1, resultText compactText result.2)
  | .help => (store, .ok helpText)
  | .exit => (store.close.1, .ok "Bye.\n")

/-- What a session ends with: the store, what has been printed behind each
prompt, and the exception that has ended it. -/
structure Session where
  store : KeyValueStore
  texts : List String
  exception : Option String

/-- The session with one more text in front. -/
def Session.behind (text : String) (session : Session) : Session :=
  { session with texts := text :: session.texts }

/-- The loop over the lines.  An exception leaves the store open. -/
def session (hitRate : CacheStatistics → String) :
    List Turn → KeyValueStore → Session
  | [], store => ⟨store.close.1, ["\n"], none⟩
  | .cleaner environment :: turns, store =>
      session hitRate turns (store.cleanupExpired environment).1
  | .line text environment fileSizeFailed :: turns, store =>
      match parse text with
      | .error status =>
          (session hitRate turns store).behind (errorText status)
      | .ok command =>
          match execute hitRate environment fileSizeFailed command store with
          | (store, .error what) => ⟨store, [""], some what⟩
          | (store, .ok output) =>
              if command.type = .exit then
                ⟨store, [output], none⟩
              else
                (session hitRate turns store).behind output

/-! ## The program -/

/-- The lines that `std::getline` reads; the last one may lack its newline. -/
def inputLines : Bytes → List Bytes
  | [] => []
  | byte :: bytes =>
      if byte = newline then
        [] :: inputLines bytes
      else
        match inputLines bytes with
        | [] => [[byte]]
        | line :: lines => (byte :: line) :: lines

def banner : String :=
  "MiniKV Store 1.0\n" ++
  "Persistent C++17 key-value engine. Type HELP for commands.\n"

/-- What the disk holds at the path of the store. -/
structure Disk where
  data : Option Bytes
  temporary : Option Bytes

/-- How the program ends: it returns `EXIT_SUCCESS` or `EXIT_FAILURE`, or it is
aborted with an exception, since `main` catches none. -/
inductive Ending
  | success
  | failure
  | aborted (what : String)

/-- What a process leaves on the disk, how it ends and what it prints; a session
is given by what it prints behind each prompt. -/
structure Outcome where
  disk : Disk
  ending : Ending
  out : String
  session : List String
  err : String

/-- A run of the program.  `drain` is the fault of writing the put area when the
store is destroyed. -/
structure Process where
  program : String
  arguments : List Bytes
  hitRate : CacheStatistics → String
  opening : Environment
  turns : List Turn
  drain : Option ℕ

/-- What the destructor of the store leaves. -/
def destroyed (drain : Option ℕ) (storage : AppendOnlyStore) : Disk :=
  ⟨(storage.closeFile drain).data, (storage.closeFile drain).temporary⟩

/-- No destructor runs when the program is aborted. -/
def aborted (storage : AppendOnlyStore) : Disk :=
  ⟨storage.data, storage.temporary⟩

/-- What the process does with the files of its path. -/
def main (process : Process) (disk : Disk) : Outcome :=
  match readArguments process.arguments defaultConfig with
  | .help => ⟨disk, .success, usage process.program, [], ""⟩
  | .invalid message showUsage =>
      ⟨disk, .failure, if showUsage then usage process.program else "", [],
        message⟩
  | .serve config =>
      let store := KeyValueStore.new config disk.data disk.temporary
      let opened := store.openStore process.opening
      if opened.2.ok then
        let served := session process.hitRate process.turns opened.1
        match served.exception with
        | some what =>
            ⟨aborted served.store.storage, .aborted what, banner, served.texts,
              ""⟩
        | none =>
            ⟨destroyed process.drain served.store.storage, .success, banner,
              served.texts, ""⟩
      else if opened.2.code = .thrown then
        ⟨aborted opened.1.storage, .aborted opened.2.message, "", [], ""⟩
      else
        ⟨destroyed process.drain opened.1.storage, .failure, "", [],
          "Failed to open MiniKV Store: " ++ opened.2.toString ++ "\n"⟩

end MiniKV.Shell
