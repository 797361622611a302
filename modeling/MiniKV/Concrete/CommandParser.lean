import MiniKV.Concrete.Record

/-!
# The command parser

`tokenize` is a loop over the input with three flags.  Its state is a structure
and one turn of the loop a function, so that the loop is a monadic fold.  The
names of the commands are compared byte by byte after `uppercase`.
-/

namespace MiniKV

inductive CommandType
  | set
  | get
  | delete
  | exists
  | keys
  | stats
  | compact
  | help
  | exit
  deriving DecidableEq, Repr

/-- The lifetime counts milliseconds. -/
structure Command where
  type : CommandType := .help
  key : Bytes := []
  value : Bytes := []
  ttl : Option Int64 := none
  deriving DecidableEq

namespace CommandParser

/-- A string literal of the source. -/
def literal (characters : List Char) : Bytes :=
  characters.map fun character => UInt8.ofNat character.toNat

def newline : UInt8 := 10

def tabulator : UInt8 := 9

def doubleQuote : UInt8 := 34

def backslash : UInt8 := 92

/-- `std::isspace` in the C locale. -/
def isSpace (character : UInt8) : Bool :=
  character == 32 || (9 ≤ character.toNat && character.toNat ≤ 13)

/-- `std::toupper` in the C locale. -/
def toUpper (character : UInt8) : UInt8 :=
  if 97 ≤ character.toNat ∧ character.toNat ≤ 122 then
    character - 32
  else
    character

def uppercase (text : Bytes) : Bytes :=
  text.map toUpper

/-! ## Numbers -/

/-- `0` to `9`. -/
def isDigit (character : UInt8) : Bool :=
  48 ≤ character.toNat && character.toNat ≤ 57

/-- The number that a row of decimal digits stands for. -/
def decimal (digits : Bytes) : ℕ :=
  digits.foldl (fun value digit => 10 * value + (digit.toNat - 48)) 0

/-- The minus sign, which `std::from_chars` takes, and what follows it. -/
def splitSign : Bytes → Bool × Bytes
  | 45 :: rest => (true, rest)
  | text => (false, text)

/-- `std::from_chars` for `std::int64_t`, with the value and the rest behind
it: nothing when no digit is there or the number is out of range. -/
def fromChars (text : Bytes) : Option (Int64 × Bytes) :=
  let signed := splitSign text
  let digits := signed.2.takeWhile isDigit
  let number : ℤ := if signed.1 then -(decimal digits : ℤ) else decimal digits
  if digits = [] then
    none
  else if Int64.minValue.toInt ≤ number ∧ number ≤ Int64.maxValue.toInt then
    some (Int64.ofInt number, signed.2.dropWhile isDigit)
  else
    none

/-- The lifetime in milliseconds. -/
def parseTtl (text : Bytes) : Result Int64 :=
  match fromChars text with
  | some (seconds, []) =>
      if seconds ≤ 0 then
        .error (.invalidArgument
          "TTL must be a positive integer number of seconds")
      else if seconds > Int64.maxValue / 1000 then
        .error (.invalidArgument "TTL is too large")
      else
        .ok (seconds * 1000)
  | _ =>
      .error (.invalidArgument
        "TTL must be a positive integer number of seconds")

/-! ## Tokens -/

/-- The local variables of `tokenize`. -/
structure Scanner where
  tokens : List Bytes := []
  current : Bytes := []
  inQuotes : Bool := false
  escaping : Bool := false
  tokenStarted : Bool := false

/-- The character that an escape sequence stands for. -/
def unescape (character : UInt8) : Option UInt8 :=
  if character = 110 then
    some newline
  else if character = 116 then
    some tabulator
  else if character = doubleQuote ∨ character = backslash then
    some character
  else
    none

namespace Scanner

/-- `current.push_back(character)`, which starts a token. -/
def push (character : UInt8) (scanner : Scanner) : Scanner :=
  { scanner with
    current := scanner.current ++ [character]
    tokenStarted := true }

/-- A started token is complete. -/
def flush (scanner : Scanner) : Scanner :=
  if scanner.tokenStarted then
    { scanner with
      tokens := scanner.tokens ++ [scanner.current]
      current := []
      tokenStarted := false }
  else
    scanner

/-- One turn of the loop. -/
def step (scanner : Scanner) (character : UInt8) : Result Scanner :=
  if scanner.escaping then
    match unescape character with
    | none => .error (.invalidArgument "unsupported escape sequence")
    | some decoded => .ok { scanner.push decoded with escaping := false }
  else if scanner.inQuotes ∧ character = backslash then
    .ok { scanner with escaping := true }
  else if character = doubleQuote then
    .ok { scanner with
      inQuotes := !scanner.inQuotes
      tokenStarted := true }
  else if ¬ scanner.inQuotes ∧ isSpace character then
    .ok scanner.flush
  else
    .ok (scanner.push character)

/-- What stands behind the loop. -/
def finish (scanner : Scanner) : Result (List Bytes) :=
  if scanner.escaping then
    .error (.invalidArgument "unfinished escape sequence")
  else if scanner.inQuotes then
    .error (.invalidArgument "missing closing quote")
  else
    .ok scanner.flush.tokens

end Scanner

def tokenize (input : Bytes) : Result (List Bytes) :=
  match input.foldlM Scanner.step {} with
  | .error status => .error status
  | .ok scanner => scanner.finish

/-! ## Commands -/

def requireSize (tokens : List Bytes) (expected : ℕ) (usage : String) :
    Status :=
  if tokens.length ≠ expected then
    .invalidArgument ("usage: " ++ usage)
  else
    .success

/-- `tokens[index]`; the number of tokens has been checked. -/
def token (tokens : List Bytes) (index : ℕ) : Bytes :=
  tokens.getD index []

/-- The branch of a command that takes one key. -/
def keyCommand (type : CommandType) (usage : String) (tokens : List Bytes) :
    Result Command :=
  if (requireSize tokens 2 usage).ok then
    .ok { type := type, key := token tokens 1 }
  else
    .error (requireSize tokens 2 usage)

/-- The branch of a command that takes nothing. -/
def bareCommand (type : CommandType) (usage : String) (tokens : List Bytes) :
    Result Command :=
  if (requireSize tokens 1 usage).ok then
    .ok { type := type }
  else
    .error (requireSize tokens 1 usage)

def setUsage : Status :=
  .invalidArgument "usage: SET key value [TTL seconds]"

def setCommand (tokens : List Bytes) : Result Command :=
  let command : Command :=
    { type := .set, key := token tokens 1, value := token tokens 2 }
  if tokens.length ≠ 3 ∧ tokens.length ≠ 5 then
    .error setUsage
  else if tokens.length = 5 then
    if uppercase (token tokens 3) ≠ literal ['T', 'T', 'L'] then
      .error setUsage
    else
      match parseTtl (token tokens 4) with
      | .error status => .error status
      | .ok ttl => .ok { command with ttl := some ttl }
  else
    .ok command

def keysCommand (tokens : List Bytes) : Result Command :=
  if tokens.length > 2 then
    .error (.invalidArgument "usage: KEYS [prefix]")
  else if tokens.length = 2 then
    .ok { type := .keys, key := token tokens 1 }
  else
    .ok { type := .keys }

/-- The bytes of a string as the text of a message. -/
def shownText (text : Bytes) : String :=
  .ofList (text.map fun byte => Char.ofNat byte.toNat)

/-- The branches of `parse` by the name of the command. -/
def interpret (tokens : List Bytes) : Result Command :=
  let name := uppercase (token tokens 0)
  if name = literal ['S', 'E', 'T'] then
    setCommand tokens
  else if name = literal ['G', 'E', 'T'] then
    keyCommand .get "GET key" tokens
  else if name = literal ['D', 'E', 'L'] ∨
      name = literal ['D', 'E', 'L', 'E', 'T', 'E'] then
    keyCommand .delete "DEL key" tokens
  else if name = literal ['E', 'X', 'I', 'S', 'T', 'S'] then
    keyCommand .exists "EXISTS key" tokens
  else if name = literal ['K', 'E', 'Y', 'S'] then
    keysCommand tokens
  else if name = literal ['S', 'T', 'A', 'T', 'S'] then
    bareCommand .stats "STATS" tokens
  else if name = literal ['C', 'O', 'M', 'P', 'A', 'C', 'T'] then
    bareCommand .compact "COMPACT" tokens
  else if name = literal ['H', 'E', 'L', 'P'] then
    bareCommand .help "HELP" tokens
  else if name = literal ['E', 'X', 'I', 'T'] ∨
      name = literal ['Q', 'U', 'I', 'T'] then
    bareCommand .exit "EXIT" tokens
  else
    .error (.invalidArgument
      ("unknown command: " ++ shownText (token tokens 0)))

def parse (input : Bytes) : Result Command :=
  match tokenize input with
  | .error status => .error status
  | .ok tokens =>
      if tokens = [] then
        .error (.invalidArgument "command is empty")
      else
        interpret tokens

/-! ## What is accepted as a lifetime -/

theorem mul_thousand_toInt {seconds : Int64} (hpositive : 0 < seconds.toInt)
    (hbound : seconds.toInt ≤ 9223372036854775) :
    (seconds * 1000).toInt = 1000 * seconds.toInt := by
  have hthousand : (1000 : Int64).toInt = 1000 := by decide
  rw [Int64.toInt_mul, hthousand, mul_comm]
  apply Int.bmod_eq_of_le <;> omega

/-- The lifetime is the number of seconds in milliseconds, without overflow. -/
theorem parseTtl_ok {text : Bytes} {ttl : Int64}
    (hparse : parseTtl text = .ok ttl) :
    ∃ seconds, fromChars text = some (seconds, []) ∧ 0 < seconds.toInt ∧
      ttl.toInt = 1000 * seconds.toInt := by
  rw [parseTtl] at hparse
  split at hparse
  next seconds hnumber =>
    split at hparse
    · cases hparse
    next hpositive =>
      split at hparse
      · cases hparse
      next hbound =>
        cases hparse
        have hmaximum : (Int64.maxValue / 1000).toInt = 9223372036854775 := by
          decide
        rw [Int64.not_le, Int64.lt_iff_toInt_lt, Int64.toInt_zero] at hpositive
        rw [gt_iff_lt, Int64.not_lt, Int64.le_iff_toInt_le, hmaximum] at hbound
        exact ⟨seconds, hnumber, hpositive,
          mul_thousand_toInt hpositive hbound⟩
  · cases hparse

/-- A `SET` command with a lifetime has five tokens. -/
theorem setCommand_ttl {tokens : List Bytes} {command : Command} {ttl : Int64}
    (hcommand : setCommand tokens = .ok command)
    (httl : command.ttl = some ttl) :
    ∃ name key value word text, tokens = [name, key, value, word, text] ∧
      uppercase word = literal ['T', 'T', 'L'] ∧ parseTtl text = .ok ttl ∧
      command = ⟨.set, key, value, some ttl⟩ := by
  rw [setCommand] at hcommand
  dsimp only at hcommand
  split at hcommand
  · cases hcommand
  · split at hcommand
    next hfive =>
      obtain ⟨name, rest, rfl⟩ := List.exists_cons_of_length_eq_add_one hfive
      obtain ⟨key, value, word, text, rfl⟩ :=
        List.length_eq_four.mp (Nat.succ.inj hfive)
      split at hcommand
      · cases hcommand
      next hword =>
        split at hcommand
        · cases hcommand
        next found hfound =>
          cases hcommand
          cases httl
          exact ⟨name, key, value, word, text, rfl, not_not.mp hword, hfound,
            rfl⟩
    · cases hcommand
      cases httl

theorem keyCommand_ttl {type : CommandType} {usage : String}
    {tokens : List Bytes} {command : Command}
    (hcommand : keyCommand type usage tokens = .ok command) :
    command.ttl = none := by
  rw [keyCommand] at hcommand
  split at hcommand
  · cases hcommand
    rfl
  · cases hcommand

theorem bareCommand_ttl {type : CommandType} {usage : String}
    {tokens : List Bytes} {command : Command}
    (hcommand : bareCommand type usage tokens = .ok command) :
    command.ttl = none := by
  rw [bareCommand] at hcommand
  split at hcommand
  · cases hcommand
    rfl
  · cases hcommand

theorem keysCommand_ttl {tokens : List Bytes} {command : Command}
    (hcommand : keysCommand tokens = .ok command) : command.ttl = none := by
  rw [keysCommand] at hcommand
  split at hcommand
  · cases hcommand
  · split at hcommand
    · cases hcommand
      rfl
    · cases hcommand
      rfl

/-- Only `SET` takes a lifetime. -/
theorem interpret_ttl {tokens : List Bytes} {command : Command} {ttl : Int64}
    (hcommand : interpret tokens = .ok command)
    (httl : command.ttl = some ttl) :
    uppercase (token tokens 0) = literal ['S', 'E', 'T'] ∧
      setCommand tokens = .ok command := by
  have hother : command.ttl ≠ none := by
    rw [httl]
    exact nofun
  rw [interpret] at hcommand
  by_cases hname : uppercase (token tokens 0) = literal ['S', 'E', 'T']
  · rw [if_pos hname] at hcommand
    exact ⟨hname, hcommand⟩
  · rw [if_neg hname] at hcommand
    repeat' split at hcommand
    all_goals first
      | exact absurd (keyCommand_ttl hcommand) hother
      | exact absurd (bareCommand_ttl hcommand) hother
      | exact absurd (keysCommand_ttl hcommand) hother
      | cases hcommand

/-- What the parser has read behind a command with a lifetime. -/
theorem parse_ttl {input : Bytes} {command : Command} {ttl : Int64}
    (hparse : parse input = .ok command) (httl : command.ttl = some ttl) :
    ∃ name key value word text,
      tokenize input = .ok [name, key, value, word, text] ∧
      uppercase name = literal ['S', 'E', 'T'] ∧
      uppercase word = literal ['T', 'T', 'L'] ∧ parseTtl text = .ok ttl ∧
      command = ⟨.set, key, value, some ttl⟩ := by
  rw [parse] at hparse
  split at hparse
  · cases hparse
  next tokens htokens =>
    split at hparse
    · cases hparse
    · obtain ⟨hname, hset⟩ := interpret_ttl hparse httl
      obtain ⟨name, key, value, word, text, rfl, hword, hnumber, hcommand⟩ :=
        setCommand_ttl hset httl
      exact ⟨name, key, value, word, text, htokens, hname, hword, hnumber,
        hcommand⟩

end CommandParser

end MiniKV
