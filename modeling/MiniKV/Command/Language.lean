import MiniKV.Command.Grammar
import MiniKV.Command.Words

/-!
# The command language

`parse` interprets the tokens of a line by the name in front and by their
number.  The language says which rows of tokens are commands and what they
mean; it knows nothing of signs, of what `std::from_chars` leaves unread, or of
machine integers.
-/

namespace MiniKV.CommandParser

/-! ## The language -/

/-- The greatest number of whole seconds in an `int64_t` of milliseconds. -/
def maximumSeconds : ℕ := 9223372036854775

/-- The rows of tokens that are commands, and what they mean. -/
inductive Means : List Bytes → Command → Prop
  | set {name key value : Bytes}
      (hname : Spells ['S', 'E', 'T'] name) :
      Means [name, key, value] ⟨.set, key, value, none⟩
  | setTtl {name key value word text : Bytes} {seconds : ℕ} {ttl : Int64}
      (hname : Spells ['S', 'E', 'T'] name)
      (hword : Spells ['T', 'T', 'L'] word)
      (htext : Numeral text seconds) (hpositive : 1 ≤ seconds)
      (hmaximum : seconds ≤ maximumSeconds)
      (httl : ttl.toInt = 1000 * seconds) :
      Means [name, key, value, word, text] ⟨.set, key, value, some ttl⟩
  | get {name key : Bytes}
      (hname : Spells ['G', 'E', 'T'] name) :
      Means [name, key] ⟨.get, key, [], none⟩
  | delete {name key : Bytes}
      (hname : Spells ['D', 'E', 'L'] name ∨
        Spells ['D', 'E', 'L', 'E', 'T', 'E'] name) :
      Means [name, key] ⟨.delete, key, [], none⟩
  | existsKey {name key : Bytes}
      (hname : Spells ['E', 'X', 'I', 'S', 'T', 'S'] name) :
      Means [name, key] ⟨.exists, key, [], none⟩
  | keys {name : Bytes}
      (hname : Spells ['K', 'E', 'Y', 'S'] name) :
      Means [name] ⟨.keys, [], [], none⟩
  | keysFrom {name start : Bytes}
      (hname : Spells ['K', 'E', 'Y', 'S'] name) :
      Means [name, start] ⟨.keys, start, [], none⟩
  | stats {name : Bytes}
      (hname : Spells ['S', 'T', 'A', 'T', 'S'] name) :
      Means [name] ⟨.stats, [], [], none⟩
  | compact {name : Bytes}
      (hname : Spells ['C', 'O', 'M', 'P', 'A', 'C', 'T'] name) :
      Means [name] ⟨.compact, [], [], none⟩
  | help {name : Bytes}
      (hname : Spells ['H', 'E', 'L', 'P'] name) :
      Means [name] ⟨.help, [], [], none⟩
  | exit {name : Bytes}
      (hname : Spells ['E', 'X', 'I', 'T'] name ∨
        Spells ['Q', 'U', 'I', 'T'] name) :
      Means [name] ⟨.exit, [], [], none⟩

/-! ## Lifetimes -/

theorem takeWhile_isDigit {text : Bytes}
    (hdigits : ∀ byte ∈ text, isDigit byte = true) :
    text.takeWhile isDigit = text :=
  List.takeWhile_eq_self_iff.mpr hdigits

/-- Digits are no sign. -/
theorem splitSign_of_digits {text : Bytes}
    (hdigits : ∀ byte ∈ text, isDigit byte = true) :
    splitSign text = (false, text) := by
  have hminus : ∀ rest, text = 45 :: rest → False := by
    rintro rest rfl
    exact absurd (hdigits 45 List.mem_cons_self) (by decide)
  rw [splitSign]
  exact hminus

theorem eq_of_splitSign {text rest : Bytes}
    (hsign : splitSign text = (false, rest)) : rest = text := by
  rw [splitSign.eq_def] at hsign
  split at hsign
  · cases hsign
  · cases hsign
    rfl

theorem toInt_ofInt_of_range {number : ℤ}
    (hlow : Int64.minValue.toInt ≤ number)
    (hhigh : number ≤ Int64.maxValue.toInt) :
    (Int64.ofInt number).toInt = number := by
  rw [Int64.toInt_minValue] at hlow
  rw [Int64.toInt_maxValue] at hhigh
  exact Int64.toInt_ofInt_of_le hlow (by omega)

theorem fromChars_of_numeral {text : Bytes} {seconds : ℕ}
    (htext : Numeral text seconds) (hmaximum : seconds ≤ maximumSeconds) :
    fromChars text = some (Int64.ofInt seconds, []) := by
  have hrest : text.dropWhile isDigit = [] :=
    List.dropWhile_eq_nil_iff.mpr htext.digits
  have hlow : Int64.minValue.toInt ≤ (seconds : ℤ) := by
    rw [Int64.toInt_minValue]
    omega
  have hhigh : (seconds : ℤ) ≤ Int64.maxValue.toInt := by
    rw [Int64.toInt_maxValue]
    rw [maximumSeconds] at hmaximum
    omega
  rw [fromChars, splitSign_of_digits htext.digits]
  dsimp only
  rw [takeWhile_isDigit htext.digits, if_neg htext.ne_nil, htext.number_eq,
    if_neg Bool.false_ne_true, if_pos ⟨hlow, hhigh⟩, hrest]

/-- What a result of `std::from_chars` says about its digits. -/
theorem fromChars_cases {text : Bytes} {seconds : Int64}
    (hnumber : fromChars text = some (seconds, [])) :
    ∃ signed digits, splitSign text = (signed, digits) ∧ digits ≠ [] ∧
      (∀ byte ∈ digits, isDigit byte = true) ∧
      seconds.toInt =
        if signed then -(decimal digits : ℤ) else (decimal digits : ℤ) := by
  cases hsign : splitSign text with
  | mk signed digits =>
      rw [fromChars, hsign] at hnumber
      dsimp only at hnumber
      generalize hvalue : (if signed = true then
        -(decimal (digits.takeWhile isDigit) : ℤ)
          else (decimal (digits.takeWhile isDigit) : ℤ)) = number at hnumber
      split at hnumber
      · cases hnumber
      next hne =>
        split at hnumber
        next hrange =>
          obtain ⟨rfl, hrest⟩ := Prod.mk.inj (Option.some.inj hnumber)
          have hdigits := List.dropWhile_eq_nil_iff.mp hrest
          rw [takeWhile_isDigit hdigits] at hne hvalue
          rw [toInt_ofInt_of_range hrange.1 hrange.2]
          exact ⟨signed, digits, rfl, hne, hdigits, hvalue.symm⟩
        · cases hnumber

/-- A positive number that `std::from_chars` reads up to the end has no sign. -/
theorem numeral_of_fromChars {text : Bytes} {seconds : Int64}
    (hnumber : fromChars text = some (seconds, []))
    (hpositive : 0 < seconds.toInt) :
    Numeral text (decimal text) ∧ seconds.toInt = decimal text := by
  obtain ⟨signed, digits, hsign, hne, hdigits, hvalue⟩ :=
    fromChars_cases hnumber
  cases signed with
  | true =>
      rw [if_pos rfl] at hvalue
      omega
  | false =>
      rw [if_neg Bool.false_ne_true] at hvalue
      have htext := eq_of_splitSign hsign
      subst htext
      exact ⟨numeral_decimal hne hdigits, hvalue⟩

/-- The bound that `parseTtl` computes. -/
theorem toInt_maximumSeconds :
    (Int64.maxValue / 1000).toInt = (maximumSeconds : ℤ) := by
  decide

/-- `parseTtl` accepts the numerals in range and returns milliseconds. -/
theorem parseTtl_ok_iff {text : Bytes} {ttl : Int64} :
    parseTtl text = .ok ttl ↔
      ∃ seconds, Numeral text seconds ∧ 1 ≤ seconds ∧
        seconds ≤ maximumSeconds ∧ ttl.toInt = 1000 * seconds := by
  constructor
  · intro hparse
    rw [parseTtl] at hparse
    split at hparse
    next seconds hnumber =>
      split at hparse
      · cases hparse
      next hpositive =>
        split at hparse
        · cases hparse
        next hbound =>
          cases hparse
          rw [Int64.not_le, Int64.lt_iff_toInt_lt, Int64.toInt_zero]
            at hpositive
          rw [gt_iff_lt, Int64.not_lt, Int64.le_iff_toInt_le,
            toInt_maximumSeconds] at hbound
          obtain ⟨htext, hvalue⟩ := numeral_of_fromChars hnumber hpositive
          have hmillis := mul_thousand_toInt hpositive hbound
          rw [hvalue] at hpositive hbound hmillis
          exact ⟨decimal text, htext, by omega, by omega, hmillis⟩
    · cases hparse
  · rintro ⟨seconds, htext, hpositive, hmaximum, httl⟩
    have hseconds : (Int64.ofInt seconds).toInt = seconds := by
      rw [maximumSeconds] at hmaximum
      exact Int64.toInt_ofInt_of_le (by omega) (by omega)
    have hlow : ¬ Int64.ofInt seconds ≤ 0 := by
      rw [Int64.not_le, Int64.lt_iff_toInt_lt, Int64.toInt_zero, hseconds]
      omega
    have hhigh : ¬ Int64.ofInt seconds > Int64.maxValue / 1000 := by
      rw [gt_iff_lt, Int64.not_lt, Int64.le_iff_toInt_le, toInt_maximumSeconds,
        hseconds]
      omega
    have hmillis : Int64.ofInt seconds * 1000 = ttl := by
      apply Int64.toInt_inj.mp
      rw [mul_thousand_toInt (by omega) (by rw [hseconds]; exact_mod_cast hmaximum),
        hseconds, httl]
    rw [parseTtl, fromChars_of_numeral htext hmaximum]
    dsimp only
    rw [if_neg hlow, if_neg hhigh, hmillis]

theorem parseTtl_error {text : Bytes} {status : Status}
    (hparse : parseTtl text = .error status) :
    ∃ message, status = .invalidArgument message := by
  rw [parseTtl] at hparse
  split at hparse
  · split at hparse
    · cases hparse
      exact ⟨_, rfl⟩
    · split at hparse
      · cases hparse
        exact ⟨_, rfl⟩
      · cases hparse
  · cases hparse
    exact ⟨_, rfl⟩

/-! ## The branches of a command -/

section Branches

variable {type : CommandType} {usage : String} {tokens : List Bytes}
variable {command : Command}

theorem keyCommand_ok_iff :
    keyCommand type usage tokens = .ok command ↔
      ∃ name key, tokens = [name, key] ∧ command = ⟨type, key, [], none⟩ := by
  rw [keyCommand, requireSize]
  by_cases hsize : tokens.length = 2
  · obtain ⟨name, key, rfl⟩ := List.length_eq_two.mp hsize
    simp [token, eq_comm]
  · have hne : ∀ name key, tokens ≠ [name, key] := by
      rintro name key rfl
      exact hsize rfl
    simp [hsize, hne]

theorem bareCommand_ok_iff :
    bareCommand type usage tokens = .ok command ↔
      ∃ name, tokens = [name] ∧ command = ⟨type, [], [], none⟩ := by
  rw [bareCommand, requireSize]
  by_cases hsize : tokens.length = 1
  · obtain ⟨name, rfl⟩ := List.length_eq_one_iff.mp hsize
    simp [eq_comm]
  · have hne : ∀ name, tokens ≠ [name] := by
      rintro name rfl
      exact hsize rfl
    simp [hsize, hne]

theorem keysCommand_ok_iff (hne : tokens ≠ []) :
    keysCommand tokens = .ok command ↔
      (∃ name, tokens = [name] ∧ command = ⟨.keys, [], [], none⟩) ∨
        ∃ name start, tokens = [name, start] ∧
          command = ⟨.keys, start, [], none⟩ := by
  rw [keysCommand]
  cases tokens with
  | nil => exact absurd rfl hne
  | cons name rest =>
      cases rest with
      | nil => simp [eq_comm]
      | cons start rest =>
          cases rest with
          | nil => simp [token, eq_comm]
          | cons next rest => simp

theorem setCommand_ok_iff :
    setCommand tokens = .ok command ↔
      (∃ name key value, tokens = [name, key, value] ∧
        command = ⟨.set, key, value, none⟩) ∨
      ∃ name key value word text ttl, tokens = [name, key, value, word, text] ∧
        uppercase word = literal ['T', 'T', 'L'] ∧ parseTtl text = .ok ttl ∧
        command = ⟨.set, key, value, some ttl⟩ := by
  constructor
  · intro hcommand
    cases httl : command.ttl with
    | none =>
        left
        rw [setCommand] at hcommand
        dsimp only at hcommand
        split at hcommand
        · cases hcommand
        next hsizes =>
          split at hcommand
          · split at hcommand
            · cases hcommand
            · split at hcommand
              · cases hcommand
              · cases hcommand
                cases httl
          next hfive =>
            cases hcommand
            have hthree : tokens.length = 3 := by
              by_contra hthree
              exact hsizes ⟨hthree, hfive⟩
            obtain ⟨name, key, value, rfl⟩ := List.length_eq_three.mp hthree
            exact ⟨name, key, value, rfl, rfl⟩
    | some ttl =>
        obtain ⟨name, key, value, word, text, htokens, hword, hnumber, heq⟩ :=
          setCommand_ttl hcommand httl
        exact Or.inr ⟨name, key, value, word, text, ttl, htokens, hword,
          hnumber, heq⟩
  · rintro (⟨name, key, value, rfl, rfl⟩ |
      ⟨name, key, value, word, text, ttl, rfl, hword, hnumber, rfl⟩)
    · rfl
    · simp [setCommand, token, hword, hnumber]

end Branches

/-! ## All commands -/

variable {tokens : List Bytes} {command : Command}

theorem token_cons_zero (first : Bytes) (others : List Bytes) :
    token (first :: others) 0 = first := rfl

theorem interpret_of_means (hmeans : Means tokens command) :
    interpret tokens = .ok command := by
  cases hmeans with
  | @set name key value hname =>
      rw [interpret, token_cons_zero, uppercase_of_spells hname rfl]
      rfl
  | @setTtl name key value word text seconds ttl hname hword htext hpositive
      hmaximum httl =>
      have hnumber : parseTtl text = .ok ttl :=
        parseTtl_ok_iff.mpr ⟨seconds, htext, hpositive, hmaximum, httl⟩
      rw [interpret, token_cons_zero, uppercase_of_spells hname rfl]
      exact setCommand_ok_iff.mpr (Or.inr ⟨name, key, value, word, text, ttl,
        rfl, uppercase_of_spells hword rfl, hnumber, rfl⟩)
  | @get name key hname =>
      rw [interpret, token_cons_zero, uppercase_of_spells hname rfl]
      rfl
  | @delete name key hname =>
      rcases hname with hname | hname
      · rw [interpret, token_cons_zero, uppercase_of_spells hname rfl]
        rfl
      · rw [interpret, token_cons_zero, uppercase_of_spells hname rfl]
        rfl
  | @existsKey name key hname =>
      rw [interpret, token_cons_zero, uppercase_of_spells hname rfl]
      rfl
  | @keys name hname =>
      rw [interpret, token_cons_zero, uppercase_of_spells hname rfl]
      rfl
  | @keysFrom name start hname =>
      rw [interpret, token_cons_zero, uppercase_of_spells hname rfl]
      rfl
  | @stats name hname =>
      rw [interpret, token_cons_zero, uppercase_of_spells hname rfl]
      rfl
  | @compact name hname =>
      rw [interpret, token_cons_zero, uppercase_of_spells hname rfl]
      rfl
  | @help name hname =>
      rw [interpret, token_cons_zero, uppercase_of_spells hname rfl]
      rfl
  | @exit name hname =>
      rcases hname with hname | hname
      · rw [interpret, token_cons_zero, uppercase_of_spells hname rfl]
        rfl
      · rw [interpret, token_cons_zero, uppercase_of_spells hname rfl]
        rfl

theorem means_of_interpret (hne : tokens ≠ [])
    (hcommand : interpret tokens = .ok command) : Means tokens command := by
  rw [interpret] at hcommand
  by_cases hset : uppercase (token tokens 0) = literal ['S', 'E', 'T']
  · rw [if_pos hset] at hcommand
    rcases setCommand_ok_iff.mp hcommand with
      ⟨name, key, value, rfl, rfl⟩ |
      ⟨name, key, value, word, text, ttl, rfl, hword, hnumber, rfl⟩
    · exact .set (spells_of_uppercase hset rfl)
    · obtain ⟨seconds, htext, hpositive, hmaximum, httl⟩ :=
        parseTtl_ok_iff.mp hnumber
      exact .setTtl (spells_of_uppercase hset rfl)
        (spells_of_uppercase hword rfl) htext hpositive hmaximum httl
  rw [if_neg hset] at hcommand
  by_cases hget : uppercase (token tokens 0) = literal ['G', 'E', 'T']
  · rw [if_pos hget] at hcommand
    obtain ⟨name, key, rfl, rfl⟩ := keyCommand_ok_iff.mp hcommand
    exact .get (spells_of_uppercase hget rfl)
  rw [if_neg hget] at hcommand
  by_cases hdelete : uppercase (token tokens 0) = literal ['D', 'E', 'L'] ∨
      uppercase (token tokens 0) = literal ['D', 'E', 'L', 'E', 'T', 'E']
  · rw [if_pos hdelete] at hcommand
    obtain ⟨name, key, rfl, rfl⟩ := keyCommand_ok_iff.mp hcommand
    exact .delete (hdelete.imp (fun hname => spells_of_uppercase hname rfl)
      fun hname => spells_of_uppercase hname rfl)
  rw [if_neg hdelete] at hcommand
  by_cases hexists : uppercase (token tokens 0) =
      literal ['E', 'X', 'I', 'S', 'T', 'S']
  · rw [if_pos hexists] at hcommand
    obtain ⟨name, key, rfl, rfl⟩ := keyCommand_ok_iff.mp hcommand
    exact .existsKey (spells_of_uppercase hexists rfl)
  rw [if_neg hexists] at hcommand
  by_cases hkeys : uppercase (token tokens 0) = literal ['K', 'E', 'Y', 'S']
  · rw [if_pos hkeys] at hcommand
    rcases (keysCommand_ok_iff hne).mp hcommand with
      ⟨name, rfl, rfl⟩ | ⟨name, start, rfl, rfl⟩
    · exact .keys (spells_of_uppercase hkeys rfl)
    · exact .keysFrom (spells_of_uppercase hkeys rfl)
  rw [if_neg hkeys] at hcommand
  by_cases hstats : uppercase (token tokens 0) =
      literal ['S', 'T', 'A', 'T', 'S']
  · rw [if_pos hstats] at hcommand
    obtain ⟨name, rfl, rfl⟩ := bareCommand_ok_iff.mp hcommand
    exact .stats (spells_of_uppercase hstats rfl)
  rw [if_neg hstats] at hcommand
  by_cases hcompact : uppercase (token tokens 0) =
      literal ['C', 'O', 'M', 'P', 'A', 'C', 'T']
  · rw [if_pos hcompact] at hcommand
    obtain ⟨name, rfl, rfl⟩ := bareCommand_ok_iff.mp hcommand
    exact .compact (spells_of_uppercase hcompact rfl)
  rw [if_neg hcompact] at hcommand
  by_cases hhelp : uppercase (token tokens 0) = literal ['H', 'E', 'L', 'P']
  · rw [if_pos hhelp] at hcommand
    obtain ⟨name, rfl, rfl⟩ := bareCommand_ok_iff.mp hcommand
    exact .help (spells_of_uppercase hhelp rfl)
  rw [if_neg hhelp] at hcommand
  by_cases hexit : uppercase (token tokens 0) = literal ['E', 'X', 'I', 'T'] ∨
      uppercase (token tokens 0) = literal ['Q', 'U', 'I', 'T']
  · rw [if_pos hexit] at hcommand
    obtain ⟨name, rfl, rfl⟩ := bareCommand_ok_iff.mp hcommand
    exact .exit (hexit.imp (fun hname => spells_of_uppercase hname rfl)
      fun hname => spells_of_uppercase hname rfl)
  · rw [if_neg hexit] at hcommand
    cases hcommand

theorem means_ne_nil (hmeans : Means tokens command) : tokens ≠ [] := by
  cases hmeans <;> exact List.cons_ne_nil _ _

/-! ## Failures -/

section Failures

variable {type : CommandType} {usage : String} {status : Status}

theorem requireSize_cases (tokens : List Bytes) (expected : ℕ)
    (usage : String) :
    requireSize tokens expected usage = .success ∨
      requireSize tokens expected usage =
        .invalidArgument ("usage: " ++ usage) := by
  rw [requireSize]
  split
  · exact Or.inr rfl
  · exact Or.inl rfl

theorem keyCommand_error
    (hcommand : keyCommand type usage tokens = .error status) :
    ∃ message, status = .invalidArgument message := by
  rw [keyCommand] at hcommand
  rcases requireSize_cases tokens 2 usage with hsize | hsize
  · rw [hsize] at hcommand
    cases hcommand
  · rw [hsize] at hcommand
    cases hcommand
    exact ⟨_, rfl⟩

theorem bareCommand_error
    (hcommand : bareCommand type usage tokens = .error status) :
    ∃ message, status = .invalidArgument message := by
  rw [bareCommand] at hcommand
  rcases requireSize_cases tokens 1 usage with hsize | hsize
  · rw [hsize] at hcommand
    cases hcommand
  · rw [hsize] at hcommand
    cases hcommand
    exact ⟨_, rfl⟩

theorem keysCommand_error (hcommand : keysCommand tokens = .error status) :
    ∃ message, status = .invalidArgument message := by
  rw [keysCommand] at hcommand
  split at hcommand
  · cases hcommand
    exact ⟨_, rfl⟩
  · split at hcommand
    · cases hcommand
    · cases hcommand

theorem setCommand_error (hcommand : setCommand tokens = .error status) :
    ∃ message, status = .invalidArgument message := by
  rw [setCommand] at hcommand
  dsimp only at hcommand
  split at hcommand
  · cases hcommand
    exact ⟨_, rfl⟩
  · split at hcommand
    · split at hcommand
      · cases hcommand
        exact ⟨_, rfl⟩
      · split at hcommand
        next hnumber =>
          cases hcommand
          exact parseTtl_error hnumber
        · cases hcommand
    · cases hcommand

theorem interpret_error (hcommand : interpret tokens = .error status) :
    ∃ message, status = .invalidArgument message := by
  rw [interpret] at hcommand
  repeat' split at hcommand
  all_goals first
    | exact setCommand_error hcommand
    | exact keyCommand_error hcommand
    | exact keysCommand_error hcommand
    | exact bareCommand_error hcommand
    | skip
  cases hcommand
  exact ⟨_, rfl⟩

theorem parse_error {input : Bytes} (hparse : parse input = .error status) :
    ∃ message, status = .invalidArgument message := by
  rw [parse] at hparse
  split at hparse
  next htokens =>
    cases hparse
    exact tokenize_error htokens
  · split at hparse
    · cases hparse
      exact ⟨_, rfl⟩
    · exact interpret_error hparse

end Failures

theorem parse_ok_iff {input : Bytes} :
    parse input = .ok command ↔
      ∃ tokens, tokenize input = .ok tokens ∧ Means tokens command := by
  constructor
  · intro hparse
    rw [parse] at hparse
    split at hparse
    · cases hparse
    next tokens htokens =>
      split at hparse
      · cases hparse
      next hne => exact ⟨tokens, htokens, means_of_interpret hne hparse⟩
  · rintro ⟨tokens, htokens, hmeans⟩
    rw [parse, htokens]
    dsimp only
    rw [if_neg (means_ne_nil hmeans)]
    exact interpret_of_means hmeans

/-- For every input: `parse` succeeds exactly when the tokens of the input are
a command of the language, and returns what they mean; on any other input it
fails with an invalid argument. -/
theorem parse_reads_language (input : Bytes) :
    (∀ command, parse input = .ok command ↔
      ∃ tokens, tokenize input = .ok tokens ∧ Means tokens command) ∧
    ((¬ ∃ tokens command, tokenize input = .ok tokens ∧ Means tokens command) →
      ∃ message, parse input = .error (.invalidArgument message)) := by
  refine ⟨fun command => parse_ok_iff, fun hnone => ?_⟩
  cases hresult : parse input with
  | ok command =>
      obtain ⟨tokens, htokens, hmeans⟩ := parse_ok_iff.mp hresult
      exact absurd ⟨tokens, command, htokens, hmeans⟩ hnone
  | error status =>
      obtain ⟨message, rfl⟩ := parse_error hresult
      exact ⟨message, rfl⟩

end MiniKV.CommandParser
