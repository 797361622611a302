import MiniKV.Command.Language

/-!
# Writing commands down

A command is written as its name, its arguments in quotes and its lifetime in
decimal digits, with whitespace between these words.  Each word is a token of
the grammar, so that `parse` reads the command back.
-/

namespace MiniKV.CommandParser

open Grammar

/-! ## Quoted words -/

/-- How a byte is written inside quotes. -/
def quoteByte (byte : UInt8) : Bytes :=
  if byte = newline then
    [backslash, 110]
  else if byte = tabulator then
    [backslash, 116]
  else if byte = doubleQuote ∨ byte = backslash then
    [backslash, byte]
  else
    [byte]

def quote (text : Bytes) : Bytes :=
  doubleQuote :: (text.flatMap quoteByte ++ [doubleQuote])

theorem QuotedRun.quoteByte_cons {input text : Bytes}
    (hrest : QuotedRun input text) (byte : UInt8) :
    QuotedRun (quoteByte byte ++ input) (byte :: text) := by
  rw [quoteByte]
  split
  next hbyte =>
    rw [hbyte]
    exact hrest.newline
  · split
    next hbyte =>
      rw [hbyte]
      exact hrest.tabulator
    · split
      next hbyte =>
        rcases hbyte with rfl | rfl
        · exact hrest.quote
        · exact hrest.backslash
      next hbyte =>
        obtain ⟨hquote, hbackslash⟩ := not_or.mp hbyte
        exact hrest.plain hquote hbackslash

theorem quotedRun_flatMap (text : Bytes) :
    QuotedRun (text.flatMap quoteByte) text := by
  induction text with
  | nil => exact .nil
  | cons byte text ih =>
      rw [List.flatMap_cons]
      exact ih.quoteByte_cons byte

/-- A quoted word is a token that stands for the text. -/
theorem token_quote (text : Bytes) : Token (quote text) text :=
  Joined.of_piece (.quoted (quotedRun_flatMap text))

/-! ## Bare words -/

/-- A byte that stands for itself outside quotes. -/
def Bare (byte : UInt8) : Prop := ¬ Whitespace byte ∧ byte ≠ doubleQuote

theorem token_of_bare {text : Bytes} (hne : text ≠ [])
    (hbare : ∀ byte ∈ text, Bare byte) : Token text text := by
  induction text with
  | nil => exact absurd rfl hne
  | cons byte text ih =>
      obtain ⟨hbyte, hrest⟩ := List.forall_mem_cons.mp hbare
      have hpiece : Piece [byte] [byte] := .bare hbyte.1 hbyte.2
      cases text with
      | nil => exact Joined.of_piece hpiece
      | cons next text => exact (ih (List.cons_ne_nil _ _) hrest).cons hpiece

theorem bare_of_range {byte : UInt8} (hlow : 48 ≤ byte.toNat)
    (hhigh : byte.toNat ≤ 122) : Bare byte := by
  constructor
  · rintro (rfl | rfl | rfl | rfl | rfl | rfl) <;> revert hlow <;> decide
  · rintro rfl
    revert hlow
    decide

/-- A letter of a name, capital or small. -/
theorem bare_of_letter {capital : Char} {byte : UInt8}
    (hcapital : capital.isUpper = true) (hletter : Letter capital byte) :
    Bare byte := by
  have hrange := capital_range hcapital
  rw [Letter, toNat_toLower hcapital] at hletter
  exact bare_of_range (by omega) (by omega)

/-- A text that spells a word of capitals in any case. -/
theorem token_of_spells {word : List Char} {text : Bytes} (hne : word ≠ [])
    (hcapitals : word.all Char.isUpper = true) (hspells : Spells word text) :
    Token text text := by
  apply token_of_bare
  · rintro rfl
    exact hne (List.forall₂_nil_right_iff.mp hspells)
  · clear hne
    induction hspells with
    | nil => simp
    | cons hletter hothers ih =>
        obtain ⟨hfirst, hrest⟩ := Bool.and_eq_true_iff.mp hcapitals
        exact List.forall_mem_cons.mpr
          ⟨bare_of_letter hfirst hletter, ih hrest⟩

/-! ## Decimal words -/

/-- The decimal text of a number. -/
def decimalText (number : ℕ) : Bytes := literal (Nat.toDigits 10 number)

theorem toNat_isDigit {character : Char} (hdigit : character.isDigit = true) :
    48 ≤ character.toNat ∧ character.toNat ≤ 57 := by
  rw [Char.isDigit_iff_toNat] at hdigit
  exact hdigit

theorem toNat_literal {character : Char} (hdigit : character.isDigit = true) :
    (UInt8.ofNat character.toNat).toNat = character.toNat := by
  have hrange := toNat_isDigit hdigit
  exact UInt8.toNat_ofNat_of_lt (Nat.lt_of_le_of_lt hrange.2 (by decide))

theorem decimal_literal {characters : List Char}
    (hdigits : ∀ character ∈ characters, character.isDigit = true) :
    decimal (literal characters) = Nat.ofDigitChars 10 characters 0 := by
  rw [decimal, literal, List.foldl_map, Nat.ofDigitChars_eq_foldl]
  apply List.foldl_ext
  intro value character hcharacter
  rw [toNat_literal (hdigits character hcharacter)]
  rfl

theorem isDigit_of_toDigits {number : ℕ} {character : Char}
    (hcharacter : character ∈ Nat.toDigits 10 number) :
    character.isDigit = true :=
  Nat.isDigit_of_mem_toDigits (by decide) (by decide) hcharacter

theorem numeral_decimalText (number : ℕ) :
    Numeral (decimalText number) number := by
  have hne : decimalText number ≠ [] := by
    rw [decimalText, literal, Ne, List.map_eq_nil_iff]
    exact Nat.toDigits_ne_nil
  have hdigits : ∀ byte ∈ decimalText number, isDigit byte = true := by
    intro byte hbyte
    obtain ⟨character, hcharacter, rfl⟩ := List.mem_map.mp hbyte
    have hdigit := isDigit_of_toDigits hcharacter
    have hrange := toNat_isDigit hdigit
    rw [isDigit, toNat_literal hdigit]
    simpa using hrange
  have hnumber : decimal (decimalText number) = number := by
    rw [decimalText, decimal_literal fun _ => isDigit_of_toDigits,
      Nat.ofDigitChars_ten_toDigits]
  have htext := numeral_decimal hne hdigits
  rwa [hnumber] at htext

theorem token_of_numeral {text : Bytes} {number : ℕ}
    (htext : Numeral text number) : Token text text := by
  apply token_of_bare htext.ne_nil
  intro byte hbyte
  have hdigit := htext.digits byte hbyte
  rw [isDigit, Bool.and_eq_true, decide_eq_true_eq, decide_eq_true_eq] at hdigit
  exact bare_of_range hdigit.1 (by omega)

/-! ## Written commands -/

/-- The names that stand for a command, in capitals. -/
def names : CommandType → List (List Char)
  | .set => [['S', 'E', 'T']]
  | .get => [['G', 'E', 'T']]
  | .delete => [['D', 'E', 'L'], ['D', 'E', 'L', 'E', 'T', 'E']]
  | .exists => [['E', 'X', 'I', 'S', 'T', 'S']]
  | .keys => [['K', 'E', 'Y', 'S']]
  | .stats => [['S', 'T', 'A', 'T', 'S']]
  | .compact => [['C', 'O', 'M', 'P', 'A', 'C', 'T']]
  | .help => [['H', 'E', 'L', 'P']]
  | .exit => [['E', 'X', 'I', 'T'], ['Q', 'U', 'I', 'T']]

/-- The text spells a name of the command. -/
def Names (type : CommandType) (text : Bytes) : Prop :=
  ∃ word ∈ names type, Spells word text

theorem names_of_single {type : CommandType} {word : List Char} {text : Bytes}
    (hnames : Names type text) (hsingle : names type = [word]) :
    Spells word text := by
  obtain ⟨name, hname, hspells⟩ := hnames
  rw [hsingle, List.mem_singleton] at hname
  exact hname ▸ hspells

theorem names_of_pair {type : CommandType} {first second : List Char}
    {text : Bytes} (hnames : Names type text)
    (hpair : names type = [first, second]) :
    Spells first text ∨ Spells second text := by
  obtain ⟨name, hname, hspells⟩ := hnames
  rw [hpair, List.mem_pair] at hname
  rcases hname with rfl | rfl
  · exact Or.inl hspells
  · exact Or.inr hspells

def takesKey : CommandType → Bool
  | .set => true
  | .get => true
  | .delete => true
  | .exists => true
  | .keys => true
  | _ => false

/-- Only the fields that the type has are in use, and a lifetime is a whole
number of seconds. -/
structure WellFormed (command : Command) : Prop where
  key : takesKey command.type = false → command.key = []
  value : command.type ≠ .set → command.value = []
  ttl : command.type ≠ .set → command.ttl = none
  seconds : ∀ ttl, command.ttl = some ttl → ∃ seconds : ℕ, 1 ≤ seconds ∧
    seconds ≤ maximumSeconds ∧ ttl.toInt = 1000 * seconds

def argumentWords (command : Command) : List Bytes :=
  if command.type = .set then
    [quote command.key, quote command.value]
  else if takesKey command.type then
    [quote command.key]
  else
    []

def lifetimeWords (word : Bytes) : Option Int64 → List Bytes
  | none => []
  | some ttl => [word, decimalText (ttl.toInt.toNat / 1000)]

/-- The words that a command is written with, names and `TTL` in any case. -/
inductive Written (command : Command) : List Bytes → Prop
  | full {name word : Bytes} (hname : Names command.type name)
      (hword : Spells ['T', 'T', 'L'] word) :
      Written command
        (name :: (argumentWords command ++ lifetimeWords word command.ttl))
  /-- The empty prefix of `KEYS` may be left out. -/
  | allKeys {name : Bytes} (hname : Names command.type name)
      (htype : command.type = .keys) (hkey : command.key = []) :
      Written command [name]

theorem isUpper_names (type : CommandType) :
    ∀ word ∈ names type, word ≠ [] ∧ word.all Char.isUpper = true := by
  cases type <;> simp [names]

theorem token_of_name {type : CommandType} {name : Bytes}
    (hname : Names type name) : Token name name := by
  obtain ⟨word, hword, hspells⟩ := hname
  obtain ⟨hne, hcapitals⟩ := isUpper_names type word hword
  exact token_of_spells hne hcapitals hspells

theorem token_of_ttl {word : Bytes} (hword : Spells ['T', 'T', 'L'] word) :
    Token word word :=
  token_of_spells (List.cons_ne_nil _ _) rfl hword

section Meanings

variable {type : CommandType} {name : Bytes}

/-- A name alone is a command where the type has no key. -/
theorem means_name (hname : Names type name)
    (hkey : takesKey type = false) : Means [name] ⟨type, [], [], none⟩ := by
  cases type with
  | stats => exact .stats (names_of_single hname rfl)
  | compact => exact .compact (names_of_single hname rfl)
  | help => exact .help (names_of_single hname rfl)
  | exit => exact .exit (names_of_pair hname rfl)
  | _ => cases hkey

/-- A name with one argument is a command where the type has a key only. -/
theorem means_key (hname : Names type name)
    (hkey : takesKey type = true) (hset : type ≠ .set) (key : Bytes) :
    Means [name, key] ⟨type, key, [], none⟩ := by
  cases type with
  | set => exact absurd rfl hset
  | get => exact .get (names_of_single hname rfl)
  | delete => exact .delete (names_of_pair hname rfl)
  | «exists» => exact .existsKey (names_of_single hname rfl)
  | keys => exact .keysFrom (names_of_single hname rfl)
  | _ => cases hkey

/-- The words of a `SET` with or without a lifetime. -/
theorem exists_means_set {word : Bytes} {ttl : Option Int64}
    (hname : Names .set name)
    (hword : Spells ['T', 'T', 'L'] word)
    (hseconds : ∀ count, ttl = some count → ∃ seconds : ℕ, 1 ≤ seconds ∧
      seconds ≤ maximumSeconds ∧ count.toInt = 1000 * seconds)
    (key value : Bytes) :
    ∃ tokens,
      List.Forall₂ Token
        (name :: ([quote key, quote value] ++ lifetimeWords word ttl)) tokens ∧
        Means tokens ⟨.set, key, value, ttl⟩ := by
  have hspells := names_of_single hname rfl
  cases ttl with
  | none =>
      refine ⟨[name, key, value], ?_, .set hspells⟩
      exact .cons (token_of_name hname)
        (.cons (token_quote key) (.cons (token_quote value) .nil))
  | some count =>
      obtain ⟨seconds, hpositive, hmaximum, hcount⟩ := hseconds count rfl
      have hnumber : count.toInt.toNat / 1000 = seconds := by omega
      have htext := numeral_decimalText seconds
      rw [lifetimeWords, hnumber]
      refine ⟨[name, key, value, word, decimalText seconds], ?_,
        .setTtl hspells hword htext hpositive hmaximum hcount⟩
      exact .cons (token_of_name hname)
        (.cons (token_quote key) (.cons (token_quote value)
          (.cons (token_of_ttl hword) (.cons (token_of_numeral htext) .nil))))

end Meanings

/-- The words of a command are tokens that mean it. -/
theorem Written.exists_means {command : Command} {words : List Bytes}
    (hwritten : Written command words) (hwell : WellFormed command) :
    ∃ tokens, List.Forall₂ Token words tokens ∧ Means tokens command := by
  obtain ⟨type, key, value, ttl⟩ := command
  obtain ⟨hkey, hvalue, httl, hseconds⟩ := hwell
  dsimp only at hkey hvalue httl hseconds
  cases hwritten with
  | @allKeys name hname htype hempty =>
      dsimp only at htype hempty
      subst htype hempty
      have hset : CommandType.keys ≠ .set := by decide
      rw [hvalue hset, httl hset]
      exact ⟨[name], .cons (token_of_name hname) .nil,
        .keys (names_of_single hname rfl)⟩
  | @full name word hname hword =>
      dsimp only at hname ⊢
      rw [argumentWords]
      dsimp only
      by_cases hset : type = .set
      · subst hset
        exact exists_means_set hname hword hseconds key value
      rw [if_neg hset, hvalue hset, httl hset, lifetimeWords, List.append_nil]
      cases htakes : takesKey type with
      | true =>
          refine ⟨[name, key], ?_, means_key hname htakes hset key⟩
          exact .cons (token_of_name hname) (.cons (token_quote key) .nil)
      | false =>
          rw [hkey htakes]
          refine ⟨[name], ?_, means_name hname htakes⟩
          exact .cons (token_of_name hname) .nil

/-- Every command can be written down and read back: whatever bytes its key and
its value have, whatever number of whole seconds its lifetime has, in which case
its name is written and which whitespace stands between the words. -/
theorem parse_written {command : Command} (hwell : WellFormed command)
    {words : List Bytes} (hwritten : Written command words) {line : Bytes}
    (hline : Spaced Whitespace Eq line words) :
    parse line = .ok command := by
  obtain ⟨tokens, htokens, hmeans⟩ := hwritten.exists_means hwell
  exact parse_ok_iff.mpr
    ⟨tokens, tokenize_of_line (hline.reread htokens), hmeans⟩

/-- The key has a space and a quote, the value is empty, the lifetime is five
seconds; the words are a lower-case name, two quoted words, `TTL` and `5`. -/
theorem parse_written_set :
    parse ([115, 101, 116] ++ ([32] ++ ([34, 97, 32, 92, 34, 34] ++ ([9, 32] ++
      ([34, 34] ++ ([32] ++ ([84, 84, 76] ++ ([10] ++ [53])))))))) =
        .ok ⟨.set, [97, 32, 34], [], some 5000⟩ := by
  let command : Command := ⟨.set, [97, 32, 34], [], some 5000⟩
  have hwell : WellFormed command := {
    key := fun hkey => by cases hkey
    value := fun hset => absurd rfl hset
    ttl := fun hset => absurd rfl hset
    seconds := fun ttl httl => by
      cases httl
      exact ⟨5, by decide, by decide, by decide⟩ }
  have hwords : [[115, 101, 116], [34, 97, 32, 92, 34, 34], [34, 34],
      [84, 84, 76], [53]] = [115, 101, 116] ::
        (argumentWords command ++ lifetimeWords [84, 84, 76] command.ttl) := by
    decide +kernel
  have hwritten : Written command [[115, 101, 116], [34, 97, 32, 92, 34, 34],
      [34, 34], [84, 84, 76], [53]] := by
    rw [hwords]
    exact .full ⟨_, List.mem_singleton_self _, by decide⟩ (by decide)
  have hspace : AllBlank Whitespace [32] := .cons (Or.inl rfl) allBlank_nil
  have htab : AllBlank Whitespace [9, 32] := .cons (Or.inr (Or.inl rfl)) hspace
  have hnewline : AllBlank Whitespace [10] :=
    .cons (Or.inr (Or.inr (Or.inl rfl))) allBlank_nil
  have hbody : Separated Whitespace Eq _ _ :=
    .cons (Eq.refl [115, 101, 116]) (by decide) hspace
      (.cons (Eq.refl [34, 97, 32, 92, 34, 34]) (by decide) htab
        (.cons (Eq.refl [34, 34]) (by decide) hspace
          (.cons (Eq.refl [84, 84, 76]) (by decide) hnewline
            (.single (Eq.refl [53])))))
  exact parse_written hwell hwritten (.of_separated hbody)

end MiniKV.CommandParser
