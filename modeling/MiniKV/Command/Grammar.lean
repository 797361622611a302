import MiniKV.Concrete.CommandParser
import MiniKV.Library.Grammar

/-!
# The grammar of a command line

A line is a row of tokens with whitespace around and between them, a token is
one or more adjacent pieces, and a piece is a bare byte or a quoted run.
`tokenize` reads exactly these lines: from the left every derivation drives the
scanner, and what the scanner has read has a derivation.
-/

namespace MiniKV.CommandParser

open Grammar

/-! ## The grammar -/

/-- Space, tab, newline, vertical tab, form feed and carriage return. -/
def Whitespace (byte : UInt8) : Prop :=
  byte = 32 ∨ byte = 9 ∨ byte = 10 ∨ byte = 11 ∨ byte = 12 ∨ byte = 13

/-- The bytes between two double quotes and the text that they stand for. -/
inductive QuotedRun : Bytes → Bytes → Prop
  | nil : QuotedRun [] []
  | plain {byte : UInt8} {input text : Bytes} (hquote : byte ≠ doubleQuote)
      (hbackslash : byte ≠ backslash) (hrest : QuotedRun input text) :
      QuotedRun (byte :: input) (byte :: text)
  /-- An `n` behind a backslash. -/
  | newline {input text : Bytes} (hrest : QuotedRun input text) :
      QuotedRun (backslash :: 110 :: input) (newline :: text)
  /-- A `t` behind a backslash. -/
  | tabulator {input text : Bytes} (hrest : QuotedRun input text) :
      QuotedRun (backslash :: 116 :: input) (tabulator :: text)
  | quote {input text : Bytes} (hrest : QuotedRun input text) :
      QuotedRun (backslash :: doubleQuote :: input) (doubleQuote :: text)
  | backslash {input text : Bytes} (hrest : QuotedRun input text) :
      QuotedRun (backslash :: backslash :: input) (backslash :: text)

/-- A backslash is an ordinary byte outside quotes. -/
inductive Piece : Bytes → Bytes → Prop
  | bare {byte : UInt8} (hspace : ¬ Whitespace byte)
      (hquote : byte ≠ doubleQuote) : Piece [byte] [byte]
  | quoted {input text : Bytes} (hrun : QuotedRun input text) :
      Piece (doubleQuote :: (input ++ [doubleQuote])) text

abbrev Token : Bytes → Bytes → Prop := Joined Piece

abbrev Line : Bytes → List Bytes → Prop := Spaced Whitespace Token

theorem isSpace_iff {byte : UInt8} : isSpace byte = true ↔ Whitespace byte := by
  simp only [isSpace, Whitespace, Bool.or_eq_true, beq_iff_eq,
    Bool.and_eq_true, decide_eq_true_eq, ← UInt8.toNat_inj]
  simp
  omega

/-- The escape sequences of a quoted run are those that the scanner decodes. -/
theorem QuotedRun.escape {character decoded : UInt8} {input text : Bytes}
    (hdecoded : unescape character = some decoded)
    (hrest : QuotedRun input text) :
    QuotedRun (CommandParser.backslash :: character :: input)
      (decoded :: text) := by
  rw [unescape] at hdecoded
  split at hdecoded
  next hcharacter =>
    cases hdecoded
    rw [hcharacter]
    exact hrest.newline
  · split at hdecoded
    next hcharacter =>
      cases hdecoded
      rw [hcharacter]
      exact hrest.tabulator
    · split at hdecoded
      next hcharacter =>
        cases hdecoded
        rcases hcharacter with rfl | rfl
        · exact hrest.quote
        · exact hrest.backslash
      · cases hdecoded

/-! ## The states of the scanner -/

namespace Scanner

/-- Outside quotes. -/
def plain (tokens : List Bytes) (current : Bytes) (started : Bool) :
    Scanner :=
  { tokens := tokens, current := current, tokenStarted := started }

/-- Inside quotes. -/
def quoted (tokens : List Bytes) (current : Bytes) : Scanner :=
  { tokens := tokens, current := current, inQuotes := true,
    tokenStarted := true }

/-- Behind a backslash inside quotes. -/
def escaped (tokens : List Bytes) (current : Bytes) : Scanner :=
  { quoted tokens current with escaping := true }

variable {tokens : List Bytes} {current : Bytes} {started : Bool}
variable {character : UInt8}

theorem step_plain_bare (hspace : ¬ Whitespace character)
    (hquote : character ≠ doubleQuote) :
    (plain tokens current started).step character =
      .ok (plain tokens (current ++ [character]) true) := by
  have hbare : ¬ isSpace character = true := fun h => hspace (isSpace_iff.mp h)
  simp [step, plain, push, hquote, hbare]

theorem step_plain_quote :
    (plain tokens current started).step doubleQuote =
      .ok (quoted tokens current) := by
  simp [step, plain, quoted]

theorem step_plain_space (hspace : Whitespace character) :
    (plain tokens current started).step character =
      .ok (plain tokens current started).flush := by
  have hquote : character ≠ doubleQuote := by
    rintro rfl
    exact absurd (isSpace_iff.mpr hspace) (by decide)
  simp [step, plain, hquote, isSpace_iff.mpr hspace]

@[simp]
theorem flush_started :
    (plain tokens current true).flush = plain (tokens ++ [current]) [] false :=
  rfl

@[simp]
theorem flush_plain_false :
    (plain tokens current false).flush = plain tokens current false :=
  rfl

theorem step_quoted_plain (hquote : character ≠ doubleQuote)
    (hbackslash : character ≠ backslash) :
    (quoted tokens current).step character =
      .ok (quoted tokens (current ++ [character])) := by
  simp [step, quoted, push, hquote, hbackslash]

theorem step_quoted_quote :
    (quoted tokens current).step doubleQuote =
      .ok (plain tokens current true) := by
  have hne : doubleQuote ≠ backslash := by decide
  simp [step, plain, quoted, hne]

theorem step_quoted_backslash :
    (quoted tokens current).step backslash = .ok (escaped tokens current) := by
  simp [step, quoted, escaped]

theorem step_escaped {decoded : UInt8}
    (hdecoded : unescape character = some decoded) :
    (escaped tokens current).step character =
      .ok (quoted tokens (current ++ [decoded])) := by
  simp [step, escaped, quoted, push, hdecoded]

theorem step_escaped_error (hdecoded : unescape character = none) :
    (escaped tokens current).step character =
      .error (.invalidArgument "unsupported escape sequence") := by
  simp [step, escaped, quoted, hdecoded]

theorem finish_plain :
    (plain tokens current started).finish =
      .ok (plain tokens current started).flush.tokens := rfl

/-! ## From the grammar to the scanner -/

/-- The scanner goes through this input. -/
def Scans (start : Scanner) (input : Bytes) (final : Scanner) : Prop :=
  input.foldlM step start = .ok final

theorem scans_nil {scanner : Scanner} : Scans scanner [] scanner := rfl

theorem Scans.cons {start next final : Scanner} {rest : Bytes}
    (hstep : start.step character = .ok next) (hrest : Scans next rest final) :
    Scans start (character :: rest) final := by
  rw [Scans, List.foldlM_cons, hstep]
  exact hrest

theorem Scans.append {start middle final : Scanner} {front back : Bytes}
    (hfront : Scans start front middle) (hback : Scans middle back final) :
    Scans start (front ++ back) final := by
  rw [Scans, List.foldlM_append, hfront]
  exact hback

theorem scans_quotedRun {input text : Bytes} (hrun : QuotedRun input text)
    (tokens : List Bytes) (current : Bytes) :
    Scans (quoted tokens current) input (quoted tokens (current ++ text)) := by
  induction hrun generalizing current with
  | nil =>
      rw [List.append_nil]
      exact scans_nil
  | plain hquote hbackslash hrest ih =>
      rw [List.append_cons]
      exact .cons (step_quoted_plain hquote hbackslash) (ih _)
  | newline hrest ih =>
      rw [List.append_cons]
      exact .cons step_quoted_backslash (.cons (step_escaped rfl) (ih _))
  | tabulator hrest ih =>
      rw [List.append_cons]
      exact .cons step_quoted_backslash (.cons (step_escaped rfl) (ih _))
  | quote hrest ih =>
      rw [List.append_cons]
      exact .cons step_quoted_backslash (.cons (step_escaped rfl) (ih _))
  | backslash hrest ih =>
      rw [List.append_cons]
      exact .cons step_quoted_backslash (.cons (step_escaped rfl) (ih _))

theorem scans_piece {input text : Bytes} (hpiece : Piece input text)
    (tokens : List Bytes) (current : Bytes) (started : Bool) :
    Scans (plain tokens current started) input
      (plain tokens (current ++ text) true) := by
  cases hpiece with
  | bare hspace hquote => exact .cons (step_plain_bare hspace hquote) scans_nil
  | quoted hrun =>
      apply Scans.cons step_plain_quote
      exact (scans_quotedRun hrun tokens current).append
        (.cons step_quoted_quote scans_nil)

theorem scans_adjacent {input text : Bytes} (hpieces : Adjacent Piece input text)
    (tokens : List Bytes) (current : Bytes) :
    Scans (plain tokens current true) input
      (plain tokens (current ++ text) true) := by
  induction hpieces generalizing current with
  | nil =>
      rw [List.append_nil]
      exact scans_nil
  | cons hpiece hrest ih =>
      rw [← List.append_assoc]
      exact (scans_piece hpiece tokens current true).append (ih _)

theorem scans_token {input text : Bytes} (htoken : Token input text)
    (tokens : List Bytes) :
    Scans (plain tokens [] false) input (plain tokens text true) := by
  cases htoken with
  | intro hpiece hrest =>
      exact (scans_piece hpiece tokens [] false).append
        (scans_adjacent hrest tokens _)

theorem scans_blanks {gap : Bytes} (hgap : AllBlank Whitespace gap)
    (tokens : List Bytes) :
    Scans (plain tokens [] false) gap (plain tokens [] false) := by
  induction gap with
  | nil => exact scans_nil
  | cons character gap ih =>
      obtain ⟨hcharacter, hrest⟩ := List.forall_mem_cons.mp hgap
      exact .cons (step_plain_space hcharacter) (ih hrest)

/-- The first blank behind a token completes it. -/
theorem scans_gap {gap : Bytes} (hgap : AllBlank Whitespace gap)
    (hne : gap ≠ []) (tokens : List Bytes) (current : Bytes) :
    Scans (plain tokens current true) gap
      (plain (tokens ++ [current]) [] false) := by
  cases gap with
  | nil => exact absurd rfl hne
  | cons character gap =>
      obtain ⟨hcharacter, hrest⟩ := List.forall_mem_cons.mp hgap
      exact .cons (step_plain_space hcharacter) (scans_blanks hrest _)

/-- Behind the last token the scanner may still hold it. -/
theorem scans_separated {body : Bytes} {values : List Bytes}
    (hbody : Separated Whitespace Token body values) (tokens : List Bytes) :
    ∃ last current started,
      Scans (plain tokens [] false) body (plain last current started) ∧
        (plain last current started).flush =
          plain (tokens ++ values) [] false := by
  induction hbody generalizing tokens with
  | nil =>
      refine ⟨tokens, [], false, scans_nil, ?_⟩
      rw [List.append_nil]
      rfl
  | single htoken => exact ⟨tokens, _, true, scans_token htoken tokens, rfl⟩
  | @cons input gap rest value next values htoken hne hgap hrest ih =>
      obtain ⟨last, current, started, hscans, hflush⟩ := ih (tokens ++ [value])
      refine ⟨last, current, started, ?_, ?_⟩
      · exact (scans_token htoken tokens).append
          ((scans_gap hgap hne tokens value).append hscans)
      · rw [hflush, List.append_assoc]
        rfl

/-- Blanks at the end change no token. -/
theorem scans_trailing {gap : Bytes} (hgap : AllBlank Whitespace gap)
    {tokens last : List Bytes} {current : Bytes} {started : Bool}
    (hflush : (plain last current started).flush = plain tokens [] false) :
    ∃ final, Scans (plain last current started) gap final ∧
      final.finish = .ok tokens := by
  cases gap with
  | nil =>
      refine ⟨_, scans_nil, ?_⟩
      rw [finish_plain, hflush]
      rfl
  | cons character gap =>
      obtain ⟨hcharacter, hrest⟩ := List.forall_mem_cons.mp hgap
      refine ⟨plain tokens [] false, ?_, rfl⟩
      apply Scans.cons (step_plain_space hcharacter)
      rw [hflush]
      exact scans_blanks hrest tokens

end Scanner

open Scanner

/-- `tokenize` reads what the grammar derives. -/
theorem tokenize_of_line {input : Bytes} {tokens : List Bytes}
    (hline : Line input tokens) : tokenize input = .ok tokens := by
  cases hline with
  | intro hbefore hbody hafter =>
      obtain ⟨last, current, started, hscans, hflush⟩ :=
        scans_separated hbody []
      obtain ⟨final, htrailing, hfinish⟩ := scans_trailing hafter hflush
      have hinput := (scans_blanks hbefore []).append (hscans.append htrailing)
      have hstart : plain [] [] false = {} := rfl
      rw [hstart] at hinput
      rw [tokenize, hinput]
      exact hfinish

/-! ## From the scanner to the grammar -/

/-- The rest of a started token and the line behind it. -/
inductive Continues : Bytes → Bytes → List Bytes → Prop
  | ends {input text : Bytes} (hpieces : Adjacent Piece input text) :
      Continues input text []
  | space {front rest text : Bytes} {byte : UInt8} {tokens : List Bytes}
      (hpieces : Adjacent Piece front text) (hspace : Whitespace byte)
      (hline : Line rest tokens) :
      Continues (front ++ byte :: rest) text tokens

/-- The rest of a quoted run and what continues its token. -/
inductive Unquotes : Bytes → Bytes → List Bytes → Prop
  | intro {input back text rest : Bytes} {tokens : List Bytes}
      (hrun : QuotedRun input text) (hback : Continues back rest tokens) :
      Unquotes (input ++ doubleQuote :: back) (text ++ rest) tokens

namespace Continues

variable {front back start rest : Bytes} {tokens : List Bytes}

theorem piece (hpiece : Piece front start) (hback : Continues back rest tokens) :
    Continues (front ++ back) (start ++ rest) tokens := by
  cases hback with
  | ends hpieces => exact .ends (.cons hpiece hpieces)
  | space hpieces hspace hline =>
      rw [← List.append_assoc]
      exact .space (.cons hpiece hpieces) hspace hline

theorem line (hpiece : Piece front start) (hback : Continues back rest tokens) :
    Line (front ++ back) ((start ++ rest) :: tokens) := by
  cases hback with
  | ends hpieces => exact Spaced.single (.intro hpiece hpieces)
  | space hpieces hspace hline =>
      rw [← List.append_assoc]
      exact Spaced.item_cons (.intro hpiece hpieces) hspace hline

end Continues

namespace Unquotes

variable {byte : UInt8} {input text : Bytes} {tokens : List Bytes}

theorem quote (hback : Continues input text tokens) :
    Unquotes (doubleQuote :: input) text tokens :=
  .intro .nil hback

theorem plain (hquote : byte ≠ doubleQuote) (hbackslash : byte ≠ backslash)
    (hrest : Unquotes input text tokens) :
    Unquotes (byte :: input) (byte :: text) tokens := by
  cases hrest with
  | intro hrun hback =>
      exact .intro (hrun.plain hquote hbackslash) hback

theorem escape {decoded : UInt8} (hdecoded : unescape byte = some decoded)
    (hrest : Unquotes input text tokens) :
    Unquotes (backslash :: byte :: input) (decoded :: text) tokens := by
  cases hrest with
  | intro hrun hback => exact .intro (hrun.escape hdecoded) hback

/-- The opening quote in front makes the run a piece. -/
theorem exists_piece (hrest : Unquotes input text tokens) :
    ∃ front back start rest, Piece front start ∧ Continues back rest tokens ∧
      doubleQuote :: input = front ++ back ∧ text = start ++ rest := by
  cases hrest with
  | @intro run back start rest _ hrun hback =>
      refine ⟨_, back, start, rest, .quoted hrun, hback, ?_, rfl⟩
      simp

end Unquotes

/-- What the scanner makes of the rest of the input. -/
def Scanner.read (scanner : Scanner) (input : Bytes) : Result (List Bytes) :=
  input.foldlM step scanner >>= finish

theorem tokenize_eq_read (input : Bytes) :
    tokenize input = (plain [] [] false).read input := by
  have hstart : ({} : Scanner) = plain [] [] false := rfl
  rw [tokenize, hstart, Scanner.read]
  cases input.foldlM step (plain [] [] false) with
  | error status => rfl
  | ok scanner => rfl

namespace Scanner

variable {scanner : Scanner} {character : UInt8} {input : Bytes}

theorem read_cons :
    scanner.read (character :: input) =
      scanner.step character >>= fun next => next.read input := by
  rw [read, List.foldlM_cons, bind_assoc]
  rfl

theorem read_of_step {next : Scanner} (hstep : scanner.step character = .ok next) :
    scanner.read (character :: input) = next.read input := by
  rw [read_cons, hstep]
  rfl

theorem step_error {status : Status}
    (hstep : scanner.step character = .error status) :
    ∃ message, status = .invalidArgument message := by
  rw [step] at hstep
  split at hstep
  · split at hstep
    · cases hstep
      exact ⟨_, rfl⟩
    · cases hstep
  · split at hstep
    · cases hstep
    · split at hstep
      · cases hstep
      · split at hstep
        · cases hstep
        · cases hstep

theorem finish_error {status : Status} (hfinish : scanner.finish = .error status) :
    ∃ message, status = .invalidArgument message := by
  rw [finish] at hfinish
  split at hfinish
  · cases hfinish
    exact ⟨_, rfl⟩
  · split at hfinish
    · cases hfinish
      exact ⟨_, rfl⟩
    · cases hfinish

/-- The scanner only ever fails on an invalid argument. -/
theorem read_error {status : Status}
    (hread : scanner.read input = .error status) :
    ∃ message, status = .invalidArgument message := by
  induction input generalizing scanner with
  | nil => exact finish_error hread
  | cons character input ih =>
      cases hstep : scanner.step character with
      | error failed =>
          rw [read_cons, hstep] at hread
          cases hread
          exact step_error hstep
      | ok next =>
          rw [read_of_step hstep] at hread
          exact ih hread

end Scanner

/-- What each state of the scanner has read of an input when it succeeds. -/
structure Sound (input : Bytes) : Prop where
  between : ∀ tokens result,
    (Scanner.plain tokens [] false).read input = .ok result →
      ∃ values, Line input values ∧ result = tokens ++ values
  inside : ∀ tokens current result,
    (Scanner.plain tokens current true).read input = .ok result →
      ∃ text values, Continues input text values ∧
        result = tokens ++ (current ++ text) :: values
  quoted : ∀ tokens current result,
    (Scanner.quoted tokens current).read input = .ok result →
      ∃ text values, Unquotes input text values ∧
        result = tokens ++ (current ++ text) :: values
  escaped : ∀ tokens current result,
    (Scanner.escaped tokens current).read input = .ok result →
      ∃ character rest decoded text values, input = character :: rest ∧
        unescape character = some decoded ∧ Unquotes rest text values ∧
        result = tokens ++ (current ++ decoded :: text) :: values

namespace Sound

variable {input : Bytes}

theorem nil : Sound [] where
  between tokens result hread := by
    cases hread
    exact ⟨[], Spaced.nil, (List.append_nil _).symm⟩
  inside tokens current result hread := by
    cases hread
    refine ⟨[], [], .ends .nil, ?_⟩
    rw [List.append_nil]
    rfl
  quoted tokens current result hread := by cases hread
  escaped tokens current result hread := by cases hread

theorem cons_between (hinput : Sound input) (character : UInt8)
    {tokens result : List Bytes}
    (hread : (Scanner.plain tokens [] false).read (character :: input) =
      .ok result) :
    ∃ values, Line (character :: input) values ∧ result = tokens ++ values := by
  by_cases hspace : Whitespace character
  · rw [read_of_step (step_plain_space hspace)] at hread
    obtain ⟨values, hline, hresult⟩ := hinput.between tokens result hread
    exact ⟨values, hline.blank_cons hspace, hresult⟩
  by_cases hquote : character = doubleQuote
  · subst hquote
    rw [read_of_step step_plain_quote] at hread
    obtain ⟨text, values, hunquotes, hresult⟩ :=
      hinput.quoted tokens [] result hread
    obtain ⟨front, back, start, rest, hpiece, hback, hsplit, rfl⟩ :=
      hunquotes.exists_piece
    rw [hsplit]
    exact ⟨_, hback.line hpiece, hresult⟩
  · rw [read_of_step (step_plain_bare hspace hquote)] at hread
    obtain ⟨text, values, hcontinues, hresult⟩ :=
      hinput.inside tokens [character] result hread
    exact ⟨_, hcontinues.line (.bare hspace hquote), hresult⟩

theorem cons_inside (hinput : Sound input) (character : UInt8)
    {tokens result : List Bytes} {current : Bytes}
    (hread : (Scanner.plain tokens current true).read (character :: input) =
      .ok result) :
    ∃ text values, Continues (character :: input) text values ∧
      result = tokens ++ (current ++ text) :: values := by
  by_cases hspace : Whitespace character
  · rw [read_of_step (step_plain_space hspace), flush_started] at hread
    obtain ⟨values, hline, hresult⟩ := hinput.between _ result hread
    refine ⟨[], values, .space .nil hspace hline, ?_⟩
    rw [hresult, List.append_nil, List.append_cons tokens current values]
  by_cases hquote : character = doubleQuote
  · subst hquote
    rw [read_of_step step_plain_quote] at hread
    obtain ⟨text, values, hunquotes, hresult⟩ :=
      hinput.quoted tokens current result hread
    obtain ⟨front, back, start, rest, hpiece, hback, hsplit, rfl⟩ :=
      hunquotes.exists_piece
    rw [hsplit]
    exact ⟨_, values, hback.piece hpiece, hresult⟩
  · rw [read_of_step (step_plain_bare hspace hquote)] at hread
    obtain ⟨text, values, hcontinues, hresult⟩ :=
      hinput.inside tokens _ result hread
    rw [← List.append_cons] at hresult
    exact ⟨_, values, hcontinues.piece (.bare hspace hquote), hresult⟩

theorem cons_quoted (hinput : Sound input) (character : UInt8)
    {tokens result : List Bytes} {current : Bytes}
    (hread : (Scanner.quoted tokens current).read (character :: input) =
      .ok result) :
    ∃ text values, Unquotes (character :: input) text values ∧
      result = tokens ++ (current ++ text) :: values := by
  by_cases hquote : character = doubleQuote
  · subst hquote
    rw [read_of_step step_quoted_quote] at hread
    obtain ⟨text, values, hcontinues, hresult⟩ :=
      hinput.inside tokens current result hread
    exact ⟨text, values, .quote hcontinues, hresult⟩
  by_cases hbackslash : character = backslash
  · subst hbackslash
    rw [read_of_step step_quoted_backslash] at hread
    obtain ⟨escape, rest, decoded, text, values, rfl, hdecoded, hunquotes,
      hresult⟩ := hinput.escaped tokens current result hread
    exact ⟨_, values, hunquotes.escape hdecoded, hresult⟩
  · rw [read_of_step (step_quoted_plain hquote hbackslash)] at hread
    obtain ⟨text, values, hunquotes, hresult⟩ :=
      hinput.quoted tokens _ result hread
    rw [← List.append_cons] at hresult
    exact ⟨_, values, hunquotes.plain hquote hbackslash, hresult⟩

theorem cons_escaped (hinput : Sound input) (character : UInt8)
    {tokens result : List Bytes} {current : Bytes}
    (hread : (Scanner.escaped tokens current).read (character :: input) =
      .ok result) :
    ∃ escape rest decoded text values, character :: input = escape :: rest ∧
      unescape escape = some decoded ∧ Unquotes rest text values ∧
      result = tokens ++ (current ++ decoded :: text) :: values := by
  cases hdecoded : unescape character with
  | none =>
      rw [read_cons, step_escaped_error hdecoded] at hread
      cases hread
  | some decoded =>
      rw [read_of_step (step_escaped hdecoded)] at hread
      obtain ⟨text, values, hunquotes, hresult⟩ :=
        hinput.quoted tokens _ result hread
      rw [← List.append_cons] at hresult
      exact ⟨character, input, decoded, text, values, rfl, hdecoded, hunquotes,
        hresult⟩

end Sound

/-- In every state, what the scanner accepts has a derivation. -/
theorem sound (input : Bytes) : Sound input := by
  induction input with
  | nil => exact Sound.nil
  | cons character input ih =>
      exact ⟨fun _ _ => ih.cons_between character,
        fun _ _ _ => ih.cons_inside character,
        fun _ _ _ => ih.cons_quoted character,
        fun _ _ _ => ih.cons_escaped character⟩

theorem line_of_tokenize {input : Bytes} {tokens : List Bytes}
    (htokens : tokenize input = .ok tokens) : Line input tokens := by
  rw [tokenize_eq_read] at htokens
  obtain ⟨values, hline, rfl⟩ := (sound input).between [] tokens htokens
  exact hline

theorem tokenize_ok_iff {input : Bytes} {tokens : List Bytes} :
    tokenize input = .ok tokens ↔ Line input tokens :=
  ⟨line_of_tokenize, tokenize_of_line⟩

theorem tokenize_error {input : Bytes} {status : Status}
    (htokens : tokenize input = .error status) :
    ∃ message, status = .invalidArgument message := by
  rw [tokenize_eq_read] at htokens
  exact read_error htokens

/-- For every input: `tokenize` succeeds exactly on the lines of the grammar and
returns the one list of tokens that the line stands for; on any other input it
fails with an invalid argument. -/
theorem tokenize_reads_grammar (input : Bytes) :
    (∀ tokens, tokenize input = .ok tokens ↔ Line input tokens) ∧
    (∀ left right, Line input left → Line input right → left = right) ∧
    ((¬ ∃ tokens, Line input tokens) →
      ∃ message, tokenize input = .error (.invalidArgument message)) := by
  refine ⟨fun tokens => tokenize_ok_iff, ?_, ?_⟩
  · intro left right hleft hright
    have heq := (tokenize_of_line hleft).symm.trans (tokenize_of_line hright)
    exact Except.ok.inj heq
  · intro hnone
    cases hresult : tokenize input with
    | ok tokens => exact absurd ⟨tokens, line_of_tokenize hresult⟩ hnone
    | error status =>
        obtain ⟨message, rfl⟩ := tokenize_error hresult
        exact ⟨message, rfl⟩

/-- An empty token, a quote in the middle of a token, and a bare backslash. -/
example : tokenize [34, 34, 32, 97, 34, 32, 92, 116, 34, 92] =
    .ok [[], [97, 32, 9, 92]] := by
  decide +kernel

end MiniKV.CommandParser
