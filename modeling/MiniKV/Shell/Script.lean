import MiniKV.Command.Quoting
import MiniKV.Concrete.Shell

/-!
# Scripts

Commands are written down one a line and given to the shell on its standard
input.  Quoting leaves no newline in a line, so that the shell reads the same
lines back and executes the same commands in the same order.
-/

namespace MiniKV

open Grammar

namespace CommandParser

/-! ## Lines without a newline -/

theorem newline_not_mem_quoteByte (byte : UInt8) :
    newline ∉ quoteByte byte := by
  unfold quoteByte
  split
  · decide
  next hbyte =>
    split
    · decide
    · split
      · simp only [List.mem_cons, List.not_mem_nil, or_false, not_or]
        exact ⟨by decide, Ne.symm hbyte⟩
      · rw [List.mem_singleton]
        exact Ne.symm hbyte

theorem newline_not_mem_quote (text : Bytes) : newline ∉ quote text := by
  have hquote : newline ≠ doubleQuote := by decide
  rw [quote, List.mem_cons, List.mem_append, List.mem_singleton, not_or, not_or]
  refine ⟨hquote, fun hmem => ?_, hquote⟩
  obtain ⟨byte, -, hbyte⟩ := List.mem_flatMap.mp hmem
  exact newline_not_mem_quoteByte byte hbyte

theorem newline_not_mem_decimalText (number : ℕ) :
    newline ∉ decimalText number := by
  intro hmem
  have hdigit := (numeral_decimalText number).digits newline hmem
  revert hdigit
  decide

theorem newline_not_mem_argumentWords (command : Command) :
    ∀ word ∈ argumentWords command, newline ∉ word := by
  unfold argumentWords
  split
  · simp only [List.forall_mem_cons]
    exact ⟨newline_not_mem_quote _, newline_not_mem_quote _, by simp⟩
  · split
    · simp only [List.forall_mem_cons]
      exact ⟨newline_not_mem_quote _, by simp⟩
    · simp

/-- The line is one way to write the command. -/
structure WritesLine (command : Command) (line : Bytes) : Prop where
  wellFormed : WellFormed command
  written : ∃ words, Written command words ∧ Spaced Whitespace Eq line words
  single : newline ∉ line

theorem WritesLine.parse_eq {command : Command} {line : Bytes}
    (hwrites : WritesLine command line) : parse line = .ok command := by
  obtain ⟨hwell, ⟨words, hwritten, hline⟩, -⟩ := hwrites
  obtain ⟨tokens, htokens, hmeans⟩ := hwritten.exists_means hwell
  exact parse_ok_iff.mpr
    ⟨tokens, tokenize_of_line (hline.reread htokens), hmeans⟩

/-- The command in capitals, with single spaces between its words. -/
def writeCommand (command : Command) : Bytes :=
  [32].intercalate (literal (names command.type).headI ::
    (argumentWords command ++
      lifetimeWords (literal ['T', 'T', 'L']) command.ttl))

/-- Every command has a line. -/
theorem writesLine_writeCommand {command : Command}
    (hwell : WellFormed command) :
    WritesLine command (writeCommand command) where
  wellFormed := hwell
  written := by
    have hname : Names command.type (literal (names command.type).headI) := by
      cases command.type <;> exact ⟨_, List.mem_cons_self, by decide⟩
    have hspace : AllBlank Whitespace [32] := .cons (Or.inl rfl) allBlank_nil
    exact ⟨_, .full hname (by decide),
      .of_separated (separated_intercalate (by decide) hspace _)⟩
  single := by
    have hname : newline ∉ literal (names command.type).headI := by
      cases command.type <;> decide +kernel
    apply not_mem_intercalate (by decide)
    simp only [List.forall_mem_cons, List.forall_mem_append]
    refine ⟨hname, newline_not_mem_argumentWords command, ?_⟩
    cases command.ttl with
    | none => simp [lifetimeWords]
    | some ttl =>
        simp only [lifetimeWords, List.forall_mem_cons]
        exact ⟨by decide +kernel, newline_not_mem_decimalText _, by simp⟩

end CommandParser

namespace Shell

open CommandParser

/-! ## The lines of the input -/

/-- A line with its newline is read back. -/
theorem inputLines_line {line : Bytes} (hsingle : newline ∉ line)
    (rest : Bytes) :
    inputLines (line ++ newline :: rest) = line :: inputLines rest := by
  induction line with
  | nil => rfl
  | cons byte line ih =>
      rw [List.mem_cons, not_or] at hsingle
      rw [List.cons_append, inputLines, if_neg (Ne.symm hsingle.1),
        ih hsingle.2]

/-- The last line needs no newline. -/
theorem inputLines_last {line : Bytes} (hne : line ≠ [])
    (hsingle : newline ∉ line) : inputLines line = [line] := by
  induction line with
  | nil => exact absurd rfl hne
  | cons byte line ih =>
      rw [List.mem_cons, not_or] at hsingle
      rw [inputLines, if_neg (Ne.symm hsingle.1)]
      cases line with
      | nil => rfl
      | cons next line => rw [ih (List.cons_ne_nil _ _) hsingle.2]

/-- The text of a script, with or without a newline at its end. -/
inductive Script : List Bytes → Bytes → Prop
  | nil : Script [] []
  | last {line : Bytes} (hne : line ≠ []) : Script [line] line
  | line {line rest : Bytes} {lines : List Bytes} (hrest : Script lines rest) :
      Script (line :: lines) (line ++ newline :: rest)

/-- The shell reads the lines of a script. -/
theorem inputLines_script {lines : List Bytes} {script : Bytes}
    (hscript : Script lines script)
    (hsingle : ∀ line ∈ lines, newline ∉ line) :
    inputLines script = lines := by
  induction hscript with
  | nil => rfl
  | last hne => exact inputLines_last hne (hsingle _ List.mem_cons_self)
  | line hrest ih =>
      obtain ⟨hline, hothers⟩ := List.forall_mem_cons.mp hsingle
      rw [inputLines_line hline, ih hothers]

/-- Every command on a line of its own. -/
def written (commands : List Command) : Bytes :=
  commands.flatMap fun command => writeCommand command ++ [newline]

theorem script_written (commands : List Command) :
    Script (commands.map writeCommand) (written commands) := by
  induction commands with
  | nil => exact .nil
  | cons command commands ih =>
      rw [written, List.flatMap_cons, List.append_assoc]
      exact .line ih

/-! ## Following a script -/

/-- A command with what it learns from outside, or a pass of the cleaner. -/
inductive Step
  | command (command : Command) (environment : Environment)
      (fileSizeFailed : Bool)
  | cleaner (environment : Environment)

/-- The commands of the steps. -/
def commands : List Step → List Command
  | [] => []
  | .command command _ _ :: steps => command :: commands steps
  | .cleaner _ :: steps => commands steps

/-- The turns of a session in which the steps come as these lines. -/
def turnsOf : List Step → List Bytes → List Turn
  | [], _ => []
  | .cleaner environment :: steps, lines =>
      .cleaner environment :: turnsOf steps lines
  | .command _ _ _ :: _, [] => []
  | .command _ environment fileSizeFailed :: steps, line :: lines =>
      .line line environment fileSizeFailed :: turnsOf steps lines

/-- The commands are executed one after the other, up to the first `EXIT` or
the first exception. -/
def follow (hitRate : CacheStatistics → String) :
    List Step → KeyValueStore → Session
  | [], store => ⟨store.close.1, ["\n"], none⟩
  | .cleaner environment :: steps, store =>
      follow hitRate steps (store.cleanupExpired environment).1
  | .command command environment fileSizeFailed :: steps, store =>
      match execute hitRate environment fileSizeFailed command store with
      | (store, .error what) => ⟨store, [""], some what⟩
      | (store, .ok text) =>
          if command.type = .exit then
            ⟨store, [text], none⟩
          else
            (follow hitRate steps store).behind text

theorem session_turnsOf (hitRate : CacheStatistics → String)
    {steps : List Step} {lines : List Bytes}
    (hwrites : List.Forall₂ WritesLine (commands steps) lines)
    (store : KeyValueStore) :
    session hitRate (turnsOf steps lines) store =
      follow hitRate steps store := by
  induction steps generalizing lines store with
  | nil => rfl
  | cons step steps ih =>
      cases step with
      | cleaner environment => exact ih hwrites _
      | command command environment fileSizeFailed =>
          cases hwrites with
          | cons hline hothers =>
              rw [turnsOf, session, hline.parse_eq, follow]
              dsimp only
              rcases execute hitRate environment fileSizeFailed command store
                with ⟨after, what | text⟩
              · rfl
              · dsimp only
                rw [ih hothers]

/-- Every script is executed as it is written: whatever bytes the keys and the
values have, however the words of a line are spaced, and wherever the cleaner
works in between, the shell that reads the script does what the commands do one
after the other up to the first `EXIT` or the first exception, and prints the
text of each. -/
theorem script_is_followed (hitRate : CacheStatistics → String)
    {steps : List Step} {lines : List Bytes}
    (hwrites : List.Forall₂ WritesLine (commands steps) lines)
    {script : Bytes} (hscript : Script lines script) (store : KeyValueStore) :
    session hitRate (turnsOf steps (inputLines script)) store =
      follow hitRate steps store := by
  have hflipped : List.Forall₂ (fun line command => newline ∉ line ∧
      WritesLine command line) lines (commands steps) :=
    hwrites.flip.imp fun _ _ hwrites => ⟨hwrites.single, hwrites⟩
  have hsingle := ((List.forall₂_and_left _ _).mp hflipped).1
  rw [inputLines_script hscript hsingle]
  exact session_turnsOf hitRate hwrites store

/-- A value with a newline, a quote and a backslash is stored and read, with a
pass of the cleaner in between; what stands behind `EXIT` is not executed. -/
theorem script_is_followed_to_exit :
    let value : Bytes := [110, newline, doubleQuote, backslash]
    let stored : Command := ⟨.set, [97, 32], value, some 5000⟩
    let found : Command := ⟨.get, [97, 32], [], none⟩
    let exit : Command := ⟨.exit, [], [], none⟩
    let steps : List Step := [.command stored { nowMs := 1 } false,
      .cleaner { nowMs := 2 }, .command found { nowMs := 3 } false,
      .command exit { nowMs := 4 } false, .command found { nowMs := 5 } false]
    let script := written (commands steps)
    ∀ store, session (fun _ => "") (turnsOf steps (inputLines script)) store =
      follow (fun _ => "") steps store := by
  intro value stored found exit steps script store
  have hstored : WellFormed stored :=
    ⟨nofun, fun hset => absurd rfl hset, fun hset => absurd rfl hset,
      fun ttl httl => by
        cases httl
        exact ⟨5, by decide, by decide, by decide⟩⟩
  have hbare : ∀ type key, (takesKey type = false → key = []) →
      WellFormed ⟨type, key, [], none⟩ := fun _ _ hkey =>
    ⟨hkey, fun _ => rfl, fun _ => rfl, nofun⟩
  have hfound : WellFormed found := hbare _ _ nofun
  have hexit : WellFormed exit := hbare _ _ fun _ => rfl
  have hwrites : List.Forall₂ WritesLine (commands steps)
      ((commands steps).map writeCommand) :=
    .cons (writesLine_writeCommand hstored)
      (.cons (writesLine_writeCommand hfound)
        (.cons (writesLine_writeCommand hexit)
          (.cons (writesLine_writeCommand hfound) .nil)))
  exact script_is_followed (fun _ => "") hwrites (script_written _) store

end Shell

end MiniKV
