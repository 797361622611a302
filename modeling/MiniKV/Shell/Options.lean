import MiniKV.Command.Language
import MiniKV.Shell.Transcript

/-!
# The arguments of the program

The arguments form a small language: each option stands in front of its value,
a later one overrides an earlier one, and a request for help cuts the row short.
Whether a process serves its file, shows its usage or fails is read off the
arguments and the bytes of the file.
-/

namespace MiniKV.Shell

open CommandParser KeyValueStore

/-- The settings that the arguments choose. -/
structure Settings where
  path : String
  capacity : ℕ
  milliseconds : ℕ

def Settings.initial : Settings := ⟨"data/minikv.aof", 128, 1000⟩

def Settings.config (settings : Settings) : StoreConfig :=
  ⟨settings.path, settings.capacity, Int64.ofNat settings.milliseconds, true⟩

/-- A positive number that fits into a size. -/
structure Size (text : Bytes) (number : ℕ) : Prop where
  numeral : Numeral text number
  positive : 0 < number
  bound : number < 2 ^ 64

/-- Rows of options with their values, and the settings before and after. -/
inductive Options : List Bytes → Settings → Settings → Prop
  | nil (settings : Settings) : Options [] settings settings
  | data {path : Bytes} {rest : List Bytes} {settings last : Settings}
      (hrest : Options rest { settings with path := shownText path } last) :
      Options (dataOption :: path :: rest) settings last
  | cache {text : Bytes} {capacity : ℕ} {rest : List Bytes}
      {settings last : Settings} (hsize : Size text capacity)
      (hrest : Options rest { settings with capacity := capacity } last) :
      Options (cacheOption :: text :: rest) settings last
  | cleanup {text : Bytes} {milliseconds : ℕ} {rest : List Bytes}
      {settings last : Settings} (hsize : Size text milliseconds)
      (hrest : Options rest { settings with milliseconds := milliseconds }
        last) :
      Options (cleanupOption :: text :: rest) settings last

/-- A request for help behind a row of options. -/
def AsksHelp (arguments : List Bytes) (settings : Settings) : Prop :=
  ∃ front help rest last, Options front settings last ∧ help ∈ helpOptions ∧
    arguments = front ++ help :: rest

/-! ## Sizes -/

theorem parsePositiveSize_iff {text : Bytes} {number : ℕ} :
    parsePositiveSize text = some number ↔ Size text number := by
  unfold parsePositiveSize fromCharsUnsigned
  dsimp only
  constructor
  · intro hparse
    split at hparse
    next parsed heq =>
      split at heq
      · cases heq
      next hdigits =>
        split at heq
        next hbound =>
          obtain ⟨hnumber, hrest⟩ := Prod.mk.inj (Option.some.inj heq)
          have hall : ∀ byte ∈ text, isDigit byte = true :=
            List.dropWhile_eq_nil_iff.mp hrest
          have hwhole : text.takeWhile isDigit = text :=
            List.takeWhile_eq_self_iff.mpr hall
          rw [hwhole] at hdigits hbound hnumber
          split at hparse
          · cases hparse
          next hpositive =>
            cases hparse
            exact ⟨hnumber ▸ numeral_decimal hdigits hall,
              Nat.pos_of_ne_zero hpositive, hnumber ▸ hbound⟩
        · cases heq
    · cases hparse
  · rintro ⟨htext, hpositive, hbound⟩
    have hwhole : text.takeWhile isDigit = text :=
      List.takeWhile_eq_self_iff.mpr htext.digits
    have hrest : text.dropWhile isDigit = [] :=
      List.dropWhile_eq_nil_iff.mpr htext.digits
    rw [hwhole, hrest, htext.number_eq, if_neg htext.ne_nil, if_pos hbound]
    exact if_neg (Nat.pos_iff_ne_zero.mp hpositive)

/-- The interval is positive when the number fits into a signed integer. -/
theorem interval_pos_iff {milliseconds : ℕ} (hpositive : 0 < milliseconds)
    (hbound : milliseconds < 2 ^ 64) :
    0 < Int64.ofNat milliseconds ↔ milliseconds < 2 ^ 63 := by
  have hsize : Int64.size = 18446744073709551616 := rfl
  rw [Int64.lt_iff_toInt_lt, Int64.toInt_zero, Int64.toInt_ofNat', hsize,
    Int.bmod_def]
  split <;> omega

/-! ## The loop over the arguments -/

theorem readArguments_of_options {arguments : List Bytes}
    {settings last : Settings} (hoptions : Options arguments settings last)
    (rest : List Bytes) :
    readArguments (arguments ++ rest) settings.config =
      readArguments rest last.config := by
  have hdata : dataOption ∉ helpOptions := by decide +kernel
  have hcache : cacheOption ∉ helpOptions := by decide +kernel
  have hcleanup : cleanupOption ∉ helpOptions := by decide +kernel
  have hcacheData : cacheOption ≠ dataOption := by decide +kernel
  have hcleanupData : cleanupOption ≠ dataOption := by decide +kernel
  have hcleanupCache : cleanupOption ≠ cacheOption := by decide +kernel
  induction hoptions with
  | nil settings => rfl
  | data hrest ih =>
      rw [List.cons_append, List.cons_append, readArguments, if_neg hdata]
      rw [if_pos rfl]
      exact ih
  | cache hsize hrest ih =>
      rw [List.cons_append, List.cons_append, readArguments, if_neg hcache]
      rw [if_neg hcacheData, if_pos rfl, parsePositiveSize_iff.mpr hsize]
      exact ih
  | cleanup hsize hrest ih =>
      rw [List.cons_append, List.cons_append, readArguments, if_neg hcleanup]
      rw [if_neg hcleanupData, if_neg hcleanupCache, if_pos rfl,
        parsePositiveSize_iff.mpr hsize]
      exact ih

/-- What the loop over the arguments ends with. -/
inductive Reads (arguments : List Bytes) (settings : Settings) :
    Arguments → Prop
  | serve {last : Settings} (hoptions : Options arguments settings last) :
      Reads arguments settings (.serve last.config)
  | help (hasks : AsksHelp arguments settings) : Reads arguments settings .help
  | invalid (message : String) (showUsage : Bool) :
      Reads arguments settings (.invalid message showUsage)

/-- An option in front of a row of arguments. -/
theorem Reads.option {name value : Bytes} {rest : List Bytes}
    {settings next : Settings} {result : Arguments}
    (hoption : ∀ row last, Options row next last →
      Options (name :: value :: row) settings last)
    (hreads : Reads rest next result) :
    Reads (name :: value :: rest) settings result := by
  cases hreads with
  | serve hoptions => exact .serve (hoption _ _ hoptions)
  | help hasks =>
      obtain ⟨row, help, others, last, hoptions, hhelp, rfl⟩ := hasks
      exact .help ⟨name :: value :: row, help, others, last,
        hoption _ _ hoptions, hhelp, rfl⟩
  | invalid message showUsage => exact .invalid message showUsage

theorem reads_readArguments (arguments : List Bytes) (settings : Settings) :
    Reads arguments settings (readArguments arguments settings.config) := by
  induction arguments using List.twoStepInduction generalizing settings with
  | nil => exact .serve (.nil settings)
  | singleton argument =>
      rw [readArguments]
      split
      next hhelp =>
        exact .help ⟨[], argument, [], settings, .nil settings, hhelp, rfl⟩
      · exact .invalid _ _
  | cons_cons argument value rest ih _ =>
      rw [readArguments]
      split
      next hhelp =>
        exact .help ⟨[], argument, value :: rest, settings, .nil settings,
          hhelp, rfl⟩
      split
      next hdata =>
        rw [hdata]
        have hoption := ih { settings with path := shownText value }
        exact hoption.option fun _ _ => .data
      split
      next hcache =>
        rw [hcache]
        split
        · exact .invalid _ _
        next capacity hsize =>
          have hoption := ih { settings with capacity := capacity }
          exact hoption.option fun _ _ =>
            .cache (parsePositiveSize_iff.mp hsize)
      split
      next hcleanup =>
        rw [hcleanup]
        split
        · exact .invalid _ _
        next milliseconds hsize =>
          have hoption := ih { settings with milliseconds := milliseconds }
          exact hoption.option fun _ _ =>
            .cleanup (parsePositiveSize_iff.mp hsize)
      · exact .invalid _ _

theorem Options.bounds {arguments : List Bytes} {settings last : Settings}
    (hoptions : Options arguments settings last)
    (hpositive : 0 < settings.milliseconds)
    (hbound : settings.milliseconds < 2 ^ 64) :
    0 < last.milliseconds ∧ last.milliseconds < 2 ^ 64 := by
  induction hoptions with
  | nil => exact ⟨hpositive, hbound⟩
  | data hrest ih => exact ih hpositive hbound
  | cache hsize hrest ih => exact ih hpositive hbound
  | cleanup hsize hrest ih => exact ih hsize.positive hsize.bound

/-- A request for help is found wherever the options end. -/
theorem readArguments_help {arguments : List Bytes} {settings : Settings}
    (hasks : AsksHelp arguments settings) :
    readArguments arguments settings.config = .help := by
  obtain ⟨front, help, rest, last, hoptions, hhelp, rfl⟩ := hasks
  rw [readArguments_of_options hoptions]
  cases rest with
  | nil => rw [readArguments, if_pos hhelp]
  | cons argument rest => rw [readArguments, if_pos hhelp]

theorem readArguments_serve_iff {arguments : List Bytes} {settings : Settings}
    {config : StoreConfig} :
    readArguments arguments settings.config = .serve config ↔
      ∃ last, Options arguments settings last ∧ last.config = config := by
  constructor
  · intro hserve
    have hreads := reads_readArguments arguments settings
    rw [hserve] at hreads
    cases hreads with
    | serve hoptions => exact ⟨_, hoptions, rfl⟩
  · rintro ⟨last, hoptions, rfl⟩
    have hread := readArguments_of_options hoptions []
    rwa [List.append_nil] at hread

theorem readArguments_help_iff {arguments : List Bytes} {settings : Settings} :
    readArguments arguments settings.config = .help ↔
      AsksHelp arguments settings := by
  constructor
  · intro hhelp
    have hreads := reads_readArguments arguments settings
    rw [hhelp] at hreads
    cases hreads with
    | help hasks => exact hasks
  · exact readArguments_help

/-! ## Exceptions -/

/-- `std::filesystem::exists` throws under one of the openings of a call. -/
def CallThrows (environment : Environment) : Prop :=
  environment.openAnswers.Throws ∨ environment.compact.reopen.Throws

theorem code_of_unlessThrown {status : Status} {text what : String}
    (hthrows : unlessThrown status text = .error what) :
    status.code = .thrown := by
  by_contra hcode
  rw [unlessThrown, if_neg hcode] at hthrows
  cases hthrows

theorem throws_of_status {throws : Prop} {codes : List StatusCode}
    {status : Status} {text what : String}
    (hamong : status.Among throws codes) (hcodes : .thrown ∉ codes)
    (hthrows : unlessThrown status text = .error what) : throws := by
  have hcode := code_of_unlessThrown hthrows
  rcases hamong with rfl | hmem | ⟨-, hholds⟩
  · cases hcode
  · exact absurd (hcode ▸ hmem) hcodes
  · exact hholds

theorem throws_of_result {T : Type} {throws : Prop} {codes : List StatusCode}
    {result : Result T} {text : Result T → String} {what : String}
    (hfails : FailsWith throws codes result) (hcodes : .thrown ∉ codes)
    (hthrows : resultText text result = .error what) : throws := by
  cases result with
  | ok value => cases hthrows
  | error status => exact throws_of_status (Or.inr hfails) hcodes hthrows

/-- A command is ended by an exception where `std::filesystem::exists` throws
only. -/
theorem throws_of_execute {hitRate : CacheStatistics → String}
    {environment : Environment} {fileSizeFailed : Bool} {command : Command}
    {store : KeyValueStore} {what : String}
    (hthrows : (execute hitRate environment fileSizeFailed command store).2 =
      .error what) : CallThrows environment := by
  obtain ⟨type, key, value, ttl⟩ := command
  cases type with
  | set =>
      have hamong := among_set environment key value ttl store
      exact Or.inl (throws_of_status hamong (by decide) hthrows)
  | get =>
      have hfails := failsWith_get environment key store
      exact Or.inl (throws_of_result hfails (by decide) hthrows)
  | delete =>
      have hamong := among_remove environment key store
      exact Or.inl (throws_of_status hamong (by decide) hthrows)
  | «exists» =>
      have hfails := failsWith_keyExists environment key store
      exact Or.inl (throws_of_result hfails (by decide) hthrows)
  | keys =>
      rw [execute, keys] at hthrows
      dsimp only at hthrows
      split at hthrows
      · cases hthrows
      · cases hthrows
  | compact =>
      have hfails := failsWith_compact environment store
      exact throws_of_result hfails (by decide) hthrows
  | stats => cases hthrows
  | help => cases hthrows
  | exit => cases hthrows

theorem throws_of_session {hitRate : CacheStatistics → String}
    {turns : List Turn} {store : KeyValueStore} {what : String}
    (hthrows : (session hitRate turns store).exception = some what) :
    ∃ turn ∈ turns, CallThrows turn.environment := by
  induction turns generalizing store with
  | nil => cases hthrows
  | cons turn turns ih =>
      have hlater : ∀ {store : KeyValueStore},
          (session hitRate turns store).exception = some what →
          ∃ turn' ∈ turn :: turns, CallThrows turn'.environment := fun hrest =>
        let ⟨other, hother, hholds⟩ := ih hrest
        ⟨other, List.mem_cons_of_mem _ hother, hholds⟩
      cases turn with
      | cleaner environment => exact hlater hthrows
      | line text environment fileSizeFailed =>
          rw [session] at hthrows
          split at hthrows
          · exact hlater hthrows
          · split at hthrows
            next heq =>
              exact ⟨_, List.mem_cons_self,
                throws_of_execute (congrArg Prod.snd heq)⟩
            · split at hthrows
              · cases hthrows
              · exact hlater hthrows

/-! ## What the process does -/

theorem session_ne_nil (hitRate : CacheStatistics → String)
    (turns : List Turn) (store : KeyValueStore) :
    (session hitRate turns store).texts ≠ [] := by
  induction turns generalizing store with
  | nil => exact List.cons_ne_nil _ _
  | cons turn turns ih =>
      cases turn with
      | cleaner environment => exact ih _
      | line text environment fileSizeFailed =>
          rw [session]
          split
          · exact List.cons_ne_nil _ _
          · split
            · exact List.cons_ne_nil _ _
            · split
              · exact List.cons_ne_nil _ _
              · exact List.cons_ne_nil _ _

/-- The conditions under which a process serves its file. -/
def Servable (process : Process) (disk : Disk) : Prop :=
  ∃ settings, Options process.arguments .initial settings ∧
    settings.milliseconds < 2 ^ 63 ∧
    ∃ entries tail, LogWithTail entries tail (disk.data.getD [])

theorem main_opened {process : Process} {config : StoreConfig} {disk : Disk}
    {after : KeyValueStore}
    (hserve : readArguments process.arguments defaultConfig = .serve config)
    (hopens : (KeyValueStore.new config disk.data disk.temporary).openStore
      process.opening = (after, .success)) :
    (main process disk).ending =
        endingOf (session process.hitRate process.turns after).exception ∧
      (main process disk).session =
        (session process.hitRate process.turns after).texts := by
  rw [main, hserve]
  dsimp only
  rw [hopens]
  dsimp only
  rw [if_pos Status.ok_success]
  cases (session process.hitRate process.turns after).exception with
  | none => exact ⟨rfl, rfl⟩
  | some what => exact ⟨rfl, rfl⟩

theorem main_unopened {process : Process} {config : StoreConfig} {disk : Disk}
    {after : KeyValueStore} {status : Status} (hstatus : status.ok = false)
    (hreturns : status.code ≠ .thrown) (hpending : after.storage.pending = [])
    (hserve : readArguments process.arguments defaultConfig = .serve config)
    (hfails : (KeyValueStore.new config disk.data disk.temporary).openStore
      process.opening = (after, status)) :
    (main process disk).ending = .failure ∧ (main process disk).session = [] ∧
      (main process disk).disk.data.getD [] = after.storage.bytes := by
  rw [main, hserve]
  dsimp only
  rw [hfails, hstatus, if_neg Bool.false_ne_true, if_neg hreturns]
  exact ⟨rfl, rfl, bytes_destroyed hpending process.drain⟩

/-- No exception ends an opening without failures. -/
theorem code_openStore (hreliable : environment.Reliable)
    (store : KeyValueStore) :
    (store.openStore environment).2.code ≠ .thrown := by
  intro hthrown
  rcases among_openStore environment store with heq | hmem | ⟨-, hholds⟩
  · rw [heq] at hthrown
    cases hthrown
  · rw [hthrown] at hmem
    simp at hmem
  · rw [hreliable.openAnswers, hreliable.recover] at hholds
    exact hholds.elim (fun hne => hne rfl) fun hne => hne rfl

/-- How a process ends that serves its file: an exception of the file system may
abort it. -/
structure Ends (process : Process) (ending : Ending) : Prop where
  returns : ending ≠ .failure
  thrown : ∀ what, ending = .aborted what →
    ∃ turn ∈ process.turns, CallThrows turn.environment

theorem ends_session (process : Process) (store : KeyValueStore) :
    Ends process
      (endingOf (session process.hitRate process.turns store).exception) := by
  cases hexception :
      (session process.hitRate process.turns store).exception with
  | none => exact ⟨nofun, nofun⟩
  | some what => exact ⟨nofun, fun _ _ => throws_of_session hexception⟩

/-- A process whose arguments choose these settings. -/
theorem main_of_options {process : Process} {settings : Settings}
    (hoptions : Options process.arguments .initial settings)
    (hopening : process.opening.Reliable) (disk : Disk) :
    ((settings.milliseconds < 2 ^ 63 ∧
        ∃ entries tail, LogWithTail entries tail (disk.data.getD [])) ∧
      (main process disk).session ≠ [] ∧
      Ends process (main process disk).ending) ∨
    (¬ (settings.milliseconds < 2 ^ 63 ∧
        ∃ entries tail, LogWithTail entries tail (disk.data.getD [])) ∧
      (main process disk).session = [] ∧
      (main process disk).ending = .failure ∧
      (main process disk).disk.data.getD [] = disk.data.getD []) := by
  obtain ⟨hpositive, hbound⟩ := hoptions.bounds (by decide) (by decide)
  have hinterval := interval_pos_iff hpositive hbound
  have hserve : readArguments process.arguments defaultConfig =
      .serve settings.config :=
    readArguments_serve_iff.mpr ⟨settings, hoptions, rfl⟩
  obtain ⟨store, hstore⟩ : ∃ store, store =
    KeyValueStore.new settings.config disk.data disk.temporary := ⟨_, rfl⟩
  have hclosed : store.opened = false := by rw [hstore]; rfl
  have hbytes : store.storage.bytes = disk.data.getD [] := by rw [hstore]; rfl
  have hpending : store.view.pending = [] := by rw [hstore]; rfl
  have hconfig : store.config.cleanupIntervalMs =
      Int64.ofNat settings.milliseconds := by rw [hstore]; rfl
  have houtcome := openStore_cases hopening hclosed
  have hreturns := code_openStore hopening store
  have hpositiveInterval : (store.openStore process.opening).2.ok = true →
      0 < store.config.cleanupIntervalMs := interval_of_ok hclosed
  have hopens : ∀ entries tail, LogWithTail entries tail store.storage.bytes →
      0 < store.config.cleanupIntervalMs →
      (store.openStore process.opening).2.ok = true := by
    intro entries tail hlog hlarge
    obtain ⟨after, hresult, -⟩ := openStore_log hopening hclosed hlarge hlog
    rw [hresult]
    rfl
  rw [← hbytes, ← hinterval, ← hconfig]
  generalize hresult : store.openStore process.opening = result
    at houtcome hopens hpositiveInterval hreturns
  obtain ⟨after, status⟩ := result
  dsimp only at houtcome hopens hpositiveInterval hreturns
  rw [hstore] at hresult
  cases houtcome with
  | recovered entries tail hlog hview hopened =>
      obtain ⟨hending, hsession⟩ := main_opened hserve hresult
      rw [hending, hsession]
      exact Or.inl ⟨⟨hpositiveInterval rfl, entries, tail, hlog⟩,
        session_ne_nil _ _ _, ends_session process after⟩
  | failed _ hstatus hdrained _ =>
      have hview : after.view = store.view := hdrained.eq_of_pending hpending
      have hempty : after.storage.pending = [] :=
        (congrArg View.pending hview).trans hpending
      obtain ⟨hending, hsession, hkept⟩ :=
        main_unopened hstatus hreturns hempty hserve hresult
      refine Or.inr ⟨?_, hsession, hending,
        hkept.trans (congrArg View.bytes hview)⟩
      rintro ⟨hlarge, entries, tail, hlog⟩
      rw [hopens entries tail hlog hlarge] at hstatus
      cases hstatus

/-- Over all arguments and all files, when the opening meets no failure: a
process serves its file exactly when its arguments are options whose interval
fits into a signed integer and its file is a log with an unfinished tail; it
fails exactly when it neither serves the file nor is asked for help; an
exception aborts it only where it serves the file and `std::filesystem::exists`
throws under one of its lines; and when it does not serve the file it leaves its
bytes as they are. -/
theorem serves_iff_options (process : Process) (disk : Disk)
    (hopening : process.opening.Reliable) :
    ((main process disk).session ≠ [] ↔ Servable process disk) ∧
      ((main process disk).ending = .failure ↔ ¬ (Servable process disk ∨
        AsksHelp process.arguments .initial)) ∧
      (∀ what, (main process disk).ending = .aborted what →
        Servable process disk ∧
          ∃ turn ∈ process.turns, CallThrows turn.environment) ∧
      ((main process disk).session = [] →
        (main process disk).disk.data.getD [] = disk.data.getD []) := by
  by_cases hany : ∃ settings, Options process.arguments .initial settings
  · obtain ⟨settings, hoptions⟩ := hany
    have hnoHelp : ¬ AsksHelp process.arguments .initial := by
      intro hasks
      have hserve : readArguments process.arguments Settings.initial.config =
          .serve settings.config :=
        readArguments_serve_iff.mpr ⟨settings, hoptions, rfl⟩
      rw [readArguments_help hasks] at hserve
      cases hserve
    rcases main_of_options hoptions hopening disk with
      ⟨hserves, hsession, hends⟩ | ⟨hfails, hsession, hending, hkept⟩
    · have hservable : Servable process disk := ⟨settings, hoptions, hserves⟩
      exact ⟨iff_of_true hsession hservable,
        iff_of_false hends.returns (not_not.mpr (Or.inl hservable)),
        fun what haborted => ⟨hservable, hends.thrown what haborted⟩,
        fun hnone => absurd hnone hsession⟩
    · have hunservable : ¬ Servable process disk := by
        rintro ⟨other, hother, hserves⟩
        rcases main_of_options hother hopening disk with
          ⟨-, hserved, -⟩ | ⟨hnot, -⟩
        · exact hserved hsession
        · exact hnot hserves
      rw [hending]
      exact ⟨iff_of_false (not_not.mpr hsession) hunservable,
        iff_of_true rfl (not_or.mpr ⟨hunservable, hnoHelp⟩), nofun,
        fun _ => hkept⟩
  · have hunservable : ¬ Servable process disk :=
      fun ⟨settings, hoptions, _⟩ => hany ⟨settings, hoptions⟩
    have hreads : Reads process.arguments .initial
        (readArguments process.arguments defaultConfig) :=
      reads_readArguments process.arguments .initial
    have hhelp : readArguments process.arguments Settings.initial.config =
        .help ↔ AsksHelp process.arguments .initial := readArguments_help_iff
    change readArguments process.arguments defaultConfig = .help ↔ _ at hhelp
    unfold main
    generalize readArguments process.arguments defaultConfig = result
      at hreads hhelp
    cases hreads with
    | serve hoptions => exact absurd ⟨_, hoptions⟩ hany
    | help hasks =>
        exact ⟨iff_of_false (not_not.mpr rfl) hunservable,
          iff_of_false nofun (not_not.mpr (Or.inr hasks)), nofun, fun _ => rfl⟩
    | invalid message showUsage =>
        have hnoHelp : ¬ AsksHelp process.arguments .initial := by
          intro hasks
          cases hhelp.mpr hasks
        exact ⟨iff_of_false (not_not.mpr rfl) hunservable,
          iff_of_true rfl (not_or.mpr ⟨hunservable, hnoHelp⟩), nofun,
          fun _ => rfl⟩

/-- An interval that the arguments may name and that no signed integer holds. -/
theorem serves_iff_options_at_large_interval :
    let process : Process := ⟨"minikv",
      [cleanupOption, literal ['9', '2', '2', '3', '3', '7', '2', '0', '3', '6',
        '8', '5', '4', '7', '7', '5', '8', '0', '8']],
      fun _ => "0.00", .calm 1, [], none⟩
    ((main process ⟨none, none⟩).session ≠ [] ↔
        Servable process ⟨none, none⟩) ∧
      ((main process ⟨none, none⟩).ending = .failure ↔
        ¬ (Servable process ⟨none, none⟩ ∨
          AsksHelp process.arguments .initial)) ∧
      (∀ what, (main process ⟨none, none⟩).ending = .aborted what →
        Servable process ⟨none, none⟩ ∧
          ∃ turn ∈ process.turns, CallThrows turn.environment) ∧
      ((main process ⟨none, none⟩).session = [] →
        (main process ⟨none, none⟩).disk.data.getD [] = []) := by
  intro process
  exact serves_iff_options process ⟨none, none⟩
    (Environment.faultless_calm 1).toReliable

end MiniKV.Shell
