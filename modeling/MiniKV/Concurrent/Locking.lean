import MiniKV.Concurrent.LockPaths

/-!
# The threads and their locks

Client threads make calls on an open store, each on one of the paths through
its locks, and the cleaner thread runs beside them until it reads the stop flag
that `close` sets.  The index lock comes before the lock of the file and the
lock of the cache; the mutex of the cleaner is given back before the cleaner
takes any other lock.  `join` stands for taking a lock that the cleaner thread
holds as long as it runs.
-/

namespace MiniKV

namespace StoreLock

/-- The order in which the locks are taken. -/
def rank : StoreLock → Fin 5
  | .running => 0
  | .cleaner => 1
  | .index => 2
  | .file => 3
  | .cache => 4

instance : Preorder StoreLock := Preorder.lift rank

instance : WellFoundedGT StoreLock :=
  ⟨InvImage.wf rank (wellFounded_gt : WellFounded fun left right : Fin 5 =>
    left > right)⟩

end StoreLock

namespace Locking

/-- What a client does next.  The threads are between an opening and the next
one.  A call stands here with the path that it will take. -/
inductive Errand
  | call {call : Call} {part : List (LockStep StoreLock)}
      (htakes : Takes call part) (hopen : call ≠ .openStore)
      (hclose : call ≠ .close)
  | statistics
  | close
  /-- What is left of `close` when it has cleared `opened_`. -/
  | stop

/-- Where the cleaner reads the stop flag next. -/
inductive CleanerPoint
  /-- At the condition of its loop. -/
  | looping
  /-- In the predicate of `wait_for`. -/
  | waiting
  /-- Behind `wait_for`. -/
  | waited
  /-- Nowhere; the thread ends, or there is none. -/
  | ended

namespace CleanerPoint

/-- What the cleaner holds there, the last lock first. -/
def held : CleanerPoint → List (StoreLock × LockMode)
  | .ended => []
  | _ => [(.cleaner, .exclusive), (.running, .exclusive)]

/-- How often the cleaner still reads the flag when it is set. -/
def readsLeft : CleanerPoint → ℕ
  | .looping => 1
  | .waiting => 2
  | .waited => 1
  | .ended => 0

end CleanerPoint

/-- The steps of an errand that are no steps on locks. -/
def Errand.steps : Errand → ℕ
  | .close => 2
  | _ => 1

/-- The cleaner reads the flag and goes on. -/
inductive CleanerGoes :
    Bool → CleanerPoint → List (LockStep StoreLock) → CleanerPoint → Prop
  | stopped : CleanerGoes true .looping
      [.release .cleaner, .release .running] .ended
  | loops : CleanerGoes false .looping [] .waiting
  | signalled : CleanerGoes true .waiting [] .waited
  /-- A wake-up, after which the predicate is tested again. -/
  | woken : CleanerGoes false .waiting (unguarded .cleaner .exclusive [])
      .waiting
  | timedOut : CleanerGoes false .waiting (unguarded .cleaner .exclusive [])
      .waited
  | breaks : CleanerGoes true .waited
      [.release .cleaner, .release .running] .ended
  | cleans {part : List (LockStep StoreLock)}
      (htakes : Takes .cleanupExpired part) :
      CleanerGoes false .waited (unguarded .cleaner .exclusive part) .looping

end Locking

open Locking

/-- The threads of the store: its clients and, for `none`, the cleaner. -/
structure StoreThreads (Client : Type) where
  users : Option Client → LockUser StoreLock
  errands : Client → List Errand
  point : CleanerPoint
  opened : Bool
  stopRequested : Bool

namespace StoreThreads

variable {Client : Type}

/-- The cleaner thread at its start, where it is started. -/
def startCleaner (started : Bool) : LockUser StoreLock :=
  if started then ⟨[(.running, .exclusive)], [.acquire .cleaner .exclusive]⟩
  else ⟨[], []⟩

/-- `open` has returned. -/
def start (started : Bool) (errands : Client → List Errand) :
    StoreThreads Client where
  users
    | none => startCleaner started
    | some _ => ⟨[], []⟩
  errands := errands
  point := if started then .looping else .ended
  opened := true
  stopRequested := false

variable [DecidableEq Client]

/-- A thread gets its next locks to take and to give back. -/
def load (threads : StoreThreads Client) (thread : Option Client)
    (part : List (LockStep StoreLock)) : StoreThreads Client :=
  { threads with
    users := Function.update threads.users thread
      ⟨(threads.users thread).held, part⟩ }

/-- A client goes on to its next errand. -/
def depart (threads : StoreThreads Client) (client : Client)
    (part : List (LockStep StoreLock)) (rest : List Errand) :
    StoreThreads Client :=
  { threads.load (some client) part with
    errands := Function.update threads.errands client rest }

/-- A client has returned from its last call and begins the next. -/
inductive Begins (threads : StoreThreads Client) (client : Client)
    (rest : List Errand) : Errand → StoreThreads Client → Prop
  | call {call : Call} {part : List (LockStep StoreLock)}
      (htakes : Takes call part) (hopen : call ≠ .openStore)
      (hclose : call ≠ .close) :
      Begins threads client rest (.call htakes hopen hclose)
        (threads.depart client part rest)
  | statistics :
      Begins threads client rest .statistics
        (threads.depart client Locking.statistics rest)
  | closeClosed (hopened : threads.opened = false) :
      Begins threads client rest .close (threads.depart client [] rest)
  | close (hopened : threads.opened = true) :
      Begins threads client rest .close
        { threads.depart client [] (.stop :: rest) with opened := false }
  | stop :
      Begins threads client rest .stop
        { threads.depart client (guarded .running .exclusive []) rest with
          stopRequested := true }

/-- A thread takes or gives back a lock, a client begins a call, or the cleaner
reads the flag. -/
inductive Step (prefersWriters : Prop) (threads : StoreThreads Client) :
    StoreThreads Client → Prop
  | lock {users : Option Client → LockUser StoreLock}
      (hmove : LockMove prefersWriters threads.users users) :
      Step prefersWriters threads { threads with users := users }
  | begin {client : Client} {errand : Errand} {rest : List Errand}
      {next : StoreThreads Client}
      (hidle : (threads.users (some client)).program = [])
      (herrands : threads.errands client = errand :: rest)
      (hbegins : threads.Begins client rest errand next) :
      Step prefersWriters threads next
  | clean {part : List (LockStep StoreLock)} {point : CleanerPoint}
      (hidle : (threads.users none).program = [])
      (hgoes : CleanerGoes threads.stopRequested threads.point part point) :
      Step prefersWriters threads { threads.load none part with point := point }

/-- Every call has returned. -/
def Returned (threads : StoreThreads Client) : Prop :=
  ∀ client, threads.users (some client) = ⟨[], []⟩ ∧
    threads.errands client = []

end StoreThreads

namespace Locking

/-! ## Every path keeps to the order -/

/-- A part that takes locks behind the index lock only. -/
structure Inner (part : List (LockStep StoreLock)) : Prop where
  balanced : ∀ held : List (StoreLock × LockMode),
    (∀ other ∈ held, other.1 ≤ .index) → Balanced held part
  acquires : ∀ lock mode, .acquire lock mode ∈ part → .index ≤ lock

/-- A part that may take the index lock, too. -/
structure Outer (part : List (LockStep StoreLock)) : Prop where
  balanced : ∀ held : List (StoreLock × LockMode),
    (∀ other ∈ held, other.1 < .index) → Balanced held part
  acquires : ∀ lock mode, .acquire lock mode ∈ part → .index ≤ lock

variable {first second part : List (LockStep StoreLock)}

/-- The locks of a guarded part. -/
theorem acquires_guarded {lock : StoreLock} {mode : LockMode}
    (hlock : .index ≤ lock)
    (hpart : ∀ other otherMode, .acquire other otherMode ∈ part →
      .index ≤ other) :
    ∀ other otherMode, .acquire other otherMode ∈ guarded lock mode part →
      .index ≤ other := by
  intro other otherMode hmem
  rw [guarded, List.mem_cons, List.mem_append, List.mem_singleton] at hmem
  rcases hmem with hacquire | hinside | hrelease
  · cases hacquire
    exact hlock
  · exact hpart other otherMode hinside
  · cases hrelease

theorem inner_nil : Inner [] where
  balanced _ _ := balanced_nil _
  acquires _ _ hmem := absurd hmem List.not_mem_nil

theorem Inner.append (hfirst : Inner first) (hsecond : Inner second) :
    Inner (first ++ second) where
  balanced held hbelow :=
    (hfirst.balanced held hbelow).append (hsecond.balanced held hbelow)
  acquires lock mode hmem :=
    (List.mem_append.mp hmem).elim (hfirst.acquires lock mode)
      (hsecond.acquires lock mode)

theorem Inner.repeated (hpart : Inner part) (count : ℕ) :
    Inner (repeated count part) := by
  induction count with
  | zero => exact inner_nil
  | succ count ih => exact hpart.append ih

/-- A call that takes one lock behind the index lock. -/
theorem inner_guarded {lock : StoreLock} (hlock : .index < lock) :
    Inner (guarded lock .exclusive []) where
  balanced _ hbelow :=
    balanced_guarded (fun other hother =>
      lt_of_le_of_lt (hbelow other hother) hlock) (balanced_nil _)
  acquires := acquires_guarded (le_of_lt hlock) inner_nil.acquires

theorem inner_fileCall : Inner fileCall := inner_guarded (by decide)

theorem inner_cacheCall : Inner cacheCall := inner_guarded (by decide)

theorem Inner.outer (hpart : Inner part) : Outer part where
  balanced held hbelow :=
    hpart.balanced held fun other hother => le_of_lt (hbelow other hother)
  acquires := hpart.acquires

theorem Outer.append (hfirst : Outer first) (hsecond : Outer second) :
    Outer (first ++ second) where
  balanced held hbelow :=
    (hfirst.balanced held hbelow).append (hsecond.balanced held hbelow)
  acquires lock mode hmem :=
    (List.mem_append.mp hmem).elim (hfirst.acquires lock mode)
      (hsecond.acquires lock mode)

/-- A section under the index lock. -/
theorem Inner.section (hpart : Inner part) (mode : LockMode) :
    Outer (guarded .index mode part) where
  balanced held hbelow := by
    apply balanced_guarded hbelow
    apply hpart.balanced
    intro other hother
    rcases List.mem_cons.mp hother with rfl | hother
    · exact le_refl _
    · exact le_of_lt (hbelow other hother)
  acquires := acquires_guarded (le_refl _) hpart.acquires

theorem outer_cleanup (htakes : Takes .cleanupExpired part) : Outer part := by
  cases htakes with
  | turnedAway => exact inner_nil.outer
  | cleanupExpired erased =>
      exact (inner_cacheCall.repeated erased).section .exclusive

/-- Every path but that of `close` may be taken by a thread that holds the lock
of the running cleaner. -/
theorem outer_takes {call : Call} (htakes : Takes call part)
    (hclose : call ≠ .close) : Outer part := by
  induction htakes with
  | turnedAway call => exact inner_nil.outer
  | setWhileClosed => exact inner_nil.section .exclusive
  | setFailed => exact inner_fileCall.section .exclusive
  | set => exact (inner_fileCall.append inner_cacheCall).section .exclusive
  | getMissing => exact inner_nil.section .shared
  | getExpired =>
      exact (inner_nil.section .shared).append
        (inner_cacheCall.section .exclusive)
  | getReplaced =>
      exact (inner_nil.section .shared).append (inner_nil.section .exclusive)
  | getCached => exact inner_cacheCall.section .shared
  | getUnreadable =>
      exact (inner_cacheCall.append inner_fileCall).section .shared
  | get =>
      exact (inner_cacheCall.append
        (inner_fileCall.append inner_cacheCall)).section .shared
  | keyExists hget ih => exact ih (by simp)
  | removeMissing => exact inner_nil.section .exclusive
  | removeExpired => exact inner_cacheCall.section .exclusive
  | removeFailed => exact inner_fileCall.section .exclusive
  | remove => exact (inner_fileCall.append inner_cacheCall).section .exclusive
  | cleanupExpired erased =>
      exact (inner_cacheCall.repeated erased).section .exclusive
  | keys start hcleanup =>
      exact (outer_cleanup hcleanup).append (inner_nil.section .shared)
  | compactFailed erased read =>
      exact ((inner_cacheCall.repeated erased).append
        (inner_fileCall.repeated read)).section .exclusive
  | compact erased read =>
      exact ((inner_cacheCall.repeated erased).append
        ((inner_fileCall.repeated read).append
          (inner_fileCall.append inner_cacheCall))).section .exclusive
  | openFailed => exact inner_fileCall.outer
  | recoverFailed => exact (inner_fileCall.append inner_fileCall).outer
  | openStore =>
      exact inner_fileCall.outer.append (inner_fileCall.outer.append
        ((inner_nil.section .exclusive).append inner_cacheCall.outer))
  | close => exact absurd rfl hclose

theorem outer_statistics : Outer statistics :=
  (inner_nil.section .shared).append
    (inner_fileCall.append inner_cacheCall).outer

/-- A client holds nothing when it begins. -/
theorem Outer.disciplined (hpart : Outer part) : Disciplined [] [] part := by
  apply Balanced.disciplined
  apply hpart.balanced
  intro other hother
  cases hother

/-- Waiting for the cleaner to end. -/
theorem disciplined_join :
    Disciplined [] [] (guarded StoreLock.running .exclusive []) :=
  (balanced_guarded (by simp) (balanced_nil _)).disciplined

/-- What the cleaner does up to its next reading keeps to the order. -/
theorem CleanerGoes.disciplined {stopRequested : Bool}
    {before after : CleanerPoint}
    (hgoes : CleanerGoes stopRequested before part after) :
    Disciplined after.held before.held part := by
  have hpause : ∀ {part : List (LockStep StoreLock)}, Outer part →
      Disciplined CleanerPoint.looping.held CleanerPoint.looping.held
        (unguarded .cleaner .exclusive part) := by
    intro part hpart
    apply Balanced.disciplined
    apply balanced_unguarded
    · rw [List.forall_mem_singleton]
      decide
    · apply hpart.balanced
      rw [List.forall_mem_singleton]
      decide
  have hend : Disciplined [] CleanerPoint.looping.held
      [.release StoreLock.cleaner, .release .running] := by
    refine ⟨⟨.exclusive, List.mem_cons_self⟩, ⟨.exclusive, ?_⟩, rfl⟩
    exact List.mem_singleton_self _
  cases hgoes with
  | stopped => exact hend
  | loops => rfl
  | signalled => rfl
  | woken => exact hpause inner_nil.outer
  | timedOut => exact hpause inner_nil.outer
  | breaks => exact hend
  | cleans htakes => exact hpause (outer_cleanup htakes)

theorem CleanerPoint.of_mem_held {point : CleanerPoint} {lock : StoreLock}
    {mode : LockMode} (hmem : (lock, mode) ∈ point.held) :
    point ≠ .ended ∧ ¬ .index ≤ lock := by
  have hheld : ∀ other ∈ CleanerPoint.looping.held,
      ¬ StoreLock.index ≤ other.1 := by
    decide
  cases point with
  | looping => exact ⟨nofun, hheld _ hmem⟩
  | waiting => exact ⟨nofun, hheld _ hmem⟩
  | waited => exact ⟨nofun, hheld _ hmem⟩
  | ended => cases hmem

/-- The cleaner ends only when it has read the flag. -/
theorem CleanerGoes.stopRequested_eq {stopRequested : Bool}
    {before : CleanerPoint}
    (hgoes : CleanerGoes stopRequested before part .ended) :
    stopRequested = true := by
  cases hgoes with
  | stopped => rfl
  | breaks => rfl

/-- When the flag is set, the cleaner comes nearer to its end with each
reading. -/
theorem CleanerGoes.readsLeft_lt {before after : CleanerPoint}
    (hgoes : CleanerGoes true before part after) :
    after.readsLeft < before.readsLeft := by
  cases hgoes <;> decide

/-- The cleaner can go on wherever it reads the flag. -/
theorem exists_cleanerGoes (stopRequested : Bool) {point : CleanerPoint}
    (hrunning : point ≠ .ended) :
    ∃ part after, CleanerGoes stopRequested point part after := by
  cases point with
  | looping =>
      cases stopRequested with
      | false => exact ⟨_, _, .loops⟩
      | true => exact ⟨_, _, .stopped⟩
  | waiting =>
      cases stopRequested with
      | false => exact ⟨_, _, .timedOut⟩
      | true => exact ⟨_, _, .signalled⟩
  | waited =>
      cases stopRequested with
      | false => exact ⟨_, _, .cleans (.turnedAway .cleanupExpired)⟩
      | true => exact ⟨_, _, .breaks⟩
  | ended => exact absurd rfl hrunning

end Locking

namespace StoreThreads

variable {Client : Type} [DecidableEq Client] {prefersWriters : Prop}
variable {started : Bool} {threads next : StoreThreads Client}

/-! ## What holds in every reachable state -/

/-- What a thread holds when it is at the end of its program. -/
def atRest (threads : StoreThreads Client) :
    Option Client → List (StoreLock × LockMode)
  | none => threads.point.held
  | some _ => []

/-- The threads keep to the order of the locks, a client waits for the cleaner
only when the stop flag is set, and the cleaner ends only then. -/
structure Sound (started : Bool) (threads : StoreThreads Client) : Prop where
  orderly : Orderly threads.atRest threads.users
  joins : ∀ client lock mode,
    .acquire lock mode ∈ (threads.users (some client)).program →
      .index ≤ lock ∨ lock = .running ∧ threads.stopRequested = true
  ends : started = true → threads.point = .ended →
    threads.stopRequested = true

omit [DecidableEq Client] in
theorem sound_start (started : Bool) (errands : Client → List Errand) :
    (start started errands).Sound started where
  orderly := by
    rintro (_ | client)
    · cases started with
      | false => rfl
      | true =>
          exact ⟨List.forall_mem_singleton.mpr (by decide), rfl⟩
    · rfl
  joins client lock mode hmem := absurd hmem List.not_mem_nil
  ends hstarted hended := by
    subst hstarted
    cases hended

theorem Sound.depart (hsound : threads.Sound started) {client : Client}
    {part : List (LockStep StoreLock)} (rest : List Errand)
    (hidle : (threads.users (some client)).program = [])
    (hdisciplined : Disciplined [] [] part)
    (hjoins : ∀ lock mode, .acquire lock mode ∈ part →
      .index ≤ lock ∨ lock = .running ∧ threads.stopRequested = true) :
    (threads.depart client part rest).Sound started where
  orderly := by
    apply hsound.orderly.update (fun other _ => rfl)
    rw [hsound.orderly.held_eq hidle]
    exact hdisciplined
  joins other lock mode hmem := by
    by_cases hother : some other = some client
    · rw [hother] at hmem
      change _ ∈ (Function.update threads.users (some client) _ _).program
        at hmem
      rw [Function.update_self] at hmem
      exact hjoins lock mode hmem
    · change _ ∈ (Function.update threads.users (some client) _ _).program
        at hmem
      rw [Function.update_of_ne hother] at hmem
      exact hsound.joins other lock mode hmem
  ends := hsound.ends

omit [DecidableEq Client] in
/-- A flag that has been set allows more. -/
theorem Sound.raise (hsound : threads.Sound started) :
    { threads with stopRequested := true }.Sound started where
  orderly := hsound.orderly
  joins client lock mode hmem :=
    (hsound.joins client lock mode hmem).imp_right fun hjoin =>
      ⟨hjoin.1, rfl⟩
  ends _ _ := rfl

theorem Sound.begins (hsound : threads.Sound started) {client : Client}
    {errand : Errand} {rest : List Errand}
    (hidle : (threads.users (some client)).program = [])
    (hbegins : threads.Begins client rest errand next) :
    next.Sound started := by
  have hreturn : ∀ rest : List Errand,
      (threads.depart client [] rest).Sound started := by
    intro rest
    apply hsound.depart rest hidle
    · rfl
    · exact fun lock mode hmem => absurd hmem List.not_mem_nil
  cases hbegins with
  | call htakes hopen hclose =>
      have houter := outer_takes htakes hclose
      exact hsound.depart rest hidle houter.disciplined fun lock mode hmem =>
        Or.inl (houter.acquires lock mode hmem)
  | statistics =>
      exact hsound.depart rest hidle outer_statistics.disciplined
        fun lock mode hmem =>
          Or.inl (outer_statistics.acquires lock mode hmem)
  | closeClosed hopened => exact hreturn rest
  | close hopened =>
      have hdeparted := hreturn (.stop :: rest)
      exact ⟨hdeparted.orderly, hdeparted.joins, hdeparted.ends⟩
  | stop =>
      apply hsound.raise.depart rest hidle disciplined_join
      intro lock mode hmem
      rw [guarded, List.mem_cons] at hmem
      rcases hmem with hjoin | hrelease
      · cases hjoin
        exact Or.inr ⟨rfl, rfl⟩
      · simp at hrelease

theorem Sound.step (hsound : threads.Sound started)
    (hstep : Step prefersWriters threads next) : next.Sound started := by
  cases hstep with
  | lock hmove =>
      refine ⟨hsound.orderly.move hmove, fun client lock mode hmem => ?_,
        hsound.ends⟩
      exact hsound.joins client lock mode (hmove.program_subset _ hmem)
  | begin hidle herrands hbegins => exact hsound.begins hidle hbegins
  | clean hidle hgoes =>
      refine ⟨?_, fun client lock mode hmem => ?_, fun _ hended => ?_⟩
      · apply hsound.orderly.update
        · rintro (_ | client) hother
          · exact absurd rfl hother
          · rfl
        · rw [hsound.orderly.held_eq hidle]
          exact hgoes.disciplined
      · exact hsound.joins client lock mode hmem
      · change _ = CleanerPoint.ended at hended
        subst hended
        exact hgoes.stopRequested_eq

theorem Sound.reaches (hsound : threads.Sound started)
    (hreaches : Relation.ReflTransGen (Step prefersWriters) threads next) :
    next.Sound started := by
  induction hreaches with
  | refl => exact hsound
  | tail _ hstep ih => exact ih.step hstep

/-! ## What is left to do -/

variable [Fintype Client]

omit [DecidableEq Client] in
/-- The steps on errands that are left. -/
def errandsLeft (threads : StoreThreads Client) : ℕ :=
  ∑ client, ((threads.errands client).map Errand.steps).sum

/-- What is left to do, up to the next reading of a flag that is clear. -/
def left (threads : StoreThreads Client) : ℕ ×ₗ ℕ :=
  toLex (threads.errandsLeft + threads.point.readsLeft,
    workLeft threads.users)

theorem left_lt_of_lock {users : Option Client → LockUser StoreLock}
    (hmove : LockMove prefersWriters threads.users users) :
    { threads with users := users }.left < threads.left := by
  rw [left, left, Prod.Lex.toLex_lt_toLex]
  refine Or.inr ⟨rfl, ?_⟩
  rw [← hmove.workLeft]
  exact Nat.lt_succ_self _

theorem left_lt_of_clean {part : List (LockStep StoreLock)}
    {point : CleanerPoint} (hgoes : CleanerGoes true threads.point part point) :
    { threads.load none part with point := point }.left < threads.left := by
  rw [left, left, Prod.Lex.toLex_lt_toLex]
  exact Or.inl (Nat.add_lt_add_left hgoes.readsLeft_lt _)

/-- A client that has come further with its errands. -/
theorem left_lt_of_errands {client : Client} {later : List Errand}
    (hpoint : next.point = threads.point)
    (herrands : next.errands = Function.update threads.errands client later)
    (hless : (later.map Errand.steps).sum <
      ((threads.errands client).map Errand.steps).sum) :
    next.left < threads.left := by
  rw [left, left, Prod.Lex.toLex_lt_toLex, hpoint]
  refine Or.inl (Nat.add_lt_add_right ?_ _)
  rw [errandsLeft, errandsLeft, herrands]
  apply Finset.sum_lt_sum
  · intro other _
    by_cases hother : other = client
    · subst hother
      rw [Function.update_self]
      exact hless.le
    · rw [Function.update_of_ne hother]
  · refine ⟨client, Finset.mem_univ client, ?_⟩
    rw [Function.update_self]
    exact hless

theorem left_lt_of_begins {client : Client} {errand : Errand}
    {rest : List Errand} (herrands : threads.errands client = errand :: rest)
    (hbegins : threads.Begins client rest errand next) :
    next.left < threads.left := by
  have hreturns : ∀ {next : StoreThreads Client}, 0 < errand.steps →
      next.point = threads.point →
      next.errands = Function.update threads.errands client rest →
      next.left < threads.left := by
    intro next hsteps hpoint hnext
    apply left_lt_of_errands hpoint hnext
    rw [herrands, List.map_cons, List.sum_cons]
    exact Nat.lt_add_of_pos_left hsteps
  cases hbegins with
  | call htakes hopen hclose => exact hreturns Nat.one_pos rfl rfl
  | statistics => exact hreturns Nat.one_pos rfl rfl
  | closeClosed hopened => exact hreturns Nat.two_pos rfl rfl
  | close hopened =>
      have hless : ((Errand.stop :: rest).map Errand.steps).sum <
          ((threads.errands client).map Errand.steps).sum := by
        rw [herrands]
        exact Nat.add_lt_add_right Nat.one_lt_two _
      exact left_lt_of_errands rfl rfl hless
  | stop => exact hreturns Nat.one_pos rfl rfl

/-- When the flag is set, every step leaves less to do. -/
theorem Step.left_lt (hstep : Step prefersWriters threads next)
    (hstop : threads.stopRequested = true) : next.left < threads.left := by
  cases hstep with
  | lock hmove => exact left_lt_of_lock hmove
  | begin hidle herrands hbegins => exact left_lt_of_begins herrands hbegins
  | clean hidle hgoes =>
      rw [hstop] at hgoes
      exact left_lt_of_clean hgoes

omit [Fintype Client] in
/-- The flag stays set up to the next opening. -/
theorem Step.stopRequested (hstep : Step prefersWriters threads next)
    (hstop : threads.stopRequested = true) : next.stopRequested = true := by
  cases hstep with
  | lock hmove => exact hstop
  | begin hidle herrands hbegins =>
      cases hbegins with
      | call htakes hopen hclose => exact hstop
      | statistics => exact hstop
      | closeClosed hopened => exact hstop
      | close hopened => exact hstop
      | stop => rfl
  | clean hidle hgoes => exact hstop

/-- No execution goes on forever behind a close. -/
theorem acc_of_stopRequested (hstop : threads.stopRequested = true) :
    Acc (fun next threads => Step prefersWriters threads next) threads := by
  induction hleft : threads.left using WellFoundedLT.induction generalizing threads
    with
  | ind amount ih =>
      refine ⟨_, fun next hstep => ?_⟩
      subst hleft
      exact ih next.left (hstep.left_lt hstop) (hstep.stopRequested hstop) rfl

omit [Fintype Client] in
theorem exists_begins (threads : StoreThreads Client) (client : Client)
    (errand : Errand) (rest : List Errand) :
    ∃ next, threads.Begins client rest errand next := by
  cases errand with
  | call htakes hopen hclose => exact ⟨_, .call htakes hopen hclose⟩
  | statistics => exact ⟨_, .statistics⟩
  | close =>
      cases hopened : threads.opened with
      | false => exact ⟨_, .closeClosed hopened⟩
      | true => exact ⟨_, .close hopened⟩
  | stop => exact ⟨_, .stop⟩

omit [DecidableEq Client] [Fintype Client] in
/-- A thread that waits for one at the end of its program is a client that waits
for the cleaner, behind a close. -/
theorem Sound.waitsFor (hsound : threads.Sound started)
    {waiter holder : Option Client} {lock : StoreLock}
    (hwaits : WaitsFor threads.users waiter holder lock) :
    (threads.users none).program = [] ∧ threads.point ≠ .ended ∧
      threads.stopRequested = true := by
  obtain ⟨⟨mode, rest, hprogram⟩, hended, heldMode, hheld⟩ := hwaits
  rw [hsound.orderly.held_eq hended] at hheld
  cases holder with
  | some client => cases hheld
  | none =>
      cases waiter with
      | none =>
          rw [hended] at hprogram
          cases hprogram
      | some client =>
          obtain ⟨hrunning, hoverIndex⟩ := CleanerPoint.of_mem_held hheld
          have hjoins := hsound.joins client lock mode
          rw [hprogram] at hjoins
          rcases hjoins List.mem_cons_self with hindex | hjoin
          · exact absurd hindex hoverIndex
          · exact ⟨hended, hrunning, hjoin.2⟩

/-- A client can begin, a thread can go on with its locks, or a client waits for
the cleaner, which reads the flag and goes on. -/
theorem Sound.exists_progress (hsound : threads.Sound started)
    (hunfinished : ¬ threads.Returned) (prefersWriters : Prop) :
    ∃ next, Step prefersWriters threads next ∧ next.left < threads.left := by
  have hmoves : ∀ {thread : Option Client},
      (threads.users thread).program ≠ [] →
      ∃ next, Step prefersWriters threads next ∧ next.left < threads.left := by
    intro thread hprogram
    have hmove : (∃ users, LockMove prefersWriters threads.users users) ∨ _ :=
      exists_move hsound.orderly hprogram
    rcases hmove with ⟨users, hmove⟩ | ⟨_, _, _, hwaits⟩
    · exact ⟨_, .lock hmove, left_lt_of_lock hmove⟩
    · obtain ⟨hidle, hrunning, hstop⟩ := hsound.waitsFor hwaits
      obtain ⟨part, point, hgoes⟩ := exists_cleanerGoes true hrunning
      refine ⟨_, .clean hidle ?_, left_lt_of_clean hgoes⟩
      rw [hstop]
      exact hgoes
  obtain ⟨client, hclient⟩ := not_forall.mp hunfinished
  by_cases hidle : (threads.users (some client)).program = []
  · cases herrands : threads.errands client with
    | nil =>
        exact absurd ⟨hsound.orderly.user_eq hidle, herrands⟩ hclient
    | cons errand rest =>
        obtain ⟨next, hbegins⟩ := threads.exists_begins client errand rest
        exact ⟨next, .begin hidle herrands hbegins,
          left_lt_of_begins herrands hbegins⟩
  · exact hmoves hidle

/-- The clients can always come to the end of their calls. -/
theorem Sound.exists_returned (hsound : threads.Sound started) :
    ∃ next, Relation.ReflTransGen (Step prefersWriters) threads next ∧
      next.Returned := by
  induction hleft : threads.left using WellFoundedLT.induction generalizing threads
    with
  | ind amount ih =>
      by_cases hreturned : threads.Returned
      · exact ⟨threads, .refl, hreturned⟩
      obtain ⟨middle, hstep, hless⟩ :=
        hsound.exists_progress hreturned prefersWriters
      subst hleft
      obtain ⟨next, hreaches, hreturned⟩ :=
        ih middle.left hless (hsound.step hstep) rfl
      exact ⟨next, .head hstep hreaches, hreturned⟩

/-- Where nothing can go on, the calls have returned and the cleaner has ended. -/
theorem Sound.of_stuck (hsound : threads.Sound started)
    (hstuck : ∀ next, ¬ Step prefersWriters threads next) :
    threads.Returned ∧ threads.users none = ⟨[], []⟩ ∧
      threads.point = .ended := by
  have hreturned : threads.Returned := by
    by_contra hunfinished
    obtain ⟨next, hstep, -⟩ :=
      hsound.exists_progress hunfinished prefersWriters
    exact hstuck next hstep
  have hidle : (threads.users none).program = [] := by
    by_contra hprogram
    have hmove : (∃ users, LockMove prefersWriters threads.users users) ∨ _ :=
      exists_move hsound.orderly hprogram
    rcases hmove with ⟨users, hmove⟩ | ⟨_, _, _, hwaits⟩
    · exact hstuck _ (.lock hmove)
    · exact hprogram (hsound.waitsFor hwaits).1
  have hended : threads.point = .ended := by
    by_contra hrunning
    obtain ⟨part, point, hgoes⟩ :=
      exists_cleanerGoes threads.stopRequested hrunning
    exact hstuck _ (.clean hidle hgoes)
  refine ⟨hreturned, ?_, hended⟩
  rw [hsound.orderly.user_eq hidle, atRest, hended]
  rfl

/-- The store never deadlocks.  Whatever calls clients make on it beside the
cleaner, each on whatever path, and whether or not a waiting writer keeps
readers out: from every reachable state the calls can return; when a close has
set the stop flag, every execution ends; and nothing stands still before every
call has returned and the cleaner has ended, which it does behind a close
only. -/
theorem store_never_deadlocks {Client : Type} [Fintype Client]
    [DecidableEq Client] (prefersWriters : Prop) (started : Bool)
    (errands : Client → List Errand) {threads : StoreThreads Client}
    (hreaches : Relation.ReflTransGen (Step prefersWriters)
      (start started errands) threads) :
    (∃ next, Relation.ReflTransGen (Step prefersWriters) threads next ∧
      next.Returned) ∧
    (threads.stopRequested = true →
      Acc (fun next threads => Step prefersWriters threads next) threads) ∧
    ((∀ next, ¬ Step prefersWriters threads next) →
      threads.Returned ∧ threads.users none = ⟨[], []⟩ ∧
        threads.point = .ended ∧
        (started = true → threads.stopRequested = true)) := by
  have hsound := (sound_start started errands).reaches hreaches
  refine ⟨hsound.exists_returned, acc_of_stopRequested, fun hstuck => ?_⟩
  obtain ⟨hreturned, hcleaner, hended⟩ := hsound.of_stuck hstuck
  exact ⟨hreturned, hcleaner, hended, fun hstarted =>
    hsound.ends hstarted hended⟩

/-- One client is about to wait for the cleaner, and another one to read. -/
theorem store_never_deadlocks_while_closing :
    let started : StoreThreads (Fin 2) := start true
      ![[.close], [.call (.get [97]) nofun nofun]]
    let closing := { started.depart 0 [] [.stop] with opened := false }
    let joining := { closing.depart 0 (guarded .running .exclusive []) [] with
      stopRequested := true }
    (∃ next, Relation.ReflTransGen (Step True) joining next ∧ next.Returned) ∧
      Acc (fun next threads => Step True threads next) joining := by
  intro started closing joining
  have hcloses : Step True started closing := by
    have hidle : (started.users (some 0)).program = [] := rfl
    exact .begin hidle rfl (.close rfl)
  have hjoins : Step True closing joining := by
    have hidle : (closing.users (some 0)).program = [] := rfl
    exact .begin hidle rfl .stop
  have hnever := store_never_deadlocks True true _
    ((Relation.ReflTransGen.single hcloses).tail hjoins)
  exact ⟨hnever.1, hnever.2.1 rfl⟩

end StoreThreads

end MiniKV
