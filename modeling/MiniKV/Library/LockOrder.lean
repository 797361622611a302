import Mathlib

/-!
# Locks taken in an order

Threads take locks, shared or exclusive, and give them back.  A thread's program
may end while it holds locks, and be followed by another one.  When each of them
takes a lock only behind the locks that it holds, no set of threads can wait in
a circle, also when a waiting writer keeps readers out: some thread can go on,
unless one waits for a lock that is held at the end of a program.
-/

namespace MiniKV

inductive LockMode
  | shared
  | exclusive

inductive LockStep (Lock : Type*)
  | acquire (lock : Lock) (mode : LockMode)
  | release (lock : Lock)

/-- A thread: the locks it holds and what it has still to do. -/
structure LockUser (Lock : Type*) where
  held : List (Lock × LockMode)
  program : List (LockStep Lock)

namespace LockUser

variable {Lock : Type*}

def Holds (user : LockUser Lock) (lock : Lock) : Prop :=
  ∃ mode, (lock, mode) ∈ user.held

/-- The thread's next step is to take the lock exclusively. -/
def WantsToWrite (user : LockUser Lock) (lock : Lock) : Prop :=
  ∃ rest, user.program = .acquire lock .exclusive :: rest

variable [DecidableEq Lock]

/-- The thread behind its next step. -/
def after (user : LockUser Lock) (rest : List (LockStep Lock)) :
    LockStep Lock → LockUser Lock
  | .acquire lock mode => ⟨(lock, mode) :: user.held, rest⟩
  | .release lock => ⟨user.held.filter fun other => other.1 ≠ lock, rest⟩

end LockUser

section Discipline

variable {Lock : Type*} [Preorder Lock] [DecidableEq Lock]

/-- Locks are taken in ascending order and given back by their holder only, and
these are held at the end. -/
def Disciplined (last : List (Lock × LockMode)) :
    List (Lock × LockMode) → List (LockStep Lock) → Prop
  | held, [] => held = last
  | held, .acquire lock mode :: rest =>
      (∀ other ∈ held, other.1 < lock) ∧
        Disciplined last ((lock, mode) :: held) rest
  | held, .release lock :: rest =>
      (∃ mode, (lock, mode) ∈ held) ∧
        Disciplined last (held.filter fun other => other.1 ≠ lock) rest

/-- A part of a program that gives back what it takes. -/
def Balanced (held : List (Lock × LockMode)) (part : List (LockStep Lock)) :
    Prop :=
  ∀ last rest, Disciplined last held rest →
    Disciplined last held (part ++ rest)

variable {held : List (Lock × LockMode)} {lock : Lock} {mode : LockMode}

theorem Balanced.disciplined {part : List (LockStep Lock)}
    (hbalanced : Balanced held part) : Disciplined held held part := by
  have hdisciplined := hbalanced held [] rfl
  rwa [List.append_nil] at hdisciplined

theorem balanced_nil (held : List (Lock × LockMode)) : Balanced held [] :=
  fun _ _ hrest => hrest

theorem Balanced.append {first second : List (LockStep Lock)}
    (hfirst : Balanced held first) (hsecond : Balanced held second) :
    Balanced held (first ++ second) := by
  intro last rest hrest
  rw [List.append_assoc]
  exact hfirst last _ (hsecond last rest hrest)

theorem balanced_flatten {parts : List (List (LockStep Lock))}
    (hparts : ∀ part ∈ parts, Balanced held part) :
    Balanced held parts.flatten := by
  induction parts with
  | nil => exact balanced_nil held
  | cons part parts ih =>
      rw [List.forall_mem_cons] at hparts
      exact hparts.1.append (ih hparts.2)

/-- `std::lock_guard` around a part. -/
def guarded (lock : Lock) (mode : LockMode) (part : List (LockStep Lock)) :
    List (LockStep Lock) :=
  .acquire lock mode :: (part ++ [.release lock])

/-- `lock.unlock()` and `lock.lock()` around a part. -/
def unguarded (lock : Lock) (mode : LockMode) (part : List (LockStep Lock)) :
    List (LockStep Lock) :=
  .release lock :: (part ++ [.acquire lock mode])

/-- Giving the last lock back leaves the others. -/
theorem filter_ne_of_below (hbelow : ∀ other ∈ held, other.1 < lock)
    (mode : LockMode) :
    ((lock, mode) :: held).filter (fun other => other.1 ≠ lock) = held := by
  rw [List.filter_cons_of_neg (by simp), List.filter_eq_self]
  intro other hother
  exact decide_eq_true (ne_of_lt (hbelow other hother))

theorem balanced_guarded {part : List (LockStep Lock)}
    (hbelow : ∀ other ∈ held, other.1 < lock)
    (hpart : Balanced ((lock, mode) :: held) part) :
    Balanced held (guarded lock mode part) := by
  intro last rest hrest
  have hrelease : Disciplined last ((lock, mode) :: held)
      (.release lock :: rest) := by
    refine ⟨⟨mode, List.mem_cons_self⟩, ?_⟩
    rwa [filter_ne_of_below hbelow mode]
  have hinner := hpart last _ hrelease
  rw [guarded, List.cons_append, List.append_assoc, List.singleton_append]
  exact ⟨hbelow, hinner⟩

theorem balanced_unguarded {part : List (LockStep Lock)}
    (hbelow : ∀ other ∈ held, other.1 < lock) (hpart : Balanced held part) :
    Balanced ((lock, mode) :: held) (unguarded lock mode part) := by
  intro last rest hrest
  have hacquire : Disciplined last held (.acquire lock mode :: rest) :=
    ⟨hbelow, hrest⟩
  have hinner := hpart last _ hacquire
  rw [unguarded, List.cons_append, List.append_assoc, List.singleton_append]
  refine ⟨⟨mode, List.mem_cons_self⟩, ?_⟩
  rwa [filter_ne_of_below hbelow mode]

end Discipline

/-! ## Threads together -/

section Schedule

variable {Thread Lock : Type*}

/-- The next step of a thread is possible.  Where writers are preferred, a
reader also waits for those that wait. -/
inductive LockGranted (prefersWriters : Prop) (users : Thread → LockUser Lock)
    (thread : Thread) : LockStep Lock → Prop
  | release (lock : Lock) :
      LockGranted prefersWriters users thread (.release lock)
  | exclusive {lock : Lock}
      (hfree : ∀ other ≠ thread, ¬ (users other).Holds lock) :
      LockGranted prefersWriters users thread (.acquire lock .exclusive)
  | shared {lock : Lock}
      (hfree : ∀ other ≠ thread, (lock, .exclusive) ∉ (users other).held)
      (hwriters : prefersWriters → ∀ other ≠ thread,
        ¬ (users other).WantsToWrite lock) :
      LockGranted prefersWriters users thread (.acquire lock .shared)

variable [DecidableEq Thread] [DecidableEq Lock]

/-- One thread takes its next step. -/
inductive LockMove (prefersWriters : Prop) (users : Thread → LockUser Lock) :
    (Thread → LockUser Lock) → Prop
  | mk {thread : Thread} {step : LockStep Lock} {rest : List (LockStep Lock)}
      (hprogram : (users thread).program = step :: rest)
      (hgranted : LockGranted prefersWriters users thread step) :
      LockMove prefersWriters users
        (Function.update users thread ((users thread).after rest step))

variable [Preorder Lock] {prefersWriters : Prop}
variable {users next : Thread → LockUser Lock}

/-- Every thread keeps to the order, up to what it holds at the end. -/
def Orderly (last : Thread → List (Lock × LockMode))
    (users : Thread → LockUser Lock) : Prop :=
  ∀ thread, Disciplined (last thread) (users thread).held
    (users thread).program

variable {last : Thread → List (Lock × LockMode)}

theorem Orderly.move (horderly : Orderly last users)
    (hmove : LockMove prefersWriters users next) : Orderly last next := by
  obtain ⟨hprogram, -⟩ := hmove
  rename_i thread step rest
  intro other
  by_cases hother : other = thread
  · subst hother
    have hdisciplined := horderly other
    rw [hprogram] at hdisciplined
    rw [Function.update_self]
    cases step with
    | acquire lock mode => exact hdisciplined.2
    | release lock => exact hdisciplined.2
  · rw [Function.update_of_ne hother]
    exact horderly other

/-- A thread gets another program. -/
theorem Orderly.update (horderly : Orderly last users) {thread : Thread}
    {later : Thread → List (Lock × LockMode)} {user : LockUser Lock}
    (hothers : ∀ other ≠ thread, later other = last other)
    (hdisciplined : Disciplined (later thread) user.held user.program) :
    Orderly later (Function.update users thread user) := by
  intro other
  by_cases hother : other = thread
  · subst hother
    rw [Function.update_self]
    exact hdisciplined
  · rw [Function.update_of_ne hother, hothers other hother]
    exact horderly other

omit [DecidableEq Thread] in
/-- What a thread holds at the end of its program. -/
theorem Orderly.held_eq (horderly : Orderly last users) {thread : Thread}
    (hended : (users thread).program = []) :
    (users thread).held = last thread := by
  have hdisciplined := horderly thread
  rw [hended] at hdisciplined
  exact hdisciplined

omit [DecidableEq Thread] in
theorem Orderly.user_eq (horderly : Orderly last users) {thread : Thread}
    (hended : (users thread).program = []) :
    users thread = ⟨last thread, []⟩ := by
  rw [← horderly.held_eq hended, ← hended]

omit [Preorder Lock] in
/-- No step adds to what a thread has still to do. -/
theorem LockMove.program_subset (hmove : LockMove prefersWriters users next)
    (thread : Thread) : (next thread).program ⊆ (users thread).program := by
  obtain ⟨hprogram, -⟩ := hmove
  rename_i mover step rest
  by_cases hthread : thread = mover
  · subst hthread
    rw [Function.update_self, hprogram]
    cases step <;> exact List.subset_cons_self _ rest
  · rw [Function.update_of_ne hthread]
    exact List.Subset.refl _

omit [Preorder Lock] in
/-- A thread that waits for a lock can go on, or a writer can, or the lock is
held. -/
theorem exists_move_or_holds {thread : Thread} {lock : Lock} {mode : LockMode}
    {rest : List (LockStep Lock)}
    (hprogram : (users thread).program = .acquire lock mode :: rest) :
    (∃ next, LockMove prefersWriters users next) ∨
      ∃ holder, (users holder).Holds lock := by
  by_cases hheld : ∃ holder, (users holder).Holds lock
  · exact Or.inr hheld
  · rw [not_exists] at hheld
    have hwriter : ∀ writer, (users writer).WantsToWrite lock →
        ∃ next, LockMove prefersWriters users next := by
      rintro writer ⟨more, hwriter⟩
      exact ⟨_, .mk hwriter (.exclusive fun other _ => hheld other)⟩
    left
    cases mode with
    | exclusive => exact hwriter thread ⟨rest, hprogram⟩
    | shared =>
        by_cases hwaiting : ∃ writer, (users writer).WantsToWrite lock
        · obtain ⟨writer, hwants⟩ := hwaiting
          exact hwriter writer hwants
        · rw [not_exists] at hwaiting
          refine ⟨_, .mk hprogram (.shared ?_ fun _ other _ => hwaiting other)⟩
          exact fun other _ hexclusive => hheld other ⟨.exclusive, hexclusive⟩

/-- A thread waits for a lock that another one holds at the end of its
program. -/
structure WaitsFor (users : Thread → LockUser Lock) (waiter holder : Thread)
    (lock : Lock) : Prop where
  waits : ∃ mode rest, (users waiter).program = .acquire lock mode :: rest
  ended : (users holder).program = []
  holds : (users holder).Holds lock

/-- When a thread waits for a lock, some thread can go on, or one waits for a
thread that has come to the end of its program.  The induction is on the locks
behind it: its holder waits for one of those, if it waits. -/
theorem exists_move_of_acquire [WellFoundedGT Lock]
    (horderly : Orderly last users) {thread : Thread} {lock : Lock}
    {mode : LockMode} {rest : List (LockStep Lock)}
    (hprogram : (users thread).program = .acquire lock mode :: rest) :
    (∃ next, LockMove prefersWriters users next) ∨
      ∃ waiter holder lock, WaitsFor users waiter holder lock := by
  induction lock using WellFoundedGT.induction generalizing thread mode rest with
  | ind lock ih =>
      rcases exists_move_or_holds hprogram with hmove | ⟨holder, hholds⟩
      · exact Or.inl hmove
      have hdisciplined := horderly holder
      cases hholder : (users holder).program with
      | nil =>
          exact Or.inr ⟨thread, holder, lock, ⟨mode, rest, hprogram⟩, hholder,
            hholds⟩
      | cons step more =>
          cases step with
          | release other => exact Or.inl ⟨_, .mk hholder (.release other)⟩
          | acquire other otherMode =>
              rw [hholder] at hdisciplined
              obtain ⟨heldMode, hheld⟩ := hholds
              exact ih other (hdisciplined.1 _ hheld) hholder

/-- There is no deadlock: while a program is not at its end, some thread can go
on, or one waits for a thread that has come to the end of its program. -/
theorem exists_move [WellFoundedGT Lock] (horderly : Orderly last users)
    {thread : Thread} (hunfinished : (users thread).program ≠ []) :
    (∃ next, LockMove prefersWriters users next) ∨
      ∃ waiter holder lock, WaitsFor users waiter holder lock := by
  cases hprogram : (users thread).program with
  | nil => exact absurd hprogram hunfinished
  | cons step rest =>
      cases step with
      | release lock => exact Or.inl ⟨_, .mk hprogram (.release lock)⟩
      | acquire lock mode => exact exists_move_of_acquire horderly hprogram

/-- The steps that are left. -/
def workLeft [Fintype Thread] (users : Thread → LockUser Lock) : ℕ :=
  ∑ thread, (users thread).program.length

omit [DecidableEq Lock] [Preorder Lock] in
theorem workLeft_update [Fintype Thread] {thread : Thread}
    {user : LockUser Lock}
    (hlength : user.program.length + 1 = (users thread).program.length) :
    workLeft (Function.update users thread user) + 1 = workLeft users := by
  have hothers : ∀ other ∈ Finset.univ.erase thread,
      (Function.update users thread user other).program.length =
        (users other).program.length := by
    intro other hother
    rw [Function.update_of_ne (Finset.ne_of_mem_erase hother)]
  calc
    workLeft (Function.update users thread user) + 1
        = user.program.length + (∑ other ∈ Finset.univ.erase thread,
            (users other).program.length) + 1 := by
      rw [workLeft, ← Finset.add_sum_erase _ _ (Finset.mem_univ thread),
        Function.update_self, Finset.sum_congr rfl hothers]
    _ = (users thread).program.length + ∑ other ∈ Finset.univ.erase thread,
          (users other).program.length := by omega
    _ = workLeft users :=
      Finset.add_sum_erase _ (fun other => (users other).program.length)
        (Finset.mem_univ thread)

omit [Preorder Lock] in
/-- Every step is one of those that were left. -/
theorem LockMove.workLeft [Fintype Thread]
    (hmove : LockMove prefersWriters users next) :
    workLeft next + 1 = workLeft users := by
  obtain ⟨hprogram, -⟩ := hmove
  rename_i thread step rest
  apply workLeft_update
  rw [hprogram]
  cases step <;> rfl

end Schedule

end MiniKV
