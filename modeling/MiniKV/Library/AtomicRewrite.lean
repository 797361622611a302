import Mathlib

/-!
# Rewriting a file through a temporary one

A file is replaced by writing its new contents to a second file and renaming
that one over it.  When the rename is atomic, a crash between any two steps
leaves the old contents or the new ones.
-/

namespace MiniKV

/-- A file and the one that is to replace it; either may be missing. -/
structure Files (Symbol : Type*) where
  target : Option (List Symbol)
  temporary : Option (List Symbol)

/-- One change of the disk. -/
inductive RewriteStep (Symbol : Type*)
  | openTarget
  | removeTemporary
  | createTemporary
  | write (symbol : Symbol)
  | rename

namespace Files

variable {Symbol : Type*}

/-- What a reader of the file gets; a missing file reads as an empty one. -/
def contents (files : Files Symbol) : List Symbol := files.target.getD []

/-- Opening creates a missing file, creating truncates an old one, and a rename
without a temporary file fails. -/
def apply (files : Files Symbol) : RewriteStep Symbol → Files Symbol
  | .openTarget => { files with target := some files.contents }
  | .removeTemporary => { files with temporary := none }
  | .createTemporary => { files with temporary := some [] }
  | .write symbol =>
      { files with temporary := files.temporary.map (· ++ [symbol]) }
  | .rename =>
      match files.temporary with
      | some output => ⟨some output, none⟩
      | none => files

def run (steps : List (RewriteStep Symbol)) (files : Files Symbol) :
    Files Symbol :=
  steps.foldl apply files

/-- The steps up to the rename. -/
def stagingSteps (output : List Symbol) : List (RewriteStep Symbol) :=
  [.openTarget, .removeTemporary, .createTemporary] ++ output.map .write

/-- The steps of the whole rewrite. -/
def rewriteSteps (output : List Symbol) : List (RewriteStep Symbol) :=
  stagingSteps output ++ [.rename, .openTarget]

theorem run_append (first second : List (RewriteStep Symbol))
    (files : Files Symbol) :
    run (first ++ second) files = run second (run first files) :=
  List.foldl_append

/-- Only a rename changes what a reader gets. -/
theorem contents_apply {step : RewriteStep Symbol} (hstep : step ≠ .rename)
    (files : Files Symbol) : (files.apply step).contents = files.contents := by
  cases step with
  | openTarget => rfl
  | removeTemporary => rfl
  | createTemporary => rfl
  | write symbol => rfl
  | rename => exact absurd rfl hstep

theorem contents_run {steps : List (RewriteStep Symbol)}
    (hsteps : ∀ step ∈ steps, step ≠ .rename) (files : Files Symbol) :
    (run steps files).contents = files.contents := by
  induction steps generalizing files with
  | nil => rfl
  | cons step steps ih =>
      rw [List.forall_mem_cons] at hsteps
      exact (ih hsteps.2 (files.apply step)).trans
        (contents_apply hsteps.1 files)

theorem not_rename_of_mem_stagingSteps {output : List Symbol}
    {step : RewriteStep Symbol} (hstep : step ∈ stagingSteps output) :
    step ≠ .rename := by
  rintro rfl
  simp [stagingSteps] at hstep

/-- The temporary file grows by what is written. -/
theorem run_writes (output : List Symbol) (target : Option (List Symbol))
    (written : List Symbol) :
    run (output.map .write) ⟨target, some written⟩ =
      ⟨target, some (written ++ output)⟩ := by
  induction output generalizing written with
  | nil => exact congrArg (Files.mk target) (by rw [List.append_nil])
  | cons symbol output ih =>
      calc
        run ((symbol :: output).map .write) ⟨target, some written⟩ =
            run (output.map .write) ⟨target, some (written ++ [symbol])⟩ := rfl
        _ = ⟨target, some (written ++ [symbol] ++ output)⟩ := ih _
        _ = ⟨target, some (written ++ symbol :: output)⟩ := by
          rw [List.append_assoc, List.singleton_append]

theorem run_stagingSteps (output : List Symbol) (files : Files Symbol) :
    run (stagingSteps output) files =
      ⟨some files.contents, some output⟩ := by
  calc
    run (stagingSteps output) files =
        run (output.map .write) ⟨some files.contents, some []⟩ := rfl
    _ = ⟨some files.contents, some output⟩ := run_writes output _ []

/-- Where no step fails, the rewrite leaves the new contents only. -/
theorem run_rewriteSteps (output : List Symbol) (files : Files Symbol) :
    run (rewriteSteps output) files = ⟨some output, none⟩ := by
  rw [rewriteSteps, run_append, run_stagingSteps]
  rfl

/-- A crash behind any number of steps leaves the old contents or the new
ones. -/
theorem contents_crashed (output : List Symbol) (count : ℕ)
    (files : Files Symbol) :
    (run ((rewriteSteps output).take count) files).contents = files.contents ∨
      (run ((rewriteSteps output).take count) files).contents = output := by
  by_cases hstaging : count ≤ (stagingSteps output).length
  · rw [rewriteSteps, List.take_append_of_le_length hstaging]
    exact Or.inl (contents_run (fun step hstep =>
      not_rename_of_mem_stagingSteps (List.mem_of_mem_take hstep)) files)
  · obtain ⟨behind, rfl⟩ := Nat.exists_eq_add_of_lt (Nat.not_le.mp hstaging)
    have htake : (rewriteSteps output).take
        ((stagingSteps output).length + behind + 1) =
        stagingSteps output ++ .rename :: [.openTarget].take behind := by
      rw [rewriteSteps, Nat.add_assoc, List.take_length_add_append]
      rfl
    rw [htake, run_append, run_stagingSteps]
    have hlater : ∀ step ∈ ([.openTarget] : List (RewriteStep Symbol)).take
        behind, step ≠ .rename := by
      intro step hstep
      rw [List.mem_singleton.mp (List.mem_of_mem_take hstep)]
      exact nofun
    exact Or.inr (contents_run hlater ⟨some output, none⟩)

end Files

end MiniKV
