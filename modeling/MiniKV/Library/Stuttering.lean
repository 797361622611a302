import MiniKV.Library.Machine

/-!
# Runs with silent inputs in between

A machine may take inputs besides its own that it does not answer.  Two runs,
one with such inputs and one without them, give agreeing outputs when a relation
between their states survives a common step and a silent step of the first.
-/

namespace MiniKV.Machine

variable {Input State Output Silent Time : Type*}

/-- The machine that also takes silent inputs. -/
def withSilent (machine : Machine Input State Output)
    (silent : Silent → State → State) :
    Machine (Input ⊕ Silent) State (Option Output) where
  step
    | .inl input, state =>
        ((machine.step input state).1, some (machine.step input state).2)
    | .inr input, state => (silent input state, none)

variable {machine : Machine Input State Output}
variable {silent : Silent → State → State}

/-- The inputs that are answered. -/
def answered (inputs : List (Input ⊕ Silent)) : List Input :=
  inputs.filterMap Sum.getLeft?

/-- The outputs of a run that are there. -/
def outputs (machine : Machine Input State Output)
    (silent : Silent → State → State) (inputs : List (Input ⊕ Silent))
    (state : State) : List Output :=
  ((machine.withSilent silent).run inputs state).2.reduceOption

theorem outputs_inl (input : Input) (inputs : List (Input ⊕ Silent))
    (state : State) :
    machine.outputs silent (.inl input :: inputs) state =
      (machine.step input state).2 ::
        machine.outputs silent inputs (machine.step input state).1 := by
  rw [outputs, run_cons]
  exact List.reduceOption_cons_of_some _ _

theorem outputs_inr (input : Silent) (inputs : List (Input ⊕ Silent))
    (state : State) :
    machine.outputs silent (.inr input :: inputs) state =
      machine.outputs silent inputs (silent input state) := by
  rw [outputs, run_cons]
  exact List.reduceOption_cons_of_none _

/-- The stuttering rule: what the silent inputs do shows in no output. -/
theorem outputs_agree [LE Time] {clock : Input ⊕ Silent → Time}
    {condition : Input ⊕ Silent → Prop} {agree : Output → Output → Prop}
    {relation : Time → State → State → Prop}
    (hstep : ∀ start input left right, relation start left right →
      start ≤ clock (.inl input) → condition (.inl input) →
      agree (machine.step input left).2 (machine.step input right).2 ∧
        relation (clock (.inl input)) (machine.step input left).1
          (machine.step input right).1)
    (hsilent : ∀ start input left right, relation start left right →
      start ≤ clock (.inr input) → condition (.inr input) →
      relation (clock (.inr input)) left (silent input right))
    {start : Time} {inputs : List (Input ⊕ Silent)} {left right : State}
    (hpaced : Paced clock start inputs)
    (hcondition : ∀ input ∈ inputs, condition input)
    (hstart : relation start left right) :
    List.Forall₂ agree (machine.run (answered inputs) left).2
      (machine.outputs silent inputs right) := by
  induction inputs generalizing start left right with
  | nil => exact List.Forall₂.nil
  | cons input inputs ih =>
      rw [List.forall_mem_cons] at hcondition
      cases input with
      | inl input =>
          obtain ⟨hagree, hnext⟩ := hstep start input left right hstart
            hpaced.1 hcondition.1
          rw [outputs_inl]
          exact List.Forall₂.cons hagree (ih hpaced.2 hcondition.2 hnext)
      | inr input =>
          rw [outputs_inr]
          exact ih hpaced.2 hcondition.2
            (hsilent start input left right hstart hpaced.1 hcondition.1)

end MiniKV.Machine
