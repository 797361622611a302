import Mathlib

/-!
# Runs of a machine

A machine answers one input after the other.  What one step preserves, a run
preserves; the rules here also let a step depend on a clock that never goes
back, on a condition that the input meets in its own state, and on an abstract
state that follows the run.
-/

namespace MiniKV

/-- A deterministic machine that answers each input. -/
structure Machine (Input State Output : Type*) where
  step : Input → State → State × Output

namespace Machine

variable {Input State Output Time Abstract : Type*}
variable (machine : Machine Input State Output)

def run : List Input → State → State × List Output
  | [], state => (state, [])
  | input :: inputs, state =>
      let next := machine.step input state
      let rest := run inputs next.1
      (rest.1, next.2 :: rest.2)

@[simp]
theorem run_nil (state : State) : machine.run [] state = (state, []) := rfl

theorem run_cons (input : Input) (inputs : List Input) (state : State) :
    machine.run (input :: inputs) state =
      ((machine.run inputs (machine.step input state).1).1,
        (machine.step input state).2 ::
          (machine.run inputs (machine.step input state).1).2) := rfl

/-- Every input of the run meets the condition in the state it is given to. -/
def Along (condition : Input → State → Prop) : List Input → State → Prop
  | [], _ => True
  | input :: inputs, state =>
      condition input state ∧
        Along condition inputs (machine.step input state).1

instance decidableAlong {condition : Input → State → Prop}
    [∀ input state, Decidable (condition input state)] :
    ∀ inputs state, Decidable (machine.Along condition inputs state)
  | [], _ => .isTrue trivial
  | input :: inputs, state =>
      @instDecidableAnd _ _ _
        (decidableAlong inputs (machine.step input state).1)

/-- The clock readings of the inputs never go back behind `start`. -/
def Paced [LE Time] (clock : Input → Time) : Time → List Input → Prop
  | _, [] => True
  | start, input :: inputs =>
      start ≤ clock input ∧ Paced clock (clock input) inputs

/-- The last reading of a run that starts at `start`. -/
def lastReading (clock : Input → Time) : Time → List Input → Time
  | start, [] => start
  | _, input :: inputs => lastReading clock (clock input) inputs

/-- An abstract state that follows the inputs and outputs of a run. -/
inductive Trace (allowed : Abstract → Input → Output → Abstract → Prop) :
    Abstract → List Input → List Output → Abstract → Prop
  | nil (abstract : Abstract) : Trace allowed abstract [] [] abstract
  | cons {first second last : Abstract} {input : Input} {output : Output}
      {inputs : List Input} {outputs : List Output}
      (hallowed : allowed first input output second)
      (htrace : Trace allowed second inputs outputs last) :
      Trace allowed first (input :: inputs) (output :: outputs) last

/-- The sum over a run of what each of its steps contributes. -/
def tally (weight : Input → State → Output → ℕ) : List Input → State → ℕ
  | [], _ => 0
  | input :: inputs, state =>
      weight input state (machine.step input state).2 +
        tally weight inputs (machine.step input state).1

variable {machine}

theorem Along.imp {weak strong : Input → State → Prop}
    (himp : ∀ input state, strong input state → weak input state)
    {inputs : List Input} {state : State}
    (halong : machine.Along strong inputs state) :
    machine.Along weak inputs state := by
  induction inputs generalizing state with
  | nil => exact trivial
  | cons input inputs ih => exact ⟨himp _ _ halong.1, ih halong.2⟩

theorem Along.and {left right : Input → State → Prop} {inputs : List Input}
    {state : State} (hleft : machine.Along left inputs state)
    (hright : machine.Along right inputs state) :
    machine.Along (fun input state => left input state ∧ right input state)
      inputs state := by
  induction inputs generalizing state with
  | nil => exact trivial
  | cons input inputs ih =>
      exact ⟨⟨hleft.1, hright.1⟩, ih hleft.2 hright.2⟩

theorem Along.of_forall {condition : Input → State → Prop}
    {inputs : List Input}
    (hforall : ∀ input ∈ inputs, ∀ state, condition input state)
    (state : State) : machine.Along condition inputs state := by
  induction inputs generalizing state with
  | nil => exact trivial
  | cons input inputs ih =>
      exact ⟨hforall input (by simp) state,
        ih (fun other hother => hforall other (by simp [hother])) _⟩

theorem run_append (first second : List Input) (state : State) :
    (machine.run (first ++ second) state).1 =
      (machine.run second (machine.run first state).1).1 := by
  induction first generalizing state with
  | nil => rfl
  | cons input first ih => exact ih _

theorem along_append {condition : Input → State → Prop}
    {first second : List Input} {state : State} :
    machine.Along condition (first ++ second) state ↔
      machine.Along condition first state ∧
        machine.Along condition second (machine.run first state).1 := by
  induction first generalizing state with
  | nil => simp [Along]
  | cons input first ih =>
      rw [List.cons_append, Along, Along, ih, and_assoc]
      rfl

/-- The simulation rule: when every step has an allowed abstract step, every
run has an allowed trace. -/
theorem exists_trace [LE Time] {clock : Input → Time}
    {condition : Input → State → Prop}
    {allowed : Abstract → Input → Output → Abstract → Prop}
    {relation : Time → State → Abstract → Prop}
    (hstep : ∀ start input state abstract, relation start state abstract →
      start ≤ clock input → condition input state →
      ∃ next, allowed abstract input (machine.step input state).2 next ∧
        relation (clock input) (machine.step input state).1 next)
    {start : Time} {inputs : List Input} {state : State} {abstract : Abstract}
    (hpaced : Paced clock start inputs)
    (halong : machine.Along condition inputs state)
    (hstart : relation start state abstract) :
    ∃ last, Trace allowed abstract inputs (machine.run inputs state).2 last ∧
      relation (lastReading clock start inputs)
        (machine.run inputs state).1 last := by
  induction inputs generalizing start state abstract with
  | nil => exact ⟨abstract, .nil abstract, hstart⟩
  | cons input inputs ih =>
      obtain ⟨next, hallowed, hnext⟩ :=
        hstep start input state abstract hstart hpaced.1 halong.1
      obtain ⟨last, htrace, hlast⟩ := ih hpaced.2 halong.2 hnext
      exact ⟨last, .cons hallowed htrace, hlast⟩

/-- The invariant rule for runs on a clock. -/
theorem timed_invariant [LE Time] {clock : Input → Time}
    {condition : Input → State → Prop} {invariant : Time → State → Prop}
    (hstep : ∀ start input state, invariant start state →
      start ≤ clock input → condition input state →
      invariant (clock input) (machine.step input state).1)
    {start : Time} {inputs : List Input} {state : State}
    (hpaced : Paced clock start inputs)
    (halong : machine.Along condition inputs state)
    (hstart : invariant start state) :
    invariant (lastReading clock start inputs)
      (machine.run inputs state).1 := by
  induction inputs generalizing start state with
  | nil => exact hstart
  | cons input inputs ih =>
      exact ih hpaced.2 halong.2
        (hstep start input state hstart hpaced.1 halong.1)

/-- The invariant rule. -/
theorem run_invariant {condition : Input → State → Prop}
    {invariant : State → Prop}
    (hstep : ∀ input state, invariant state → condition input state →
      invariant (machine.step input state).1)
    {inputs : List Input} {state : State}
    (halong : machine.Along condition inputs state)
    (hstart : invariant state) : invariant (machine.run inputs state).1 := by
  induction inputs generalizing state with
  | nil => exact hstart
  | cons input inputs ih =>
      exact ih halong.2 (hstep input state hstart halong.1)

/-- Two conditions on steps hold along the same runs when they agree as long as
an invariant holds that the second one keeps. -/
theorem along_iff {first second : Input → State → Prop}
    {invariant : State → Prop} {inputs : List Input}
    (hstep : ∀ input ∈ inputs, ∀ state, invariant state →
      (first input state ↔ second input state) ∧
        (second input state → invariant (machine.step input state).1))
    {state : State} (hstart : invariant state) :
    machine.Along first inputs state ↔ machine.Along second inputs state := by
  induction inputs generalizing state with
  | nil => exact Iff.rfl
  | cons input inputs ih =>
      rw [List.forall_mem_cons] at hstep
      obtain ⟨hsame, hnext⟩ := hstep.1 state hstart
      rw [Along, Along, hsame, and_congr_right_iff]
      exact fun hsecond => ih hstep.2 (hnext hsecond)

/-- The accounting rule: when each step raises a measure by what it contributes,
a run raises it by the sum. -/
theorem run_tally {condition : Input → State → Prop} {measure : State → ℕ}
    {weight : Input → State → Output → ℕ}
    (hstep : ∀ input state, condition input state →
      measure (machine.step input state).1 =
        measure state + weight input state (machine.step input state).2)
    {inputs : List Input} {state : State}
    (halong : machine.Along condition inputs state) :
    measure (machine.run inputs state).1 =
      measure state + machine.tally weight inputs state := by
  induction inputs generalizing state with
  | nil => rfl
  | cons input inputs ih =>
      rw [run_cons, tally, ih halong.2, hstep input state halong.1,
        Nat.add_assoc]

/-- The counting rule: when a step raises a measure by one exactly if its input
and its output are of a kind, a run raises it by their number. -/
theorem run_counted {measure : State → ℕ} {counts : Input → Output → Bool}
    (hstep : ∀ input state, measure (machine.step input state).1 =
      measure state +
        (counts input (machine.step input state).2).toNat)
    (inputs : List Input) (state : State) :
    measure (machine.run inputs state).1 = measure state +
      (inputs.zip (machine.run inputs state).2).countP
        fun answered => counts answered.1 answered.2 := by
  induction inputs generalizing state with
  | nil => rfl
  | cons input inputs ih =>
      rw [run_cons, List.zip_cons_cons, List.countP_cons, ih, hstep]
      cases counts input (machine.step input state).2 with
      | true => simp; omega
      | false => simp

/-- Two machines that are given the same inputs. -/
def both {Other Answer : Type*} (machine : Machine Input State Output)
    (other : Machine Input Other Answer) :
    Machine Input (State × Other) (Output × Answer) where
  step input states :=
    let left := machine.step input states.1
    let right := other.step input states.2
    ((left.1, right.1), (left.2, right.2))

/-- The rule for two runs on the same inputs: when a step of both keeps them
related and gives agreeing outputs, so does a run. -/
theorem run_related {Other Answer : Type*} {other : Machine Input Other Answer}
    {relation : State → Other → Prop} {agree : Output → Answer → Prop}
    {inputs : List Input}
    (hstep : ∀ input ∈ inputs, ∀ left right, relation left right →
      agree (machine.step input left).2 (other.step input right).2 ∧
        relation (machine.step input left).1 (other.step input right).1)
    {left : State} {right : Other} (hstart : relation left right) :
    List.Forall₂ agree (machine.run inputs left).2 (other.run inputs right).2 ∧
      relation (machine.run inputs left).1 (other.run inputs right).1 := by
  induction inputs generalizing left right with
  | nil => exact ⟨List.Forall₂.nil, hstart⟩
  | cons input inputs ih =>
      rw [List.forall_mem_cons] at hstep
      obtain ⟨hagree, hnext⟩ := hstep.1 left right hstart
      obtain ⟨hrest, hlast⟩ := ih hstep.2 hnext
      exact ⟨List.Forall₂.cons hagree hrest, hlast⟩

end Machine

end MiniKV
