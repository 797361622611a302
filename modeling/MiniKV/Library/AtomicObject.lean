import MiniKV.Library.Machine

/-!
# Objects that threads share

An atomic object has calls that take effect at single moments between their
invocation and their answer: most of them at one moment, some at several, one
after the other.  A concurrent object is linearizable when whatever is seen at
its border is seen of an atomic object; a forward simulation shows that.  Time
is part of what is seen, so that a call may depend on any reading of the clock
that was taken while it was pending.
-/

namespace MiniKV

section Observed

variable {State Other Event : Type*}
variable {step : State → Option Event → State → Prop}
variable {other : Other → Option Event → Other → Prop}

/-- A run of labelled steps with the events that are seen of it. -/
inductive Observed (step : State → Option Event → State → Prop) :
    State → List Event → State → Prop
  | nil (state : State) : Observed step state [] state
  | silent {first second last : State} {events : List Event}
      (hstep : step first none second)
      (hrest : Observed step second events last) :
      Observed step first events last
  | seen {first second last : State} {event : Event} {events : List Event}
      (hstep : step first (some event) second)
      (hrest : Observed step second events last) :
      Observed step first (event :: events) last

namespace Observed

theorem trans {first second last : State} {events more : List Event}
    (hrun : Observed step first events second)
    (hmore : Observed step second more last) :
    Observed step first (events ++ more) last := by
  induction hrun with
  | nil => exact hmore
  | silent hstep _ ih => exact .silent hstep (ih hmore)
  | seen hstep _ ih => exact .seen hstep (ih hmore)

/-- A run of one step. -/
theorem single {first second : State} {label : Option Event}
    (hstep : step first label second) :
    Observed step first label.toList second := by
  cases label with
  | none => exact .silent hstep (.nil second)
  | some event => exact .seen hstep (.nil second)

/-- What every step does, and any steps in a row, a whole run does. -/
theorem lift (relation : State → State → Prop)
    (hrefl : ∀ state, relation state state)
    (htrans : ∀ {first second last}, relation first second →
      relation second last → relation first last)
    (hstep : ∀ {first label second}, step first label second →
      relation first second)
    {first last : State} {events : List Event}
    (hrun : Observed step first events last) : relation first last := by
  induction hrun with
  | nil state => exact hrefl state
  | silent hfirst _ ih => exact htrans (hstep hfirst) ih
  | seen hfirst _ ih => exact htrans (hstep hfirst) ih

/-- The simulation rule: when every step is matched by a run with the same
label, every run is matched by a run with the same events.  The events may be
known to meet a condition. -/
theorem simulate {condition : Event → Prop} {relation : State → Other → Prop}
    (hstep : ∀ first label second shadow,
      (∀ event ∈ label, condition event) → step first label second →
      relation first shadow → ∃ next,
        Observed other shadow label.toList next ∧ relation second next)
    {first last : State} {events : List Event} {shadow : Other}
    (hevents : ∀ event ∈ events, condition event)
    (hrun : Observed step first events last)
    (hstart : relation first shadow) :
    ∃ next, Observed other shadow events next ∧ relation last next := by
  induction hrun generalizing shadow with
  | nil => exact ⟨shadow, .nil shadow, hstart⟩
  | silent hfirst _ ih =>
      obtain ⟨middle, hmatched, hmiddle⟩ :=
        hstep _ _ _ _ (by simp) hfirst hstart
      obtain ⟨next, hrest, hnext⟩ := ih hevents hmiddle
      exact ⟨next, hmatched.trans hrest, hnext⟩
  | seen hfirst _ ih =>
      rw [List.forall_mem_cons] at hevents
      obtain ⟨middle, hmatched, hmiddle⟩ :=
        hstep _ _ _ _ (by simpa using hevents.1) hfirst hstart
      obtain ⟨next, hrest, hnext⟩ := ih hevents.2 hmiddle
      exact ⟨next, hmatched.trans hrest, hnext⟩

end Observed

end Observed

/-- What is seen at the border of an object that threads share. -/
inductive Boundary (Thread Request Reply Time : Type*)
  | invoke (thread : Thread) (request : Request)
  | answer (thread : Thread) (reply : Reply)
  | tick (time : Time)

/-- Where a thread stands with an atomic object.  A pending call counts the
moments at which it has taken effect so far. -/
inductive Stance (Request Reply Time : Type*)
  | resting
  | pending (request : Request) (since : Time) (passed : ℕ)
  | settled (reply : Reply)

/-- A call at a moment at which it takes effect.  The last one settles its
reply. -/
structure Occurrence (Thread Request Reply Time : Type*) where
  thread : Thread
  request : Request
  since : Time
  now : Time
  passed : ℕ
  reply : Option Reply

/-- What a call may do at one of its moments. -/
abbrev Moment (Request Reply Time Abstract : Type*) :=
  Time → Time → ℕ → Abstract → Request → Option Reply → Abstract → Prop

structure AtomicObject (Thread Request Reply Time Abstract : Type*) where
  abstract : Abstract
  clock : Time
  stance : Thread → Stance Request Reply Time
  occurrences : List (Occurrence Thread Request Reply Time)

namespace AtomicObject

variable {Thread Request Reply Time Abstract : Type*}
variable {allowed : Moment Request Reply Time Abstract}

/-- An object that no thread has called yet. -/
def start (abstract : Abstract) (clock : Time) :
    AtomicObject Thread Request Reply Time Abstract where
  abstract := abstract
  clock := clock
  stance _ := .resting
  occurrences := []

/-- Where a call stands behind one of its moments. -/
def behind (request : Request) (since : Time) (passed : ℕ) :
    Option Reply → Stance Request Reply Time
  | none => .pending request since (passed + 1)
  | some reply => .settled reply

/-- One step: the clock moves on, a thread calls, a pending call takes effect,
or a settled one is answered. -/
inductive Step [DecidableEq Thread] [LE Time]
    (allowed : Moment Request Reply Time Abstract)
    (object : AtomicObject Thread Request Reply Time Abstract) :
    Option (Boundary Thread Request Reply Time) →
      AtomicObject Thread Request Reply Time Abstract → Prop
  | tick {time : Time} (hclock : object.clock ≤ time) :
      Step allowed object (some (.tick time)) { object with clock := time }
  | invoke {thread : Thread} {request : Request}
      (hstance : object.stance thread = .resting) :
      Step allowed object (some (.invoke thread request))
        { object with
          stance := Function.update object.stance thread
            (.pending request object.clock 0) }
  | occur {thread : Thread} {request : Request} {since : Time} {passed : ℕ}
      {reply : Option Reply} {next : Abstract}
      (hstance : object.stance thread = .pending request since passed)
      (hallowed : allowed since object.clock passed object.abstract request
        reply next) :
      Step allowed object none
        { object with
          abstract := next
          stance := Function.update object.stance thread
            (behind request since passed reply)
          occurrences := object.occurrences ++
            [⟨thread, request, since, object.clock, passed, reply⟩] }
  | answer {thread : Thread} {reply : Reply}
      (hstance : object.stance thread = .settled reply) :
      Step allowed object (some (.answer thread reply))
        { object with
          stance := Function.update object.stance thread .resting }

/-- Moments of calls that are allowed one after the other. -/
inductive Sequential
    (allowed : Moment Request Reply Time Abstract) :
    Abstract → List (Occurrence Thread Request Reply Time) → Abstract → Prop
  | nil (abstract : Abstract) : Sequential allowed abstract [] abstract
  | cons {first second last : Abstract}
      {occurrence : Occurrence Thread Request Reply Time}
      {occurrences : List (Occurrence Thread Request Reply Time)}
      (hallowed : allowed occurrence.since occurrence.now occurrence.passed
        first occurrence.request occurrence.reply second)
      (hrest : Sequential allowed second occurrences last) :
      Sequential allowed first (occurrence :: occurrences) last

namespace Sequential

theorem trans {first second last : Abstract}
    {occurrences more : List (Occurrence Thread Request Reply Time)}
    (hrun : Sequential allowed first occurrences second)
    (hmore : Sequential allowed second more last) :
    Sequential allowed first (occurrences ++ more) last := by
  induction hrun with
  | nil => exact hmore
  | cons hallowed _ ih => exact .cons hallowed (ih hmore)

end Sequential

/-- What has taken effect between two states is a sequential run. -/
def Accounts (allowed : Moment Request Reply Time Abstract)
    (object next : AtomicObject Thread Request Reply Time Abstract) : Prop :=
  ∃ occurrences, next.occurrences = object.occurrences ++ occurrences ∧
    Sequential allowed object.abstract occurrences next.abstract

namespace Accounts

variable {object next last : AtomicObject Thread Request Reply Time Abstract}

theorem refl (object : AtomicObject Thread Request Reply Time Abstract) :
    Accounts allowed object object :=
  ⟨[], (List.append_nil _).symm, .nil _⟩

theorem trans (hfirst : Accounts allowed object next)
    (hrest : Accounts allowed next last) : Accounts allowed object last := by
  obtain ⟨occurrences, hoccurrences, hsequential⟩ := hfirst
  obtain ⟨more, hmore, hfurther⟩ := hrest
  refine ⟨occurrences ++ more, ?_, hsequential.trans hfurther⟩
  rw [hmore, hoccurrences, List.append_assoc]

theorem step [DecidableEq Thread] [LE Time]
    {label : Option (Boundary Thread Request Reply Time)}
    (hstep : Step allowed object label next) :
    Accounts allowed object next := by
  cases hstep with
  | tick hclock => exact .refl object
  | invoke hstance => exact .refl object
  | occur hstance hallowed => exact ⟨[_], rfl, .cons hallowed (.nil _)⟩
  | answer hstance => exact .refl object

end Accounts

theorem accounts_of_observed [DecidableEq Thread] [LE Time]
    {first last : AtomicObject Thread Request Reply Time Abstract}
    {events : List (Boundary Thread Request Reply Time)}
    (hrun : Observed (Step allowed) first events last) :
    Accounts allowed first last :=
  hrun.lift (Accounts allowed) .refl .trans .step

/-! ## Crashes

A durable object keeps what has taken effect when its threads die; what was
pending has taken effect before, or never does.
-/

/-- The steps of a durable object.  It is there again at a later reading of the
clock, with no thread in a call. -/
inductive Durable [DecidableEq Thread] [LE Time] {Crash : Type*}
    (allowed : Moment Request Reply Time Abstract)
    (reading : Crash → Time)
    (object : AtomicObject Thread Request Reply Time Abstract) :
    Option (Boundary Thread Request Reply Time ⊕ Crash) →
      AtomicObject Thread Request Reply Time Abstract → Prop
  | call {label : Option (Boundary Thread Request Reply Time)}
      {next : AtomicObject Thread Request Reply Time Abstract}
      (hstep : Step allowed object label next) :
      Durable allowed reading object (label.map .inl) next
  | crash {crash : Crash} (hclock : object.clock ≤ reading crash) :
      Durable allowed reading object (some (.inr crash))
        { object with
          clock := reading crash
          stance := fun _ => .resting }

section Durable

variable [DecidableEq Thread] [LE Time] {Crash : Type*} {reading : Crash → Time}
variable {object next : AtomicObject Thread Request Reply Time Abstract}

/-- What is seen without a crash. -/
theorem Durable.of_observed
    {events : List (Boundary Thread Request Reply Time)}
    (hrun : Observed (Step allowed) object events next) :
    Observed (Durable allowed reading) object (events.map .inl) next := by
  induction hrun with
  | nil => exact .nil _
  | silent hstep _ ih => exact .silent (.call hstep) ih
  | seen hstep _ ih => exact .seen (.call hstep) ih

theorem Durable.accounts
    {label : Option (Boundary Thread Request Reply Time ⊕ Crash)}
    (hstep : Durable allowed reading object label next) :
    Accounts allowed object next := by
  cases hstep with
  | call hstep => exact .step hstep
  | crash hclock => exact .refl object

/-- What has taken effect before, between and behind crashes is one sequential
run. -/
theorem accounts_of_durable
    {events : List (Boundary Thread Request Reply Time ⊕ Crash)}
    (hrun : Observed (Durable allowed reading) object events next) :
    Accounts allowed object next :=
  hrun.lift (Accounts allowed) .refl .trans Durable.accounts

end Durable

end AtomicObject

end MiniKV
