import Mathlib

/-!
# Status codes and results

Expected failures are values: a `Status` carries a code and a message, and a
`Result` is a value or the status that explains its absence.
-/

namespace MiniKV

inductive StatusCode
  | ok
  | notFound
  | invalidArgument
  | ioError
  | corruption
  | closed
  /-- No code of the source: the call has ended with an exception. -/
  | thrown
  deriving DecidableEq, Repr

structure Status where
  code : StatusCode
  message : String
  deriving DecidableEq, Repr

/-- `Result<T>`: the source never builds a failure from an OK status. -/
abbrev Result (T : Type) := Except Status T

namespace Status

def success : Status := ⟨.ok, ""⟩

def notFound (message : String) : Status := ⟨.notFound, message⟩

def invalidArgument (message : String) : Status := ⟨.invalidArgument, message⟩

def ioError (message : String) : Status := ⟨.ioError, message⟩

def corruption (message : String) : Status := ⟨.corruption, message⟩

def closed (message : String) : Status := ⟨.closed, message⟩

/-- A call that has ended with an exception, and its `what()`.  No caller in
the store catches it, so that it goes up as a failed status does. -/
def thrown (what : String) : Status := ⟨.thrown, what⟩

def ok (status : Status) : Bool := status.code == .ok

@[simp] theorem ok_success : success.ok = true := rfl

@[simp] theorem ok_notFound (message : String) :
    (notFound message).ok = false := rfl

@[simp] theorem ok_invalidArgument (message : String) :
    (invalidArgument message).ok = false := rfl

@[simp] theorem ok_ioError (message : String) :
    (ioError message).ok = false := rfl

@[simp] theorem ok_corruption (message : String) :
    (corruption message).ok = false := rfl

@[simp] theorem ok_closed (message : String) :
    (closed message).ok = false := rfl

@[simp] theorem ok_thrown (what : String) : (thrown what).ok = false := rfl

end Status

def statusCodeName : StatusCode → String
  | .ok => "OK"
  | .notFound => "NOT_FOUND"
  | .invalidArgument => "INVALID_ARGUMENT"
  | .ioError => "IO_ERROR"
  | .corruption => "CORRUPTION"
  | .closed => "CLOSED"
  | .thrown => "UNKNOWN"

/-- `Status::toString`. -/
def Status.toString (status : Status) : String :=
  if status.ok then
    "OK"
  else
    statusCodeName status.code ++ ": " ++ status.message

/-- A `Result` as its class stores it: a status beside a value. -/
structure StoredResult (T : Type) where
  status : Status
  value : Option T

namespace StoredResult

variable {T : Type}

def success (value : T) : StoredResult T := ⟨.success, some value⟩

def failure (status : Status) : StoredResult T := ⟨status, none⟩

def ok (result : StoredResult T) : Bool := result.status.ok

/-- `take` behind `ensureValue`: the value, or what the exception carries. -/
def take (result : StoredResult T) : Except String T :=
  match result.ok, result.value with
  | true, some value => .ok value
  | _, _ => .error "attempted to access a failed Result"

/-- The stored form of a result. -/
def ofResult : Result T → StoredResult T
  | .ok value => success value
  | .error status => failure status

end StoredResult

end MiniKV
