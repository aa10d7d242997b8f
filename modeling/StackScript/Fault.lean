import StackScript.Position
import StackScript.Value

/-!
What goes wrong while a program runs.
-/

namespace StackScript

/-- The error of a host function: a message, then what caused it, and so on. -/
structure HostError where
  causes : List String
  deriving DecidableEq, Repr

def HostError.message (e : HostError) : String :=
  ": ".intercalate e.causes

inductive Fault
  | undeclaredVariable (name : String)
  | typeMismatch (expected got : Ty)
  | divisionByZero
  | overflow
  | indexOutOfRange (index : Int64) (length : Nat)
  | unresolvedLabel (label : String)
  | emptyStack
  | missingArgument (name : String)
  | unexpectedReturn
  | noActiveScope
  | budgetExhausted (budget : Nat)
  | host (name : String) (error : HostError)
  deriving DecidableEq, Repr

def Fault.message : Fault → String
  | undeclaredVariable name => s!"undeclared variable: {name}"
  | typeMismatch expected got => s!"type mismatch: expected {expected.name}, got {got.name}"
  | divisionByZero => "division by zero"
  | overflow => "integer overflow"
  | indexOutOfRange index length =>
    s!"index {Integer.text index} is out of range (length {length})"
  | unresolvedLabel label => s!"can't find label: {label}"
  | emptyStack => "expression stack is empty"
  | missingArgument name => s!"missing argument: {name}"
  | unexpectedReturn => "return outside of a function call"
  | noActiveScope => "no active scope"
  | budgetExhausted budget => s!"step budget of {budget} instructions exhausted"
  | host name error => s!"{name}: {error.message}"

/-- A fault at the place of the instruction that raised it. -/
structure ExecutionError where
  pos : Position
  fault : Fault
  deriving DecidableEq, Repr

def ExecutionError.message (e : ExecutionError) : String :=
  s!"{e.pos.text}: {e.fault.message}"

end StackScript
