import StackScript.Console
import StackScript.Fault
import StackScript.Program
import StackScript.Text.Characters

/-!
Functions that the host of a program offers to it. A call hands over its arguments and may get one
value back.
-/

namespace StackScript

/-- What a host function can see of the machine that calls it. -/
structure View where
  program : Program
  calls : Nat
  scopes : Nat
  running : Bool
  deriving DecidableEq, Repr

/-- An answer to a call, for which the machine is looked at and the console may be used. -/
abbrev Reply := View → EStateM HostError Console (Option Value)

/-- An answer from the arguments of a call. -/
abbrev Answer := View → List Value → EStateM HostError Console (Option Value)

/-- What a function does that lets the machine take steps before it answers, as many as it likes
while the machine is running. There is an end to the steps of a visit, but it may be further than
any run goes. -/
inductive Visit
  | answer (answer : Reply)
  /-- Uses the console, and goes on from what it has seen of the machine and of the console. -/
  | use (change : View → Console → Console) (next : View → Console → Visit)
  /-- Lets the machine take a step. If it is the last one, the function answers from how it went. -/
  | step (next : Visit) (ended : Option ExecutionError → Reply)

inductive HostFunction
  | direct (answer : Answer)
  | visiting (visit : List Value → Visit)

/-- Lets the machine take one step and answers from how that went. -/
def HostFunction.stepping
    (answer : List Value → Option ExecutionError → Except HostError (Option Value)) :
    HostFunction :=
  .visiting fun args =>
    .step (.answer fun _ => MonadExcept.ofExcept (answer args none))
      fun error _ => MonadExcept.ofExcept (answer args error)

abbrev Host := List (String × HostFunction)

namespace Host

def get? (h : Host) (name : String) : Option HostFunction := h.lookup name

def contains (h : Host) (name : String) : Bool := (h.get? name).isSome

/-- Offers a function; it takes the place of another one with its name. -/
def register (h : Host) (name : String) (f : HostFunction) : Host :=
  (name, f) :: h.filter (·.1 ≠ name)

/-- Use of the console by a host function. -/
def onConsole {α : Type} (use : EStateM IoError Console α) : EStateM HostError Console α := fun c =>
  match use c with
  | .ok a c => .ok a c
  | .error e c => .error ⟨[e.message]⟩ c

/-- Writes its arguments with blanks between them, and ends the line. -/
def out : Answer := fun _ args => do
  onConsole (Console.write (Value.displayAll args))
  onConsole (Console.write "\n")
  return none

/-- A line of input without the newlines and carriage returns that it ends in. -/
def nextLine : EStateM HostError Console (List Char) := do
  let line ← onConsole Console.readLine
  return Text.dropRightWhile (fun c => c = '\n' || c = '\r') line.toList

/-- Reads a line. -/
def readLine : Answer := fun _ _ => do
  return some (.string (String.ofList (← nextLine)))

/-- Reads a line as an integer; blanks around it do not count. -/
def readInt : Answer := fun _ _ => do
  let text := Text.trim (← nextLine)
  match Integer.read text with
  | .ok n => return some (.int n)
  | .error cause =>
    throw ⟨["expected an integer, got " ++ Text.quoted (String.ofList text), cause.message]⟩

/-- The functions that programs can rely on. -/
def standard : Host :=
  [("out", .direct out), ("readLine", .direct readLine), ("readInt", .direct readInt)]

end Host

end StackScript
