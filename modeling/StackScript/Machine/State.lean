import StackScript.Console
import StackScript.Host
import StackScript.Program
import StackScript.Scope

/-!
The machine and its state, and the moves that instructions are made of.
-/

namespace StackScript

/-- What a run is of: a program, the functions of its host, and how many instructions it may
dispatch. -/
structure Machine where
  program : Program
  host : Host
  budget : Option Nat

/-- The budget of a machine that is given none. -/
def defaultBudget : Nat := 10_000_000

/-- A call of a function of the program. -/
structure Frame where
  returnTo : Nat
  returns : Option Ty
  deriving DecidableEq, Repr

structure State where
  pc : Nat
  running : Bool
  /-- How many instructions have been dispatched. A counter of 64 bits never comes to its end: no
  run takes that many steps. -/
  steps : Nat
  /-- The pending calls, the last one first. -/
  calls : List Frame
  scopes : Scopes
  /-- Arguments that no call has taken yet, the last one first. -/
  waiting : List Value
  /-- Arguments of the call that is being entered. -/
  incoming : List Value
  /-- The top value of the scope closed last, until it is taken. -/
  result : Option Value
  console : Console
  deriving Repr

/-- The one scope at the start gets the value that the program returns. -/
def State.initial (entry : Nat) (console : Console) : State where
  pc := entry
  running := true
  steps := 0
  calls := []
  scopes := [.new true]
  waiting := []
  incoming := []
  result := none
  console := console

def Machine.start (m : Machine) (console : Console) : State :=
  .initial m.program.entry console

def Machine.view (m : Machine) (s : State) : View :=
  ⟨m.program, s.calls.length, s.scopes.length, s.running⟩

/-- Instructions change the state, also when they fail. -/
abbrev Exec := EStateM Fault State

namespace Exec

def ofExcept {α : Type} : Except Fault α → Exec α
  | .ok a => pure a
  | .error e => throw e

/-- Changes the scopes, unless that fails. -/
def onScopes (f : Scopes → Except Fault Scopes) : Exec Unit := do
  let scopes ← ofExcept (f (← get).scopes)
  modify ({ · with scopes })

/-- A move of the scopes, which are as it left them when it fails. -/
def assign (name : String) (v : Value) (ty : Option Ty) : Exec Unit := fun s =>
  match Scopes.assigning name v ty s.scopes with
  | .ok _ scopes => .ok () { s with scopes }
  | .error f scopes => .error f { s with scopes }

theorem assign_eq (name : String) (v : Value) (ty : Option Ty) :
    assign name v ty = onScopes (·.assign name v ty) := by
  funext s
  have run : onScopes (·.assign name v ty) s =
      (ofExcept (s.scopes.assign name v ty) >>= fun scopes => modify ({ · with scopes })) s := rfl
  rw [assign, Scopes.assigning_eq_assign, run]
  cases s.scopes.assign name v ty <;> rfl

def push (v : Value) : Exec Unit := onScopes (·.push v)

def pop : Exec Value := do
  let (v, scopes) ← ofExcept (← get).scopes.pop
  modify ({ · with scopes })
  return v

def closeScope : Exec Scope := do
  let (scope, scopes) ← ofExcept (← get).scopes.close
  modify ({ · with scopes })
  return scope

def lookup (name : String) : Exec Value := do
  ofExcept ((← get).scopes.lookup name)

/-- Takes the last result, which is gone then. -/
def takeResult : Exec Value := do
  match (← get).result with
  | some v =>
    modify ({ · with result := none })
    return v
  | none => throw .emptyStack

/-- Takes the next argument of the call that is being entered. -/
def takeIncoming (name : String) : Exec Value := do
  match (← get).incoming with
  | v :: incoming =>
    modify ({ · with incoming })
    return v
  | [] => throw (.missingArgument name)

/-- Takes the last `argc` waiting arguments, in the order of the call. -/
def takeArguments (name : String) (argc : Nat) : Exec (List Value) := do
  let waiting := (← get).waiting
  if waiting.length < argc then throw (.missingArgument name)
  modify ({ · with waiting := waiting.drop argc })
  return (waiting.take argc).reverse

end Exec

end StackScript
