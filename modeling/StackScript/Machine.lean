import StackScript.Arithmetic
import StackScript.Machine.State
import StackScript.Program.Emit

/-!
The machine. A step fetches an instruction, counts it and executes it; a fault stops the machine.

* `Machine.step` is one step, from any state.
* `Machine.runFor` is steps while the machine is running, up to a number of them.
* `Machine.run` is a run, of a machine that has not ended.
-/

namespace StackScript

/-- How steps end: in a state, and maybe with an error. -/
abbrev StepResult := EStateM.Result ExecutionError State Unit

inductive RunError
  | alreadyEnded
  | execution (error : ExecutionError)
  deriving DecidableEq, Repr

def RunError.message : RunError → String
  | alreadyEnded => "Program is already ended."
  | execution error => error.message

namespace Machine

def jump (m : Machine) (label : String) : Exec Unit := do
  match m.program.resolve label with
  | some pc => modify ({ · with pc })
  | none => throw (.unresolvedLabel label)

/-- The variable of a range loop and its bound. -/
def rangeBounds (name : String) : Exec (Int64 × Int64) := do
  let current ← int name
  let last ← int (boundName name)
  return (current, last)
where
  int (name : String) : Exec Int64 := do
    match ← Exec.lookup name with
    | .int n => return n
    | other => throw (.typeMismatch .int other.ty)

/-- What the host's answer does to the state of the machine. -/
def answered (name : String) : Except HostError (Option Value) → Exec Unit
  | .ok (some v) => Exec.push v
  | .ok none => return ()
  | .error e => throw (.host name e)

/-- Takes the answer to a call. -/
def reply (m : Machine) (name : String) (answer : Reply) : Exec Unit := fun s =>
  match answer (m.view s) s.console with
  | .ok v console => answered name (.ok v) { s with console }
  | .error e console => answered name (.error e) { s with console }

/-- Receives a visit, whose steps are taken by `inner`. -/
def visit (m : Machine) (inner : State → StepResult) (name : String) : Visit → Exec Unit
  | .answer answer => m.reply name answer
  | .use change next => fun s =>
    visit m inner name (next (m.view s) s.console)
      { s with console := change (m.view s) s.console }
  | .step next ended => fun s =>
    match inner s with
    | .ok _ s => if s.running then visit m inner name next s else m.reply name (ended none) s
    | .error e s => m.reply name (ended (some e)) s

/-- Calls a function of the host. -/
def callHost (m : Machine) (inner : State → StepResult) (name : String) (f : HostFunction)
    (args : List Value) : Exec Unit :=
  match f with
  | .direct answer => m.reply name (answer · args)
  | .visiting visit => m.visit inner name (visit args)

/-- The function of the host that a call of this name goes to. Those of the program come first. -/
def hostFunction? (m : Machine) (name : String) : Option HostFunction :=
  match m.program.resolve (Label.function name) with
  | some _ => none
  | none => m.host.get? name

/-- Enters a function of the program. -/
def callFunction (m : Machine) (name : String) (argc : Nat) (returns : Option Ty) :
    Exec Unit := do
  match m.program.resolve (Label.function name) with
  | none => throw (.unresolvedLabel (Label.function name))
  | some target =>
    let incoming ← Exec.takeArguments name argc
    modify fun s => { s with
      incoming
      calls := ⟨s.pc, returns⟩ :: s.calls
      pc := target
      scopes := s.scopes.opened true }

/-- What an instruction does once it is counted and the program counter is past it. -/
def execute (m : Machine) (inner : State → StepResult) : Op → Exec Unit
  | .marker _ => return ()
  | .bindArg ty name => do
    let v ← Exec.takeIncoming name
    Exec.assign name v (some ty)
  | .assign ty name => do
    let v ← Exec.takeResult
    Exec.assign name v ty
  | .assignItem name => do
    let v ← Exec.takeResult
    let index ← Exec.pop
    let items ← Exec.ofExcept ((← get).scopes.items name)
    let i ← Exec.ofExcept (elementIndex index items.length)
    modify fun s => { s with scopes := s.scopes.setItems name (items.set i v) }
  | .ret => do
    discard Exec.closeScope
    match (← get).calls with
    | frame :: calls => modify ({ · with calls, pc := frame.returnTo })
    | [] => throw .unexpectedReturn
  | .handBack => do
    let v ← Exec.takeResult
    if let some ty := (← get).calls.head?.bind Frame.returns then
      Exec.ofExcept (v.check ty)
    Exec.onScopes (·.pushBelow v)
  | .openScope => modify fun s => { s with scopes := s.scopes.opened false }
  | .closeScope => do
    let scope ← Exec.closeScope
    modify ({ · with result := scope.result })
  | .push value => Exec.push value.toValue
  | .load name => do
    Exec.push (← Exec.lookup name)
  | .pushResult => do
    Exec.push (← Exec.takeResult)
  | .apply op => do
    let rhs ← Exec.pop
    let lhs ← Exec.pop
    Exec.push (← Exec.ofExcept (op.apply lhs rhs))
  | .passArg => do
    let v ← Exec.takeResult
    modify fun s => { s with waiting := v :: s.waiting }
  | .call name argc returns => do
    match m.hostFunction? name with
    | some f => m.callHost inner name f (← Exec.takeArguments name argc)
    | none => m.callFunction name argc returns
  | .jumpUnless _ label => do
    match ← Exec.takeResult with
    | .bool true => return ()
    | .bool false => m.jump label
    | other => throw (.typeMismatch .bool other.ty)
  | .jump label => m.jump label
  | .rangeTest name label => do
    let (current, last) ← rangeBounds name
    if current = last then m.jump label
  | .rangeStep name label => do
    let (current, last) ← rangeBounds name
    Exec.assign name (.int (stepToward current last)) none
    m.jump label
  | .emptyArray => Exec.push (.array [])
  | .append => do
    let item ← Exec.takeResult
    match ← Exec.pop with
    | .array items => Exec.push (.array (items ++ [item]))
    | other => throw (.typeMismatch .array other.ty)
  | .loadItem name => do
    let index ← Exec.takeResult
    match ← Exec.lookup name with
    | .array items =>
      let i ← Exec.ofExcept (elementIndex index items.length)
      Exec.push items[i]
    | other => throw (.typeMismatch .array other.ty)
  | .exit => modify ({ · with running := false })

/-- The budget, if this many instructions use it up. -/
def exhausted? (m : Machine) (steps : Nat) : Option Nat :=
  m.budget.filter (· ≤ steps)

/-- Counts an instruction and executes it. -/
def dispatch (m : Machine) (inner : State → StepResult) (i : Instr) (s : State) : StepResult :=
  match m.exhausted? s.steps with
  | some budget => .error ⟨i.pos, .budgetExhausted budget⟩ { s with running := false }
  | none =>
    match m.execute inner i.op { s with steps := s.steps + 1, pc := s.pc + 1 } with
    | .ok _ s => .ok () s
    | .error fault s => .error ⟨i.pos, fault⟩ { s with running := false }

/-- How deep functions of the host step the machine inside one another. No stack of a host holds as
many of them, so what the machine does beyond this depth, which is to stop, is never seen. -/
def nesting : Nat := 4_294_967_296

/-- A step in which functions of the host step the machine at most `depth` deep. -/
def stepWithin (m : Machine) : Nat → State → StepResult
  | 0, s => .ok () { s with running := false }
  | depth + 1, s =>
    match m.program.code[s.pc]? with
    | none => .ok () { s with running := false }
    | some i => m.dispatch (stepWithin m depth) i s

/-- Dispatches the next instruction, whether the machine is running or not. -/
def step (m : Machine) (s : State) : StepResult :=
  m.stepWithin nesting s

/-- Where there is an instruction, a step dispatches it. -/
theorem step_eq_dispatch {m : Machine} {s : State} {i : Instr}
    (h : m.program.code[s.pc]? = some i) :
    m.step s = m.dispatch (m.stepWithin (nesting - 1)) i s := by
  have deep : nesting = nesting - 1 + 1 := rfl
  rw [step, deep, stepWithin, h]
  rfl

/-- A step off the end of the program only stops the machine. -/
theorem step_eq_of_size_le {m : Machine} {s : State} (h : m.program.code.size ≤ s.pc) :
    m.step s = .ok () { s with running := false } := by
  have deep : nesting = nesting - 1 + 1 := rfl
  rw [step, deep, stepWithin, Array.getElem?_eq_none h]

/-- Steps while the machine is running, at most this many. -/
def runFor (m : Machine) : Nat → State → StepResult
  | 0, s => .ok () s
  | n + 1, s =>
    if s.running then
      match m.step s with
      | .ok _ s => runFor m n s
      | .error e s => .error e s
    else .ok () s

/-- How many steps a run from this state can take: one for each instruction that the budget leaves,
and one that finds it used up. -/
def stepsLeft? (m : Machine) (s : State) : Option Nat :=
  m.budget.map (· - s.steps + 1)

/-- Runs a machine that has not ended, for at most `fuel` steps. The console takes what is written
at once, so there is nothing to flush behind the last step, and no error of a flush. -/
def run (m : Machine) (fuel : Nat) (s : State) : EStateM.Result RunError State Unit :=
  if s.running then
    match m.runFor fuel s with
    | .ok _ s => .ok () s
    | .error e s => .error (.execution e) s
  else .error .alreadyEnded s

end Machine

end StackScript
