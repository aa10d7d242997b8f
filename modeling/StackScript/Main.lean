import StackScript.Load

/-!
The command line: runs the program in a file, or lists its instructions.
-/

namespace StackScript

structure Options where
  file : Option String
  listing : Bool
  unbounded : Bool
  budget : Option Nat

def usage : String :=
  "usage: stackscript FILE [--opcode] [--step-budget N | --unbounded]"

def Options.read : Options → List String → Except String Options
  | o, [] => .ok o
  | o, "--opcode" :: rest => read { o with listing := true } rest
  | o, "--unbounded" :: rest => read { o with unbounded := true } rest
  | o, "--step-budget" :: n :: rest =>
    match n.toNat? with
    | some budget => read { o with budget := some budget } rest
    | none => .error s!"not a number of instructions: {n}"
  | o, file :: rest =>
    match o.file with
    | none => read { o with file := some file } rest
    | some _ => .error s!"unexpected argument: {file}"

/-- The budget that the options ask for. -/
def Options.limit (o : Options) : Option Nat :=
  if o.unbounded then none else some (o.budget.getD defaultBudget)

/-- Does the next instruction call a function of the host that reads input? -/
def Machine.wantsInput (m : Machine) (s : State) : Bool :=
  match m.program.code[s.pc]?.map Instr.op with
  | some (Op.call name _ _) =>
    (name = "readLine" || name = "readInt") && (m.hostFunction? name).isSome
  | _ => false

/-- Gives the console a line of standard input. -/
def feed (s : State) : IO State := do
  let line ← (← IO.getStdin).getLine
  return { s with console := { s.console with unread := s.console.unread ++ Text.bytes line } }

/-- Moves what was written to standard output. -/
def flush (s : State) : IO State := do
  if s.console.written.isEmpty then return s
  let stdout ← IO.getStdout
  stdout.write ⟨s.console.written⟩
  stdout.flush
  return { s with console := { s.console with written := #[] } }

/-- Steps until the machine ends, with standard input and output. -/
partial def interact (m : Machine) (s : State) : IO (Option ExecutionError) := do
  if !s.running then return none
  let s ← if m.wantsInput s && s.console.unread.isEmpty then feed s else pure s
  match m.step s with
  | .ok _ s => interact m (← flush s)
  | .error e s =>
    discard (flush s)
    return some e

def report (message : String) : IO UInt32 := do
  IO.eprintln ("Error: " ++ message)
  return 1

def runFile (o : Options) (file : String) : IO UInt32 := do
  let source ← match ← (IO.FS.readFile file).toBaseIO with
    | .ok source => pure source
    | .error e => return ← report s!"failed to read {file}: {e}"
  match Machine.load source with
  | .error e => report e.message
  | .ok m =>
    if o.listing then
      IO.print m.program.listing
      return 0
    let m := { m with budget := o.limit }
    match ← interact m (m.start (.ofInput [] none)) with
    | none => return 0
    | some e => report e.message

end StackScript

def main (args : List String) : IO UInt32 := do
  match StackScript.Options.read ⟨none, false, false, none⟩ args with
  | .ok o =>
    match o.file, o.unbounded && o.budget.isSome with
    | some file, false => StackScript.runFile o file
    | _, _ =>
      IO.eprintln StackScript.usage
      return 2
  | .error message =>
    IO.eprintln s!"{message}\n{StackScript.usage}"
    return 2
