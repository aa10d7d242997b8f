import StackScript.Machine
import StackScript.Program.Emit
import StackScript.Syntax.Parser

/-!
From functions to a program, and from source text to a machine that is ready to run. Calls go to the
functions of the program first and to those of the host second.
-/

namespace StackScript

/-- The function that a program starts in. -/
def entryPoint : String := "main"

/-- The signature of the function with this name. -/
def signatures (functions : List Function) : Signatures := fun name =>
  (functions.find? (·.name = name)).map Function.signature

/-- The first name that stands behind another occurrence of itself. -/
def firstRepeated? : List String → List String → Option String
  | _, [] => none
  | seen, name :: names =>
    if name ∈ seen then some name else firstRepeated? (name :: seen) names

/-- What is wrong with a call. -/
def callError? (sigs : Signatures) (isHost : String → Bool) (i : Instr) : Option CompileError :=
  match i.op with
  | .call name argc _ =>
    match sigs name with
    | some sig => if sig.arity = argc then none else some (.arityMismatch name sig.arity argc)
    | none => if isHost name then none else some (.unresolvedCall name)
  | _ => none

/-- Calls the function that the program starts in, and ends. -/
def startCode (sigs : Signatures) : List Instr :=
  callCode sigs .none entryPoint [] ++ [.plain .exit .none]

/-- Appends the code of a function, whose label has to be new. -/
def Program.pushFunction (sigs : Signatures) (p : Program) (f : Function) :
    Except CompileError Program := do
  if (p.resolve (Label.function f.name)).isSome then
    throw (.duplicateFunction f.name)
  p.pushAll (f.code sigs p.code.size)

/-- The program of these functions on a host with functions of the names `isHost`. The first call
that cannot be made is reported once all code is there. -/
def compile (functions : List Function) (isHost : String → Bool) :
    Except CompileError Program := do
  if let some name := firstRepeated? [] (functions.map (·.name)) then
    throw (.duplicateFunction name)
  let sigs := signatures functions
  if (sigs entryPoint).isNone then
    throw .missingEntryPoint
  let declared ← functions.foldlM (Program.pushFunction sigs) .empty
  let program ← declared.pushAll (startCode sigs)
  if let some error := program.code.toList.findSome? (callError? sigs isHost) then
    throw error
  return { program with entry := declared.code.size }

inductive LoadError
  | parse (error : ParseError)
  | compile (error : CompileError)
  deriving DecidableEq, Repr

def LoadError.message : LoadError → String
  | parse error => error.message
  | compile error => error.message

/-- The program of a source text for this host. -/
def Program.ofText (source : String) (host : Host) : Except LoadError Program := do
  let functions ← (parse source).mapError .parse
  (StackScript.compile functions host.contains).mapError .compile

/-- A machine for a source text, with the standard functions and the default budget. -/
def Machine.load (source : String) : Except LoadError Machine := do
  return ⟨← Program.ofText source .standard, .standard, some defaultBudget⟩

end StackScript
