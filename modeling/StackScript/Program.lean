import StackScript.Instr

/-!
Programs of the machine: instructions, the table of their labels, and where to start.
-/

namespace StackScript

/-- Why no program can be built. -/
inductive CompileError
  | duplicateFunction (name : String)
  | unresolvedCall (name : String)
  | missingEntryPoint
  | arityMismatch (name : String) (expected got : Nat)
  | duplicateLabel (label : String)
  deriving DecidableEq, Repr

def CompileError.message : CompileError → String
  | duplicateFunction name => s!"function {name} is already declared"
  | unresolvedCall name => s!"can't find {name} function"
  | missingEntryPoint => "could not find the entry point (main)"
  | arityMismatch name expected got => s!"function {name} expects {expected} arguments, got {got}"
  | duplicateLabel label => s!"label {label} is already bound"

structure Program where
  code : Array Instr
  labels : List (String × Nat)
  entry : Nat
  deriving DecidableEq, Repr

namespace Program

def empty : Program := ⟨#[], [], 0⟩

/-- The index of the instruction a label is bound to. -/
def resolve (p : Program) (label : String) : Option Nat :=
  p.labels.lookup label

/-- Binds a label, whatever it was bound to before. -/
def bind (p : Program) (label : String) (index : Nat) : Program :=
  { p with labels := (label, index) :: p.labels.filter (·.1 ≠ label) }

/-- Appends an instruction and binds its label, which has to be new. -/
def pushing (i : Instr) : EStateM CompileError Program Unit := do
  if let some label := i.label then
    if ((← get).resolve label).isSome then
      throw (.duplicateLabel label)
    modify fun p => { p with labels := (label, p.code.size) :: p.labels }
  modify fun p => { p with code := p.code.push i }

/-- A label that is bound already leaves the program as it is. -/
theorem pushing_eq (i : Instr) (p : Program) : pushing i p = match i.label with
    | none => .ok () { p with code := p.code.push i }
    | some label =>
      if (p.resolve label).isSome then .error (.duplicateLabel label) p
      else .ok () { p with code := p.code.push i, labels := (label, p.code.size) :: p.labels } := by
  rcases i with ⟨op, _ | label, pos⟩
  · rfl
  · change (ite ((p.resolve label).isSome = true) _ _ : EStateM _ _ _) p = ite _ _ _
    split <;> rfl

/-- The program with one instruction more. -/
def push (p : Program) (i : Instr) : Except CompileError Program :=
  match pushing i p with
  | .ok _ p => .ok p
  | .error e _ => .error e

theorem push_eq (p : Program) (i : Instr) : p.push i = match i.label with
    | none => .ok { p with code := p.code.push i }
    | some label =>
      if (p.resolve label).isSome then .error (.duplicateLabel label)
      else .ok { p with code := p.code.push i, labels := (label, p.code.size) :: p.labels } := by
  rw [push, pushing_eq]
  rcases i with ⟨op, _ | label, pos⟩
  · rfl
  · cases h : (p.resolve label).isSome <;> simp [h]

/-- Appends instructions from the left. -/
def pushAll (p : Program) (code : List Instr) : Except CompileError Program :=
  code.foldlM push p

/-- The texts of the instructions, with a newline behind each. -/
def listing (p : Program) : String :=
  String.join (p.code.toList.map fun i => i.text ++ "\n")

end Program

end StackScript
