import StackScript.Fault

/-!
The scopes of a running program. Each call opens a final scope and each expression one of its own.
A variable is looked for from the innermost scope outward up to the nearest final one, so a function
never sees the variables of its caller.
-/

namespace StackScript

/-- A variable's value and the type it was declared with. -/
structure Binding where
  value : Value
  ty : Ty
  deriving Repr

/-- The stack has its top first, and each variable occurs once. -/
structure Scope where
  stack : List Value
  vars : List (String × Binding)
  final : Bool
  deriving Repr

def Scope.new (final : Bool) : Scope := ⟨[], [], final⟩

namespace Scope

def push (s : Scope) (v : Value) : Scope :=
  { s with stack := v :: s.stack }

def pop (s : Scope) : Except Fault (Value × Scope) :=
  match s.stack with
  | v :: stack => .ok (v, { s with stack })
  | [] => .error .emptyStack

/-- The value that outlives the scope. -/
def result (s : Scope) : Option Value := s.stack.head?

def get? (s : Scope) (name : String) : Option Binding := s.vars.lookup name

/-- Gives a variable another binding. -/
def replace (s : Scope) (name : String) (b : Binding) : Scope :=
  { s with vars := s.vars.map fun v => if v.1 = name then (name, b) else v }

/-- Adds a variable that was not there. -/
def declare (s : Scope) (name : String) (b : Binding) : Scope :=
  { s with vars := (name, b) :: s.vars }

end Scope

def Value.check (v : Value) (ty : Ty) : Except Fault Unit :=
  if v.ty = ty then .ok () else .error (.typeMismatch ty v.ty)

/-- The scopes of a run, the innermost first. -/
abbrev Scopes := List Scope

namespace Scopes

def opened (ss : Scopes) (final : Bool) : Scopes := Scope.new final :: ss

def close (ss : Scopes) : Except Fault (Scope × Scopes) :=
  match ss with
  | s :: rest => .ok (s, rest)
  | [] => .error .noActiveScope

def current (ss : Scopes) : Except Fault Scope :=
  match ss with
  | s :: _ => .ok s
  | [] => .error .noActiveScope

def push (ss : Scopes) (v : Value) : Except Fault Scopes :=
  match ss with
  | s :: rest => .ok (s.push v :: rest)
  | [] => .error .noActiveScope

def pop (ss : Scopes) : Except Fault (Value × Scopes) :=
  match ss with
  | s :: rest => do
    let (v, s) ← s.pop
    return (v, s :: rest)
  | [] => .error .noActiveScope

/-- Pushes onto the scope around the innermost one. -/
def pushBelow (ss : Scopes) (v : Value) : Except Fault Scopes :=
  match ss with
  | s :: below :: rest => .ok (s :: below.push v :: rest)
  | _ => .error .noActiveScope

/-- Pops from the scope around the innermost one. -/
def popBelow (ss : Scopes) : Except Fault (Value × Scopes) :=
  match ss with
  | s :: below :: rest => do
    let (v, below) ← below.pop
    return (v, s :: below :: rest)
  | _ => .error .noActiveScope

/-- The innermost visible binding of a name. -/
def get? : Scopes → String → Option Binding
  | [], _ => none
  | s :: rest, name =>
    match s.get? name with
    | some b => some b
    | none => if s.final then none else get? rest name

/-- Gives the innermost visible variable of a name another binding. -/
def replace : Scopes → String → Binding → Scopes
  | [], _, _ => []
  | s :: rest, name, b =>
    if (s.get? name).isSome then s.replace name b :: rest
    else if s.final then s :: rest
    else s :: replace rest name b

def lookup (ss : Scopes) (name : String) : Except Fault Value :=
  match ss.get? name with
  | some b => .ok b.value
  | none => .error (.undeclaredVariable name)

/-- Adds a variable to the innermost scope. -/
def declare (ss : Scopes) (name : String) (b : Binding) : Except Fault Scopes :=
  match ss with
  | s :: rest => .ok (s.declare name b :: rest)
  | [] => .error .noActiveScope

/-- Binds a name to a value. A visible variable is overwritten where it is, and keeps its type if
none is given. Otherwise a type is needed, and the innermost scope gets a new variable. -/
def assigning (name : String) (value : Value) (ty : Option Ty) : EStateM Fault Scopes Unit := do
  match (← get).get? name, ty with
  | some b, ty =>
    let ty := ty.getD b.ty
    MonadExcept.ofExcept (value.check ty)
    modify (·.replace name ⟨value, ty⟩)
  | none, some ty =>
    MonadExcept.ofExcept (value.check ty)
    set (← MonadExcept.ofExcept ((← get).declare name ⟨value, ty⟩))
  | none, none => throw (.undeclaredVariable name)

/-- Nothing is bound before everything is checked. -/
theorem assigning_eq (name : String) (value : Value) (ty : Option Ty) (ss : Scopes) :
    assigning name value ty ss = match ss.get? name, ty with
      | some b, ty =>
        match value.check (ty.getD b.ty) with
        | .ok _ => .ok () (ss.replace name ⟨value, ty.getD b.ty⟩)
        | .error f => .error f ss
      | none, some ty =>
        match value.check ty with
        | .ok _ =>
          match ss.declare name ⟨value, ty⟩ with
          | .ok ss' => .ok () ss'
          | .error f => .error f ss
        | .error f => .error f ss
      | none, none => .error (.undeclaredVariable name) ss := by
  have run {β : Type} (f : Scopes → EStateM Fault Scopes β) : (get >>= f) ss = f ss ss := rfl
  rw [assigning, run]
  cases ss.get? name with
  | some b =>
    dsimp only
    cases value.check (ty.getD b.ty) <;> rfl
  | none =>
    cases ty with
    | none => rfl
    | some ty =>
      dsimp only
      cases value.check ty
      · rfl
      · cases ss <;> rfl

/-- The scopes behind an assignment. -/
def assign (ss : Scopes) (name : String) (value : Value) (ty : Option Ty) : Except Fault Scopes :=
  match assigning name value ty ss with
  | .ok _ ss => .ok ss
  | .error f _ => .error f

theorem assign_eq (ss : Scopes) (name : String) (value : Value) (ty : Option Ty) :
    ss.assign name value ty = match ss.get? name, ty with
      | some b, ty => do
        value.check (ty.getD b.ty)
        return ss.replace name ⟨value, ty.getD b.ty⟩
      | none, some ty => do
        value.check ty
        ss.declare name ⟨value, ty⟩
      | none, none => .error (.undeclaredVariable name) := by
  rw [assign, assigning_eq]
  cases ss.get? name with
  | some b => cases h : value.check (ty.getD b.ty) <;> simp only [h] <;> rfl
  | none =>
    cases ty with
    | none => rfl
    | some ty =>
      cases hc : value.check ty <;> simp only [hc]
      · rfl
      · cases ss <;> rfl

/-- A binding that fails leaves the scopes as they are. -/
theorem assigning_eq_assign (name : String) (value : Value) (ty : Option Ty) (ss : Scopes) :
    assigning name value ty ss = match ss.assign name value ty with
      | .ok ss' => .ok () ss'
      | .error f => .error f ss := by
  rw [assign, assigning_eq]
  cases ss.get? name with
  | some b => cases h : value.check (ty.getD b.ty) <;> simp only [h]
  | none =>
    cases ty with
    | none => rfl
    | some ty =>
      cases hc : value.check ty <;> simp only [hc]
      cases ss <;> rfl

/-- The items of a visible array. -/
def items (ss : Scopes) (name : String) : Except Fault (List Value) :=
  match ss.get? name with
  | some ⟨.array items, _⟩ => .ok items
  | some b => .error (.typeMismatch .array b.value.ty)
  | none => .error (.undeclaredVariable name)

/-- Gives a visible array other items. -/
def setItems (ss : Scopes) (name : String) (items : List Value) : Scopes :=
  match ss.get? name with
  | some b => ss.replace name { b with value := .array items }
  | none => ss

end Scopes

end StackScript
