import StackScript.Arithmetic
import StackScript.Host
import StackScript.Program.Emit
import StackScript.Scope

/-!
# What programs mean

An evaluator that follows the tree of a program and knows no instructions.

* `Env`: an activation has one flat table of variables, empty at entry;
* `Expr.eval`: an expression has a value of its own, unless it is a call without one;
* `Stmt.exec`: a statement, for any way in which its expressions get their values;
* `rounds`: a loop, for a bounded number of rounds;
* `invoke`: a call, for a bounded depth of calls;
* `meaning?`: how a program ends, if the bound lets it.
-/

namespace StackScript

/-- How an evaluation ends. -/
inductive Outcome (α : Type)
  | done (a : α) (console : Console)
  | fault (error : ExecutionError) (console : Console)
  /-- The operator at this place is without an operand. -/
  | lacks (pos : Position) (console : Console)
  /-- The bound on rounds and calls is used up. -/
  | exhausted

/-- Evaluation uses the console. -/
abbrev Eval (α : Type) := Console → Outcome α

namespace Eval

def andThen {α β : Type} (x : Eval α) (f : α → Eval β) : Eval β := fun c =>
  match x c with
  | .done a c => f a c
  | .fault e c => .fault e c
  | .lacks pos c => .lacks pos c
  | .exhausted => .exhausted

instance : Monad Eval where
  pure a c := .done a c
  bind := andThen

theorem run_bind {α β : Type} (x : Eval α) (f : α → Eval β) (c : Console) :
    (x >>= f) c = match x c with
      | .done a c => f a c
      | .fault e c => .fault e c
      | .lacks pos c => .lacks pos c
      | .exhausted => .exhausted := rfl

instance : LawfulMonad Eval :=
  .mk' _
    (fun x => by
      funext c
      change (x >>= fun a => pure a) c = x c
      rw [run_bind]
      cases x c <;> rfl)
    (fun _ _ => rfl)
    (fun x f g => by
      funext c
      rw [run_bind, run_bind, run_bind]
      cases x c <;> rfl)

theorem discard_bind {α β : Type} (x : Eval α) (f : Unit → Eval β) :
    (discard x >>= f) = x >>= fun _ => f () := by
  change ((Function.const α () <$> x) >>= f) = _
  rw [← bind_pure_comp, bind_assoc]
  rfl

theorem bind_eq_done {α β : Type} {x : Eval α} {f : α → Eval β} {b : β} {c c' : Console} :
    (x >>= f) c = .done b c' ↔ ∃ a d, x c = .done a d ∧ f a d = .done b c' := by
  rw [run_bind]
  cases x c with
  | done a d =>
    constructor
    · exact fun h => ⟨a, d, rfl, h⟩
    · rintro ⟨_, _, ⟨⟩, h⟩
      exact h
  | _ => simp

def exhausted {α : Type} : Eval α := fun _ => .exhausted

/-- Fails at this place. -/
def fault {α : Type} (pos : Position) (f : Fault) : Eval α := fun c => .fault ⟨pos, f⟩ c

def lacks {α : Type} (pos : Position) : Eval α := fun c => .lacks pos c

def ofExcept {α : Type} (pos : Position) : Except Fault α → Eval α
  | .ok a => pure a
  | .error f => fault pos f

/-- A value that has to be there. -/
def needed (pos : Position) : Option Value → Eval Value
  | some v => pure v
  | none => fault pos .emptyStack

end Eval

namespace Value

def toInt : Value → Except Fault Int64
  | .int n => .ok n
  | other => .error (.typeMismatch .int other.ty)

def toBool : Value → Except Fault Bool
  | .bool b => .ok b
  | other => .error (.typeMismatch .bool other.ty)

def toItems : Value → Except Fault (List Value)
  | .array items => .ok items
  | other => .error (.typeMismatch .array other.ty)

end Value

/-! ## Variables -/

abbrev Env := String → Option Binding

namespace Env

def empty : Env := fun _ => none

def bind (env : Env) (name : String) (b : Binding) : Env := fun other =>
  if other = name then some b else env other

def lookup (env : Env) (name : String) : Except Fault Value :=
  match env name with
  | some b => .ok b.value
  | none => .error (.undeclaredVariable name)

/-- A type that is given becomes that of the variable. Without one the variable is there and keeps
its own. -/
def assign (env : Env) (name : String) (v : Value) (ty : Option Ty) : Except Fault Env :=
  match ty <|> (env name).map Binding.ty with
  | some ty => do
    v.check ty
    return env.bind name ⟨v, ty⟩
  | none => .error (.undeclaredVariable name)

def items (env : Env) (name : String) : Except Fault (List Value) := do
  (← env.lookup name).toItems

def item (env : Env) (name : String) (index : Value) : Except Fault Value := do
  let items ← env.items name
  let i ← elementIndex index items.length
  return items.get i

/-- Gives a variable another value of its type. -/
def update (env : Env) (name : String) (v : Value) : Env := fun other =>
  if other = name then (env name).map ({ · with value := v }) else env other

def assignItem (env : Env) (name : String) (index v : Value) : Except Fault Env := do
  let items ← env.items name
  let i ← elementIndex index items.length
  return env.update name (.array (items.set i v))

def int (env : Env) (name : String) : Except Fault Int64 := do
  (← env.lookup name).toInt

/-- The variable of a range loop and its bound. -/
def range (env : Env) (name : String) : Except Fault (Int64 × Int64) := do
  let current ← env.int name
  let last ← env.int (boundName name)
  return (current, last)

end Env

/-! ## Expressions -/

/-- A call from a place: a function name and arguments, and the value it may give. -/
abbrev Calls := Position → String → List Value → Eval (Option Value)

/-- An operator is applied to the values of its two operands. -/
def Operator.eval (op : Operator) (pos : Position) : Option Value → Option Value →
    Eval (Option Value)
  | some l, some r => do return some (← Eval.ofExcept pos (op.apply l r))
  | _, _ => Eval.lacks pos

mutual

/-- The value of an expression. Only a call may have none. -/
def Expr.eval (call : Calls) (env : Env) : Expr → Eval (Option Value)
  | .binary pos op lhs rhs => do
    let l ← lhs.eval call env
    let r ← rhs.eval call env
    op.eval pos l r
  | .literal _ value => return some value.toValue
  | .var pos name => return some (← Eval.ofExcept pos (env.lookup name))
  | .call _ site name args => do
    call site name (← evalArgs call env site args)
  | .index pos name index => do
    let i ← Eval.needed pos (← index.eval call env)
    return some (← Eval.ofExcept pos (env.item name i))
  | .array _ items => return some (.array (← evalItems call env items))
  | .paren _ inner => inner.eval call env

/-- The arguments of a call, from the left. -/
def evalArgs (call : Calls) (env : Env) (site : Position) : List Expr → Eval (List Value)
  | [] => return []
  | e :: es => do
    let v ← Eval.needed site (← e.eval call env)
    return v :: (← evalArgs call env site es)

/-- The items of an array, from the left. -/
def evalItems (call : Calls) (env : Env) : List Expr → Eval (List Value)
  | [] => return []
  | e :: es => do
    let v ← Eval.needed e.pos (← e.eval call env)
    return v :: (← evalItems call env es)

end

/-- How the expressions of an activation get their values. -/
abbrev Values := Env → Expr → Eval (Option Value)

namespace Values

/-- The value of an expression for a statement at this place. -/
def needed (value : Values) (pos : Position) (e : Expr) (env : Env) : Eval Value := do
  Eval.needed pos (← value env e)

/-- The value of a condition for a statement at this place. -/
def test (value : Values) (pos : Position) (e : Expr) (env : Env) : Eval Bool := do
  let v ← value.needed pos e env
  Eval.ofExcept pos v.toBool

end Values

/-! ## Statements -/

/-- How a statement ends that does not fail: with variables, or by returning from its function. -/
inductive Exit
  | next (env : Env)
  | returned (v : Option Value)

/-- Goes on with the variables, unless the function has returned. -/
def Exit.next? (x : Exit) (f : Env → Eval Exit) : Eval Exit :=
  match x with
  | .next env => f env
  | .returned v => return .returned v

/-- A loop, with this many rounds left. -/
def rounds (test : Env → Eval Bool) (body : Env → Eval Exit) : Nat → Env → Eval Exit
  | 0, _ => Eval.exhausted
  | n + 1, env => do
    if ← test env then (← body env).next? (rounds test body n) else return .next env

namespace Range

/-- A range loop goes on until the variable is its bound. -/
def test (pos : Position) (name : String) (env : Env) : Eval Bool := do
  let (current, last) ← Eval.ofExcept pos (env.range name)
  return current ≠ last

/-- The end of a round moves the variable toward its bound. -/
def step (pos : Position) (name : String) (env : Env) : Eval Exit := do
  let (current, last) ← Eval.ofExcept pos (env.range name)
  let env ← Eval.ofExcept pos (env.assign name (.int (stepToward current last)) none)
  return .next env

end Range

mutual

/-- A statement of a function with this return type. -/
def Stmt.exec (value : Values) (returns : Option Ty) (fuel : Nat) : Stmt → Env → Eval Exit
  | .cond pos test body, env => do
    if ← value.test pos test env then execBody value returns fuel body env
    else return .next env
  | .loop pos test body, env =>
    rounds (value.test pos test) (execBody value returns fuel body) fuel env
  | .count pos init test step body, env => do
    let init ← init.exec value returns fuel env
    init.next? <| rounds (value.test pos test)
      (fun env => do
        let round ← execBody value returns fuel body env
        round.next? (step.exec value returns fuel))
      fuel
  | .range pos first last name body, env => do
    let v ← value.needed pos first env
    let env ← Eval.ofExcept pos (env.assign name v (some .int))
    let v ← value.needed pos last env
    let env ← Eval.ofExcept pos (env.assign (boundName name) v (some .int))
    rounds (Range.test pos name)
      (fun env => do
        let round ← execBody value returns fuel body env
        round.next? (Range.step pos name))
      fuel env
  | .ret _ none, _ => return .returned none
  | .ret pos (some e), env => do
    let v ← value.needed pos e env
    Eval.ofExcept pos (returns.elim (.ok ()) v.check)
    return .returned (some v)
  | .assignItem pos name index e, env => do
    let i ← value.needed pos index env
    let v ← value.needed pos e env
    return .next (← Eval.ofExcept pos (env.assignItem name i v))
  | .assign pos ty name e, env => do
    let v ← value.needed pos e env
    return .next (← Eval.ofExcept pos (env.assign name v ty))
  | .call pos site name args, env => do
    discard <| value env (.call pos site name args)
    return .next env
  | .expr _ e, env => do
    discard <| value env e
    return .next env

def execBody (value : Values) (returns : Option Ty) (fuel : Nat) : List Stmt → Env → Eval Exit
  | [], env => return .next env
  | s :: ss, env => do
    let first ← s.exec value returns fuel env
    first.next? (execBody value returns fuel ss)

end

theorem Exit.next?_eq_next {x : Exit} {f : Env → Eval Exit} {env : Env} {c c' : Console}
    (h : x.next? f c = .done (.next env) c') :
    ∃ env', x = .next env' ∧ f env' c = .done (.next env) c' := by
  cases x with
  | next env' => exact ⟨env', rfl, h⟩
  | returned v => cases h

theorem Stmt.exec_ret_ne_next {value : Values} {returns : Option Ty} {fuel : Nat} {pos : Position}
    {e : Option Expr} {env env' : Env} {c c' : Console} :
    (Stmt.ret pos e).exec value returns fuel env c ≠ .done (.next env') c' := by
  intro h
  cases e with
  | none =>
    rw [Stmt.exec] at h
    cases h
  | some e =>
    rw [Stmt.exec] at h
    obtain ⟨v, d, _, h⟩ := Eval.bind_eq_done.1 h
    obtain ⟨_, d, _, h⟩ := Eval.bind_eq_done.1 h
    cases h

/-- A body that ends with a return never runs off its end. -/
theorem execBody_ne_next {value : Values} {returns : Option Ty} {fuel : Nat} {body : List Stmt}
    {pos : Position} {e : Option Expr} (hbody : body.getLast? = some (.ret pos e))
    {env env' : Env} {c c' : Console} :
    execBody value returns fuel body env c ≠ .done (.next env') c' := by
  induction body generalizing env c with
  | nil => cases hbody
  | cons st body ih =>
    intro h
    rw [execBody] at h
    obtain ⟨x, d, hx, h⟩ := Eval.bind_eq_done.1 h
    obtain ⟨next, rfl, h⟩ := Exit.next?_eq_next h
    cases body with
    | nil =>
      rw [List.getLast?_singleton, Option.some.injEq] at hbody
      exact Stmt.exec_ret_ne_next (hbody ▸ hx)
    | cons st' body => exact ih (by simpa using hbody) h

/-! ## Functions and programs -/

/-- Parameters are bound in order, each to an argument of its type. -/
def bindParams : List Parameter → List Value → Env → Eval Env
  | [], _, env => return env
  | p :: ps, v :: vs, env => do
    bindParams ps vs (← Eval.ofExcept p.pos (env.assign p.name v (some p.ty)))
  | p :: _, [], _ => Eval.fault p.pos (.missingArgument p.name)

/-- What a function of the host answers to a call from `site`. It sees nothing of the caller. -/
def askHost (host : Host) : Calls := fun site name args c =>
  match host.get? name with
  | some (.direct answer) =>
    match answer ⟨.empty, 0, 0, true⟩ args c with
    | .ok v c => .done v c
    | .error e c => .fault ⟨site, .host name e⟩ c
  | _ => .fault ⟨site, .unresolvedLabel (Label.function name)⟩ c

/-- A call, with this many calls inside one another and as many rounds of each loop. Functions of
the program come before those of the host. -/
def invoke (value : Calls → Values) (functions : List Function) (host : Host) : Nat → Calls
  | 0, _, _, _ => Eval.exhausted
  | fuel + 1, site, name, args =>
    match functions.find? (·.name = name) with
    | some f => do
      let env ← bindParams f.params args .empty
      match ← execBody (value (invoke value functions host fuel)) f.returns fuel f.body env with
      | .next _ => return none
      | .returned v => return v
    | none => askHost host site name args

/-- What is left behind by an evaluation that ends. An operator without an operand is a fault at its
place. -/
def Outcome.ending? {α : Type} : Outcome α → Option (EStateM.Result ExecutionError Console Unit)
  | .done _ console => some (.ok () console)
  | .fault e console => some (.error e console)
  | .lacks pos console => some (.error ⟨pos, .emptyStack⟩ console)
  | .exhausted => none

/-- The call that a program starts with. -/
def evalMain (value : Calls → Values) (functions : List Function) (host : Host) (fuel : Nat) :
    Eval (Option Value) :=
  invoke value functions host fuel .none "main" []

/-- How a program ends and what it leaves of the console, unless the bound is used up. -/
def meaning? (functions : List Function) (host : Host) (fuel : Nat) (console : Console) :
    Option (EStateM.Result ExecutionError Console Unit) :=
  (evalMain Expr.eval functions host fuel console).ending?

/-- An operator of the program comes to be evaluated without one of its operands. -/
def LacksOperand (functions : List Function) (host : Host) (console : Console) : Prop :=
  ∃ fuel pos c, evalMain Expr.eval functions host fuel console = .lacks pos c

end StackScript
