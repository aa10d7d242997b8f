import StackScript.Operator
import StackScript.Position
import StackScript.Value

/-!
The tree of a program. Every node carries the place that faults of its code are reported at.
-/

namespace StackScript

inductive Expr
  /-- The place is that of the operator. -/
  | binary (pos : Position) (op : Operator) (lhs rhs : Expr)
  | literal (pos : Position) (value : Literal)
  | var (pos : Position) (name : String)
  /-- The call itself is at `site`, which is `pos` in parsed text. -/
  | call (pos site : Position) (name : String) (args : List Expr)
  | index (pos : Position) (name : String) (index : Expr)
  | array (pos : Position) (items : List Expr)
  | paren (pos : Position) (inner : Expr)
  deriving Repr

def Expr.pos : Expr → Position
  | binary pos .. | literal pos _ | var pos _ | call pos .. | index pos .. | array pos _
  | paren pos _ => pos

inductive Stmt
  | cond (pos : Position) (test : Expr) (body : List Stmt)
  | loop (pos : Position) (test : Expr) (body : List Stmt)
  /-- A loop with a statement before it and one after each round of its body. -/
  | count (pos : Position) (init : Stmt) (test : Expr) (step : Stmt) (body : List Stmt)
  /-- The variable runs from the first bound toward the last, which it does not take. -/
  | range (pos : Position) (first last : Expr) (name : String) (body : List Stmt)
  | ret (pos : Position) (value : Option Expr)
  | assignItem (pos : Position) (name : String) (index value : Expr)
  /-- With a type it declares, without one it needs a variable that is there. -/
  | assign (pos : Position) (ty : Option Ty) (name : String) (value : Expr)
  | call (pos site : Position) (name : String) (args : List Expr)
  | expr (pos : Position) (value : Expr)
  deriving Repr

def Stmt.pos : Stmt → Position
  | cond pos .. | loop pos .. | count pos .. | range pos .. | ret pos _ | assignItem pos ..
  | assign pos .. | call pos .. | expr pos _ => pos

structure Parameter where
  pos : Position
  ty : Ty
  name : String
  deriving DecidableEq, Repr

structure Function where
  pos : Position
  name : String
  params : List Parameter
  returns : Option Ty
  body : List Stmt
  deriving Repr

end StackScript
