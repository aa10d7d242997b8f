/-!
The binary operators and their spelling.
-/

namespace StackScript

inductive Operator
  | add | sub | mul | div
  | eq | ne | gt | ge | lt | le
  deriving DecidableEq, Repr

namespace Operator

def all : List Operator := [add, sub, mul, div, eq, ne, gt, ge, lt, le]

def symbol : Operator → String
  | add => "+"
  | sub => "-"
  | mul => "*"
  | div => "/"
  | eq => "=="
  | ne => "!="
  | gt => ">"
  | ge => ">="
  | lt => "<"
  | le => "<="

/-- The operator a symbol spells. -/
def ofSymbol? (s : String) : Option Operator :=
  all.find? (·.symbol = s)

/-- The name under which messages mention an operator. -/
def describe : Operator → String
  | add => "Add"
  | sub => "Sub"
  | mul => "Mul"
  | div => "Div"
  | eq => "Eq"
  | ne => "Ne"
  | gt => "Gt"
  | ge => "Ge"
  | lt => "Lt"
  | le => "Le"

/-- Comparisons bind loosest. -/
def isComparison : Operator → Bool
  | eq | ne | gt | ge | lt | le => true
  | _ => false

def isSum : Operator → Bool
  | add | sub => true
  | _ => false

def isProduct : Operator → Bool
  | mul | div => true
  | _ => false

end Operator

end StackScript
