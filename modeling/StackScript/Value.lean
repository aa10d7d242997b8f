import StackScript.Integer
import StackScript.Decimal.Format

/-!
Values, the types that variables are declared with, and how a value is shown.
-/

namespace StackScript

inductive Ty
  | int | float | string | bool | array
  deriving DecidableEq, Repr

namespace Ty

def all : List Ty := [int, float, string, bool, array]

/-- The word that spells the type in source text. -/
def name : Ty → String
  | int => "int"
  | float => "float"
  | string => "string"
  | bool => "bool"
  | array => "array"

def ofName? (s : String) : Option Ty :=
  all.find? (·.name = s)

/-- The name under which messages mention a type's keyword. -/
def describe : Ty → String
  | int => "Int"
  | float => "Float"
  | string => "String"
  | bool => "Bool"
  | array => "Array"

end Ty

inductive Literal
  | int (n : Int64)
  | float (x : Binary64)
  | string (s : String)
  | bool (b : Bool)
  deriving DecidableEq, Repr

/-- Arrays are values: storing or reading one copies it. -/
inductive Value
  | int (n : Int64)
  | float (x : Binary64)
  | string (s : String)
  | bool (b : Bool)
  | array (items : List Value)
  deriving Repr

def Literal.toValue : Literal → Value
  | int n => .int n
  | float x => .float x
  | string s => .string s
  | bool b => .bool b

namespace Value

/-- The one declared type that the value satisfies. -/
def ty : Value → Ty
  | int _ => .int
  | float _ => .float
  | string _ => .string
  | bool _ => .bool
  | array _ => .array

def int? : Value → Option Int64
  | int n => some n
  | _ => none

def bool? : Value → Option Bool
  | bool b => some b
  | _ => none

mutual

/-- Strings are shown as they are, and the items of an array in brackets. -/
def display : Value → String
  | int n => Integer.text n
  | float x => Decimal.Format.plain.write x
  | string s => s
  | bool b => if b then "true" else "false"
  | array items => "[" ++ displayAll items ++ "]"

/-- Values side by side, with a blank between neighbours. -/
def displayAll : List Value → String
  | [] => ""
  | [v] => v.display
  | v :: w :: vs => v.display ++ " " ++ displayAll (w :: vs)

end

end Value

end StackScript
