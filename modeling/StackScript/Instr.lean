import StackScript.Operator
import StackScript.Position
import StackScript.Value

/-!
Instructions and their listing.
-/

namespace StackScript

/-- Instructions that only carry a label. -/
inductive Marker
  | function | ifEnd | whileStart | whileEnd | forStart | forEnd | rangeEnd
  deriving DecidableEq, Repr

/-- The constructs whose condition may jump past their body. -/
inductive Guard
  | if_ | while_ | for_
  deriving DecidableEq, Repr

inductive Op
  | marker (m : Marker)
  /-- Bind the next argument of the call to a parameter. -/
  | bindArg (ty : Ty) (name : String)
  /-- Bind the last result to a variable. -/
  | assign (ty : Option Ty) (name : String)
  /-- Write the last result into an array; the index is on the stack. -/
  | assignItem (name : String)
  | ret
  /-- Hand the last result to the caller's scope. -/
  | handBack
  | openScope
  /-- Close the innermost scope; its top value becomes the last result. -/
  | closeScope
  | push (value : Literal)
  | load (name : String)
  /-- Push the last result. -/
  | pushResult
  | apply (op : Operator)
  /-- Move the last result to the waiting arguments. -/
  | passArg
  | call (name : String) (argc : Nat) (returns : Option Ty)
  /-- Jump if the last result is false. -/
  | jumpUnless (guard : Guard) (label : String)
  | jump (label : String)
  /-- Jump if the variable has reached its bound. -/
  | rangeTest (name : String) (label : String)
  /-- Move the variable one step toward its bound and jump. -/
  | rangeStep (name : String) (label : String)
  | emptyArray
  /-- Append the last result to the array on the stack. -/
  | append
  /-- Push an element of an array; the index is the last result. -/
  | loadItem (name : String)
  | exit
  deriving DecidableEq, Repr

structure Instr where
  op : Op
  label : Option String
  pos : Position
  deriving DecidableEq, Repr

def Instr.plain (op : Op) (pos : Position) : Instr := ⟨op, none, pos⟩

def Instr.labeled (label : String) (op : Op) (pos : Position) : Instr := ⟨op, some label, pos⟩

def Marker.mnemonic : Marker → String
  | function => "function"
  | ifEnd => "if_else"
  | whileStart => "while_start"
  | whileEnd => "while_else"
  | forStart => "for_start"
  | forEnd => "for_end"
  | rangeEnd => "forinc_end"

def Guard.mnemonic : Guard → String
  | if_ => "if"
  | while_ => "while"
  | for_ => "for"

namespace Op

/-- The name of an operation in the listing. -/
def mnemonic : Op → String
  | marker m => m.mnemonic
  | bindArg .. => "set_local_var_arg"
  | assign .. => "set_local_var_exp"
  | assignItem _ => "set_array_var_exp"
  | ret => "function_return"
  | handBack => "push_bellow"
  | openScope => "add_scope"
  | closeScope => "sub_scope"
  | push _ => "push_exp"
  | load _ => "push_exp_var"
  | pushResult => "push_last_exp"
  | apply _ => "exp_call"
  | passArg => "push_function_arg"
  | call .. => "call_function"
  | jumpUnless guard _ => guard.mnemonic
  | jump _ => "jmp"
  | rangeTest .. => "forinc_start"
  | rangeStep .. => "forinc"
  | emptyArray => "push_empty_arr"
  | append => "push_arr_exp"
  | loadItem _ => "push_arr_call"
  | exit => "exit"

/-- The operands in the order of the listing. The number of arguments is shown as an integer of the
language. -/
def operands : Op → List String
  | bindArg ty name => [ty.name, name]
  | assign ty name => (ty.map Ty.name).toList ++ [name]
  | assignItem name | load name | loadItem name => [name]
  | push value => [value.toValue.display]
  | apply op => [op.symbol]
  | call name argc returns =>
    [name, Integer.text (Int64.ofNat argc)] ++ (returns.map Ty.name).toList
  | jumpUnless _ label | jump label => [label]
  | rangeTest name label | rangeStep name label => [name, label]
  | _ => []

end Op

namespace Instr

/-- One line of the listing: the label, the operation, and the operands in parentheses. -/
def text (i : Instr) : String :=
  (match i.label with
    | some label => label ++ ": "
    | none => "")
  ++ i.op.mnemonic
  ++ (match i.op.operands with
    | [] => ""
    | operands => " ( " ++ " ".intercalate operands ++ " )")

end Instr

end StackScript
