import StackScript.Operator
import StackScript.Position
import StackScript.Value
import StackScript.Text.Characters

/-!
The words and marks of source text.
-/

namespace StackScript

/-- The reserved words. The names of host functions are not among them. -/
inductive Keyword
  | function | return_ | if_ | while_ | for_ | from_ | to_ | as_ | true_ | false_
  | type (ty : Ty)
  deriving DecidableEq, Repr

namespace Keyword

def all : List Keyword :=
  [function, return_, if_, while_, for_, from_, to_, as_, true_, false_] ++ Ty.all.map type

def spelling : Keyword → String
  | function => "function"
  | return_ => "return"
  | if_ => "if"
  | while_ => "while"
  | for_ => "for"
  | from_ => "from"
  | to_ => "to"
  | as_ => "as"
  | true_ => "true"
  | false_ => "false"
  | type ty => ty.name

def ofSpelling? (word : String) : Option Keyword :=
  all.find? (·.spelling = word)

def describe : Keyword → String
  | function => "Function"
  | return_ => "Return"
  | if_ => "If"
  | while_ => "While"
  | for_ => "For"
  | from_ => "From"
  | to_ => "To"
  | as_ => "As"
  | true_ => "True"
  | false_ => "False"
  | type ty => "Type(" ++ ty.describe ++ ")"

end Keyword

inductive Punctuation
  | assign | comma | semicolon
  | lparen | rparen | lbrace | rbrace | lbracket | rbracket
  deriving DecidableEq, Repr

namespace Punctuation

def all : List Punctuation :=
  [assign, comma, semicolon, lparen, rparen, lbrace, rbrace, lbracket, rbracket]

def spelling : Punctuation → String
  | assign => "="
  | comma => ","
  | semicolon => ";"
  | lparen => "("
  | rparen => ")"
  | lbrace => "\x7b"
  | rbrace => "\x7d"
  | lbracket => "["
  | rbracket => "]"

def describe : Punctuation → String
  | assign => "Assign"
  | comma => "Comma"
  | semicolon => "Semicolon"
  | lparen => "LParen"
  | rparen => "RParen"
  | lbrace => "LBrace"
  | rbrace => "RBrace"
  | lbracket => "LBracket"
  | rbracket => "RBracket"

end Punctuation

inductive Token
  | keyword (word : Keyword)
  | name (word : String)
  | int (n : Int64)
  | float (x : Binary64)
  | string (s : String)
  | operator (op : Operator)
  | punctuation (mark : Punctuation)
  deriving DecidableEq, Repr

namespace Token

/-- A word is a keyword or a name. -/
def ofWord (word : String) : Token :=
  match Keyword.ofSpelling? word with
  | some k => .keyword k
  | none => .name word

/-- How messages mention a token. -/
def describe : Token → String
  | keyword k => "Keyword(" ++ k.describe ++ ")"
  | name word => "Name(" ++ Text.quoted word ++ ")"
  | int n => "Int(" ++ Integer.text n ++ ")"
  | float x => "Float(" ++ Decimal.Format.literal.write x ++ ")"
  | string s => "StringLiteral(" ++ Text.quoted s ++ ")"
  | operator op => "Operator(" ++ op.describe ++ ")"
  | punctuation mark => mark.describe

end Token

/-- A token and the place of its first byte. -/
structure Located where
  token : Token
  pos : Position
  deriving DecidableEq, Repr

end StackScript
