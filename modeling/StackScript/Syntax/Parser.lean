import StackScript.Syntax
import StackScript.Token.Lexer

/-!
Reading trees off tokens by recursive descent. A failed reading leaves the unread tokens as they
were when it failed.

Nested expressions and blocks stand behind at least one token, and each round of a repetition reads
one, so the number of unread tokens bounds them all. Where that bound is zero, a reading fails or
ends as it does at the end of input.
-/

namespace StackScript

/-- What a reading was looking for. -/
inductive Expected
  | keyword (word : Keyword)
  | punctuation (mark : Punctuation)
  | name
  | type
  | expression
  deriving DecidableEq, Repr

def Expected.text : Expected → String
  | keyword word => "'" ++ word.spelling ++ "'"
  | punctuation mark => "'" ++ mark.spelling ++ "'"
  | name => "a name"
  | type => "a type"
  | expression => "an expression"

inductive ParseError
  | lexical (error : LexError)
  | unexpected (pos : Position) (expected : Expected) (found : Option Token)
  | notAssignable (pos : Position)
  deriving DecidableEq, Repr

def ParseError.message : ParseError → String
  | lexical error => error.message
  | unexpected pos expected found =>
    pos.text ++ ": expected " ++ expected.text ++ ", got " ++
      (match found with
        | some token => token.describe
        | none => "end of input")
  | notAssignable pos => pos.text ++ ": cannot assign to this expression"

/-- The unread tokens and the place of the last one that was read. -/
structure Tokens where
  rest : List Located
  last : Position
  deriving DecidableEq, Repr

def Tokens.ofList (tokens : List Located) : Tokens := ⟨tokens, .start⟩

/-- The place of the next token, or that of the last one at the end of input. -/
def Tokens.pos (ts : Tokens) : Position :=
  match ts.rest with
  | t :: _ => t.pos
  | [] => ts.last

abbrev Parser := EStateM ParseError Tokens

namespace Parser

def peek : Parser (Option Token) := do
  return (← get).rest.head?.map (·.token)

def pos : Parser Position := do
  return (← get).pos

/-- How many tokens are unread. -/
def remaining : Parser Nat := do
  return (← get).rest.length

def advance : Parser (Option Located) := fun ts =>
  match ts.rest with
  | [] => .ok none ts
  | t :: rest => .ok (some t) ⟨rest, t.pos⟩

/-- Fails at the next token. -/
def fail {α : Type} (expected : Expected) : Parser α := do
  throw (.unexpected (← pos) expected (← peek))

/-- Reads the next token if it is this one. -/
def eat (token : Token) : Parser Bool := do
  if (← peek) = some token then
    discard advance
    return true
  else
    return false

/-- Reads this keyword and gives its place. -/
def keyword (word : Keyword) : Parser Position := do
  let pos ← pos
  if ← eat (.keyword word) then return pos else fail (.keyword word)

def punctuation (mark : Punctuation) : Parser Unit := do
  unless ← eat (.punctuation mark) do fail (.punctuation mark)

def name : Parser String := do
  match ← peek with
  | some (.name word) =>
    discard advance
    return word
  | _ => fail .name

/-- Reads a type, if one is next. -/
def type? : Parser (Option Ty) := do
  match ← peek with
  | some (.keyword (.type ty)) =>
    discard advance
    return some ty
  | _ => return none

def type : Parser Ty := do
  match ← type? with
  | some ty => return ty
  | none => fail .type

/-- One item or more with commas between them, up to the closing mark. -/
def separated {α : Type} (item : Parser α) (close : Punctuation) : Nat → Parser (List α)
  | 0 => do
    let x ← item
    punctuation close
    return [x]
  | n + 1 => do
    let x ← item
    if ← eat (.punctuation .comma) then
      return x :: (← separated item close n)
    else
      punctuation close
      return [x]

/-- At most `bound` items with commas between them, up to the closing mark. -/
def list {α : Type} (bound : Nat) (item : Parser α) (close : Punctuation) : Parser (List α) := do
  if ← eat (.punctuation close) then return [] else separated item close bound

/-- Operators of one level and their right operands, from the left. -/
def operands (level : Operator → Bool) (operand : Parser Expr) : Nat → Expr → Parser Expr
  | 0, lhs => return lhs
  | n + 1, lhs => do
    match ← peek with
    | some (.operator op) =>
      if level op then
        let pos ← pos
        discard advance
        let rhs ← operand
        operands level operand n (.binary pos op lhs rhs)
      else return lhs
    | _ => return lhs

/-- Operands with at most `bound` operators of one level between them. -/
def leftAssoc (bound : Nat) (level : Operator → Bool) (operand : Parser Expr) : Parser Expr := do
  let lhs ← operand
  operands level operand bound lhs

/-- What follows a name at `start`: the arguments of a call, an index, or nothing. -/
def named (bound : Nat) (expr : Parser Expr) (start : Position) (word : String) :
    Parser Expr := do
  if ← eat (.punctuation .lparen) then
    return .call start start word (← list bound expr .rparen)
  else if ← eat (.punctuation .lbracket) then
    let index ← expr
    punctuation .rbracket
    return .index start word index
  else
    return .var start word

/-- An operand. A token that starts none is read all the same. -/
def factor (bound : Nat) (expr : Parser Expr) : Parser Expr := do
  match ← advance with
  | none => fail .expression
  | some ⟨token, start⟩ =>
    match token with
    | .int n => return .literal start (.int n)
    | .float x => return .literal start (.float x)
    | .string s => return .literal start (.string s)
    | .keyword .true_ => return .literal start (.bool true)
    | .keyword .false_ => return .literal start (.bool false)
    | .punctuation .lparen =>
      let inner ← expr
      punctuation .rparen
      return .paren start inner
    | .punctuation .lbracket => return .array start (← list bound expr .rbracket)
    | .name word => named bound expr start word
    | token => throw (.unexpected start .expression (some token))

/-- Comparisons over sums over products over factors, from at most `bound` tokens. -/
def expressionWithin : Nat → Parser Expr
  | 0 => fail .expression
  | bound + 1 =>
    leftAssoc bound Operator.isComparison <| leftAssoc bound Operator.isSum <|
      leftAssoc bound Operator.isProduct <| factor bound (expressionWithin bound)

def expression : Parser Expr := do
  expressionWithin (← remaining)

/-- What an expression and the value assigned to it make of a statement. -/
def assignment (pos : Position) (target value : Expr) : Parser Stmt :=
  match target with
  | .var _ word => return .assign pos none word value
  | .index _ word index => return .assignItem pos word index value
  | _ => throw (.notAssignable pos)

/-- What an expression on its own makes of a statement. -/
def alone (pos : Position) : Expr → Stmt
  | .call _ site word args => .call pos site word args
  | e => .expr pos e

/-- A statement that ends with a semicolon. -/
def simple : Parser Stmt := do
  let pos ← pos
  if ← eat (.keyword .return_) then
    if ← eat (.punctuation .semicolon) then
      return .ret pos none
    let value ← expression
    punctuation .semicolon
    return .ret pos (some value)
  else
    match ← type? with
    | some ty =>
      let word ← name
      punctuation .assign
      let value ← expression
      punctuation .semicolon
      return .assign pos (some ty) word value
    | none =>
      let target ← expression
      let stmt ←
        if ← eat (.punctuation .assign) then
          let value ← expression
          assignment pos target value
        else
          pure (alone pos target)
      punctuation .semicolon
      return stmt

/-- The head of a counting loop may stand in parentheses. -/
def counting (pos : Position) (block : Parser (List Stmt)) : Parser Stmt := do
  let parenthesized ← eat (.punctuation .lparen)
  let init ← simple
  let test ← expression
  punctuation .semicolon
  let step ← simple
  if parenthesized then punctuation .rparen
  return .count pos init test step (← block)

def ranging (pos : Position) (block : Parser (List Stmt)) : Parser Stmt := do
  let first ← expression
  discard <| keyword .to_
  let last ← expression
  discard <| keyword .as_
  let word ← name
  return .range pos first last word (← block)

def statement (block : Parser (List Stmt)) : Parser Stmt := do
  let pos ← pos
  if ← eat (.keyword .if_) then
    let test ← expression
    return .cond pos test (← block)
  else if ← eat (.keyword .while_) then
    let test ← expression
    return .loop pos test (← block)
  else if ← eat (.keyword .for_) then counting pos block
  else if ← eat (.keyword .from_) then ranging pos block
  else simple

/-- Statements up to the closing brace. -/
def statements (stmt : Parser Stmt) : Nat → Parser (List Stmt)
  | 0 => fail (.punctuation .rbrace)
  | n + 1 => do
    if ← eat (.punctuation .rbrace) then return []
    else if (← peek).isNone then fail (.punctuation .rbrace)
    else
      let s ← stmt
      return s :: (← statements stmt n)

/-- Statements in braces, from at most `bound` tokens. -/
def blockWithin : Nat → Parser (List Stmt)
  | 0 => fail (.punctuation .lbrace)
  | bound + 1 => do
    punctuation .lbrace
    statements (statement (blockWithin bound)) bound

def block : Parser (List Stmt) := do
  blockWithin (← remaining)

def parameter : Parser Parameter := do
  let pos ← pos
  let ty ← type
  return ⟨pos, ty, ← name⟩

def function : Parser Function := do
  let pos ← keyword .function
  let word ← name
  punctuation .lparen
  let params ← list (← remaining) parameter .rparen
  let returns ← type?
  return ⟨pos, word, params, returns, ← block⟩

def functions : Nat → Parser (List Function)
  | 0 => return []
  | n + 1 => do
    if (← peek).isNone then return []
    let f ← function
    return f :: (← functions n)

/-- All functions up to the end of input. -/
def program : Parser (List Function) := do
  functions (← remaining)

end Parser

/-- The parser of a source text, at its first token. -/
def Tokens.ofText (source : String) : Except ParseError Tokens :=
  match tokenize source with
  | .ok tokens => .ok (.ofList tokens)
  | .error e => .error (.lexical e)

def parse (source : String) : Except ParseError (List Function) := do
  match Parser.program (← Tokens.ofText source) with
  | .ok functions _ => .ok functions
  | .error e _ => .error e

end StackScript
