import StackScript.Token
import StackScript.Text.Utf8

/-!
Reading tokens off source bytes. A cursor holds the unread bytes and the place of the first of them.
A failed reading leaves the cursor where it stopped, and reading may go on from there.

* `Lexer.next` reads one token, or nothing when only layout is left.
* `Lexer.events` is everything that repeated calls say.
* `tokenize` is the tokens of a text without errors in it.
-/

namespace StackScript

inductive LexError
  | unclosedComment (start : Position)
  | loneBang (pos : Position)
  | unexpectedByte (pos : Position) (byte : UInt8)
  | unfinishedString (start : Position)
  | unknownEscape (start : Position) (byte : UInt8)
  | badInteger (cause : Integer.Refusal)
  | badFloat
  | badText
  deriving DecidableEq, Repr

/-- A byte is mentioned as the character with its code point. -/
def LexError.message : LexError → String
  | unclosedComment start => start.text ++ ": comment is not closed"
  | loneBang pos => pos.text ++ ": expected '=' after '!'"
  | unexpectedByte pos b => pos.text ++ ": unexpected character '" ++ (Char.ofUInt8 b).toString ++ "'"
  | unfinishedString start => start.text ++ ": string literal is not finished properly"
  | unknownEscape start b => start.text ++ ": unknown escape '\\" ++ (Char.ofUInt8 b).toString ++ "'"
  | badInteger cause => cause.message
  | badFloat => "invalid float literal"
  | badText => "invalid utf-8 sequence"

/-- The unread bytes of a source text and the place of the first of them. -/
structure Cursor where
  rest : List UInt8
  pos : Position
  deriving DecidableEq, Repr

def Cursor.ofText (source : String) : Cursor :=
  ⟨Text.bytes source, .start⟩

abbrev Lexer := EStateM LexError Cursor

namespace Lexer

def isDigit (b : UInt8) : Bool :=
  0x30 ≤ b && b ≤ 0x39

def isWordStart (b : UInt8) : Bool :=
  (0x41 ≤ b && b ≤ 0x5A) || (0x61 ≤ b && b ≤ 0x7A) || b = 0x5F

def isWordByte (b : UInt8) : Bool :=
  isWordStart b || isDigit b

/-- Blank, tab, newline, form feed and carriage return. -/
def isSpace (b : UInt8) : Bool :=
  b = 0x20 || b = 0x09 || b = 0x0A || b = 0x0C || b = 0x0D

/-- Where the reading of layout stands: between comments, in one that ends with its line, or in a
closed one that started at `start`. -/
inductive Layout
  | blank
  | line
  | block (start : Position)

/-- Skips space and comments. In bytes, `//` is `2F 2F`, `/*` is `2F 2A` and `*/` is `2A 2F`. -/
def skipLayout : Layout → List UInt8 → Position → EStateM.Result LexError Cursor Unit
  | .blank, 0x2F :: 0x2F :: bs, p => skipLayout .line bs ((p.after 0x2F).after 0x2F)
  | .blank, 0x2F :: 0x2A :: bs, p => skipLayout (.block p) bs ((p.after 0x2F).after 0x2A)
  | .blank, b :: bs, p =>
    if isSpace b then skipLayout .blank bs (p.after b) else .ok () ⟨b :: bs, p⟩
  | .line, b :: bs, p => skipLayout (if b = 0x0A then .blank else .line) bs (p.after b)
  | .block _, 0x2A :: 0x2F :: bs, p => skipLayout .blank bs ((p.after 0x2A).after 0x2F)
  | .block start, b :: bs, p => skipLayout (.block start) bs (p.after b)
  | .block start, [], p => .error (.unclosedComment start) ⟨[], p⟩
  | _, [], p => .ok () ⟨[], p⟩

/-- The byte at the cursor, which moves past it. -/
def advance : Lexer (Option UInt8) := fun c =>
  match c.rest with
  | [] => .ok none c
  | b :: bs => .ok (some b) ⟨bs, c.pos.after b⟩

/-- The longest run of bytes that satisfy `p`. -/
def takeWhile (p : UInt8 → Bool) : Lexer (List UInt8) := fun c =>
  let run := c.rest.takeWhile p
  .ok run ⟨c.rest.dropWhile p, c.pos.past run⟩

/-- The text of the bytes read for a token. -/
def decode (bs : List UInt8) : Lexer String :=
  match Text.ofBytes? bs with
  | some s => return s
  | none => throw .badText

/-- The byte that an escape stands for: a quote, a backslash, a newline or a tab. -/
def unescape? (b : UInt8) : Option UInt8 :=
  match Char.ofUInt8 b with
  | '"' => some 0x22
  | '\\' => some 0x5C
  | 'n' => some 0x0A
  | 't' => some 0x09
  | _ => none

/-- Reads up to the closing quote `22`. A newline may not come first, and `5C` starts an escape. -/
def stringBytes (start : Position) :
    List UInt8 → Position → EStateM.Result LexError Cursor (List UInt8)
  | [], p => .error (.unfinishedString start) ⟨[], p⟩
  | 0x22 :: bs, p => .ok [] ⟨bs, p.after 0x22⟩
  | 0x0A :: bs, p => .error (.unfinishedString start) ⟨bs, p.after 0x0A⟩
  | 0x5C :: [], p => .error (.unfinishedString start) ⟨[], p.after 0x5C⟩
  | 0x5C :: e :: bs, p =>
    let next := (p.after 0x5C).after e
    match unescape? e with
    | none => .error (.unknownEscape start e) ⟨bs, next⟩
    | some b => keep b (stringBytes start bs next)
  | b :: bs, p => keep b (stringBytes start bs (p.after b))
where
  keep (b : UInt8) : EStateM.Result LexError Cursor (List UInt8) →
      EStateM.Result LexError Cursor (List UInt8)
    | .ok bytes c => .ok (b :: bytes) c
    | .error e c => .error e c

/-- A string literal, past its opening quote at `start`. -/
def string (start : Position) : Lexer Token := do
  let bytes ← fun c => stringBytes start c.rest c.pos
  return .string (← decode bytes)

/-- A point and digits, if both are there. -/
def fraction : Lexer (List UInt8) := fun c =>
  match c.rest with
  | 0x2E :: b :: bs =>
    if isDigit b then
      let run := 0x2E :: (b :: bs).takeWhile isDigit
      .ok run ⟨(b :: bs).dropWhile isDigit, c.pos.past run⟩
    else .ok [] c
  | _ => .ok [] c

/-- A number that starts with `lead`. With a fraction it is a float. -/
def number (lead : UInt8) : Lexer Token := do
  let whole ← takeWhile isDigit
  let fraction ← fraction
  let literal ← decode (lead :: whole ++ fraction)
  if fraction.isEmpty then
    match Integer.read literal.toList with
    | .ok n => return .int n
    | .error cause => throw (.badInteger cause)
  else
    match Decimal.read? literal.toList with
    | some x => return .float x
    | none => throw .badFloat

/-- A keyword or a name that starts with `lead`. -/
def word (lead : UInt8) : Lexer Token := do
  let tail ← takeWhile isWordByte
  return .ofWord (← decode (lead :: tail))

/-- `withEquals` if an equals sign follows, which is read too, and else `alone`. -/
def orEquals (withEquals alone : Token) : Lexer Token := fun c =>
  match c.rest with
  | 0x3D :: bs => .ok withEquals ⟨bs, c.pos.after 0x3D⟩
  | _ => .ok alone c

/-- The token that starts with the byte `lead` at `start`, past that byte. -/
def token (start : Position) (lead : UInt8) : Lexer Token :=
  match Char.ofUInt8 lead with
  | '"' => string start
  | '(' => return .punctuation .lparen
  | ')' => return .punctuation .rparen
  | '{' => return .punctuation .lbrace
  | '}' => return .punctuation .rbrace
  | '[' => return .punctuation .lbracket
  | ']' => return .punctuation .rbracket
  | ',' => return .punctuation .comma
  | ';' => return .punctuation .semicolon
  | '+' => return .operator .add
  | '-' => return .operator .sub
  | '*' => return .operator .mul
  | '/' => return .operator .div
  | '=' => orEquals (.operator .eq) (.punctuation .assign)
  | '>' => orEquals (.operator .ge) (.operator .gt)
  | '<' => orEquals (.operator .le) (.operator .lt)
  | '!' => fun c =>
    match c.rest with
    | 0x3D :: bs => .ok (.operator .ne) ⟨bs, c.pos.after 0x3D⟩
    | _ => .error (.loneBang start) c
  | _ =>
    if isDigit lead then number lead
    else if isWordStart lead then word lead
    else throw (.unexpectedByte start lead)

/-- Reads the next token, or nothing if only layout is left. -/
def next : Lexer (Option Located) := do
  (fun c => skipLayout .blank c.rest c.pos)
  let start := (← get).pos
  match ← advance with
  | none => return none
  | some lead => return some ⟨← token start lead, start⟩

/-- What repeated readings say until the end, errors among them. Every reading before the end takes
a byte, so as many readings as there are bytes are enough. -/
def events (c : Cursor) : List (Except LexError Located) :=
  go c.rest.length c
where
  go : Nat → Cursor → List (Except LexError Located)
    | 0, _ => []
    | n + 1, c =>
      match next c with
      | .ok none _ => []
      | .ok (some t) c => .ok t :: go n c
      | .error e c => .error e :: go n c

end Lexer

/-- The tokens of a source text, or the first error in it. -/
def tokenize (source : String) : Except LexError (List Located) :=
  (Lexer.events (.ofText source)).mapM id

end StackScript
