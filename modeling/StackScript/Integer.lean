/-!
The integers of the language: 64 bits, two's complement. Results that need more bits are refused,
never wrapped, and the same rule governs reading digits.
-/

namespace StackScript.Integer

/-- The range of 64 bits. -/
def Fits (n : Int) : Prop :=
  -9223372036854775808 ≤ n ∧ n ≤ 9223372036854775807

instance (n : Int) : Decidable (Fits n) :=
  inferInstanceAs (Decidable (_ ∧ _))

/-- The 64-bit integer of this value, if there is one. -/
def ofInt? (n : Int) : Option Int64 :=
  if Fits n then some (Int64.ofInt n) else none

/-- Why a text is no integer. -/
inductive Refusal
  | empty
  | invalidDigit
  | tooLarge
  | tooSmall
  deriving DecidableEq, Repr

def Refusal.message : Refusal → String
  | empty => "cannot parse integer from empty string"
  | invalidDigit => "invalid digit found in string"
  | tooLarge => "number too large to fit in target type"
  | tooSmall => "number too small to fit in target type"

/-- Reads digits from the left onto `acc`, each counted with `sign`. The first character at which
the reading fails decides the refusal. -/
def readDigits (sign : Int) (outside : Refusal) : Int → List Char → Except Refusal Int
  | acc, [] => .ok acc
  | acc, c :: cs =>
    if c.isDigit then
      let next := acc * 10 + sign * (c.toNat - '0'.toNat : Nat)
      if Fits next then readDigits sign outside next cs else .error outside
    else .error .invalidDigit

/-- Reads a decimal integer with an optional sign. A sign alone is an invalid digit. -/
def read (text : List Char) : Except Refusal Int64 :=
  Int64.ofInt <$> match text with
    | [] => .error .empty
    | ['+'] | ['-'] => .error .invalidDigit
    | '+' :: digits => readDigits 1 .tooLarge 0 digits
    | '-' :: digits => readDigits (-1) .tooSmall 0 digits
    | digits => readDigits 1 .tooLarge 0 digits

def text (n : Int64) : String :=
  toString n.toInt

end StackScript.Integer
