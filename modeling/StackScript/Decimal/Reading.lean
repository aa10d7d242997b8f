import StackScript.Decimal.Binary64

/-!
Reading decimal text as the nearest binary number. The text is taken apart into an integer and a
power of ten, so the value is exact until it is rounded once.
-/

namespace StackScript

/-- The number `digits * 10 ^ exponent`. -/
structure Decimal where
  digits : Nat
  exponent : Int
  deriving DecidableEq, Repr

namespace Decimal

def digitsValue (cs : List Char) : Nat :=
  cs.foldl (fun acc c => acc * 10 + (c.toNat - '0'.toNat)) 0

/-- Beyond these decimal exponents of the leading digit every number rounds to zero or infinity. -/
def leastExponent : Int := -330

def greatestExponent : Int := 310

def toBinary64 (negative : Bool) (d : Decimal) : Binary64 :=
  let leading := (Nat.toDigits 10 d.digits).length + d.exponent
  if d.digits = 0 ∨ leading < leastExponent then .zero negative
  else if greatestExponent < leading then .infinity negative
  else if 0 ≤ d.exponent then .ofRatio negative (d.digits * Nat.pow 10 d.exponent.toNat) 1
  else .ofRatio negative d.digits (Nat.pow 10 (-d.exponent).toNat)

/-- An optional sign, and the rest. -/
def takeSign : List Char → Bool × List Char
  | '-' :: cs => (true, cs)
  | '+' :: cs => (false, cs)
  | cs => (false, cs)

/-- The exponent that ends a number: nothing, or a mark, an optional sign and digits. -/
def readExponent? : List Char → Option Int
  | [] => some 0
  | c :: cs =>
    let (negative, digits) := takeSign cs
    if (c = 'e' ∨ c = 'E') ∧ !digits.isEmpty ∧ digits.all Char.isDigit then
      let n := digitsValue digits
      some (if negative then -n else n)
    else none

/-- Digits with at most one point among them, then an exponent. Digits on one side of the point are
enough. -/
def readNumber? (cs : List Char) : Option Decimal :=
  let whole := cs.takeWhile Char.isDigit
  let (fraction, rest) := match cs.dropWhile Char.isDigit with
    | '.' :: after => (after.takeWhile Char.isDigit, after.dropWhile Char.isDigit)
    | after => ([], after)
  if whole.isEmpty ∧ fraction.isEmpty then none
  else (readExponent? rest).map fun e => ⟨digitsValue (whole ++ fraction), e - fraction.length⟩

/-- Reads a signed decimal, or the name of infinity or of no number in any case. -/
def read? (text : List Char) : Option Binary64 :=
  let (negative, body) := takeSign text
  match readNumber? body with
  | some d => some (d.toBinary64 negative)
  | none =>
    match String.ofList (body.map Char.toLower) with
    | "inf" | "infinity" => some (.infinity negative)
    | "nan" => some .nan
    | _ => none

end Decimal

end StackScript
