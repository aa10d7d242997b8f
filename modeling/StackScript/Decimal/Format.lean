import StackScript.Decimal.Shortest

/-!
Writing binary numbers by their shortest decimal. A format says which of them are written
positionally and whether whole numbers keep a point.
-/

namespace StackScript.Decimal

structure Format where
  /-- Is a number with this decimal exponent of its leading digit written positionally? -/
  positional : Int → Bool
  /-- Does a whole number in positional form end in `.0`? -/
  pointed : Bool

namespace Format

/-- Never an exponent, and whole numbers look like integers. -/
def plain : Format := ⟨fun _ => true, false⟩

/-- Positional from `0.0001` to below `10 ^ 16`, and always with a point or an exponent. -/
def literal : Format := ⟨fun e => -4 ≤ e && e < 16, true⟩

/-- Digits with `point` of them before the decimal point. -/
def positionalText (f : Format) (digits : List Char) (point : Int) : String :=
  if point ≤ 0 then
    "0." ++ String.ofList (List.replicate (-point).toNat '0' ++ digits)
  else if digits.length ≤ point.toNat then
    String.ofList (digits ++ List.replicate (point.toNat - digits.length) '0')
      ++ (if f.pointed then ".0" else "")
  else
    String.ofList (digits.take point.toNat) ++ "." ++ String.ofList (digits.drop point.toNat)

/-- The first digit, a point before the others, and the exponent. -/
def exponentText (digits : List Char) (exponent : Int) : String :=
  String.ofList (digits.take 1)
    ++ (if digits.length ≤ 1 then "" else "." ++ String.ofList (digits.drop 1))
    ++ "e" ++ toString exponent

def magnitudeText (f : Format) (x : Binary64) : String :=
  if x.magnitude = 0 then if f.pointed then "0.0" else "0"
  else
    let d := x.shortest
    let all := Nat.toDigits 10 d.digits
    let digits := (all.reverse.dropWhile (· = '0')).reverse
    let exponent := all.length + d.exponent - 1
    if f.positional exponent then f.positionalText digits (exponent + 1)
    else exponentText digits exponent

def write (f : Format) (x : Binary64) : String :=
  if x.isNaN then "NaN"
  else
    let sign := if x.negative then "-" else ""
    sign ++ if x.isInfinite then "inf" else f.magnitudeText x

end Format

end StackScript.Decimal
