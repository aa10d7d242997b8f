/-!
Binary floating-point numbers of 64 bits, as bit patterns. The language stores and shows them and
never computes with them, so the pattern and its exact value in integers are all that is needed.
-/

namespace StackScript

structure Binary64 where
  bits : UInt64
  deriving DecidableEq, Repr

namespace Binary64

def signBit : Nat := 1 <<< 63

/-- Infinity follows the largest number in the order of magnitudes. -/
def infinityBits : Nat := 0x7FF <<< 52

def ofMagnitude (negative : Bool) (magnitude : Nat) : Binary64 :=
  ⟨UInt64.ofNat (if negative then signBit + magnitude else magnitude)⟩

def zero (negative : Bool) : Binary64 := ofMagnitude negative 0

def infinity (negative : Bool) : Binary64 := ofMagnitude negative infinityBits

def nan : Binary64 := ofMagnitude false (infinityBits + (1 <<< 51))

def negative (x : Binary64) : Bool :=
  signBit ≤ x.bits.toNat

/-- All bits but the sign. Magnitudes are ordered as the numbers they stand for. -/
def magnitude (x : Binary64) : Nat :=
  x.bits.toNat % signBit

def isNaN (x : Binary64) : Bool := infinityBits < x.magnitude

def isInfinite (x : Binary64) : Bool := x.magnitude = infinityBits

/-- A finite number's size is `significand * 2 ^ (shift - 1074)`. -/
def shift (x : Binary64) : Nat :=
  (x.magnitude >>> 52) - 1

def significand (x : Binary64) : Nat :=
  x.magnitude - (x.shift <<< 52)

/-- `num / den` to the nearest integer, a half to the even neighbour. -/
def roundHalfEven (num den : Nat) : Nat :=
  let q := num / den
  let r := num % den
  if 2 * r < den ∨ (2 * r = den ∧ q % 2 = 0) then q else q + 1

/-- The shift that puts `num / den` into the range of a full significand, or the least one. -/
def shiftFor (num den : Nat) : Nat :=
  let scaled := num <<< 1074
  let e := scaled.log2 - den.log2
  (if den <<< e ≤ scaled then e else e - 1) - 52

/-- The number nearest to `num / den`. A significand that rounds up to the next power of two carries
into the exponent, and past the largest number lies infinity. -/
def ofRatio (negative : Bool) (num den : Nat) : Binary64 :=
  let shift := shiftFor num den
  let magnitude := (shift <<< 52) + roundHalfEven (num <<< 1074) (den <<< shift)
  ofMagnitude negative (min magnitude infinityBits)

end Binary64

end StackScript
