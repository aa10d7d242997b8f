import StackScript.Decimal.Reading

/-!
The shortest decimal of a binary number: of the decimals that read back as it, those with the fewest
digits, and of these the nearest.
-/

namespace StackScript.Binary64

/-- Four times a finite number's size, and the ends of the interval of numbers that round to it,
over the common denominator `2 ^ 1076`. -/
structure Neighbourhood where
  value : Nat
  lower : Nat
  upper : Nat
  /-- The ends themselves round to an even significand. -/
  closed : Bool

def neighbourhood (x : Binary64) : Neighbourhood :=
  let unit := 1 <<< x.shift
  let value := 4 * x.significand * unit
  -- below a power of two the numbers lie twice as dense
  let below := if x.significand = 1 <<< 52 ∧ 0 < x.shift then unit else 2 * unit
  ⟨value, value - below, value + 2 * unit, x.significand % 2 = 0⟩

namespace Neighbourhood

/-- Does `n / scale` lie in the interval? -/
def Contains (i : Neighbourhood) (n scale : Nat) : Prop :=
  if i.closed then i.lower * scale ≤ n ∧ n ≤ i.upper * scale
  else i.lower * scale < n ∧ n < i.upper * scale

instance (i : Neighbourhood) (n scale : Nat) : Decidable (i.Contains n scale) := by
  unfold Contains; infer_instance

/-- The multiple of `10 ^ exponent` in the interval that lies nearest to the value, if there is one.
Of two that are equally near it is the larger. -/
def onGrid? (i : Neighbourhood) (exponent : Int) : Option Decimal :=
  let scale := Nat.pow 10 (-exponent).toNat
  let step := Nat.pow 10 exponent.toNat <<< 1076
  let target := i.value * scale
  let floor := target / step
  let below := floor * step
  let above := below + step
  if i.Contains above scale ∧ (¬ i.Contains below scale ∨ above - target ≤ target - below) then
    some ⟨floor + 1, exponent⟩
  else if i.Contains below scale then some ⟨floor, exponent⟩
  else none

end Neighbourhood

/-- The shortest decimal of a finite number's size. The coarsest grid of powers of ten with a point
in the interval has the fewest digits. -/
def shortest (x : Binary64) : Decimal :=
  let i := x.neighbourhood
  ((List.range 660).findSome? fun (n : Nat) => i.onGrid? (309 - n)).getD ⟨0, 0⟩

end StackScript.Binary64
