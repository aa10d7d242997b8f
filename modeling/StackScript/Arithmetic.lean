import StackScript.Fault
import StackScript.Operator

/-!
What operators and indices mean. Both take integers only.
-/

namespace StackScript

/-- The value of an integer result, which has to fit. -/
def Integer.toValue (n : Int) : Except Fault Value :=
  match Integer.ofInt? n with
  | some n => .ok (.int n)
  | none => .error .overflow

/-- Arithmetic is that of the integers, and division drops the fraction. -/
def Operator.onIntegers (op : Operator) (l r : Int) : Except Fault Value :=
  match op with
  | .add => Integer.toValue (l + r)
  | .sub => Integer.toValue (l - r)
  | .mul => Integer.toValue (l * r)
  | .div => if r = 0 then .error .divisionByZero else Integer.toValue (l.tdiv r)
  | .eq => .ok (.bool (l = r))
  | .ne => .ok (.bool (l ≠ r))
  | .gt => .ok (.bool (l > r))
  | .ge => .ok (.bool (l ≥ r))
  | .lt => .ok (.bool (l < r))
  | .le => .ok (.bool (l ≤ r))

/-- Of two operands that are no integers the left one is reported. -/
def Operator.apply (op : Operator) (lhs rhs : Value) : Except Fault Value :=
  match lhs, rhs with
  | .int l, .int r => op.onIntegers l.toInt r.toInt
  | .int _, other => .error (.typeMismatch .int other.ty)
  | other, _ => .error (.typeMismatch .int other.ty)

/-- The place in an array of this length that a value indexes. -/
def elementIndex (index : Value) (length : Nat) : Except Fault (Fin length) :=
  match index with
  | .int n =>
    if h : 0 ≤ n.toInt ∧ n.toInt < length then .ok ⟨n.toInt.toNat, (Int.toNat_lt h.1).2 h.2⟩
    else .error (.indexOutOfRange n length)
  | other => .error (.typeMismatch .int other.ty)

/-- One step from an integer toward another. -/
def stepToward (current last : Int64) : Int64 :=
  if current < last then current + 1
  else if last < current then current - 1
  else current

end StackScript
