import StackScript.Proofs.Meaning

/-!
# What formulas mean

Formulas are expressions without calls. Their meaning is that of arithmetic, apart from the range of
its results, and the first fault from the left.

* `Operator.Yields`, `Env.Yields`, `Expr.Yields`: what operators, arrays and formulas yield;
* `Operator.yields_iff`, `Env.yields_iff`: operators and arrays compute what they are to yield;
* `Expr.exists_yields`: each formula yields a value or a fault.
-/

namespace StackScript

/-! ## Operators -/

namespace Operator

/-- Arithmetic over all integers. Quotients drop the fraction, and none is divided by zero. -/
def number? : Operator → Int → Int → Option Int
  | add, l, r => some (l + r)
  | sub, l, r => some (l - r)
  | mul, l, r => some (l * r)
  | div, l, r => if r = 0 then none else some (l.tdiv r)
  | _, _, _ => none

/-- Comparison of integers. -/
def truth? : Operator → Int → Int → Option Bool
  | eq, l, r => some (l = r)
  | ne, l, r => some (l ≠ r)
  | gt, l, r => some (r < l)
  | ge, l, r => some (r ≤ l)
  | lt, l, r => some (l < r)
  | le, l, r => some (l ≤ r)
  | _, _, _ => none

/-- What two values yield under an operator. -/
inductive Yields (op : Operator) : Value → Value → Except Fault Value → Prop
  | leftType {l r : Value} : l.ty ≠ .int → Yields op l r (.error (.typeMismatch .int l.ty))
  | rightType {l : Int64} {r : Value} : r.ty ≠ .int →
    Yields op (.int l) r (.error (.typeMismatch .int r.ty))
  | number {l r n : Int64} : op.number? l.toInt r.toInt = some n.toInt →
    Yields op (.int l) (.int r) (.ok (.int n))
  | overflow {l r : Int64} {x : Int} : op.number? l.toInt r.toInt = some x →
    x < -9223372036854775808 ∨ 9223372036854775807 < x →
    Yields op (.int l) (.int r) (.error .overflow)
  | byZero {l r : Int64} : op = div → r.toInt = 0 →
    Yields op (.int l) (.int r) (.error .divisionByZero)
  | truth {l r : Int64} {b : Bool} : op.truth? l.toInt r.toInt = some b →
    Yields op (.int l) (.int r) (.ok (.bool b))

end Operator

theorem Integer.toValue_toInt (n : Int64) : Integer.toValue n.toInt = .ok (.int n) := by
  have fits : Fits n.toInt := ⟨n.le_toInt, Int.le_of_lt_add_one n.toInt_lt⟩
  rw [toValue, ofInt?, if_pos fits, n.ofInt_toInt]

theorem Integer.toValue_eq_overflow {x : Int} :
    Integer.toValue x = .error .overflow ↔ x < -9223372036854775808 ∨ 9223372036854775807 < x := by
  rw [toValue, ofInt?]
  by_cases fits : Fits x
  · rw [if_pos fits]
    unfold Fits at fits
    constructor
    · rintro ⟨⟩
    · omega
  · rw [if_neg fits]
    unfold Fits at fits
    simp only [true_iff]
    omega

/-- A result is a number of 64 bits, or it overflows. -/
theorem Integer.toValue_cases (x : Int) :
    (∃ n : Int64, x = n.toInt) ∨ Integer.toValue x = .error .overflow := by
  by_cases fits : Fits x
  · exact .inl ⟨Int64.ofInt x, (Int64.toInt_ofInt_of_le fits.1 (by have := fits.2; omega)).symm⟩
  · right
    rw [toValue, ofInt?, if_neg fits]

namespace Operator

variable {op : Operator} {l r : Int64}

theorem onIntegers_number {l r x : Int} (h : op.number? l r = some x) :
    op.onIntegers l r = Integer.toValue x := by
  cases op with
  | div =>
    by_cases zero : r = 0
    · simp [number?, zero] at h
    · simp only [number?, if_neg zero, Option.some.injEq] at h
      rw [onIntegers, if_neg zero, h]
  | add | sub | mul =>
    obtain rfl := Option.some.inj h
    rfl
  | _ => cases h

theorem onIntegers_truth {l r : Int} {b : Bool} (h : op.truth? l r = some b) :
    op.onIntegers l r = .ok (.bool b) := by
  cases op with
  | add | sub | mul | div => cases h
  | _ =>
    obtain rfl := Option.some.inj h
    rfl

/-- An operator is arithmetic or a comparison, or divides by zero. -/
theorem integers_cases (op : Operator) (l r : Int) :
    (∃ x, op.number? l r = some x) ∨ (∃ b, op.truth? l r = some b) ∨ op = div ∧ r = 0 := by
  cases op with
  | add | sub | mul => exact .inl ⟨_, rfl⟩
  | div =>
    by_cases zero : r = 0
    · exact .inr (.inr ⟨rfl, zero⟩)
    · exact .inl ⟨_, if_neg zero⟩
  | _ => exact .inr (.inl ⟨_, rfl⟩)

theorem Yields.eq {l r : Value} {x : Except Fault Value} (h : op.Yields l r x) :
    op.apply l r = x := by
  cases h with
  | leftType other =>
    cases l with
    | int => exact absurd rfl other
    | _ => rfl
  | rightType other =>
    cases r with
    | int => exact absurd rfl other
    | _ => rfl
  | number h => rw [apply, onIntegers_number h, Integer.toValue_toInt]
  | overflow h outside => rw [apply, onIntegers_number h, Integer.toValue_eq_overflow.2 outside]
  | byZero div zero =>
    subst div
    rw [apply, onIntegers, if_pos zero]
  | truth h => rw [apply, onIntegers_truth h]

theorem yields_apply (op : Operator) (l r : Value) : op.Yields l r (op.apply l r) := by
  cases l with
  | int l =>
    cases r with
    | int r =>
      obtain ⟨x, h⟩ | ⟨b, h⟩ | ⟨rfl, zero⟩ := op.integers_cases l.toInt r.toInt
      · rw [apply, onIntegers_number h]
        obtain ⟨n, rfl⟩ | overflow := Integer.toValue_cases x
        · rw [Integer.toValue_toInt]
          exact .number h
        · rw [overflow]
          exact .overflow h (Integer.toValue_eq_overflow.1 overflow)
      · rw [apply, onIntegers_truth h]
        exact .truth h
      · rw [apply, onIntegers, if_pos zero]
        exact .byZero rfl zero
    | _ => exact .rightType nofun
  | _ => exact .leftType nofun

theorem yields_iff {l r : Value} {x : Except Fault Value} :
    op.Yields l r x ↔ op.apply l r = x :=
  ⟨Yields.eq, fun h => h ▸ yields_apply op l r⟩

end Operator

/-! ## Arrays -/

/-- What the variable of a name holds at an index. -/
inductive Env.Yields (env : Env) (name : String) : Value → Except Fault Value → Prop
  | unbound {i : Value} : env name = none → Yields env name i (.error (.undeclaredVariable name))
  | noArray {i : Value} {b : Binding} : env name = some b → b.value.ty ≠ .array →
    Yields env name i (.error (.typeMismatch .array b.value.ty))
  | indexType {i : Value} {items : List Value} {ty : Ty} : env name = some ⟨.array items, ty⟩ →
    i.ty ≠ .int → Yields env name i (.error (.typeMismatch .int i.ty))
  | outside {n : Int64} {items : List Value} {ty : Ty} : env name = some ⟨.array items, ty⟩ →
    n.toInt < 0 ∨ items.length ≤ n.toInt →
    Yields env name (.int n) (.error (.indexOutOfRange n items.length))
  | item {n : Int64} {k : Nat} {items : List Value} {ty : Ty} {v : Value} :
    env name = some ⟨.array items, ty⟩ → n.toInt = k → items[k]? = some v →
    Yields env name (.int n) (.ok v)

namespace Env

variable {env : Env} {name : String}

theorem item_of_array {items : List Value} {ty : Ty} (h : env name = some ⟨.array items, ty⟩)
    (i : Value) :
    env.item name i = (elementIndex i items.length).map items.get := by
  simp only [item, Env.items, lookup, h, Value.toItems, Bind.bind, Except.bind]
  cases elementIndex i items.length <;> rfl

theorem Yields.eq {i : Value} {x : Except Fault Value} (h : env.Yields name i x) :
    env.item name i = x := by
  cases h with
  | unbound h =>
    rw [Env.item, Env.items, lookup, h]
    rfl
  | @noArray _ b h other =>
    obtain ⟨v, ty⟩ := b
    rw [Env.item, Env.items, lookup, h]
    cases v with
    | array => exact absurd rfl other
    | _ => rfl
  | indexType h other =>
    rw [item_of_array h]
    cases i with
    | int => exact absurd rfl other
    | _ => rfl
  | outside h outside =>
    rw [item_of_array h, elementIndex, dif_neg (by omega)]
    rfl
  | @item n k items ty v h place found =>
    obtain ⟨within, rfl⟩ := List.getElem?_eq_some_iff.1 found
    have inside : 0 ≤ n.toInt ∧ n.toInt < items.length := by omega
    have same : n.toInt.toNat = k := by omega
    rw [item_of_array h, elementIndex, dif_pos inside]
    simp [Except.map, same]

theorem yields_item (env : Env) (name : String) (i : Value) :
    env.Yields name i (env.item name i) := by
  cases h : env name with
  | none =>
    have unbound : env.Yields name i _ := .unbound h
    rwa [unbound.eq]
  | some b =>
    obtain ⟨v, ty⟩ := b
    cases v with
    | array items =>
      cases i with
      | int n =>
        by_cases inside : 0 ≤ n.toInt ∧ n.toInt < items.length
        · have within : n.toInt.toNat < items.length := (Int.toNat_lt inside.1).2 inside.2
          have item : env.Yields name (.int n) _ :=
            .item h (Int.toNat_of_nonneg inside.1).symm (List.getElem?_eq_getElem within)
          rwa [item.eq]
        · have outside : env.Yields name (.int n) _ := .outside h (by omega)
          rwa [outside.eq]
      | _ =>
        rw [item_of_array h]
        exact .indexType h (by rintro ⟨⟩)
    | _ =>
      have noArray : env.Yields name i _ := .noArray h (by rintro ⟨⟩)
      rw [noArray.eq]
      exact noArray

theorem yields_iff {i : Value} {x : Except Fault Value} :
    env.Yields name i x ↔ env.item name i = x :=
  ⟨Yields.eq, fun h => h ▸ yields_item env name i⟩

end Env

/-! ## Expressions -/

mutual

/-- There is no call in the expression. -/
def Expr.CallFree : Expr → Prop
  | .binary _ _ lhs rhs => lhs.CallFree ∧ rhs.CallFree
  | .literal .. | .var .. => True
  | .call .. => False
  | .index _ _ index => index.CallFree
  | .array _ items => AllCallFree items
  | .paren _ inner => inner.CallFree

def AllCallFree : List Expr → Prop
  | [] => True
  | e :: es => e.CallFree ∧ AllCallFree es

end

mutual

/-- What an expression yields with these variables: a value, or a fault at the place of the node
that comes to it first. -/
inductive Expr.Yields (env : Env) : Expr → Except ExecutionError Value → Prop
  | literal {pos : Position} {value : Literal} :
    Expr.Yields env (.literal pos value) (.ok value.toValue)
  | var {pos : Position} {name : String} {b : Binding} : env name = some b →
    Expr.Yields env (.var pos name) (.ok b.value)
  | unbound {pos : Position} {name : String} : env name = none →
    Expr.Yields env (.var pos name) (.error ⟨pos, .undeclaredVariable name⟩)
  | paren {pos : Position} {inner : Expr} {x : Except ExecutionError Value} :
    Expr.Yields env inner x → Expr.Yields env (.paren pos inner) x
  | leftFault {pos : Position} {op : Operator} {lhs rhs : Expr} {e : ExecutionError} :
    Expr.Yields env lhs (.error e) → Expr.Yields env (.binary pos op lhs rhs) (.error e)
  | rightFault {pos : Position} {op : Operator} {lhs rhs : Expr} {l : Value} {e : ExecutionError} :
    Expr.Yields env lhs (.ok l) → Expr.Yields env rhs (.error e) →
    Expr.Yields env (.binary pos op lhs rhs) (.error e)
  | binary {pos : Position} {op : Operator} {lhs rhs : Expr} {l r : Value}
    {x : Except Fault Value} :
    Expr.Yields env lhs (.ok l) → Expr.Yields env rhs (.ok r) → op.Yields l r x →
    Expr.Yields env (.binary pos op lhs rhs) (x.mapError (⟨pos, ·⟩))
  | indexFault {pos : Position} {name : String} {index : Expr} {e : ExecutionError} :
    Expr.Yields env index (.error e) → Expr.Yields env (.index pos name index) (.error e)
  | index {pos : Position} {name : String} {index : Expr} {i : Value} {x : Except Fault Value} :
    Expr.Yields env index (.ok i) → env.Yields name i x →
    Expr.Yields env (.index pos name index) (x.mapError (⟨pos, ·⟩))
  | array {pos : Position} {items : List Expr} {x : Except ExecutionError (List Value)} :
    AllYield env items x → Expr.Yields env (.array pos items) (x.map .array)

/-- What expressions yield one after another. -/
inductive AllYield (env : Env) : List Expr → Except ExecutionError (List Value) → Prop
  | nil : AllYield env [] (.ok [])
  | fault {e : Expr} {es : List Expr} {error : ExecutionError} :
    Expr.Yields env e (.error error) → AllYield env (e :: es) (.error error)
  | cons {e : Expr} {es : List Expr} {v : Value} {x : Except ExecutionError (List Value)} :
    Expr.Yields env e (.ok v) → AllYield env es x → AllYield env (e :: es) (x.map (v :: ·))

end

mutual

theorem Expr.exists_yields (env : Env) : ∀ e : Expr, e.CallFree → ∃ x, e.Yields env x
  | .literal _ _, _ => ⟨_, .literal⟩
  | .var _ name, _ => by
    cases h : env name with
    | none => exact ⟨_, .unbound h⟩
    | some b => exact ⟨_, .var h⟩
  | .paren _ inner, free => by
    obtain ⟨x, h⟩ := inner.exists_yields env free
    exact ⟨x, .paren h⟩
  | .binary _ op lhs rhs, free => by
    obtain ⟨l | l, left⟩ := lhs.exists_yields env free.1
    · exact ⟨_, .leftFault left⟩
    obtain ⟨r | r, right⟩ := rhs.exists_yields env free.2
    · exact ⟨_, .rightFault left right⟩
    · exact ⟨_, .binary left right (op.yields_apply l r)⟩
  | .index _ name index, free => by
    obtain ⟨i | i, h⟩ := index.exists_yields env free
    · exact ⟨_, .indexFault h⟩
    · exact ⟨_, .index h (env.yields_item name i)⟩
  | .array _ items, free => by
    obtain ⟨x, h⟩ := exists_allYield env items free
    exact ⟨_, .array h⟩

theorem exists_allYield (env : Env) : ∀ es : List Expr, AllCallFree es → ∃ x, AllYield env es x
  | [], _ => ⟨_, .nil⟩
  | e :: es, free => by
    obtain ⟨v | v, first⟩ := e.exists_yields env free.1
    · exact ⟨_, .fault first⟩
    · obtain ⟨x, others⟩ := exists_allYield env es free.2
      exact ⟨_, .cons first others⟩

end

end StackScript
