import StackScript.Proofs.Locals
import StackScript.Proofs.Stacks

/-!
# Operators and their operands

All operands of an expression wait on one stack. An operator whose operand is a call without a value
finds too few values there, or one that waits for another operator.

* `Expr.crossed`, `Expr.crossed_binary`: what lies on the stack behind an expression and behind its
  operands;
* `Machine.Computes`: a value and the states between which operators compute it from their operands;
* `operands_own`: an operator is applied to its own operands, or misses one;
* `borrowing_operand`: where another operand waits, the operator that misses one does not say so.
-/

namespace StackScript

section

variable {functions : List Function} {m : Machine} {s t : State} {calls : List Frame}
  {rest : Scopes} {waiting stack : List Value} {vars : List (String × Binding)} {final : Bool}

/-- Steps that lead past the code of an expression lead through it. -/
theorem Expr.through (hp : Compiled functions m.host.contains m.program) (hh : m.host.Direct)
    {e : Expr} {lo hi : Nat}
    (placed : m.program.CodeAt s.pc (e.code (signatures functions)))
    (hs : s.At s.pc s.calls (⟨stack, vars, final⟩ :: rest) waiting)
    (along : m.Along (m.RunsIn s.calls lo hi) s t)
    (past : ¬t.In s.calls s.pc (s.pc + (e.code (signatures functions)).length)) :
    ∃ x stack', e.Leaves stack stack' ∧ x.At x.pc s.calls (⟨stack', vars, final⟩ :: rest) waiting ∧
      m.Crosses s.pc (s.pc + (e.code (signatures functions)).length) s x ∧
      m.Along (m.RunsIn s.calls lo hi) x t := by
  have passes := e.passes hp hh placed (Nat.le_refl _) (Nat.le_refl _) (Nat.zero_le _) hs
  obtain busy | ⟨x, ⟨stack', leaves, hx⟩, front, behind⟩ := passes _ t along
  · exact absurd busy.place past
  · exact ⟨x, stack', leaves, hx.at hx.pc.symm,
      ⟨front.imp fun _ on => .of_direct hh on.1.1 on.2.place, hx.running, hx.pc, hx.calls⟩, behind⟩

/-- What lies on the stack behind an expression. -/
theorem Expr.crossed (hp : Compiled functions m.host.contains m.program) (hh : m.host.Direct)
    {e : Expr} (placed : m.program.CodeAt s.pc (e.code (signatures functions)))
    (hs : s.At s.pc s.calls (⟨stack, vars, final⟩ :: rest) waiting)
    (crosses : m.Crosses s.pc (s.pc + (e.code (signatures functions)).length) s t) :
    ∃ stack', e.Leaves stack stack' ∧
      t.At t.pc s.calls (⟨stack', vars, final⟩ :: rest) waiting := by
  have past := fun inside => crosses.past (.of_direct hh crosses.running inside)
  obtain ⟨x, stack', leaves, hx, crosses', -⟩ := e.through hp hh placed hs crosses.along past
  obtain rfl := crosses.unique crosses'
  exact ⟨stack', leaves, hx⟩

/-- Through the operands of an operator, and behind them there is one step to its end. -/
theorem Expr.crossed_binary (hp : Compiled functions m.host.contains m.program)
    (hh : m.host.Direct) {pos : Position} {op : Operator} {lhs rhs : Expr}
    (placed : m.program.CodeAt s.pc ((Expr.binary pos op lhs rhs).code (signatures functions)))
    (hs : s.At s.pc s.calls (⟨stack, vars, final⟩ :: rest) waiting)
    (crosses : m.Crosses s.pc
      (s.pc + ((Expr.binary pos op lhs rhs).code (signatures functions)).length) s t) :
    ∃ x y between operands, lhs.Leaves stack between ∧ rhs.Leaves between operands ∧
      x.At x.pc x.calls (⟨between, vars, final⟩ :: rest) waiting ∧
      y.At y.pc y.calls (⟨operands, vars, final⟩ :: rest) waiting ∧
      m.Crosses s.pc (s.pc + (lhs.code (signatures functions)).length) s x ∧
      m.Crosses x.pc (x.pc + (rhs.code (signatures functions)).length) x y ∧
      m.step y = .ok () t := by
  obtain ⟨leftCode, rightCode, apply⟩ := Expr.binary_at placed
  have length : ((Expr.binary pos op lhs rhs).code (signatures functions)).length =
      (lhs.code (signatures functions)).length +
        (rhs.code (signatures functions)).length + 1 := by
    simp only [Expr.code, List.length_append, List.length_singleton]
  have ends := crosses.pc
  have same := congrArg List.length crosses.calls
  have past {pc : Nat} {calls : List Frame} (hc : calls.length = s.calls.length)
      (before : pc ≤ t.pc) {lo : Nat} : ¬t.In calls lo pc := by
    rintro (deeper | ⟨-, -, inside⟩) <;> omega
  obtain ⟨x, between, leftLeaves, hx, left, behind⟩ :=
    lhs.through hp hh leftCode hs crosses.along (past rfl (by omega))
  have xpc := left.pc
  rw [← left.calls] at behind hx
  obtain ⟨y, operands, rightLeaves, hy, right, behind⟩ :=
    rhs.through hp hh (xpc.symm ▸ rightCode) hx behind
      (past (congrArg List.length left.calls) (by omega))
  have ypc := right.pc
  rw [← right.calls] at hy
  refine ⟨x, y, between, operands, leftLeaves, rightLeaves, hx, hy, left, right, ?_⟩
  cases behind with
  | refl => omega
  | @step _ u _ _ step later =>
    obtain ⟨-, v, hu⟩ := hy.takes (ypc.symm ▸ xpc.symm ▸ apply) rfl step
    -- The operator is the last instruction, and steps behind it would not be inside.
    cases later with
    | refl => exact step
    | step here =>
      rcases here.inside with deeper | ⟨-, -, inside⟩
      · rw [hu.calls, right.calls] at deeper
        exact absurd deeper (Nat.lt_irrefl _)
      · rw [hu.pc] at inside
        omega

/-- An operator is applied to the last two values on the stack. -/
theorem State.At.apply {op : Operator} {pos : Position} {pc : Nat} {l r : Value}
    (hs : s.At pc calls (⟨r :: l :: stack, vars, final⟩ :: rest) waiting)
    (instr : m.program.code[pc]? = some (.plain (.apply op) pos)) (step : m.step s = .ok () t) :
    ∃ v, op.apply l r = .ok v ∧ t.scopes = ⟨v :: stack, vars, final⟩ :: rest := by
  have run := hs.executes instr step
  obtain ⟨_, _, popped, run⟩ := Exec.bind_eq_ok.1 run
  obtain ⟨_, ⟨⟩, rfl⟩ := (Exec.pop_eq_ok hs.counted.scopes).1 popped
  obtain ⟨_, _, popped, run⟩ := Exec.bind_eq_ok.1 run
  obtain ⟨_, ⟨⟩, rfl⟩ := (Exec.pop_eq_ok rfl).1 popped
  obtain ⟨v, _, applied, run⟩ := Exec.bind_eq_ok.1 run
  obtain ⟨value, rfl⟩ := Exec.ofExcept_eq_ok.1 applied
  obtain rfl := (Exec.push_eq_ok rfl).1 run
  exact ⟨v, value, rfl⟩

/-- With fewer than two values there, it says that the stack is empty. -/
theorem State.At.apply_short {op : Operator} {pos : Position} {pc : Nat}
    (hs : s.At pc calls (⟨stack, vars, final⟩ :: rest) waiting)
    (instr : m.program.code[pc]? = some (.plain (.apply op) pos)) (short : stack.length < 2)
    (hb : m.exhausted? s.steps = none) : ∃ t, m.step s = .error ⟨pos, .emptyStack⟩ t := by
  have scopes := hs.counted.scopes
  rw [Machine.step_eq_execute (hs.pc.symm ▸ instr) hb]
  match stack, short with
  | [], _ =>
    simp only [Instr.plain, Machine.execute, Exec.run_bind, Exec.run_pop, scopes]
    exact ⟨_, rfl⟩
  | [v], _ =>
    simp only [Instr.plain, Machine.execute, Exec.run_bind, Exec.run_pop, scopes]
    exact ⟨_, rfl⟩

end

/-! ## Values of expressions -/

/-- No operator, in parentheses or not. -/
def Expr.isAtom : Expr → Bool
  | .binary .. | .paren .. => false
  | _ => true

/-- From `s` to `t` the expression puts this value on the stack, and each operator in it is applied
to the values of its own operands. -/
inductive Machine.Computes (m : Machine) (sigs : Signatures) : Expr → Value → State → State → Prop
  | atom {e : Expr} {v : Value} {s t : State} : e.isAtom = true →
    m.Crosses s.pc (s.pc + (e.code sigs).length) s t → s.scopes.push v = .ok t.scopes →
    Computes m sigs e v s t
  | paren {pos : Position} {inner : Expr} {v : Value} {s t : State} :
    Computes m sigs inner v s t → Computes m sigs (.paren pos inner) v s t
  | binary {pos : Position} {op : Operator} {lhs rhs : Expr} {l r v : Value} {s x y t : State} :
    Computes m sigs lhs l s x → Computes m sigs rhs r x y → op.apply l r = .ok v →
    m.step y = .ok () t → s.scopes.push v = .ok t.scopes →
    Computes m sigs (.binary pos op lhs rhs) v s t

section

variable {functions : List Function} {m : Machine} {rest : Scopes} {vars : List (String × Binding)}
  {final : Bool}

theorem Expr.computes_atom {e : Expr} (atom : e.isAtom = true)
    (hp : Compiled functions m.host.contains m.program) (hh : m.host.Direct) {s t : State}
    {before after waiting : List Value}
    (placed : m.program.CodeAt s.pc (e.code (signatures functions)))
    (hs : s.At s.pc s.calls (⟨before, vars, final⟩ :: rest) waiting)
    (crosses : m.Crosses s.pc (s.pc + (e.code (signatures functions)).length) s t)
    (scopes : t.scopes = ⟨after, vars, final⟩ :: rest) (more : before.length < after.length) :
    ∃ v, after = v :: before ∧ m.Computes (signatures functions) e v s t := by
  obtain ⟨after', leaves, ht⟩ := e.crossed hp hh placed hs crosses
  obtain rfl : after = after' := by simpa [ht.scopes] using scopes.symm
  obtain ⟨v, _, rfl⟩ := List.exists_cons_of_length_pos (Nat.zero_lt_of_lt more)
  obtain rfl := leaves.own more
  refine ⟨v, rfl, .atom atom crosses ?_⟩
  rw [hs.scopes, scopes]
  rfl

/-- An expression that leaves one value more has computed it from its own operands. -/
theorem Expr.computes (hp : Compiled functions m.host.contains m.program) (hh : m.host.Direct) :
    ∀ (e : Expr) {s t : State} {before after waiting : List Value},
      m.program.CodeAt s.pc (e.code (signatures functions)) →
      s.At s.pc s.calls (⟨before, vars, final⟩ :: rest) waiting →
      m.Crosses s.pc (s.pc + (e.code (signatures functions)).length) s t →
      t.scopes = ⟨after, vars, final⟩ :: rest → before.length < after.length →
      ∃ v, after = v :: before ∧ m.Computes (signatures functions) e v s t
  | .paren pos inner, _, _, _, _, _ => by
    intro placed hs crosses scopes more
    obtain ⟨v, eq, computes⟩ := inner.computes hp hh placed hs crosses scopes more
    exact ⟨v, eq, .paren computes⟩
  | .binary pos op lhs rhs, s, t, before, after, _ => by
    intro placed hs crosses scopes more
    obtain ⟨leftCode, rightCode, apply⟩ := Expr.binary_at placed
    obtain ⟨x, y, between, operands, leftLeaves, rightLeaves, hx, hy, left, right, step⟩ :=
      Expr.crossed_binary hp hh placed hs crosses
    rw [← left.pc] at rightCode
    rw [← left.pc, ← right.pc] at apply
    obtain ⟨enough, w, ht⟩ := hy.takes apply rfl step
    have mine : before.length < between.length ∧ between.length < operands.length := by
      have := leftLeaves.most
      have := rightLeaves.most
      obtain rfl : after = w :: operands.drop 2 := by simpa [ht.scopes] using scopes.symm
      rw [List.length_cons, List.length_drop] at more
      omega
    obtain ⟨l, rfl, lhsComputes⟩ := lhs.computes hp hh leftCode hs left hx.scopes mine.1
    obtain ⟨r, rfl, rhsComputes⟩ := rhs.computes hp hh rightCode hx right hy.scopes mine.2
    obtain ⟨v, applied, result⟩ := hy.apply apply step
    obtain rfl : after = v :: before := by simpa [result] using scopes.symm
    refine ⟨v, rfl, .binary lhsComputes rhsComputes applied step ?_⟩
    rw [hs.scopes, scopes]
    rfl
  | .literal .., _, _, _, _, _ => fun placed hs crosses scopes more =>
    Expr.computes_atom rfl hp hh placed hs crosses scopes more
  | .var .., _, _, _, _, _ => fun placed hs crosses scopes more =>
    Expr.computes_atom rfl hp hh placed hs crosses scopes more
  | .call .., _, _, _, _, _ => fun placed hs crosses scopes more =>
    Expr.computes_atom rfl hp hh placed hs crosses scopes more
  | .index .., _, _, _, _, _ => fun placed hs crosses scopes more =>
    Expr.computes_atom rfl hp hh placed hs crosses scopes more
  | .array .., _, _, _, _, _ => fun placed hs crosses scopes more =>
    Expr.computes_atom rfl hp hh placed hs crosses scopes more

end

/-- What an expression leaves on the stack it has computed from its own operands, or it leaves no
more values than it has found. An operator is applied to the values of its own operands, or misses
one, and where no other operand waits, it says that the stack is empty. -/
theorem operands_own {functions : List Function} {m : Machine}
    (h : compile functions m.host.contains = .ok m.program) (hh : m.host.Direct) :
    (∀ (e : Expr) (s t : State) (before : List Value) (vars : List (String × Binding))
      (final : Bool) (rest : Scopes), m.program.CodeAt s.pc (e.code (signatures functions)) →
      s.scopes = ⟨before, vars, final⟩ :: rest →
      m.Crosses s.pc (s.pc + (e.code (signatures functions)).length) s t →
      ∃ after, t.scopes = ⟨after, vars, final⟩ :: rest ∧
        ((∃ v, after = v :: before ∧ m.Computes (signatures functions) e v s t) ∨
          after.length ≤ before.length)) ∧
    ∀ (pos : Position) (op : Operator) (lhs rhs : Expr) (s x t : State) (before : List Value)
      (vars : List (String × Binding)) (final : Bool) (rest : Scopes),
      m.program.CodeAt s.pc ((Expr.binary pos op lhs rhs).code (signatures functions)) →
      s.scopes = ⟨before, vars, final⟩ :: rest →
      m.Crosses s.pc (s.pc + (lhs.code (signatures functions)).length) s x →
      m.Crosses x.pc (x.pc + (rhs.code (signatures functions)).length) x t →
      ∃ between operands, x.scopes = ⟨between, vars, final⟩ :: rest ∧
        t.scopes = ⟨operands, vars, final⟩ :: rest ∧
        m.program.code[t.pc]? = some (.plain (.apply op) pos) ∧ t.calls = s.calls ∧
        ((∃ l r, between = l :: before ∧ operands = r :: between ∧
            m.Computes (signatures functions) lhs l s x ∧
            m.Computes (signatures functions) rhs r x t ∧
            ∀ u, m.step t = .ok () u →
              ∃ v, op.apply l r = .ok v ∧ u.scopes = ⟨v :: before, vars, final⟩ :: rest) ∨
          ((between.length ≤ before.length ∨ operands.length ≤ between.length) ∧
            (before = [] → m.exhausted? t.steps = none →
              ∃ u, m.step t = .error ⟨pos, .emptyStack⟩ u))) := by
  have hp := compiled_of_compile h
  refine ⟨fun e s t before vars final rest placed scopes crosses => ?_,
    fun pos op lhs rhs s x t before vars final rest placed scopes left right => ?_⟩
  · have hs : s.At s.pc s.calls _ s.waiting := ⟨crosses.starts, rfl, rfl, scopes, rfl⟩
    obtain ⟨after, -, ht⟩ := e.crossed hp hh placed hs crosses
    refine ⟨after, ht.scopes, ?_⟩
    by_cases more : before.length < after.length
    · exact .inl (e.computes hp hh placed hs crosses ht.scopes more)
    · exact .inr (Nat.le_of_not_lt more)
  · obtain ⟨leftCode, rightCode, apply⟩ := Expr.binary_at placed
    rw [← left.pc] at rightCode
    rw [← left.pc, ← right.pc] at apply
    have hs : s.At s.pc s.calls _ s.waiting := ⟨left.starts, rfl, rfl, scopes, rfl⟩
    obtain ⟨between, leftLeaves, hx⟩ := lhs.crossed hp hh leftCode hs left
    rw [← left.calls] at hx
    obtain ⟨operands, rightLeaves, ht⟩ := rhs.crossed hp hh rightCode hx right
    refine ⟨between, operands, hx.scopes, ht.scopes, apply, right.calls.trans left.calls, ?_⟩
    by_cases all : before.length < between.length ∧ between.length < operands.length
    · obtain ⟨l, rfl, lhsComputes⟩ := lhs.computes hp hh leftCode hs left hx.scopes all.1
      obtain ⟨r, rfl, rhsComputes⟩ := rhs.computes hp hh rightCode hx right ht.scopes all.2
      exact .inl ⟨l, r, rfl, rfl, lhsComputes, rhsComputes, fun u step => ht.apply apply step⟩
    · refine .inr ⟨by omega, fun none budget => ht.apply_short apply ?_ budget⟩
      have := leftLeaves.most
      have := rightLeaves.most
      have empty : before.length = 0 := congrArg List.length none
      omega

/-- An operand that is a call with a value, and one that is a call without. -/
def given : Expr :=
  .binary ⟨2, 7⟩ .add (.call ⟨2, 1⟩ ⟨2, 1⟩ "two" []) (.literal ⟨2, 9⟩ (.int 1))

def lacking : Expr :=
  .binary ⟨3, 5⟩ .div (.call ⟨3, 1⟩ ⟨3, 1⟩ "v" []) (.literal ⟨3, 7⟩ (.int 0))

def givenAndLacking : List Function :=
  [⟨⟨1, 1⟩, "main", [], none, [.expr ⟨2, 1⟩ given, .expr ⟨3, 1⟩ lacking]⟩,
    ⟨⟨5, 1⟩, "v", [], none, []⟩,
    ⟨⟨7, 1⟩, "two", [], some .int, [.ret ⟨8, 1⟩ (some (.literal ⟨8, 8⟩ (.int 2)))]⟩]

theorem operands_own_lacking :
    ∃ (m : Machine) (s t x y z u : State),
      compile givenAndLacking m.host.contains = .ok m.program ∧ m.host.Direct ∧
      m.Computes (signatures givenAndLacking) given (.int 3) s t ∧
      m.program.CodeAt x.pc (lacking.code (signatures givenAndLacking)) ∧
      m.Crosses x.pc (x.pc + 1) x y ∧ m.Crosses y.pc (y.pc + 1) y z ∧
      m.step z = .error ⟨⟨3, 5⟩, .emptyStack⟩ u := by
  have direct : Host.Direct [] := fun _ _ h => by cases h
  obtain ⟨p, s, t, x, y, z, hp, -, code, scopes, -, crosses, after, -, code', scopes', -, left,
      unanswered, -, right⟩ : ∃ p s t x y z, compile givenAndLacking (Host.contains []) = .ok p ∧
      Machine.runFor ⟨p, [], none⟩ 3 (.initial p.entry (.ofInput [] none)) = .ok () s ∧
      p.CodeAt s.pc (given.code (signatures givenAndLacking)) ∧
      s.scopes = [⟨[], [], false⟩, ⟨[], [], true⟩, ⟨[], [], true⟩] ∧
      Machine.runFor ⟨p, [], none⟩ 9 s = .ok () t ∧
      Machine.Crosses ⟨p, [], none⟩ s.pc (s.pc + 3) s t ∧
      t.scopes = [⟨[.int 3], [], false⟩, ⟨[], [], true⟩, ⟨[], [], true⟩] ∧
      Machine.runFor ⟨p, [], none⟩ 2 t = .ok () x ∧
      p.CodeAt x.pc (lacking.code (signatures givenAndLacking)) ∧
      x.scopes = [⟨[], [], false⟩, ⟨[], [], true⟩, ⟨[], [], true⟩] ∧
      Machine.runFor ⟨p, [], none⟩ 3 x = .ok () y ∧
      Machine.Crosses ⟨p, [], none⟩ x.pc (x.pc + 1) x y ∧ y.scopes = x.scopes ∧
      Machine.runFor ⟨p, [], none⟩ 1 y = .ok () z ∧
      Machine.Crosses ⟨p, [], none⟩ y.pc (y.pc + 1) y z := by
    refine ⟨_, _, _, _, _, _, rfl, rfl, ?_, rfl, rfl, ⟨?_, rfl, rfl, rfl⟩, rfl, rfl, ?_, rfl, rfl,
      ⟨?_, rfl, rfl, rfl⟩, rfl, rfl, ⟨?_, rfl, rfl, rfl⟩⟩
    · iterate 3 refine Program.codeAt_cons.2 ⟨rfl, ?_⟩
      exact Program.codeAt_nil
    · refine .step (.of_direct direct rfl (.inr ⟨rfl, by decide, by decide⟩)) rfl ?_
      iterate 6 refine .step (.of_direct direct rfl (.inl (by decide))) rfl ?_
      iterate 2 refine .step (.of_direct direct rfl (.inr ⟨rfl, by decide, by decide⟩)) rfl ?_
      exact .refl _
    · iterate 3 refine Program.codeAt_cons.2 ⟨rfl, ?_⟩
      exact Program.codeAt_nil
    · refine .step (.of_direct direct rfl (.inr ⟨rfl, by decide, by decide⟩)) rfl ?_
      iterate 2 refine .step (.of_direct direct rfl (.inl (by decide))) rfl ?_
      exact .refl _
    · exact .step (.of_direct direct rfl (.inr ⟨rfl, by decide, by decide⟩)) rfl (.refl _)
  obtain ⟨values, operators⟩ := operands_own (m := ⟨p, [], none⟩) hp direct
  obtain ⟨_, found, ⟨v, rfl, computes⟩ | short⟩ := values _ _ _ _ _ _ _ code scopes crosses
  · obtain rfl : v = .int 3 := by simpa [after] using found.symm
    obtain ⟨between, operands, left', -, -, -, ⟨l, r, rfl, rfl, -⟩ | ⟨-, fails⟩⟩ :=
      operators _ _ _ _ _ _ _ _ _ _ _ code' scopes' left right
    · simp [unanswered, scopes'] at left'
    · obtain ⟨u, fails⟩ := fails rfl rfl
      exact ⟨_, s, t, x, y, z, u, hp, direct, computes, code', left, right, fails⟩
  · rw [after] at found
    cases found
    cases short

/-- The call without a value is an operand of the division, and another value waits for the sum. -/
def quotient : Expr :=
  .binary ⟨1, 48⟩ .div (.call ⟨1, 44⟩ ⟨1, 44⟩ "v" []) (.literal ⟨1, 50⟩ (.int 0))

def borrowing : List Function :=
  [⟨⟨1, 1⟩, "v", [], none, []⟩,
    ⟨⟨1, 18⟩, "main", [], none,
      [.call ⟨1, 36⟩ ⟨1, 36⟩ "out" [.binary ⟨1, 42⟩ .add (.literal ⟨1, 40⟩ (.int 1)) quotient]]⟩]

/-- The call gives no value, and the division does not say so: it takes the other one. -/
theorem borrowing_operand :
    ∃ (m : Machine) (s x t u : State) (rest : Scopes), m.host = .standard ∧
      compile borrowing m.host.contains = .ok m.program ∧ m.Reaches (.ofInput [] none) s ∧
      m.program.CodeAt s.pc (quotient.code (signatures borrowing)) ∧
      s.scopes = ⟨[.int 1], [], false⟩ :: rest ∧ m.Crosses s.pc (s.pc + 1) s x ∧
      x.scopes = s.scopes ∧ m.Crosses x.pc (x.pc + 1) x t ∧
      t.scopes = ⟨[.int 0, .int 1], [], false⟩ :: rest ∧
      m.step t = .error ⟨⟨1, 48⟩, .divisionByZero⟩ u := by
  have direct := Host.standard_direct
  obtain ⟨p, s, x, t, u, hp, run, code, scopes, -, left, unanswered, -, right, operands,
      fails⟩ :
      ∃ p s x t u, compile borrowing Host.standard.contains = .ok p ∧
      Machine.runFor ⟨p, .standard, none⟩ 5 (.initial p.entry (.ofInput [] none)) = .ok () s ∧
      p.CodeAt s.pc (quotient.code (signatures borrowing)) ∧
      s.scopes =
        [⟨[.int 1], [], false⟩, ⟨[], [], false⟩, ⟨[], [], true⟩, ⟨[], [], true⟩] ∧
      Machine.runFor ⟨p, .standard, none⟩ 3 s = .ok () x ∧
      Machine.Crosses ⟨p, .standard, none⟩ s.pc (s.pc + 1) s x ∧ x.scopes = s.scopes ∧
      Machine.runFor ⟨p, .standard, none⟩ 1 x = .ok () t ∧
      Machine.Crosses ⟨p, .standard, none⟩ x.pc (x.pc + 1) x t ∧
      t.scopes =
        [⟨[.int 0, .int 1], [], false⟩, ⟨[], [], false⟩, ⟨[], [], true⟩, ⟨[], [], true⟩] ∧
      Machine.step ⟨p, .standard, none⟩ t = .error ⟨⟨1, 48⟩, .divisionByZero⟩ u := by
    refine ⟨_, _, _, _, _, rfl, rfl, ?_, rfl, rfl, ⟨?_, rfl, rfl, rfl⟩, rfl, rfl,
      ⟨?_, rfl, rfl, rfl⟩, rfl, rfl⟩
    · iterate 3 refine Program.codeAt_cons.2 ⟨rfl, ?_⟩
      exact Program.codeAt_nil
    · refine .step (.of_direct direct rfl (.inr ⟨rfl, by decide, by decide⟩)) rfl ?_
      iterate 2 refine .step (.of_direct direct rfl (.inl (by decide))) rfl ?_
      exact .refl _
    · exact .step (.of_direct direct rfl (.inr ⟨rfl, by decide, by decide⟩)) rfl (.refl _)
  exact ⟨⟨p, .standard, none⟩, s, x, t, u, _, rfl, hp, Machine.Reaches.start.runFor run, code,
    scopes, left, unanswered, right, operands, fails⟩

end StackScript
