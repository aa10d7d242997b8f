import StackScript.Proofs.Passage
import StackScript.Proofs.Simulation.Expressions

/-!
# Expression stacks

* `Expr.isCall`: a single call, in parentheses or not;
* `Expr.Leaves`: what an expression can leave on a stack;
* `Expr.passes`: its code comes to its end with no more and no less than that;
* `stack_settled`: what is on the stack of an expression when its scope is closed.
-/

namespace StackScript

/-- A single call, in parentheses or not. -/
def Expr.isCall : Expr → Bool
  | .paren _ inner => inner.isCall
  | .call .. => true
  | _ => false

/-- At most one value more than before, on top of what was there, and at least one, unless it is a
single call. Where an operand is missing, an operator has taken a value from before. -/
structure Expr.Leaves (e : Expr) (before after : List Value) : Prop where
  most : after.length ≤ before.length + 1
  least : e.isCall = false → 0 < after.length
  own : before.length < after.length → after.tail = before

theorem Expr.inScope_code (sigs : Signatures) (e : Expr) :
    inScope e.pos (e.code sigs) = e.scopedCode sigs := rfl

/-- The code of an operator's operands, one after the other, and the operator behind them. -/
theorem Expr.binary_at {p : Program} {sigs : Signatures} {base : Nat} {pos : Position}
    {op : Operator} {lhs rhs : Expr}
    (placed : p.CodeAt base ((Expr.binary pos op lhs rhs).code sigs)) :
    p.CodeAt base (lhs.code sigs) ∧ p.CodeAt (base + (lhs.code sigs).length) (rhs.code sigs) ∧
      p.code[base + (lhs.code sigs).length + (rhs.code sigs).length]? =
        some (.plain (.apply op) pos) := by
  rw [Expr.code, Program.codeAt_append, Program.codeAt_append, List.length_append,
    ← Nat.add_assoc] at placed
  exact ⟨placed.1.1, placed.1.2, placed.2.head⟩

/-- An expression of any kind may leave one value more. -/
theorem Expr.leaves_cons (e : Expr) (v : Value) (stack : List Value) :
    e.Leaves stack (v :: stack) :=
  ⟨Nat.le_refl _, fun _ => Nat.succ_pos _, fun _ => rfl⟩

/-- An operator puts its value in the place of the last two. -/
theorem Expr.leaves_apply (e : Expr) (v : Value) {lhs rhs : Expr} {stack mid after : List Value}
    (left : lhs.Leaves stack mid) (right : rhs.Leaves mid after) (enough : 2 ≤ after.length) :
    e.Leaves stack (v :: after.drop 2) := by
  have := left.most
  have := right.most
  refine ⟨?_, fun _ => Nat.succ_pos _, fun more => ?_⟩
  · rw [List.length_cons, List.length_drop]
    omega
  · rw [List.length_cons, List.length_drop] at more
    rw [List.tail_cons, ← List.drop_tail, right.own (by omega), ← left.own (by omega),
      List.drop_one]

section

variable {functions : List Function} {m : Machine} {s : State} {lo hi depth base : Nat}
  {calls : List Frame} {scopes rest : Scopes} {waiting stack : List Value}
  {vars : List (String × Binding)} {final : Bool}

/-- An instruction that puts a value on the stack. -/
theorem State.At.passes_takes {pc k : Nat} {op : Op} {label : Option String} {pos : Position}
    (hs : s.At pc calls (⟨stack, vars, final⟩ :: rest) waiting)
    (instr : m.program.code[pc]? = some ⟨op, label, pos⟩) (h : op.takes? = some k)
    (low : lo ≤ pc) (high : pc < hi) :
    m.Passes (m.Busy calls depth lo hi) (fun x => k ≤ stack.length ∧
      ∃ v, x.At (pc + 1) calls (⟨v :: stack.drop k, vars, final⟩ :: rest) waiting) s := by
  refine .step (hs.busy low high instr ?_) fun t step => .here (hs.takes instr h step)
  rintro rfl
  cases h

/-- Code in a scope of its own leaves the others to themselves. -/
theorem passes_inScope {pos : Position} {code : List Instr}
    (placed : m.program.CodeAt base (inScope pos code)) (hs : s.At base calls scopes waiting)
    (low : lo ≤ base) (high : base + (inScope pos code).length ≤ hi) (deep : depth < scopes.length)
    (inside : ∀ t, t.At (base + 1) calls (⟨[], [], false⟩ :: scopes) waiting →
      m.Passes (m.Busy calls depth lo hi) (fun x => ∃ stack,
        x.At (base + 1 + code.length) calls (⟨stack, [], false⟩ :: scopes) waiting) t) :
    m.Passes (m.Busy calls depth lo hi)
      (fun x => x.At (base + (inScope pos code).length) calls scopes waiting) s := by
  simp only [inScope, Program.codeAt_append, Program.codeAt_cons, List.length_append,
    List.length_cons, List.length_nil] at placed high
  obtain ⟨⟨⟨opens, -⟩, -⟩, closes, -⟩ := placed
  refine .step (hs.busy low (by omega) opens fun other => by cases other) fun t step => ?_
  refine (inside t (hs.openScope opens step)).trans ?_
  rintro x ⟨stack, hx⟩
  have hx := hx.at (show _ = base + (0 + 1 + code.length) by omega)
  refine .step (hx.busy (by omega) (by omega) closes fun _ => by simp; omega) fun y step => ?_
  refine .here ((hx.closeScope closes step).at ?_)
  simp only [inScope, List.length_append, List.length_cons, List.length_nil]
  omega

mutual

/-- The code of an expression puts its value on the stack. -/
theorem Expr.passes (hp : Compiled functions m.host.contains m.program) (hh : m.host.Direct) :
    ∀ (e : Expr) {s : State} {base : Nat} {stack waiting : List Value}
      {vars : List (String × Binding)} {final : Bool} {rest : Scopes},
      m.program.CodeAt base (e.code (signatures functions)) → lo ≤ base →
      base + (e.code (signatures functions)).length ≤ hi → depth ≤ rest.length →
      s.At base calls (⟨stack, vars, final⟩ :: rest) waiting →
      m.Passes (m.Busy calls depth lo hi) (fun x => ∃ stack', e.Leaves stack stack' ∧
        x.At (base + (e.code (signatures functions)).length) calls
          (⟨stack', vars, final⟩ :: rest) waiting) s
  | .literal pos v => by
    intro placed low high _ hs
    refine (hs.passes_takes placed.head rfl low high).imp (fun _ => id) fun x ⟨_, v, hx⟩ => ?_
    exact ⟨_, Expr.leaves_cons _ v _, hx⟩
  | .var pos name => by
    intro placed low high _ hs
    refine (hs.passes_takes placed.head rfl low high).imp (fun _ => id) fun x ⟨_, v, hx⟩ => ?_
    exact ⟨_, Expr.leaves_cons _ v _, hx⟩
  | .paren pos inner => by
    intro placed low high deep hs
    refine (inner.passes hp hh placed low high deep hs).imp (fun _ => id) ?_
    rintro x ⟨stack', leaves, hx⟩
    exact ⟨stack', ⟨leaves.most, leaves.least, leaves.own⟩, hx⟩
  | .binary pos op lhs rhs => by
    intro placed low high deep hs
    obtain ⟨left, right, apply⟩ := Expr.binary_at placed
    simp only [Expr.code, List.length_append, List.length_singleton] at high ⊢
    refine (lhs.passes hp hh left low (by omega) deep hs).trans fun x ⟨stack₁, leaves₁, hx⟩ => ?_
    refine (rhs.passes hp hh right (by omega) (by omega) deep hx).trans ?_
    rintro y ⟨stack₂, leaves₂, hy⟩
    refine (hy.passes_takes apply rfl (by omega) (by omega)).imp (fun _ => id) ?_
    rintro z ⟨enough, v, hz⟩
    exact ⟨_, Expr.leaves_apply _ v leaves₁ leaves₂ enough, hz.at (by omega)⟩
  | .call pos site name args => by
    intro placed low high deep hs
    simp only [Expr.code, Program.codeAt_append, Program.codeAt_cons, List.length_append,
      List.length_cons, List.length_nil] at placed high ⊢
    obtain ⟨front, call, -⟩ := placed
    refine (passes_args hp hh site args front low (by omega) (by simp; omega) hs).trans ?_
    rintro x ⟨vs, length, hx⟩
    refine (call_passes hp hh call hx (by simp; omega) (by omega) (by omega) deep).imp
      (fun _ => id) ?_
    rintro y ⟨v, hy⟩
    rw [← length, List.drop_left] at hy
    refine ⟨_, ⟨?_, nofun, ?_⟩, hy⟩
    · cases v <;> simp
    · cases v <;> simp
  | .index pos name index => by
    intro placed low high deep hs
    simp only [Expr.code, Expr.inScope_code, Program.codeAt_append, Program.codeAt_cons,
      List.length_append, List.length_cons, List.length_nil] at placed high ⊢
    obtain ⟨front, load, -⟩ := placed
    refine (index.passes_scoped hp hh front low (by omega) (by simp; omega) hs).trans fun x hx => ?_
    refine (hx.passes_takes load rfl (by omega) (by omega)).imp (fun _ => id) fun y ⟨_, v, hy⟩ => ?_
    exact ⟨_, Expr.leaves_cons _ v _, hy⟩
  | .array pos items => by
    intro placed low high deep hs
    simp only [Expr.code, Program.codeAt_append, Program.codeAt_cons, List.length_append,
      List.length_cons, List.length_nil] at placed high ⊢
    obtain ⟨⟨empty, -⟩, others⟩ := placed
    refine (hs.passes_takes empty rfl low (by omega)).trans fun x ⟨_, v, hx⟩ => ?_
    refine (passes_items hp hh items others (by omega) (by omega) deep hx).imp (fun _ => id) ?_
    rintro y ⟨w, hy⟩
    exact ⟨_, Expr.leaves_cons _ w _, hy.at (by omega)⟩

theorem Expr.passes_scoped (hp : Compiled functions m.host.contains m.program)
    (hh : m.host.Direct) (e : Expr) {s : State} {base : Nat} {waiting : List Value}
    {scopes : Scopes} (placed : m.program.CodeAt base (e.scopedCode (signatures functions)))
    (low : lo ≤ base) (high : base + (e.scopedCode (signatures functions)).length ≤ hi)
    (deep : depth < scopes.length) (hs : s.At base calls scopes waiting) :
    m.Passes (m.Busy calls depth lo hi) (fun x =>
      x.At (base + (e.scopedCode (signatures functions)).length) calls scopes waiting) s := by
  refine passes_inScope placed hs low high deep fun t ht => ?_
  simp only [Expr.scopedCode, inScope, List.length_append, List.length_cons,
    List.length_nil] at high
  refine (e.passes hp hh (codeAt_inScope placed) (by omega) (by omega) (by omega) ht).imp
    (fun _ => id) ?_
  rintro x ⟨stack, -, hx⟩
  exact ⟨stack, hx⟩

/-- The code of arguments puts one after the other in front of those that wait. -/
theorem passes_args (hp : Compiled functions m.host.contains m.program) (hh : m.host.Direct)
    (site : Position) : ∀ (es : List Expr) {s : State} {base : Nat} {waiting : List Value}
      {scopes : Scopes}, m.program.CodeAt base (argsCode (signatures functions) site es) →
      lo ≤ base → base + (argsCode (signatures functions) site es).length ≤ hi →
      depth < scopes.length → s.At base calls scopes waiting →
      m.Passes (m.Busy calls depth lo hi) (fun x => ∃ vs : List Value, vs.length = es.length ∧
        x.At (base + (argsCode (signatures functions) site es).length) calls scopes
          (vs ++ waiting)) s
  | [] => by
    intro placed low high deep hs
    exact .here ⟨[], rfl, hs⟩
  | e :: es => by
    intro placed low high deep hs
    simp only [argsCode, Expr.inScope_code, Program.codeAt_append, Program.codeAt_cons,
      List.length_append, List.length_cons, List.length_nil] at placed high ⊢
    obtain ⟨⟨first, pass, -⟩, others⟩ := placed
    refine (e.passes_scoped hp hh first low (by omega) deep hs).trans fun x hx => ?_
    refine .step (hx.busy (by omega) (by omega) pass fun other => by cases other) fun y step => ?_
    obtain ⟨v, hy⟩ := hx.passArg pass step
    refine (passes_args hp hh site es others (by omega) (by omega) deep (hy.at ?_)).imp
      (fun _ => id) ?_
    · omega
    · rintro z ⟨vs, length, hz⟩
      refine ⟨vs ++ [v], by simp [length], ?_⟩
      rw [List.append_assoc]
      exact hz.at (by omega)

theorem passes_items (hp : Compiled functions m.host.contains m.program) (hh : m.host.Direct) :
    ∀ (es : List Expr) {s : State} {base : Nat} {v : Value} {stack waiting : List Value}
      {vars : List (String × Binding)} {final : Bool} {rest : Scopes},
      m.program.CodeAt base (itemsCode (signatures functions) es) → lo ≤ base →
      base + (itemsCode (signatures functions) es).length ≤ hi → depth ≤ rest.length →
      s.At base calls (⟨v :: stack, vars, final⟩ :: rest) waiting →
      m.Passes (m.Busy calls depth lo hi) (fun x => ∃ v,
        x.At (base + (itemsCode (signatures functions) es).length) calls
          (⟨v :: stack, vars, final⟩ :: rest) waiting) s
  | [] => by
    intro placed low high deep hs
    exact .here ⟨_, hs⟩
  | e :: es => by
    intro placed low high deep hs
    simp only [itemsCode, Expr.inScope_code, Program.codeAt_append, Program.codeAt_cons,
      List.length_append, List.length_cons, List.length_nil] at placed high ⊢
    obtain ⟨⟨first, append, -⟩, others⟩ := placed
    refine (e.passes_scoped hp hh first low (by omega) (by simp; omega) hs).trans fun x hx => ?_
    refine (hx.passes_takes append rfl (by omega) (by omega)).trans fun y ⟨_, v, hy⟩ => ?_
    refine (passes_items hp hh es others (by omega) (by omega) deep (hy.at ?_)).imp
      (fun _ => id) ?_
    · omega
    · rintro z ⟨v, hz⟩
      exact ⟨v, hz.at (by omega)⟩

end

end

theorem Machine.Reaches.running {functions : List Function} {m : Machine}
    (hp : Compiled functions m.host.contains m.program) (hh : m.host.Direct) {console : Console}
    {s : State} (hs : m.Reaches console s) {i : Instr} (instr : m.program.code[s.pc]? = some i) :
    s.running = true := by
  cases hs.sound hp hh with
  | starting running => exact running
  | inside inside => exact inside.running
  | returned returned => exact returned.running
  | ended _ pc =>
    obtain ⟨lt, _⟩ := Array.getElem?_eq_some_iff.1 instr
    omega

/-- Where the scope of an expression is closed again, it is the end of that expression, and one
value is on its stack. A single call may have left none. -/
theorem stack_settled {functions : List Function} {m : Machine}
    (h : compile functions m.host.contains = .ok m.program) (hh : m.host.Direct) {console : Console}
    {s u t : State} (hs : m.Reaches console s) {e : Expr}
    (placed : m.program.CodeAt s.pc (e.scopedCode (signatures functions)))
    (opens : m.step s = .ok () u)
    (inside : m.Along (fun x => s.scopes.length < x.scopes.length) u t) {i : Instr}
    (instr : m.program.code[t.pc]? = some i) (closes : i.op = .closeScope)
    (top : t.scopes.length = s.scopes.length + 1) :
    ∃ scope, t.scopes = scope :: s.scopes ∧ t.calls = s.calls ∧
      t.pc + 1 = s.pc + (e.scopedCode (signatures functions)).length ∧
      (e.isCall = false → scope.stack.length = 1) ∧ (e.isCall = true → scope.stack.length ≤ 1) := by
  have hp := compiled_of_compile h
  simp only [Expr.scopedCode, inScope, Program.codeAt_append, Program.codeAt_cons,
    List.length_append, List.length_cons, List.length_nil] at placed ⊢
  obtain ⟨⟨⟨opening, -⟩, body⟩, closing, -⟩ := placed
  have start : s.At s.pc s.calls s.scopes s.waiting :=
    ⟨hs.running hp hh opening, rfl, rfl, rfl, rfl⟩
  have passes := e.passes hp hh body (Nat.le_add_right s.pc _) (Nat.le_refl _) (Nat.le_refl _)
    (start.openScope opening opens)
  obtain mid | ⟨x, ⟨stack, leaves, hx⟩, -, behind⟩ := passes _ t inside
  · obtain ⟨op, label, pos⟩ := i
    cases closes
    have := mid.closing label pos instr
    omega
  · have hx := hx.at (Nat.add_assoc _ _ _)
    cases behind with
    | refl =>
      refine ⟨_, hx.scopes, hx.calls, by rw [hx.pc]; omega, fun other => ?_, fun _ => leaves.most⟩
      exact Nat.le_antisymm leaves.most (leaves.least other)
    | step _ step later =>
      -- The scope is closed behind the expression, and the steps have not gone on from there.
      have closed := hx.closeScope closing step
      cases later with
      | refl =>
        rw [closed.scopes] at top
        omega
      | step above =>
        rw [closed.scopes] at above
        omega

/-- The sum of a call's value and a number. -/
def sum : Expr :=
  .binary ⟨3, 7⟩ .add (.call ⟨3, 1⟩ ⟨3, 1⟩ "two" []) (.literal ⟨3, 9⟩ (.int 1))

/-- A call that gives nothing, and one that is an operand. -/
def answering : List Function :=
  [⟨⟨1, 1⟩, "main", [], none,
      [.expr ⟨2, 1⟩ (.paren ⟨2, 1⟩ (.call ⟨2, 2⟩ ⟨2, 2⟩ "nothing" [])), .expr ⟨3, 1⟩ sum]⟩,
    ⟨⟨5, 1⟩, "nothing", [], none, []⟩,
    ⟨⟨7, 1⟩, "two", [], some .int, [.ret ⟨8, 1⟩ (some (.literal ⟨8, 8⟩ (.int 2)))]⟩]

theorem stack_settled_answering :
    ∃ (m : Machine) (s u t : State) (scope : Scope),
      compile answering m.host.contains = .ok m.program ∧ m.host.Direct ∧
      m.Reaches (.ofInput [] none) s ∧
      m.program.CodeAt s.pc (sum.scopedCode (signatures answering)) ∧ m.step s = .ok () u ∧
      m.Along (fun x => s.scopes.length < x.scopes.length) u t ∧ t.scopes = scope :: s.scopes ∧
      t.calls = s.calls ∧ scope.stack.length = 1 := by
  obtain ⟨p, s, u, t, hp, run, code, opens, _, inside, instr, top⟩ : ∃ p s u t,
      compile answering (Host.contains []) = .ok p ∧
      Machine.runFor ⟨p, [], none⟩ 7 (.initial p.entry (.ofInput [] none)) = .ok () s ∧
      p.CodeAt s.pc (sum.scopedCode (signatures answering)) ∧
      Machine.step ⟨p, [], none⟩ s = .ok () u ∧ Machine.runFor ⟨p, [], none⟩ 9 u = .ok () t ∧
      Machine.Along ⟨p, [], none⟩ (fun x => s.scopes.length < x.scopes.length) u t ∧
      p.code[t.pc]? = some (.plain .closeScope ⟨3, 7⟩) ∧ t.scopes.length = s.scopes.length + 1 := by
    refine ⟨_, _, _, _, rfl, rfl, ?_, rfl, rfl, ?_, rfl, rfl⟩
    · iterate 5 refine Program.codeAt_cons.2 ⟨rfl, ?_⟩
      exact Program.codeAt_nil
    · iterate 9 refine .step (by decide) rfl ?_
      exact .refl _
  have direct : Host.Direct [] := fun _ _ h => by cases h
  have reached : (Machine.mk p [] none).Reaches (.ofInput [] none) s :=
    Machine.Reaches.start.runFor run
  obtain ⟨scope, scopes, calls, -, one, -⟩ :=
    stack_settled hp direct reached code opens inside instr rfl top
  exact ⟨_, s, u, t, scope, hp, direct, reached, code, opens, inside, scopes, calls, one rfl⟩

end StackScript
