import StackScript.Proofs.Meaning

/-!
# Operands that wait

Compiled code has one stack for all operands of an expression, and an operator takes the last two of
them, whether they are its own or not.

* `Eval.Congruence`: a relation of evaluations that whatever is made of them keeps to;
* `invoke_mono`: a bound that suffices can be raised;
* `Expr.evalOnto`: evaluation onto the operands that wait already;
* `Eval.Tracks`: one evaluation goes as the other, unless that one lacks an operand;
* `invoke_agrees`: evaluation onto waiting operands goes as the one that gives each node its own
  value.
-/

namespace StackScript

/-! ## What evaluations are made of -/

/-- A relation that each evaluation has to itself, and that going on after evaluations keeps. -/
structure Eval.Congruence (Rel : (α : Type) → Eval α → Eval α → Prop) : Prop where
  refl : ∀ {α : Type} (x : Eval α), Rel α x x
  bind : ∀ {α β : Type} {x y : Eval α} {f g : α → Eval β}, Rel α x y → (∀ a, Rel β (f a) (g a)) →
    Rel β (x >>= f) (y >>= g)

namespace Eval.Congruence

variable {Rel : (α : Type) → Eval α → Eval α → Prop}

theorem needed {value value' : Values} (R : Congruence Rel)
    (h : ∀ env e, Rel _ (value env e) (value' env e)) (pos : Position) (e : Expr) (env : Env) :
    Rel _ (value.needed pos e env) (value'.needed pos e env) :=
  R.bind (h env e) fun _ => R.refl _

theorem test {value value' : Values} (R : Congruence Rel)
    (h : ∀ env e, Rel _ (value env e) (value' env e)) (pos : Position) (e : Expr) (env : Env) :
    Rel _ (value.test pos e env) (value'.test pos e env) :=
  R.bind (R.needed h pos e env) fun _ => R.refl _

theorem next? {f g : Env → Eval Exit} (R : Congruence Rel) (h : ∀ env, Rel _ (f env) (g env))
    (x : Exit) : Rel _ (x.next? f) (x.next? g) := by
  cases x with
  | next env => exact h env
  | returned v => exact R.refl _

/-- Loops with these bounds are related if their conditions and their bodies are. -/
def Loops (Rel : (α : Type) → Eval α → Eval α → Prop) (n k : Nat) : Prop :=
  ∀ (test test' : Env → Eval Bool) (body body' : Env → Eval Exit),
    (∀ env, Rel _ (test env) (test' env)) → (∀ env, Rel _ (body env) (body' env)) →
      ∀ env, Rel _ (rounds test body n env) (rounds test' body' k env)

/-- A round more on both sides. -/
theorem Loops.succ {n k : Nat} (R : Congruence Rel) (h : Loops Rel n k) :
    Loops Rel (n + 1) (k + 1) := by
  intro test test' body body' tests bodies env
  rw [rounds, rounds]
  apply R.bind (tests env)
  intro holds
  cases holds with
  | false => exact R.refl _
  | true => exact R.bind (bodies env) (R.next? (h _ _ _ _ tests bodies))

theorem loops (R : Congruence Rel) (n : Nat) : Loops Rel n n := by
  induction n with
  | zero => exact fun _ _ _ _ _ _ _ => R.refl _
  | succ n ih => exact Loops.succ R ih

section

variable {value value' : Values} {returns : Option Ty} {n k : Nat}

mutual

/-- A statement keeps to the relation if its expressions and its loops do. -/
theorem exec (R : Congruence Rel) (loops : Loops Rel n k)
    (h : ∀ env e, Rel _ (value env e) (value' env e)) : ∀ (s : Stmt) (env : Env),
    Rel _ (s.exec value returns n env) (s.exec value' returns k env)
  | .cond pos test body, env => by
    rw [Stmt.exec, Stmt.exec]
    apply R.bind (R.test h pos test env)
    intro holds
    cases holds with
    | false => exact R.refl _
    | true => exact execBody R loops h body env
  | .loop pos test body, env => by
    rw [Stmt.exec, Stmt.exec]
    exact loops _ _ _ _ (R.test h pos test) (execBody R loops h body) env
  | .count pos init test step body, env => by
    rw [Stmt.exec, Stmt.exec]
    apply R.bind (exec R loops h init env)
    refine R.next? (loops _ _ _ _ (R.test h pos test) fun env => ?_)
    exact R.bind (execBody R loops h body env) (R.next? (exec R loops h step))
  | .range pos first last name body, env => by
    rw [Stmt.exec, Stmt.exec]
    apply R.bind (R.needed h pos first env)
    intro v
    apply R.bind (R.refl _)
    intro env
    apply R.bind (R.needed h pos last env)
    intro v
    apply R.bind (R.refl _)
    refine loops _ _ _ _ (fun _ => R.refl _) fun env => ?_
    exact R.bind (execBody R loops h body env) fun _ => R.refl _
  | .ret _ none, _ => by
    rw [Stmt.exec, Stmt.exec]
    exact R.refl _
  | .ret pos (some e), env => by
    rw [Stmt.exec, Stmt.exec]
    exact R.bind (R.needed h pos e env) fun _ => R.refl _
  | .assignItem pos _ index e, env => by
    rw [Stmt.exec, Stmt.exec]
    apply R.bind (R.needed h pos index env)
    intro i
    exact R.bind (R.needed h pos e env) fun _ => R.refl _
  | .assign pos _ _ e, env => by
    rw [Stmt.exec, Stmt.exec]
    exact R.bind (R.needed h pos e env) fun _ => R.refl _
  | .call pos site name args, env => by
    rw [Stmt.exec, Stmt.exec, Eval.discard_bind, Eval.discard_bind]
    exact R.bind (h env _) fun _ => R.refl _
  | .expr _ e, env => by
    rw [Stmt.exec, Stmt.exec, Eval.discard_bind, Eval.discard_bind]
    exact R.bind (h env e) fun _ => R.refl _

theorem execBody (R : Congruence Rel) (loops : Loops Rel n k)
    (h : ∀ env e, Rel _ (value env e) (value' env e)) : ∀ (body : List Stmt) (env : Env),
    Rel _ (StackScript.execBody value returns n body env)
      (StackScript.execBody value' returns k body env)
  | [], env => by
    rw [StackScript.execBody, StackScript.execBody]
    exact R.refl _
  | s :: ss, env => by
    rw [StackScript.execBody, StackScript.execBody]
    exact R.bind (exec R loops h s env) (R.next? (execBody R loops h ss))

end

end

/-- A call keeps to the relation if the expressions and the loops of the function do. -/
theorem invoke_succ {value value' : Calls → Values} {functions : List Function} {host : Host}
    {n k : Nat} (R : Congruence Rel) (loops : Loops Rel n k)
    (h : ∀ env e, Rel _ (value (invoke value functions host n) env e)
      (value' (invoke value' functions host k) env e))
    (site : Position) (name : String) (args : List Value) :
    Rel _ (invoke value functions host (n + 1) site name args)
      (invoke value' functions host (k + 1) site name args) := by
  rw [invoke, invoke]
  cases functions.find? (·.name = name) with
  | none => exact R.refl _
  | some f =>
    apply R.bind (R.refl _)
    intro env
    exact R.bind (R.execBody loops h f.body env) fun _ => R.refl _

end Eval.Congruence

/-! ## The bound -/

/-- The evaluation goes the same way unless its bound is used up. -/
def Eval.Upto (α : Type) (x y : Eval α) : Prop := ∀ c, x c = .exhausted ∨ y c = x c

theorem Eval.upto_congruence : Congruence Eval.Upto where
  refl _ _ := .inr rfl
  bind {α β x y f g} hx hf c := by
    rw [Eval.run_bind, Eval.run_bind]
    obtain ended | same := hx c
    · exact .inl (by rw [ended])
    · rw [same]
      cases x c with
      | done a d => exact hf a d
      | _ => exact .inr rfl

theorem Eval.upto_loops {n k : Nat} (h : n ≤ k) : Congruence.Loops Eval.Upto n k := by
  induction n generalizing k with
  | zero => exact fun _ _ _ _ _ _ _ _ => .inl rfl
  | succ n ih =>
    obtain ⟨k, rfl⟩ := Nat.exists_eq_add_of_le' (Nat.le_trans (Nat.le_add_left 1 n) h)
    have le : n ≤ k := by omega
    exact Congruence.Loops.succ Eval.upto_congruence (ih le)

section

variable {Rel : (α : Type) → Eval α → Eval α → Prop} {call call' : Calls}

mutual

/-- The value of an expression depends on the calls in it only. -/
theorem Expr.eval_congr (R : Eval.Congruence Rel)
    (h : ∀ site name args, Rel _ (call site name args) (call' site name args)) (env : Env) :
    ∀ e : Expr, Rel _ (e.eval call env) (e.eval call' env)
  | .binary pos op lhs rhs => by
    rw [Expr.eval, Expr.eval]
    apply R.bind (lhs.eval_congr R h env)
    intro l
    exact R.bind (rhs.eval_congr R h env) fun _ => R.refl _
  | .literal _ _ => by
    rw [Expr.eval, Expr.eval]
    exact R.refl _
  | .var _ _ => by
    rw [Expr.eval, Expr.eval]
    exact R.refl _
  | .call _ site name args => by
    rw [Expr.eval, Expr.eval]
    exact R.bind (evalArgs_congr R h env site args) (h site name)
  | .index pos name index => by
    rw [Expr.eval, Expr.eval]
    exact R.bind (index.eval_congr R h env) fun _ => R.refl _
  | .array _ items => by
    rw [Expr.eval, Expr.eval]
    exact R.bind (evalItems_congr R h env items) fun _ => R.refl _
  | .paren _ inner => by
    rw [Expr.eval, Expr.eval]
    exact inner.eval_congr R h env

theorem evalArgs_congr (R : Eval.Congruence Rel)
    (h : ∀ site name args, Rel _ (call site name args) (call' site name args)) (env : Env)
    (site : Position) :
    ∀ es : List Expr, Rel _ (evalArgs call env site es) (evalArgs call' env site es)
  | [] => by
    rw [evalArgs, evalArgs]
    exact R.refl _
  | e :: es => by
    rw [evalArgs, evalArgs]
    apply R.bind (e.eval_congr R h env)
    intro v
    apply R.bind (R.refl _)
    intro v
    exact R.bind (evalArgs_congr R h env site es) fun _ => R.refl _

theorem evalItems_congr (R : Eval.Congruence Rel)
    (h : ∀ site name args, Rel _ (call site name args) (call' site name args)) (env : Env) :
    ∀ es : List Expr, Rel _ (evalItems call env es) (evalItems call' env es)
  | [] => by
    rw [evalItems, evalItems]
    exact R.refl _
  | e :: es => by
    rw [evalItems, evalItems]
    apply R.bind (e.eval_congr R h env)
    intro v
    apply R.bind (R.refl _)
    intro v
    exact R.bind (evalItems_congr R h env es) fun _ => R.refl _

end

end

/-- A call that ends goes the same way with a higher bound. -/
theorem invoke_mono (functions : List Function) (host : Host) {n k : Nat} (h : n ≤ k)
    (site : Position) (name : String) (args : List Value) :
    Eval.Upto _ (invoke Expr.eval functions host n site name args)
      (invoke Expr.eval functions host k site name args) := by
  induction n generalizing k site name args with
  | zero => exact fun _ => .inl rfl
  | succ n ih =>
    obtain ⟨k, rfl⟩ := Nat.exists_eq_add_of_le' (Nat.le_trans (Nat.le_add_left 1 n) h)
    have le : n ≤ k := by omega
    exact Eval.upto_congruence.invoke_succ (Eval.upto_loops le)
      (Expr.eval_congr Eval.upto_congruence (ih le)) site name args

/-- Bounds that suffice lead to the same end. -/
theorem evalMain_unique {functions : List Function} {host : Host} {console : Console} {n k : Nat}
    (hn : evalMain Expr.eval functions host n console ≠ .exhausted)
    (hk : evalMain Expr.eval functions host k console ≠ .exhausted) :
    evalMain Expr.eval functions host n console = evalMain Expr.eval functions host k console := by
  obtain le | le := Nat.le_total n k
  · exact ((invoke_mono functions host le _ _ _ console).resolve_left hn).symm
  · exact (invoke_mono functions host le _ _ _ console).resolve_left hk

/-! ## One stack of operands -/

/-- An operator takes the last two operands. -/
def Operator.evalOnto (op : Operator) (pos : Position) : List Value → Eval (List Value)
  | r :: l :: waiting => do return (← Eval.ofExcept pos (op.apply l r)) :: waiting
  | _ => Eval.lacks pos

mutual

/-- Evaluates an expression onto the operands that wait for their operator, the last one first. A
call without a value leaves none. -/
def Expr.evalOnto (call : Calls) (env : Env) : Expr → List Value → Eval (List Value)
  | .binary pos op lhs rhs, waiting => do
    let waiting ← lhs.evalOnto call env waiting
    let waiting ← rhs.evalOnto call env waiting
    op.evalOnto pos waiting
  | .literal _ value, waiting => return value.toValue :: waiting
  | .var pos name, waiting => return (← Eval.ofExcept pos (env.lookup name)) :: waiting
  | .call _ site name args, waiting => do
    let args ← argsOnto call env site args
    return (← call site name args).toList ++ waiting
  | .index pos name index, waiting => do
    let i ← index.evalOnto call env []
    let i ← Eval.needed pos i.head?
    return (← Eval.ofExcept pos (env.item name i)) :: waiting
  | .array _ items, waiting => return .array (← itemsOnto call env items []) :: waiting
  | .paren _ inner, waiting => inner.evalOnto call env waiting

def argsOnto (call : Calls) (env : Env) (site : Position) : List Expr → Eval (List Value)
  | [] => return []
  | e :: es => do
    let v ← e.evalOnto call env []
    let v ← Eval.needed site v.head?
    return v :: (← argsOnto call env site es)

/-- The items of an array behind those that are there. -/
def itemsOnto (call : Calls) (env : Env) : List Expr → List Value → Eval (List Value)
  | [], items => return items
  | e :: es, items => do
    let v ← e.evalOnto call env []
    let v ← Eval.needed e.pos v.head?
    itemsOnto call env es (items ++ [v])

end

/-- The value of a whole expression, for which none waits before it. -/
def Expr.valueOnto (call : Calls) (env : Env) (e : Expr) : Eval (Option Value) := do
  return (← e.evalOnto call env []).head?

/-! ## Going as another evaluation -/

namespace Eval

/-- `y` goes as `x`, whose values `f` turns into those of `y`. Where `x` lacks an operand, `y` may
go on, but comes to nothing else than what `P` says. -/
def Tracks {α β : Type} (x : Eval α) (f : α → β) (P : β → Prop) (y : Eval β) : Prop := ∀ c,
  match x c with
  | .done a c' => y c = .done (f a) c'
  | .fault e c' => y c = .fault e c'
  | .lacks _ _ => ∀ b c', y c = .done b c' → P b
  | .exhausted => y c = .exhausted

/-- Whatever the evaluation comes to satisfies `P`. -/
def Only {α : Type} (x : Eval α) (P : α → Prop) : Prop := ∀ c a c', x c = .done a c' → P a

variable {α β γ δ : Type} {x : Eval α} {y : Eval β} {f : α → β} {P : β → Prop}

theorem Only.bind {x : Eval α} {g : α → Eval β} {Q : α → Prop} (h : x.Only Q)
    (hg : ∀ a, Q a → (g a).Only P) : (x >>= g).Only P := by
  intro c b c' run
  obtain ⟨a, d, first, rest⟩ := bind_eq_done.1 run
  exact hg a (h c a d first) d b c' rest

namespace Tracks

theorem only {Q : β → Prop} (h : x.Tracks f P y) (hf : ∀ a, Q (f a)) (hP : ∀ b, P b → Q b) :
    y.Only Q := by
  intro c b c' run
  have hc := h c
  cases hx : x c with
  | done a d =>
    rw [hx] at hc
    cases run.symm.trans hc
    exact hf a
  | lacks pos d =>
    rw [hx] at hc
    exact hP b (hc b c' run)
  | fault e d =>
    rw [hx] at hc
    cases run.symm.trans hc
  | exhausted =>
    rw [hx] at hc
    cases run.symm.trans hc

theorem refl (x : Eval α) : x.Tracks id (fun _ => False) x := by
  intro c
  cases x c with
  | lacks => rintro _ _ ⟨⟩
  | _ => rfl

theorem pure {a : α} {b : β} (h : b = f a) : (pure a : Eval α).Tracks f P (pure b) :=
  fun _ => congrArg (Outcome.done · _) h

theorem lacks {pos : Position} (h : y.Only P) : (Eval.lacks pos : Eval α).Tracks f P y :=
  fun c b c' run => h c b c' run

/-- What goes on after an evaluation goes on as after the other one, and where that one lacks an
operand, from anything this one may come to. -/
theorem bind {g : α → Eval γ} {h : β → Eval δ} {f' : γ → δ} {P' : δ → Prop}
    (first : x.Tracks f P y) (rest : ∀ a, (g a).Tracks f' P' (h (f a)))
    (astray : ∀ b, P b → (h b).Only P') : (x >>= g).Tracks f' P' (y >>= h) := by
  intro c
  have hc := first c
  rw [run_bind]
  cases hx : x c with
  | done a d =>
    rw [hx] at hc
    rw [run_bind, hc]
    exact rest a d
  | lacks pos d =>
    rw [hx] at hc
    intro b c' run
    obtain ⟨b', d', hy, run⟩ := bind_eq_done.1 run
    exact astray b' (hc b' d' hy) d' b c' run
  | fault e d =>
    rw [hx] at hc
    rw [run_bind, hc]
  | exhausted =>
    rw [hx] at hc
    rw [run_bind, hc]

end Tracks

/-- `y` goes as `x`. Where `x` lacks an operand, `y` comes to nothing. -/
def Agrees (α : Type) (x y : Eval α) : Prop := x.Tracks id (fun _ => False) y

theorem agrees_congruence : Congruence Agrees where
  refl := Tracks.refl
  bind first rest := Tracks.bind first rest fun _ => False.elim

theorem Agrees.eq {α : Type} {x y : Eval α} (h : Agrees α x y) {c : Console}
    (hx : ∀ pos d, x c ≠ .lacks pos d) : y c = x c := by
  have hc := h c
  cases e : x c with
  | lacks pos d => exact absurd e (hx pos d)
  | _ => simpa only [e, id] using hc

/-- What `y` comes to, `x` comes to. -/
theorem Agrees.eq_done {α : Type} {x y : Eval α} (h : Agrees α x y) {a : α} {c d : Console}
    (hy : y c = .done a d) : x c = .done a d := by
  rw [← h.eq fun pos e lacks => ?_, hy]
  have hc := h c
  rw [lacks] at hc
  exact hc a d hy

/-- They end with success in the same way. -/
theorem Agrees.ending?_eq_ok {α : Type} {x y : Eval α} (h : Agrees α x y) {c d : Console} :
    (x c).ending? = some (.ok () d) ↔ (y c).ending? = some (.ok () d) := by
  have ok {z : Outcome α} : z.ending? = some (.ok () d) ↔ ∃ a, z = .done a d := by
    cases z <;> simp [Outcome.ending?]
  rw [ok, ok]
  refine exists_congr fun a => ⟨fun done => ?_, h.eq_done⟩
  rw [h.eq fun pos e lacks => ?_, done]
  cases done.symm.trans lacks

end Eval

/-! ## Expressions -/

/-- What an expression without an operand may leave: no more than waited before it. -/
def Short (waiting left : List Value) : Prop := left ≠ [] ∧ left.length ≤ waiting.length

theorem not_short_nil (left : List Value) : ¬Short [] left := fun short =>
  short.1 (List.eq_nil_of_length_eq_zero (Nat.le_zero.1 short.2))

/-- An operator has one operand more than it leaves. -/
theorem Operator.evalOnto_short (op : Operator) (pos : Position) {waiting operands : List Value}
    (few : operands.length ≤ waiting.length + 1) :
    (op.evalOnto pos operands).Only (Short waiting) := by
  intro c left c' run
  match operands with
  | [] | [_] => cases run
  | r :: l :: rest =>
    obtain ⟨v, d, _, run⟩ := Eval.bind_eq_done.1 run
    cases run
    exact ⟨List.cons_ne_nil v rest, Nat.le_of_succ_le_succ few⟩

/-- An operator takes its own operands if it has both, and else one that waits. -/
theorem Operator.evalOnto_tracks (op : Operator) (pos : Position) (l r : Option Value)
    (waiting : List Value) :
    (op.eval pos l r).Tracks (fun v => v.toList ++ waiting) (Short waiting)
      (op.evalOnto pos (r.toList ++ (l.toList ++ waiting))) := by
  cases l with
  | none => exact .lacks (op.evalOnto_short pos (by cases r <;> simp))
  | some l =>
    cases r with
    | none => exact .lacks (op.evalOnto_short pos (by simp))
    | some r => exact .bind (.refl _) (fun v => .pure rfl) fun _ => False.elim

section

variable {call call' : Calls} {env : Env}

theorem needed_tracks {x : Eval (Option Value)} {y : Eval (List Value)}
    (h : x.Tracks (fun v => v.toList ++ []) (Short []) y) (pos : Position) :
    Eval.Agrees _ (x >>= Eval.needed pos) (y >>= fun vs => Eval.needed pos vs.head?) := by
  refine h.bind (fun v => ?_) fun b short => absurd short (not_short_nil b)
  cases v <;> exact .refl _

mutual

/-- An expression leaves its value beside the operands that wait. Where an operator in it lacks an
operand, it leaves no more than there were. -/
theorem Expr.evalOnto_tracks
    (h : ∀ site name args, Eval.Agrees _ (call site name args) (call' site name args)) :
    ∀ (e : Expr) (waiting : List Value), (e.eval call env).Tracks (fun v => v.toList ++ waiting)
      (Short waiting) (e.evalOnto call' env waiting)
  | .binary pos op lhs rhs, waiting => by
    rw [Expr.eval, Expr.evalOnto]
    refine (lhs.evalOnto_tracks h waiting).bind (fun l => ?_) fun ws short => ?_
    · refine (rhs.evalOnto_tracks h _).bind (fun r => op.evalOnto_tracks pos l r waiting)
        fun ws short => ?_
      -- the right operand has left at most the value of the left one
      have few : (l.toList ++ waiting).length ≤ waiting.length + 1 := by cases l <;> simp
      exact op.evalOnto_short pos (Nat.le_trans short.2 few)
    · have leaves := (rhs.evalOnto_tracks h ws).only
        (Q := fun left => left.length ≤ ws.length + 1)
        (fun r => by cases r <;> simp) fun left short => Nat.le_succ_of_le short.2
      refine leaves.bind fun left length => ?_
      exact op.evalOnto_short pos (Nat.le_trans length (Nat.succ_le_succ short.2))
  | .literal _ _, waiting => by
    rw [Expr.eval, Expr.evalOnto]
    exact .pure rfl
  | .var pos name, waiting => by
    rw [Expr.eval, Expr.evalOnto]
    exact .bind (.refl _) (fun v => .pure rfl) fun _ => False.elim
  | .call _ site name args, waiting => by
    rw [Expr.eval, Expr.evalOnto]
    refine .bind (argsOnto_tracks h site args) (fun vs => ?_) fun _ => False.elim
    rw [← bind_pure (call site name vs)]
    exact .bind (h site name vs) (fun v => .pure rfl) fun _ => False.elim
  | .index pos name index, waiting => by
    rw [Expr.eval, Expr.evalOnto, ← bind_assoc]
    simp only [← bind_assoc (index.evalOnto call' env [])]
    refine (needed_tracks (index.evalOnto_tracks h []) pos).bind (fun i => ?_) fun _ => False.elim
    exact .bind (.refl _) (fun v => .pure rfl) fun _ => False.elim
  | .array _ items, waiting => by
    rw [Expr.eval, Expr.evalOnto]
    exact .bind (itemsOnto_tracks h items []) (fun vs => .pure rfl) fun _ => False.elim
  | .paren _ inner, waiting => by
    rw [Expr.eval, Expr.evalOnto]
    exact inner.evalOnto_tracks h waiting

theorem argsOnto_tracks
    (h : ∀ site name args, Eval.Agrees _ (call site name args) (call' site name args))
    (site : Position) : ∀ es : List Expr,
    Eval.Agrees _ (evalArgs call env site es) (argsOnto call' env site es)
  | [] => by
    rw [evalArgs, argsOnto]
    exact .refl _
  | e :: es => by
    rw [evalArgs, argsOnto, ← bind_assoc, ← bind_assoc]
    apply Eval.agrees_congruence.bind (needed_tracks (e.evalOnto_tracks h []) site)
    intro v
    exact Eval.agrees_congruence.bind (argsOnto_tracks h site es) fun _ => .refl _

theorem itemsOnto_tracks
    (h : ∀ site name args, Eval.Agrees _ (call site name args) (call' site name args)) :
    ∀ (es : List Expr) (items : List Value),
    (evalItems call env es).Tracks (items ++ ·) (fun _ => False) (itemsOnto call' env es items)
  | [], items => by
    rw [evalItems, itemsOnto]
    exact .pure (List.append_nil items).symm
  | e :: es, items => by
    rw [evalItems, itemsOnto, ← bind_assoc, ← bind_assoc]
    refine (needed_tracks (e.evalOnto_tracks h []) e.pos).bind (fun v => ?_) fun _ => False.elim
    rw [id, ← bind_pure (itemsOnto call' env es (items ++ [v]))]
    exact .bind (itemsOnto_tracks h es (items ++ [v]))
      (fun vs => .pure (List.append_assoc items [v] vs)) fun _ => False.elim

end

/-- Where nothing waits, an operator that lacks an operand finds none. -/
theorem Expr.valueOnto_agrees
    (h : ∀ site name args, Eval.Agrees _ (call site name args) (call' site name args)) (env : Env)
    (e : Expr) : Eval.Agrees _ (e.eval call env) (e.valueOnto call' env) := by
  rw [← bind_pure (e.eval call env)]
  refine (e.evalOnto_tracks h []).bind (fun v => ?_) fun b short => absurd short (not_short_nil b)
  cases v <;> exact .refl _

end

/-! ## Programs -/

theorem invoke_agrees (functions : List Function) (host : Host) (fuel : Nat) (site : Position)
    (name : String) (args : List Value) :
    Eval.Agrees _ (invoke Expr.eval functions host fuel site name args)
      (invoke Expr.valueOnto functions host fuel site name args) := by
  induction fuel generalizing site name args with
  | zero => exact Eval.Tracks.refl _
  | succ fuel ih =>
    exact Eval.agrees_congruence.invoke_succ (Eval.agrees_congruence.loops fuel)
      (Expr.valueOnto_agrees ih) site name args

end StackScript
