import StackScript.Proofs.Formulas
import StackScript.Proofs.Layout
import StackScript.Proofs.Simulation.Expressions

/-!
# Formulas on the machine

* `Machine.stepTimes`: steps one behind another, whether the machine is running or not;
* `Machine.Comes`: steps that come to a value, or stop at a fault;
* `Expr.comes`: the code of a formula comes to what the formula yields, wherever it lies;
* `formulas_exact`: the value of a formula is the result behind its code, and its fault is that of
  the machine.
-/

namespace StackScript

open Program (codeAt_append codeAt_cons)

/-! ## Steps -/

/-- The state this many instructions later, with other scopes and another result. -/
def State.moved (s : State) (n : Nat) (scopes : Scopes) (result : Option Value) : State :=
  { s with pc := s.pc + n, steps := s.steps + n, scopes, result }

namespace State

variable (s : State) (n : Nat) (scopes : Scopes) (result : Option Value)

@[simp] theorem moved_pc : (s.moved n scopes result).pc = s.pc + n := rfl

@[simp] theorem moved_steps : (s.moved n scopes result).steps = s.steps + n := rfl

@[simp] theorem moved_scopes : (s.moved n scopes result).scopes = scopes := rfl

theorem moved_moved (k : Nat) (scopes' : Scopes) (result' : Option Value) :
    (s.moved n scopes result).moved k scopes' result' = s.moved (n + k) scopes' result' := by
  simp [moved, Nat.add_assoc]

/-- The state in which a fault leaves the machine within this many instructions. Scopes may be left
open above those that were there. -/
structure StoppedWithin (t s : State) (n : Nat) (below : Scopes) : Prop where
  running : t.running = false
  place : ∃ k, 0 < k ∧ k ≤ n ∧ t.pc = s.pc + k ∧ t.steps = s.steps + k
  calls : t.calls = s.calls
  waiting : t.waiting = s.waiting
  incoming : t.incoming = s.incoming
  console : t.console = s.console
  scopes : below <:+ t.scopes

end State

namespace Machine

/-- The budget allows this many steps in all. -/
def Affords (m : Machine) (steps : Nat) : Prop :=
  ∀ budget, m.budget = some budget → steps ≤ budget

/-- This many steps, unless one fails. -/
def stepTimes (m : Machine) : Nat → State → StepResult
  | 0, s => .ok () s
  | n + 1, s =>
    match m.step s with
    | .ok _ t => m.stepTimes n t
    | .error e t => .error e t

variable {m : Machine} {s : State} {n k : Nat}

theorem Affords.mono (h : m.Affords n) (le : k ≤ n) : m.Affords k := fun budget eq =>
  Nat.le_trans le (h budget eq)

theorem Affords.exhausted? (h : m.Affords (n + 1)) : m.exhausted? n = none := by
  rw [Machine.exhausted?, Option.filter_eq_none_iff]
  intro budget eq
  rw [decide_eq_true_eq, Nat.not_le]
  exact h budget eq

theorem stepTimes_add (m : Machine) (n k : Nat) (s : State) :
    m.stepTimes (n + k) s = match m.stepTimes n s with
      | .ok _ t => m.stepTimes k t
      | .error e t => .error e t := by
  induction n generalizing s with
  | zero =>
    rw [Nat.zero_add]
    rfl
  | succ n ih =>
    rw [Nat.add_right_comm, stepTimes, stepTimes]
    cases m.step s with
    | ok _ t => exact ih t
    | error e t => rfl

/-! ## Values and faults -/

variable {α β : Type} {below : Scopes}

/-- In this many steps the machine comes to a value, and then its scopes and its result are as that
value has them. Or it stops before, at a fault. -/
def Comes (m : Machine) (n : Nat) (s : State) (below : Scopes)
    (after : α → Scopes → Option Value → Prop) : Except ExecutionError α → Prop
  | .ok a => ∃ scopes result,
    m.stepTimes n s = .ok () (s.moved n scopes result) ∧ after a scopes result
  | .error e => ∃ t, m.stepTimes n s = .error e t ∧ t.StoppedWithin s n below

/-- What an instruction does that is counted. -/
def Does (m : Machine) (s : State) (op : Op) (below : Scopes)
    (after : α → Scopes → Option Value → Prop) : Except Fault α → Prop
  | .ok a => ∃ scopes result,
    m.execute m.inner op (counted s) = .ok () (s.moved 1 scopes result) ∧
      after a scopes result
  | .error f => ∃ scopes result,
    m.execute m.inner op (counted s) = .error f (s.moved 1 scopes result) ∧ below <:+ scopes

variable {after : α → Scopes → Option Value → Prop} {x : Except ExecutionError α}

/-- A fault inside leaves also what is further below. -/
theorem Comes.mono {lower : Scopes} (h : m.Comes n s below after x) (le : lower <:+ below) :
    m.Comes n s lower after x := by
  cases x with
  | ok a => exact h
  | error e =>
    obtain ⟨t, steps, stopped⟩ := h
    exact ⟨t, steps, { stopped with scopes := le.trans stopped.scopes }⟩

theorem Comes.fault {e : ExecutionError} {after' : β → Scopes → Option Value → Prop}
    (h : m.Comes n s below after (.error e)) (k : Nat) :
    m.Comes (n + k) s below after' (.error e) := by
  obtain ⟨t, steps, stopped⟩ := h
  obtain ⟨j, some, le, place⟩ := stopped.place
  refine ⟨t, ?_, { stopped with place := ⟨j, some, Nat.le_add_right_of_le le, place⟩ }⟩
  rw [stepTimes_add, steps]

/-- Behind a value the machine goes on. -/
theorem Comes.next {a : α} {y : Except ExecutionError β}
    {after' : β → Scopes → Option Value → Prop} (h : m.Comes n s below after (.ok a))
    (next : ∀ scopes result, after a scopes result →
      m.Comes k (s.moved n scopes result) below after' y) :
    m.Comes (n + k) s below after' y := by
  obtain ⟨scopes, result, steps, ha⟩ := h
  cases y with
  | ok b =>
    obtain ⟨scopes', result', steps', hb⟩ := next scopes result ha
    refine ⟨scopes', result', ?_, hb⟩
    rw [stepTimes_add, steps, ← State.moved_moved]
    exact steps'
  | error e =>
    obtain ⟨t, steps', stopped⟩ := next scopes result ha
    obtain ⟨j, some, le, pc, counter⟩ := stopped.place
    refine ⟨t, ?_, { stopped with place := ⟨n + j, ?_⟩ }⟩
    · rw [stepTimes_add, steps]
      exact steps'
    · rw [State.moved_pc] at pc
      rw [State.moved_steps] at counter
      omega

/-- The machine comes to one end only. -/
theorem Comes.unique {y : Except ExecutionError α} (hx : m.Comes n s below after x)
    (hy : m.Comes n s below after y)
    (same : ∀ {a b scopes result}, after a scopes result → after b scopes result → a = b) :
    x = y := by
  cases x with
  | ok a =>
    obtain ⟨scopes, result, steps, ha⟩ := hx
    cases y with
    | ok b =>
      obtain ⟨scopes', result', steps', hb⟩ := hy
      have ends := steps.symm.trans steps'
      injection ends with _ ends
      obtain rfl : scopes = scopes' := congrArg State.scopes ends
      obtain rfl : result = result' := congrArg State.result ends
      rw [same ha hb]
    | error e =>
      obtain ⟨t, steps', -⟩ := hy
      cases steps.symm.trans steps'
  | error e =>
    obtain ⟨t, steps, -⟩ := hx
    cases y with
    | ok b =>
      obtain ⟨scopes', result', steps', -⟩ := hy
      cases steps.symm.trans steps'
    | error e' =>
      obtain ⟨t', steps', -⟩ := hy
      cases steps.symm.trans steps'
      rfl

/-- An instruction is one step. -/
theorem Does.comes {op : Op} {pos : Position} {x : Except Fault α}
    (instr : m.program.code[s.pc]? = some (.plain op pos)) (enough : m.Affords (s.steps + 1))
    (h : m.Does s op below after x) : m.Comes 1 s below after (x.mapError (⟨pos, ·⟩)) := by
  have step := step_eq_execute instr enough.exhausted?
  cases x with
  | ok a =>
    obtain ⟨scopes, result, run, ha⟩ := h
    refine ⟨scopes, result, ?_, ha⟩
    rw [stepTimes, step, Instr.plain, run]
    rfl
  | error f =>
    obtain ⟨scopes, result, run, le⟩ := h
    refine ⟨{ s.moved 1 scopes result with running := false }, ?_,
      ⟨rfl, ⟨1, by decide, Nat.le_refl 1, rfl, rfl⟩, rfl, rfl, rfl, rfl, le⟩⟩
    rw [stepTimes, step, Instr.plain, run]

theorem Comes.instr {a : α} {op : Op} {pos : Position} {y : Except Fault β}
    {after' : β → Scopes → Option Value → Prop} (h : m.Comes n s below after (.ok a))
    (instr : m.program.code[s.pc + n]? = some (.plain op pos))
    (enough : m.Affords (s.steps + n + 1))
    (does : ∀ scopes result, after a scopes result →
      m.Does (s.moved n scopes result) op below after' y) :
    m.Comes (n + 1) s below after' (y.mapError (⟨pos, ·⟩)) :=
  h.next fun scopes result ha => (does scopes result ha).comes instr enough

/-! ## Instructions -/

variable {scope : Scope} {rest : Scopes}

/-- A value is pushed onto a scope. -/
def Pushed (scope : Scope) (rest : Scopes) : Value → Scopes → Option Value → Prop :=
  fun v scopes _ => scopes = scope.push v :: rest

theorem does_openScope (s : State) (below : Scopes) :
    m.Does s .openScope below (fun _ scopes _ => scopes = s.scopes.opened false) (.ok ()) :=
  ⟨_, _, rfl, rfl⟩

theorem does_closeScope (below : Scopes) {v : Value} (hs : s.scopes = scope.push v :: rest) :
    m.Does s .closeScope below (fun v scopes result => scopes = rest ∧ result = some v)
      (.ok v) := by
  refine ⟨rest, some v, ?_, rfl, rfl⟩
  simp only [execute, Exec.run_bind, Exec.run_closeScope, counted, hs, Exec.run_modify]
  rfl

theorem does_push (value : Literal) (hs : s.scopes = scope :: rest) :
    m.Does s (.push value) below (Pushed scope rest) (.ok value.toValue) :=
  ⟨_, _, Exec.run_push_cons _ _ hs, rfl⟩

theorem does_emptyArray (below : Scopes) (hs : s.scopes = scope :: rest) :
    m.Does s .emptyArray below (Pushed scope rest) (.ok (.array [])) :=
  ⟨_, _, Exec.run_push_cons _ _ hs, rfl⟩

theorem does_load (name : String) (hs : s.scopes = scope :: rest) :
    m.Does s (.load name) rest (Pushed scope rest) (s.scopes.lookup name) := by
  cases look : s.scopes.lookup name with
  | ok v =>
    refine ⟨scope.push v :: rest, s.result, ?_, rfl⟩
    simp only [execute, Exec.run_bind, Exec.run_lookup, counted, look]
    exact Exec.run_push_cons _ _ hs
  | error f =>
    refine ⟨s.scopes, s.result, ?_, hs ▸ List.suffix_cons scope rest⟩
    simp only [execute, Exec.run_bind, Exec.run_lookup, counted, look]
    rfl

theorem does_apply (op : Operator) {l r : Value}
    (hs : s.scopes = (scope.push l).push r :: rest) :
    m.Does s (.apply op) rest (Pushed scope rest) (op.apply l r) := by
  cases applied : op.apply l r with
  | ok v =>
    refine ⟨scope.push v :: rest, s.result, ?_, rfl⟩
    simp only [execute, Exec.run_bind, Exec.run_pop, counted, hs, Scope.push, applied,
      Exec.run_ofExcept_ok]
    exact Exec.run_push_cons _ _ rfl
  | error f =>
    refine ⟨scope :: rest, s.result, ?_, List.suffix_cons scope rest⟩
    simp only [execute, Exec.run_bind, Exec.run_pop, counted, hs, Scope.push, applied,
      Exec.run_ofExcept_error]
    rfl

theorem does_append (below : Scopes) {items : List Value} {v : Value} (hr : s.result = some v)
    (hs : s.scopes = scope.push (.array items) :: rest) :
    m.Does s .append below (Pushed scope rest) (.ok (.array (items ++ [v]))) := by
  refine ⟨scope.push (.array (items ++ [v])) :: rest, none, ?_, rfl⟩
  simp only [execute, Exec.run_bind, Exec.run_takeResult, counted, hr, Exec.run_pop, hs, Scope.push]
  exact Exec.run_push_cons _ _ rfl

theorem does_loadItem (name : String) {env : Env} {i : Value} (hr : s.result = some i)
    (hs : s.scopes = scope :: rest) (sees : s.scopes.get? = env) :
    m.Does s (.loadItem name) rest (Pushed scope rest) (env.item name i) := by
  have look : (counted s).scopes.lookup name = env.lookup name := sees ▸ rfl
  have run : m.execute m.inner (.loadItem name) (counted s) = _ :=
    execute_loadItem (by exact hr) look m.inner
  cases held : env.item name i with
  | ok v =>
    rw [held] at run
    exact ⟨_, _, run.trans (Exec.run_push_cons _ _ hs), rfl⟩
  | error f =>
    rw [held] at run
    exact ⟨_, _, run, hs ▸ List.suffix_cons scope rest⟩

/-! ## Expressions -/

theorem get?_push (scope : Scope) (v : Value) (rest : Scopes) :
    Scopes.get? (scope.push v :: rest) = Scopes.get? (scope :: rest) := rfl

/-- Behind code in a scope of its own, the value that it has pushed is the result. -/
theorem comes_inScope {pos : Position} {code : List Instr} {x : Except ExecutionError Value}
    (placed : m.program.CodeAt s.pc (inScope pos code))
    (enough : m.Affords (s.steps + (inScope pos code).length))
    (body : ∀ t : State, m.program.CodeAt t.pc code → m.Affords (t.steps + code.length) →
      t.scopes = Scope.new false :: s.scopes → t.scopes.get? = s.scopes.get? →
      m.Comes code.length t s.scopes (Pushed (Scope.new false) s.scopes) x) :
    m.Comes (inScope pos code).length s s.scopes
      (fun v scopes result => scopes = s.scopes ∧ result = some v) x := by
  simp only [inScope, codeAt_append, codeAt_cons, List.length_append, List.length_singleton]
    at placed enough ⊢
  obtain ⟨⟨⟨opening, -⟩, inside⟩, closing, -⟩ := placed
  have opened := (does_openScope s s.scopes).comes opening (enough.mono (by omega))
  have ran : m.Comes (1 + code.length) s s.scopes (Pushed (Scope.new false) s.scopes) x := by
    refine opened.next fun scopes result hs => body _ inside (enough.mono ?_) hs (hs ▸ rfl)
    simp only [State.moved_steps]
    omega
  cases x with
  | error e => exact ran.fault 1
  | ok v => exact ran.instr closing enough fun _ _ pushed => does_closeScope s.scopes pushed

end Machine

open Machine

mutual

/-- The code of a formula pushes what the formula yields, or stops at its fault. -/
theorem Expr.comes {m : Machine} {sigs : Signatures} {env : Env} : ∀ (e : Expr) {s : State}
    {scope : Scope} {rest : Scopes} {x : Except ExecutionError Value}, e.Yields env x →
    m.program.CodeAt s.pc (e.code sigs) → m.Affords (s.steps + (e.code sigs).length) →
    s.scopes = scope :: rest → s.scopes.get? = env →
    m.Comes (e.code sigs).length s rest (Pushed scope rest) x
  | .literal pos value, s, scope, rest, x => by
    intro yields placed enough hs _
    cases yields
    exact (does_push value hs).comes placed.head enough
  | .var pos name, s, scope, rest, x => by
    intro yields placed enough hs sees
    have loaded := (does_load name hs).comes placed.head enough
    cases yields with
    | var found =>
      rw [Scopes.lookup, sees, found] at loaded
      exact loaded
    | unbound hidden =>
      rw [Scopes.lookup, sees, hidden] at loaded
      exact loaded
  | .call pos site name args, s, scope, rest, x => nofun
  | .paren pos enclosed, s, scope, rest, x => by
    intro yields placed enough hs sees
    cases yields with
    | paren yields => exact enclosed.comes yields placed enough hs sees
  | .binary pos op lhs rhs, s, scope, rest, x => by
    intro yields placed enough hs sees
    simp only [Expr.code, codeAt_append, List.length_append, List.length_singleton]
      at placed enough ⊢
    obtain ⟨⟨left, right⟩, apply⟩ := placed
    have enoughLeft : m.Affords (s.steps + (lhs.code sigs).length) := enough.mono (by omega)
    have enoughRight : m.Affords (s.steps + (lhs.code sigs).length + (rhs.code sigs).length) :=
      enough.mono (by omega)
    have operands {l : Value} {y : Except ExecutionError Value} (hl : lhs.Yields env (.ok l))
        (hr : rhs.Yields env y) :
        m.Comes ((lhs.code sigs).length + (rhs.code sigs).length) s rest
          (Pushed (scope.push l) rest) y := by
      refine (lhs.comes hl left enoughLeft hs sees).next fun scopes result pushed => ?_
      refine rhs.comes hr right enoughRight pushed ?_
      rw [State.moved_scopes, pushed, get?_push, ← hs, sees]
    cases yields with
    | leftFault hl =>
      rw [Nat.add_assoc]
      exact (lhs.comes hl left enoughLeft hs sees).fault _
    | rightFault hl hr => exact (operands hl hr).fault 1
    | binary hl hr ho =>
      rw [← Operator.yields_iff.1 ho]
      exact (operands hl hr).instr apply.head enough fun _ _ pushed => does_apply op pushed
  | .index pos name index, s, scope, rest, x => by
    intro yields placed enough hs sees
    simp only [Expr.code, codeAt_append, List.length_append, List.length_singleton]
      at placed enough ⊢
    obtain ⟨indexCode, load⟩ := placed
    have below : rest <:+ s.scopes := hs ▸ List.suffix_cons scope rest
    have evaluated {y : Except ExecutionError Value} (h : index.Yields env y) :=
      (comes_inScope indexCode (enough.mono (by omega)) fun t placed enough opened same =>
        index.comes h placed enough opened (same.trans sees)).mono below
    cases yields with
    | indexFault h => exact (evaluated h).fault 1
    | index h held =>
      rw [← Env.yields_iff.1 held]
      exact (evaluated h).instr load.head enough fun _ _ now =>
        does_loadItem name now.2 (now.1.trans hs) ((congrArg Scopes.get? now.1).trans sees)
  | .array pos items, s, scope, rest, x => by
    intro yields placed enough hs sees
    simp only [Expr.code, codeAt_append, List.length_append, List.length_singleton]
      at placed enough ⊢
    obtain ⟨empty, placed⟩ := placed
    cases yields with
    | @array _ _ y yields =>
      have values : y.map Value.array = y.map fun vs => .array ([] ++ vs) := rfl
      rw [values]
      have opened := (does_emptyArray rest hs).comes empty.head (enough.mono (by omega))
      refine opened.next fun scopes result pushed => ?_
      refine items_come items yields placed (enough.mono ?_) pushed ?_
      · rw [State.moved_steps]
        omega
      · rw [State.moved_scopes, pushed, get?_push, ← hs, sees]

/-- The code of the items of an array appends what they yield. -/
theorem items_come {m : Machine} {sigs : Signatures} {env : Env} : ∀ (es : List Expr) {s : State}
    {scope : Scope} {rest : Scopes} {items : List Value}
    {x : Except ExecutionError (List Value)}, AllYield env es x →
    m.program.CodeAt s.pc (itemsCode sigs es) →
    m.Affords (s.steps + (itemsCode sigs es).length) →
    s.scopes = scope.push (.array items) :: rest → s.scopes.get? = env →
    m.Comes (itemsCode sigs es).length s rest (Pushed scope rest)
      (x.map fun vs => .array (items ++ vs))
  | [], s, scope, rest, items, x => by
    intro yields _ _ hs _
    cases yields
    rw [← List.append_nil items] at hs
    exact ⟨s.scopes, s.result, rfl, hs⟩
  | e :: es, s, scope, rest, items, x => by
    intro yields placed enough hs sees
    simp only [itemsCode, codeAt_append, List.length_append, List.length_singleton]
      at placed enough ⊢
    obtain ⟨⟨itemCode, append⟩, others⟩ := placed
    have below : rest <:+ s.scopes := hs ▸ List.suffix_cons _ rest
    have evaluated {y : Except ExecutionError Value} (h : e.Yields env y) :=
      (comes_inScope itemCode (enough.mono (by omega)) fun t placed enough opened same =>
        e.comes h placed enough opened (same.trans sees)).mono below
    cases yields with
    | fault h =>
      rw [Nat.add_assoc]
      exact (evaluated h).fault _
    | @cons _ _ v y h later =>
      have appended : m.Comes ((inScope e.pos (e.code sigs)).length + 1) s rest
          (Pushed scope rest) (.ok (.array (items ++ [v]))) :=
        (evaluated h).instr append.head (enough.mono (by omega)) fun _ _ now =>
          does_append rest now.2 (now.1.trans hs)
      have values : ((y.map (v :: ·)).map fun vs => Value.array (items ++ vs)) =
          y.map fun vs => .array (items ++ [v] ++ vs) := by
        cases y with
        | ok vs => simp [Except.map]
        | error error => rfl
      rw [values]
      refine appended.next fun scopes result pushed => ?_
      refine items_come es later others (enough.mono ?_) pushed ?_
      · rw [State.moved_steps]
        omega
      · rw [State.moved_scopes, pushed, get?_push, ← get?_push scope (.array items), ← hs, sees]

end

/-- Wherever the code of a formula lies, and whatever the state of the machine is there, a formula
that yields a value does so in one step for each of its instructions, as the result and with nothing
else changed. One that yields a fault stops the machine with that fault, and the calls, their
arguments, the console and the scopes are as they were, under those that the formula has opened. -/
theorem formulas_exact (m : Machine) (sigs : Signatures) (e : Expr) (free : e.CallFree) (s : State)
    (placed : m.program.CodeAt s.pc (e.scopedCode sigs))
    (enough : m.Affords (s.steps + (e.scopedCode sigs).length)) :
    ∃ x, (∀ y, e.Yields s.scopes.get? y ↔ y = x) ∧
      match x with
      | .ok v => m.stepTimes (e.scopedCode sigs).length s = .ok () { s with
          pc := s.pc + (e.scopedCode sigs).length
          steps := s.steps + (e.scopedCode sigs).length
          result := some v }
      | .error error => ∃ t, m.stepTimes (e.scopedCode sigs).length s = .error error t ∧
          t.StoppedWithin s (e.scopedCode sigs).length s.scopes := by
  have come {x : Except ExecutionError Value} (yields : e.Yields s.scopes.get? x) :=
    comes_inScope placed enough fun _ placed enough opened same =>
      e.comes yields placed enough opened same
  obtain ⟨x, yields⟩ := e.exists_yields s.scopes.get? free
  refine ⟨x, fun y => ⟨fun other => ?_, fun same => same ▸ yields⟩, ?_⟩
  · refine (come other).unique (come yields) ?_
    rintro v w scopes result ⟨-, rfl⟩ ⟨-, value⟩
    exact Option.some.inj value
  · have comes := come yields
    cases x with
    | error error => exact comes
    | ok v =>
      obtain ⟨scopes, result, steps, rfl, rfl⟩ := comes
      exact steps

/-- `[xs[1], xs[1] / (xs[0])]` -/
def quotients : Expr :=
  .array ⟨1, 1⟩ [.index ⟨1, 2⟩ "xs" (.literal ⟨1, 5⟩ (.int 1)),
    .binary ⟨1, 15⟩ .div (.index ⟨1, 9⟩ "xs" (.literal ⟨1, 12⟩ (.int 1)))
      (.paren ⟨1, 17⟩ (.index ⟨1, 18⟩ "xs" (.literal ⟨1, 21⟩ (.int 0))))]

/-- Its code behind another instruction, on a machine that stops when it is through. -/
def quotientMachine : Machine :=
  ⟨⟨(.plain .exit ⟨1, 0⟩ :: quotients.scopedCode fun _ => none).toArray, [], 0⟩, [], some 29⟩

/-- With the smallest integer and -1 for the elements of the array. -/
def quotientState : State where
  pc := 1
  running := false
  steps := 7
  calls := []
  scopes := [⟨[.bool true], [], false⟩,
    ⟨[], [("xs", ⟨.array [.int (-1), .int (-9223372036854775808)], .array⟩)], true⟩]
  waiting := [.int 5]
  incoming := []
  result := some (.string "")
  console := .ofInput [] none

theorem formulas_exact_overflow :
    quotients.CallFree ∧
    quotientMachine.program.CodeAt quotientState.pc (quotients.scopedCode fun _ => none) ∧
    quotientMachine.Affords (quotientState.steps + 22) ∧
    ∃ t, quotientMachine.stepTimes 22 quotientState = .error ⟨⟨1, 15⟩, .overflow⟩ t ∧
      t.StoppedWithin quotientState 22 quotientState.scopes := by
  have free : quotients.CallFree := ⟨trivial, ⟨trivial, trivial⟩, trivial⟩
  have placed : quotientMachine.program.CodeAt quotientState.pc
      (quotients.scopedCode fun _ => none) :=
    (codeAt_cons.1 (Program.codeAt_of_code rfl)).2
  have enough : quotientMachine.Affords (quotientState.steps + 22) := by
    rintro _ ⟨⟩
    decide
  have held : quotientState.scopes.get? "xs" =
      some ⟨.array [.int (-1), .int (-9223372036854775808)], .array⟩ := rfl
  have first {pos pos' : Position} : (Expr.index pos "xs" (.literal pos' (.int 1))).Yields
      quotientState.scopes.get? (.ok (.int (-9223372036854775808))) :=
    .index (x := .ok _) .literal (.item held rfl rfl)
  have last : (Expr.index ⟨1, 18⟩ "xs" (.literal ⟨1, 21⟩ (.int 0))).Yields
      quotientState.scopes.get? (.ok (.int (-1))) :=
    .index (x := .ok _) .literal (.item held rfl rfl)
  have yields : quotients.Yields quotientState.scopes.get? (.error ⟨⟨1, 15⟩, .overflow⟩) :=
    .array (.cons first (.fault (.binary (x := .error _) first (.paren last)
      (.overflow (x := 9223372036854775808) rfl (by decide)))))
  obtain ⟨x, unique, ends⟩ := formulas_exact quotientMachine (fun _ => none) quotients free
    quotientState placed enough
  obtain rfl := (unique _).1 yields
  exact ⟨free, placed, enough, ends⟩

end StackScript
