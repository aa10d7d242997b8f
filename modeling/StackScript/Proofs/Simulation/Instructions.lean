import StackScript.Proofs.Carrier
import StackScript.Proofs.Simulation
import StackScript.Proofs.Variables

/-!
# What each instruction does

One lemma for each instruction that takes part in an evaluation: from a state that stands before it,
the machine follows what the evaluator does there.
-/

namespace StackScript

theorem Machine.execute_of_result_eq_none {m : Machine} {inner : State → StepResult} {op : Op}
    {s : State} (h : op.takesResult = true) (hr : s.result = none) :
    m.execute inner op s = .error .emptyStack s := by
  cases op <;> first
    | exact Bool.noConfusion h
    | simp [execute, Exec.run_takeResult, hr]

/-- Functions of this host answer by themselves, whatever the state of the machine. -/
def Host.Blind (h : Host) : Prop :=
  ∀ name f, h.get? name = some f → ∃ answer, f = .direct fun _ => answer

theorem Machine.execute_loadItem {m : Machine} {s : State} {v : Value} {name : String} {env : Env}
    (hr : s.result = some v) (look : s.scopes.lookup name = env.lookup name)
    (inner : State → StepResult) :
    m.execute inner (.loadItem name) s = match env.item name v with
      | .ok w => Exec.push w { s with result := none }
      | .error f => .error f { s with result := none } := by
  simp only [execute, Exec.run_bind, Exec.run_takeResult, hr, Exec.run_lookup, look, Env.item,
    Env.items]
  cases env.lookup name with
  | error f => rfl
  | ok a =>
    cases a with
    | array items =>
      simp only [Value.toItems, bind, Except.bind]
      cases elementIndex v items.length <;> rfl
    | _ => rfl

theorem Machine.execute_assignItem {m : Machine} {s : State} {v i : Value} (name : String)
    {env : Env} {stack : List Value} {vars : List (String × Binding)} {rest : Scopes}
    (hr : s.result = some v) (hs : s.scopes = ⟨i :: stack, vars, true⟩ :: rest)
    (hv : Shows vars env) (inner : State → StepResult) :
    match env.assignItem name i v with
    | .ok env => ∃ vars, Shows vars env ∧ m.execute inner (.assignItem name) s =
        .ok () { s with result := none, scopes := ⟨stack, vars, true⟩ :: rest }
    | .error f => m.execute inner (.assignItem name) s =
        .error f { s with result := none, scopes := ⟨stack, vars, true⟩ :: rest } := by
  have items := (hv.sees rest).items stack name
  have items' : env.items name = (env.lookup name).bind Value.toItems := rfl
  simp only [execute, Exec.run_bind, Exec.run_takeResult, hr, Exec.run_pop, hs, Exec.run_get,
    items, items', Env.assignItem, Env.lookup]
  cases hn : env name with
  | none => rfl
  | some old =>
    obtain ⟨a, ty⟩ := old
    cases a with
    | array xs =>
      simp only [Except.bind, Value.toItems, bind, Exec.run_ofExcept_ok]
      cases elementIndex i xs.length with
      | error f => rfl
      | ok k =>
        obtain ⟨vars', shows, eq⟩ := hv.setItems hn (xs.set k v) stack rest
        refine ⟨vars', shows, ?_⟩
        simp only [Exec.run_ofExcept_ok, Exec.run_modify, eq]
    | _ => rfl

theorem Machine.run_rangeBounds (s : State) (env : Env)
    (look : ∀ name, s.scopes.lookup name = env.lookup name) (name : String) :
    rangeBounds name s = match env.range name with
      | .ok bounds => .ok bounds s
      | .error f => .error f s := by
  have int (name : String) : rangeBounds.int name s = match env.int name with
      | .ok n => .ok n s
      | .error f => .error f s := by
    simp only [rangeBounds.int, Exec.run_bind, Exec.run_lookup, look, Env.int]
    cases env.lookup name with
    | error f => rfl
    | ok v => cases v <;> rfl
  simp only [rangeBounds, Exec.run_bind, int, Env.range]
  cases env.int name with
  | error f => rfl
  | ok current =>
    simp only [int, bind, Except.bind]
    cases env.int (boundName name) <;> rfl

namespace State.Stands

open Machine

variable {m : Machine} {n : Nat} {s : State} {pc : Nat} {calls : List Frame} {scopes rest : Scopes}
  {waiting : List Value} {c : Console} {pos : Position} {label : Option String}
  {stack : List Value} {vars : List (String × Binding)} {final : Bool} {env : Env}

theorem step_ok {op : Op} {t : State} (hs : s.Stands pc calls scopes waiting c)
    (hb : m.budget = none) (hi : m.program.code[pc]? = some ⟨op, label, pos⟩)
    (h : m.execute m.inner op (counted s) = .ok () t) : m.step s = .ok () t := by
  rw [step_eq_execute (hs.pc ▸ hi) (exhausted?_none hb _), h]

theorem step_error {op : Op} {f : Fault} {t : State} {c' : Console}
    (hs : s.Stands pc calls scopes waiting c) (hb : m.budget = none)
    (hi : m.program.code[pc]? = some ⟨op, label, pos⟩)
    (h : m.execute m.inner op (counted s) = .error f t) (hc : t.console = c') :
    ∃ u, m.step s = .error ⟨pos, f⟩ u ∧ u.console = c' := by
  rw [step_eq_execute (hs.pc ▸ hi) (exhausted?_none hb _), h]
  exact ⟨_, rfl, hc⟩

theorem counted (hs : s.Stands pc calls scopes waiting c) :
    (counted s).Stands (pc + 1) calls scopes waiting c :=
  ⟨hs.running, congrArg (· + 1) hs.pc, hs.calls, hs.scopes, hs.waiting, hs.console⟩

theorem marker {k : Marker} (hs : s.Stands pc calls scopes waiting c) (hb : m.budget = none)
    (hi : m.program.code[pc]? = some ⟨.marker k, label, pos⟩) :
    ∃ t, m.step s = .ok () t ∧ t.Stands (pc + 1) calls scopes waiting c :=
  ⟨_, hs.step_ok hb hi rfl, hs.counted⟩

theorem openScope (hs : s.Stands pc calls scopes waiting c) (hb : m.budget = none)
    (hi : m.program.code[pc]? = some ⟨.openScope, label, pos⟩) :
    ∃ t, m.step s = .ok () t ∧ t.Stands (pc + 1) calls (⟨[], [], false⟩ :: scopes) waiting c :=
  ⟨_, hs.step_ok hb hi rfl, { hs.counted with scopes := congrArg (_ :: ·) hs.scopes }⟩

theorem closeScope {scope : Scope} (hs : s.Stands pc calls (scope :: rest) waiting c)
    (hb : m.budget = none) (hi : m.program.code[pc]? = some ⟨.closeScope, label, pos⟩) :
    ∃ t, m.step s = .ok () t ∧ t.Stands (pc + 1) calls rest waiting c ∧
      t.result = scope.stack.head? := by
  have hx : m.execute m.inner .closeScope (Machine.counted s) =
      .ok () { Machine.counted s with scopes := rest, result := scope.result } := by
    simp [execute, Exec.run_closeScope, hs.counted.scopes]
  exact ⟨_, hs.step_ok hb hi hx, { hs.counted with scopes := rfl }, rfl⟩

theorem push {v : Literal} (hs : s.Stands pc calls (⟨stack, vars, final⟩ :: rest) waiting c)
    (hb : m.budget = none) (hi : m.program.code[pc]? = some ⟨.push v, label, pos⟩) :
    ∃ t, m.step s = .ok () t ∧
      t.Stands (pc + 1) calls (⟨v.toValue :: stack, vars, final⟩ :: rest) waiting c :=
  ⟨_, hs.step_ok hb hi (Exec.run_push_cons _ _ hs.counted.scopes),
    { hs.counted with scopes := rfl }⟩

theorem load {name : String} (hs : s.Stands pc calls (⟨stack, vars, final⟩ :: rest) waiting c)
    (hb : m.budget = none) (hi : m.program.code[pc]? = some ⟨.load name, label, pos⟩)
    (hv : Sees vars final rest env) :
    m.Sim n s
      (fun v c t => t.Stands (pc + 1) calls (⟨v :: stack, vars, final⟩ :: rest) waiting c)
      (Eval.ofExcept pos (env.lookup name) c) := by
  have look := hv.lookup stack name
  rw [← hs.counted.scopes] at look
  apply Machine.Sim.ofExcept hs.running
  · intro v hv
    have hx := Exec.run_push_cons (Machine.counted s) v hs.counted.scopes
    refine ⟨_, hs.step_ok hb hi (Eq.trans ?_ hx), { hs.counted with scopes := rfl }⟩
    simp [execute, Exec.run_lookup, look, hv]
  · intro f hf
    refine hs.step_error hb hi (t := Machine.counted s) ?_ hs.console
    simp [execute, Exec.run_lookup, look, hf]

/-- An instruction that needs a result finds it or fails. -/
theorem needed {α : Type} {Q : α → Console → State → Prop} {op : Op} {v : Option Value}
    {f : Value → Eval α} (hs : s.Stands pc calls scopes waiting c) (hb : m.budget = none)
    (hi : m.program.code[pc]? = some ⟨op, label, pos⟩) (ho : op.takesResult = true)
    (hr : s.result = v) (h : ∀ v, s.result = some v → m.Sim n s Q (f v c)) :
    m.Sim n s Q ((Eval.needed pos v >>= f) c) := by
  cases v with
  | some v => exact h v hr
  | none =>
    have hr : (Machine.counted s).result = none := hr
    exact .fault hs.running (hs.step_error hb hi (execute_of_result_eq_none ho hr) hs.console)

theorem pushResult {v : Value} (hs : s.Stands pc calls (⟨stack, vars, final⟩ :: rest) waiting c)
    (hb : m.budget = none) (hi : m.program.code[pc]? = some ⟨.pushResult, label, pos⟩)
    (hr : s.result = some v) :
    ∃ t, m.step s = .ok () t ∧
      t.Stands (pc + 1) calls (⟨v :: stack, vars, final⟩ :: rest) waiting c := by
  have hr : (Machine.counted s).result = some v := hr
  have hx := Exec.run_push_cons { Machine.counted s with result := none } v hs.counted.scopes
  refine ⟨_, hs.step_ok hb hi (Eq.trans ?_ hx), { hs.counted with scopes := rfl }⟩
  simp [execute, Exec.run_takeResult, hr]

theorem apply {op : Operator} (hs : s.Stands pc calls (⟨stack, vars, final⟩ :: rest) waiting c)
    (hb : m.budget = none) (hi : m.program.code[pc]? = some ⟨.apply op, label, pos⟩) :
    m.Sim n s
      (fun stack c t => t.Stands (pc + 1) calls (⟨stack, vars, final⟩ :: rest) waiting c)
      (op.evalOnto pos stack c) := by
  have hsc := hs.counted.scopes
  match stack with
  | [] =>
    refine .lacks hs.running (hs.step_error hb hi (t := Machine.counted s) ?_ hs.console)
    simp [execute, Exec.run_pop, hsc]
  | [r] =>
    refine .lacks hs.running (hs.step_error hb hi
      (t := { Machine.counted s with scopes := ⟨[], vars, final⟩ :: rest }) ?_ hs.console)
    simp [execute, Exec.run_pop, hsc]
  | r :: l :: stack =>
    refine .bind (.ofExcept hs.running (fun v hv => ?_) (fun f hf => ?_)) fun v c t ht => .pure ht
    · refine ⟨_, hs.step_ok hb hi (t := { Machine.counted s with
        scopes := ⟨v :: stack, vars, final⟩ :: rest }) ?_, { hs.counted with scopes := rfl }⟩
      simp [execute, Exec.run_pop, hsc, hv, Exec.push, Exec.run_onScopes, Scopes.push, Scope.push]
    · refine hs.step_error hb hi
        (t := { Machine.counted s with scopes := ⟨stack, vars, final⟩ :: rest }) ?_ hs.console
      simp [execute, Exec.run_pop, hsc, hf]

theorem passArg {v : Value} (hs : s.Stands pc calls scopes waiting c) (hb : m.budget = none)
    (hi : m.program.code[pc]? = some ⟨.passArg, label, pos⟩) (hr : s.result = some v) :
    ∃ t, m.step s = .ok () t ∧ t.Stands (pc + 1) calls scopes (v :: waiting) c := by
  have hr : (Machine.counted s).result = some v := hr
  refine ⟨{ Machine.counted s with result := none, waiting := v :: s.waiting },
    hs.step_ok hb hi ?_, { hs.counted with waiting := congrArg (v :: ·) hs.waiting }⟩
  simp [execute, Exec.run_takeResult, hr]
  rfl

theorem emptyArray (hs : s.Stands pc calls (⟨stack, vars, final⟩ :: rest) waiting c)
    (hb : m.budget = none) (hi : m.program.code[pc]? = some ⟨.emptyArray, label, pos⟩) :
    ∃ t, m.step s = .ok () t ∧
      t.Stands (pc + 1) calls (⟨.array [] :: stack, vars, final⟩ :: rest) waiting c :=
  ⟨_, hs.step_ok hb hi (Exec.run_push_cons _ _ hs.counted.scopes),
    { hs.counted with scopes := rfl }⟩

theorem append {v : Value} {items : List Value}
    (hs : s.Stands pc calls (⟨.array items :: stack, vars, final⟩ :: rest) waiting c)
    (hb : m.budget = none) (hi : m.program.code[pc]? = some ⟨.append, label, pos⟩)
    (hr : s.result = some v) :
    ∃ t, m.step s = .ok () t ∧
      t.Stands (pc + 1) calls (⟨.array (items ++ [v]) :: stack, vars, final⟩ :: rest) waiting
        c := by
  have hr : (Machine.counted s).result = some v := hr
  refine ⟨{ Machine.counted s with
      result := none, scopes := ⟨.array (items ++ [v]) :: stack, vars, final⟩ :: rest },
    hs.step_ok hb hi ?_, { hs.counted with scopes := rfl }⟩
  simp [execute, Exec.run_takeResult, hr, Exec.run_pop, hs.counted.scopes, Exec.push,
    Exec.run_onScopes, Scopes.push, Scope.push]

theorem loadItem {name : String} {v : Value}
    (hs : s.Stands pc calls (⟨stack, vars, final⟩ :: rest) waiting c)
    (hb : m.budget = none) (hi : m.program.code[pc]? = some ⟨.loadItem name, label, pos⟩)
    (hv : Sees vars final rest env) (hr : s.result = some v) :
    m.Sim n s
      (fun v c t => t.Stands (pc + 1) calls (⟨v :: stack, vars, final⟩ :: rest) waiting c)
      (Eval.ofExcept pos (env.item name v) c) := by
  have look := hv.lookup stack name
  rw [← hs.counted.scopes] at look
  have hx := execute_loadItem (m := m) (s := Machine.counted s) (v := v) hr look m.inner
  apply Machine.Sim.ofExcept hs.running
  · intro w hw
    have hp := Exec.run_push_cons { Machine.counted s with result := none } w hs.counted.scopes
    rw [hw] at hx
    exact ⟨_, hs.step_ok hb hi (hx.trans hp), { hs.counted with scopes := rfl }⟩
  · intro f hf
    rw [hf] at hx
    exact hs.step_error hb hi hx hs.console

theorem jump {target : String} {goal : Nat} (hs : s.Stands pc calls scopes waiting c)
    (hb : m.budget = none) (hi : m.program.code[pc]? = some ⟨.jump target, label, pos⟩)
    (ht : m.program.resolve target = some goal) :
    ∃ t, m.step s = .ok () t ∧ t.Stands goal calls scopes waiting c := by
  refine ⟨{ Machine.counted s with pc := goal }, hs.step_ok hb hi ?_, { hs.counted with pc := rfl }⟩
  simp [execute, run_jump, ht]

theorem jumpUnless {guard : Guard} {target : String} {goal : Nat} {v : Value}
    (hs : s.Stands pc calls scopes waiting c) (hb : m.budget = none)
    (hi : m.program.code[pc]? = some ⟨.jumpUnless guard target, label, pos⟩)
    (ht : m.program.resolve target = some goal) (hr : s.result = some v) :
    m.Sim n s (fun b c t => t.Stands (cond b (pc + 1) goal) calls scopes waiting c)
      (Eval.ofExcept pos v.toBool c) := by
  have hr : (Machine.counted s).result = some v := hr
  apply Machine.Sim.ofExcept hs.running
  · intro b hv
    cases v with
    | bool b' =>
      cases hv
      cases b with
      | true =>
        refine ⟨{ Machine.counted s with result := none }, hs.step_ok hb hi ?_,
          { hs.counted with pc := hs.counted.pc }⟩
        simp [execute, Exec.run_takeResult, hr]
      | false =>
        refine ⟨{ Machine.counted s with result := none, pc := goal }, hs.step_ok hb hi ?_,
          { hs.counted with pc := rfl }⟩
        simp [execute, Exec.run_takeResult, hr, run_jump, ht]
    | _ => cases hv
  · intro f hf
    refine hs.step_error hb hi (t := { Machine.counted s with result := none }) ?_ hs.console
    cases v with
    | bool b => cases hf
    | _ =>
      cases hf
      simp [execute, Exec.run_takeResult, hr]

theorem rangeTest {name target : String} {goal : Nat}
    (hs : s.Stands pc calls (⟨stack, vars, final⟩ :: rest) waiting c) (hb : m.budget = none)
    (hi : m.program.code[pc]? = some ⟨.rangeTest name target, label, pos⟩)
    (ht : m.program.resolve target = some goal) (hv : Sees vars final rest env) :
    m.Sim n s
      (fun b c t => t.Stands (cond b (pc + 1) goal) calls (⟨stack, vars, final⟩ :: rest)
        waiting c)
      (Range.test pos name env c) := by
  have bounds := run_rangeBounds (Machine.counted s) env
    (fun name => hs.counted.scopes ▸ hv.lookup stack name) name
  cases hr : env.range name with
  | error f =>
    rw [hr] at bounds
    have test : Range.test pos name env c = Eval.fault pos f c := by
      simp only [Range.test, hr]
      rfl
    rw [test]
    refine .fault hs.running (hs.step_error hb hi (t := Machine.counted s) ?_ hs.console)
    simp [execute, bounds]
  | ok ends =>
    obtain ⟨current, last⟩ := ends
    rw [hr] at bounds
    have test : Range.test pos name env c = .done (decide (current ≠ last)) c := by
      simp only [Range.test, hr]
      rfl
    rw [test]
    by_cases eq : current = last
    · refine Sim.silent hs.running ⟨{ Machine.counted s with pc := goal }, hs.step_ok hb hi ?_,
        { hs.counted with pc := ?_ }⟩ fun t ht => .pure ht
      · simp [execute, bounds, eq, run_jump, ht]
      · simp [eq]
    · refine Sim.silent hs.running ⟨Machine.counted s, hs.step_ok hb hi ?_,
        { hs.counted with pc := ?_ }⟩ fun t ht => .pure ht
      · simp [execute, bounds, eq]
      · simp [eq, hs.counted.pc]

theorem rangeStep {name target : String} {goal : Nat}
    (hs : s.Stands pc calls (⟨stack, vars, true⟩ :: rest) waiting c) (hb : m.budget = none)
    (hi : m.program.code[pc]? = some ⟨.rangeStep name target, label, pos⟩)
    (ht : m.program.resolve target = some goal) (hv : Shows vars env) :
    m.Sim n s
      (fun x c t => ∃ env vars, x = .next env ∧ Shows vars env ∧
        t.Stands goal calls (⟨stack, vars, true⟩ :: rest) waiting c)
      (Range.step pos name env c) := by
  have bounds := run_rangeBounds (Machine.counted s) env
    (fun name => hs.counted.scopes ▸ (hv.sees rest).lookup stack name) name
  cases hr : env.range name with
  | error f =>
    rw [hr] at bounds
    have step : Range.step pos name env c = Eval.fault pos f c := by
      simp only [Range.step, hr]
      rfl
    rw [step]
    refine .fault hs.running (hs.step_error hb hi (t := Machine.counted s) ?_ hs.console)
    simp [execute, bounds]
  | ok ends =>
    obtain ⟨current, last⟩ := ends
    rw [hr] at bounds
    have step : Range.step pos name env c =
        (Eval.ofExcept pos (env.assign name (.int (stepToward current last)) none) >>=
          fun env => pure (.next env)) c := by
      simp only [Range.step, hr]
      rfl
    rw [step]
    refine .bind (Q := fun env c t => ∃ vars, Shows vars env ∧
        t.Stands goal calls (⟨stack, vars, true⟩ :: rest) waiting c) ?_
      fun env c t ⟨vars, shows, ht⟩ => .pure ⟨env, vars, rfl, shows, ht⟩
    apply Machine.Sim.ofExcept hs.running
    · intro env he
      obtain ⟨vars', shows, eq⟩ := hv.assign_ok he stack rest
      refine ⟨{ Machine.counted s with scopes := ⟨stack, vars', true⟩ :: rest, pc := goal },
        hs.step_ok hb hi ?_, vars', shows, { hs.counted with pc := rfl, scopes := rfl }⟩
      simp [execute, bounds, Exec.run_assign, hs.counted.scopes, eq, run_jump, ht]
    · intro f hf
      have eq := hv.assign_error hf stack rest
      refine hs.step_error hb hi (t := Machine.counted s) ?_ hs.console
      simp [execute, bounds, Exec.run_assign, hs.counted.scopes, eq]

theorem assign {name : String} {ty : Option Ty} {v : Value}
    (hs : s.Stands pc calls (⟨stack, vars, true⟩ :: rest) waiting c) (hb : m.budget = none)
    (hi : m.program.code[pc]? = some ⟨.assign ty name, label, pos⟩) (hv : Shows vars env)
    (hr : s.result = some v) :
    m.Sim n s
      (fun env c t => ∃ vars, Shows vars env ∧
        t.Stands (pc + 1) calls (⟨stack, vars, true⟩ :: rest) waiting c)
      (Eval.ofExcept pos (env.assign name v ty) c) := by
  have hr : (Machine.counted s).result = some v := hr
  apply Machine.Sim.ofExcept hs.running
  · intro env he
    obtain ⟨vars', shows, eq⟩ := hv.assign_ok he stack rest
    refine ⟨{ Machine.counted s with result := none, scopes := ⟨stack, vars', true⟩ :: rest },
      hs.step_ok hb hi ?_, vars', shows, { hs.counted with scopes := rfl }⟩
    simp [execute, Exec.run_takeResult, hr, Exec.run_assign, hs.counted.scopes, eq]
  · intro f hf
    have eq := hv.assign_error hf stack rest
    refine hs.step_error hb hi (t := { Machine.counted s with result := none }) ?_ hs.console
    simp [execute, Exec.run_takeResult, hr, Exec.run_assign, hs.counted.scopes, eq]

theorem assignItem {name : String} {i v : Value}
    (hs : s.Stands pc calls (⟨i :: stack, vars, true⟩ :: rest) waiting c) (hb : m.budget = none)
    (hi : m.program.code[pc]? = some ⟨.assignItem name, label, pos⟩) (hv : Shows vars env)
    (hr : s.result = some v) :
    m.Sim n s
      (fun env c t => ∃ vars, Shows vars env ∧
        t.Stands (pc + 1) calls (⟨stack, vars, true⟩ :: rest) waiting c)
      (Eval.ofExcept pos (env.assignItem name i v) c) := by
  have hr : (Machine.counted s).result = some v := hr
  have hx := execute_assignItem (m := m) name hr hs.counted.scopes hv m.inner
  apply Machine.Sim.ofExcept hs.running
  · intro env he
    rw [he] at hx
    obtain ⟨vars', shows, eq⟩ := hx
    exact ⟨_, hs.step_ok hb hi eq, vars', shows, { hs.counted with scopes := rfl }⟩
  · intro f hf
    rw [hf] at hx
    exact hs.step_error hb hi hx hs.console

theorem bindArg {name : String} {ty : Ty} {v : Value} {vs : List Value}
    (hs : s.Stands pc calls (⟨stack, vars, true⟩ :: rest) waiting c) (hb : m.budget = none)
    (hi : m.program.code[pc]? = some ⟨.bindArg ty name, label, pos⟩) (hv : Shows vars env)
    (ha : s.incoming = v :: vs) :
    m.Sim n s
      (fun env c t => ∃ vars, Shows vars env ∧ t.incoming = vs ∧
        t.Stands (pc + 1) calls (⟨stack, vars, true⟩ :: rest) waiting c)
      (Eval.ofExcept pos (env.assign name v (some ty)) c) := by
  have ha : (Machine.counted s).incoming = v :: vs := ha
  apply Machine.Sim.ofExcept hs.running
  · intro env he
    obtain ⟨vars', shows, eq⟩ := hv.assign_ok he stack rest
    refine ⟨{ Machine.counted s with incoming := vs, scopes := ⟨stack, vars', true⟩ :: rest },
      hs.step_ok hb hi ?_, vars', shows, rfl, { hs.counted with scopes := rfl }⟩
    simp [execute, Exec.run_takeIncoming, ha, Exec.run_assign, hs.counted.scopes, eq]
  · intro f hf
    have eq := hv.assign_error hf stack rest
    refine hs.step_error hb hi (t := { Machine.counted s with incoming := vs }) ?_ hs.console
    simp [execute, Exec.run_takeIncoming, ha, Exec.run_assign, hs.counted.scopes, eq]

theorem handBack {frame : Frame} {scope below : Scope} {v : Value}
    (hs : s.Stands pc (frame :: calls) (scope :: below :: rest) waiting c) (hb : m.budget = none)
    (hi : m.program.code[pc]? = some ⟨.handBack, label, pos⟩) (hr : s.result = some v) :
    m.Sim n s
      (fun _ c t => t.Stands (pc + 1) (frame :: calls) (scope :: below.push v :: rest) waiting c)
      (Eval.ofExcept pos (frame.returns.elim (.ok ()) v.check) c) := by
  have hr : (Machine.counted s).result = some v := hr
  apply Machine.Sim.ofExcept hs.running
  · intro _ hv
    refine ⟨{ Machine.counted s with result := none, scopes := scope :: below.push v :: rest },
      hs.step_ok hb hi ?_, { hs.counted with scopes := rfl }⟩
    cases ht : frame.returns with
    | none => simp [execute, Exec.run_takeResult, hr, hs.counted.calls, ht, Exec.run_onScopes,
        hs.counted.scopes, Scopes.pushBelow]
    | some ty =>
      simp only [ht, Option.elim_some] at hv
      simp [execute, Exec.run_takeResult, hr, hs.counted.calls, ht, hv, Exec.run_onScopes,
        hs.counted.scopes, Scopes.pushBelow]
  · intro f hf
    refine hs.step_error hb hi (t := { Machine.counted s with result := none }) ?_ hs.console
    cases ht : frame.returns with
    | none => simp [ht] at hf
    | some ty =>
      simp only [ht, Option.elim_some] at hf
      simp [execute, Exec.run_takeResult, hr, hs.counted.calls, ht, hf]

theorem ret {frame : Frame} {scope : Scope}
    (hs : s.Stands pc (frame :: calls) (scope :: rest) waiting c) (hb : m.budget = none)
    (hi : m.program.code[pc]? = some ⟨.ret, label, pos⟩) :
    ∃ t, m.step s = .ok () t ∧ t.Stands frame.returnTo calls rest waiting c := by
  refine ⟨{ Machine.counted s with calls := calls, scopes := rest, pc := frame.returnTo },
    hs.step_ok hb hi ?_, { hs.counted with calls := rfl, scopes := rfl, pc := rfl }⟩
  simp [execute, Exec.run_closeScope, hs.counted.scopes, hs.counted.calls]

theorem callFunction {name : String} {args : List Value} {returns : Option Ty} {target : Nat}
    (hs : s.Stands pc calls scopes (args.reverse ++ waiting) c) (hb : m.budget = none)
    (hi : m.program.code[pc]? = some ⟨.call name args.length returns, label, pos⟩)
    (ht : m.program.resolve (Label.function name) = some target) :
    ∃ t, m.step s = .ok () t ∧ t.incoming = args ∧
      t.Stands target (⟨pc + 1, returns⟩ :: calls) (⟨[], [], true⟩ :: scopes) waiting c := by
  refine ⟨{ Machine.counted s with
      incoming := args, waiting := waiting, calls := ⟨pc + 1, returns⟩ :: calls,
      pc := target, scopes := ⟨[], [], true⟩ :: scopes },
    hs.step_ok hb hi ?_, rfl,
    { hs.counted with waiting := rfl, calls := rfl, pc := rfl, scopes := rfl }⟩
  simp [execute, hostFunction?, ht, Machine.callFunction,
    Exec.run_takeArguments_append _ name hs.counted.waiting, hs.counted.pc, hs.counted.calls,
    hs.counted.scopes, Scopes.opened, Scope.new]

/-- A function of the host answers in one step, from what the console holds. -/
theorem callHost {name : String} {args : List Value} {returns : Option Ty}
    (hs : s.Stands pc calls (⟨stack, vars, final⟩ :: rest) (args.reverse ++ waiting) c)
    (hb : m.budget = none)
    (hi : m.program.code[pc]? = some ⟨.call name args.length returns, label, pos⟩)
    (ht : m.program.resolve (Label.function name) = none) (hh : m.host.Blind)
    (hn : m.host.contains name = true) :
    m.Sim n s
      (fun v c t => t.Stands (pc + 1) calls (⟨v.toList ++ stack, vars, final⟩ :: rest) waiting c)
      (askHost m.host pos name args c) := by
  obtain ⟨f, hf⟩ := Option.isSome_iff_exists.1 hn
  obtain ⟨answer, rfl⟩ := hh name f hf
  have taken := Exec.run_takeArguments_append _ name hs.counted.waiting
  have replies : m.execute m.inner (.call name args.length returns) (Machine.counted s) =
      m.reply name (fun _ => answer args) { Machine.counted s with waiting } := by
    simp [execute, hostFunction?, ht, hf, taken, Machine.callHost]
  rw [askHost, hf]
  dsimp only
  cases ha : answer args c with
  | error e console =>
    rw [← hs.counted.console] at ha
    exact .fault hs.running (hs.step_error hb hi (replies.trans (reply_of_error ha)) rfl)
  | ok v console =>
    rw [← hs.counted.console] at ha
    have hx := replies.trans (reply_of_ok ha)
    cases v with
    | none =>
      exact .silent hs.running ⟨_, hs.step_ok hb hi hx,
        { hs.counted with waiting := rfl, console := rfl }⟩ fun t ht => .pure ht
    | some v =>
      have hp := Exec.run_push_cons { Machine.counted s with waiting, console } v hs.counted.scopes
      exact .silent hs.running ⟨_, hs.step_ok hb hi (hx.trans hp),
        { hs.counted with waiting := rfl, console := rfl, scopes := rfl }⟩ fun t ht => .pure ht

end State.Stands

end StackScript
