import StackScript.Proofs.Control
import StackScript.Proofs.Convention

/-!
# Through a piece of code

What is known of a run in the middle, where it may still fault, go on for ever or run out of budget.

* `Exec.bind_eq_ok` and its neighbours: what is known of a move that did not fail;
* `Machine.Along`: steps from states of one kind;
* `Machine.Passes`: steps lead through states of one kind to those of another, if they lead so far;
* `State.At`: a running machine and what the call on top sees of it;
* `call_passes`: through a call, and behind it at most one more value is on the caller's stack.
-/

namespace StackScript

/-! ## Moves that did not fail -/

namespace Exec

variable {α β : Type} {s t : State} {v : Value}

theorem bind_eq_ok {x : Exec α} {f : α → Exec β} {b : β} :
    (x >>= f) s = .ok b t ↔ ∃ a u, x s = .ok a u ∧ f a u = .ok b t := by
  rw [run_bind]
  cases x s with
  | ok a u =>
    constructor
    · exact fun run => ⟨a, u, rfl, run⟩
    · rintro ⟨_, _, ⟨⟩, run⟩
      exact run
  | error e u => simp

theorem ofExcept_eq_ok {x : Except Fault α} {a : α} :
    ofExcept x s = .ok a t ↔ x = .ok a ∧ s = t := by
  cases x <;> simp

theorem takeResult_eq_ok :
    takeResult s = .ok v t ↔ s.result = some v ∧ { s with result := none } = t := by
  rw [run_takeResult]
  cases s.result <;> simp

theorem lookup_eq_ok {name : String} :
    lookup name s = .ok v t ↔ s.scopes.lookup name = .ok v ∧ s = t := by
  rw [run_lookup]
  cases s.scopes.lookup name <;> simp

theorem onScopes_eq_ok {f : Scopes → Except Fault Scopes} :
    onScopes f s = .ok () t ↔ ∃ scopes, f s.scopes = .ok scopes ∧ { s with scopes } = t := by
  rw [run_onScopes]
  cases f s.scopes <;> simp

theorem assign_eq_ok {name : String} {v : Value} {ty : Option Ty} :
    assign name v ty s = .ok () t ↔
      ∃ scopes, s.scopes.assign name v ty = .ok scopes ∧ { s with scopes } = t := by
  rw [assign_eq]
  exact onScopes_eq_ok

section

variable {stack : List Value} {vars : List (String × Binding)} {final : Bool} {rest : Scopes}

theorem push_eq_ok (hs : s.scopes = ⟨stack, vars, final⟩ :: rest) :
    push v s = .ok () t ↔ { s with scopes := ⟨v :: stack, vars, final⟩ :: rest } = t := by
  rw [run_push_cons s v hs]
  simp [Scope.push]

theorem pop_eq_ok (hs : s.scopes = ⟨stack, vars, final⟩ :: rest) :
    pop s = .ok v t ↔ ∃ below, stack = v :: below ∧
      { s with scopes := ⟨below, vars, final⟩ :: rest } = t := by
  rw [run_pop, hs]
  cases stack <;> simp [and_assoc]

end

end Exec

/-! ## Steps and where they lead -/

namespace Machine

variable {m : Machine} {P Mid Q R : State → Prop} {s t u : State}

/-- Steps from `s` to `t`, each from a state in which `P` holds. -/
inductive Along (m : Machine) (P : State → Prop) : State → State → Prop
  | refl (s : State) : Along m P s s
  | step {s t u : State} : P s → m.step s = .ok () t → Along m P t u → Along m P s u

theorem Along.trans (h : m.Along P s t) (h' : m.Along P t u) : m.Along P s u := by
  induction h with
  | refl => exact h'
  | step here step _ ih => exact .step here step (ih h')

theorem Along.imp (h : m.Along P s t) (hPQ : ∀ x, P x → Q x) : m.Along Q s t := by
  induction h with
  | refl => exact .refl _
  | step here step _ ih => exact .step (hPQ _ here) step ih

/-- Steps go one way, so where they first leave `P` is one state. -/
theorem Along.unique (ht : m.Along P s t) (hu : m.Along P s u) (noT : ¬P t) (noU : ¬P u) :
    t = u := by
  induction ht with
  | refl =>
    cases hu with
    | refl => rfl
    | step here => exact absurd here noT
  | step here step _ ih =>
    cases hu with
    | refl => exact absurd here noU
    | step _ step' later =>
      rw [step] at step'
      cases step'
      exact ih later noT

/-- Whatever steps there are from `s`, they come to a state with `Q` and have `Mid` on the way, or
they have `Mid` all the time. -/
def Passes (m : Machine) (Mid Q : State → Prop) (s : State) : Prop :=
  ∀ P t, m.Along P s t → Mid t ∨ ∃ x, Q x ∧ m.Along (fun y => P y ∧ Mid y) s x ∧ m.Along P x t

namespace Passes

theorem here (h : Q s) : m.Passes Mid Q s := fun _ _ along => .inr ⟨s, h, .refl s, along⟩

theorem step (mid : Mid s) (next : ∀ t, m.step s = .ok () t → m.Passes Mid Q t) :
    m.Passes Mid Q s := by
  intro P t along
  cases along with
  | refl => exact .inl mid
  | step here step along =>
    obtain mid' | ⟨x, hx, front, behind⟩ := next _ step P t along
    · exact .inl mid'
    · exact .inr ⟨x, hx, .step ⟨here, mid⟩ step front, behind⟩

theorem imp {Mid' Q' : State → Prop} (h : m.Passes Mid Q s) (mid : ∀ x, Mid x → Mid' x)
    (hQ : ∀ x, Q x → Q' x) : m.Passes Mid' Q' s := by
  intro P t along
  obtain mid' | ⟨x, hx, front, behind⟩ := h P t along
  · exact .inl (mid t mid')
  · exact .inr ⟨x, hQ x hx, front.imp fun _ on => ⟨on.1, mid _ on.2⟩, behind⟩

theorem trans (h : m.Passes Mid Q s) (h' : ∀ x, Q x → m.Passes Mid R x) : m.Passes Mid R s := by
  intro P t along
  obtain mid | ⟨x, hx, front, behind⟩ := h P t along
  · exact .inl mid
  · obtain mid | ⟨y, hy, front', behind'⟩ := h' x hx P t behind
    · exact .inl mid
    · exact .inr ⟨y, hy, front.trans front', behind'⟩

end Passes

end Machine

/-! ## The state around an instruction -/

/-- A running machine at `pc` with these calls, scopes and waiting arguments. -/
structure State.At (s : State) (pc : Nat) (calls : List Frame) (scopes : Scopes)
    (waiting : List Value) : Prop where
  running : s.running = true
  pc : s.pc = pc
  calls : s.calls = calls
  scopes : s.scopes = scopes
  waiting : s.waiting = waiting

/-- In this piece of the code on top of these calls, or in a call that is made from there. -/
def State.In (s : State) (calls : List Frame) (lo hi : Nat) : Prop :=
  calls.length < s.calls.length ∨ s.calls = calls ∧ lo ≤ s.pc ∧ s.pc < hi

/-- In this piece of the code, and a scope is only closed where there is more than one above so
many. -/
structure Machine.Busy (m : Machine) (calls : List Frame) (depth lo hi : Nat) (s : State) :
    Prop where
  place : s.In calls lo hi
  closing : ∀ label pos, m.program.code[s.pc]? = some ⟨.closeScope, label, pos⟩ →
    depth + 1 < s.scopes.length

/-- How many values an instruction takes off the stack for the one that it puts there. -/
def Op.takes? : Op → Option Nat
  | .push _ | .load _ | .emptyArray | .loadItem _ => some 0
  | .append => some 1
  | .apply _ => some 2
  | _ => none

section

variable {m : Machine} {s t : State} {pc depth lo hi : Nat} {calls : List Frame}
  {scopes rest : Scopes} {waiting stack : List Value} {vars : List (String × Binding)}
  {final : Bool} {op : Op} {label : Option String} {pos : Position}

theorem State.At.at {pc' : Nat} (h : s.At pc calls scopes waiting) (eq : pc = pc') :
    s.At pc' calls scopes waiting :=
  eq ▸ h

theorem State.At.counted (h : s.At pc calls scopes waiting) :
    (Machine.counted s).At (pc + 1) calls scopes waiting :=
  ⟨h.running, congrArg (· + 1) h.pc, h.calls, h.scopes, h.waiting⟩

theorem State.At.busy (h : s.At pc calls scopes waiting) (low : lo ≤ pc) (high : pc < hi)
    (instr : m.program.code[pc]? = some ⟨op, label, pos⟩)
    (closing : op = .closeScope → depth + 1 < scopes.length) : m.Busy calls depth lo hi s := by
  constructor
  · exact .inr ⟨h.calls, h.pc ▸ low, h.pc ▸ high⟩
  · intro _ _ close
    rw [h.pc, instr] at close
    cases close
    exact h.scopes ▸ closing rfl

/-- One value is put on what is left of the stack. -/
theorem Machine.execute_takes {k : Nat} {inner : State → StepResult} (h : op.takes? = some k)
    (hs : s.scopes = ⟨stack, vars, final⟩ :: rest) (run : m.execute inner op s = .ok () t) :
    k ≤ stack.length ∧ ∃ v result,
      t = { s with scopes := ⟨v :: stack.drop k, vars, final⟩ :: rest, result } := by
  cases op with
  | push value =>
    cases h
    obtain rfl := (Exec.push_eq_ok hs).1 run
    exact ⟨Nat.zero_le _, _, _, rfl⟩
  | emptyArray =>
    cases h
    obtain rfl := (Exec.push_eq_ok hs).1 run
    exact ⟨Nat.zero_le _, _, _, rfl⟩
  | load name =>
    cases h
    obtain ⟨v, _, look, run⟩ := Exec.bind_eq_ok.1 run
    obtain ⟨-, rfl⟩ := Exec.lookup_eq_ok.1 look
    obtain rfl := (Exec.push_eq_ok hs).1 run
    exact ⟨Nat.zero_le _, _, _, rfl⟩
  | loadItem name =>
    cases h
    obtain ⟨index, _, taken, run⟩ := Exec.bind_eq_ok.1 run
    obtain ⟨-, rfl⟩ := Exec.takeResult_eq_ok.1 taken
    obtain ⟨v, _, look, run⟩ := Exec.bind_eq_ok.1 run
    obtain ⟨-, rfl⟩ := Exec.lookup_eq_ok.1 look
    cases v with
    | array items =>
      obtain ⟨i, _, element, run⟩ := Exec.bind_eq_ok.1 run
      obtain ⟨-, rfl⟩ := Exec.ofExcept_eq_ok.1 element
      obtain rfl := (Exec.push_eq_ok (s := { s with result := none }) hs).1 run
      exact ⟨Nat.zero_le _, _, _, rfl⟩
    | _ => cases run
  | append =>
    cases h
    obtain ⟨item, _, taken, run⟩ := Exec.bind_eq_ok.1 run
    obtain ⟨-, rfl⟩ := Exec.takeResult_eq_ok.1 taken
    obtain ⟨v, _, popped, run⟩ := Exec.bind_eq_ok.1 run
    obtain ⟨below, rfl, rfl⟩ := (Exec.pop_eq_ok (s := { s with result := none }) hs).1 popped
    cases v with
    | array items =>
      obtain rfl := (Exec.push_eq_ok rfl).1 run
      exact ⟨by simp, _, _, rfl⟩
    | _ => cases run
  | apply op =>
    cases h
    obtain ⟨r, _, popped, run⟩ := Exec.bind_eq_ok.1 run
    obtain ⟨below, rfl, rfl⟩ := (Exec.pop_eq_ok hs).1 popped
    obtain ⟨l, _, popped, run⟩ := Exec.bind_eq_ok.1 run
    obtain ⟨below, rfl, rfl⟩ := (Exec.pop_eq_ok rfl).1 popped
    obtain ⟨v, _, applied, run⟩ := Exec.bind_eq_ok.1 run
    obtain ⟨-, rfl⟩ := Exec.ofExcept_eq_ok.1 applied
    obtain rfl := (Exec.push_eq_ok rfl).1 run
    exact ⟨by simp, _, _, rfl⟩
  | _ => cases h

namespace State.At

/-- A step executes the instruction that the machine is at. -/
theorem executes (hs : s.At pc calls scopes waiting)
    (instr : m.program.code[pc]? = some ⟨op, label, pos⟩) (step : m.step s = .ok () t) :
    m.execute m.inner op (Machine.counted s) = .ok () t :=
  Machine.execute_of_step (hs.pc ▸ instr) step

theorem takes {k : Nat} (hs : s.At pc calls (⟨stack, vars, final⟩ :: rest) waiting)
    (instr : m.program.code[pc]? = some ⟨op, label, pos⟩) (h : op.takes? = some k)
    (step : m.step s = .ok () t) : k ≤ stack.length ∧
      ∃ v, t.At (pc + 1) calls (⟨v :: stack.drop k, vars, final⟩ :: rest) waiting := by
  have counted := hs.counted
  obtain ⟨enough, v, result, rfl⟩ :=
    Machine.execute_takes h counted.scopes (hs.executes instr step)
  exact ⟨enough, v, { counted with scopes := rfl }⟩

theorem openScope (hs : s.At pc calls scopes waiting)
    (instr : m.program.code[pc]? = some ⟨.openScope, label, pos⟩) (step : m.step s = .ok () t) :
    t.At (pc + 1) calls (.new false :: scopes) waiting := by
  have run := hs.executes instr step
  cases run
  exact { hs.counted with scopes := congrArg (_ :: ·) hs.scopes }

theorem closeScope {scope : Scope} (hs : s.At pc calls (scope :: scopes) waiting)
    (instr : m.program.code[pc]? = some ⟨.closeScope, label, pos⟩) (step : m.step s = .ok () t) :
    t.At (pc + 1) calls scopes waiting := by
  have run := hs.executes instr step
  simp only [Machine.execute, Exec.run_bind, Exec.run_closeScope, hs.counted.scopes] at run
  cases run
  exact { hs.counted with scopes := rfl }

theorem passArg (hs : s.At pc calls scopes waiting)
    (instr : m.program.code[pc]? = some ⟨.passArg, label, pos⟩) (step : m.step s = .ok () t) :
    ∃ v, t.At (pc + 1) calls scopes (v :: waiting) := by
  obtain ⟨v, _, taken, run⟩ := Exec.bind_eq_ok.1 (hs.executes instr step)
  obtain ⟨-, rfl⟩ := Exec.takeResult_eq_ok.1 taken
  cases run
  exact ⟨v, { hs.counted with waiting := congrArg (v :: ·) hs.waiting }⟩

end State.At

end

/-! ## Calls -/

section

variable {functions : List Function} {m : Machine} {b : Base} {s t : State} {pc depth lo hi : Nat}
  {calls : List Frame} {rest : Scopes} {waiting stack : List Value}
  {vars : List (String × Binding)} {final : Bool}

/-- From inside a call there is only one way out. -/
theorem Inside.passes (hp : Compiled functions m.host.contains m.program) (hh : m.host.Direct)
    (hb : b.scopes ≠ []) (hs : Inside m.program (signatures functions) b s) :
    m.Passes (Inside m.program (signatures functions) b) (Returned b) s := by
  intro P t along
  induction along with
  | refl => exact .inl hs
  | step here step behind ih =>
    have next := hs.step hp hh hb
    rw [step] at next
    obtain inside | returned := next
    · obtain mid | ⟨x, hx, front, behind⟩ := ih inside
      · exact .inl mid
      · exact .inr ⟨x, hx, .step ⟨here, hs⟩ step front, behind⟩
    · exact .inr ⟨_, returned, .step ⟨here, hs⟩ step (.refl _), behind⟩

/-- A call has its own scopes on top of those of its caller. -/
theorem Inside.busy (hs : Inside m.program (signatures functions) b s)
    (deep : depth < b.scopes.length) : m.Busy b.calls depth lo hi s := by
  obtain ⟨f, pc, sh, calls, below, kept, holds, within, chain⟩ := hs
  obtain ⟨own, eq, finals⟩ := holds.scopes
  obtain ⟨inner, callee, lower, split, -, receives⟩ := chain.callee finals
  have length : lower.length = b.scopes.length := by
    simpa using congrArg List.length receives.vars
  constructor
  · exact .inl (holds.calls ▸ chain.length_lt)
  · intro _ _ _
    rw [eq, split, List.length_append, List.length_cons]
    omega

/-- Behind a function of the program, the caller finds at most one more value. -/
theorem Returned.at {argc : Nat} {returns : Option Ty} (hs : s.At pc calls
      (⟨stack, vars, final⟩ :: rest) waiting) (h : Returned (s.base argc returns) t) :
    ∃ v : Option Value, t.At (pc + 1) calls (⟨v.toList ++ stack, vars, final⟩ :: rest)
      (waiting.drop argc) := by
  obtain ⟨handed, below⟩ := h.scopes
  have back (scopes : Scopes) (eq : t.scopes = scopes) :
      t.At (pc + 1) calls scopes (waiting.drop argc) :=
    ⟨h.running, h.pc.trans (congrArg (· + 1) hs.pc), h.calls.trans hs.calls, eq,
      h.waiting.trans (congrArg (List.drop argc) hs.waiting)⟩
  obtain same | ⟨v, -, pushed⟩ := below.receives
  · exact ⟨none, back _ (same.trans hs.scopes)⟩
  · have eq : (s.base argc returns).scopes = ⟨stack, vars, final⟩ :: rest := hs.scopes
    rw [eq] at pushed
    exact ⟨some v, back _ (Except.ok.inj pushed).symm⟩

/-- A function of the host puts at most one value on the stack of its caller. -/
theorem State.At.callHost {inner : State → StepResult} {name : String} {argc : Nat}
    {returns : Option Ty} {answer : Answer}
    (hs : s.At pc calls (⟨stack, vars, final⟩ :: rest) waiting)
    (direct : m.hostFunction? name = some (.direct answer))
    (run : m.execute inner (.call name argc returns) s = .ok () t) :
    ∃ v : Option Value, t.At pc calls (⟨v.toList ++ stack, vars, final⟩ :: rest)
      (waiting.drop argc) := by
  simp only [Machine.execute, direct, Exec.bind_eq_ok, Exec.run_takeArguments] at run
  obtain ⟨args, u, taken, run⟩ := run
  split at taken <;> cases taken
  have hu : { s with waiting := s.waiting.drop argc }.At pc calls (⟨stack, vars, final⟩ :: rest)
      (waiting.drop argc) := { hs with waiting := congrArg (List.drop argc) hs.waiting }
  simp only [Machine.callHost] at run
  obtain ⟨r, console, answered⟩ := m.reply_eq name (answer · (s.waiting.take argc).reverse)
    { s with waiting := s.waiting.drop argc }
  rw [answered] at run
  rcases r with e | _ | v
  · cases run
  · cases run
    exact ⟨none, { hu with }⟩
  · have pushed := Exec.push_eq_ok (v := v) (t := t)
      (s := { s with waiting := s.waiting.drop argc, console }) hu.scopes
    obtain rfl := pushed.1 run
    exact ⟨some v, { hu with scopes := rfl }⟩

/-- Through a call. Behind it its arguments are taken, and at most one value is there for them. -/
theorem call_passes (hp : Compiled functions m.host.contains m.program) (hh : m.host.Direct)
    {name : String} {argc : Nat} {returns : Option Ty} {label : Option String} {site : Position}
    (instr : m.program.code[pc]? = some ⟨.call name argc returns, label, site⟩)
    (hs : s.At pc calls (⟨stack, vars, final⟩ :: rest) waiting) (enough : argc ≤ waiting.length)
    (low : lo ≤ pc) (high : pc < hi) (deep : depth ≤ rest.length) :
    m.Passes (m.Busy calls depth lo hi) (fun x => ∃ v : Option Value,
      x.At (pc + 1) calls (⟨v.toList ++ stack, vars, final⟩ :: rest) (waiting.drop argc)) s := by
  refine .step (hs.busy low high instr fun other => by cases other) fun t step => ?_
  have instr' := hs.pc.symm ▸ instr
  cases hf : functions.find? (·.name = name) with
  | some f =>
    have inside := hp.step_inside instr' hf hs.running (hs.waiting.symm ▸ enough) step
    have some : (s.base argc f.returns).scopes ≠ [] := by simp [State.base, hs.scopes]
    refine (inside.passes hp hh some).imp (fun x hx => ?_) fun x hx => hx.at hs
    have busy : m.Busy (s.base argc f.returns).calls depth lo hi x :=
      hx.busy (by simp [State.base, hs.scopes]; omega)
    exact hs.calls ▸ busy
  | none =>
    have missing : m.program.resolve (Label.function name) = none :=
      hp.resolve_function_eq_none (by simpa using hf)
    obtain ⟨g, hg⟩ := Option.isSome_iff_exists.1 (hp.call_isHost instr' hf)
    obtain ⟨answer, rfl⟩ := hh name g hg
    have direct : m.hostFunction? name = some (.direct answer) := by
      simp only [Machine.hostFunction?, missing, hg]
    exact .here (hs.counted.callHost direct (hs.executes instr step))

end

end StackScript
