import StackScript.Machine

/-!
# Steps of the machine

* `Exec.run_bind` and its neighbours: what the moves of an instruction do to a state;
* `Machine.step_eq_execute`: a step within the budget is the execution of an instruction;
* `Machine.Path`: steps of a machine that keeps running;
* `Machine.outcome?`: how a run ends, which further steps do not change.
-/

namespace StackScript

/-- The state behind a move, whether it has failed or not. -/
def stateOf {ε σ α : Type} : EStateM.Result ε σ α → σ
  | .ok _ s => s
  | .error _ s => s

/-! ## Moves -/

namespace Exec

variable {α β : Type} (s : State)

@[simp] theorem run_pure (a : α) : (pure a : Exec α) s = .ok a s := rfl

@[simp] theorem run_bind (x : Exec α) (f : α → Exec β) :
    (x >>= f) s = match x s with
      | .ok a t => f a t
      | .error e t => .error e t := by
  simp only [bind, EStateM.bind]
  cases x s <;> rfl

@[simp] theorem run_map (f : α → β) (x : Exec α) :
    (f <$> x) s = match x s with
      | .ok a t => .ok (f a) t
      | .error e t => .error e t := by
  simp only [Functor.map, EStateM.map]
  cases x s <;> rfl

@[simp] theorem run_discard (x : Exec α) :
    (discard x) s = match x s with
      | .ok _ t => .ok () t
      | .error e t => .error e t :=
  run_map s _ x

@[simp] theorem run_get : (get : Exec State) s = .ok s s := rfl

@[simp] theorem run_modify (f : State → State) : (modify f : Exec Unit) s = .ok () (f s) := rfl

@[simp] theorem run_throw (e : Fault) : (throw e : Exec α) s = .error e s := rfl

@[simp] theorem run_ofExcept_ok (a : α) : ofExcept (.ok a) s = .ok a s := rfl

@[simp] theorem run_ofExcept_error (e : Fault) :
    (ofExcept (.error e) : Exec α) s = .error e s := rfl

theorem run_onScopes (f : Scopes → Except Fault Scopes) :
    onScopes f s = match f s.scopes with
      | .ok scopes => .ok () { s with scopes }
      | .error e => .error e s := by
  simp only [onScopes, run_bind, run_get, run_modify]
  cases f s.scopes <;> rfl

theorem run_assign (name : String) (v : Value) (ty : Option Ty) :
    assign name v ty s = match s.scopes.assign name v ty with
      | .ok scopes => .ok () { s with scopes }
      | .error e => .error e s := by
  rw [assign_eq, run_onScopes]

theorem run_push_cons (v : Value) {scope : Scope} {rest : Scopes} (h : s.scopes = scope :: rest) :
    push v s = .ok () { s with scopes := scope.push v :: rest } := by
  rw [push, run_onScopes, h]
  rfl

theorem run_lookup (name : String) :
    lookup name s = match s.scopes.lookup name with
      | .ok v => .ok v s
      | .error e => .error e s := by
  simp only [lookup, run_bind, run_get]
  cases s.scopes.lookup name <;> rfl

theorem run_takeResult :
    takeResult s = match s.result with
      | some v => .ok v { s with result := none }
      | none => .error .emptyStack s := by
  simp only [takeResult, run_bind, run_get]
  cases s.result <;> rfl

theorem run_takeIncoming (name : String) :
    takeIncoming name s = match s.incoming with
      | v :: incoming => .ok v { s with incoming }
      | [] => .error (.missingArgument name) s := by
  simp only [takeIncoming, run_bind, run_get]
  cases s.incoming <;> rfl

theorem run_takeArguments (name : String) (argc : Nat) :
    takeArguments name argc s =
      if s.waiting.length < argc then .error (.missingArgument name) s
      else .ok (s.waiting.take argc).reverse { s with waiting := s.waiting.drop argc } := by
  simp only [takeArguments, run_bind, run_get]
  split <;> rfl

theorem run_takeArguments_append (name : String) {args waiting : List Value}
    (h : s.waiting = args.reverse ++ waiting) :
    takeArguments name args.length s = .ok args { s with waiting } := by
  rw [run_takeArguments, h, if_neg (by simp)]
  simp

theorem run_closeScope :
    closeScope s = match s.scopes with
      | scope :: rest => .ok scope { s with scopes := rest }
      | [] => .error .noActiveScope s := by
  simp only [closeScope, run_bind, run_get, Scopes.close]
  cases s.scopes <;> rfl

theorem run_pop :
    pop s = match s.scopes with
      | ⟨v :: stack, vars, final⟩ :: rest =>
        .ok v { s with scopes := ⟨stack, vars, final⟩ :: rest }
      | ⟨[], _, _⟩ :: _ => .error .emptyStack s
      | [] => .error .noActiveScope s := by
  simp only [pop, run_bind, run_get, Scopes.pop]
  rcases s.scopes with _ | ⟨⟨_ | ⟨v, stack⟩, vars, final⟩, rest⟩ <;> rfl

end Exec

/-! ## Functions of the host -/

namespace Host

/-- What holds of each function that a host lists holds of those that are found in it. -/
theorem forall_get? {P : HostFunction → Prop} {h : Host} (listed : ∀ entry ∈ h, P entry.2)
    (name : String) (f : HostFunction) (hf : h.get? name = some f) : P f := by
  obtain ⟨before, behind, rfl, _⟩ := List.lookup_eq_some_iff.1 hf
  apply listed (name, f)
  simp only [List.mem_append, List.mem_cons, true_or, or_true]

theorem forall_standard {P : HostFunction → Prop} (out : P (.direct Host.out))
    (readLine : P (.direct Host.readLine)) (readInt : P (.direct Host.readInt)) :
    ∀ name f, Host.standard.get? name = some f → P f := by
  apply forall_get?
  intro entry listed
  simp only [Host.standard, List.mem_cons, List.not_mem_nil, or_false] at listed
  obtain rfl | rfl | rfl := listed
  · exact out
  · exact readLine
  · exact readInt

end Host

namespace Machine

variable {m : Machine} {s t u : State}

theorem run_jump (m : Machine) (label : String) (s : State) :
    m.jump label s = match m.program.resolve label with
      | some pc => .ok () { s with pc }
      | none => .error (.unresolvedLabel label) s := by
  rw [jump]
  cases m.program.resolve label <;> rfl

/-! ## Calls of the host -/

theorem reply_of_ok {name : String} {answer : Reply} {v : Option Value} {console : Console}
    (h : answer (m.view s) s.console = .ok v console) :
    m.reply name answer s = answered name (.ok v) { s with console } := by
  rw [reply, h]

theorem reply_of_error {name : String} {answer : Reply} {e : HostError} {console : Console}
    (h : answer (m.view s) s.console = .error e console) :
    m.reply name answer s = answered name (.error e) { s with console } := by
  rw [reply, h]

/-- What a host function is answered with reaches the machine as a value or a fault. -/
theorem reply_eq (m : Machine) (name : String) (answer : Reply) (s : State) :
    ∃ r console, m.reply name answer s = answered name r { s with console } := by
  cases h : answer (m.view s) s.console with
  | ok v console => exact ⟨_, _, reply_of_ok h⟩
  | error e console => exact ⟨_, _, reply_of_error h⟩

section

variable {inner : State → StepResult} {name : String}
  {P : State → EStateM.Result Fault State Unit → Prop}

/-- All that a visit does: it uses the console, takes steps, and answers. -/
theorem visit_induction (answers : ∀ s r console, P s (answered name r { s with console }))
    (uses : ∀ s x console, P { s with console } x → P s x)
    (steps : ∀ s x, P (stateOf (inner s)) x → P s x) (v : Visit) (s : State) :
    P s (m.visit inner name v s) := by
  have replies (answer : Reply) (s : State) : P s (m.reply name answer s) := by
    obtain ⟨r, console, eq⟩ := m.reply_eq name answer s
    exact eq ▸ answers s r console
  induction v generalizing s with
  | answer answer => exact replies answer s
  | use change next ih => exact uses s _ _ (ih _ _ _)
  | step next ended ih =>
    refine steps s _ ?_
    simp only [visit]
    cases inner s with
    | ok _ t =>
      simp only [stateOf]
      split
      · exact ih t
      · exact replies _ t
    | error e t => exact replies _ t

theorem callHost_induction (answers : ∀ s r console, P s (answered name r { s with console }))
    (uses : ∀ s x console, P { s with console } x → P s x)
    (steps : ∀ s x, P (stateOf (inner s)) x → P s x) (f : HostFunction) (args : List Value)
    (s : State) : P s (m.callHost inner name f args s) := by
  cases f with
  | direct answer => exact visit_induction answers uses steps (.answer (answer · args)) s
  | visiting visit => exact visit_induction answers uses steps (visit args) s

end

/-! ## Steps and paths -/

/-- The state in which an instruction is executed: it is counted and the program counter is past
it. -/
def counted (s : State) : State := { s with steps := s.steps + 1, pc := s.pc + 1 }

/-- What a host function steps by that is called in a step. -/
def inner (m : Machine) : State → StepResult := m.stepWithin (nesting - 1)

theorem step_eq_execute {i : Instr} (hi : m.program.code[s.pc]? = some i)
    (hb : m.exhausted? s.steps = none) :
    m.step s = match m.execute m.inner i.op (counted s) with
      | .ok _ t => .ok () t
      | .error fault t => .error ⟨i.pos, fault⟩ { t with running := false } := by
  rw [step_eq_dispatch hi, dispatch, hb]
  rfl

theorem exhausted?_none (hb : m.budget = none) (steps : Nat) : m.exhausted? steps = none := by
  rw [exhausted?, hb]
  rfl

/-- This many steps, each of a running machine. -/
inductive Path (m : Machine) : Nat → State → State → Prop
  | refl (s : State) : Path m 0 s s
  | step {n : Nat} {s t u : State} :
    s.running = true → m.step s = .ok () t → Path m n t u → Path m (n + 1) s u

theorem Path.trans {k n : Nat} (h : m.Path k s t) (h' : m.Path n t u) : m.Path (k + n) s u := by
  induction h with
  | refl => simpa using h'
  | @step k _ _ _ hr hs _ ih =>
    rw [Nat.add_right_comm]
    exact .step hr hs (ih h')

/-- A run goes along a path as far as it can. -/
theorem Path.runFor_add {k : Nat} (h : m.Path k s t) (n : Nat) :
    m.runFor (k + n) s = m.runFor n t := by
  induction h with
  | refl => simp
  | @step k _ _ _ hr hs _ ih =>
    rw [Nat.add_right_comm, runFor, if_pos hr, hs]
    exact ih

/-- Short of its end, a path is a run of a machine that is still running. -/
theorem Path.runFor_running {k n : Nat} (h : m.Path k s t) (hn : n < k) :
    ∃ u, m.runFor n s = .ok () u ∧ u.running = true := by
  induction h generalizing n with
  | refl => omega
  | @step k s _ _ hr hs _ ih =>
    cases n with
    | zero => exact ⟨s, rfl, hr⟩
    | succ n =>
      rw [runFor, if_pos hr, hs]
      exact ih (by omega)

deriving instance DecidableEq for EStateM.Result

/-- How a run from the start ends and what it leaves of the console, if this many steps end it. -/
def outcome? (m : Machine) (steps : Nat) (console : Console) :
    Option (EStateM.Result ExecutionError Console Unit) :=
  match m.run steps (m.start console) with
  | .ok _ s => if s.running then none else some (.ok () s.console)
  | .error (.execution e) s => some (.error e s.console)
  | .error .alreadyEnded _ => none

theorem outcome?_eq (m : Machine) (steps : Nat) (console : Console) :
    m.outcome? steps console = match m.runFor steps (m.start console) with
      | .ok _ s => if s.running then none else some (.ok () s.console)
      | .error e s => some (.error e s.console) := by
  rw [outcome?, run, if_pos (by rfl)]
  cases m.runFor steps (m.start console) <;> rfl

theorem runFor_of_not_running (hr : s.running = false) (n : Nat) : m.runFor n s = .ok () s := by
  cases n with
  | zero => rfl
  | succ n => rw [runFor, if_neg (by simp [hr])]

/-- An ended run has ended for good. -/
theorem runFor_mono {k n : Nat} (h : k ≤ n)
    (ended : ∀ t, m.runFor k s = .ok () t → t.running = false) :
    m.runFor n s = m.runFor k s := by
  induction k generalizing s n with
  | zero => exact runFor_of_not_running (ended s rfl) n
  | succ k ih =>
    obtain ⟨n, rfl⟩ := Nat.exists_eq_add_of_le' h
    by_cases hr : s.running = true
    · rw [← Nat.add_assoc, runFor, if_pos hr, runFor, if_pos hr]
      rw [runFor, if_pos hr] at ended
      cases hs : m.step s with
      | ok _ t => exact ih (by omega) (by simpa only [hs] using ended)
      | error e t => rfl
    · rw [runFor_of_not_running (by simpa using hr), runFor_of_not_running (by simpa using hr)]

theorem outcome?_mono {k n : Nat} {console : Console}
    {o : EStateM.Result ExecutionError Console Unit} (h : k ≤ n)
    (ho : m.outcome? k console = some o) : m.outcome? n console = some o := by
  rw [outcome?_eq] at ho ⊢
  rw [runFor_mono h, ho]
  intro t ht
  rw [ht] at ho
  cases hr : t.running
  · rfl
  · simp [hr] at ho

theorem outcome?_unique {k n : Nat} {console : Console}
    {o o' : EStateM.Result ExecutionError Console Unit} (h : m.outcome? k console = some o)
    (h' : m.outcome? n console = some o') : o = o' := by
  have h := outcome?_mono (Nat.le_max_left k n) h
  have h' := outcome?_mono (Nat.le_max_right k n) h'
  exact Option.some.inj (h.symm.trans h')

end Machine

end StackScript
