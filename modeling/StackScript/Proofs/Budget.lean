import StackScript.Proofs.Control

/-!
# The budget is exact

A machine with a budget does what it does without one, up to the instruction that it cannot afford.

* `Machine.step_of_lt`, `Machine.step_of_le`: a step within the budget, and one beyond it;
* `Machine.Ends`: how a run from the start ends;
* `Exec.Ignores`: moves do not look whether the machine is running;
* `Machine.toldStopped`: functions of the host may look, and are told what they would see;
* `budget_exact`: runs with and without a budget.
-/

namespace StackScript

/-- The same result, of a machine that is stopped. -/
def halted {ε α : Type} : EStateM.Result ε State α → EStateM.Result ε State α
  | .ok a s => .ok a { s with running := false }
  | .error e s => .error e { s with running := false }

/-! ## Moves of a stopped machine -/

namespace Exec

variable {α β : Type}

/-- A move does the same to a machine that is stopped. -/
def Ignores (x : Exec α) : Prop := ∀ s : State, x { s with running := false } = halted (x s)

namespace Ignores

theorem pure (a : α) : (pure a : Exec α).Ignores := fun _ => rfl

theorem throw (f : Fault) : (throw f : Exec α).Ignores := fun _ => rfl

theorem bind {x : Exec α} {f : α → Exec β} (h : x.Ignores) (hf : ∀ a, (f a).Ignores) :
    (x >>= f).Ignores := by
  intro s
  rw [run_bind, run_bind, h s]
  cases x s with
  | ok a t => exact hf a t
  | error e t => rfl

theorem get_bind {f : State → Exec β} (same : ∀ s, f { s with running := false } = f s)
    (h : ∀ s, (f s).Ignores) : (get >>= f).Ignores := by
  intro s
  simp only [run_bind, run_get]
  rw [same]
  exact h s s

theorem ofExcept (x : Except Fault α) : (ofExcept x).Ignores := by
  cases x with
  | ok a => exact .pure a
  | error f => exact .throw f

theorem onScopes (f : Scopes → Except Fault Scopes) : (onScopes f).Ignores := by
  intro s
  rw [run_onScopes, run_onScopes]
  cases f s.scopes <;> rfl

theorem assign (name : String) (v : Value) (ty : Option Ty) : (Exec.assign name v ty).Ignores := by
  rw [assign_eq]
  exact .onScopes _

theorem push (v : Value) : (Exec.push v).Ignores := .onScopes _

theorem pop : Exec.pop.Ignores :=
  .get_bind (fun _ => rfl) fun _ => (ofExcept _).bind fun _ _ => rfl

theorem closeScope : Exec.closeScope.Ignores :=
  .get_bind (fun _ => rfl) fun _ => (ofExcept _).bind fun _ _ => rfl

theorem lookup (name : String) : (Exec.lookup name).Ignores :=
  .get_bind (fun _ => rfl) fun _ => ofExcept _

theorem takeResult : Exec.takeResult.Ignores := by
  refine .get_bind (fun _ => rfl) fun s => ?_
  cases s.result with
  | none => exact .throw _
  | some v => exact fun _ => rfl

theorem takeIncoming (name : String) : (Exec.takeIncoming name).Ignores := by
  refine .get_bind (fun _ => rfl) fun s => ?_
  cases s.incoming with
  | nil => exact .throw _
  | cons v incoming => exact fun _ => rfl

theorem takeArguments (name : String) (argc : Nat) : (Exec.takeArguments name argc).Ignores := by
  intro s
  rw [run_takeArguments, run_takeArguments]
  dsimp only
  split <;> rfl

theorem jump (m : Machine) (label : String) : (m.jump label).Ignores := by
  intro s
  rw [Machine.run_jump, Machine.run_jump]
  cases m.program.resolve label <;> rfl

theorem rangeBounds (name : String) : (Machine.rangeBounds name).Ignores := by
  have int (name : String) : (Machine.rangeBounds.int name).Ignores := by
    refine (Ignores.lookup name).bind fun v => ?_
    cases v with
    | int n => exact .pure n
    | _ => exact .throw _
  exact (int name).bind fun _ => (int _).bind fun _ => .pure _

theorem answered (name : String) (r : Except HostError (Option Value)) :
    (Machine.answered name r).Ignores := by
  rcases r with e | _ | v
  · exact .throw _
  · exact .pure ()
  · exact .push v

end Ignores

end Exec

namespace Machine

variable {m : Machine} {inner : State → StepResult} {op : Op} {s t : State}

/-- The instruction asks no function of the host for which it makes a difference whether the machine
is running. -/
def Overlooks (m : Machine) (op : Op) : Prop :=
  ∀ name argc declared answer, op = .call name argc declared →
    m.hostFunction? name = some (.direct answer) →
    ∀ view args, answer { view with running := false } args = answer view args

theorem call_ignores (hh : m.host.Direct) {name : String} {argc : Nat} {declared : Option Ty}
    (ho : m.Overlooks (.call name argc declared)) :
    (m.execute inner (.call name argc declared)).Ignores := by
  simp only [execute]
  cases hf : m.hostFunction? name with
  | none =>
    simp only [callFunction]
    split
    · exact .throw _
    · exact (Exec.Ignores.takeArguments name argc).bind fun _ _ => rfl
  | some f =>
    obtain ⟨answer, rfl⟩ := hostFunction?_direct hh hf
    refine (Exec.Ignores.takeArguments name argc).bind fun args t => ?_
    have same : answer (m.view { t with running := false }) args = answer (m.view t) args :=
      ho name argc declared answer rfl hf (m.view t) args
    simp only [callHost, reply, same]
    cases answer (m.view t) args t.console with
    | ok v console => exact Exec.Ignores.answered name _ { t with console }
    | error e console => exact Exec.Ignores.answered name _ { t with console }

theorem execute_ignores (hh : m.host.Direct) (ho : m.Overlooks op) :
    (m.execute inner op).Ignores := by
  cases op with
  | call name argc declared => exact call_ignores hh ho
  | marker k => exact .pure ()
  | bindArg ty name => exact (Exec.Ignores.takeIncoming name).bind fun v => .assign _ _ _
  | assign ty name => exact Exec.Ignores.takeResult.bind fun v => .assign _ _ _
  | assignItem name =>
    refine Exec.Ignores.takeResult.bind fun v => Exec.Ignores.pop.bind fun index => ?_
    refine .get_bind (fun _ => rfl) fun s => (Exec.Ignores.ofExcept _).bind fun items => ?_
    exact (Exec.Ignores.ofExcept _).bind fun i _ => rfl
  | ret =>
    have closed : (discard Exec.closeScope : Exec Unit).Ignores :=
      Exec.Ignores.closeScope.bind fun _ => .pure ()
    refine closed.bind fun _ => .get_bind (fun _ => rfl) fun s => ?_
    cases s.calls with
    | nil => exact .throw _
    | cons frame calls => exact fun _ => rfl
  | handBack =>
    refine Exec.Ignores.takeResult.bind fun v => .get_bind (fun _ => rfl) fun s => ?_
    cases s.calls.head?.bind Frame.returns with
    | none => exact .onScopes _
    | some ty => exact (Exec.Ignores.ofExcept _).bind fun _ => .onScopes _
  | openScope => exact fun _ => rfl
  | closeScope => exact Exec.Ignores.closeScope.bind fun _ _ => rfl
  | push value => exact .push _
  | load name => exact (Exec.Ignores.lookup name).bind fun v => .push v
  | pushResult => exact Exec.Ignores.takeResult.bind fun v => .push v
  | apply op =>
    refine Exec.Ignores.pop.bind fun r => Exec.Ignores.pop.bind fun l => ?_
    exact (Exec.Ignores.ofExcept _).bind fun v => .push v
  | passArg => exact Exec.Ignores.takeResult.bind fun _ _ => rfl
  | jumpUnless guard label =>
    refine Exec.Ignores.takeResult.bind fun v => ?_
    cases v with
    | bool b =>
      cases b with
      | true => exact .pure ()
      | false => exact .jump m label
    | _ => exact .throw _
  | jump label => exact .jump m label
  | rangeTest name label =>
    refine (Exec.Ignores.rangeBounds name).bind fun ends => ?_
    dsimp only
    split
    · exact .jump m label
    · exact .pure ()
  | rangeStep name label =>
    refine (Exec.Ignores.rangeBounds name).bind fun ends => ?_
    exact (Exec.Ignores.assign _ _ _).bind fun _ => .jump m label
  | emptyArray => exact .push _
  | append =>
    refine Exec.Ignores.takeResult.bind fun item => Exec.Ignores.pop.bind fun v => ?_
    cases v with
    | array items => exact .push _
    | _ => exact .throw _
  | loadItem name =>
    refine Exec.Ignores.takeResult.bind fun index => (Exec.Ignores.lookup name).bind fun v => ?_
    cases v with
    | array items => exact (Exec.Ignores.ofExcept _).bind fun i => .push _
    | _ => exact .throw _
  | exit => exact fun _ => rfl

end Machine

/-! ## What functions of the host are told -/

/-- What there is to see of the machine when it is stopped. -/
def View.stopped (view : View) : View := { view with running := false }

/-- The same visit, which is told that the machine is stopped whether it is or not. -/
def Visit.toldStopped : Visit → Visit
  | .answer reply => .answer fun view => reply view.stopped
  | .use change next =>
    .use (fun view => change view.stopped) fun view c => (next view.stopped c).toldStopped
  | .step next ended => .step next.toldStopped fun error view => ended error view.stopped

/-- The same function, which is told that the machine is stopped whether it is or not. -/
def HostFunction.toldStopped : HostFunction → HostFunction
  | .direct answer => .direct fun view => answer view.stopped
  | .visiting visit => .visiting fun args => (visit args).toldStopped

def Host.toldStopped (h : Host) : Host := h.map fun (name, f) => (name, f.toldStopped)

theorem Host.get?_toldStopped (h : Host) (name : String) :
    h.toldStopped.get? name = (h.get? name).map HostFunction.toldStopped := by
  induction h with
  | nil => rfl
  | cons entry h ih =>
    obtain ⟨key, f⟩ := entry
    simp only [get?, toldStopped, List.map_cons, List.lookup_cons] at ih ⊢
    split
    · rfl
    · exact ih

theorem Host.Direct.toldStopped {h : Host} (hh : h.Direct) : h.toldStopped.Direct := by
  intro name f hf
  rw [Host.get?_toldStopped] at hf
  obtain ⟨g, hg, rfl⟩ := Option.map_eq_some_iff.1 hf
  obtain ⟨answer, rfl⟩ := hh name g hg
  exact ⟨_, rfl⟩

namespace Machine

variable {m : Machine} {inner : State → StepResult} {op : Op} {s t : State}

/-- The same machine, whose functions of the host are told that it is stopped. -/
def toldStopped (m : Machine) : Machine := { m with host := m.host.toldStopped }

theorem hostFunction?_toldStopped (m : Machine) (name : String) :
    m.toldStopped.hostFunction? name = (m.hostFunction? name).map HostFunction.toldStopped := by
  simp only [hostFunction?, toldStopped, Host.get?_toldStopped]
  split <;> rfl

theorem toldStopped_overlooks (m : Machine) (op : Op) : m.toldStopped.Overlooks op := by
  intro name argc declared answer _ hf view args
  rw [hostFunction?_toldStopped] at hf
  obtain ⟨f, _, told⟩ := Option.map_eq_some_iff.1 hf
  cases f with
  | direct answer =>
    cases told
    rfl
  | visiting visit => cases told

/-- A stopped machine has nothing else to tell. -/
theorem execute_toldStopped (hh : m.host.Direct) (stopped : s.running = false)
    (inner inner' : State → StepResult) (op : Op) :
    m.toldStopped.execute inner op s = m.execute inner' op s := by
  cases op with
  | call name argc declared =>
    simp only [execute, hostFunction?_toldStopped]
    cases hf : m.hostFunction? name with
    | none => rfl
    | some f =>
      obtain ⟨answer, rfl⟩ := hostFunction?_direct hh hf
      have stays := Exec.Stays.takeArguments (s := s) name argc
      unfold Exec.Stays at stays
      simp only [Option.map_some, HostFunction.toldStopped, Exec.run_bind]
      cases taken : Exec.takeArguments name argc s with
      | error e t => rfl
      | ok args t =>
        rw [taken] at stays
        have told : m.toldStopped.view t = m.view t := rfl
        have seen : (m.view t).stopped = m.view t := by
          rw [view, View.stopped, show t.running = false from stays.running.trans stopped]
        simp only [callHost, reply, told, seen]
  | _ => rfl

/-! ## Steps within a budget and beyond it -/

/-- The same machine with another budget. -/
def withBudget (m : Machine) (budget : Option Nat) : Machine := { m with budget }

/-- How instructions are executed does not depend on the budget. -/
theorem execute_withBudget (hh : m.host.Direct) (inner inner' : State → StepResult)
    (budget budget' : Option Nat) (op : Op) :
    (m.withBudget budget).execute inner op = (m.withBudget budget').execute inner' op := by
  cases op with
  | call name argc declared =>
    have same (b : Option Nat) : (m.withBudget b).hostFunction? name = m.hostFunction? name := rfl
    simp only [execute, same]
    cases hf : m.hostFunction? name with
    | none => rfl
    | some f =>
      obtain ⟨answer, rfl⟩ := hostFunction?_direct hh hf
      rfl
  | _ => rfl

theorem exhausted?_of_lt {b steps : Nat} (h : steps < b) :
    (m.withBudget (some b)).exhausted? steps = none := by
  simpa [exhausted?, withBudget] using h

/-- Budgets that are not used up make no difference to a step. -/
theorem step_withBudget (hh : m.host.Direct) {budget budget' : Option Nat}
    (hb : (m.withBudget budget).exhausted? s.steps = none)
    (hb' : (m.withBudget budget').exhausted? s.steps = none) :
    (m.withBudget budget).step s = (m.withBudget budget').step s := by
  cases hi : m.program.code[s.pc]? with
  | none =>
    rw [step, stepWithin_of_none (m := m.withBudget budget) hi, step,
      stepWithin_of_none (m := m.withBudget budget') hi]
  | some i =>
    rw [step_eq_execute (show (m.withBudget budget).program.code[s.pc]? = some i from hi) hb,
      step_eq_execute (show (m.withBudget budget').program.code[s.pc]? = some i from hi) hb',
      execute_withBudget hh _ _ budget budget']

/-- Within the budget a step is that of the machine without one. -/
theorem step_of_lt (hh : m.host.Direct) {b : Nat} (h : s.steps < b) :
    (m.withBudget (some b)).step s = (m.withBudget none).step s :=
  step_withBudget hh (exhausted?_of_lt h) (exhausted?_none rfl _)

/-- Beyond the budget a step only reports the instruction that it would dispatch, and stops. -/
theorem step_of_le {b : Nat} {i : Instr} (hi : m.program.code[s.pc]? = some i) (h : b ≤ s.steps) :
    (m.withBudget (some b)).step s =
      .error ⟨i.pos, .budgetExhausted b⟩ { s with running := false } := by
  have used : (m.withBudget (some b)).exhausted? s.steps = some b := by
    simp [exhausted?, withBudget, h]
  rw [step_eq_dispatch (show (m.withBudget (some b)).program.code[s.pc]? = some i from hi),
    dispatch, used]

/-- A stopped machine takes the step that it would take if it were running, unless a function of the
host makes a difference. -/
theorem step_stopped (hh : m.host.Direct) {i : Instr} (hi : m.program.code[s.pc]? = some i)
    (hb : m.exhausted? s.steps = none) (ho : m.Overlooks i.op) :
    m.step { s with running := false } = halted (m.step s) := by
  have ignores : m.execute m.inner i.op
      (counted { s with running := false }) = halted (m.execute m.inner i.op (counted s)) :=
    execute_ignores hh ho (counted s)
  have here : m.step { s with running := false } = _ := step_eq_execute hi hb
  rw [here, ignores, step_eq_execute hi hb]
  cases m.execute m.inner i.op (counted s) <;> rfl

/-- A stopped machine takes the step that it would take if it were running and functions of the host
were told otherwise. -/
theorem step_eq_toldStopped (hh : m.host.Direct) {i : Instr}
    (hi : m.program.code[s.pc]? = some i) (hb : m.exhausted? s.steps = none) :
    m.step { s with running := false } = halted (m.toldStopped.step s) := by
  have told : m.toldStopped.step { s with running := false } = halted (m.toldStopped.step s) :=
    step_stopped hh.toldStopped hi hb (m.toldStopped_overlooks i.op)
  have same : m.toldStopped.step { s with running := false } =
      m.step { s with running := false } := by
    have here : m.toldStopped.step { s with running := false } = _ :=
      step_eq_execute (m := m.toldStopped) hi hb
    have there : m.step { s with running := false } = _ := step_eq_execute hi hb
    rw [here, there, execute_toldStopped hh rfl _ m.inner]
  exact same.symm.trans told

/-! ## The count of dispatched instructions -/

/-- A step that finds an instruction and can afford it counts it. -/
theorem steps_step (hh : m.host.Direct) {i : Instr} (hi : m.program.code[s.pc]? = some i)
    (hb : m.exhausted? s.steps = none) : (stateOf (m.step s)).steps = s.steps + 1 := by
  obtain ⟨t, moves, result⟩ := step_moves hi hb
  have counts : t.steps = s.steps + 1 := by
    cases moves with
    | onward onward => exact onward.steps
    | enters _ _ _ steps _ => exact steps
    | leaves _ _ _ steps _ => exact steps
    | exits _ eq => exact eq ▸ rfl
    | nests _ host _ _ =>
      obtain ⟨_, direct⟩ := hostFunction?_direct hh host
      cases direct
  rcases result with ok | ⟨fault, error⟩
  · rw [ok]
    exact counts
  · rw [error]
    exact counts

/-- A step off the end of the program counts nothing. -/
theorem step_behind (hi : m.program.code[s.pc]? = none) :
    m.step s = .ok () { s with running := false } :=
  stepWithin_of_none hi _

theorem steps_le_step (hh : m.host.Direct) (hb : m.exhausted? s.steps = none) :
    s.steps ≤ (stateOf (m.step s)).steps := by
  cases hi : m.program.code[s.pc]? with
  | none => rw [step_behind hi]; exact Nat.le_refl _
  | some i => rw [steps_step hh hi hb]; exact Nat.le_succ _

theorem steps_le_runFor (hh : m.host.Direct) (hb : m.budget = none) (fuel : Nat) (s : State) :
    s.steps ≤ (stateOf (m.runFor fuel s)).steps := by
  induction fuel generalizing s with
  | zero => exact Nat.le_refl _
  | succ fuel ih =>
    have grows := steps_le_step hh (exhausted?_none hb s.steps)
    rw [runFor]
    split
    · cases hs : m.step s with
      | ok _ t =>
        rw [hs] at grows
        exact Nat.le_trans grows (ih t)
      | error e t =>
        rw [hs] at grows
        exact grows
    · exact Nat.le_refl _

/-- The count never passes the budget. -/
theorem steps_runFor_le (hh : m.host.Direct) {b : Nat} (hb : m.budget = some b) (fuel : Nat)
    {s : State} (h : s.steps ≤ b) : (stateOf (m.runFor fuel s)).steps ≤ b := by
  have bounded {s : State} (h : s.steps ≤ b) : (stateOf (m.step s)).steps ≤ b := by
    cases hi : m.program.code[s.pc]? with
    | none => rw [step_behind hi]; exact h
    | some i =>
      rcases Nat.lt_or_eq_of_le h with lt | rfl
      · rw [steps_step hh hi (by simp [exhausted?, hb, lt])]
        exact lt
      · have beyond := step_of_le (m := m) hi (Nat.le_refl s.steps)
        rw [withBudget, ← hb] at beyond
        rw [beyond]
        exact Nat.le_refl _
  induction fuel generalizing s with
  | zero => exact h
  | succ fuel ih =>
    have kept := bounded h
    rw [runFor]
    split
    · cases hs : m.step s with
      | ok _ t =>
        rw [hs] at kept
        exact ih kept
      | error e t =>
        rw [hs] at kept
        exact kept
    · exact h

/-! ## Runs -/

/-- A run that stays within the budget is that of the machine without one. -/
theorem runFor_within (hh : m.host.Direct) {b fuel : Nat} {s : State}
    (h : (stateOf ((m.withBudget none).runFor fuel s)).steps ≤ b) :
    (m.withBudget (some b)).runFor fuel s = (m.withBudget none).runFor fuel s := by
  induction fuel generalizing s with
  | zero => rfl
  | succ fuel ih =>
    rw [runFor] at h ⊢
    rw [runFor]
    split at h
    · rename_i running
      rw [if_pos running, if_pos running]
      cases hi : m.program.code[s.pc]? with
      | none =>
        -- Off the end nothing is dispatched, so that no budget is too small for it.
        rw [step_behind (m := m.withBudget (some b)) hi, step_behind (m := m.withBudget none) hi]
        rw [step_behind (m := m.withBudget none) hi] at h
        exact ih h
      | some i =>
        have counts := steps_step (m := m.withBudget none) hh hi (exhausted?_none rfl _)
        cases hs : (m.withBudget none).step s with
        | ok _ t =>
          rw [hs] at h counts
          have after := steps_le_runFor (m := m.withBudget none) hh rfl fuel t
          have affordable : s.steps < b := by
            change t.steps = _ at counts
            dsimp only at h
            omega
          rw [step_of_lt hh affordable, hs]
          exact ih h
        | error e t =>
          rw [hs] at h counts
          have affordable : s.steps < b := by
            change t.steps = _ at counts
            change t.steps ≤ b at h
            omega
          rw [step_of_lt hh affordable, hs]
    · rename_i stopped
      rw [if_neg stopped, if_neg stopped]

/-- How a run from the start ends: this many steps end it. -/
def Ends (m : Machine) (console : Console) (r : EStateM.Result RunError State Unit) : Prop :=
  ∃ fuel, m.run fuel (m.start console) = r ∧ ∀ s, r = .ok () s → s.running = false

theorem run_start (m : Machine) (fuel : Nat) (console : Console) :
    m.run fuel (m.start console) = reported (m.runFor fuel (m.start console)) := by
  rw [run_eq, if_pos (by rfl)]

theorem start_withBudget (m : Machine) (budget : Option Nat) (console : Console) :
    (m.withBudget budget).start console = m.start console := rfl

theorem Ends.of_ok {console : Console} {k : Nat} (h : m.runFor k (m.start console) = .ok () s)
    (stopped : s.running = false) : m.Ends console (.ok () s) := by
  refine ⟨k, ?_, fun t ht => ?_⟩
  · rw [run_start, h]
    rfl
  · cases ht
    exact stopped

theorem Ends.of_error {console : Console} {k : Nat} {e : ExecutionError}
    (h : m.runFor k (m.start console) = .error e s) :
    m.Ends console (.error (.execution e) s) := by
  refine ⟨k, ?_, fun t ht => by cases ht⟩
  rw [run_start, h]
  rfl

/-- Further steps change nothing about how a run has ended. -/
theorem Ends.run_of_le {console : Console} {r : EStateM.Result RunError State Unit}
    (h : m.Ends console r) : ∃ fuel, ∀ n ≥ fuel, m.run n (m.start console) = r := by
  obtain ⟨fuel, rfl, stopped⟩ := h
  refine ⟨fuel, fun n hn => ?_⟩
  rw [run_start, run_start, runFor_mono hn]
  intro t ht
  refine stopped t ?_
  rw [run_start, ht]
  rfl

/-- The run with a budget ends as the one without does, if that one stays within the budget. -/
theorem Ends.withBudget (hh : m.host.Direct) {console : Console} {b : Nat}
    {r : EStateM.Result RunError State Unit} (h : (m.withBudget none).Ends console r)
    (short : (stateOf r).steps ≤ b) : (m.withBudget (some b)).Ends console r := by
  obtain ⟨fuel, rfl, stopped⟩ := h
  refine ⟨fuel, ?_, stopped⟩
  rw [run_start, stateOf_reported] at short
  rw [run_start, run_start]
  exact congrArg reported (runFor_within hh short)

/-- A run that is longer than `b` instructions does not come to the end of the program before. -/
theorem exists_instr {console : Console} {b k : Nat}
    (long : ∀ r, (m.withBudget none).Ends console r → b < (stateOf r).steps)
    (run : (m.withBudget none).runFor k (m.start console) = .ok () s) (running : s.running = true)
    (steps : s.steps ≤ b) : ∃ i, m.program.code[s.pc]? = some i := by
  cases hi : m.program.code[s.pc]? with
  | some i => exact ⟨i, rfl⟩
  | none =>
    have last : (m.withBudget none).runFor (k + 1) (m.start console) =
        .ok () { s with running := false } := by
      rw [runFor_add run 1, runFor, if_pos running, step_behind (m := m.withBudget none) hi]
      rfl
    have short : b < s.steps := long _ (.of_ok (m := m.withBudget none) last rfl)
    omega

/-- Where the run without a budget is longer than `b` instructions, its first `b` steps dispatch
them and leave it running, with another instruction to come. -/
theorem runFor_of_long (hh : m.host.Direct) {console : Console} {b : Nat}
    (long : ∀ r, (m.withBudget none).Ends console r → b < (stateOf r).steps) {k : Nat}
    (hk : k ≤ b) :
    ∃ s i, (m.withBudget none).runFor k (m.start console) = .ok () s ∧ s.running = true ∧
      s.steps = k ∧ m.program.code[s.pc]? = some i := by
  induction k with
  | zero =>
    obtain ⟨i, hi⟩ := exists_instr (k := 0) long rfl rfl (Nat.zero_le b)
    exact ⟨m.start console, i, rfl, rfl, rfl, hi⟩
  | succ k ih =>
    obtain ⟨s, i, run, running, steps, hi⟩ := ih (by omega)
    have counts := steps_step (m := m.withBudget none) hh hi (exhausted?_none rfl _)
    have next : (m.withBudget none).runFor (k + 1) (m.start console) =
        (m.withBudget none).step s := by
      rw [runFor_add run 1, runFor, if_pos running]
      cases (m.withBudget none).step s <;> rfl
    cases hs : (m.withBudget none).step s with
    | error e t =>
      rw [hs] at counts next
      have short : b < t.steps := long _ (.of_error (m := m.withBudget none) next)
      change t.steps = _ at counts
      omega
    | ok _ t =>
      rw [hs] at counts next
      change t.steps = _ at counts
      cases runs : t.running with
      | false =>
        have short : b < t.steps := long _ (.of_ok (m := m.withBudget none) next runs)
        omega
      | true =>
        obtain ⟨j, hj⟩ := exists_instr long next runs (by omega)
        exact ⟨t, j, next, runs, by omega, hj⟩

/-- A run that its budget is too small for is stopped at the first instruction it cannot afford. -/
theorem ends_of_long (hh : m.host.Direct) {console : Console} {b : Nat} {i : Instr}
    (run : (m.withBudget none).runFor b (m.start console) = .ok () s) (running : s.running = true)
    (steps : s.steps = b) (hi : m.program.code[s.pc]? = some i) :
    (m.withBudget (some b)).Ends console
      (.error (.execution ⟨i.pos, .budgetExhausted b⟩) { s with running := false }) := by
  have within : (stateOf ((m.withBudget none).runFor b (m.start console))).steps ≤ b := by
    rw [run]
    exact Nat.le_of_eq steps
  have same := (runFor_within hh within).trans run
  refine .of_error (k := b + 1) ?_
  rw [start_withBudget, runFor_add same 1, runFor, if_pos running, step_of_le hi (by omega)]

end Machine

/-- A budget `b` is exact, for any program. If the run without a budget ends within `b`
instructions, the run with this budget ends the same way, in the same state. Otherwise it dispatches
`b` instructions, as the run without a budget does, and is stopped at the one that comes next: its
state is the one then reached but for the flag of a running machine, and with a greater budget it
takes the step that it could not afford. Functions of the host that look at the flag see it down in
that step; where none is asked it is the step of the run without a budget. In either case the run
ends, and it never counts past its budget. -/
theorem budget_exact (m : Machine) (hh : m.host.Direct) (console : Console) (b : Nat) :
    (∀ r, (m.withBudget none).Ends console r → (stateOf r).steps ≤ b →
      (m.withBudget (some b)).Ends console r) ∧
    ((∀ r, (m.withBudget none).Ends console r → b < (stateOf r).steps) →
      ∃ s i, (m.withBudget none).run b (m.start console) = .ok () s ∧ s.running = true ∧
        s.steps = b ∧ m.program.code[s.pc]? = some i ∧
        (m.withBudget (some b)).Ends console
          (.error (.execution ⟨i.pos, .budgetExhausted b⟩) { s with running := false }) ∧
        ∀ more : Option Nat, (∀ c, more = some c → b < c) →
          (m.withBudget more).step { s with running := false } =
            halted ((m.toldStopped.withBudget none).step s) ∧
          (m.Overlooks i.op → (m.withBudget more).step { s with running := false } =
            halted ((m.withBudget none).step s))) ∧
    (∃ r, (m.withBudget (some b)).Ends console r) ∧
    ∀ fuel, (stateOf ((m.withBudget (some b)).run fuel (m.start console))).steps ≤ b := by
  refine ⟨fun r h => h.withBudget hh, fun long => ?_, ?_, fun fuel => ?_⟩
  · obtain ⟨s, i, run, running, steps, hi⟩ := Machine.runFor_of_long hh long (Nat.le_refl b)
    refine ⟨s, i, ?_, running, steps, hi, Machine.ends_of_long hh run running steps hi,
      fun more greater => ?_⟩
    · rw [← Machine.start_withBudget m none, Machine.run_start, Machine.start_withBudget, run]
      rfl
    have affordable : (m.withBudget more).exhausted? s.steps = none := by
      cases more with
      | none => exact Machine.exhausted?_none rfl _
      | some c => exact Machine.exhausted?_of_lt (steps ▸ greater c rfl)
    have unbounded : (m.withBudget none).exhausted? s.steps = none := Machine.exhausted?_none rfl _
    have resumed : (m.withBudget more).step { s with running := false } =
        (m.withBudget none).step { s with running := false } :=
      Machine.step_withBudget hh affordable unbounded
    refine ⟨resumed.trans ?_, fun overlooks => resumed.trans ?_⟩
    · exact Machine.step_eq_toldStopped (m := m.withBudget none) hh hi unbounded
    · exact Machine.step_stopped (m := m.withBudget none) hh hi unbounded overlooks
  · rcases Classical.em (∃ r, (m.withBudget none).Ends console r ∧ (stateOf r).steps ≤ b) with
      ⟨r, ends, short⟩ | long
    · exact ⟨r, ends.withBudget hh short⟩
    · have long : ∀ r, (m.withBudget none).Ends console r → b < (stateOf r).steps :=
        fun r ends => Nat.lt_of_not_le fun short => long ⟨r, ends, short⟩
      obtain ⟨s, i, run, running, steps, hi⟩ := Machine.runFor_of_long hh long (Nat.le_refl b)
      exact ⟨_, Machine.ends_of_long hh run running steps hi⟩
  · have unused : (m.start console).steps ≤ b := Nat.zero_le b
    rw [← Machine.start_withBudget m (some b), Machine.run_start, Machine.stateOf_reported]
    exact Machine.steps_runFor_le (m := m.withBudget (some b)) hh rfl fuel unused

/-- Ends a line again and again. -/
def ticking : Program where
  code := #[.labeled "_while.0" (.marker .whileStart) ⟨1, 1⟩, .plain (.call "out" 0 none) ⟨2, 1⟩,
    .plain (.jump "_while.0") ⟨1, 1⟩]
  labels := [("_while.0", 0)]
  entry := 0

/-- With a budget of four it ends one line, and is stopped where it would end the second one. -/
theorem budget_exact_ticking :
    ∃ (m : Machine) (console : Console), m.program = ticking ∧ m.host.Direct ∧
      (∀ r, (m.withBudget none).Ends console r → 4 < (stateOf r).steps) ∧
      ∃ s : State, (m.withBudget (some 4)).Ends console
          (.error (.execution ⟨⟨2, 1⟩, .budgetExhausted 4⟩) { s with running := false }) ∧
        s.steps = 4 ∧ s.console.written = #[10] := by
  let m : Machine := ⟨ticking, .standard, none⟩
  let console : Console := .ofInput [] none
  obtain ⟨t, run, steps⟩ : ∃ t, m.runFor 5 (m.start console) = .ok () t ∧ t.steps = 5 :=
    ⟨_, rfl, rfl⟩
  have long : ∀ r, (m.withBudget none).Ends console r → 4 < (stateOf r).steps := by
    intro r ends
    obtain ⟨fuel, same⟩ := ends.run_of_le
    have later := same (5 + fuel) (Nat.le_add_left fuel 5)
    rw [Machine.run_start] at later
    rw [← later, Machine.stateOf_reported]
    change 4 < (stateOf (m.runFor (5 + fuel) (m.start console))).steps
    rw [Machine.runFor_add run fuel]
    have grows := Machine.steps_le_runFor (m := m) Host.standard_direct rfl fuel t
    omega
  have stopped := (budget_exact m Host.standard_direct console 4).2.1 long
  obtain ⟨s, i, first, _, count, hi, ends, _⟩ := stopped
  obtain ⟨u, known, pc, output⟩ : ∃ u, (m.withBudget none).run 4 (m.start console) = .ok () u ∧
      ticking.code[u.pc]? = some (.plain (.call "out" 0 none) ⟨2, 1⟩) ∧ u.console.written = #[10] :=
    ⟨_, rfl, rfl, rfl⟩
  obtain rfl : s = u := by
    rw [known] at first
    exact (EStateM.Result.ok.inj first).2.symm
  obtain rfl : i = _ := Option.some.inj (hi.symm.trans pc)
  exact ⟨m, console, rfl, Host.standard_direct, long, s, ends, count, output⟩

end StackScript
