import StackScript.Proofs.Bindings
import StackScript.Proofs.Safety

/-!
# Where control goes

What an instruction can do to the program counter, the pending calls, the count of dispatched
instructions and the flag of a running machine. The program may be any, compiled or not.

* `State.Stays`: a move leaves control as it is;
* `Machine.Moves`, `Machine.execute_moves`: all that an instruction can do to control;
* `Machine.Dispatches`: the states in which a step dispatches instructions, also those that host
  functions step the machine from;
* `Machine.runFor_add`: a run is taken up where it was left.
-/

namespace StackScript

/-- Control is the same in both states. -/
structure State.Stays (s t : State) : Prop where
  pc : t.pc = s.pc
  calls : t.calls = s.calls
  steps : t.steps = s.steps
  running : t.running = s.running

theorem State.Stays.refl (s : State) : s.Stays s := ⟨rfl, rfl, rfl, rfl⟩

theorem State.Stays.trans {s t u : State} (h : s.Stays t) (h' : t.Stays u) : s.Stays u :=
  ⟨h'.pc.trans h.pc, h'.calls.trans h.calls, h'.steps.trans h.steps, h'.running.trans h.running⟩

/-! ## Moves -/

namespace Exec

variable {α β : Type} {s : State}

/-- From `s`, a move leaves control as it is, also when it fails. -/
def Stays (x : Exec α) (s : State) : Prop := s.Stays (stateOf (x s))

namespace Stays

theorem pure (a : α) : (pure a : Exec α).Stays s := .refl s

theorem throw (f : Fault) : (throw f : Exec α).Stays s := .refl s

theorem bind {x : Exec α} {f : α → Exec β} (h : x.Stays s) (hf : ∀ a t, (f a).Stays t) :
    (x >>= f).Stays s := by
  unfold Stays at h ⊢
  rw [run_bind]
  cases hx : x s with
  | ok a t =>
    rw [hx] at h
    exact h.trans (hf a t)
  | error e t =>
    rw [hx] at h
    exact h

theorem get_bind {f : State → Exec β} (h : (f s).Stays s) : (get >>= f).Stays s := h

theorem ofExcept (x : Except Fault α) : (ofExcept x).Stays s := by
  cases x with
  | ok a => exact .pure a
  | error f => exact .throw f

theorem onScopes (f : Scopes → Except Fault Scopes) : (onScopes f).Stays s := by
  rw [Stays, run_onScopes]
  cases f s.scopes <;> exact ⟨rfl, rfl, rfl, rfl⟩

theorem assign (name : String) (v : Value) (ty : Option Ty) : (Exec.assign name v ty).Stays s := by
  rw [assign_eq]
  exact .onScopes _

theorem push (v : Value) : (Exec.push v).Stays s := .onScopes _

theorem pop : Exec.pop.Stays s := by
  rw [Stays, run_pop]
  split <;> exact ⟨rfl, rfl, rfl, rfl⟩

theorem closeScope : Exec.closeScope.Stays s := by
  rw [Stays, run_closeScope]
  split <;> exact ⟨rfl, rfl, rfl, rfl⟩

theorem lookup (name : String) : (Exec.lookup name).Stays s := by
  rw [Stays, run_lookup]
  split <;> exact .refl s

theorem takeResult : Exec.takeResult.Stays s := by
  rw [Stays, run_takeResult]
  split <;> exact ⟨rfl, rfl, rfl, rfl⟩

theorem takeIncoming (name : String) : (Exec.takeIncoming name).Stays s := by
  rw [Stays, run_takeIncoming]
  split <;> exact ⟨rfl, rfl, rfl, rfl⟩

theorem takeArguments (name : String) (argc : Nat) : (Exec.takeArguments name argc).Stays s := by
  rw [Stays, run_takeArguments]
  split <;> exact ⟨rfl, rfl, rfl, rfl⟩

theorem rangeBounds (name : String) : (Machine.rangeBounds name).Stays s := by
  have int (name : String) (s : State) : (Machine.rangeBounds.int name).Stays s := by
    refine (Stays.lookup name).bind fun v t => ?_
    cases v with
    | int n => exact .pure n
    | _ => exact .throw _
  exact (int name s).bind fun _ t => (int _ t).bind fun _ _ => .pure _

theorem answered (name : String) (r : Except HostError (Option Value)) :
    (Machine.answered name r).Stays s := by
  rcases r with e | _ | v
  · exact .throw _
  · exact .pure ()
  · exact .push v

end Stays

end Exec

/-! ## Instructions -/

namespace Machine

variable {m : Machine} {inner : State → StepResult} {op : Op} {s t u : State}

/-- Control goes on behind the instruction or at the label that it may jump to. -/
structure Onward (m : Machine) (op : Op) (s t : State) : Prop where
  calls : t.calls = s.calls
  steps : t.steps = s.steps
  running : t.running = s.running
  pc : m.Goes op s.pc t.pc

/-- All that an instruction can do to control. -/
inductive Moves (m : Machine) (inner : State → StepResult) (op : Op) (s t : State) : Prop
  | onward (onward : m.Onward op s t)
  /-- A call enters a function of the program. -/
  | enters {name : String} {argc : Nat} {declared : Option Ty}
    (call : op = .call name argc declared)
    (pc : m.program.resolve (Label.function name) = some t.pc)
    (calls : t.calls = ⟨s.pc, declared⟩ :: s.calls) (steps : t.steps = s.steps)
    (running : t.running = s.running)
  | leaves {frame : Frame} (ret : op = .ret) (calls : s.calls = frame :: t.calls)
    (pc : t.pc = frame.returnTo) (steps : t.steps = s.steps) (running : t.running = s.running)
  | exits (exit : op = .exit) (eq : t = { s with running := false })
  /-- A call goes to a function of the host that may step the machine before it answers. -/
  | nests {name : String} {argc : Nat} {declared : Option Ty} {args : List Value} {u : State}
    {visit : List Value → Visit} (call : op = .call name argc declared)
    (host : m.hostFunction? name = some (.visiting visit))
    (taken : Exec.takeArguments name argc s = .ok args u)
    (visits : t = stateOf (m.visit inner name (visit args) u))

theorem Moves.of_stays (h : s.Stays t) : m.Moves inner op s t :=
  .onward ⟨h.calls, h.steps, h.running, .inl h.pc⟩

theorem Onward.of_stays (hs : s.Stays t) (h : m.Onward op t u) : m.Onward op s u :=
  ⟨h.calls.trans hs.calls, h.steps.trans hs.steps, h.running.trans hs.running,
    hs.pc ▸ h.pc⟩

theorem Onward.refl (s : State) : m.Onward op s s := ⟨rfl, rfl, rfl, .inl rfl⟩

theorem Onward.bind {α : Type} {x : Exec α} {f : α → Exec Unit} (h : x.Stays s)
    (hf : ∀ a t, m.Onward op t (stateOf (f a t))) : m.Onward op s (stateOf ((x >>= f) s)) := by
  rw [Exec.run_bind]
  unfold Exec.Stays at h
  cases hx : x s with
  | ok a t =>
    rw [hx] at h
    exact .of_stays h (hf a t)
  | error e t =>
    rw [hx] at h
    exact .of_stays h (.refl t)

theorem Onward.jump {label : String} (ht : op.target? = some label) :
    m.Onward op s (stateOf (m.jump label s)) := by
  rw [run_jump]
  cases hg : m.program.resolve label with
  | some goal => exact ⟨rfl, rfl, rfl, .inr ⟨label, ht, hg⟩⟩
  | none => exact ⟨rfl, rfl, rfl, .inl rfl⟩

theorem answered_result (name : String) (r : Except HostError (Option Value)) (s : State) :
    (stateOf (answered name r s)).result = s.result := by
  rcases r with e | _ | v
  · rfl
  · rfl
  · rw [answered, Exec.push, Exec.run_onScopes]
    split <;> rfl

theorem call_moves (name : String) (argc : Nat) (declared : Option Ty) :
    m.Moves inner (.call name argc declared) s
      (stateOf (m.execute inner (.call name argc declared) s)) := by
  have stays : s.Stays (stateOf (Exec.takeArguments name argc s)) :=
    Exec.Stays.takeArguments name argc
  simp only [execute]
  cases hf : m.hostFunction? name with
  | none =>
    simp only [callFunction]
    cases target : m.program.resolve (Label.function name) with
    | none => exact .of_stays (.refl s)
    | some goal =>
      simp only [Exec.run_bind]
      cases taken : Exec.takeArguments name argc s with
      | error e t =>
        rw [taken] at stays
        exact .of_stays stays
      | ok args t =>
        rw [taken] at stays
        refine .enters rfl target ?_ stays.steps stays.running
        rw [← stays.pc, ← stays.calls]
        rfl
  | some f =>
    simp only [Exec.run_bind]
    cases taken : Exec.takeArguments name argc s with
    | error e t =>
      rw [taken] at stays
      exact .of_stays stays
    | ok args t =>
      rw [taken] at stays
      cases f with
      | direct answer =>
        obtain ⟨r, console, run⟩ := m.reply_eq name (answer · args) t
        have asked : s.Stays { t with console } := { stays with }
        simp only [callHost, run]
        exact .of_stays (asked.trans (Exec.Stays.answered ..))
      | visiting visit => exact .nests rfl hf taken rfl

theorem ret_moves : m.Moves inner .ret s (stateOf (m.execute inner .ret s)) := by
  simp only [execute, Exec.run_bind, Exec.run_discard, Exec.run_closeScope]
  cases hs : s.scopes with
  | nil => exact .of_stays (.refl s)
  | cons scope rest =>
    simp only [Exec.run_get]
    cases hc : s.calls with
    | nil => exact .of_stays ⟨rfl, hc.symm, rfl, rfl⟩
    | cons frame calls => exact .leaves rfl hc rfl rfl rfl

/-- What an instruction can do to control, it does whether it fails or not. -/
theorem execute_moves (m : Machine) (inner : State → StepResult) (op : Op) (s : State) :
    m.Moves inner op s (stateOf (m.execute inner op s)) := by
  cases op with
  | call name argc declared => exact call_moves name argc declared
  | ret => exact ret_moves
  | exit => exact .exits rfl rfl
  | marker k => exact .of_stays (.refl s)
  | bindArg ty name =>
    exact .of_stays ((Exec.Stays.takeIncoming name).bind fun v _ => .assign ..)
  | assign ty name => exact .of_stays (Exec.Stays.takeResult.bind fun v _ => .assign ..)
  | assignItem name =>
    refine .of_stays (Exec.Stays.takeResult.bind fun v _ => Exec.Stays.pop.bind fun index _ => ?_)
    refine .get_bind ((Exec.Stays.ofExcept _).bind fun items _ => ?_)
    exact (Exec.Stays.ofExcept _).bind fun i _ => ⟨rfl, rfl, rfl, rfl⟩
  | handBack =>
    refine .of_stays (Exec.Stays.takeResult.bind fun v t => .get_bind ?_)
    split
    · exact (Exec.Stays.ofExcept _).bind fun _ _ => .onScopes _
    · exact .onScopes _
  | openScope => exact .of_stays ⟨rfl, rfl, rfl, rfl⟩
  | closeScope => exact .of_stays (Exec.Stays.closeScope.bind fun _ _ => ⟨rfl, rfl, rfl, rfl⟩)
  | push value => exact .of_stays (Exec.Stays.push _)
  | load name => exact .of_stays ((Exec.Stays.lookup name).bind fun v _ => .push v)
  | pushResult => exact .of_stays (Exec.Stays.takeResult.bind fun v _ => .push v)
  | apply op =>
    refine .of_stays (Exec.Stays.pop.bind fun r _ => Exec.Stays.pop.bind fun l _ => ?_)
    exact (Exec.Stays.ofExcept _).bind fun v _ => .push v
  | passArg => exact .of_stays (Exec.Stays.takeResult.bind fun _ _ => ⟨rfl, rfl, rfl, rfl⟩)
  | jumpUnless guard label =>
    refine .onward (.bind Exec.Stays.takeResult fun v t => ?_)
    cases v with
    | bool b =>
      cases b with
      | true => exact .refl t
      | false => exact .jump rfl
    | _ => exact .refl t
  | jump label => exact .onward (.jump rfl)
  | rangeTest name label =>
    refine .onward (.bind (Exec.Stays.rangeBounds name) fun ends t => ?_)
    dsimp only
    split
    · exact .jump rfl
    · exact .refl t
  | rangeStep name label =>
    refine .onward (.bind (Exec.Stays.rangeBounds name) fun ends t => ?_)
    exact .bind (.assign ..) fun _ _ => .jump rfl
  | emptyArray => exact .of_stays (Exec.Stays.push _)
  | append =>
    refine .of_stays (Exec.Stays.takeResult.bind fun item _ => Exec.Stays.pop.bind fun v _ => ?_)
    cases v with
    | array items => exact .push _
    | _ => exact .throw _
  | loadItem name =>
    refine .of_stays (Exec.Stays.takeResult.bind fun index _ => ?_)
    refine (Exec.Stays.lookup name).bind fun v _ => ?_
    cases v with
    | array items => exact (Exec.Stays.ofExcept _).bind fun i _ => .push _
    | _ => exact .throw _

/-- An instruction that is no call, return or exit goes on behind itself or at its label. -/
theorem onward_of_execute (hc : ∀ name argc declared, op ≠ .call name argc declared)
    (hr : op ≠ .ret) (he : op ≠ .exit) (run : m.execute inner op s = .ok () t) :
    m.Onward op s t := by
  have moves := m.execute_moves inner op s
  rw [run] at moves
  cases moves with
  | onward onward => exact onward
  | enters call => exact absurd call (hc _ _ _)
  | leaves ret => exact absurd ret hr
  | exits exit => exact absurd exit he
  | nests call => exact absurd call (hc _ _ _)

/-! ## Steps -/

/-- A step that does not fail executes the instruction it is at. -/
theorem execute_of_stepWithin {depth : Nat} {i : Instr} (hi : m.program.code[s.pc]? = some i)
    (hs : m.stepWithin (depth + 1) s = .ok () t) :
    m.execute (m.stepWithin depth) i.op (counted s) = .ok () t := by
  rw [stepWithin, hi] at hs
  simp only [dispatch] at hs
  split at hs
  · cases hs
  · split at hs <;> cases hs
    assumption

theorem execute_of_step {i : Instr} (hi : m.program.code[s.pc]? = some i)
    (hs : m.step s = .ok () t) : m.execute m.inner i.op (counted s) = .ok () t :=
  execute_of_stepWithin hi hs

/-- What a step of at most this depth does to control. -/
theorem stepWithin_moves {depth : Nat} {i : Instr} (hi : m.program.code[s.pc]? = some i)
    (hb : m.exhausted? s.steps = none) :
    ∃ t, m.Moves (m.stepWithin depth) i.op (counted s) t ∧
      (m.stepWithin (depth + 1) s = .ok () t ∨
        ∃ fault,
          m.stepWithin (depth + 1) s = .error ⟨i.pos, fault⟩ { t with running := false }) := by
  have moves := m.execute_moves (m.stepWithin depth) i.op (counted s)
  rw [stepWithin, hi]
  simp only [dispatch, hb]
  cases run : m.execute (m.stepWithin depth) i.op (counted s) with
  | ok _ t =>
    rw [run] at moves
    refine ⟨t, moves, .inl ?_⟩
    unfold counted at run
    rw [run]
  | error fault t =>
    rw [run] at moves
    refine ⟨t, moves, .inr ⟨fault, ?_⟩⟩
    unfold counted at run
    rw [run]

/-- What a step does to control. -/
theorem step_moves {i : Instr} (hi : m.program.code[s.pc]? = some i)
    (hb : m.exhausted? s.steps = none) :
    ∃ t, m.Moves m.inner i.op (counted s) t ∧
      (m.step s = .ok () t ∨
        ∃ fault, m.step s = .error ⟨i.pos, fault⟩ { t with running := false }) :=
  stepWithin_moves hi hb

/-- A step off the end of the program only stops the machine, whatever its depth. -/
theorem stepWithin_of_none (hi : m.program.code[s.pc]? = none) (depth : Nat) :
    m.stepWithin depth s = .ok () { s with running := false } := by
  cases depth with
  | zero => rfl
  | succ depth => rw [stepWithin, hi]

/-- A machine that has failed is not running. -/
theorem running_of_stepWithin_error {depth : Nat} {e : ExecutionError}
    (h : m.stepWithin depth s = .error e t) : t.running = false := by
  cases depth with
  | zero => cases h
  | succ depth =>
    rw [stepWithin] at h
    split at h
    · cases h
    · unfold dispatch at h
      split at h
      · cases h
        rfl
      · split at h
        · cases h
        · cases h
          rfl

/-- The states from which a visit takes its steps. It goes on while the machine is running. -/
inductive StepsFrom (m : Machine) (inner : State → StepResult) : Visit → State → State → Prop
  | now {next : Visit} {ended : Option ExecutionError → Reply} {s : State} :
    StepsFrom m inner (.step next ended) s s
  | later {next : Visit} {ended : Option ExecutionError → Reply} {s t u : State} :
    inner s = .ok () t → t.running = true → StepsFrom m inner next t u →
      StepsFrom m inner (.step next ended) s u
  | used {change : View → Console → Console} {next : View → Console → Visit} {s u : State} :
    StepsFrom m inner (next (m.view s) s.console)
        { s with console := change (m.view s) s.console } u →
      StepsFrom m inner (.use change next) s u

theorem StepsFrom.running {v : Visit} (h : m.StepsFrom inner v s t) (running : s.running = true) :
    t.running = true := by
  induction h with
  | now => exact running
  | later _ going _ ih => exact ih going
  | used _ ih => exact ih running

theorem reply_stays (m : Machine) (name : String) (answer : Reply) (s : State) :
    s.Stays (stateOf (m.reply name answer s)) ∧
      (stateOf (m.reply name answer s)).result = s.result := by
  obtain ⟨r, console, run⟩ := m.reply_eq name answer s
  have asked : s.Stays { s with console } := ⟨rfl, rfl, rfl, rfl⟩
  rw [run]
  exact ⟨asked.trans (Exec.Stays.answered ..), answered_result ..⟩

/-- What a visit keeps that leaves the machine running: what each of its steps keeps, and the use of
the console and the answer do not touch. -/
theorem visit_keeps {name : String} {Q : State → Prop} {v : Visit}
    (stops : ∀ s e t, inner s = .error e t → t.running = false)
    (uses : ∀ s console, Q s → Q { s with console })
    (answers : ∀ s r t, Q s → answered name r s = .ok () t → Q t)
    (steps : ∀ w x, m.StepsFrom inner v s w → Q w → inner w = .ok () x → x.running = true → Q x)
    (h : Q s) (run : m.visit inner name v s = .ok () t) (running : t.running = true) : Q t := by
  have replies {answer : Reply} {s : State} (h : Q s) (run : m.reply name answer s = .ok () t) :
      Q t := by
    obtain ⟨r, console, eq⟩ := m.reply_eq name answer s
    rw [eq] at run
    exact answers _ r t (uses s console h) run
  have halts {answer : Reply} {x : State} (stopped : x.running = false) :
      m.reply name answer x ≠ .ok () t := by
    intro run
    obtain ⟨stays, -⟩ := m.reply_stays name answer x
    rw [run] at stays
    cases running.symm.trans (stays.running.trans stopped)
  induction v generalizing s with
  | answer answer => exact replies h run
  | use change next ih =>
    simp only [visit] at run
    exact ih _ _ (fun w x steps' => steps w x (.used steps')) (uses s _ h) run
  | step next ended ih =>
    simp only [visit] at run
    cases step : inner s with
    | error e x =>
      rw [step] at run
      exact absurd run (halts (stops s e x step))
    | ok _ x =>
      simp only [step] at run
      split at run
      · rename_i going
        exact ih (fun w y steps' => steps w y (.later step going steps'))
          (steps s x .now h step going) run
      · rename_i stopped
        exact absurd run (halts (by simpa using stopped))

/-- A visit that leaves the machine running leaves it where its last step does. -/
theorem visit_last {name : String} (stops : ∀ s e t, inner s = .error e t → t.running = false)
    {v : Visit} (run : m.visit inner name v s = .ok () t) (running : t.running = true) :
    t.pc = s.pc ∧ t.result = s.result ∨ ∃ w x, m.StepsFrom inner v s w ∧ inner w = .ok () x ∧
      x.running = true ∧ t.pc = x.pc ∧ t.result = x.result := by
  refine visit_keeps (Q := fun t => t.pc = s.pc ∧ t.result = s.result ∨ ∃ w x,
    m.StepsFrom inner v s w ∧ inner w = .ok () x ∧ x.running = true ∧ t.pc = x.pc ∧
      t.result = x.result) stops (fun _ _ h => h) (fun u r t h run => ?_)
    (fun w x steps _ step going => .inr ⟨w, x, steps, step, going, rfl, rfl⟩) (.inl ⟨rfl, rfl⟩) run
    running
  have stays := Exec.Stays.answered (s := u) name r
  have result := answered_result name r u
  rw [Exec.Stays, run] at stays
  rw [run] at result
  rw [show t.pc = u.pc from stays.pc, show t.result = u.result from result]
  exact h

/-- The states in which a step from `s` dispatches an instruction: `s` itself, and those from which
the function of the host that it calls takes steps. -/
inductive DispatchesWithin (m : Machine) : Nat → State → State → Prop
  | here (depth : Nat) (s : State) : DispatchesWithin m (depth + 1) s s
  | nested {depth : Nat} {s t u w : State} {i : Instr} {name : String} {argc : Nat}
    {declared : Option Ty} {args : List Value} {visit : List Value → Visit} :
    m.program.code[s.pc]? = some i → i.op = .call name argc declared →
    m.hostFunction? name = some (.visiting visit) →
    Exec.takeArguments name argc (counted s) = .ok args t →
    m.StepsFrom (m.stepWithin depth) (visit args) t u → DispatchesWithin m depth u w →
    DispatchesWithin m (depth + 1) s w

/-- The states in which a step dispatches an instruction. -/
abbrev Dispatches (m : Machine) : State → State → Prop := m.DispatchesWithin nesting

theorem Dispatches.here (m : Machine) (s : State) : m.Dispatches s s :=
  DispatchesWithin.here (nesting - 1) s

theorem hostFunction?_direct (hh : m.host.Direct) {name : String} {f : HostFunction}
    (hf : m.hostFunction? name = some f) : ∃ answer, f = .direct answer := by
  unfold hostFunction? at hf
  split at hf
  · cases hf
  · exact hh name f hf

/-- Where no function of the host steps the machine, a step dispatches one instruction. -/
theorem DispatchesWithin.eq_of_direct {depth : Nat} (hh : m.host.Direct)
    (h : m.DispatchesWithin depth s u) : u = s := by
  cases h with
  | here => rfl
  | nested _ _ host _ _ _ =>
    obtain ⟨_, direct⟩ := hostFunction?_direct hh host
    cases direct

/-- An instruction that calls nothing is the only one that is dispatched. -/
theorem DispatchesWithin.eq_of_ne_call {depth : Nat} {i : Instr}
    (hi : m.program.code[s.pc]? = some i)
    (hc : ∀ name argc declared, i.op ≠ .call name argc declared)
    (h : m.DispatchesWithin depth s u) : u = s := by
  cases h with
  | here => rfl
  | nested hj call =>
    cases hi.symm.trans hj
    exact absurd call (hc _ _ _)

/-! ## Runs -/

/-- What a run says of its steps. -/
def reported : StepResult → EStateM.Result RunError State Unit
  | .ok _ s => .ok () s
  | .error e s => .error (.execution e) s

theorem stateOf_reported (r : StepResult) : stateOf (reported r) = stateOf r := by
  cases r <;> rfl

theorem run_eq (m : Machine) (fuel : Nat) (s : State) :
    m.run fuel s = if s.running then reported (m.runFor fuel s) else .error .alreadyEnded s := by
  rw [run]
  cases m.runFor fuel s <;> rfl

theorem runFor_of_run {fuel : Nat} (h : m.run fuel s = .ok () t) : m.runFor fuel s = .ok () t := by
  unfold run at h
  split at h
  · split at h <;> cases h
    assumption
  · cases h

/-- A run is taken up where it was left. -/
theorem runFor_add {k : Nat} (h : m.runFor k s = .ok () t) (n : Nat) :
    m.runFor (k + n) s = m.runFor n t := by
  induction k generalizing s with
  | zero =>
    cases h
    rw [Nat.zero_add]
  | succ k ih =>
    rw [Nat.add_right_comm]
    rw [runFor] at h ⊢
    split at h
    · rename_i running
      rw [if_pos running]
      cases hs : m.step s with
      | ok _ u =>
        rw [hs] at h
        exact ih h
      | error e u =>
        rw [hs] at h
        cases h
    · rename_i stopped
      cases h
      rw [if_neg stopped, runFor_of_not_running (by simpa using stopped)]

end Machine

end StackScript
