import StackScript.Proofs.Lockstep

/-!
# Results are fresh

The last result is kept in one place of the state, which every expression, argument and call
overwrites. It is never taken late.

* `State.Clear`: no pending call returns to where a result is taken;
* `Machine.Session.clear`: so it is in every state of a machine on compiled code;
* `Machine.stepWithin_fresh`: only the end of a scope leads to where a result is taken;
* `result_fresh`: what is taken is the result of the scope just closed, and otherwise the last
  result makes no difference.
-/

namespace StackScript

/-- No pending call returns to where a result is taken. -/
def State.Clear (p : Program) (s : State) : Prop := ∀ frame ∈ s.calls, ¬p.TakesAt frame.returnTo

theorem State.Clear.of_calls {p : Program} {s t : State} (h : s.Clear p) (eq : t.calls = s.calls) :
    t.Clear p := by
  intro frame
  rw [eq]
  exact h frame

/-! ## Pending calls -/

namespace Machine

variable {m : Machine} {s t : State}

theorem visit_clear {p : Program} {inner : State → StepResult} {name : String}
    (hin : ∀ s, s.Clear p → (stateOf (inner s)).Clear p) (v : Visit) (h : s.Clear p) :
    (stateOf (m.visit inner name v s)).Clear p := by
  refine visit_induction (P := fun s x => s.Clear p → (stateOf x).Clear p) ?_ ?_ ?_ v s h
  · intro s r console clear
    exact clear.of_calls (Exec.Stays.answered (s := { s with console }) name r).calls
  · exact fun _ _ _ keeps => keeps
  · exact fun s _ keeps clear => keeps (hin s clear)

theorem stepsFrom_clear {p : Program} {inner : State → StepResult}
    (hin : ∀ s, s.Clear p → (stateOf (inner s)).Clear p) {v : Visit} (h : s.Clear p)
    (steps : m.StepsFrom inner v s t) : t.Clear p := by
  induction steps with
  | now => exact h
  | later step _ _ ih =>
    have next := hin _ h
    rw [step] at next
    exact ih next
  | used _ ih => exact ih h

theorem stepWithin_clear (hp : m.program.Feeds) (depth : Nat) (h : s.Clear m.program) :
    (stateOf (m.stepWithin depth s)).Clear m.program := by
  induction depth generalizing s with
  | zero => exact h
  | succ depth ih =>
    cases hi : m.program.code[s.pc]? with
    | none =>
      rw [stepWithin_of_none hi]
      exact h
    | some i =>
      cases hb : m.exhausted? s.steps with
      | some budget =>
        rw [stepWithin, hi]
        simp only [dispatch, hb]
        exact h
      | none =>
        obtain ⟨t, moves, result⟩ := @stepWithin_moves m s depth i hi hb
        have clear : t.Clear m.program := by
          cases moves with
          | onward onward => exact h.of_calls onward.calls
          | enters call _ calls =>
            intro frame
            rw [calls, List.mem_cons]
            rintro (rfl | mem)
            · exact hp.succ hi (by rw [call]; simp)
            · exact h frame mem
          | leaves _ calls =>
            intro frame mem
            have before : (counted s).calls = s.calls := rfl
            rw [before] at calls
            exact h frame (by rw [calls]; exact List.mem_cons_of_mem _ mem)
          | exits _ eq => exact h.of_calls (by rw [eq]; rfl)
          | @nests name argc _ args u visit _ _ taken visits =>
            have took := Exec.Stays.takeArguments (s := counted s) name argc
            unfold Exec.Stays at took
            rw [taken] at took
            rw [visits]
            exact visit_clear (fun _ => ih) (visit args) (h.of_calls took.calls)
        rcases result with ok | ⟨fault, error⟩
        · rw [ok]
          exact clear
        · rw [error]
          exact clear

theorem runFor_clear (hp : m.program.Feeds) (fuel : Nat) (h : s.Clear m.program) :
    (stateOf (m.runFor fuel s)).Clear m.program := by
  induction fuel generalizing s with
  | zero => exact h
  | succ fuel ih =>
    have next : (stateOf (m.step s)).Clear m.program := stepWithin_clear hp nesting h
    rw [runFor]
    split
    · cases hs : m.step s with
      | ok _ t =>
        rw [hs] at next
        exact ih next
      | error e t =>
        rw [hs] at next
        exact next
    · exact h

theorem run_clear (hp : m.program.Feeds) (fuel : Nat) (h : s.Clear m.program) :
    (stateOf (m.run fuel s)).Clear m.program := by
  rw [run_eq]
  split
  · rw [stateOf_reported]
    exact runFor_clear hp fuel h
  · exact h

/-- Whatever a machine is used for, its calls return behind the instructions that made them. -/
theorem Session.clear {console : Console} (h : Session console m s) (hp : m.program.Feeds) :
    s.Clear m.program := by
  induction h with
  | start => exact fun frame mem => by cases mem
  | step _ ih => exact stepWithin_clear hp _ (ih hp)
  | run fuel _ ih => exact run_clear hp fuel (ih hp)
  | configure _ _ ih => exact ih hp
  | exchange _ _ ih => exact (ih hp).of_calls rfl
  | stop _ ih => exact (ih hp).of_calls rfl
  | @hand _ s name argc _ ih =>
    have took := Exec.Stays.takeArguments (s := counted s) name argc
    exact (ih hp).of_calls took.calls
  | @answer _ s name r _ ih =>
    have stays := Exec.Stays.answered (s := s) name r
    exact (ih hp).of_calls stays.calls

theorem Reaches.session {console : Console} (h : m.Reaches console s) : m.Session console s := by
  induction h with
  | start => exact .start m
  | step _ hs ih =>
    have next := ih.step
    rw [hs] at next
    exact next

/-! ## Where a result is taken -/

/-- The instruction that a step dispatches closes a scope, and its result is what is left. -/
structure Closes (m : Machine) (u t : State) : Prop where
  op : ∃ i, m.program.code[u.pc]? = some i ∧ i.op = .closeScope
  pc : t.pc = u.pc + 1
  result : ∃ scope rest, u.scopes = scope :: rest ∧ t.result = scope.result

/-- Only the end of a scope leads a machine to where a result is taken, and it leaves that result,
also if a function of the host has taken the step. -/
theorem stepWithin_fresh (hp : m.program.Feeds) {depth : Nat} (clear : s.Clear m.program)
    (step : m.stepWithin depth s = .ok () t) (running : t.running = true)
    (takes : m.program.TakesAt t.pc) : ∃ u, m.DispatchesWithin depth s u ∧ m.Closes u t := by
  induction depth generalizing s t with
  | zero =>
    cases step
    cases running
  | succ depth ih =>
    cases hi : m.program.code[s.pc]? with
    | none =>
      rw [stepWithin_of_none hi] at step
      cases step
      cases running
    | some i =>
      cases hb : m.exhausted? s.steps with
      | some budget =>
        rw [stepWithin, hi] at step
        simp only [dispatch, hb] at step
        cases step
      | none =>
        by_cases closes : i.op = .closeScope
        · rw [stepWithin, hi] at step
          simp only [dispatch, hb, closes, execute, Exec.run_bind, Exec.run_closeScope] at step
          cases hs : s.scopes with
          | nil =>
            rw [hs] at step
            cases step
          | cons scope rest =>
            rw [hs] at step
            cases step
            exact ⟨s, .here depth s, ⟨i, hi, closes⟩, rfl, scope, rest, hs, rfl⟩
        · have run := execute_of_stepWithin hi step
          have moves : m.Moves (m.stepWithin depth) i.op (counted s) t := by
            have moves := m.execute_moves (m.stepWithin depth) i.op (counted s)
            rwa [run] at moves
          cases moves with
          | onward onward =>
            rcases onward.pc with pc | ⟨label, _, resolves⟩
            · change t.pc = s.pc + 1 at pc
              rw [pc] at takes
              exact absurd takes (hp.succ hi closes)
            · exact absurd takes (hp.resolve resolves)
          | enters _ resolves => exact absurd takes (hp.resolve resolves)
          | leaves _ calls pc =>
            rw [pc] at takes
            have before : (counted s).calls = s.calls := rfl
            rw [before] at calls
            exact absurd takes (clear _ (by rw [calls]; exact List.mem_cons_self))
          | exits _ eq =>
            rw [eq] at running
            cases running
          | @nests name argc _ args u visit call host taken _ =>
            have took := Exec.Stays.takeArguments (s := counted s) name argc
            unfold Exec.Stays at took
            rw [taken] at took
            have visited : m.visit (m.stepWithin depth) name (visit args) u = .ok () t := by
              rw [call] at run
              simpa only [execute, host, Exec.run_bind, taken, callHost] using run
            obtain ⟨pc, -⟩ | ⟨w, x, steps, stepped, going, pc, same⟩ :=
              visit_last (fun _ _ _ => running_of_stepWithin_error) visited running
            · rw [pc, show u.pc = s.pc + 1 from took.pc] at takes
              exact absurd takes (hp.succ hi closes)
            · have clear : w.Clear m.program := stepsFrom_clear
                (fun _ => stepWithin_clear hp depth) (clear.of_calls took.calls) steps
              obtain ⟨z, dispatches, closed⟩ := ih clear stepped going (pc ▸ takes)
              obtain ⟨scope, rest, scopes, eq⟩ := closed.result
              exact ⟨z, .nested hi call host taken steps dispatches, closed.op, pc.trans closed.pc,
                scope, rest, scopes, same.trans eq⟩

/-! ## Runs without the last result -/

/-- The same result, but for the last result of the machine. -/
def forgetting {ε α : Type} : EStateM.Result ε State α → EStateM.Result ε State α
  | .ok a s => .ok a { s with result := none }
  | .error e s => .error e { s with result := none }

theorem forgetting_reported (r : StepResult) :
    forgetting (reported r) = reported (forgetting r) := by
  cases r <;> rfl

theorem forgetting_eq_of_abreast {s t : State} (h : Abreast Eq Eq False s t) :
    { t with result := none } = { s with result := none } := by
  have calls : s.calls = t.calls := by
    rw [← List.forall₂_eq_eq_eq]
    refine h.calls.imp fun f g ⟨returns, returnTo⟩ => ?_
    cases f
    cases g
    simp_all
  simp only [← h.pc, ← calls, h.running, h.steps, h.scopes, h.waiting, h.incoming, h.console]

theorem forgetting_eq_of_paired {r r' : StepResult} {p : Program}
    (h : Paired (Follows p Eq Eq) (fun _ => Follows p Eq Eq) r r') :
    forgetting r' = forgetting r := by
  obtain ⟨_, s, t, rfl, rfl, next⟩ | ⟨e, s, t, rfl, rfl, failed⟩ := h.cases
  · exact congrArg (EStateM.Result.ok ()) (forgetting_eq_of_abreast next.abreast)
  · exact congrArg (EStateM.Result.error e) (forgetting_eq_of_abreast failed.abreast)

/-- Where no result is taken, the last one makes no difference to a step and to a run. -/
theorem forgetting_result (hp : m.program.Feeds) (clear : s.Clear m.program)
    (here : ¬m.program.TakesAt s.pc) (r : Option Value) :
    forgetting (m.step { s with result := r }) = forgetting (m.step s) ∧
      ∀ fuel, forgetting (m.run fuel { s with result := r }) = forgetting (m.run fuel s) := by
  have itself : Lockstep m m Eq Eq :=
    ⟨rfl, .refl _ _, rfl, hp, .refl _, fun _ _ eq => eq, fun _ _ eq => congrArg (· + 1) eq⟩
  have inStep : InStep m.program Eq s { s with result := r } := by
    refine ⟨rfl, List.forall₂_same.2 fun frame mem => ⟨rfl, rfl, clear frame mem⟩,
      rfl, rfl, rfl, rfl, rfl, rfl, fun takes => absurd takes here⟩
  refine ⟨forgetting_eq_of_paired (itself.stepWithin nesting inStep),
    fun fuel => ?_⟩
  have ran := forgetting_eq_of_paired (itself.runFor fuel (itself.follows inStep))
  rw [run_eq, run_eq]
  dsimp only
  split
  · rw [forgetting_reported, forgetting_reported, ran]
  · rfl

end Machine

/-- In compiled code a result is taken right behind the end of a scope, at no label, and where no
call ever returns to. So in every run, whatever the host does, what is taken is the result of the
scope that the step before has closed, if that scope has one; and where none is taken, the last
result makes no difference to how a machine goes on. -/
theorem result_fresh {functions : List Function} {isHost : String → Bool} {p : Program}
    (h : compile functions isHost = .ok p) :
    (∀ pc i, p.code[pc]? = some i → i.op.takesResult = true →
      i.label = none ∧ ∃ n j, pc = n + 1 ∧ p.code[n]? = some j ∧ j.op = .closeScope) ∧
    ∀ (m : Machine) (console : Console), m.program = p →
      (∀ s, m.Session console s → ∀ frame ∈ s.calls, ¬p.TakesAt frame.returnTo) ∧
      (∀ t, m.Reaches console t → t.running = true → p.TakesAt t.pc →
        ∃ s u scope rest, m.Reaches console s ∧ m.step s = .ok () t ∧ m.Dispatches s u ∧
          (∃ i, p.code[u.pc]? = some i ∧ i.op = .closeScope) ∧ u.scopes = scope :: rest ∧
          t.pc = u.pc + 1 ∧ t.result = scope.result ∧ (m.host.Direct → u = s)) ∧
      ∀ s, m.Session console s → ¬p.TakesAt s.pc → ∀ r : Option Value,
        Machine.forgetting (m.step { s with result := r }) = Machine.forgetting (m.step s) ∧
        ∀ fuel, Machine.forgetting (m.run fuel { s with result := r }) =
          Machine.forgetting (m.run fuel s) := by
  have hp := compiled_of_compile h
  refine ⟨fun pc i hi takes => hp.fed hi takes, ?_⟩
  rintro m console rfl
  have feeds := hp.feeds
  refine ⟨fun s hs => hs.clear feeds, fun t ht running takes => ?_, fun s hs here => ?_⟩
  · cases ht with
    | start =>
      obtain ⟨call, _, _⟩ := hp.start_code
      obtain ⟨i, hi, takes⟩ := takes
      rw [show (m.start console).pc = m.program.entry from rfl, call] at hi
      cases hi
      cases takes
    | @step s _ hs step =>
      obtain ⟨u, dispatches, closes⟩ :=
        Machine.stepWithin_fresh feeds (hs.session.clear feeds) step running takes
      obtain ⟨scope, rest, scopes, result⟩ := closes.result
      exact ⟨s, u, scope, rest, hs, step, dispatches, closes.op, scopes, closes.pc, result,
        fun direct => dispatches.eq_of_direct direct⟩
  · exact Machine.forgetting_result feeds (hs.clear feeds) here

/-- The depth of four calls is about to be handed back, and it is the result of the scope just
closed. Where the last of these calls is entered, nobody looks for a result. -/
theorem result_fresh_descent :
    ∃ (m : Machine) (s t : State), compile descent m.host.contains = .ok m.program ∧
      m.Reaches (.ofInput [] none) t ∧ t.running = true ∧ m.program.TakesAt t.pc ∧
      (∃ (u : State) (scope : Scope) (rest : Scopes), u.scopes = scope :: rest ∧
        t.pc = u.pc + 1 ∧ scope.result = some (.int 4)) ∧
      m.Session (.ofInput [] none) s ∧ ¬m.program.TakesAt s.pc ∧
      ∀ r : Option Value, Machine.forgetting (m.run 20 { s with result := r }) =
        Machine.forgetting (m.run 20 s) := by
  obtain ⟨p, s, t, hp, toCall, toReturn, entered, handing, running, value⟩ :
      ∃ p s t, compile descent depthHost.contains = .ok p ∧
        Machine.runFor ⟨p, depthHost, none⟩ 40 (.initial p.entry (.ofInput [] none)) = .ok () s ∧
        Machine.runFor ⟨p, depthHost, none⟩ 52 (.initial p.entry (.ofInput [] none)) = .ok () t ∧
        p.code[s.pc]?.map (·.op) = some (.marker .function) ∧
        p.code[t.pc]?.map (·.op) = some .handBack ∧ t.running = true ∧
        t.result = some (.int 4) := ⟨_, _, _, rfl, rfl, rfl, rfl, rfl, rfl, rfl⟩
  let m : Machine := ⟨p, depthHost, none⟩
  have reached : m.Reaches (.ofInput [] none) t := Machine.Reaches.start.runFor toReturn
  have session : m.Session (.ofInput [] none) s :=
    Machine.Reaches.session (Machine.Reaches.start.runFor toCall)
  have takes : p.TakesAt t.pc := by
    obtain ⟨i, hi, op⟩ := Option.map_eq_some_iff.1 handing
    exact ⟨i, hi, by rw [op]; rfl⟩
  have here : ¬p.TakesAt s.pc := by
    rintro ⟨i, hi, takes⟩
    have op : i.op = .marker .function := by simpa [hi] using entered
    rw [op] at takes
    cases takes
  obtain ⟨_, fresh⟩ := result_fresh hp
  obtain ⟨_, taken, same⟩ := fresh m (.ofInput [] none) rfl
  obtain ⟨_, u, scope, rest, _, _, _, _, scopes, pc, result, _⟩ := taken t reached running takes
  exact ⟨m, s, t, hp, reached, running, takes, ⟨u, scope, rest, scopes, pc, result ▸ value⟩,
    session, here, fun r => (same s session here r).2 20⟩

end StackScript
