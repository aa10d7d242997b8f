import StackScript.Proofs.Steps

/-!
# Variables hold values of their types

* `Scopes.perform`: what can be done to scopes, and `Scopes.afterAll`, one thing after the other;
* `Scopes.Typed.afterAll`: nothing of that gives a variable a value of another type;
* `Machine.Session`: the states of a machine in use, by anyone and for anything;
* `Machine.Session.leads`: its scopes change by such operations only;
* `variables_typed`: so all variables are of their types, in scopes and in machines.
-/

namespace StackScript

namespace Scopes

/-- Every variable of every scope, visible or not, holds a value of the type it was declared
with. -/
def Typed (ss : Scopes) : Prop :=
  ∀ s ∈ ss, ∀ v ∈ s.vars, v.2.value.ty = v.2.ty

/-- What can be done to scopes. -/
inductive Operation
  | opening (final : Bool)
  | closing
  | push (v : Value)
  | pop
  | pushBelow (v : Value)
  | popBelow
  | assign (name : String) (v : Value) (ty : Option Ty)
  /-- Changes the items of a visible array where they are. -/
  | edit (name : String) (change : List Value → List Value)

/-- The scopes that an operation leaves, unless it fails. -/
def perform (ss : Scopes) : Operation → Except Fault Scopes
  | .opening final => .ok (ss.opened final)
  | .closing => do return (← ss.close).2
  | .push v => ss.push v
  | .pop => do return (← ss.pop).2
  | .pushBelow v => ss.pushBelow v
  | .popBelow => do return (← ss.popBelow).2
  | .assign name v ty => ss.assign name v ty
  | .edit name change => do return ss.setItems name (change (← ss.items name))

/-- An operation that fails leaves the scopes as they are. -/
def after (ss : Scopes) (op : Operation) : Scopes :=
  match ss.perform op with
  | .ok ss' => ss'
  | .error _ => ss

def afterAll (ss : Scopes) (ops : List Operation) : Scopes :=
  ops.foldl after ss

/-! ## Types are kept -/

namespace Typed

variable {ss ss' : Scopes} {s : Scope} {name : String} {b : Binding}

theorem of_vars (h : ss.Typed) (same : ss'.map Scope.vars = ss.map Scope.vars) : ss'.Typed := by
  intro s' hs' v hv
  have mem : s'.vars ∈ ss.map Scope.vars := same ▸ List.mem_map_of_mem hs'
  obtain ⟨s, hs, eq⟩ := List.mem_map.1 mem
  exact h s hs v (eq ▸ hv)

theorem get? (h : ss.Typed) (hb : ss.get? name = some b) : b.value.ty = b.ty := by
  induction ss with
  | nil => cases hb
  | cons s ss ih =>
    obtain ⟨hs, hss⟩ := List.forall_mem_cons.1 h
    unfold Scopes.get? at hb
    split at hb
    · rename_i own
      cases hb
      obtain ⟨before, later, eq, _⟩ := List.lookup_eq_some_iff.1 own
      exact hs (name, b) (by simp [eq])
    · split at hb
      · cases hb
      · exact ih hss hb

theorem replace (h : ss.Typed) (fits : b.value.ty = b.ty) : (ss.replace name b).Typed := by
  induction ss with
  | nil => exact h
  | cons s ss ih =>
    obtain ⟨hs, hss⟩ := List.forall_mem_cons.1 h
    unfold Scopes.replace
    split
    · refine List.forall_mem_cons.2 ⟨fun v hv => ?_, hss⟩
      obtain ⟨w, hw, rfl⟩ := List.mem_map.1 hv
      split
      · exact fits
      · exact hs w hw
    · split
      · exact h
      · exact List.forall_mem_cons.2 ⟨hs, ih hss⟩

theorem declare (h : ss.Typed) (fits : b.value.ty = b.ty) (hd : ss.declare name b = .ok ss') :
    ss'.Typed := by
  cases ss with
  | nil => cases hd
  | cons s ss =>
    cases hd
    obtain ⟨hs, hss⟩ := List.forall_mem_cons.1 h
    exact List.forall_mem_cons.2 ⟨List.forall_mem_cons.2 ⟨fits, hs⟩, hss⟩

theorem assign {v : Value} {ty : Option Ty} (h : ss.Typed) (ha : ss.assign name v ty = .ok ss') :
    ss'.Typed := by
  rw [Scopes.assign_eq] at ha
  unfold Value.check at ha
  cases hn : ss.get? name with
  | some old =>
    by_cases fits : v.ty = ty.getD old.ty
    · simp only [hn, fits, if_true] at ha
      cases ha
      exact h.replace fits
    · simp only [hn, fits, if_false] at ha
      cases ha
  | none =>
    cases ty with
    | none =>
      simp only [hn] at ha
      cases ha
    | some ty =>
      by_cases fits : v.ty = ty
      · simp only [hn, fits, if_true] at ha
        exact h.declare fits ha
      · simp only [hn, fits, if_false] at ha
        cases ha

/-- Only what is an array gets items, and it stays one. -/
theorem setItems {items items' : List Value} (h : ss.Typed) (hi : ss.items name = .ok items) :
    (ss.setItems name items').Typed := by
  unfold Scopes.items at hi
  unfold Scopes.setItems
  split at hi
  · rename_i old ty hn
    have isArray : Ty.array = ty := h.get? hn
    rw [hn]
    exact h.replace isArray
  · cases hi
  · cases hi

theorem perform {op : Operation} (h : ss.Typed) (hp : ss.perform op = .ok ss') : ss'.Typed := by
  cases op with
  | opening final =>
    cases hp
    exact List.forall_mem_cons.2 ⟨by simp [Scope.new], h⟩
  | closing =>
    cases ss with
    | nil => cases hp
    | cons s ss =>
      cases hp
      exact (List.forall_mem_cons.1 h).2
  | push v =>
    cases ss with
    | nil => cases hp
    | cons s ss =>
      cases hp
      exact h.of_vars rfl
  | pop =>
    rcases ss with _ | ⟨⟨_ | ⟨v, stack⟩, vars, final⟩, ss⟩ <;> cases hp
    exact h.of_vars rfl
  | pushBelow v =>
    rcases ss with _ | ⟨s, _ | ⟨below, ss⟩⟩ <;> cases hp
    exact h.of_vars rfl
  | popBelow =>
    rcases ss with _ | ⟨s, _ | ⟨⟨_ | ⟨v, stack⟩, vars, final⟩, ss⟩⟩ <;> cases hp
    exact h.of_vars rfl
  | assign name v ty => exact h.assign hp
  | edit name change =>
    cases hi : ss.items name with
    | error f => simp [Scopes.perform, hi, Bind.bind, Except.bind] at hp
    | ok items =>
      simp only [Scopes.perform, hi, Bind.bind, Except.bind] at hp
      cases hp
      exact h.setItems hi

theorem after (h : ss.Typed) (op : Operation) : (ss.after op).Typed := by
  unfold Scopes.after
  split
  · rename_i hp
    exact h.perform hp
  · exact h

theorem afterAll (h : ss.Typed) (ops : List Operation) : (ss.afterAll ops).Typed := by
  induction ops generalizing ss with
  | nil => exact h
  | cons op ops ih => exact ih (h.after op)

end Typed

end Scopes

/-! ## Machines -/

/-- Operations lead from scopes to scopes. -/
def Scopes.Leads (ss ss' : Scopes) : Prop := ∃ ops, ss' = ss.afterAll ops

namespace Scopes.Leads

variable {ss ss' ss'' : Scopes}

theorem refl (ss : Scopes) : ss.Leads ss := ⟨[], rfl⟩

theorem trans (h : ss.Leads ss') (h' : ss'.Leads ss'') : ss.Leads ss'' := by
  obtain ⟨ops, rfl⟩ := h
  obtain ⟨ops', rfl⟩ := h'
  exact ⟨ops ++ ops', (List.foldl_append ..).symm⟩

theorem one (op : Operation) : ss.Leads (ss.after op) := ⟨[op], rfl⟩

end Scopes.Leads

namespace Exec

variable {α β : Type} {s : State}

/-- From `s`, a move changes the scopes by operations only. -/
def Operates (x : Exec α) (s : State) : Prop := s.scopes.Leads (stateOf (x s)).scopes

namespace Operates

theorem of_eq {x : Exec α} (h : (stateOf (x s)).scopes = s.scopes) : x.Operates s := by
  rw [Operates, h]
  exact .refl _

theorem of_after {x : Exec α} (op : Scopes.Operation)
    (h : (stateOf (x s)).scopes = s.scopes.after op) : x.Operates s := by
  rw [Operates, h]
  exact .one op

theorem pure (a : α) : (pure a : Exec α).Operates s := .of_eq rfl

theorem throw (f : Fault) : (throw f : Exec α).Operates s := .of_eq rfl

theorem bind {x : Exec α} {f : α → Exec β} (h : x.Operates s)
    (hf : ∀ a t, x s = .ok a t → (f a).Operates t) : (x >>= f).Operates s := by
  unfold Operates at h ⊢
  rw [run_bind]
  cases hx : x s with
  | ok a t =>
    rw [hx] at h
    exact h.trans (hf a t hx)
  | error e t =>
    rw [hx] at h
    exact h

theorem get_bind {f : State → Exec β} (h : (f s).Operates s) : (get >>= f).Operates s := h

theorem ofExcept (x : Except Fault α) : (ofExcept x).Operates s := by
  cases x with
  | ok a => exact .pure a
  | error f => exact .throw f

theorem onScopes (op : Scopes.Operation) : (onScopes (·.perform op)).Operates s := by
  refine .of_after op ?_
  rw [run_onScopes, Scopes.after]
  cases s.scopes.perform op <;> rfl

theorem assign (name : String) (v : Value) (ty : Option Ty) :
    (Exec.assign name v ty).Operates s := by
  rw [assign_eq]
  exact .onScopes (.assign name v ty)

theorem push (v : Value) : (Exec.push v).Operates s := .onScopes (.push v)

theorem pop : Exec.pop.Operates s := by
  refine .of_after .pop ?_
  rw [run_pop]
  rcases hs : s.scopes with _ | ⟨⟨_ | ⟨v, stack⟩, vars, final⟩, rest⟩
  · exact hs
  · exact hs
  · rfl

theorem closeScope : Exec.closeScope.Operates s := by
  refine .of_after .closing ?_
  rw [run_closeScope]
  rcases hs : s.scopes with _ | ⟨scope, rest⟩
  · exact hs
  · rfl

theorem lookup (name : String) : (Exec.lookup name).Operates s := by
  refine .of_eq ?_
  rw [run_lookup]
  cases s.scopes.lookup name <;> rfl

theorem takeResult : Exec.takeResult.Operates s := by
  refine .of_eq ?_
  rw [run_takeResult]
  cases s.result <;> rfl

theorem takeIncoming (name : String) : (Exec.takeIncoming name).Operates s := by
  refine .of_eq ?_
  rw [run_takeIncoming]
  cases s.incoming <;> rfl

theorem takeArguments (name : String) (argc : Nat) : (Exec.takeArguments name argc).Operates s := by
  refine .of_eq ?_
  rw [run_takeArguments]
  split <;> rfl

theorem jump (m : Machine) (label : String) : (m.jump label).Operates s := by
  refine .of_eq ?_
  rw [Machine.run_jump]
  cases m.program.resolve label <;> rfl

theorem rangeBounds (name : String) : (Machine.rangeBounds name).Operates s := by
  have int {s : State} (name : String) : (Machine.rangeBounds.int name).Operates s := by
    refine (lookup name).bind fun v t _ => ?_
    cases v with
    | int n => exact .pure n
    | _ => exact .throw _
  exact (int name).bind fun _ _ _ => (int _).bind fun _ _ _ => .pure _

theorem answered (name : String) (r : Except HostError (Option Value)) :
    (Machine.answered name r).Operates s := by
  rcases r with e | _ | v
  · exact .throw _
  · exact .pure ()
  · exact .push v

end Operates

end Exec

namespace Machine

variable {m : Machine} {inner : State → StepResult} {s : State}

theorem callHost_operates (hin : ∀ s : State, s.scopes.Leads (stateOf (inner s)).scopes)
    (name : String) (f : HostFunction) (args : List Value) :
    (m.callHost inner name f args).Operates s :=
  callHost_induction (P := fun s x => s.scopes.Leads (stateOf x).scopes)
    (fun s r console => Exec.Operates.answered (s := { s with console }) name r)
    (fun _ _ _ => id) (fun s _ => (hin s).trans) f args s

/-- An element is written into the array that was found. -/
theorem assignItem_operates (name : String) : (m.execute inner (.assignItem name)).Operates s := by
  refine Exec.Operates.takeResult.bind fun v t _ => ?_
  refine Exec.Operates.pop.bind fun index t _ => ?_
  cases hi : t.scopes.items name with
  | error f =>
    refine .of_eq ?_
    simp only [Exec.run_bind, Exec.run_get, hi, Exec.run_ofExcept_error]
    rfl
  | ok items =>
    cases he : elementIndex index items.length with
    | error f =>
      refine .of_eq ?_
      simp only [Exec.run_bind, Exec.run_get, hi, Exec.run_ofExcept_ok, he,
        Exec.run_ofExcept_error]
      rfl
    | ok i =>
      refine .of_after (.edit name fun items => items.set i v) ?_
      simp only [Exec.run_bind, Exec.run_get, hi, Exec.run_ofExcept_ok, he, Exec.run_modify,
        Scopes.after, Scopes.perform]
      rfl

theorem execute_operates (hin : ∀ s : State, s.scopes.Leads (stateOf (inner s)).scopes) (op : Op) :
    (m.execute inner op).Operates s := by
  cases op with
  | marker k => exact .pure ()
  | bindArg ty name =>
    exact (Exec.Operates.takeIncoming name).bind fun v t _ => .assign name v (some ty)
  | assign ty name =>
    exact Exec.Operates.takeResult.bind fun v t _ => .assign name v ty
  | assignItem name => exact assignItem_operates name
  | ret =>
    have closed : (discard Exec.closeScope : Exec Unit).Operates s :=
      Exec.Operates.closeScope.bind fun scope t _ => .pure ()
    refine closed.bind fun _ t _ => .get_bind ?_
    split
    · exact .of_eq rfl
    · exact .throw _
  | handBack =>
    refine Exec.Operates.takeResult.bind fun v t _ => .get_bind ?_
    have pushed {u : State} : (Exec.onScopes (·.pushBelow v)).Operates u :=
      .onScopes (.pushBelow v)
    split
    · exact (Exec.Operates.ofExcept _).bind fun _ u _ => pushed
    · exact pushed
  | openScope => exact .of_after (.opening false) rfl
  | closeScope => exact Exec.Operates.closeScope.bind fun scope t _ => .of_eq rfl
  | push value => exact .push _
  | load name => exact (Exec.Operates.lookup name).bind fun v t _ => .push v
  | pushResult => exact Exec.Operates.takeResult.bind fun v t _ => .push v
  | apply op =>
    refine Exec.Operates.pop.bind fun r t _ => Exec.Operates.pop.bind fun l u _ => ?_
    exact (Exec.Operates.ofExcept _).bind fun v w _ => .push v
  | passArg => exact Exec.Operates.takeResult.bind fun v t _ => .of_eq rfl
  | call name argc returns =>
    simp only [execute]
    split
    · rename_i f _
      exact (Exec.Operates.takeArguments name argc).bind fun args t _ =>
        callHost_operates hin name f args
    · unfold callFunction
      split
      · exact .throw _
      · exact (Exec.Operates.takeArguments name argc).bind fun args t _ =>
          .of_after (.opening true) rfl
  | jumpUnless guard label =>
    refine Exec.Operates.takeResult.bind fun v t _ => ?_
    cases v with
    | bool b =>
      cases b with
      | true => exact .pure ()
      | false => exact .jump m label
    | _ => exact .throw _
  | jump label => exact .jump m label
  | rangeTest name label =>
    refine (Exec.Operates.rangeBounds name).bind fun ends t _ => ?_
    dsimp only
    split
    · exact .jump m label
    · exact .pure ()
  | rangeStep name label =>
    refine (Exec.Operates.rangeBounds name).bind fun ends t _ => ?_
    exact (Exec.Operates.assign name _ none).bind fun _ u _ => .jump m label
  | emptyArray => exact .push _
  | append =>
    refine Exec.Operates.takeResult.bind fun item t _ => Exec.Operates.pop.bind fun v u _ => ?_
    cases v with
    | array items => exact .push _
    | _ => exact .throw _
  | loadItem name =>
    refine Exec.Operates.takeResult.bind fun index t _ => ?_
    refine (Exec.Operates.lookup name).bind fun v u _ => ?_
    cases v with
    | array items => exact (Exec.Operates.ofExcept _).bind fun i w _ => .push _
    | _ => exact .throw _
  | exit => exact .of_eq rfl

theorem dispatch_leads (hin : ∀ s : State, s.scopes.Leads (stateOf (inner s)).scopes) (i : Instr)
    (s : State) : s.scopes.Leads (stateOf (m.dispatch inner i s)).scopes := by
  unfold dispatch
  split
  · exact .refl _
  · have operates : s.scopes.Leads (stateOf (m.execute inner i.op (counted s))).scopes :=
      execute_operates hin i.op
    unfold counted at operates
    split
    · rename_i run
      rw [run] at operates
      exact operates
    · rename_i run
      rw [run] at operates
      exact operates

theorem stepWithin_leads (m : Machine) (depth : Nat) (s : State) :
    s.scopes.Leads (stateOf (m.stepWithin depth s)).scopes := by
  induction depth generalizing s with
  | zero => exact .refl _
  | succ depth ih =>
    unfold stepWithin
    split
    · exact .refl _
    · exact dispatch_leads ih _ s

theorem step_leads (m : Machine) (s : State) : s.scopes.Leads (stateOf (m.step s)).scopes :=
  m.stepWithin_leads _ s

theorem runFor_leads (m : Machine) (fuel : Nat) (s : State) :
    s.scopes.Leads (stateOf (m.runFor fuel s)).scopes := by
  induction fuel generalizing s with
  | zero => exact .refl _
  | succ fuel ih =>
    have step := m.step_leads s
    unfold runFor
    split
    · cases hs : m.step s with
      | ok _ t =>
        rw [hs] at step
        exact step.trans (ih t)
      | error e t =>
        rw [hs] at step
        exact step
    · exact .refl _

theorem run_leads (m : Machine) (fuel : Nat) (s : State) :
    s.scopes.Leads (stateOf (m.run fuel s)).scopes := by
  have run := m.runFor_leads fuel s
  unfold Machine.run
  split
  · cases hs : m.runFor fuel s with
    | ok _ t =>
      rw [hs] at run
      exact run
    | error e t =>
      rw [hs] at run
      exact run
  · exact .refl _

/-- The states of a machine in use. It is stepped and run, also behind a fault and behind its end,
and given other budgets. A function of the host may do all this to the machine that calls it: it is
handed the machine with the arguments of the call taken, and answers when it is done. -/
inductive Session (console : Console) : Machine → State → Prop
  | start (m : Machine) : Session console m (m.start console)
  | step {m : Machine} {s : State} : Session console m s → Session console m (stateOf (m.step s))
  | run {m : Machine} {s : State} (fuel : Nat) : Session console m s →
    Session console m (stateOf (m.run fuel s))
  | configure {m : Machine} {s : State} (budget : Option Nat) : Session console m s →
    Session console { m with budget } s
  | exchange {m : Machine} {s : State} (c : Console) : Session console m s →
    Session console m { s with console := c }
  | hand {m : Machine} {s : State} (name : String) (argc : Nat) : Session console m s →
    Session console m (stateOf (Exec.takeArguments name argc (counted s)))
  | answer {m : Machine} {s : State} (name : String) (r : Except HostError (Option Value)) :
    Session console m s → Session console m (stateOf (answered name r s))
  | stop {m : Machine} {s : State} : Session console m s →
    Session console m { s with running := false }

/-- Whatever a machine is used for, its scopes come from none by operations. -/
theorem Session.leads {console : Console} (h : Session console m s) :
    Scopes.Leads [] s.scopes := by
  induction h with
  | start => exact .one (.opening true)
  | step _ ih => exact ih.trans (step_leads _ _)
  | run fuel _ ih => exact ih.trans (run_leads _ fuel _)
  | configure | exchange | stop => assumption
  | @hand _ s name argc _ ih =>
    have taken : (Exec.takeArguments name argc).Operates (counted s) := .takeArguments name argc
    exact ih.trans taken
  | @answer _ s name r _ ih =>
    have answered : (answered name r).Operates s := .answered name r
    exact ih.trans answered

end Machine

/-- Variables hold values of their declared types: in every state of every machine in use, whatever
its program, host and input, and in scopes that any operations lead to. -/
theorem variables_typed :
    (∀ (m : Machine) (console : Console) (s : State), m.Session console s → s.scopes.Typed) ∧
      ∀ ops : List Scopes.Operation, (Scopes.afterAll [] ops).Typed := by
  have none : Scopes.Typed [] := by simp [Scopes.Typed]
  refine ⟨fun m console s h => ?_, fun ops => none.afterAll ops⟩
  obtain ⟨ops, eq⟩ := h.leads
  rw [eq]
  exact none.afterAll ops

/-- Declares a number, fails to make a text of it, and declares it again behind that fault. -/
def redeclaring : Program where
  code := #[.plain .openScope .none, .plain (.push (.int 5)) .none, .plain .closeScope .none,
    .plain (.assign (some .int) "x") .none, .plain .openScope .none,
    .plain (.push (.string "five")) .none, .plain .closeScope .none,
    .plain (.assign none "x") .none, .plain .openScope .none, .plain (.push (.bool true)) .none,
    .plain .closeScope .none, .plain (.assign (some .bool) "x") .none]
  labels := [("_function.out", 7)]
  entry := 0

theorem variables_typed_redeclaring :
    ∃ (m : Machine) (s : State), m.program = redeclaring ∧ m.Session (.ofInput [] none) s ∧
      s.scopes = [⟨[], [("x", ⟨.bool true, .bool⟩)], true⟩] ∧ s.scopes.Typed ∧
      Scopes.Typed (.afterAll [] [.opening false, .assign "a" (.array []) (some .array),
        .edit "a" fun _ => [.int 1], .assign "a" (.int 1) none]) := by
  -- The run ends with the fault, the second step behind it finds the budget used up.
  have session : Machine.Session (.ofInput [] none) ⟨redeclaring, .standard, none⟩ _ :=
    .step (.step (.step (.configure none (.step (.step (.run 20
      (.start ⟨redeclaring, .standard, some 9⟩)))))))
  exact ⟨_, _, rfl, session, rfl, variables_typed.1 _ _ _ session, variables_typed.2 _⟩

end StackScript
