import StackScript.Proofs.Simulation.Expressions

/-!
# Statements

* `Activation`: what a statement finds below its variables and leaves there, unless it returns;
* `sim_rounds`: a machine that follows each round of a loop follows the loop;
* `sim_exec`, `sim_execBody`: it follows every statement.
-/

namespace StackScript

open Program (codeAt_append codeAt_cons)

/-- A call of a function: where it returns to and what lies below its own scope. -/
structure Activation where
  frame : Frame
  calls : List Frame
  stack : List Value
  below : Scope
  rest : Scopes
  waiting : List Value

namespace Activation

/-- The call is at `pc`, with these variables. -/
def At (a : Activation) (pc : Nat) (env : Env) (c : Console) (s : State) : Prop :=
  ∃ vars, Shows vars env ∧ s.Stands pc (a.frame :: a.calls)
    (⟨a.stack, vars, true⟩ :: a.below :: a.rest) a.waiting c

/-- A statement is left for `pc`, or the call has returned to where it came from. -/
def Leaves (a : Activation) (pc : Nat) : Exit → Console → State → Prop
  | .next env, c, s => a.At pc env c s
  | .returned v, c, s => s.Stands a.frame.returnTo a.calls
    (⟨v.toList ++ a.below.stack, a.below.vars, a.below.final⟩ :: a.rest) a.waiting c

theorem At.at {a : Activation} {pc pc' : Nat} {env : Env} {c : Console} {s : State}
    (h : a.At pc env c s) (eq : pc = pc') : a.At pc' env c s :=
  eq ▸ h

theorem At.running {a : Activation} {pc : Nat} {env : Env} {c : Console} {s : State}
    (h : a.At pc env c s) : s.running = true := by
  obtain ⟨vars, _, hs⟩ := h
  exact hs.running

theorem At.leaves {a : Activation} {pc : Nat} {env : Env} {c : Console} {s : State}
    (h : a.At pc env c s) : a.Leaves pc (.next env) c s := h

theorem Leaves.at {a : Activation} {pc pc' : Nat} {x : Exit} {c : Console} {s : State}
    (h : a.Leaves pc x c s) (eq : pc = pc') : a.Leaves pc' x c s :=
  eq ▸ h

end Activation

section

variable {m : Machine} {sigs : Signatures} {n : Nat} {call : Calls} {a : Activation}

/-- What follows a statement is followed, unless the statement returns. -/
theorem sim_next {f : Env → Eval Exit} {pc goal : Nat} {x : Exit} {c : Console} {s : State}
    (hx : a.Leaves pc x c s) (h : ∀ env, a.At pc env c s → m.Sim n s (a.Leaves goal) (f env c)) :
    m.Sim n s (a.Leaves goal) (x.next? f c) := by
  cases x with
  | next env => exact h env hx
  | returned v => exact .pure hx

/-- A loop is followed if each of its rounds is, and each round is a step at least. -/
theorem sim_rounds {test : Env → Eval Bool} {body : Env → Eval Exit} {head goal : Nat}
    (round : ∀ k < n, ∀ next : Env → Eval Exit,
      (∀ env c s, a.At head env c s → m.Sim k s (a.Leaves goal) (next env c)) →
      ∀ env c s, a.At head env c s → m.Sim (k + 1) s (a.Leaves goal)
        ((do if ← test env then (← body env).next? next else return .next env : Eval Exit) c))
    {k : Nat} (hk : k ≤ n) {env : Env} {c : Console} {s : State} (hs : a.At head env c s) :
    m.Sim k s (a.Leaves goal) (rounds test body k env c) := by
  induction k generalizing env c s with
  | zero => exact .exhausted s _ c
  | succ k ih =>
    rw [rounds]
    exact round k (by omega) _ (fun env c s hs => ih (by omega) hs) env c s hs

/-- A condition goes on behind its jump or takes it. -/
theorem sim_test (hb : m.budget = none) (hc : m.FollowsCalls sigs n call) {env : Env} {e : Expr}
    {base pc goal : Nat} {pos : Position} {guard : Guard} {target : String} {s : State}
    {c : Console} (hcode : m.program.CodeAt base (e.scopedCode sigs))
    (hpc : base + (e.scopedCode sigs).length = pc)
    (hi : m.program.code[pc]? = some (.plain (.jumpUnless guard target) pos))
    (ht : m.program.resolve target = some goal) (hs : a.At base env c s) :
    m.Sim n s (fun b c t => a.At (cond b (pc + 1) goal) env c t)
      (Values.test (Expr.valueOnto call) pos e env c) := by
  subst hpc
  obtain ⟨vars, shows, hs⟩ := hs
  rw [Values.test]
  apply sim_needed hb hc hcode hi rfl hs (shows.sees _)
  intro v c t ht' hr
  exact (ht'.jumpUnless hb hi ht hr).imp fun b c u hu => ⟨vars, shows, hu⟩

theorem Activation.At.marker {k : Marker} {label : Option String} {pos : Position} {pc : Nat}
    {env : Env} {c : Console} {s : State} (hs : a.At pc env c s) (hb : m.budget = none)
    (hi : m.program.code[pc]? = some ⟨.marker k, label, pos⟩) :
    ∃ t, m.step s = .ok () t ∧ a.At (pc + 1) env c t := by
  obtain ⟨vars, shows, hs⟩ := hs
  obtain ⟨t, ht, hs⟩ := hs.marker hb hi
  exact ⟨t, ht, vars, shows, hs⟩

theorem Activation.At.jump {target : String} {goal : Nat} {label : Option String} {pos : Position}
    {pc : Nat} {env : Env} {c : Console} {s : State} (hs : a.At pc env c s) (hb : m.budget = none)
    (hi : m.program.code[pc]? = some ⟨.jump target, label, pos⟩)
    (ht : m.program.resolve target = some goal) :
    ∃ t, m.step s = .ok () t ∧ a.At goal env c t := by
  obtain ⟨vars, shows, hs⟩ := hs
  obtain ⟨t, ht, hs⟩ := hs.jump hb hi ht
  exact ⟨t, ht, vars, shows, hs⟩

/-- Leaving a construct by the marker at its end. -/
theorem Activation.Leaves.marker {k : Marker} {label : Option String} {pos : Position}
    {pc goal : Nat} {x : Exit} {c : Console} {s : State} (hs : a.Leaves pc x c s)
    (hb : m.budget = none) (hi : m.program.code[pc]? = some ⟨.marker k, label, pos⟩)
    (hg : pc + 1 = goal) : ∃ k t, m.Path k s t ∧ a.Leaves goal x c t := by
  cases x with
  | next env =>
    obtain ⟨t, ht, hs'⟩ := Activation.At.marker hs hb hi
    exact ⟨1, t, .step hs.running ht (.refl t), hs'.at hg⟩
  | returned v => exact ⟨0, s, .refl s, hs⟩

/-- What is known of each statement of a body is known of the body. -/
abbrev FollowsBody (m : Machine) (sigs : Signatures) (n : Nat) (call : Calls) (a : Activation)
    (body : List Stmt) : Prop :=
  ∀ {base : Nat} {env : Env} {c : Console} {s : State},
    m.program.CodeAt base (bodyCode sigs base body) → a.At base env c s →
    m.Sim n s (a.Leaves (base + (bodyCode sigs base body).length))
      (execBody (Expr.valueOnto call) a.frame.returns n body env c)

abbrev FollowsStmt (m : Machine) (sigs : Signatures) (n : Nat) (call : Calls) (a : Activation)
    (st : Stmt) : Prop :=
  ∀ {base : Nat} {env : Env} {c : Console} {s : State},
    m.program.CodeAt base (st.code sigs base) → a.At base env c s →
    m.Sim n s (a.Leaves (base + (st.code sigs base).length))
      (st.exec (Expr.valueOnto call) a.frame.returns n env c)

theorem sim_cond (hb : m.budget = none) (hl : m.program.LabelsMatch)
    (hc : m.FollowsCalls sigs n call) (pos : Position) (test : Expr) {body : List Stmt}
    (ih : FollowsBody m sigs n call a body) :
    FollowsStmt m sigs n call a (.cond pos test body) := by
  intro base env c s hcode hs
  simp only [Stmt.code, codeAt_append, codeAt_cons, List.length_append, List.length_cons,
    List.length_nil] at hcode ⊢
  obtain ⟨⟨⟨htest, hjump, _⟩, hbody⟩, hend, _⟩ := hcode
  rw [Stmt.exec]
  apply (sim_test hb hc htest rfl hjump (hl.resolve_eq hend) hs).bind
  intro b c t ht
  cases b with
  | true =>
    apply (ih (hbody.at (by omega)) ht).after
    intro x c u hu
    exact (hu.at (by omega)).marker hb hend (by omega)
  | false =>
    rw [cond_false] at ht
    exact .after (.pure ht.leaves) fun x c u hu => hu.marker hb hend rfl

/-- A loop under a condition: a marker at its head, the condition, the body, a jump back and a
marker behind it. -/
theorem sim_guarded (hb : m.budget = none) (hl : m.program.LabelsMatch)
    (hc : m.FollowsCalls sigs n call) {pos : Position} {test : Expr} {body : Env → Eval Exit}
    {k k' : Marker} {guard : Guard} {start finish : String} {head jump back goal : Nat}
    (hhead : m.program.code[head]? = some (.labeled start (.marker k) pos))
    (htest : m.program.CodeAt (head + 1) (test.scopedCode sigs))
    (hpc : head + 1 + (test.scopedCode sigs).length = jump)
    (hjump : m.program.code[jump]? = some (.plain (.jumpUnless guard finish) pos))
    (hbody : ∀ {env c s}, a.At (jump + 1) env c s → m.Sim n s (a.Leaves back) (body env c))
    (hback : m.program.code[back]? = some (.plain (.jump start) pos))
    (hend : m.program.code[back + 1]? = some (.labeled finish (.marker k') pos))
    (hgoal : back + 2 = goal) {env : Env} {c : Console} {s : State} (hs : a.At head env c s) :
    m.Sim n s (a.Leaves goal)
      (rounds (Values.test (Expr.valueOnto call) pos test) body n env c) := by
  refine sim_rounds (fun k hk next hnext env c s hs => ?_) (Nat.le_refl n) hs
  obtain ⟨t, ht, hs'⟩ := hs.marker hb hhead
  refine .step hs.running ht ?_
  have test := (sim_test hb hc htest hpc hjump (hl.resolve_eq hend) hs').mono (Nat.le_of_lt hk)
  apply test.bind
  intro b c t ht
  cases b with
  | true =>
    apply ((hbody ht).mono (Nat.le_of_lt hk)).bind
    intro x c u hu
    apply sim_next hu
    intro env hu
    exact .silent hu.running (hu.jump hb hback (hl.resolve_eq hhead)) fun w hw => hnext env c w hw
  | false =>
    rw [cond_false] at ht
    exact .after (.pure ht.leaves) fun x c u hu => hu.marker hb hend (by omega)

theorem sim_loop (hb : m.budget = none) (hl : m.program.LabelsMatch)
    (hc : m.FollowsCalls sigs n call) (pos : Position) (test : Expr) {body : List Stmt}
    (ih : FollowsBody m sigs n call a body) :
    FollowsStmt m sigs n call a (.loop pos test body) := by
  intro base env c s hcode hs
  simp only [Stmt.code, codeAt_append, codeAt_cons, List.length_append, List.length_cons,
    List.length_nil] at hcode ⊢
  obtain ⟨⟨⟨⟨⟨hhead, _⟩, htest⟩, hjump, _⟩, hbody⟩, hback, hend, _⟩ := hcode
  rw [Stmt.exec]
  refine sim_guarded hb hl hc hhead (htest.at (by omega)) (by omega) hjump (fun hs => ?_) hback hend
    (by omega) hs
  have body := ih (hbody.at (by omega)) (hs.at (by omega))
  exact body.imp fun _ _ _ hu => hu.at (by omega)

theorem sim_count (hb : m.budget = none) (hl : m.program.LabelsMatch)
    (hc : m.FollowsCalls sigs n call) (pos : Position) {init : Stmt} (test : Expr) {step : Stmt}
    {body : List Stmt} (ihInit : FollowsStmt m sigs n call a init)
    (ihStep : FollowsStmt m sigs n call a step) (ihBody : FollowsBody m sigs n call a body) :
    FollowsStmt m sigs n call a (.count pos init test step body) := by
  intro base env c s hcode hs
  simp only [Stmt.code, codeAt_append, codeAt_cons, List.length_append, List.length_cons,
    List.length_nil] at hcode ⊢
  obtain ⟨⟨⟨⟨⟨⟨hinit, hhead, _⟩, htest⟩, hjump, _⟩, hbody⟩, hstep⟩, hback, hend, _⟩ := hcode
  rw [Stmt.exec]
  apply (ihInit hinit hs).bind
  intro x c t ht
  apply sim_next ht
  intro env ht
  refine sim_guarded hb hl hc hhead (htest.at (by omega)) (by omega) hjump (fun hs => ?_) hback hend
    (by omega) ht
  apply (ihBody (hbody.at (by omega)) (hs.at (by omega))).bind
  intro x c u hu
  refine .imp (sim_next (hu.at ?_) fun env hu => ihStep (hstep.at ?_) hu) fun _ _ _ hw => hw.at ?_
  · rfl
  · omega
  · omega

/-- The value of an expression is assigned. -/
theorem sim_assigned (hb : m.budget = none) (hc : m.FollowsCalls sigs n call) {env : Env} {e : Expr}
    {base pc : Nat} {pos : Position} {ty : Option Ty} {name : String} {s : State} {c : Console}
    (hcode : m.program.CodeAt base (e.scopedCode sigs))
    (hpc : base + (e.scopedCode sigs).length = pc)
    (hi : m.program.code[pc]? = some (.plain (.assign ty name) pos)) (hs : a.At base env c s) :
    m.Sim n s (a.At (pc + 1))
      ((do
        let v ← Values.needed (Expr.valueOnto call) pos e env
        Eval.ofExcept pos (env.assign name v ty) : Eval Env) c) := by
  subst hpc
  obtain ⟨vars, shows, hs⟩ := hs
  exact sim_needed hb hc hcode hi rfl hs (shows.sees _) fun v c t ht hr =>
    ht.assign hb hi shows hr

/-- A range loop: its test at the head, the body, the step back to the test and a marker behind
it. -/
theorem sim_ranged (hb : m.budget = none) (hl : m.program.LabelsMatch) {pos : Position}
    {name : String} {body : Env → Eval Exit} {k : Marker} {start finish : String}
    {head back goal : Nat}
    (hhead : m.program.code[head]? = some (.labeled start (.rangeTest name finish) pos))
    (hbody : ∀ {env c s}, a.At (head + 1) env c s → m.Sim n s (a.Leaves back) (body env c))
    (hback : m.program.code[back]? = some (.plain (.rangeStep name start) pos))
    (hend : m.program.code[back + 1]? = some (.labeled finish (.marker k) pos))
    (hlt : head < back) (hgoal : back + 2 = goal) {env : Env} {c : Console} {s : State}
    (hs : a.At head env c s) :
    m.Sim n s (a.Leaves goal) (rounds (Range.test pos name)
      (fun env => do (← body env).next? (Range.step pos name)) n env c) := by
  refine sim_rounds (fun k hk next hnext env c s ⟨vars, shows, hs⟩ => ?_) (Nat.le_refl n) hs
  have test := hs.rangeTest (n := k + 1) hb hhead (hl.resolve_eq hend) (shows.sees _)
  refine test.bind_moved (fun b c hs' => ?_) fun b c t ht => ?_
  · have stays := hs.pc.symm.trans hs'.pc
    cases b <;> simp only [cond_true, cond_false] at stays <;> omega
  cases b with
  | true =>
    have round := (hbody ⟨vars, shows, ht⟩).mono (Nat.le_of_lt hk)
    rw [if_pos rfl, bind_assoc]
    apply round.bind
    intro x c u hu
    have step : m.Sim k u (a.Leaves head) (x.next? (Range.step pos name) c) :=
      sim_next hu fun env ⟨vars, shows, hu⟩ =>
        (hu.rangeStep hb hback (hl.resolve_eq hhead) shows).imp
          fun x c w ⟨env, vars, eq, shows, hw⟩ => eq ▸ ⟨vars, shows, hw⟩
    exact step.bind fun x c w hw => sim_next hw fun env hw => hnext env c w hw
  | false =>
    rw [cond_false] at ht
    have left : a.At _ env c t := ⟨vars, shows, ht⟩
    exact .after (.pure left.leaves) fun x c u hu => hu.marker hb hend (by omega)

theorem sim_range (hb : m.budget = none) (hl : m.program.LabelsMatch)
    (hc : m.FollowsCalls sigs n call) (pos : Position) (first last : Expr) (name : String)
    {body : List Stmt} (ih : FollowsBody m sigs n call a body) :
    FollowsStmt m sigs n call a (.range pos first last name body) := by
  intro base env c s hcode hs
  simp only [Stmt.code, codeAt_append, codeAt_cons, List.length_append, List.length_cons,
    List.length_nil] at hcode ⊢
  obtain ⟨⟨⟨⟨⟨⟨hfirst, hassign, _⟩, hlast⟩, hbound, _⟩, hhead, _⟩, hbody⟩, hback, hend, _⟩ := hcode
  rw [Stmt.exec, ← bind_assoc]
  apply (sim_assigned hb hc hfirst rfl hassign hs).bind
  intro env c t ht
  rw [← bind_assoc]
  apply (sim_assigned hb hc hlast (by omega) hbound (ht.at (by omega))).bind
  intro env c t ht
  refine sim_ranged hb hl hhead (fun hs => ?_) hback hend (by omega) (by omega) (ht.at (by omega))
  exact (ih (hbody.at (by omega)) (hs.at (by omega))).imp fun _ _ _ hu => hu.at (by omega)

theorem sim_ret (hb : m.budget = none) (hc : m.FollowsCalls sigs n call) (pos : Position)
    (value : Option Expr) : FollowsStmt m sigs n call a (.ret pos value) := by
  intro base env c s hcode ⟨vars, shows, hs⟩
  cases value with
  | none =>
    rw [Stmt.exec]
    exact .silent hs.running (hs.ret hb hcode.head) fun t ht => .pure ht
  | some value =>
    simp only [Stmt.code, codeAt_append, codeAt_cons] at hcode
    obtain ⟨hvalue, hback, hret, _⟩ := hcode
    rw [Stmt.exec]
    apply sim_needed hb hc hvalue hback rfl hs (shows.sees _)
    intro v c t ht hr
    apply (ht.handBack hb hback hr).bind
    intro _ c u hu
    exact .silent hu.running (hu.ret hb hret) fun w hw => .pure hw

theorem sim_assignItem (hb : m.budget = none) (hc : m.FollowsCalls sigs n call) (pos : Position)
    (name : String) (index value : Expr) :
    FollowsStmt m sigs n call a (.assignItem pos name index value) := by
  intro base env c s hcode ⟨vars, shows, hs⟩
  simp only [Stmt.code, codeAt_append, codeAt_cons, List.length_append, List.length_cons,
    List.length_nil] at hcode ⊢
  obtain ⟨⟨⟨hindex, hpush, _⟩, hvalue⟩, hassign, _⟩ := hcode
  rw [Stmt.exec]
  apply sim_needed hb hc hindex hpush rfl hs (shows.sees _)
  intro i c t ht hr
  apply Machine.Sim.silent ht.running (ht.pushResult hb hpush hr)
  intro t ht
  have hassign' : m.program.code[base + ((index.scopedCode sigs).length + (0 + 1)) +
      (value.scopedCode sigs).length]? = some (.plain (.assignItem name) pos) := by
    rwa [Nat.add_assoc]
  refine sim_needed hb hc hvalue hassign' rfl (ht.at (by omega)) (shows.sees _)
    fun v c u hu hr => ?_
  apply (hu.assignItem hb hassign' shows hr).bind
  rintro env c w ⟨vars, shows, hw⟩
  exact .pure ⟨vars, shows, hw.at (by omega)⟩

theorem sim_assign (hb : m.budget = none) (hc : m.FollowsCalls sigs n call) (pos : Position)
    (ty : Option Ty) (name : String) (value : Expr) :
    FollowsStmt m sigs n call a (.assign pos ty name value) := by
  intro base env c s hcode hs
  simp only [Stmt.code, codeAt_append, codeAt_cons, List.length_append, List.length_cons,
    List.length_nil] at hcode ⊢
  obtain ⟨hvalue, hassign, _⟩ := hcode
  rw [Stmt.exec, ← bind_assoc]
  exact (sim_assigned hb hc hvalue rfl hassign hs).bind fun env c t ht => .pure (ht.at (by omega))

theorem sim_call (hb : m.budget = none) (hc : m.FollowsCalls sigs n call) (pos site : Position)
    (name : String) (args : List Expr) :
    FollowsStmt m sigs n call a (.call pos site name args) := by
  intro base env c s hcode ⟨vars, shows, hs⟩
  have whole : (Stmt.call pos site name args).code sigs base =
      (Expr.call pos site name args).scopedCode sigs := by
    rw [Stmt.code, Expr.scopedCode, Expr.code, callCode, Expr.pos]
  rw [whole] at hcode ⊢
  rw [Stmt.exec, Eval.discard_bind]
  exact (sim_value hb hc hcode hs (shows.sees _)).bind fun v c t ht => .pure ⟨vars, shows, ht.1⟩

theorem sim_expr (hb : m.budget = none) (hc : m.FollowsCalls sigs n call) (pos : Position)
    (value : Expr) : FollowsStmt m sigs n call a (.expr pos value) := by
  intro base env c s hcode ⟨vars, shows, hs⟩
  rw [Stmt.code] at hcode ⊢
  rw [Stmt.exec, Eval.discard_bind]
  exact (sim_value hb hc hcode hs (shows.sees _)).bind fun v c t ht => .pure ⟨vars, shows, ht.1⟩

mutual

/-- The machine follows every statement. -/
theorem sim_exec (hb : m.budget = none) (hl : m.program.LabelsMatch)
    (hc : m.FollowsCalls sigs n call) : ∀ st : Stmt, FollowsStmt m sigs n call a st
  | .cond pos test body => sim_cond hb hl hc pos test (sim_execBody hb hl hc body)
  | .loop pos test body => sim_loop hb hl hc pos test (sim_execBody hb hl hc body)
  | .count pos init test step body =>
    sim_count hb hl hc pos test (sim_exec hb hl hc init) (sim_exec hb hl hc step)
      (sim_execBody hb hl hc body)
  | .range pos first last name body =>
    sim_range hb hl hc pos first last name (sim_execBody hb hl hc body)
  | .ret pos value => sim_ret hb hc pos value
  | .assignItem pos name index value => sim_assignItem hb hc pos name index value
  | .assign pos ty name value => sim_assign hb hc pos ty name value
  | .call pos site name args => sim_call hb hc pos site name args
  | .expr pos value => sim_expr hb hc pos value

theorem sim_execBody (hb : m.budget = none) (hl : m.program.LabelsMatch)
    (hc : m.FollowsCalls sigs n call) : ∀ body : List Stmt, FollowsBody m sigs n call a body
  | [] => fun _ hs => by
    rw [execBody]
    exact .pure hs.leaves
  | st :: body => fun hcode hs => by
    simp only [bodyCode, codeAt_append, List.length_append] at hcode ⊢
    obtain ⟨hhead, htail⟩ := hcode
    rw [execBody]
    apply (sim_exec hb hl hc st hhead hs).bind
    intro x c t ht
    apply sim_next ht
    intro env ht
    exact (sim_execBody hb hl hc body htail ht).imp fun _ _ _ hu => hu.at (by omega)

end

end

end StackScript
