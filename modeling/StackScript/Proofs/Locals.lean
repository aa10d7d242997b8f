import StackScript.Proofs.Passage

/-!
# Expressions and the variables around them

The code of an expression binds no variable of the call that it stands in, whatever the calls in it
do, and also where functions of the host step the machine.

* `Scope.bound`: a scope without its stack, which is all that variables depend on;
* `Over`: a machine in an expression, over the scopes that the expression stands in;
* `Over.stepWithin`: a step goes on over the same scopes;
* `Machine.Crosses`: a piece of code is executed from its start to its end;
* `Crosses.get?_eq`: behind an expression every variable is bound as before.
-/

namespace StackScript

/-! ## Scopes without their stacks -/

def Scope.bound (s : Scope) : List (String × Binding) × Bool := (s.vars, s.final)

theorem Scopes.get?_eq_of_bound {ss ss' : Scopes} (h : ss.map Scope.bound = ss'.map Scope.bound)
    (name : String) : ss.get? name = ss'.get? name := by
  induction ss generalizing ss' with
  | nil =>
    cases ss' with
    | nil => rfl
    | cons => cases h
  | cons s rest ih =>
    cases ss' with
    | nil => cases h
    | cons s' rest' =>
      obtain ⟨⟨vars, final⟩, others⟩ : (s.vars = s'.vars ∧ s.final = s'.final) ∧
          rest.map Scope.bound = rest'.map Scope.bound := by simpa [Scope.bound] using h
      simp only [get?, Scope.get?, vars, final, ih others]

/-! ## Machines in an expression -/

/-- An expression in a run: where its code lies, and what it stands in. -/
structure Site where
  expr : Expr
  base : Nat
  calls : List Frame
  scopes : Scopes

/-- A machine at this place of the program, with these calls and scopes, is in the expression or in
a call that is made from there. The expression has opened what its code says, over scopes with the
variables from before, and each call has opened what its own code says. -/
inductive Over (p : Program) (sigs : Signatures) (b : Site) : Nat → List Frame → Scopes → Prop
  | expr {before after : List Instr} {sh : Shape} {ss : Scopes} :
    b.expr.scopedCode sigs = before ++ after → flow before .level = some sh →
    ss.map Scope.bound = List.replicate sh.scopes ([], false) ++ b.scopes.map Scope.bound →
    Over p sigs b (b.base + before.length) b.calls ss
  | call {f : Function} {pc : Nat} {sh : Shape} {own below : Scopes} {frame : Frame}
    {frames : List Frame} : p.Within sigs f pc sh →
    own.map Scope.final = List.replicate sh.scopes false ++ [true] →
    Over p sigs b frame.returnTo frames below → Over p sigs b pc (frame :: frames) (own ++ below)

/-- Before the end of the expression, if not in a call. -/
def State.Before (s : State) (sigs : Signatures) (b : Site) : Prop :=
  s.calls = b.calls → s.pc < b.base + (b.expr.scopedCode sigs).length

namespace Over

variable {p : Program} {sigs : Signatures} {b : Site} {pc : Nat} {frames : List Frame}
  {ss ss' rest : Scopes} {v : Value}

theorem length_le (h : Over p sigs b pc frames ss) : b.calls.length ≤ frames.length := by
  induction h with
  | expr => exact Nat.le_refl _
  | call _ _ _ ih => exact Nat.le_succ_of_le ih

/-- Nothing depends on the stacks. -/
theorem restack {scope scope' : Scope} (h : Over p sigs b pc frames (scope :: rest))
    (same : scope'.bound = scope.bound) : Over p sigs b pc frames (scope' :: rest) := by
  generalize eq : scope :: rest = ss at h
  cases h with
  | expr split shape bound =>
    rw [← eq, List.map_cons, ← same] at bound
    exact .expr split shape bound
  | @call _ _ sh own _ _ _ within finals below =>
    cases own with
    | nil => cases hn : sh.scopes <;> simp [hn, List.replicate_succ] at finals
    | cons top own =>
      cases eq
      rw [List.map_cons, ← show scope'.final = scope.final from congrArg Prod.snd same] at finals
      change Over p sigs b pc _ ((scope' :: own) ++ _)
      exact .call within finals below

theorem push (h : Over p sigs b pc frames ss) (pushed : ss.push v = .ok ss') :
    Over p sigs b pc frames ss' := by
  cases ss with
  | nil => cases pushed
  | cons scope rest =>
    cases pushed
    exact h.restack rfl

end Over

/-! ## Instructions -/

section

variable {m : Machine} {inner : State → StepResult} {s t : State} {op : Op} {sh next : Shape}
  {sigs : Signatures} {below : Scopes}

/-- What an instruction of an expression opens and closes. It binds nothing. -/
theorem Op.InExpr.bound (h : op.InExpr sigs)
    (hc : ∀ name argc returns, op ≠ .call name argc returns) (hf : op.flow sh = some next)
    (hb : below ≠ []) (hs : s.scopes.map Scope.bound =
      List.replicate sh.scopes ([], false) ++ below.map Scope.bound)
    (run : m.execute inner op s = .ok () t) :
    t.pc = s.pc ∧ t.calls = s.calls ∧ t.scopes.map Scope.bound =
      List.replicate next.scopes ([], false) ++ below.map Scope.bound := by
  obtain ⟨⟨stack, vars, final⟩, rest, scopes⟩ : ∃ scope rest, s.scopes = scope :: rest := by
    refine List.exists_cons_of_ne_nil fun none => hb ?_
    rw [none, List.map_nil, eq_comm, List.append_eq_nil_iff, List.map_eq_nil_iff] at hs
    exact hs.2
  -- Values are put on the stack of the innermost scope.
  have takes {k : Nat} (hk : op.takes? = some k) (keeps : op.Keeps) : t.pc = s.pc ∧
      t.calls = s.calls ∧ t.scopes.map Scope.bound =
        List.replicate next.scopes ([], false) ++ below.map Scope.bound := by
    obtain ⟨-, v, result, rfl⟩ := Machine.execute_takes hk scopes run
    rw [Op.flow_eq_of_keeps hf keeps, ← hs, scopes]
    exact ⟨rfl, rfl, rfl⟩
  cases op with
  | push | load | apply | emptyArray | append | loadItem => exact takes rfl trivial
  | openScope =>
    simp only [Op.flow] at hf
    split at hf <;> cases hf
    cases run
    exact ⟨rfl, rfl, congrArg (([], false) :: ·) hs⟩
  | closeScope =>
    simp only [Op.flow] at hf
    split at hf <;> cases hf
    rename_i opened
    obtain ⟨n, hn⟩ := Nat.exists_eq_succ_of_ne_zero (Nat.ne_of_gt opened.2)
    simp only [Machine.execute, Exec.run_bind, Exec.run_closeScope, scopes] at run
    cases run
    rw [scopes, hn, List.replicate_succ, List.map_cons, List.cons_append] at hs
    exact ⟨rfl, rfl, by simpa [hn] using (List.cons.inj hs).2⟩
  | passArg =>
    simp only [Op.flow] at hf
    split at hf <;> cases hf
    obtain ⟨v, _, taken, run⟩ := Exec.bind_eq_ok.1 run
    obtain ⟨-, rfl⟩ := Exec.takeResult_eq_ok.1 taken
    cases run
    exact ⟨rfl, rfl, hs⟩
  | call => exact absurd rfl (hc _ _ _)
  | _ => exact h.elim

variable {own : Scopes}

/-- What an instruction of a call does to the scopes of that call. -/
theorem Op.Local.scopes (h : op.Local) (hf : op.flow sh = some next) (running : s.running = true)
    (ht : ∀ label, op.target? = some label → ∃ goal, m.program.resolve label = some goal)
    (hs : s.scopes = own ++ below)
    (finals : own.map Scope.final = List.replicate sh.scopes false ++ [true])
    (run : m.execute inner op s = .ok () t) :
    t.calls = s.calls ∧ m.Goes op s.pc t.pc ∧ ∃ own', t.scopes = own' ++ below ∧
      own'.map Scope.final = List.replicate next.scopes false ++ [true] := by
  cases op with
  | call | ret | handBack | exit => exact h.elim
  | bindArg ty name =>
    simp only [Op.flow] at hf
    split at hf <;> cases hf
    obtain ⟨v, u, taken, run⟩ := Exec.bind_eq_ok.1 run
    rw [Exec.run_takeIncoming] at taken
    split at taken <;> cases taken
    obtain ⟨ss, assigned, rfl⟩ := Exec.assign_eq_ok.1 run
    have home : true ∈ own.map Scope.final := by simp [finals]
    have kept := Scopes.assign_append home below name v (some ty)
    dsimp only at assigned
    rw [← hs, assigned] at kept
    obtain ⟨own', rfl, same⟩ := kept
    exact ⟨rfl, .inl rfl, own', rfl, same.trans finals⟩
  | openScope =>
    simp only [Op.flow] at hf
    split at hf <;> cases hf
    cases run
    exact ⟨rfl, .inl rfl, .new false :: own, congrArg (_ :: ·) hs, congrArg (false :: ·) finals⟩
  | closeScope =>
    simp only [Op.flow] at hf
    split at hf <;> cases hf
    rename_i opened
    obtain ⟨n, hn⟩ := Nat.exists_eq_succ_of_ne_zero (Nat.ne_of_gt opened.2)
    rw [hn, List.replicate_succ, List.cons_append] at finals
    obtain ⟨scope, own, rfl, -, finals⟩ := List.map_eq_cons_iff.1 finals
    simp only [Machine.execute, Exec.run_bind, Exec.run_closeScope, hs, List.cons_append] at run
    cases run
    exact ⟨rfl, .inl rfl, own, rfl, by simpa [hn] using finals⟩
  | passArg =>
    simp only [Op.flow] at hf
    split at hf <;> cases hf
    obtain ⟨v, _, taken, run⟩ := Exec.bind_eq_ok.1 run
    obtain ⟨-, rfl⟩ := Exec.takeResult_eq_ok.1 taken
    cases run
    exact ⟨rfl, .inl rfl, own, hs, finals⟩
  | _ =>
    obtain rfl := Op.flow_eq_of_keeps hf h
    have holds : s.Holds s.pc ⟨next.scopes, s.waiting.length, s.incoming.length, next.handed⟩
        s.calls below [] :=
      ⟨running, rfl, rfl, ⟨own, hs, finals⟩, ⟨s.waiting, by simp, rfl⟩, rfl⟩
    have safe := holds.execute_keeps (by exact h) ht inner
    rw [Exec.Safe, run] at safe
    obtain ⟨pc, held, goes⟩ := safe
    exact ⟨held.calls, held.pc.symm ▸ goes, held.scopes⟩

end

/-! ## Calls and returns -/

namespace Over

variable {functions : List Function} {m : Machine} {depth : Nat} {s t : State} {b : Site}
  {name : String}

/-- What a function of the host answers binds nothing. -/
theorem answered {sigs : Signatures} {r : Except HostError (Option Value)}
    (h : Over m.program sigs b s.pc s.calls s.scopes)
    (run : Machine.answered name r s = .ok () t) : Over m.program sigs b t.pc t.calls t.scopes := by
  rcases r with e | _ | v
  · cases run
  · cases run
    exact h
  · have run : Exec.onScopes (·.push v) s = .ok () t := run
    obtain ⟨ss, pushed, rfl⟩ := Exec.onScopes_eq_ok.1 run
    exact h.push pushed

/-- The steps that a function of the host takes when it is called go on over the same scopes. -/
def Visits (m : Machine) (sigs : Signatures) (b : Site) (depth : Nat) (op : Op) (s : State) :
    Prop :=
  ∀ {name argc returns visit args u w x}, op = .call name argc returns →
    m.hostFunction? name = some (.visiting visit) →
    Exec.takeArguments name argc s = .ok args u →
    m.StepsFrom (m.stepWithin depth) (visit args) u w → w.running = true →
    Over m.program sigs b w.pc w.calls w.scopes → m.stepWithin depth w = .ok () x →
    x.running = true → Over m.program sigs b x.pc x.calls x.scopes

/-- A function of the host may step the machine before it answers. -/
theorem executes_host {sigs : Signatures} {argc : Nat} {returns : Option Ty} {f : HostFunction}
    (hi : Visits m sigs b depth (.call name argc returns) s) (running : s.running = true)
    (h : Over m.program sigs b s.pc s.calls s.scopes) (hf : m.hostFunction? name = some f)
    (run : m.execute (m.stepWithin depth) (.call name argc returns) s = .ok () t)
    (going : t.running = true) : Over m.program sigs b t.pc t.calls t.scopes := by
  simp only [Machine.execute, hf, Exec.bind_eq_ok] at run
  obtain ⟨args, u, taken, run⟩ := run
  have took : s.Stays u ∧ u.scopes = s.scopes := by
    have stays := Exec.Stays.takeArguments (s := s) name argc
    rw [Exec.Stays, taken] at stays
    rw [Exec.run_takeArguments] at taken
    split at taken <;> cases taken
    exact ⟨stays, rfl⟩
  have start : Over m.program sigs b u.pc u.calls u.scopes := by
    rw [took.1.pc, took.1.calls, took.2]
    exact h
  cases f with
  | direct answer =>
    obtain ⟨r, console, eq⟩ := m.reply_eq name (answer · args) u
    simp only [Machine.callHost, eq] at run
    exact answered (s := { u with console }) start run
  | visiting visit =>
    have before : u.running = true := took.1.running.trans running
    refine Machine.visit_keeps
      (Q := fun x => x.running = true → Over m.program sigs b x.pc x.calls x.scopes)
      (fun _ _ _ => Machine.running_of_stepWithin_error) (fun _ _ h => h)
      (fun x r y h run going => ?_)
      (fun w x steps h step going _ => ?_) (fun _ => start) run going going
    · have stays := Exec.Stays.answered (s := x) name r
      rw [Exec.Stays, run] at stays
      exact answered (h (stays.running.symm.trans going)) run
    · have there := steps.running before
      exact hi rfl hf taken steps there (h there) step going

/-- A call goes on over the same scopes, also if it is of a function of the program. -/
theorem executes_call (hp : Compiled functions m.host.contains m.program) {argc : Nat}
    {returns : Option Ty}
    (hi : Visits m (signatures functions) b depth (.call name argc returns) s)
    (running : s.running = true)
    (h : Over m.program (signatures functions) b s.pc s.calls s.scopes)
    (run : m.execute (m.stepWithin depth) (.call name argc returns) s = .ok () t)
    (going : t.running = true) : Over m.program (signatures functions) b t.pc t.calls t.scopes := by
  cases hf : m.hostFunction? name with
  | some f => exact executes_host hi running h hf run going
  | none =>
    simp only [Machine.execute, hf, Machine.callFunction] at run
    cases target : m.program.resolve (Label.function name) with
    | none =>
      rw [target] at run
      cases run
    | some goal =>
      rw [target] at run
      simp only [Exec.bind_eq_ok, Exec.run_takeArguments] at run
      obtain ⟨args, u, taken, run⟩ := run
      split at taken <;> cases taken
      cases run
      cases hf : functions.find? (·.name = name) with
      | none =>
        rw [hp.resolve_function_eq_none (by simpa using hf)] at target
        cases target
      | some f =>
        obtain ⟨base, resolves, within⟩ := hp.within_entry (List.mem_of_find?_eq_some hf)
        obtain rfl : f.name = name := by simpa using List.find?_some hf
        cases resolves.symm.trans target
        have own : [Scope.new true].map Scope.final = List.replicate 0 false ++ [true] := rfl
        exact .call within own h

/-- A result is handed back onto a stack of the caller. -/
theorem executes_handBack {sigs : Signatures} {frame : Frame} {frames : List Frame}
    {own below : Scopes} (h : Over m.program sigs b frame.returnTo frames below)
    (hs : s.scopes = own ++ below) (finals : own.map Scope.final = [true])
    (run : m.execute (m.stepWithin depth) .handBack s = .ok () t) :
    t.pc = s.pc ∧ t.calls = s.calls ∧ ∃ below', t.scopes = own ++ below' ∧
      Over m.program sigs b frame.returnTo frames below' := by
  obtain ⟨v, _, taken, run⟩ := Exec.bind_eq_ok.1 run
  obtain ⟨-, rfl⟩ := Exec.takeResult_eq_ok.1 taken
  have handed : Exec.onScopes (·.pushBelow v) { s with result := none } = .ok () t := by
    obtain ⟨_, _, ⟨⟩, run⟩ := Exec.bind_eq_ok.1 run
    dsimp only at run
    cases hr : s.calls.head?.bind Frame.returns with
    | none =>
      rw [hr] at run
      exact run
    | some ty =>
      rw [hr] at run
      obtain ⟨_, _, checked, run⟩ := Exec.bind_eq_ok.1 run
      obtain ⟨-, rfl⟩ := Exec.ofExcept_eq_ok.1 checked
      exact run
  obtain ⟨ss, pushed, rfl⟩ := Exec.onScopes_eq_ok.1 handed
  obtain ⟨callee, none, rfl, -, empty⟩ := List.map_eq_cons_iff.1 finals
  obtain rfl := List.map_eq_nil_iff.1 empty
  refine ⟨rfl, rfl, ?_⟩
  dsimp only at pushed ⊢
  rw [hs] at pushed
  cases below with
  | nil => cases pushed
  | cons scope rest =>
    cases pushed
    exact ⟨_, rfl, h.restack rfl⟩

/-- A return goes on in the caller, with the scopes that it has left. -/
theorem executes_ret {sigs : Signatures} {frame : Frame} {frames : List Frame}
    {own below : Scopes} (h : Over m.program sigs b frame.returnTo frames below)
    (hc : s.calls = frame :: frames) (hs : s.scopes = own ++ below)
    (finals : own.map Scope.final = [true])
    (run : m.execute (m.stepWithin depth) .ret s = .ok () t) :
    Over m.program sigs b t.pc t.calls t.scopes := by
  obtain ⟨callee, none, rfl, -, empty⟩ := List.map_eq_cons_iff.1 finals
  obtain rfl := List.map_eq_nil_iff.1 empty
  simp only [Machine.execute, Exec.run_bind, Exec.run_discard, Exec.run_closeScope, hs,
    List.cons_append, List.nil_append, Exec.run_get, hc] at run
  cases run
  exact h

section

variable {op : Op} {label : Option String} {pos : Position}
  (hp : Compiled functions m.host.contains m.program)
  (hi : Visits m (signatures functions) b depth op s)

include hp hi

/-- An instruction of the expression. -/
theorem executes_expr {before after : List Instr} {sh : Shape} (hb : b.scopes ≠ [])
    (split : b.expr.scopedCode (signatures functions) = before ++ ⟨op, label, pos⟩ :: after)
    (shape : flow before .level = some sh) (running : s.running = true)
    (pc : s.pc = b.base + before.length + 1) (calls : s.calls = b.calls)
    (bound : s.scopes.map Scope.bound =
      List.replicate sh.scopes ([], false) ++ b.scopes.map Scope.bound)
    (run : m.execute (m.stepWithin depth) op s = .ok () t) (going : t.running = true) :
    Over m.program (signatures functions) b t.pc t.calls t.scopes := by
  have level := Level.scopedCode (signatures functions) b.expr
  rw [Level, split, flow_append shape, flow_cons] at level
  obtain ⟨next, hf, -⟩ := Option.bind_eq_some_iff.1 level
  have behind {ss : Scopes} (h : ss.map Scope.bound =
      List.replicate next.scopes ([], false) ++ b.scopes.map Scope.bound) :
      Over m.program (signatures functions) b s.pc b.calls ss := by
    have flowed : flow (before ++ [⟨op, label, pos⟩]) .level = some next := by
      rw [flow_append shape, flow_singleton, hf]
    have there := Over.expr (p := m.program) (by rw [split, List.append_cons]) flowed h
    rwa [List.length_append, List.length_singleton, ← Nat.add_assoc, ← pc] at there
  have inExpr : op.InExpr (signatures functions) :=
    (b.expr.scopedCode_inExpr (signatures functions) ⟨op, label, pos⟩ (by rw [split]; simp)).op
  cases op with
  | call name argc returns =>
    simp only [Op.flow] at hf
    split at hf <;> cases hf
    exact executes_call hp hi running (calls ▸ behind bound) run going
  | _ =>
    obtain ⟨pc', calls', bound'⟩ := inExpr.bound (by simp) hf hb bound run
    rw [pc', calls', calls]
    exact behind bound'

/-- An instruction of a call that is made from the expression. -/
theorem executes_inner {f : Function} {pc : Nat} {sh : Shape} {own below : Scopes} {frame : Frame}
    {frames : List Frame} (within : m.program.Within (signatures functions) f pc sh)
    (finals : own.map Scope.final = List.replicate sh.scopes false ++ [true])
    (h : Over m.program (signatures functions) b frame.returnTo frames below)
    (instr : m.program.code[pc]? = some ⟨op, label, pos⟩) (running : s.running = true)
    (hpc : s.pc = pc + 1) (calls : s.calls = frame :: frames) (scopes : s.scopes = own ++ below)
    (run : m.execute (m.stepWithin depth) op s = .ok () t) (going : t.running = true) :
    Over m.program (signatures functions) b t.pc t.calls t.scopes := by
  obtain ⟨i, next, placed, hf, hnext⟩ := within.instr
  obtain rfl := Option.some.inj (instr.symm.trans placed)
  cases op with
  | exit => cases hf
  | ret =>
    obtain ⟨handed, rfl⟩ := Op.flow_ret hf
    exact executes_ret h calls scopes finals run
  | handBack =>
    simp only [Op.flow] at hf
    split at hf <;> cases hf
    rename_i level
    subst level
    obtain ⟨pc', calls', below', scopes', h⟩ := executes_handBack h scopes finals run
    rw [pc', hpc, calls', calls, scopes']
    exact .call (hnext (by simp)) finals h
  | call name argc returns =>
    simp only [Op.flow] at hf
    split at hf <;> cases hf
    have there : Over m.program (signatures functions) b s.pc s.calls s.scopes := by
      rw [hpc, calls, scopes]
      exact .call (hnext (by simp)) finals h
    exact executes_call hp hi running there run going
  | _ =>
    have targets (label : String) (ht : Op.target? _ = some label) :=
      within.resolves hp.labels instr ht
    obtain ⟨calls', goes, own', scopes', finals'⟩ :=
      Op.Local.scopes (by trivial) hf running targets scopes finals run
    rw [calls', calls, scopes']
    refine .call (f := f) ?_ finals' h
    obtain stays | ⟨label, target, resolved⟩ := goes
    · rw [stays, hpc]
      exact hnext (by simp)
    · obtain ⟨goal, resolves, level⟩ := within.target hp.labels instr target
      obtain rfl : goal = _ := Option.some.inj (resolves.symm.trans resolved)
      exact Op.flow_target target hf ▸ level

end

/-! ## Steps -/

theorem executes (hp : Compiled functions m.host.contains m.program) (hb : b.scopes ≠ [])
    (code : m.program.CodeAt b.base (b.expr.scopedCode (signatures functions))) {i : Instr}
    (hi : Visits m (signatures functions) b depth i.op (Machine.counted s))
    (running : s.running = true) (ahead : s.Before (signatures functions) b)
    (h : Over m.program (signatures functions) b s.pc s.calls s.scopes)
    (instr : m.program.code[s.pc]? = some i)
    (run : m.execute (m.stepWithin depth) i.op (Machine.counted s) = .ok () t)
    (going : t.running = true) : Over m.program (signatures functions) b t.pc t.calls t.scopes := by
  obtain ⟨op, label, pos⟩ := i
  generalize hpc : s.pc = pc, hcalls : s.calls = frames, hss : s.scopes = ss at h
  cases h with
  | @expr before after sh _ split shape bound =>
    have lt := ahead hcalls
    rw [hpc, split, List.length_append] at lt
    obtain ⟨i, after, rfl⟩ : ∃ i rest, after = i :: rest :=
      List.exists_cons_of_ne_nil (List.length_pos_iff.1 (by omega))
    rw [split, Program.codeAt_append] at code
    obtain rfl := Option.some.inj ((hpc ▸ instr).symm.trans code.2.head)
    exact executes_expr (s := Machine.counted s) hp hi hb split shape running
      (congrArg (· + 1) hpc) hcalls (hss ▸ bound) run going
  | call within finals h =>
    exact executes_inner (s := Machine.counted s) hp hi within finals h (hpc ▸ instr) running
      (congrArg (· + 1) hpc) hcalls hss run going

/-- A step goes on over the same scopes, however deep functions of the host step the machine, if
none of the instructions that it dispatches is behind the expression. -/
theorem stepWithin (hp : Compiled functions m.host.contains m.program) (hb : b.scopes ≠ [])
    (code : m.program.CodeAt b.base (b.expr.scopedCode (signatures functions)))
    (running : s.running = true)
    (ahead : ∀ u, m.DispatchesWithin depth s u → u.Before (signatures functions) b)
    (h : Over m.program (signatures functions) b s.pc s.calls s.scopes)
    (stepped : m.stepWithin depth s = .ok () t) (going : t.running = true) :
    Over m.program (signatures functions) b t.pc t.calls t.scopes := by
  induction depth generalizing s t with
  | zero =>
    cases stepped
    cases going
  | succ depth ih =>
    cases instr : m.program.code[s.pc]? with
    | none =>
      rw [Machine.stepWithin_of_none instr] at stepped
      cases stepped
      cases going
    | some i =>
      refine executes hp hb code ?_ running (ahead s (.here depth s)) h instr
        (Machine.execute_of_stepWithin instr stepped) going
      intro name argc returns visit args u w x call host taken steps there start step going
      exact ih there (fun z dispatches => ahead z (.nested instr call host taken steps dispatches))
        start step going

end Over

/-! ## Through an expression -/

/-- A running machine that is in this piece of the code on top of these calls, or in a call that is
made from there, and that a function of the host steps nowhere else. -/
def Machine.RunsIn (m : Machine) (calls : List Frame) (lo hi : Nat) (s : State) : Prop :=
  s.running = true ∧ ∀ u, m.Dispatches s u → u.In calls lo hi

namespace Machine.RunsIn

variable {m : Machine} {calls : List Frame} {lo hi : Nat} {s : State}

theorem of_direct (hh : m.host.Direct) (running : s.running = true) (inside : s.In calls lo hi) :
    m.RunsIn calls lo hi s :=
  ⟨running, fun _ dispatches => dispatches.eq_of_direct hh ▸ inside⟩

/-- An instruction that calls nothing is the only one that the step dispatches. -/
theorem of_ne_call {i : Instr} (hi' : m.program.code[s.pc]? = some i)
    (hc : ∀ name argc declared, i.op ≠ .call name argc declared) (running : s.running = true)
    (inside : s.In calls lo hi) : m.RunsIn calls lo hi s :=
  ⟨running, fun _ dispatches => dispatches.eq_of_ne_call hi' hc ▸ inside⟩

theorem inside (h : m.RunsIn calls lo hi s) : s.In calls lo hi := h.2 s (.here m s)

theorem widen {lo' hi' : Nat} (h : m.RunsIn calls lo hi s) (low : lo' ≤ lo) (high : hi ≤ hi') :
    m.RunsIn calls lo' hi' s := by
  refine ⟨h.1, fun u dispatches => ?_⟩
  obtain deeper | ⟨same, above, below⟩ := h.2 u dispatches
  · exact .inl deeper
  · exact .inr ⟨same, Nat.le_trans low above, Nat.lt_of_lt_of_le below high⟩

end Machine.RunsIn

/-- This piece of the code is executed from its start to its end. -/
structure Machine.Crosses (m : Machine) (lo hi : Nat) (s t : State) : Prop where
  along : m.Along (m.RunsIn s.calls lo hi) s t
  running : t.running = true
  pc : t.pc = hi
  calls : t.calls = s.calls

theorem Machine.Crosses.starts {m : Machine} {lo hi : Nat} {s t : State} (h : m.Crosses lo hi s t) :
    s.running = true := by
  obtain ⟨along, running, -, -⟩ := h
  cases along with
  | refl => exact running
  | step here => exact here.1

/-- Its end is behind the piece. -/
theorem Machine.Crosses.past {m : Machine} {lo hi : Nat} {s t : State} (h : m.Crosses lo hi s t) :
    ¬m.RunsIn s.calls lo hi t := by
  intro inside
  have := h.pc
  have := congrArg List.length h.calls
  rcases inside.inside with deeper | ⟨-, -, before⟩ <;> omega

/-- There is one way through a piece of code. -/
theorem Machine.Crosses.unique {m : Machine} {lo hi : Nat} {s t u : State}
    (ht : m.Crosses lo hi s t) (hu : m.Crosses lo hi s u) : t = u :=
  ht.along.unique hu.along ht.past hu.past

/-- Behind an expression, every variable is bound as before. -/
theorem Machine.Crosses.get?_eq {functions : List Function} {m : Machine}
    (hp : Compiled functions m.host.contains m.program) {e : Expr} {s t : State}
    (code : m.program.CodeAt s.pc (e.scopedCode (signatures functions)))
    (h : m.Crosses s.pc (s.pc + (e.scopedCode (signatures functions)).length) s t)
    (hs : s.scopes ≠ []) (name : String) : t.scopes.get? name = s.scopes.get? name := by
  let b : Site := ⟨e, s.pc, s.calls, s.scopes⟩
  have stays {x y : State} (along : m.Along
      (m.RunsIn s.calls s.pc (s.pc + (e.scopedCode (signatures functions)).length)) x y)
      (start : Over m.program (signatures functions) b x.pc x.calls x.scopes)
      (going : y.running = true) :
      Over m.program (signatures functions) b y.pc y.calls y.scopes := by
    induction along with
    | refl => exact start
    | @step x y _ here step later ih =>
      obtain ⟨running, inside⟩ := here
      have ahead (u : State) (dispatches : m.Dispatches x u) :
          u.Before (signatures functions) b := by
        intro home
        rcases inside u dispatches with deeper | ⟨-, -, before⟩
        · rw [home] at deeper
          exact absurd deeper (Nat.lt_irrefl _)
        · exact before
      refine ih (Over.stepWithin hp hs code running ahead start step ?_) going
      cases later with
      | refl => exact going
      | step here => exact here.1
  have start : Over m.program (signatures functions) b s.pc s.calls s.scopes :=
    @Over.expr _ _ b [] (e.scopedCode (signatures functions)) .level _ rfl rfl rfl
  have there := stays h.along start h.running
  generalize hpc : t.pc = pc, hcalls : t.calls = frames, hss : t.scopes = ss at there
  cases there with
  | @expr before after sh _ split shape bound =>
    have length := congrArg List.length split
    have ends := hpc.symm.trans h.pc
    rw [List.length_append] at length
    dsimp only [b] at ends length
    obtain rfl := List.eq_nil_of_length_eq_zero (l := after) (by omega)
    obtain rfl : b.expr.scopedCode (signatures functions) = before := by simpa using split
    rw [show flow _ _ = _ from Level.scopedCode (signatures functions) e] at shape
    cases shape
    exact Scopes.get?_eq_of_bound bound name
  | call _ _ inner =>
    have deep := inner.length_le
    have calls := congrArg List.length (hcalls.symm.trans h.calls)
    rw [List.length_cons] at calls
    dsimp only [b] at deep
    omega

end StackScript
