import StackScript.Proofs.Frames

/-!
# Compiled code fits together

* `Chain`: the calls below the one on top, down to a call that is looked at;
* `Inside.step`: a step from inside that call stays there or returns from it;
* `Sound`: what holds of every state that a compiled program reaches;
* `never_internal`: none of them leads to an internal fault.
-/

namespace StackScript

/-- Functions of this host do not step the machine. -/
def Host.Direct (h : Host) : Prop :=
  ∀ name f, h.get? name = some f → ∃ answer, f = .direct answer

theorem Host.standard_direct : Host.standard.Direct :=
  Host.forall_standard ⟨_, rfl⟩ ⟨_, rfl⟩ ⟨_, rfl⟩

/-! ## Calls and returns -/

section

variable {m : Machine} {s : State} {pc : Nat} {sh : Shape} {calls : List Frame} {below : Scopes}
  {kept : List Value}

/-- A function of the host answers into the innermost scope of its caller. -/
theorem State.Holds.callHost {name : String} {argc : Nat} {returns : Option Ty} {answer : Answer}
    (hs : s.Holds pc sh calls below kept) (h : argc ≤ sh.waiting)
    (hh : m.hostFunction? name = some (.direct answer)) (inner : State → StepResult) :
    (m.execute inner (.call name argc returns)).Safe s
      fun _ t => t.Holds pc { sh with waiting := sh.waiting - argc } calls below kept := by
  have run : m.execute inner (.call name argc returns) =
      (Exec.takeArguments name argc >>= m.callHost inner name (.direct answer)) := by
    simp only [Machine.execute, hh]
  rw [run]
  apply (hs.takeArguments h name).bind
  rintro args t ⟨_, ht, _⟩
  obtain ⟨r, console, run⟩ := m.reply_eq name (answer · args) t
  have answered : { t with console }.Holds pc { sh with waiting := sh.waiting - argc } calls below
      kept := { ht with }
  rcases r with e | _ | v
  · exact .of_run_eq run (.throw id)
  · exact .of_run_eq run (.pure answered)
  · exact .of_run_eq run (answered.push v)

theorem Machine.execute_callFunction {name : String} {argc target : Nat} {returns : Option Ty}
    (ht : m.program.resolve (Label.function name) = some target) (h : argc ≤ s.waiting.length)
    (inner : State → StepResult) :
    m.execute inner (.call name argc returns) s = .ok () { s with
      incoming := (s.waiting.take argc).reverse
      waiting := s.waiting.drop argc
      calls := ⟨s.pc, returns⟩ :: s.calls
      pc := target
      scopes := .new true :: s.scopes } := by
  have enough : ¬s.waiting.length < argc := by omega
  simp [execute, hostFunction?, ht, callFunction, Exec.run_takeArguments, enough, Scopes.opened]

/-- A result is handed to the scope below if it has the type that the call declares. -/
theorem State.Holds.handBack {frame : Frame} {scope : Scope}
    (hs : s.Holds pc .level (frame :: calls) (scope :: below) kept) (inner : State → StepResult) :
    (m.execute inner .handBack).Safe s fun _ t =>
      ∃ v, (∀ ty, frame.returns = some ty → v.ty = ty) ∧
        t.Holds pc ⟨0, 0, 0, true⟩ (frame :: calls) (scope.push v :: below) kept := by
  refine hs.takeResult.bind fun v t ht => .get_bind ?_
  rw [ht.calls, List.head?_cons, Option.bind_some]
  obtain ⟨own, eq, finals⟩ := ht.scopes
  obtain ⟨callee, rfl⟩ : ∃ callee, own = [callee] := by
    have length := congrArg List.length finals
    simp [Shape.level] at length
    exact List.length_eq_one_iff.1 length
  have pushed : (Exec.onScopes (·.pushBelow v)).Safe t fun _ u =>
      u.Holds pc ⟨0, 0, 0, true⟩ (frame :: calls) (scope.push v :: below) kept := by
    have run := Exec.run_onScopes t (·.pushBelow v)
    rw [eq] at run
    exact .of_eq_ok run { ht with scopes := ⟨[callee], rfl, finals⟩ }
  cases hr : frame.returns with
  | none => exact pushed.imp fun _ u hu => ⟨v, by simp, hu⟩
  | some ty =>
    have checked : (Exec.ofExcept (v.check ty)).Safe t fun _ u => u = t ∧ v.ty = ty := by
      unfold Value.check
      split
      · exact .of_eq_ok rfl ⟨rfl, ‹_›⟩
      · exact .of_eq_error rfl id
    apply checked.bind
    rintro _ u ⟨same, fits⟩
    rw [same]
    exact pushed.imp fun _ u hu => ⟨v, by simp [fits], hu⟩

/-- A return closes the scope of the call and goes on in its caller. -/
theorem State.Holds.ret {frame : Frame} {handed : Bool}
    (hs : s.Holds pc ⟨0, 0, 0, handed⟩ (frame :: calls) below kept) (inner : State → StepResult) :
    m.execute inner .ret s =
      .ok () { s with calls, scopes := below, pc := frame.returnTo } ∧
      s.waiting = kept ∧ s.incoming = [] := by
  obtain ⟨own, eq, finals⟩ := hs.scopes
  obtain ⟨args, waiting, none⟩ := hs.waiting
  obtain ⟨scope, rfl⟩ : ∃ scope, own = [scope] := by
    have length := congrArg List.length finals
    simp at length
    exact List.length_eq_one_iff.1 length
  have run := Exec.run_closeScope s
  rw [eq] at run
  refine ⟨?_, ?_, List.eq_nil_of_length_eq_zero hs.incoming⟩
  · simp [Machine.execute, run, hs.calls]
  · rw [waiting, List.eq_nil_of_length_eq_zero none, List.nil_append]

end

/-- A call that is looked at: where it returns to, what it may return, and what lies below it. -/
structure Base where
  returnTo : Nat
  returns : Option Ty
  calls : List Frame
  scopes : Scopes
  waiting : List Value

/-- What lies below a call, once it has handed its result back or not. -/
def Base.Below (b : Base) : Bool → Scopes → Prop
  | false, below => below = b.scopes
  | true, below => ∃ v, (∀ ty, b.returns = some ty → v.ty = ty) ∧ b.scopes.push v = .ok below

/-- The calls below the one on top, down to the one that is looked at. Each of them waits behind a
call, in the shape that its code has there. -/
inductive Chain (p : Program) (sigs : Signatures) (b : Base) :
    Option Ty → Bool → List Frame → Scopes → List Value → Prop
  | bottom {handed : Bool} {below : Scopes} : b.Below handed below →
    Chain p sigs b b.returns handed (⟨b.returnTo, b.returns⟩ :: b.calls) below b.waiting
  | call {f : Function} {pc : Nat} {sh : Shape} {own below : Scopes} {args kept : List Value}
    {returns : Option Ty} {handed : Bool} {calls : List Frame} :
    p.Within sigs f pc sh → sh.IsOpen →
    own.map Scope.final = List.replicate sh.scopes false ++ [true] → args.length = sh.waiting →
    Chain p sigs b f.returns false calls below kept →
    Chain p sigs b returns handed (⟨pc, returns⟩ :: calls) (own ++ below) (args ++ kept)

namespace Chain

variable {p : Program} {sigs : Signatures} {b : Base} {returns : Option Ty} {handed : Bool}
  {calls : List Frame} {below : Scopes} {kept : List Value}

/-- There is a scope below every call. -/
theorem below_cons (hb : b.scopes ≠ []) (h : Chain p sigs b returns handed calls below kept) :
    ∃ scope rest, below = scope :: rest := by
  obtain ⟨top, tail, base⟩ := List.exists_cons_of_ne_nil hb
  cases h with
  | bottom h =>
    cases handed with
    | false => exact ⟨top, tail, h.trans base⟩
    | true =>
      obtain ⟨v, _, pushed⟩ := h
      rw [base] at pushed
      cases pushed
      exact ⟨_, _, rfl⟩
  | @call _ _ sh own _ _ _ _ _ _ _ _ finals _ _ =>
    cases own with
    | nil => cases hn : sh.scopes <;> simp [hn, List.replicate_succ] at finals
    | cons scope own => exact ⟨scope, _, rfl⟩

/-- The call on top may return what its function declares. -/
theorem frame (h : Chain p sigs b returns handed calls below kept) :
    ∃ pc rest, calls = ⟨pc, returns⟩ :: rest := by
  cases h with
  | bottom => exact ⟨_, _, rfl⟩
  | call => exact ⟨_, _, rfl⟩

/-- Handing a result back changes the innermost scope of the caller only. -/
theorem hand {scope : Scope} {v : Value}
    (h : Chain p sigs b returns false calls (scope :: below) kept)
    (fits : ∀ ty, returns = some ty → v.ty = ty) :
    Chain p sigs b returns true calls (scope.push v :: below) kept := by
  generalize eq : scope :: below = scopes at h
  cases h with
  | bottom h =>
    have same : b.scopes = scope :: below := h.symm.trans eq.symm
    exact .bottom ⟨v, fits, by rw [same]; rfl⟩
  | @call _ _ sh own _ _ _ _ _ _ within isOpen finals length rest =>
    cases own with
    | nil => cases hn : sh.scopes <;> simp [hn, List.replicate_succ] at finals
    | cons top own =>
      cases eq
      have finals' : (scope.push v :: own).map Scope.final =
          List.replicate sh.scopes false ++ [true] := finals
      exact .call within isOpen finals' length rest

end Chain

/-- The machine is inside the call that is looked at. -/
def Inside (p : Program) (sigs : Signatures) (b : Base) (s : State) : Prop :=
  ∃ f pc sh calls below kept, s.Holds pc sh calls below kept ∧ p.Within sigs f pc sh ∧
    Chain p sigs b f.returns sh.handed calls below kept

/-- The machine has returned from the call that is looked at. -/
structure Returned (b : Base) (s : State) : Prop where
  running : s.running = true
  pc : s.pc = b.returnTo
  calls : s.calls = b.calls
  scopes : ∃ handed, b.Below handed s.scopes
  waiting : s.waiting = b.waiting
  incoming : s.incoming = []

theorem Machine.step_of_safe {m : Machine} {s : State} {i : Instr} {P : State → Prop}
    (hi : m.program.code[s.pc]? = some i)
    (h : (m.execute m.inner i.op).Safe (counted s) fun _ t => P t) :
    match m.step s with
    | .ok _ t => P t
    | .error e _ => ¬e.fault.Internal := by
  cases hb : m.exhausted? s.steps with
  | some budget =>
    rw [step_eq_dispatch hi, dispatch, hb]
    exact id
  | none =>
    rw [step_eq_execute hi hb]
    unfold Exec.Safe at h
    cases hx : m.execute m.inner i.op (counted s) with
    | ok a t =>
      rw [hx] at h
      exact h
    | error f t =>
      rw [hx] at h
      exact h

section

variable {functions : List Function} {m : Machine} {b : Base} {s : State}

/-- A call of a function of the program enters it, with its arguments at hand. -/
theorem Compiled.call_enters (hp : Compiled functions m.host.contains m.program) {f : Function}
    {argc : Nat} {name : String} {returns : Option Ty} {label : Option String} {site : Position}
    (hi : m.program.code[s.pc]? = some ⟨.call name argc returns, label, site⟩)
    (hf : functions.find? (·.name = name) = some f) (hr : s.running = true)
    (h : argc ≤ s.waiting.length) (inner : State → StepResult) :
    ∃ t base, m.execute inner (.call name argc returns) (Machine.counted s) = .ok () t ∧
      t.Holds base (.entry f.params.length) (⟨s.pc + 1, f.returns⟩ :: s.calls) s.scopes
        (s.waiting.drop argc) ∧
      m.program.Within (signatures functions) f base (.entry f.params.length) := by
  have named : f.name = name := by simpa using List.find?_some hf
  obtain ⟨base, target, within⟩ := hp.within_entry (List.mem_of_find?_eq_some hf)
  have returned : returns = f.returns := by
    rw [hp.call_returns hi]
    simp [signatures, hf, Function.signature]
  have enough : argc ≤ (Machine.counted s).waiting.length := h
  have run : m.execute inner (.call name argc returns) (Machine.counted s) = _ :=
    Machine.execute_callFunction (named ▸ target) enough inner
  refine ⟨_, base, run, ⟨hr, rfl, ?_, ⟨[.new true], rfl, rfl⟩, ⟨[], rfl, rfl⟩, ?_⟩, within⟩
  · rw [returned]
    rfl
  · have arity := hp.call_arity hi hf
    simp [Shape.entry, arity, enough]

theorem State.Holds.counted {pc : Nat} {sh : Shape} {calls : List Frame} {below : Scopes}
    {kept : List Value} (hs : s.Holds pc sh calls below kept) :
    (Machine.counted s).Holds (pc + 1) sh calls below kept :=
  { hs with pc := congrArg (· + 1) hs.pc }

/-- A call from inside stays inside. -/
theorem Inside.call (hp : Compiled functions m.host.contains m.program) (hh : m.host.Direct)
    {f : Function} {pc : Nat} {sh : Shape} {calls : List Frame} {below : Scopes}
    {kept : List Value} (hs : s.Holds pc sh calls below kept)
    (chain : Chain m.program (signatures functions) b f.returns sh.handed calls below kept)
    {argc : Nat} {name : String} {returns : Option Ty} {label : Option String} {site : Position}
    (hi : m.program.code[s.pc]? = some ⟨.call name argc returns, label, site⟩)
    (ho : sh.IsOpen) (ha : argc ≤ sh.waiting)
    (hnext : m.program.Within (signatures functions) f (pc + 1)
      { sh with waiting := sh.waiting - argc }) (inner : State → StepResult) :
    (m.execute inner (.call name argc returns)).Safe (Machine.counted s)
      fun _ t => Inside m.program (signatures functions) b t := by
  cases hf : functions.find? (·.name = name) with
  | none =>
    have missing : m.program.resolve (Label.function name) = none :=
      hp.resolve_function_eq_none (by simpa using hf)
    obtain ⟨g, hg⟩ := Option.isSome_iff_exists.1 (hp.call_isHost hi hf)
    obtain ⟨answer, rfl⟩ := hh name g hg
    have direct : m.hostFunction? name = some (.direct answer) := by
      simp only [Machine.hostFunction?, missing, hg]
    apply (hs.counted.callHost ha direct inner).imp
    intro _ t ht
    exact ⟨f, pc + 1, _, calls, below, kept, ht, hnext, chain⟩
  | some g =>
    obtain ⟨own, eq, finals⟩ := hs.scopes
    obtain ⟨args, waiting, length⟩ := hs.waiting
    have enough : argc ≤ s.waiting.length := by simp [waiting]; omega
    obtain ⟨t, base, run, ht, within⟩ := hp.call_enters hi hf hs.running enough inner
    have left : s.waiting.drop argc = args.drop argc ++ kept := by
      rw [waiting, List.drop_append_of_le_length (by omega)]
    rw [hs.pc, hs.calls, eq, left] at ht
    refine .of_eq_ok run ⟨g, base, _, _, _, _, ht, within, ?_⟩
    exact .call hnext ho finals (by simp [length]) (ho.2 ▸ chain)

/-- Instructions that leave the calls as they are stay inside. -/
theorem Inside.execute (hl : m.program.LabelsMatch) {sigs : Signatures} {f : Function} {pc : Nat}
    {sh next : Shape} {calls : List Frame} {below : Scopes} {kept : List Value}
    (hs : s.Holds pc sh calls below kept) (within : m.program.Within sigs f pc sh)
    (chain : Chain m.program sigs b f.returns sh.handed calls below kept) {op : Op}
    {label : Option String} {pos : Position}
    (hi : m.program.code[pc]? = some ⟨op, label, pos⟩) (hlocal : op.Local)
    (hf : op.flow sh = some next) (hnext : m.program.Within sigs f (pc + 1) next)
    (inner : State → StepResult) :
    (m.execute inner op).Safe (Machine.counted s) fun _ t => Inside m.program sigs b t := by
  have targets (label : String) (ht : op.target? = some label) := within.resolves hl hi ht
  apply (hs.counted.execute hlocal hf targets inner).imp
  rintro _ t ⟨pc', ht, goes⟩
  have there : m.program.Within sigs f pc' next := by
    obtain rfl | ⟨label, target, resolved⟩ := goes
    · exact hnext
    · obtain ⟨goal, hg, level⟩ := within.target hl hi target
      obtain rfl : goal = pc' := Option.some.inj (hg.symm.trans resolved)
      exact Op.flow_target target hf ▸ level
  exact ⟨f, pc', next, calls, below, kept, ht, there, Op.flow_handed hf hlocal ▸ chain⟩

theorem Inside.handBack (hb : b.scopes ≠ []) {sigs : Signatures} {f : Function} {pc : Nat}
    {calls : List Frame} {below : Scopes} {kept : List Value}
    (hs : s.Holds pc .level calls below kept)
    (chain : Chain m.program sigs b f.returns false calls below kept)
    (hnext : m.program.Within sigs f (pc + 1) ⟨0, 0, 0, true⟩) (inner : State → StepResult) :
    (m.execute inner .handBack).Safe (Machine.counted s)
      fun _ t => Inside m.program sigs b t := by
  obtain ⟨scope, rest, rfl⟩ := chain.below_cons hb
  obtain ⟨ret, others, rfl⟩ := chain.frame
  apply (hs.counted.handBack inner).imp
  rintro _ t ⟨v, fits, ht⟩
  exact ⟨f, pc + 1, _, _, _, _, ht, hnext, chain.hand fits⟩

/-- A return goes back into the caller, or out of the call that is looked at. -/
theorem Inside.ret {sigs : Signatures} {returns : Option Ty} {pc : Nat} {handed : Bool}
    {calls : List Frame} {below : Scopes} {kept : List Value}
    (hs : s.Holds pc ⟨0, 0, 0, handed⟩ calls below kept)
    (chain : Chain m.program sigs b returns handed calls below kept) (inner : State → StepResult) :
    (m.execute inner .ret).Safe (Machine.counted s)
      fun _ t => Inside m.program sigs b t ∨ Returned b t := by
  have hs := hs.counted
  cases chain with
  | bottom hbelow =>
    obtain ⟨run, waiting, incoming⟩ := hs.ret inner
    exact .of_eq_ok run (.inr ⟨hs.running, rfl, rfl, ⟨handed, hbelow⟩, waiting, incoming⟩)
  | @call g ret sh own lower args kept _ _ calls within isOpen finals length chain =>
    obtain ⟨run, waiting, incoming⟩ := hs.ret inner
    refine .of_eq_ok run (.inl ⟨g, ret, sh, calls, lower, kept, ?_, within, isOpen.2 ▸ chain⟩)
    exact ⟨hs.running, rfl, rfl, ⟨own, rfl, finals⟩, ⟨args, waiting, length⟩,
      by rw [isOpen.1]; exact congrArg List.length incoming⟩

/-- A step from inside a call stays inside or returns from it. -/
theorem Inside.step (hp : Compiled functions m.host.contains m.program) (hh : m.host.Direct)
    (hb : b.scopes ≠ []) (h : Inside m.program (signatures functions) b s) :
    match m.step s with
    | .ok _ t => Inside m.program (signatures functions) b t ∨ Returned b t
    | .error e _ => ¬e.fault.Internal := by
  obtain ⟨f, pc, sh, calls, below, kept, hs, within, chain⟩ := h
  obtain ⟨⟨op, label, pos⟩, next, hi, hf, hnext⟩ := within.instr
  have hi' : m.program.code[s.pc]? = some ⟨op, label, pos⟩ := hs.pc ▸ hi
  refine Machine.step_of_safe hi' ?_
  cases op with
  | exit => cases hf
  | call name argc returns =>
    simp only [Op.flow] at hf
    split at hf <;> cases hf
    rename_i ho
    have next := hnext (by simp)
    exact (Inside.call hp hh hs chain hi' ho.1 ho.2 next _).imp fun _ t ht => .inl ht
  | handBack =>
    simp only [Op.flow] at hf
    split at hf <;> cases hf
    rename_i level
    subst level
    exact (Inside.handBack hb hs chain (hnext (by simp)) _).imp fun _ t ht => .inl ht
  | ret =>
    obtain ⟨handed, rfl⟩ := Op.flow_ret hf
    exact Inside.ret hs chain _
  | _ =>
    have next := hnext (by simp)
    exact (Inside.execute hp.labels hs within chain hi trivial hf next _).imp
      fun _ t ht => .inl ht

end

/-! ## Runs -/

/-- The states that steps lead to from the start, up to the first fault. -/
inductive Machine.Reaches (m : Machine) (console : Console) : State → Prop
  | start : Reaches m console (m.start console)
  | step {s t : State} : Reaches m console s → m.step s = .ok () t → Reaches m console t

theorem Machine.Reaches.runFor {m : Machine} {console : Console} {s t : State} {n : Nat}
    (hs : m.Reaches console s) (h : m.runFor n s = .ok () t) : m.Reaches console t := by
  induction n generalizing s with
  | zero =>
    cases h
    exact hs
  | succ n ih =>
    rw [Machine.runFor] at h
    split at h
    · cases hu : m.step s with
      | ok _ u =>
        rw [hu] at h
        exact ih (.step hs hu) h
      | error e u =>
        rw [hu] at h
        cases h
    · cases h
      exact hs

/-- The call of the entry point. -/
def mainBase (p : Program) (sigs : Signatures) : Base where
  returnTo := p.entry + 1
  returns := (sigs entryPoint).bind Signature.returns
  calls := []
  scopes := [.new true]
  waiting := []

/-- Where a compiled program can be: before the call of its entry point, inside it, behind it, or at
its end. -/
inductive Sound (p : Program) (sigs : Signatures) (s : State) : Prop
  | starting (running : s.running = true) (pc : s.pc = p.entry) (calls : s.calls = [])
    (scopes : s.scopes = [.new true]) (waiting : s.waiting = [])
  | inside (inside : Inside p sigs (mainBase p sigs) s)
  | returned (returned : Returned (mainBase p sigs) s)
  | ended (running : s.running = false) (pc : p.code.size ≤ s.pc)

section

variable {functions : List Function} {m : Machine} {b : Base} {s t : State}

theorem Inside.running {p : Program} {sigs : Signatures} (h : Inside p sigs b s) :
    s.running = true := by
  obtain ⟨_, _, _, _, _, _, hs, _⟩ := h
  exact hs.running

/-- The code at the start: the call of the entry point and the exit behind it. -/
theorem Compiled.start_code {isHost : String → Bool} {p : Program}
    (hp : Compiled functions isHost p) :
    p.code[p.entry]? = some (callInstr (signatures functions) .none entryPoint 0) ∧
      p.code[p.entry + 1]? = some (.plain .exit .none) ∧ p.code.size = p.entry + 2 := by
  have start := hp.codeAt.2
  refine ⟨start 0 _ rfl, start 1 _ rfl, ?_⟩
  rw [hp.code, hp.entry]
  simp [startCode, callCode, argsCode]

/-- The first step enters the entry point. -/
theorem Sound.enters (hp : Compiled functions m.host.contains m.program)
    (running : s.running = true) (pc : s.pc = m.program.entry) (calls : s.calls = [])
    (scopes : s.scopes = [.new true]) (waiting : s.waiting = []) :
    match m.step s with
    | .ok _ t => Inside m.program (signatures functions)
        (mainBase m.program (signatures functions)) t
    | .error e _ => ¬e.fault.Internal := by
  have hi := pc ▸ hp.start_code.1
  refine Machine.step_of_safe hi ?_
  obtain ⟨f, hf⟩ := hp.find?_main
  obtain ⟨t, base, run, ht, within⟩ :=
    hp.call_enters hi hf running (Nat.zero_le _) m.inner
  have returns : f.returns = (mainBase m.program (signatures functions)).returns := by
    simp [mainBase, signatures, hf, Function.signature]
  rw [pc, calls, scopes, waiting] at ht
  refine .of_eq_ok run ⟨f, base, _, _, _, _, ht, within, ?_⟩
  rw [returns]
  exact .bottom rfl

theorem Sound.exits (hp : Compiled functions m.host.contains m.program)
    (h : Returned (mainBase m.program (signatures functions)) s) :
    match m.step s with
    | .ok _ t => t.running = false ∧ m.program.code.size ≤ t.pc
    | .error e _ => ¬e.fault.Internal := by
  obtain ⟨_, exit, size⟩ := hp.start_code
  have pc : s.pc = m.program.entry + 1 := h.pc
  refine Machine.step_of_safe (pc ▸ exit) (.of_eq_ok rfl ⟨rfl, ?_⟩)
  simp only [Machine.counted]
  omega

/-- Compiled programs stay where they can be. -/
theorem Sound.step (hp : Compiled functions m.host.contains m.program) (hh : m.host.Direct)
    (h : Sound m.program (signatures functions) s) :
    match m.step s with
    | .ok _ t => Sound m.program (signatures functions) t
    | .error e _ => ¬e.fault.Internal := by
  cases h with
  | starting running pc calls scopes waiting =>
    have step := Sound.enters hp running pc calls scopes waiting
    split at step
    · exact .inside step
    · exact step
  | inside inside =>
    have step := inside.step hp hh (by simp [mainBase])
    split at step
    · exact step.elim .inside .returned
    · exact step
  | returned returned =>
    have step := Sound.exits hp returned
    split at step
    · exact .ended step.1 step.2
    · exact step
  | ended running pc =>
    rw [Machine.step_eq_of_size_le pc]
    exact .ended rfl pc

theorem Machine.Reaches.sound (hp : Compiled functions m.host.contains m.program)
    (hh : m.host.Direct) {console : Console} (h : m.Reaches console s) :
    Sound m.program (signatures functions) s := by
  induction h with
  | start => exact .starting rfl rfl rfl rfl rfl
  | step _ hs ih =>
    have step := ih.step hp hh
    rw [hs] at step
    exact step

theorem Sound.pc_lt (hp : Compiled functions m.host.contains m.program)
    (h : Sound m.program (signatures functions) s) (hr : s.running = true) :
    s.pc < m.program.code.size := by
  obtain ⟨_, _, size⟩ := hp.start_code
  cases h with
  | starting _ pc => omega
  | inside inside =>
    obtain ⟨f, pc, _, _, _, _, hs, within, _⟩ := inside
    obtain ⟨i, _, hi, _⟩ := within.instr
    obtain ⟨lt, _⟩ := Array.getElem?_eq_some_iff.1 hi
    exact hs.pc ▸ lt
  | returned returned =>
    have pc : s.pc = m.program.entry + 1 := returned.pc
    omega
  | ended running => simp [running] at hr

/-- A machine that stops has come to the exit. -/
theorem Sound.exit_of_stops (hp : Compiled functions m.host.contains m.program)
    (hh : m.host.Direct) (h : Sound m.program (signatures functions) s) (hr : s.running = true)
    (hs : m.step s = .ok () t) (stops : t.running = false) :
    m.program.code[s.pc]? = some (.plain .exit .none) := by
  have goesOn (running : t.running = true) : False := by simp [running] at stops
  cases h with
  | starting running pc calls scopes waiting =>
    have step := Sound.enters hp running pc calls scopes waiting
    rw [hs] at step
    exact (goesOn step.running).elim
  | inside inside =>
    have step := inside.step hp hh (by simp [mainBase])
    rw [hs] at step
    obtain step | step := step
    · exact (goesOn step.running).elim
    · exact (goesOn step.running).elim
  | returned returned =>
    have pc : s.pc = m.program.entry + 1 := returned.pc
    exact pc ▸ hp.start_code.2.1
  | ended running => simp [running] at hr

end

/-- Compiled code never trips the machine: wherever a run comes to, the next step raises no internal
fault, a running machine is at an instruction, and it stops at the exit only. -/
theorem never_internal {functions : List Function} {m : Machine}
    (h : compile functions m.host.contains = .ok m.program) (hh : m.host.Direct) {console : Console}
    {s : State} (hs : m.Reaches console s) :
    (∀ e t, m.step s = .error e t → ¬e.fault.Internal) ∧
      (s.running = true → s.pc < m.program.code.size) ∧
      ∀ t, s.running = true → m.step s = .ok () t → t.running = false →
        ∃ i, m.program.code[s.pc]? = some i ∧ i.op = .exit := by
  have hp := compiled_of_compile h
  have sound := hs.sound hp hh
  refine ⟨fun e t he => ?_, sound.pc_lt hp, fun t hr ht stops => ?_⟩
  · have step := sound.step hp hh
    rw [he] at step
    exact step
  · exact ⟨_, sound.exit_of_stops hp hh hr ht stops, rfl⟩

/-- Calls itself and asks the host how deep it is. -/
def descent : List Function :=
  [⟨⟨1, 1⟩, "main", [], none, [.call ⟨2, 1⟩ ⟨2, 1⟩ "descend" [.literal ⟨2, 9⟩ (.int 2)]]⟩,
    ⟨⟨4, 1⟩, "descend", [⟨⟨4, 9⟩, .int, "n"⟩], some .int,
      [.cond ⟨5, 1⟩ (.binary ⟨5, 6⟩ .gt (.var ⟨5, 4⟩ "n") (.literal ⟨5, 8⟩ (.int 0)))
        [.ret ⟨6, 1⟩ (some (.binary ⟨6, 19⟩ .add
          (.call ⟨6, 8⟩ ⟨6, 8⟩ "descend"
            [.binary ⟨6, 14⟩ .sub (.var ⟨6, 12⟩ "n") (.literal ⟨6, 16⟩ (.int 1))])
          (.call ⟨6, 21⟩ ⟨6, 21⟩ "depth" [])))],
        .ret ⟨8, 1⟩ (some (.call ⟨8, 8⟩ ⟨8, 8⟩ "depth" []))]⟩]

def depthHost : Host := [("depth", .direct fun view _ => pure (some (.int (.ofNat view.calls))))]

theorem depthHost_direct : depthHost.Direct := by
  apply Host.forall_get?
  intro entry listed
  obtain rfl := List.mem_singleton.1 listed
  exact ⟨_, rfl⟩

theorem never_internal_descent :
    ∃ (m : Machine) (s : State), compile descent m.host.contains = .ok m.program ∧ m.host.Direct ∧
      m.Reaches (.ofInput [] none) s ∧ s.calls.length = 4 ∧
      (∀ e t, m.step s = .error e t → ¬e.fault.Internal) ∧ s.pc < m.program.code.size := by
  obtain ⟨p, s, hp, run, deep, running⟩ : ∃ p s, compile descent depthHost.contains = .ok p ∧
      Machine.runFor ⟨p, depthHost, some 50⟩ 40 (.initial p.entry (.ofInput [] none)) = .ok () s ∧
      s.calls.length = 4 ∧ s.running = true := ⟨_, _, rfl, rfl, rfl, rfl⟩
  have reached : (Machine.mk p depthHost (some 50)).Reaches (.ofInput [] none) s :=
    Machine.Reaches.start.runFor run
  obtain ⟨safe, pc, _⟩ := never_internal hp depthHost_direct reached
  exact ⟨_, s, hp, depthHost_direct, reached, deep, safe, pc running⟩

end StackScript
