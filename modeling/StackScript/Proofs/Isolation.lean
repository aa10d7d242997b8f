import StackScript.Proofs.Twins

/-!
# A call sees nothing of its caller

* `Together.step`: machines that make the same call over different callers go on together, step by
  step, until both return or fail;
* `Machine.observe`: what a call shows after a number of steps;
* `calls_isolated`: it is the same for every caller.
-/

namespace StackScript

/-- The call that will go on in this state. -/
def State.caller (k : State) (returns : Option Ty) : Base :=
  ⟨k.pc, returns, k.calls, k.scopes, k.waiting⟩

/-- Both machines have returned to their callers, with the same values for them. -/
structure Returns (k l s t : State) : Prop where
  calls : s.calls = k.calls ∧ t.calls = l.calls
  scopes : ∃ values, s.scopes = k.scopes.receiving values ∧ t.scopes = l.scopes.receiving values
  console : AlikeSince k l s t

/-! ## Returns -/

section

variable {p : Program} {sigs : Signatures} {b : Base} {ty : Option Ty} {handed : Bool}
  {calls : List Frame} {below : Scopes} {kept : List Value}

theorem Base.Below.length_eq (h : b.Below handed below) : below.length = b.scopes.length := by
  cases handed with
  | false => exact congrArg List.length h
  | true =>
    obtain ⟨v, _, pushed⟩ := h
    cases hb : b.scopes with
    | nil =>
      rw [hb] at pushed
      cases pushed
    | cons scope rest =>
      rw [hb] at pushed
      cases pushed
      rfl

/-- Nothing of what lies below the call that is looked at is gone. -/
theorem Chain.length_le (h : Chain p sigs b ty handed calls below kept) :
    b.scopes.length ≤ below.length ∧ b.waiting.length ≤ kept.length := by
  induction h with
  | bottom h => exact ⟨Nat.le_of_eq h.length_eq.symm, Nat.le_refl _⟩
  | call _ _ _ _ _ ih =>
    rw [List.length_append, List.length_append]
    omega

theorem Scopes.length_receiving (values : List Value) (ss : Scopes) :
    (ss.receiving values).length = ss.length := by
  cases ss <;> rfl

theorem Machine.execute_ret {m : Machine} {s : State} {scope : Scope} {rest : Scopes}
    {frame : Frame} {calls : List Frame} (hs : s.scopes = scope :: rest)
    (hc : s.calls = frame :: calls) (inner : State → StepResult) :
    m.execute inner .ret s =
      .ok () { s with calls, scopes := rest, pc := frame.returnTo } := by
  have run := Exec.run_closeScope s
  rw [hs] at run
  simp [Machine.execute, run, hc]

/-- Both machines return into the same call, or to their callers. -/
theorem Twins.ret {m : Machine} {returns : Option Ty} {k l s t : State} {pc : Nat}
    (h : Twins p returns k l s t) (hs : s.Holds pc ⟨0, 0, 0, handed⟩ calls below kept)
    (chain : Chain p sigs (k.caller returns) ty handed calls below kept)
    (inner : State → StepResult) :
    Agree (AlikeSince k l) (m.execute inner .ret) s t fun _ s t =>
      Twins p returns k l s t ∧ ¬p.TakesAt s.pc ∨ Returns k l s t := by
  obtain ⟨own, values, final, ss, st⟩ := h.scopes
  obtain ⟨frames, fresh, cs, ct⟩ := h.calls
  obtain ⟨top, eq, finals⟩ := hs.scopes
  obtain ⟨scope, rfl⟩ : ∃ scope, top = [scope] := by
    have length := congrArg List.length finals
    simp at length
    exact List.length_eq_one_iff.1 length
  cases own with
  | nil => cases final
  | cons first own =>
    have split : own ++ k.scopes.receiving values = below := (List.cons.inj (ss.symm.trans eq)).2
    have depth := congrArg List.length (hs.calls.symm.trans cs)
    have size := congrArg List.length split
    rw [List.length_append, Scopes.length_receiving] at size
    cases frames with
    | nil =>
      cases chain with
      | bottom hbelow =>
        -- There is nothing between the scope of the call and those of its caller.
        have none : own = [] := by
          have length : below.length = k.scopes.length := hbelow.length_eq
          exact List.eq_nil_of_length_eq_zero (by omega)
        subst none
        refine .of_ok (Machine.execute_ret ss cs inner) (Machine.execute_ret st ct inner) (.inr ?_)
        exact ⟨⟨rfl, rfl⟩, ⟨values, rfl, rfl⟩, h.console⟩
      | call _ _ _ _ chain =>
        have deeper := chain.length_lt
        simp [State.caller] at depth deeper
        omega
    | cons frame frames =>
      cases chain with
      | bottom =>
        simp [State.caller] at depth
        omega
      | @call _ _ _ next lower _ _ _ _ _ _ _ finals _ chain =>
        have prefixed : next <+: own := by
          refine List.prefix_of_prefix_length_le ⟨lower, rfl⟩ ⟨_, split⟩ ?_
          have lengths := chain.length_le.1
          simp [State.caller] at size lengths
          omega
        have isFinal : true ∈ own.map Scope.final := by
          refine (prefixed.map Scope.final).subset ?_
          simp [finals]
        refine .of_ok (Machine.execute_ret ss cs inner) (Machine.execute_ret st ct inner) (.inl ?_)
        refine ⟨{ h with pc := rfl, calls := ?_, scopes := ?_ }, ?_⟩
        · exact ⟨frames, fun f hf => fresh f (List.mem_cons_of_mem _ hf), rfl, rfl⟩
        · exact ⟨own, values, isFinal, rfl, rfl⟩
        · exact fresh frame (List.mem_cons_self ..)

end

/-! ## Steps -/

/-- The machines make the same call over different callers, and have the same result where it is
taken next. -/
structure GoesOn (p : Program) (returns : Option Ty) (k l s t : State) : Prop where
  twins : Twins p returns k l s t
  result : p.TakesAt s.pc → t.result = s.result

/-- The machines make the same call, and the first of them is inside it. So is the other, which
needs no saying. -/
structure Together (p : Program) (sigs : Signatures) (returns : Option Ty) (k l s t : State) : Prop
    extends GoesOn p returns k l s t where
  inside : Inside p sigs (k.caller returns) s

theorem Agree.and_safe {α : Type} {E : State → State → Prop} {x : Exec α} {s t : State}
    {Q : α → State → State → Prop} {P : α → State → Prop} (h : Agree E x s t Q) (hs : x.Safe s P) :
    Agree E x s t fun a s t => Q a s t ∧ P a s := by
  obtain ⟨a, s', t', hx, hy, hq⟩ | ⟨e, s', t', hx, hy, he⟩ := h.cases
  · rw [Exec.Safe, hx] at hs
    exact .of_ok hx hy ⟨hq, hs⟩
  · exact .of_error hx hy he

section

variable {functions : List Function} {m : Machine} {returns : Option Ty} {k l s t : State}

theorem Twins.counted (h : Twins m.program returns k l s t) :
    Twins m.program returns k l (Machine.counted s) (Machine.counted t) :=
  { h with pc := congrArg (· + 1) h.pc }

theorem Twins.calls_lt {p : Program} (h : Twins p returns k l s t) :
    k.calls.length < s.calls.length ∧ l.calls.length < t.calls.length := by
  obtain ⟨frames, _, hs, ht⟩ := h.calls
  rw [hs, ht, List.length_append, List.length_append, List.length_cons, List.length_cons]
  omega

/-- What the instruction does to both machines, the step does. -/
theorem Machine.step_agree {Q : Unit → State → State → Prop} {i : Instr}
    (hb : m.budget = none) (hpc : t.pc = s.pc) (hi : m.program.code[s.pc]? = some i)
    (h : Agree (AlikeSince k l) (m.execute m.inner i.op) (counted s) (counted t) Q) :
    Agree (AlikeSince k l) m.step s t Q := by
  have runs := step_eq_execute hi (exhausted?_none hb s.steps)
  have runt := step_eq_execute (hpc ▸ hi) (exhausted?_none hb t.steps)
  obtain ⟨a, s', t', hx, hy, hq⟩ | ⟨e, s', t', hx, hy, he⟩ := h.cases
  · rw [hx] at runs
    rw [hy] at runt
    exact .of_ok runs runt hq
  · rw [hx] at runs
    rw [hy] at runt
    exact .of_error runs runt he

theorem GoesOn.of_not_takesAt {p : Program} (h : Twins p returns k l s t)
    (fresh : ¬p.TakesAt s.pc) : GoesOn p returns k l s t :=
  ⟨h, fun takes => absurd takes fresh⟩

/-- A call from inside the call. -/
theorem Twins.call (hp : Compiled functions m.host.contains m.program) (hh : m.host.Uniform)
    {pc : Nat} {sh : Shape} {calls : List Frame} {below : Scopes} {kept : List Value}
    (h : Twins m.program returns k l s t) (hs : s.Holds pc sh calls below kept) {argc : Nat}
    {name : String} {declared : Option Ty} {label : Option String} {site : Position}
    (hi : m.program.code[pc]? = some ⟨.call name argc declared, label, site⟩)
    (ha : argc ≤ sh.waiting) (hk : k.waiting.length ≤ kept.length) (inner : State → StepResult) :
    Agree (AlikeSince k l) (m.execute inner (.call name argc declared)) (Machine.counted s)
      (Machine.counted t) fun _ => GoesOn m.program returns k l := by
  have behind : ¬m.program.TakesAt (pc + 1) := hp.not_takesAt_succ hi (by simp)
  have enough : argc + k.waiting.length ≤ (Machine.counted s).waiting.length := by
    obtain ⟨args, eq, length⟩ := hs.counted.waiting
    rw [eq, List.length_append]
    omega
  cases hf : functions.find? (·.name = name) with
  | none =>
    have missing : m.program.resolve (Label.function name) = none :=
      hp.resolve_function_eq_none (by simpa using hf)
    obtain ⟨g, hg⟩ := Option.isSome_iff_exists.1 (hp.call_isHost hi hf)
    have host : m.hostFunction? name = some g := by simp only [Machine.hostFunction?, missing, hg]
    obtain ⟨answer, direct⟩ := hh.direct name g hg
    refine ((h.counted.callHost hh host enough declared inner).and_safe
      (hs.counted.callHost ha (direct ▸ host) inner)).imp ?_
    rintro _ s t ⟨h, hs⟩
    exact .of_not_takesAt h (hs.pc ▸ behind)
  | some g =>
    obtain ⟨target, bound, _⟩ := hp.within_entry (List.mem_of_find?_eq_some hf)
    have named : g.name = name := by simpa using List.find?_some hf
    rw [named] at bound
    have back : ¬m.program.TakesAt (Machine.counted s).pc := hs.counted.pc ▸ behind
    refine (h.counted.callFunction bound enough back declared inner).imp ?_
    rintro _ s t ⟨h, rfl⟩
    exact .of_not_takesAt h (hp.not_takesAt_resolve bound)

/-- An instruction of the call that leaves the calls as they are. -/
theorem Twins.local (hp : Compiled functions m.host.contains m.program)
    {f : Function} {pc : Nat} {sh next : Shape} {calls : List Frame} {below : Scopes}
    {kept : List Value} {op : Op} {label : Option String} {pos : Position}
    (h : Twins m.program returns k l s t) (hs : s.Holds pc sh calls below kept)
    (within : m.program.Within (signatures functions) f pc sh)
    (hi : m.program.code[pc]? = some ⟨op, label, pos⟩) (hlocal : op.Local)
    (hf : op.flow sh = some next) (hr : op.takesResult = true → t.result = s.result)
    (inner : State → StepResult) :
    Agree (AlikeSince k l) (m.execute inner op) (Machine.counted s) (Machine.counted t)
      fun _ => GoesOn m.program returns k l := by
  by_cases closes : op = .closeScope
  · subst closes
    simp only [Op.flow] at hf
    split at hf <;> cases hf
    rename_i ho
    have top (scope : Scope) (rest : Scopes) (eq : (Machine.counted s).scopes = scope :: rest) :
        scope.final = false := by
      obtain ⟨own, split, finals⟩ := hs.counted.scopes
      obtain ⟨n, hn⟩ := Nat.exists_eq_add_of_lt ho.2
      rw [hn, Nat.zero_add, List.replicate_succ, List.cons_append] at finals
      obtain ⟨first, _, rfl, final, _⟩ := List.map_eq_cons_iff.1 finals
      cases eq.symm.trans split
      exact final
    refine (h.counted.closeScope top inner).imp ?_
    rintro _ s t ⟨h, same⟩
    exact ⟨h, fun _ => same⟩
  · have targets (label : String) (ht : op.target? = some label) := within.resolves hp.labels hi ht
    have stays := hs.counted.execute hlocal hf targets inner
    refine ((h.counted.execute hlocal closes hr inner).and_safe stays).imp ?_
    rintro _ s t ⟨h, pc', hs, goes⟩
    refine .of_not_takesAt h (hs.pc ▸ ?_)
    obtain rfl | ⟨label, _, bound⟩ := goes
    · exact hp.not_takesAt_succ hi closes
    · exact hp.not_takesAt_resolve bound

/-- Whatever instruction is next, both machines do it in the same way. -/
theorem Together.moves (hp : Compiled functions m.host.contains m.program) (hh : m.host.Uniform)
    (hb : m.budget = none) (hk : k.scopes ≠ []) (hl : l.scopes ≠ [])
    (h : Together m.program (signatures functions) returns k l s t) :
    Agree (AlikeSince k l) m.step s t fun _ s t =>
      GoesOn m.program returns k l s t ∨ Returns k l s t := by
  obtain ⟨⟨twins, result⟩, f, pc, sh, calls, below, kept, hs, within, chain⟩ := h
  obtain ⟨⟨op, label, pos⟩, next, hi, hf, -⟩ := within.instr
  have hi' : m.program.code[s.pc]? = some ⟨op, label, pos⟩ := hs.pc ▸ hi
  have fresh (takes : op.takesResult = true) : t.result = s.result := result ⟨_, hi', takes⟩
  refine Machine.step_agree hb twins.pc hi' ?_
  cases op with
  | exit => cases hf
  | call name argc declared =>
    simp only [Op.flow] at hf
    split at hf <;> cases hf
    rename_i ho
    exact (twins.call hp hh hs hi ho.2 chain.length_le.2 _).imp fun _ _ _ h => .inl h
  | handBack =>
    simp only [Op.flow] at hf
    split at hf <;> cases hf
    rename_i level
    subst level
    obtain ⟨scope, rest, rfl⟩ := chain.below_cons hk
    obtain ⟨ret, others, rfl⟩ := chain.frame
    refine ((twins.counted.handBack hk hl (fresh rfl) _).and_safe (hs.counted.handBack _)).imp ?_
    rintro _ s t ⟨h, v, _, hs⟩
    exact .inl (.of_not_takesAt h (hs.pc ▸ hp.not_takesAt_succ hi (by simp)))
  | ret =>
    obtain ⟨handed, rfl⟩ := Op.flow_ret hf
    refine (twins.counted.ret hs.counted chain _).imp fun _ s t h => ?_
    exact h.imp (fun h => .of_not_takesAt h.1 h.2) id
  | _ => exact (twins.local hp hs within hi trivial hf fresh _).imp fun _ _ _ h => .inl h

/-- Machines that make the same call go on together, return together or fail together. -/
theorem Together.step (hp : Compiled functions m.host.contains m.program) (hh : m.host.Uniform)
    (hb : m.budget = none) (hk : k.scopes ≠ []) (hl : l.scopes ≠ [])
    (h : Together m.program (signatures functions) returns k l s t) :
    Agree (AlikeSince k l) m.step s t fun _ s t =>
      Together m.program (signatures functions) returns k l s t ∨ Returns k l s t := by
  have stays := h.inside.step hp hh.direct hk
  obtain ⟨_, s', t', hx, hy, goes | returns⟩ | ⟨e, s', t', hx, hy, alike⟩ :=
    (h.moves hp hh hb hk hl).cases
  · rw [hx] at stays
    refine .of_ok hx hy (.inl ⟨goes, stays.resolve_right fun returned => ?_⟩)
    -- As long as the machines are twins, the frame of the call is there.
    have deeper := goes.twins.calls_lt.1
    rw [returned.calls] at deeper
    exact Nat.lt_irrefl _ deeper
  · exact .of_ok hx hy (.inr returns)
  · exact .of_error hx hy alike

end

/-! ## Calls -/

/-- Steps of a call until it has returned to the `depth` calls that were there before it, at most
this many. -/
def Machine.callFor (m : Machine) (depth : Nat) : Nat → State → StepResult
  | 0, s => .ok () s
  | n + 1, s =>
    if depth < s.calls.length then
      match m.step s with
      | .ok _ s => callFor m depth n s
      | .error e s => .error e s
    else .ok () s

/-- How far a call has come. -/
inductive Progress
  | running
  | returned (value : Option Value)
  | failed (error : ExecutionError)

/-- What can be seen of a call: how far it has come, what it has written, and what input it has
left. -/
structure Observation where
  progress : Progress
  written : List UInt8
  unread : List UInt8

/-- The value that has come to the innermost scope, if its stack has grown. -/
def Scopes.received (before after : Scopes) : Option Value :=
  match before, after with
  | b :: _, a :: _ => if b.stack.length < a.stack.length then a.stack.head? else none
  | _, _ => none

/-- What can be seen of a call that was made in the state `s`. -/
def Observation.since (s : State) : StepResult → Observation
  | .ok _ t =>
    ⟨if s.calls.length < t.calls.length then .running else .returned (s.scopes.received t.scopes),
      t.console.written.toList.drop s.console.written.size, t.console.unread⟩
  | .error e t =>
    ⟨.failed e, t.console.written.toList.drop s.console.written.size, t.console.unread⟩

/-- What can be seen of the call that is made in the state `s`, `n` steps after it is entered. -/
def Machine.observe (m : Machine) (s : State) (n : Nat) : Observation :=
  .since s <|
    match m.step s with
    | .ok _ t => m.callFor s.calls.length n t
    | .error e t => .error e t

theorem Machine.callFor_of_le {m : Machine} {depth : Nat} {s : State} (h : s.calls.length ≤ depth)
    (n : Nat) : m.callFor depth n s = .ok () s := by
  cases n with
  | zero => rfl
  | succ n => rw [callFor, if_neg (by omega)]

theorem Scopes.received_receiving {ss : Scopes} (h : ss ≠ []) (values : List Value) :
    ss.received (ss.receiving values) = values.head? := by
  cases ss with
  | nil => exact absurd rfl h
  | cons scope rest =>
    cases values with
    | nil => simp [received, receiving]
    | cons v values =>
      have grown : scope.stack.length < (v :: (values ++ scope.stack)).length := by
        rw [List.length_cons, List.length_append]
        omega
      simp only [received, receiving, List.cons_append, if_pos grown, List.head?_cons]

section

variable {functions : List Function} {m : Machine} {returns : Option Ty} {k l s t : State}

theorem AlikeSince.written_eq (h : AlikeSince k l s t) :
    t.console.written.toList.drop l.console.written.size =
      s.console.written.toList.drop k.console.written.size := by
  obtain ⟨bytes, hs, ht⟩ := h.written
  simp [hs, ht]

/-- What can be seen of two calls that go on together is the same after every number of steps. -/
theorem Together.since_eq (hp : Compiled functions m.host.contains m.program) (hh : m.host.Uniform)
    (hb : m.budget = none) (hk : k.scopes ≠ []) (hl : l.scopes ≠ []) (n : Nat)
    (h : Together m.program (signatures functions) returns k l s t) :
    Observation.since k (m.callFor k.calls.length n s) =
      Observation.since l (m.callFor l.calls.length n t) := by
  induction n generalizing s t with
  | zero =>
    have ⟨deeps, deept⟩ := h.twins.calls_lt
    have alike : AlikeSince k l s t := h.twins.console
    simp only [Machine.callFor, Observation.since, if_pos deeps, if_pos deept, alike.written_eq,
      alike.unread]
  | succ n ih =>
    have ⟨deeps, deept⟩ := h.twins.calls_lt
    rw [Machine.callFor, if_pos deeps, Machine.callFor, if_pos deept]
    obtain ⟨_, s', t', hx, hy, next | returned⟩ | ⟨e, s', t', hx, hy, alike⟩ :=
      (h.step hp hh hb hk hl).cases
    · rw [hx, hy]
      exact ih next
    · obtain ⟨⟨cs, ct⟩, ⟨values, ss, st⟩, alike⟩ := returned
      rw [hx, hy]
      dsimp only
      rw [Machine.callFor_of_le (Nat.le_of_eq (congrArg List.length cs)),
        Machine.callFor_of_le (Nat.le_of_eq (congrArg List.length ct))]
      simp only [Observation.since, cs, ct, ss, st, Nat.lt_irrefl, if_false,
        Scopes.received_receiving hk, Scopes.received_receiving hl, alike.written_eq, alike.unread]
    · rw [hx, hy]
      simp only [Observation.since, alike.written_eq, alike.unread]

end

/-- The next instruction calls the function of this name, and these are its arguments. -/
def Program.Calls (p : Program) (s : State) (name : String) (args : List Value) : Prop :=
  ∃ argc returns label site, p.code[s.pc]? = some ⟨.call name argc returns, label, site⟩ ∧
    s.waiting.take argc = args.reverse

/-- The state in which a machine goes on behind the call that it makes in `s`. -/
def State.behind (s : State) (argc : Nat) : State :=
  { Machine.counted s with waiting := s.waiting.drop argc }

section

variable {functions : List Function} {m : Machine} {s t : State} {name : String} {argc : Nat}
  {returns : Option Ty} {label label' : Option String} {site site' : Position}

theorem Machine.step_call (hb : m.budget = none) {target : Nat}
    (hi : m.program.code[s.pc]? = some ⟨.call name argc returns, label, site⟩)
    (bound : m.program.resolve (Label.function name) = some target)
    (waiting : argc ≤ s.waiting.length) :
    m.step s = .ok () { s.behind argc with
      incoming := (s.waiting.take argc).reverse
      calls := ⟨s.pc + 1, returns⟩ :: s.calls
      pc := target
      scopes := .new true :: s.scopes } := by
  have enough : argc ≤ (counted s).waiting.length := waiting
  rw [step_eq_execute hi (exhausted?_none hb s.steps), execute_callFunction bound enough]
  rfl

/-- Two machines that make the same call go on together. -/
theorem Compiled.together (hp : Compiled functions m.host.contains m.program)
    (hb : m.budget = none) {f : Function} (hf : functions.find? (·.name = name) = some f)
    (hs : m.program.code[s.pc]? = some ⟨.call name argc returns, label, site⟩)
    (ht : m.program.code[t.pc]? = some ⟨.call name argc returns, label', site'⟩)
    (running : s.running = true) (ws : argc ≤ s.waiting.length) (wt : argc ≤ t.waiting.length)
    (args : t.waiting.take argc = s.waiting.take argc)
    (console : Console.Alike s.console t.console s.console t.console) :
    ∃ s' t', m.step s = .ok () s' ∧ m.step t = .ok () t' ∧
      Together m.program (signatures functions) f.returns (s.behind argc) (t.behind argc)
        s' t' := by
  obtain ⟨target, bound, _⟩ := hp.within_entry (List.mem_of_find?_eq_some hf)
  have named : f.name = name := by simpa using List.find?_some hf
  rw [named] at bound
  have declared : returns = f.returns := by
    rw [hp.call_returns hs]
    simp [signatures, hf, Function.signature]
  have enters := Machine.step_call hb hs bound ws
  refine ⟨_, _, enters, Machine.step_call hb ht bound wt, ⟨?_, ?_⟩, ?_⟩
  · refine ⟨rfl, congrArg List.reverse args, ⟨[], by simp, ?_, ?_⟩, ⟨[.new true], [], ?_, ?_, ?_⟩,
      ⟨[], rfl, rfl⟩, console⟩
    · rw [declared]
      rfl
    · rw [declared]
      rfl
    · simp [Scope.new]
    · cases hs : s.scopes <;> simp [State.behind, Machine.counted, hs, Scopes.receiving]
    · cases ht : t.scopes <;> simp [State.behind, Machine.counted, ht, Scopes.receiving]
  · exact fun takes => absurd takes (hp.not_takesAt_resolve bound)
  · exact hp.step_inside hs hf running ws enters

end

/-- A call sees nothing of its caller. Two machines that call the same function on the same
arguments and with the same input to read show the same after every number of steps: that the call
has not returned, or the value that it has returned if any, or its fault and where that is; what it
has written; and what it has left of the input. The callers need have nothing else in common, but
that a bounded output takes as many bytes of the one as of the other. -/
theorem calls_isolated {functions : List Function} {p : Program}
    (h : compile functions Host.standard.contains = .ok p) {f : Function} (hf : f ∈ functions)
    {c d : Console} {s t : State} (hs : (Machine.mk p .standard none).Reaches c s)
    (ht : (Machine.mk p .standard none).Reaches d t) {args : List Value}
    (calls : p.Calls s f.name args) (callt : p.Calls t f.name args)
    (unread : t.console.unread = s.console.unread) (left : t.console.left = s.console.left)
    (n : Nat) :
    (Machine.mk p .standard none).observe s n = (Machine.mk p .standard none).observe t n := by
  have hp := compiled_of_compile h
  obtain ⟨argc, returns, label, site, his, argss⟩ := calls
  obtain ⟨argc', returns', label', site', hit, argst⟩ := callt
  obtain ⟨g, hg⟩ : ∃ g, functions.find? (·.name = f.name) = some g := by
    refine Option.isSome_iff_exists.1 (List.find?_isSome.2 ⟨f, hf, by simp⟩)
  have direct := Host.standard_uniform.direct
  obtain ⟨running, ws, ss⟩ := (hs.sound hp direct).before_call hp his
  obtain ⟨_, wt, st⟩ := (ht.sound hp direct).before_call hp hit
  obtain rfl : argc = argc' := (hp.call_arity his hg).symm.trans (hp.call_arity hit hg)
  obtain rfl : returns = returns' := (hp.call_returns his).trans (hp.call_returns hit).symm
  obtain ⟨s', t', steps, stept, together⟩ := hp.together (m := ⟨p, .standard, none⟩) rfl hg his hit
    running ws wt (argst.trans argss.symm) (.refl unread left)
  have same := together.since_eq (k := s.behind argc) (l := t.behind argc) hp
    Host.standard_uniform rfl ss st n
  rw [Machine.observe, Machine.observe, steps, stept]
  exact same

/-- Calls a function from two others. -/
def shared : List Function :=
  [⟨⟨1, 1⟩, "main", [], none,
      [.call ⟨2, 1⟩ ⟨2, 1⟩ "double" [.literal ⟨2, 8⟩ (.int 4)],
        .call ⟨3, 1⟩ ⟨3, 1⟩ "again" [.literal ⟨3, 7⟩ (.int 3)]]⟩,
    ⟨⟨5, 1⟩, "again", [⟨⟨5, 7⟩, .int, "n"⟩], none,
      [.call ⟨6, 1⟩ ⟨6, 1⟩ "double" [.literal ⟨6, 8⟩ (.int 4)]]⟩,
    ⟨⟨8, 1⟩, "double", [⟨⟨8, 8⟩, .int, "a"⟩], some .int,
      [.ret ⟨9, 1⟩ (some (.binary ⟨9, 10⟩ .add (.var ⟨9, 8⟩ "a") (.var ⟨9, 12⟩ "a")))]⟩]

theorem calls_isolated_shared :
    ∃ p s t, compile shared Host.standard.contains = .ok p ∧
      p.Calls s "double" [.int 4] ∧ p.Calls t "double" [.int 4] ∧
      s.calls.length = 1 ∧ t.calls.length = 2 ∧
      ((Machine.mk p .standard none).observe s 9).progress = .returned (some (.int 8)) ∧
      ∀ n, (Machine.mk p .standard none).observe s n =
        (Machine.mk p .standard none).observe t n := by
  obtain ⟨p, s, t, hp, runs, runt, calls, callt, shallow, deep, value, unread, left⟩ : ∃ p s t,
      compile shared Host.standard.contains = .ok p ∧
      Machine.runFor ⟨p, .standard, none⟩ 7 (.initial p.entry (.ofInput [] none)) = .ok () s ∧
      Machine.runFor ⟨p, .standard, none⟩ 31 (.initial p.entry (.ofInput [] none)) = .ok () t ∧
      p.Calls s "double" [.int 4] ∧ p.Calls t "double" [.int 4] ∧
      s.calls.length = 1 ∧ t.calls.length = 2 ∧
      ((Machine.mk p .standard none).observe s 9).progress = .returned (some (.int 8)) ∧
      t.console.unread = s.console.unread ∧ t.console.left = s.console.left :=
    ⟨_, _, _, rfl, rfl, rfl, ⟨1, some .int, none, ⟨2, 1⟩, rfl, rfl⟩,
      ⟨1, some .int, none, ⟨6, 1⟩, rfl, rfl⟩, rfl, rfl, rfl, rfl, rfl⟩
  refine ⟨p, s, t, hp, calls, callt, shallow, deep, value, fun n => ?_⟩
  exact calls_isolated hp (f := shared[2]) (by simp [shared]) (Machine.Reaches.start.runFor runs)
    (Machine.Reaches.start.runFor runt) calls callt unread left n

end StackScript
