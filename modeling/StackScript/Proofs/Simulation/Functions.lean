import StackScript.Proofs.Simulation.Statements

/-!
# Functions

* `sim_bindParams`: parameters are bound as the evaluator binds them;
* `getLast?_of_bodyCode`: a body whose code ends with a return ends with one;
* `sim_invoke`: the machine follows every call.
-/

namespace StackScript

open Program (codeAt_append codeAt_cons)

/-! ## Bodies that return -/

/-- Only returns have code that ends with a return. -/
theorem Stmt.eq_ret_of_code {sigs : Signatures} {base : Nat} {st : Stmt}
    (h : (st.code sigs base).getLast?.map (·.op) = some .ret) :
    ∃ pos value, st = .ret pos value := by
  cases st with
  | ret pos value => exact ⟨pos, value, rfl⟩
  | _ =>
    simp only [Stmt.code, Expr.scopedCode, inScope, List.getLast?_append, List.getLast?_cons_cons,
      List.getLast?_singleton, Option.some_or, Option.map_some, Instr.plain, Instr.labeled,
      Option.some.injEq, reduceCtorEq] at h

theorem getLast?_of_bodyCode {sigs : Signatures} {base : Nat} {body : List Stmt}
    (h : (bodyCode sigs base body).getLast?.map (·.op) = some .ret) :
    ∃ pos value, body.getLast? = some (.ret pos value) := by
  induction body generalizing base with
  | nil => cases h
  | cons st body ih =>
    cases body with
    | nil =>
      rw [bodyCode, bodyCode, List.append_nil] at h
      obtain ⟨pos, value, rfl⟩ := Stmt.eq_ret_of_code h
      exact ⟨pos, value, rfl⟩
    | cons st' body =>
      have tail : bodyCode sigs (base + (st.code sigs base).length) (st' :: body) ≠ [] := by
        simp [bodyCode, Stmt.code_ne_nil]
      rw [bodyCode, List.getLast?_append, Option.or_of_isSome (List.getLast?_isSome.2 tail)] at h
      obtain ⟨pos, value, eq⟩ := ih h
      exact ⟨pos, value, by simpa using eq⟩

theorem Function.body_getLast? {sigs : Signatures} {base : Nat} {f : Function}
    (h : (f.prologue ++ bodyCode sigs base f.body).getLast?.map (·.op) = some .ret) :
    ∃ pos value, f.body.getLast? = some (.ret pos value) := by
  cases hcode : bodyCode sigs base f.body with
  | cons i code =>
    have tail : bodyCode sigs base f.body ≠ [] := by simp [hcode]
    rw [List.getLast?_append, Option.or_of_isSome (List.getLast?_isSome.2 tail)] at h
    exact getLast?_of_bodyCode h
  | nil =>
    obtain ⟨i, last, op⟩ := Option.map_eq_some_iff.1 h
    rw [hcode, List.append_nil] at last
    have mem := List.mem_of_getLast? last
    simp only [prologue, List.mem_cons, List.mem_map] at mem
    obtain rfl | ⟨p, _, rfl⟩ := mem <;> cases op

/-! ## Calls -/

section

variable {m : Machine} {n : Nat}

/-- What the machine is followed to is what the evaluation ends with. -/
theorem Machine.Sim.done {α : Type} {s : State} {Q : α → Console → State → Prop} {x : Outcome α}
    (h : m.Sim n s Q x) : m.Sim n s (fun a c t => Q a c t ∧ x = .done a c) x := by
  cases x with
  | done a c =>
    obtain ⟨k, t, path, ht⟩ := h
    exact ⟨k, t, path, ht, rfl⟩
  | fault | lacks => exact h
  | exhausted => exact h

theorem sim_bindParams (hb : m.budget = none) {a : Activation} {params : List Parameter}
    {args : List Value} (hlen : params.length = args.length) {base : Nat} {env : Env} {c : Console}
    {s : State}
    (hcode : m.program.CodeAt base (params.map fun p => .plain (.bindArg p.ty p.name) p.pos))
    (hs : a.At base env c s) (ha : s.incoming = args) :
    m.Sim n s (a.At (base + params.length)) (bindParams params args env c) := by
  induction params generalizing args base env c s with
  | nil =>
    rw [bindParams]
    exact .pure hs
  | cons p params ih =>
    cases args with
    | nil => cases hlen
    | cons v args =>
      obtain ⟨hbind, hrest⟩ := codeAt_cons.1 hcode
      obtain ⟨vars, shows, hs⟩ := hs
      rw [bindParams]
      apply (hs.bindArg hb hbind shows ha).bind
      rintro env c t ⟨vars, shows, ha, ht⟩
      have rest := ih (Nat.succ.inj hlen) hrest ⟨vars, shows, ht⟩ ha
      exact rest.imp fun _ _ _ hu => hu.at (by simp; omega)

/-- The machine follows a function from its marker to a return. -/
theorem sim_function (hb : m.budget = none) (hl : m.program.LabelsMatch) {sigs : Signatures}
    {call : Calls} (hc : m.FollowsCalls sigs n call) {a : Activation} {f : Function} {base : Nat}
    (hcode : m.program.CodeAt base (f.code sigs base)) (hr : a.frame.returns = f.returns)
    {args : List Value} (hlen : f.params.length = args.length) {c : Console} {s : State}
    (hs : a.At base .empty c s) (ha : s.incoming = args) :
    m.Sim n s (fun v => a.Leaves base (.returned v))
      ((do
        let env ← bindParams f.params args .empty
        match ← execBody (Expr.valueOnto call) f.returns n f.body env with
        | .next _ => return none
        | .returned v => return v : Eval (Option Value)) c) := by
  obtain ⟨tail, eq, htail⟩ := f.code_eq sigs base
  rw [eq] at hcode
  simp only [codeAt_append, Function.prologue, codeAt_cons, List.length_cons, List.length_append,
    List.length_map] at hcode
  obtain ⟨⟨⟨hmarker, hparams⟩, hbody⟩, hret⟩ := hcode
  obtain ⟨vars, shows, hs⟩ := hs
  have entered : a.At (base + 1) .empty c (Machine.counted s) := ⟨vars, shows, hs.counted⟩
  refine .silent hs.running ⟨Machine.counted s, hs.step_ok hb hmarker rfl, rfl⟩ fun _ eq => eq ▸ ?_
  apply (sim_bindParams hb hlen hparams entered ha).bind
  intro env c t ht
  have body := (sim_execBody hb hl hc f.body hbody (ht.at (by omega))).done
  rw [hr] at body
  apply body.bind
  rintro x c u ⟨hu, hx⟩
  cases x with
  | returned v => exact .pure hu
  | next env =>
    obtain rfl | ⟨_, last⟩ := htail
    · obtain ⟨vars, _, hu⟩ := hu
      exact .silent hu.running (hu.ret hb (hret.at (by omega)).head) fun w hw => .pure hw
    · obtain ⟨pos, value, returns⟩ := Function.body_getLast? last
      exact absurd hx (execBody_ne_next returns)

/-- The machine follows every call, however deep the calls inside it go. -/
theorem sim_invoke {functions : List Function}
    (hp : Compiled functions m.host.contains m.program) (hb : m.budget = none) (hh : m.host.Blind)
    (n : Nat) : m.FollowsCalls (signatures functions) n
      (invoke Expr.valueOnto functions m.host n) := by
  induction n with
  | zero =>
    intro s pc calls stack vars final rest waiting c site name args hs hi
    exact .exhausted s _ c
  | succ n ih =>
    intro s pc calls stack vars final rest waiting c site name args hs hi
    rw [invoke]
    cases hf : functions.find? (·.name = name) with
    | none =>
      have missing : m.program.resolve (Label.function name) = none :=
        hp.resolve_function_eq_none (by simpa using hf)
      exact hs.callHost hb hi missing hh (hp.call_isHost hi hf)
    | some f =>
      have named : f.name = name := by simpa using List.find?_some hf
      have returns : (signatures functions name).bind Signature.returns = f.returns := by
        simp [signatures, hf, Function.signature]
      have hlen := hp.call_arity hi hf
      rw [callInstr, returns] at hi
      obtain ⟨base, hcode, target⟩ := hp.function_at (List.mem_of_find?_eq_some hf)
      obtain ⟨t, step, ha, ht⟩ := hs.callFunction hb hi (named ▸ target)
      let a : Activation := ⟨⟨pc + 1, f.returns⟩, calls, [], ⟨stack, vars, final⟩, rest, waiting⟩
      have entered : a.At base .empty c t := ⟨[], shows_empty, ht⟩
      exact .step hs.running step (sim_function hb hp.labels ih hcode rfl hlen entered ha)

end

end StackScript
