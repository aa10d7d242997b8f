import StackScript.Proofs.Layout
import StackScript.Proofs.Simulation.Instructions

/-!
# Expressions

The code of an expression leaves on the stack of its scope what the evaluator leaves, and nothing
else.
-/

namespace StackScript

open Program (codeAt_append codeAt_cons)

/-- The machine follows calls from every place where it stands before one. -/
def Machine.FollowsCalls (m : Machine) (sigs : Signatures) (n : Nat) (call : Calls) : Prop :=
  ∀ {s : State} {pc : Nat} {calls : List Frame} {stack : List Value}
    {vars : List (String × Binding)} {final : Bool} {rest : Scopes} {waiting : List Value}
    {c : Console} {site : Position} {name : String} {args : List Value},
    s.Stands pc calls (⟨stack, vars, final⟩ :: rest) (args.reverse ++ waiting) c →
    m.program.code[pc]? = some (callInstr sigs site name args.length) →
    m.Sim n s
      (fun v c t => t.Stands (pc + 1) calls (⟨v.toList ++ stack, vars, final⟩ :: rest) waiting c)
      (call site name args c)

theorem codeAt_inScope {p : Program} {base : Nat} {pos : Position} {code : List Instr}
    (h : p.CodeAt base (inScope pos code)) : p.CodeAt (base + 1) code := by
  simp only [inScope, codeAt_append] at h
  exact h.1.2

section

variable {m : Machine} {sigs : Signatures} {n : Nat} {call : Calls}

/-- What code leaves on the stack of its own scope, the next instruction finds on top. -/
theorem sim_inScope {α : Type} (hb : m.budget = none) {x : Eval α} {left : α → List Value}
    {base : Nat} {pos : Position} {code : List Instr} {s : State} {calls : List Frame}
    {scopes : Scopes} {waiting : List Value} {c : Console}
    (hcode : m.program.CodeAt base (inScope pos code))
    (hs : s.Stands base calls scopes waiting c)
    (hx : ∀ t, t.Stands (base + 1) calls (⟨[], [], false⟩ :: scopes) waiting c →
      m.Sim n t (fun a c u => u.Stands (base + 1 + code.length) calls
        (⟨left a, [], false⟩ :: scopes) waiting c) (x c)) :
    m.Sim n s (fun a c t => t.Stands (base + (inScope pos code).length) calls scopes waiting c ∧
      t.result = (left a).head?) (x c) := by
  simp only [inScope, codeAt_append, codeAt_cons, List.length_append, List.length_cons,
    List.length_nil] at hcode
  obtain ⟨⟨⟨hopen, _⟩, _⟩, hclose, _⟩ := hcode
  apply Machine.Sim.silent hs.running (hs.openScope hb hopen)
  intro t ht
  have body := hx t ht
  rw [← bind_pure x]
  apply body.bind
  intro a c u hu
  have hu : u.Stands (base + (0 + 1 + code.length)) calls (⟨left a, [], false⟩ :: scopes) waiting
      c := hu.at (by omega)
  refine .silent hu.running (hu.closeScope hb hclose) fun w ⟨hw, hr⟩ => .pure ⟨hw.at ?_, hr⟩
  simp [inScope]
  omega

mutual

/-- The code of an expression does to the stack of its scope what the evaluator does to its waiting
operands. -/
theorem sim_evalOnto (hb : m.budget = none) (hc : m.FollowsCalls sigs n call) {env : Env} :
    ∀ (e : Expr) {base : Nat} {s : State} {calls : List Frame} {stack : List Value}
    {vars : List (String × Binding)} {final : Bool} {rest : Scopes} {waiting : List Value}
    {c : Console},
    m.program.CodeAt base (e.code sigs) →
    s.Stands base calls (⟨stack, vars, final⟩ :: rest) waiting c →
    Sees vars final rest env →
    m.Sim n s (fun stack c t => t.Stands (base + (e.code sigs).length) calls
      (⟨stack, vars, final⟩ :: rest) waiting c) (e.evalOnto call env stack c)
  | .binary pos op lhs rhs, base, s, calls, stack, vars, final, rest, waiting, c => by
    intro hcode hs hv
    simp only [Expr.code, codeAt_append, codeAt_cons, List.length_append, List.length_cons,
      List.length_nil] at hcode ⊢
    obtain ⟨⟨hl, hr⟩, hop, _⟩ := hcode
    rw [Expr.evalOnto]
    apply (sim_evalOnto hb hc lhs hl hs hv).bind
    intro stack c t ht
    apply (sim_evalOnto hb hc rhs hr ht hv).bind
    intro stack c t ht
    exact ((ht.at (by omega)).apply hb hop).imp fun _ _ _ hu => hu.at (by omega)
  | .literal pos value, base, s, calls, stack, vars, final, rest, waiting, c => by
    intro hcode hs hv
    rw [Expr.evalOnto]
    exact .silent hs.running (hs.push hb hcode.head) fun t ht => .pure ht
  | .var pos name, base, s, calls, stack, vars, final, rest, waiting, c => by
    intro hcode hs hv
    rw [Expr.evalOnto]
    exact (hs.load hb hcode.head hv).bind fun v c t ht => .pure ht
  | .call pos site name args, base, s, calls, stack, vars, final, rest, waiting, c => by
    intro hcode hs hv
    simp only [Expr.code, codeAt_append, codeAt_cons, List.length_append, List.length_cons,
      List.length_nil] at hcode ⊢
    obtain ⟨hargs, hcall, _⟩ := hcode
    rw [Expr.evalOnto]
    apply (sim_args hb hc args hargs hs hv).bind
    rintro vs c t ⟨ht, hlen⟩
    exact (hc ht (hlen ▸ hcall)).bind fun v c u hu => .pure (hu.at (by omega))
  | .index pos name index, base, s, calls, stack, vars, final, rest, waiting, c => by
    intro hcode hs hv
    simp only [Expr.code, codeAt_append, codeAt_cons, List.length_append, List.length_cons,
      List.length_nil] at hcode ⊢
    obtain ⟨hindex, hload, _⟩ := hcode
    rw [Expr.evalOnto]
    have inner := sim_inScope hb hindex hs fun t ht =>
      sim_evalOnto hb hc index (codeAt_inScope hindex) ht (hv.opened stack)
    apply inner.bind
    rintro vs c t ⟨ht, hr⟩
    apply ht.needed hb hload rfl hr
    intro v hr
    exact (ht.loadItem hb hload hv hr).bind fun v c u hu => .pure (hu.at (by omega))
  | .array pos items, base, s, calls, stack, vars, final, rest, waiting, c => by
    intro hcode hs hv
    simp only [Expr.code, codeAt_append, codeAt_cons, List.length_append, List.length_cons,
      List.length_nil] at hcode ⊢
    obtain ⟨⟨hempty, _⟩, hitems⟩ := hcode
    rw [Expr.evalOnto]
    apply Machine.Sim.silent hs.running (hs.emptyArray hb hempty)
    intro t ht
    apply (sim_items hb hc items hitems (ht.at (by omega)) hv).bind
    intro vs c u hu
    exact .pure (hu.at (by omega))
  | .paren pos inner, base, s, calls, stack, vars, final, rest, waiting, c => by
    intro hcode hs hv
    rw [Expr.code] at hcode ⊢
    rw [Expr.evalOnto]
    exact sim_evalOnto hb hc inner hcode hs hv

theorem sim_args (hb : m.budget = none) (hc : m.FollowsCalls sigs n call) {env : Env}
    {site : Position} : ∀ (es : List Expr) {base : Nat} {s : State} {calls : List Frame}
    {stack : List Value} {vars : List (String × Binding)} {final : Bool} {rest : Scopes}
    {waiting : List Value} {c : Console},
    m.program.CodeAt base (argsCode sigs site es) →
    s.Stands base calls (⟨stack, vars, final⟩ :: rest) waiting c →
    Sees vars final rest env →
    m.Sim n s (fun vs c t => t.Stands (base + (argsCode sigs site es).length) calls
      (⟨stack, vars, final⟩ :: rest) (vs.reverse ++ waiting) c ∧ vs.length = es.length)
      (argsOnto call env site es c)
  | [], base, s, calls, stack, vars, final, rest, waiting, c => by
    intro _ hs _
    rw [argsOnto]
    exact .pure ⟨hs, rfl⟩
  | e :: es, base, s, calls, stack, vars, final, rest, waiting, c => by
    intro hcode hs hv
    simp only [argsCode, codeAt_append, codeAt_cons, List.length_append, List.length_cons,
      List.length_nil] at hcode ⊢
    obtain ⟨⟨he, hpass, _⟩, hes⟩ := hcode
    rw [argsOnto]
    have inner := sim_inScope hb he hs fun t ht =>
      sim_evalOnto hb hc e (codeAt_inScope he) ht (hv.opened stack)
    apply inner.bind
    rintro vs c t ⟨ht, hr⟩
    apply ht.needed hb hpass rfl hr
    intro v hr
    apply Machine.Sim.silent ht.running (ht.passArg hb hpass hr)
    intro u hu
    apply (sim_args hb hc es hes (hu.at (by omega)) hv).bind
    rintro vs c w ⟨hw, hlen⟩
    refine .pure ⟨?_, by simp [hlen]⟩
    simpa using hw.at (by omega)

theorem sim_items (hb : m.budget = none) (hc : m.FollowsCalls sigs n call) {env : Env} :
    ∀ (es : List Expr) {base : Nat} {s : State} {calls : List Frame} {items stack : List Value}
    {vars : List (String × Binding)} {final : Bool} {rest : Scopes} {waiting : List Value}
    {c : Console},
    m.program.CodeAt base (itemsCode sigs es) →
    s.Stands base calls (⟨.array items :: stack, vars, final⟩ :: rest) waiting c →
    Sees vars final rest env →
    m.Sim n s (fun items c t => t.Stands (base + (itemsCode sigs es).length) calls
      (⟨.array items :: stack, vars, final⟩ :: rest) waiting c) (itemsOnto call env es items c)
  | [], base, s, calls, items, stack, vars, final, rest, waiting, c => by
    intro _ hs _
    rw [itemsOnto]
    exact .pure hs
  | e :: es, base, s, calls, items, stack, vars, final, rest, waiting, c => by
    intro hcode hs hv
    simp only [itemsCode, codeAt_append, codeAt_cons, List.length_append, List.length_cons,
      List.length_nil] at hcode ⊢
    obtain ⟨⟨he, happend, _⟩, hes⟩ := hcode
    rw [itemsOnto]
    have inner := sim_inScope hb he hs fun t ht =>
      sim_evalOnto hb hc e (codeAt_inScope he) ht (hv.opened _)
    apply inner.bind
    rintro vs c t ⟨ht, hr⟩
    apply ht.needed hb happend rfl hr
    intro v hr
    apply Machine.Sim.silent ht.running (ht.append hb happend hr)
    intro u hu
    exact (sim_items hb hc es hes (hu.at (by omega)) hv).imp fun _ _ _ hw => hw.at (by omega)

end

/-- The value of a whole expression is the result that its scope leaves, if it has one. -/
theorem sim_value (hb : m.budget = none) (hc : m.FollowsCalls sigs n call) {env : Env} {e : Expr}
    {base : Nat} {s : State} {calls : List Frame} {stack : List Value}
    {vars : List (String × Binding)} {final : Bool} {rest : Scopes} {waiting : List Value}
    {c : Console} (hcode : m.program.CodeAt base (e.scopedCode sigs))
    (hs : s.Stands base calls (⟨stack, vars, final⟩ :: rest) waiting c)
    (hv : Sees vars final rest env) :
    m.Sim n s (fun v c t => t.Stands (base + (e.scopedCode sigs).length) calls
      (⟨stack, vars, final⟩ :: rest) waiting c ∧ t.result = v) (e.valueOnto call env c) := by
  have inner := sim_inScope hb hcode hs fun t ht =>
    sim_evalOnto hb hc e (codeAt_inScope hcode) ht (hv.opened stack)
  rw [Expr.valueOnto]
  exact inner.bind fun vs c t ht => .pure ht

/-- A value that an instruction needs is there for it, or the instruction fails. -/
theorem sim_needed {α : Type} {Q : α → Console → State → Prop} (hb : m.budget = none)
    (hc : m.FollowsCalls sigs n call) {env : Env} {e : Expr} {f : Value → Eval α} {base : Nat}
    {pos : Position} {op : Op} {label : Option String} {s : State} {calls : List Frame}
    {stack : List Value} {vars : List (String × Binding)} {final : Bool} {rest : Scopes}
    {waiting : List Value} {c : Console} (hcode : m.program.CodeAt base (e.scopedCode sigs))
    (hi : m.program.code[base + (e.scopedCode sigs).length]? = some ⟨op, label, pos⟩)
    (ho : op.takesResult = true) (hs : s.Stands base calls (⟨stack, vars, final⟩ :: rest) waiting c)
    (hv : Sees vars final rest env)
    (h : ∀ v c t, t.Stands (base + (e.scopedCode sigs).length) calls
      (⟨stack, vars, final⟩ :: rest) waiting c → t.result = some v → m.Sim n t Q (f v c)) :
    m.Sim n s Q ((Values.needed (Expr.valueOnto call) pos e env >>= f) c) := by
  rw [Values.needed, bind_assoc]
  apply (sim_value hb hc hcode hs hv).bind
  rintro v c t ⟨ht, hr⟩
  exact ht.needed hb hi ho hr fun v hr => h v c t ht hr

end

end StackScript
