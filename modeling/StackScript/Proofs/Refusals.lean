import StackScript.Host
import StackScript.Proofs.Labels

/-!
# Which programs are refused, and why

* `programCalls`: the calls of a program, read off its tree in the order of the code;
* `Stmt.inside`, `statementsOf`: the statements in a statement and in a body, at any depth;
* `Call.Fails`: what is wrong with a call;
* `Refused`: a repeated name comes first, then a missing entry point, then the first call that
  fails;
* `compile_exact`: nothing else is refused, and for no other reason.
-/

namespace StackScript

/-! ## Calls -/

/-- Which function is called, and with how many arguments. -/
structure Call where
  name : String
  argc : Nat
  deriving DecidableEq, Repr

mutual

/-- The calls of an expression. The arguments of a call come before it. -/
def Expr.calls : Expr → List Call
  | .binary _ _ lhs rhs => lhs.calls ++ rhs.calls
  | .literal .. | .var .. => []
  | .call _ _ name args => callsOfAll args ++ [⟨name, args.length⟩]
  | .index _ _ index => index.calls
  | .array _ items => callsOfAll items
  | .paren _ inner => inner.calls

def callsOfAll : List Expr → List Call
  | [] => []
  | e :: es => e.calls ++ callsOfAll es

end

mutual

/-- The calls of a statement. The step of a counting loop comes behind its body. -/
def Stmt.calls : Stmt → List Call
  | .cond _ test body | .loop _ test body => test.calls ++ callsOfBody body
  | .count _ init test step body => init.calls ++ test.calls ++ callsOfBody body ++ step.calls
  | .range _ first last _ body => first.calls ++ last.calls ++ callsOfBody body
  | .ret _ none => []
  | .ret _ (some value) => value.calls
  | .assignItem _ _ index value => index.calls ++ value.calls
  | .assign _ _ _ value => value.calls
  | .call _ _ name args => callsOfAll args ++ [⟨name, args.length⟩]
  | .expr _ value => value.calls

def callsOfBody : List Stmt → List Call
  | [] => []
  | s :: ss => s.calls ++ callsOfBody ss

end

mutual

/-- The statements in a statement, at any depth. -/
def Stmt.inside : Stmt → List Stmt
  | .cond _ _ body | .loop _ _ body | .range _ _ _ _ body => statementsOf body
  | .count _ init _ step body =>
    init :: init.inside ++ step :: step.inside ++ statementsOf body
  | _ => []

/-- The statements of a body, at any depth. -/
def statementsOf : List Stmt → List Stmt
  | [] => []
  | s :: ss => s :: s.inside ++ statementsOf ss

end

theorem statementsOf_append (a b : List Stmt) :
    statementsOf (a ++ b) = statementsOf a ++ statementsOf b := by
  induction a with
  | nil => rfl
  | cons s a ih => simp [statementsOf, ih]

/-- The calls of a program: those of its functions, and at last that of its entry point. -/
def programCalls (functions : List Function) : List Call :=
  functions.flatMap (fun f => callsOfBody f.body) ++ [⟨entryPoint, 0⟩]

/-- What is wrong with a call. -/
inductive Call.Fails (functions : List Function) (isHost : String → Bool) (c : Call) :
    CompileError → Prop
  | arity {f : Function} : f ∈ functions → f.name = c.name → f.params.length ≠ c.argc →
    Fails functions isHost c (.arityMismatch c.name f.params.length c.argc)
  | unresolved : (∀ f ∈ functions, f.name ≠ c.name) → isHost c.name = false →
    Fails functions isHost c (.unresolvedCall c.name)

/-- Why a program is refused. -/
inductive Refused (functions : List Function) (isHost : String → Bool) : CompileError → Prop
  | repeated {before after : List Function} {f : Function} : functions = before ++ f :: after →
    (before.map (·.name)).Nodup → f.name ∈ before.map (·.name) →
    Refused functions isHost (.duplicateFunction f.name)
  | noEntry : (functions.map (·.name)).Nodup → entryPoint ∉ functions.map (·.name) →
    Refused functions isHost .missingEntryPoint
  | call {before after : List Call} {c : Call} {e : CompileError} :
    (functions.map (·.name)).Nodup → entryPoint ∈ functions.map (·.name) →
    programCalls functions = before ++ c :: after →
    (∀ d ∈ before, ∀ e, ¬d.Fails functions isHost e) → c.Fails functions isHost e →
    Refused functions isHost e

/-- Nothing is wrong with a program. -/
structure Accepted (functions : List Function) (isHost : String → Bool) : Prop where
  once : (functions.map (·.name)).Nodup
  entry : entryPoint ∈ functions.map (·.name)
  calls : ∀ c ∈ programCalls functions, ∀ e, ¬c.Fails functions isHost e

/-! ## Calls in the code -/

def Op.call? : Op → Option Call
  | .call name argc _ => some ⟨name, argc⟩
  | _ => none

/-- The calls that instructions make. -/
def callsOf (code : List Instr) : List Call := code.filterMap (·.op.call?)

@[simp] theorem callsOf_nil : callsOf [] = [] := rfl

@[simp] theorem callsOf_append (a b : List Instr) : callsOf (a ++ b) = callsOf a ++ callsOf b :=
  List.filterMap_append ..

@[simp] theorem callsOf_plain (op : Op) (pos : Position) (code : List Instr) :
    callsOf (.plain op pos :: code) = op.call?.toList ++ callsOf code := by
  simp only [callsOf, List.filterMap_cons, Instr.plain]
  cases op.call? <;> rfl

@[simp] theorem callsOf_labeled (label : String) (op : Op) (pos : Position) (code : List Instr) :
    callsOf (.labeled label op pos :: code) = op.call?.toList ++ callsOf code := by
  simp only [callsOf, List.filterMap_cons, Instr.labeled]
  cases op.call? <;> rfl

@[simp] theorem callsOf_inScope (pos : Position) (code : List Instr) :
    callsOf (inScope pos code) = callsOf code := by
  simp [inScope, Op.call?]

mutual

theorem Expr.callsOf_code (sigs : Signatures) : ∀ e : Expr, callsOf (e.code sigs) = e.calls
  | .binary _ _ lhs rhs => by
    simp [Expr.code, Expr.calls, Op.call?, lhs.callsOf_code sigs, rhs.callsOf_code sigs]
  | .literal .. | .var .. => by
    simp [Expr.code, Expr.calls, Op.call?]
  | .call _ site name args => by
    simp [Expr.code, Expr.calls, callInstr, Op.call?, callsOf_argsCode sigs site args]
  | .index _ _ index => by
    simp [Expr.code, Expr.calls, Op.call?, index.callsOf_code sigs]
  | .array _ items => by
    simp [Expr.code, Expr.calls, Op.call?, callsOf_itemsCode sigs items]
  | .paren _ inner => by
    rw [Expr.code, Expr.calls]
    exact inner.callsOf_code sigs

theorem callsOf_argsCode (sigs : Signatures) (site : Position) :
    ∀ es : List Expr, callsOf (argsCode sigs site es) = callsOfAll es
  | [] => by
    rw [argsCode, callsOfAll, callsOf_nil]
  | e :: es => by
    simp [argsCode, callsOfAll, Op.call?, e.callsOf_code sigs, callsOf_argsCode sigs site es]

theorem callsOf_itemsCode (sigs : Signatures) :
    ∀ es : List Expr, callsOf (itemsCode sigs es) = callsOfAll es
  | [] => by
    rw [itemsCode, callsOfAll, callsOf_nil]
  | e :: es => by
    simp [itemsCode, callsOfAll, Op.call?, e.callsOf_code sigs, callsOf_itemsCode sigs es]

end

@[simp] theorem Expr.callsOf_scopedCode (sigs : Signatures) (e : Expr) :
    callsOf (e.scopedCode sigs) = e.calls := by
  rw [Expr.scopedCode, callsOf_inScope, e.callsOf_code sigs]

mutual

theorem Stmt.callsOf_code (sigs : Signatures) :
    ∀ (s : Stmt) (base : Nat), callsOf (s.code sigs base) = s.calls
  | .cond _ _ body, base => by
    simp [Stmt.code, Stmt.calls, Op.call?, callsOf_bodyCode sigs body]
  | .loop _ _ body, base => by
    simp [Stmt.code, Stmt.calls, Op.call?, callsOf_bodyCode sigs body]
  | .count _ init _ step body, base => by
    simp [Stmt.code, Stmt.calls, Op.call?, callsOf_bodyCode sigs body, init.callsOf_code sigs,
      step.callsOf_code sigs]
  | .range _ _ _ _ body, base => by
    simp [Stmt.code, Stmt.calls, Op.call?, callsOf_bodyCode sigs body]
  | .ret _ none, base => by
    simp [Stmt.code, Stmt.calls, Op.call?]
  | .ret _ (some _), base => by
    simp [Stmt.code, Stmt.calls, Op.call?]
  | .assignItem .., base => by
    simp [Stmt.code, Stmt.calls, Op.call?]
  | .assign .., base => by
    simp [Stmt.code, Stmt.calls, Op.call?]
  | .call _ site _ args, base => by
    simp [Stmt.code, Stmt.calls, callCode, callInstr, Op.call?, callsOf_argsCode sigs site args]
  | .expr .., base => by
    simp [Stmt.code, Stmt.calls]

theorem callsOf_bodyCode (sigs : Signatures) :
    ∀ (ss : List Stmt) (base : Nat), callsOf (bodyCode sigs base ss) = callsOfBody ss
  | [], base => by
    rw [bodyCode, callsOfBody, callsOf_nil]
  | s :: ss, base => by
    simp [bodyCode, callsOfBody, s.callsOf_code sigs, callsOf_bodyCode sigs ss]

end

namespace Function

theorem callsOf_code (sigs : Signatures) (base : Nat) (f : Function) :
    callsOf (f.code sigs base) = callsOfBody f.body := by
  have before : callsOf f.prologue = [] := by
    refine List.filterMap_eq_nil_iff.2 fun i hi => ?_
    simp only [prologue, List.mem_cons, List.mem_map] at hi
    obtain rfl | ⟨p, _, rfl⟩ := hi <;> rfl
  obtain ⟨tail, eq, htail⟩ := f.code_eq sigs base
  have after : callsOf tail = [] := by
    obtain rfl | ⟨rfl, _⟩ := htail <;> rfl
  rw [eq, callsOf_append, callsOf_append, before, after, callsOf_bodyCode, List.append_nil,
    List.nil_append]

theorem callsOf_codeAll (sigs : Signatures) (base : Nat) (fs : List Function) :
    callsOf (codeAll sigs base fs) = fs.flatMap fun f => callsOfBody f.body := by
  induction fs generalizing base with
  | nil => rfl
  | cons f fs ih => rw [codeAll, callsOf_append, f.callsOf_code, ih, List.flatMap_cons]

end Function

/-- The code of a program makes the calls of its tree, in their order. -/
theorem callsOf_program (sigs : Signatures) (functions : List Function) :
    callsOf (Function.codeAll sigs 0 functions ++ startCode sigs) = programCalls functions := by
  rw [callsOf_append, Function.callsOf_codeAll]
  rfl

/-! ## Names -/

theorem firstRepeated?_eq_some {seen names : List String} {name : String} :
    firstRepeated? seen names = some name ↔
      ∃ before after, names = before ++ name :: after ∧ before.Nodup ∧
        (∀ n ∈ before, n ∉ seen) ∧ (name ∈ before ∨ name ∈ seen) := by
  induction names generalizing seen with
  | nil => simp [firstRepeated?]
  | cons head names ih =>
    rw [firstRepeated?]
    split
    · rename_i old
      constructor
      · intro eq
        cases eq
        exact ⟨[], names, rfl, .nil, by simp, .inr old⟩
      · rintro ⟨before, after, eq, _, new, _⟩
        cases before with
        | nil =>
          cases eq
          rfl
        | cons _ before =>
          cases eq
          exact absurd old (new _ (by simp))
    · rename_i new
      rw [ih]
      constructor
      · rintro ⟨before, after, rfl, nodup, apart, found⟩
        refine ⟨head :: before, after, rfl, ?_, ?_, ?_⟩
        · exact List.nodup_cons.2 ⟨fun h => apart head h (by simp), nodup⟩
        · exact List.forall_mem_cons.2 ⟨new, fun n hn h => apart n hn (by simp [h])⟩
        · simp only [List.mem_cons] at found ⊢
          grind
      · rintro ⟨before, after, eq, nodup, apart, found⟩
        cases before with
        | nil =>
          cases eq
          exact absurd (found.resolve_left (by simp)) new
        | cons _ before =>
          cases eq
          obtain ⟨absent, nodup⟩ := List.nodup_cons.1 nodup
          refine ⟨before, after, rfl, nodup, fun n hn h => ?_, ?_⟩
          · obtain rfl | h := List.mem_cons.1 h
            · exact absent hn
            · exact apart n (by simp [hn]) h
          · simp only [List.mem_cons] at found ⊢
            grind

theorem firstRepeated?_eq_none {seen names : List String} :
    firstRepeated? seen names = none ↔ names.Nodup ∧ ∀ n ∈ names, n ∉ seen := by
  induction names generalizing seen with
  | nil => simp [firstRepeated?]
  | cons head names ih =>
    rw [firstRepeated?]
    split
    · simp_all
    · rw [ih]
      simp only [List.nodup_cons, List.mem_cons]
      grind

theorem find?_eq_of_nodup {functions : List Function} {f : Function}
    (h : (functions.map (·.name)).Nodup) (hf : f ∈ functions) :
    functions.find? (·.name = f.name) = some f := by
  induction functions with
  | nil => cases hf
  | cons g functions ih =>
    obtain ⟨absent, nodup⟩ := List.nodup_cons.1 h
    by_cases same : g.name = f.name
    · obtain rfl | hf := List.mem_cons.1 hf
      · simp
      · have again : g.name ∈ functions.map (·.name) := List.mem_map.2 ⟨f, hf, same.symm⟩
        exact absurd again absent
    · have later : f ∈ functions := (List.mem_cons.1 hf).resolve_left (fun eq => same (eq ▸ rfl))
      simpa [same] using ih nodup later

/-! ## The first call that fails -/

/-- What is wrong with a call, as far as signatures tell. -/
def Call.error? (sigs : Signatures) (isHost : String → Bool) (c : Call) : Option CompileError :=
  match sigs c.name with
  | some sig => if sig.arity = c.argc then none else some (.arityMismatch c.name sig.arity c.argc)
  | none => if isHost c.name then none else some (.unresolvedCall c.name)

theorem findSome?_callError? (sigs : Signatures) (isHost : String → Bool) (code : List Instr) :
    code.findSome? (callError? sigs isHost) =
      (callsOf code).findSome? (Call.error? sigs isHost) := by
  have each (i : Instr) : callError? sigs isHost i = i.op.call?.bind (Call.error? sigs isHost) := by
    unfold callError?
    cases i.op <;> rfl
  induction code with
  | nil => rfl
  | cons i code ih =>
    simp only [List.findSome?_cons, each, ih, callsOf, List.filterMap_cons]
    cases i.op.call? <;> rfl

theorem Call.error?_eq_some {functions : List Function} (h : (functions.map (·.name)).Nodup)
    {isHost : String → Bool} {c : Call} {e : CompileError} :
    c.error? (signatures functions) isHost = some e ↔ c.Fails functions isHost e := by
  unfold Call.error? signatures
  cases hf : functions.find? (·.name = c.name) with
  | some f =>
    have mem := List.mem_of_find?_eq_some hf
    have named : f.name = c.name := by simpa using List.find?_some hf
    simp only [Option.map_some, Function.signature]
    constructor
    · intro eq
      split at eq
      · cases eq
      · cases eq
        exact .arity mem named ‹_›
    · intro fails
      cases fails with
      | @arity g hg named' differ =>
        obtain rfl : g = f := Option.some.inj ((named' ▸ find?_eq_of_nodup h hg).symm.trans hf)
        exact if_neg differ
      | unresolved none _ => exact absurd named (none f mem)
  | none =>
    have none : ∀ f ∈ functions, f.name ≠ c.name := by simpa using hf
    simp only [Option.map_none]
    constructor
    · intro eq
      split at eq
      · cases eq
      · cases eq
        exact .unresolved none (Bool.eq_false_iff.2 ‹_›)
    · intro fails
      cases fails with
      | arity hg named _ => exact absurd named (none _ hg)
      | unresolved _ missing => simp [missing]

/-! ## Programs -/

section

variable {functions : List Function} {isHost : String → Bool}

/-- Functions with different names are accepted one after the other. -/
theorem exists_declared (h : (functions.map (·.name)).Nodup) (sigs : Signatures) :
    ∃ p, functions.foldlM (Program.pushFunction sigs) .empty = .ok p ∧ p.LabelsMatch ∧
      p.code.toList = Function.codeAll sigs 0 functions := by
  have new := Function.codeAll_nodup sigs 0 h
  obtain ⟨p, hp⟩ := Program.exists_pushFunctions Program.labelsMatch_empty new
  have pushed := Program.pushAll_of_pushFunctions hp
  refine ⟨p, hp, Program.pushAll_labelsMatch Program.labelsMatch_empty pushed, ?_⟩
  rw [Program.pushAll_code pushed, Array.toList_appendList]
  rfl

/-- When a function gets its turn, its label is free. -/
theorem label_free (h : (functions.map (·.name)).Nodup) (sigs : Signatures)
    {before after : List Function} {f : Function} (split : functions = before ++ f :: after) :
    ∃ p, before.foldlM (Program.pushFunction sigs) .empty = .ok p ∧
      p.resolve (Label.function f.name) = none := by
  rw [split, ← List.singleton_append, ← List.append_assoc, List.map_append] at h
  have upTo := (List.nodup_append.1 h).1
  have earlier := upTo
  rw [List.map_append] at earlier
  obtain ⟨p, hp, labels, code⟩ := exists_declared (List.nodup_append.1 earlier).1 sigs
  have new := Function.codeAll_nodup sigs 0 upTo
  rw [Function.codeAll_append, ← code, Array.length_toList, Nat.zero_add] at new
  simp only [Function.codeAll, List.append_nil] at new
  exact ⟨p, hp, (Program.exists_pushFunction labels new).1⟩

/-- Without repeated names all code is there, and only calls are left to check. -/
theorem compile_of_nodup (h : (functions.map (·.name)).Nodup)
    (main : entryPoint ∈ functions.map (·.name)) (isHost : String → Bool) :
    ∃ p, compile functions isHost =
      match (programCalls functions).findSome? (Call.error? (signatures functions) isHost) with
      | some e => .error e
      | none => .ok p := by
  have once : firstRepeated? [] (functions.map (·.name)) = none :=
    firstRepeated?_eq_none.2 ⟨h, by simp⟩
  have entry : (signatures functions entryPoint).isNone = false := by
    simpa [signatures] using main
  obtain ⟨declared, hd, labels, code⟩ := exists_declared h (signatures functions)
  obtain ⟨p, hp⟩ : ∃ p, declared.pushAll (startCode (signatures functions)) = .ok p := by
    refine Program.exists_pushAll labels ?_
    rw [labelsOf_append, code]
    simpa [startCode, callCode, argsCode, callInstr] using Function.codeAll_nodup _ 0 h
  have whole : p.code.toList.findSome? (callError? (signatures functions) isHost) =
      (programCalls functions).findSome? (Call.error? (signatures functions) isHost) := by
    rw [findSome?_callError?, Program.pushAll_code hp, Array.toList_appendList, code,
      callsOf_program]
  refine ⟨{ p with entry := declared.code.size }, ?_⟩
  unfold compile
  simp only [once, entry, hd, hp, whole, bind, Except.bind]
  cases (programCalls functions).findSome? (Call.error? (signatures functions) isHost) <;> rfl

theorem compile_of_repeated {name : String}
    (h : firstRepeated? [] (functions.map (·.name)) = some name) :
    compile functions isHost = .error (.duplicateFunction name) := by
  unfold compile
  rw [h]
  rfl

theorem compile_of_noEntry (h : (functions.map (·.name)).Nodup)
    (main : entryPoint ∉ functions.map (·.name)) :
    compile functions isHost = .error .missingEntryPoint := by
  have once : firstRepeated? [] (functions.map (·.name)) = none :=
    firstRepeated?_eq_none.2 ⟨h, by simp⟩
  have entry : (signatures functions entryPoint).isNone = true := by
    simpa [signatures] using main
  unfold compile
  rw [once]
  simp only [entry]
  rfl

theorem Refused.compile_eq {e : CompileError} (h : Refused functions isHost e) :
    compile functions isHost = .error e := by
  cases h with
  | @repeated before after f split once again =>
    refine compile_of_repeated (firstRepeated?_eq_some.2
      ⟨_, after.map (·.name), ?_, once, by simp, .inl again⟩)
    simp [split]
  | noEntry once entry => exact compile_of_noEntry once entry
  | @call before after c _ once entry split fine fails =>
    obtain ⟨p, hp⟩ := compile_of_nodup once entry isHost
    have first : (programCalls functions).findSome? (Call.error? (signatures functions) isHost) =
        some e := by
      refine List.findSome?_eq_some_iff.2 ⟨before, c, after, split, ?_, fun d hd => ?_⟩
      · exact (Call.error?_eq_some once).2 fails
      · exact Option.eq_none_iff_forall_ne_some.2 fun e' he' =>
          fine d hd e' ((Call.error?_eq_some once).1 he')
    rw [hp, first]

theorem Accepted.exists_compile (h : Accepted functions isHost) :
    ∃ p, compile functions isHost = .ok p := by
  obtain ⟨p, hp⟩ := compile_of_nodup h.once h.entry isHost
  have fine : (programCalls functions).findSome? (Call.error? (signatures functions) isHost) =
      none := by
    refine List.findSome?_eq_none_iff.2 fun c hc => Option.eq_none_iff_forall_ne_some.2 ?_
    exact fun e he => h.calls c hc e ((Call.error?_eq_some h.once).1 he)
  exact ⟨p, by rw [hp, fine]⟩

/-- Every program is accepted, or refused for some reason. -/
theorem accepted_or_refused (functions : List Function) (isHost : String → Bool) :
    Accepted functions isHost ∨ ∃ e, Refused functions isHost e := by
  by_cases once : (functions.map (·.name)).Nodup
  · by_cases entry : entryPoint ∈ functions.map (·.name)
    · cases first : (programCalls functions).findSome?
          (Call.error? (signatures functions) isHost) with
      | none =>
        refine .inl ⟨once, entry, fun c hc e fails => ?_⟩
        have fine := List.findSome?_eq_none_iff.1 first c hc
        rw [(Call.error?_eq_some once).2 fails] at fine
        cases fine
      | some e =>
        obtain ⟨before, c, after, split, fails, fine⟩ := List.findSome?_eq_some_iff.1 first
        refine .inr ⟨e, .call once entry split (fun d hd e' fails' => ?_) ?_⟩
        · have none := fine d hd
          rw [(Call.error?_eq_some once).2 fails'] at none
          cases none
        · exact (Call.error?_eq_some once).1 fails
    · exact .inr ⟨_, .noEntry once entry⟩
  · cases first : firstRepeated? [] (functions.map (·.name)) with
    | none => exact absurd (firstRepeated?_eq_none.1 first).1 once
    | some name =>
      obtain ⟨names, later, split, nodup, _, again⟩ := firstRepeated?_eq_some.1 first
      obtain ⟨before, rest, rfl, rfl, tail⟩ := List.map_eq_append_iff.1 split
      obtain ⟨f, after, rfl, rfl, _⟩ := List.map_eq_cons_iff.1 tail
      exact .inr ⟨_, .repeated rfl nodup (again.resolve_right (by simp))⟩

end

/-- A program is refused exactly for the first of its faults: a repeated name, else a missing entry
point, else the first call that fails. Without any of them it is accepted. Labels are never a
reason, and no function finds its label taken when it gets its turn. -/
theorem compile_exact (functions : List Function) (isHost : String → Bool) :
    (∀ e, compile functions isHost = .error e ↔ Refused functions isHost e) ∧
      ((∃ p, compile functions isHost = .ok p) ↔ Accepted functions isHost) ∧
      (∀ label, compile functions isHost ≠ .error (.duplicateLabel label)) ∧
      ((functions.map (·.name)).Nodup → ∀ before f after, functions = before ++ f :: after →
        ∃ p, before.foldlM (Program.pushFunction (signatures functions)) .empty = .ok p ∧
          p.resolve (Label.function f.name) = none) := by
  have refused (e : CompileError) (h : compile functions isHost = .error e) :
      Refused functions isHost e := by
    obtain accepted | ⟨e', refused⟩ := accepted_or_refused functions isHost
    · obtain ⟨p, hp⟩ := accepted.exists_compile
      cases h.symm.trans hp
    · cases h.symm.trans refused.compile_eq
      exact refused
  refine ⟨fun e => ⟨refused e, Refused.compile_eq⟩, ⟨?_, Accepted.exists_compile⟩, ?_, ?_⟩
  · rintro ⟨p, hp⟩
    obtain accepted | ⟨e, refused⟩ := accepted_or_refused functions isHost
    · exact accepted
    · cases hp.symm.trans refused.compile_eq
  · intro label h
    cases refused _ h with
    | call _ _ _ _ fails => cases fails
  · exact fun once before f after split => label_free once _ split

/-- Calls a function that is nowhere in the body of a loop, and one with too many arguments in its
step. -/
def misused : List Function :=
  [⟨⟨1, 1⟩, "_function.main", [⟨⟨1, 10⟩, .int, "n"⟩], none, []⟩,
    ⟨⟨3, 1⟩, "main", [], none,
      [.count ⟨4, 1⟩ (.assign ⟨4, 6⟩ (some .int) "i" (.literal ⟨4, 14⟩ (.int 0)))
        (.binary ⟨4, 19⟩ .lt (.var ⟨4, 17⟩ "i") (.literal ⟨4, 21⟩ (.int 9)))
        (.call ⟨4, 24⟩ ⟨4, 24⟩ "_function.main" [.var ⟨4, 39⟩ "i", .var ⟨4, 42⟩ "i"])
        [.call ⟨5, 3⟩ ⟨5, 3⟩ "out" [.call ⟨5, 7⟩ ⟨5, 7⟩ "missing" []]]]⟩]

theorem compile_exact_misused :
    Refused misused Host.standard.contains (.unresolvedCall "missing") ∧
      ¬Refused misused Host.standard.contains (.arityMismatch "_function.main" 1 2) ∧
      ∃ p, (misused.take 1).foldlM (Program.pushFunction (signatures misused)) .empty = .ok p ∧
        p.resolve (Label.function "main") = none := by
  obtain ⟨exact, _, _, free⟩ := compile_exact misused Host.standard.contains
  have compiled : compile misused Host.standard.contains = .error (.unresolvedCall "missing") := rfl
  have main := free (by decide) (misused.take 1) _ [] rfl
  refine ⟨(exact _).1 compiled, fun h => ?_, main⟩
  cases compiled.symm.trans ((exact _).2 h)

end StackScript
