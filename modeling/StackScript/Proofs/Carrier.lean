import StackScript.Proofs.Layout

/-!
# Where results are taken

The result of the scope closed last is taken by the next instruction or not at all.

* `Fed`: instructions that take a result stand right behind the end of a scope, and carry no label;
* `Compiled.fed`: so it is in compiled code;
* `Program.TakesAt`: the places where a result is taken, which no jump, call or return leads to.
-/

namespace StackScript

/-- Does the instruction take the last result before anything else? -/
def Op.takesResult : Op → Bool
  | .assign .. | .assignItem _ | .handBack | .pushResult | .passArg | .jumpUnless .. | .append
  | .loadItem _ => true
  | _ => false

/-- Instructions that take a result stand behind the end of a scope and carry no label. -/
def Fed (code : List Instr) : Prop :=
  ∀ (k : Nat) (i : Instr), code[k]? = some i → i.op.takesResult = true →
    i.label = none ∧ ∃ n j, k = n + 1 ∧ code[n]? = some j ∧ j.op = .closeScope

namespace Fed

variable {a b code : List Instr} {i : Instr}

theorem append (ha : Fed a) (hb : Fed b) : Fed (a ++ b) := by
  intro k i hi takes
  by_cases hk : k < a.length
  · rw [List.getElem?_append_left hk] at hi
    obtain ⟨label, n, j, rfl, hj, closes⟩ := ha k i hi takes
    exact ⟨label, n, j, rfl, by rwa [List.getElem?_append_left (by omega)], closes⟩
  · rw [List.getElem?_append_right (by omega)] at hi
    obtain ⟨label, n, j, eq, hj, closes⟩ := hb _ i hi takes
    refine ⟨label, a.length + n, j, by omega, ?_, closes⟩
    rwa [List.getElem?_append_right (by omega), Nat.add_sub_cancel_left]

theorem nil : Fed [] := by
  intro k i hi
  cases hi

theorem singleton (h : i.op.takesResult = false) : Fed [i] := by
  intro k j hj takes
  rw [List.mem_singleton.1 (List.mem_of_getElem? hj), h] at takes
  cases takes

theorem scope (h : Fed code) (pos : Position) : Fed (inScope pos code) :=
  ((singleton rfl).append h).append (singleton rfl)

/-- The instruction behind a scope may take its result. -/
theorem behind (h : Fed code) {pos : Position} (hi : i.label = none) (hb : Fed b) :
    Fed (inScope pos code ++ ([i] ++ b)) := by
  have taken : Fed (inScope pos code ++ [i]) := by
    intro k j hj takes
    have length : (inScope pos code).length = code.length + 1 + 1 := by simp [inScope]
    by_cases hk : k < (inScope pos code).length
    · rw [List.getElem?_append_left hk] at hj
      obtain ⟨label, n, j, rfl, before, closes⟩ := h.scope pos k j hj takes
      exact ⟨label, n, j, rfl, by rwa [List.getElem?_append_left (by omega)], closes⟩
    · rw [List.getElem?_append_right (by omega)] at hj
      obtain rfl : j = i := List.mem_singleton.1 (List.mem_of_getElem? hj)
      have last : k - (inScope pos code).length < 1 := by
        simpa using (List.getElem?_eq_some_iff.1 hj).1
      refine ⟨hi, code.length + 1, .plain .closeScope pos, by omega, ?_, rfl⟩
      rw [List.getElem?_append_left (by omega), inScope, List.getElem?_append_right (by simp)]
      simp
  rw [← List.append_assoc]
  exact taken.append hb

end Fed

mutual

theorem Expr.code_fed (sigs : Signatures) : ∀ e : Expr, Fed (e.code sigs)
  | .binary pos op lhs rhs => by
    rw [Expr.code]
    exact ((lhs.code_fed sigs).append (rhs.code_fed sigs)).append (.singleton rfl)
  | .literal .. | .var .. => by
    rw [Expr.code]
    exact .singleton rfl
  | .call pos site name args => by
    rw [Expr.code]
    exact (argsCode_fed sigs site args).append (.singleton rfl)
  | .index pos name index => by
    rw [Expr.code]
    exact .behind (b := []) (index.code_fed sigs) rfl .nil
  | .array pos items => by
    rw [Expr.code]
    exact .append (.singleton rfl) (itemsCode_fed sigs items)
  | .paren pos inner => by
    rw [Expr.code]
    exact inner.code_fed sigs

theorem argsCode_fed (sigs : Signatures) (site : Position) :
    ∀ es : List Expr, Fed (argsCode sigs site es)
  | [] => by
    rw [argsCode]
    exact .nil
  | e :: es => by
    rw [argsCode, List.append_assoc]
    exact .behind (e.code_fed sigs) rfl (argsCode_fed sigs site es)

theorem itemsCode_fed (sigs : Signatures) : ∀ es : List Expr, Fed (itemsCode sigs es)
  | [] => by
    rw [itemsCode]
    exact .nil
  | e :: es => by
    rw [itemsCode, List.append_assoc]
    exact .behind (e.code_fed sigs) rfl (itemsCode_fed sigs es)

end

mutual

theorem Stmt.code_fed (sigs : Signatures) : ∀ (s : Stmt) (base : Nat), Fed (s.code sigs base)
  | .cond pos test body, base => by
    simp only [Stmt.code, Expr.scopedCode, List.append_assoc]
    exact .behind (test.code_fed sigs) rfl ((bodyCode_fed sigs body _).append (.singleton rfl))
  | .loop pos test body, base => by
    simp only [Stmt.code, Expr.scopedCode, List.append_assoc]
    exact .append (.singleton rfl) (.behind (test.code_fed sigs) rfl
      ((bodyCode_fed sigs body _).append (.append (a := [_]) (.singleton rfl) (.singleton rfl))))
  | .count pos init test step body, base => by
    simp only [Stmt.code, Expr.scopedCode, List.append_assoc]
    exact .append (init.code_fed sigs _) (.append (.singleton rfl) (.behind (test.code_fed sigs) rfl
      (.append (bodyCode_fed sigs body _) (.append (step.code_fed sigs _)
        (.append (a := [_]) (.singleton rfl) (.singleton rfl))))))
  | .range pos first last name body, base => by
    simp only [Stmt.code, Expr.scopedCode, List.append_assoc]
    exact .behind (first.code_fed sigs) rfl (.behind (last.code_fed sigs) rfl
      (.append (.singleton rfl) (.append (bodyCode_fed sigs body _)
        (.append (a := [_]) (.singleton rfl) (.singleton rfl)))))
  | .ret pos none, base => by
    rw [Stmt.code]
    exact .singleton rfl
  | .ret pos (some value), base => by
    rw [Stmt.code]
    exact .behind (b := [_]) (value.code_fed sigs) rfl (.singleton rfl)
  | .assignItem pos name index value, base => by
    simp only [Stmt.code, Expr.scopedCode, List.append_assoc]
    exact .behind (index.code_fed sigs) rfl (.behind (b := []) (value.code_fed sigs) rfl .nil)
  | .assign pos ty name value, base => by
    rw [Stmt.code]
    exact .behind (b := []) (value.code_fed sigs) rfl .nil
  | .call pos site name args, base => by
    rw [Stmt.code, callCode]
    exact .scope ((argsCode_fed sigs site args).append (.singleton rfl)) pos
  | .expr _ value, base => by
    rw [Stmt.code]
    exact (value.code_fed sigs).scope _

theorem bodyCode_fed (sigs : Signatures) :
    ∀ (ss : List Stmt) (base : Nat), Fed (bodyCode sigs base ss)
  | [], base => by
    rw [bodyCode]
    exact .nil
  | s :: ss, base => by
    rw [bodyCode]
    exact (s.code_fed sigs base).append (bodyCode_fed sigs ss _)

end

theorem Function.code_fed (sigs : Signatures) (base : Nat) (f : Function) :
    Fed (f.code sigs base) := by
  have params (ps : List Parameter) :
      Fed (ps.map fun p => .plain (.bindArg p.ty p.name) p.pos) := by
    induction ps with
    | nil => exact .nil
    | cons p ps ih => exact .append (a := [_]) (.singleton rfl) ih
  obtain ⟨tail, eq, htail⟩ := f.code_eq sigs base
  rw [eq]
  refine .append (.append ?_ (bodyCode_fed sigs f.body _)) ?_
  · exact .append (a := [_]) (.singleton rfl) (params f.params)
  · obtain rfl | ⟨rfl, _⟩ := htail
    · exact .singleton rfl
    · exact .nil

theorem Function.codeAll_fed (sigs : Signatures) (base : Nat) (fs : List Function) :
    Fed (codeAll sigs base fs) := by
  induction fs generalizing base with
  | nil => exact .nil
  | cons f fs ih => exact (f.code_fed sigs base).append (ih _)

/-- The next instruction takes the last result. -/
def Program.TakesAt (p : Program) (pc : Nat) : Prop :=
  ∃ i, p.code[pc]? = some i ∧ i.op.takesResult = true

namespace Compiled

variable {functions : List Function} {isHost : String → Bool} {p : Program}

/-- In a program, a result is taken behind the end of a scope only, and not at a label. -/
theorem fed (hp : Compiled functions isHost p) {pc : Nat} {i : Instr}
    (hi : p.code[pc]? = some i) (takes : i.op.takesResult = true) :
    i.label = none ∧ ∃ n j, pc = n + 1 ∧ p.code[n]? = some j ∧ j.op = .closeScope := by
  have start : Fed (startCode (signatures functions)) :=
    .append (a := [_]) (.singleton rfl) (.singleton rfl)
  have code := (Function.codeAll_fed (signatures functions) 0 functions).append start
  simp only [hp.code, List.getElem?_toArray] at hi ⊢
  exact code pc i hi takes

/-- Behind an instruction that ends no scope no result is taken. -/
theorem not_takesAt_succ (hp : Compiled functions isHost p) {pc : Nat} {i : Instr}
    (hi : p.code[pc]? = some i) (h : i.op ≠ .closeScope) : ¬p.TakesAt (pc + 1) := by
  rintro ⟨j, hj, takes⟩
  obtain ⟨_, n, k, eq, hk, closes⟩ := hp.fed hj takes
  cases eq
  exact h (Option.some.inj (hi.symm.trans hk) ▸ closes)

/-- At a label no result is taken. -/
theorem not_takesAt_resolve (hp : Compiled functions isHost p) {label : String} {pc : Nat}
    (h : p.resolve label = some pc) : ¬p.TakesAt pc := by
  rintro ⟨j, hj, takes⟩
  obtain ⟨k, hk, carries⟩ := (hp.labels label pc).1 h
  obtain rfl : j = k := Option.some.inj (hj.symm.trans hk)
  cases carries.symm.trans (hp.fed hj takes).1

end Compiled

end StackScript
