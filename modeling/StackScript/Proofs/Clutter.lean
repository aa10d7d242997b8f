import StackScript.Proofs.Shape

/-!
# What lies about in a call

How many scopes a call has opened at each of its instructions, and how many values lie on the stack
of its own scope, read off the listing alone.

* `Op.tidy`: what an instruction needs to lie about, and what it leaves;
* `Expr.code_tidy`, `Stmt.code_clean`: expressions leave what they find, and statements nothing;
* `Stmt.starts`: the places of the first instructions of statements;
* `statementStarts_clean`: at all of them nothing lies about;
* `Lies`: what lies about at a place of a program, and `Lies.of_resolve`: nothing does at labels.
-/

namespace StackScript

/-- What lies about in a call. -/
structure Clutter where
  /-- The scopes it has opened inside its own. -/
  scopes : Nat
  /-- The values on the stack of its own scope. -/
  values : Nat
  deriving DecidableEq, Repr

/-- Nothing lies about. -/
def Clutter.clean : Clutter := ⟨0, 0⟩

/-- What lies about behind an operation in the listing. Variables are bound where no scope is open,
and values are computed where one is. Only the index of an assignment is put on the stack of the
call's own scope, and the assignment takes it from there. -/
def Op.tidy : Op → Clutter → Option Clutter
  | .openScope, c => some { c with scopes := c.scopes + 1 }
  | .closeScope, ⟨n + 1, k⟩ => some ⟨n, k⟩
  | .pushResult, ⟨0, 0⟩ => some ⟨0, 1⟩
  | .assignItem _, ⟨0, 1⟩ => some ⟨0, 0⟩
  | .push _, ⟨n + 1, k⟩ | .load _, ⟨n + 1, k⟩ | .apply _, ⟨n + 1, k⟩ | .passArg, ⟨n + 1, k⟩
  | .call .., ⟨n + 1, k⟩ | .emptyArray, ⟨n + 1, k⟩ | .append, ⟨n + 1, k⟩
  | .loadItem _, ⟨n + 1, k⟩ => some ⟨n + 1, k⟩
  | .marker _, ⟨0, 0⟩ | .bindArg .., ⟨0, 0⟩ | .assign .., ⟨0, 0⟩ | .ret, ⟨0, 0⟩
  | .handBack, ⟨0, 0⟩ | .jumpUnless .., ⟨0, 0⟩ | .jump _, ⟨0, 0⟩ | .rangeTest .., ⟨0, 0⟩
  | .rangeStep .., ⟨0, 0⟩ => some ⟨0, 0⟩
  | _, _ => none

/-- Nothing lies about behind a jump. -/
theorem Op.tidy_target {op : Op} {label : String} {c next : Clutter}
    (ht : op.target? = some label) (h : op.tidy c = some next) : next = .clean := by
  cases op with
  | jumpUnless | jump | rangeTest | rangeStep =>
    rcases c with ⟨_ | n, _ | k⟩ <;> cases h
    rfl
  | _ => cases ht

/-- Nothing lies about where control may jump to. -/
def Instr.tidy (i : Instr) (c : Clutter) : Option Clutter :=
  if i.label = none ∨ c = .clean then i.op.tidy c else none

theorem Instr.tidy_eq_some {i : Instr} {c next : Clutter} (h : i.tidy c = some next) :
    i.op.tidy c = some next ∧ (i.label = none ∨ c = .clean) := by
  unfold tidy at h
  split at h
  · exact ⟨h, ‹_›⟩
  · cases h

@[simp] theorem Instr.tidy_plain (op : Op) (pos : Position) (c : Clutter) :
    (Instr.plain op pos).tidy c = op.tidy c :=
  if_pos (.inl rfl)

@[simp] theorem Instr.tidy_labeled (label : String) (op : Op) (pos : Position) :
    (Instr.labeled label op pos).tidy .clean = op.tidy .clean :=
  if_pos (.inr rfl)

/-- What lies about behind code in the listing. -/
def tidy (code : List Instr) (c : Clutter) : Option Clutter :=
  code.foldlM (fun c i => i.tidy c) c

@[simp] theorem tidy_nil (c : Clutter) : tidy [] c = some c := rfl

theorem tidy_cons (i : Instr) (code : List Instr) (c : Clutter) :
    tidy (i :: code) c = (i.tidy c).bind (tidy code) := by
  simp only [tidy, List.foldlM_cons]
  rfl

@[simp] theorem tidy_singleton (i : Instr) (c : Clutter) : tidy [i] c = i.tidy c := by
  rw [tidy_cons]
  cases i.tidy c <;> rfl

theorem tidy_append {a b : List Instr} {c mid : Clutter} (h : tidy a c = some mid) :
    tidy (a ++ b) c = tidy b mid := by
  simp only [tidy, List.foldlM_append] at h ⊢
  rw [h]
  rfl

theorem exists_tidy_append {a b : List Instr} {c next : Clutter} (h : tidy (a ++ b) c = some next) :
    ∃ mid, tidy a c = some mid ∧ tidy b mid = some next := by
  simpa only [tidy, List.foldlM_append, Option.bind_eq_bind, Option.bind_eq_some_iff] using h

/-! ## Expressions -/

theorem tidy_inScope {pos : Position} {code : List Instr} {n k : Nat}
    (h : tidy code ⟨n + 1, k⟩ = some ⟨n + 1, k⟩) :
    tidy (inScope pos code) ⟨n, k⟩ = some ⟨n, k⟩ := by
  have opened : tidy [.plain .openScope pos] ⟨n, k⟩ = some ⟨n + 1, k⟩ := by simp [Op.tidy]
  rw [inScope, List.append_assoc, tidy_append opened, tidy_append h]
  simp [Op.tidy]

/-- Code in a scope, and what takes its result. -/
theorem tidy_inScope_append {pos : Position} {code rest : List Instr} {n k : Nat}
    (h : tidy code ⟨n + 1, k⟩ = some ⟨n + 1, k⟩) :
    tidy (inScope pos code ++ rest) ⟨n, k⟩ = tidy rest ⟨n, k⟩ :=
  tidy_append (tidy_inScope h)

mutual

/-- An expression leaves what it finds. -/
theorem Expr.code_tidy (sigs : Signatures) :
    ∀ (e : Expr) (n k : Nat), tidy (e.code sigs) ⟨n + 1, k⟩ = some ⟨n + 1, k⟩
  | .binary pos op lhs rhs, n, k => by
    rw [Expr.code, List.append_assoc, tidy_append (lhs.code_tidy sigs n k),
      tidy_append (rhs.code_tidy sigs n k)]
    simp [Op.tidy]
  | .literal .., n, k => by
    rw [Expr.code]
    simp [Op.tidy]
  | .var .., n, k => by
    rw [Expr.code]
    simp [Op.tidy]
  | .call _ site name args, n, k => by
    rw [Expr.code, tidy_append (argsCode_tidy sigs site args n k)]
    simp [callInstr, Op.tidy]
  | .index pos name index, n, k => by
    rw [Expr.code, tidy_inScope_append (index.code_tidy sigs (n + 1) k)]
    simp [Op.tidy]
  | .array pos items, n, k => by
    have empty : tidy [.plain .emptyArray pos] ⟨n + 1, k⟩ = some ⟨n + 1, k⟩ := by simp [Op.tidy]
    rw [Expr.code, tidy_append empty]
    exact itemsCode_tidy sigs items n k
  | .paren _ inner, n, k => by
    rw [Expr.code]
    exact inner.code_tidy sigs n k

theorem argsCode_tidy (sigs : Signatures) (site : Position) :
    ∀ (es : List Expr) (n k : Nat), tidy (argsCode sigs site es) ⟨n + 1, k⟩ = some ⟨n + 1, k⟩
  | [], n, k => by
    rw [argsCode, tidy_nil]
  | e :: es, n, k => by
    have passed : tidy [.plain .passArg site] ⟨n + 1, k⟩ = some ⟨n + 1, k⟩ := by simp [Op.tidy]
    rw [argsCode, List.append_assoc, tidy_inScope_append (e.code_tidy sigs (n + 1) k),
      tidy_append passed]
    exact argsCode_tidy sigs site es n k

theorem itemsCode_tidy (sigs : Signatures) :
    ∀ (es : List Expr) (n k : Nat), tidy (itemsCode sigs es) ⟨n + 1, k⟩ = some ⟨n + 1, k⟩
  | [], n, k => by
    rw [itemsCode, tidy_nil]
  | e :: es, n, k => by
    have appended : tidy [.plain .append e.pos] ⟨n + 1, k⟩ = some ⟨n + 1, k⟩ := by simp [Op.tidy]
    rw [itemsCode, List.append_assoc, tidy_inScope_append (e.code_tidy sigs (n + 1) k),
      tidy_append appended]
    exact itemsCode_tidy sigs es n k

end

theorem Expr.scopedCode_tidy (sigs : Signatures) (e : Expr) (n k : Nat) :
    tidy (e.scopedCode sigs) ⟨n, k⟩ = some ⟨n, k⟩ :=
  tidy_inScope (e.code_tidy sigs n k)

/-! ## Statements -/

/-- Code that starts and ends with nothing lying about. -/
def Clean (code : List Instr) : Prop := tidy code .clean = some .clean

namespace Clean

variable {a b : List Instr} {pos : Position} {op : Op}

theorem nil : Clean [] := rfl

theorem append (ha : Clean a) (hb : Clean b) : Clean (a ++ b) :=
  (tidy_append ha).trans hb

theorem plain (h : op.tidy .clean = some .clean) : Clean [.plain op pos] := by
  rw [Clean, tidy_singleton, Instr.tidy_plain, h]

theorem labeled {label : String} (h : op.tidy .clean = some .clean) :
    Clean [.labeled label op pos] := by
  rw [Clean, tidy_singleton, Instr.tidy_labeled, h]

theorem scopedCode (sigs : Signatures) (e : Expr) : Clean (e.scopedCode sigs) :=
  e.scopedCode_tidy sigs 0 0

end Clean

mutual

/-- The places where statements begin in the code of a statement behind `base` instructions. -/
def Stmt.starts (sigs : Signatures) (base : Nat) : Stmt → List Nat
  | .cond _ test body => base :: bodyStarts sigs (base + (test.scopedCode sigs).length + 1) body
  | .loop _ test body =>
    base :: bodyStarts sigs (base + 1 + (test.scopedCode sigs).length + 1) body
  | .count _ init test step body =>
    let inside := base + (init.code sigs base).length + 1 + (test.scopedCode sigs).length + 1
    base :: init.starts sigs base ++ bodyStarts sigs inside body
      ++ step.starts sigs (inside + (bodyCode sigs inside body).length)
  | .range _ first last _ body =>
    base :: bodyStarts sigs
      (base + ((first.scopedCode sigs).length + 1 + (last.scopedCode sigs).length + 1) + 1) body
  | .ret .. | .assignItem .. | .assign .. | .call .. | .expr .. => [base]

def bodyStarts (sigs : Signatures) (base : Nat) : List Stmt → List Nat
  | [] => []
  | s :: ss => s.starts sigs base ++ bodyStarts sigs (base + (s.code sigs base).length) ss

end

/-- The places where statements begin in the code of functions behind `base` instructions. -/
def statementStarts (sigs : Signatures) (base : Nat) : List Function → List Nat
  | [] => []
  | f :: fs => bodyStarts sigs (base + f.prologue.length) f.body
    ++ statementStarts sigs (base + (f.code sigs base).length) fs

/-- In this code behind `base` instructions, nothing lies about at `pc`. -/
def CleanAt (base : Nat) (code : List Instr) (pc : Nat) : Prop :=
  ∃ before i after, code = before ++ i :: after ∧ pc = base + before.length ∧ Clean before

namespace CleanAt

variable {base pc : Nat} {a b c : List Instr}

theorem here (base : Nat) {code : List Instr} (h : code ≠ []) : CleanAt base code base := by
  obtain ⟨i, after, rfl⟩ := List.exists_cons_of_ne_nil h
  exact ⟨[], i, after, rfl, rfl, .nil⟩

theorem append_left (h : CleanAt base a pc) (b : List Instr) : CleanAt base (a ++ b) pc := by
  obtain ⟨before, i, after, rfl, rfl, clean⟩ := h
  exact ⟨before, i, after ++ b, List.append_assoc .., rfl, clean⟩

theorem append_right {start : Nat} (h : CleanAt start b pc) (ha : Clean a)
    (hs : start = base + a.length) : CleanAt base (a ++ b) pc := by
  obtain ⟨before, i, after, rfl, rfl, clean⟩ := h
  exact ⟨a ++ before, i, after, (List.append_assoc ..).symm, by simp [hs, Nat.add_assoc],
    ha.append clean⟩

end CleanAt

mutual

/-- A statement leaves nothing lying about. -/
theorem Stmt.code_clean (sigs : Signatures) : ∀ (s : Stmt) (base : Nat), Clean (s.code sigs base)
  | .cond pos test body, base => by
    simp only [Stmt.code]
    exact (((Clean.scopedCode sigs test).append (.plain rfl)).append
      (bodyCode_clean sigs body _)).append (.labeled rfl)
  | .loop pos test body, base => by
    simp only [Stmt.code]
    exact ((((Clean.labeled rfl).append (.scopedCode sigs test)).append (.plain rfl)).append
      (bodyCode_clean sigs body _)).append (.append (a := [_]) (.plain rfl) (.labeled rfl))
  | .count pos init test step body, base => by
    simp only [Stmt.code]
    exact ((((((init.code_clean sigs base).append (.labeled rfl)).append
      (.scopedCode sigs test)).append (.plain rfl)).append (bodyCode_clean sigs body _)).append
      (step.code_clean sigs _)).append (.append (a := [_]) (.plain rfl) (.labeled rfl))
  | .range pos first last name body, base => by
    simp only [Stmt.code]
    exact ((((((Clean.scopedCode sigs first).append (.plain rfl)).append
      (.scopedCode sigs last)).append (.plain rfl)).append (.labeled rfl)).append
      (bodyCode_clean sigs body _)).append (.append (a := [_]) (.plain rfl) (.labeled rfl))
  | .ret pos none, base => by
    simp only [Stmt.code]
    exact .plain rfl
  | .ret pos (some value), base => by
    simp only [Stmt.code]
    exact (Clean.scopedCode sigs value).append (.append (a := [_]) (.plain rfl) (.plain rfl))
  | .assignItem pos name index value, base => by
    -- The index lies about while the value is computed.
    have index := index.scopedCode_tidy sigs 0 0
    have value := value.scopedCode_tidy sigs 0 1
    have pushed : tidy [.plain .pushResult pos] ⟨0, 0⟩ = some ⟨0, 1⟩ := by simp [Op.tidy]
    simp only [Stmt.code, Clean, Clutter.clean, List.append_assoc]
    rw [tidy_append index, tidy_append pushed, tidy_append value]
    simp [Op.tidy]
  | .assign pos ty name value, base => by
    simp only [Stmt.code]
    exact (Clean.scopedCode sigs value).append (.plain rfl)
  | .call pos site name args, base => by
    simp only [Stmt.code]
    refine tidy_inScope ?_
    rw [callCode, tidy_append (argsCode_tidy sigs site args 0 0)]
    simp [callInstr, Op.tidy]
  | .expr _ value, base => by
    simp only [Stmt.code]
    exact .scopedCode sigs value

theorem bodyCode_clean (sigs : Signatures) :
    ∀ (ss : List Stmt) (base : Nat), Clean (bodyCode sigs base ss)
  | [], base => by
    simp only [bodyCode]
    exact .nil
  | s :: ss, base => by
    simp only [bodyCode]
    exact (s.code_clean sigs base).append (bodyCode_clean sigs ss _)

end

mutual

theorem Stmt.starts_clean (sigs : Signatures) : ∀ (s : Stmt) (base : Nat),
    ∀ pc ∈ s.starts sigs base, CleanAt base (s.code sigs base) pc
  | .cond pos test body, base, pc, h => by
    simp only [Stmt.starts, List.mem_cons] at h
    rcases h with rfl | h
    · exact .here pc (Stmt.code_ne_nil _ _ _)
    · simp only [Stmt.code]
      exact ((bodyStarts_clean sigs body _ pc h).append_right
        ((Clean.scopedCode sigs test).append (.plain rfl)) (by simp; omega)).append_left _
  | .loop pos test body, base, pc, h => by
    simp only [Stmt.starts, List.mem_cons] at h
    rcases h with rfl | h
    · exact .here pc (Stmt.code_ne_nil _ _ _)
    · simp only [Stmt.code]
      exact ((bodyStarts_clean sigs body _ pc h).append_right
        (((Clean.labeled rfl).append (.scopedCode sigs test)).append (.plain rfl))
        (by simp; omega)).append_left _
  | .count pos init test step body, base, pc, h => by
    simp only [Stmt.starts, List.cons_append, List.mem_cons, List.mem_append] at h
    rcases h with rfl | (h | h) | h
    · exact .here pc (Stmt.code_ne_nil _ _ _)
    · have inside := init.starts_clean sigs base pc h
      simp only [Stmt.code]
      exact (((((inside.append_left _).append_left _).append_left _).append_left _).append_left
        _).append_left _
    · simp only [Stmt.code]
      exact (((bodyStarts_clean sigs body _ pc h).append_right
        ((((init.code_clean sigs base).append (.labeled rfl)).append (.scopedCode sigs test)).append
          (.plain rfl)) (by simp; omega)).append_left _).append_left _
    · simp only [Stmt.code]
      exact ((step.starts_clean sigs _ pc h).append_right
        (((((init.code_clean sigs base).append (.labeled rfl)).append
          (.scopedCode sigs test)).append (.plain rfl)).append (bodyCode_clean sigs body _))
        (by simp; omega)).append_left _
  | .range pos first last name body, base, pc, h => by
    simp only [Stmt.starts, List.mem_cons] at h
    rcases h with rfl | h
    · exact .here pc (Stmt.code_ne_nil _ _ _)
    · simp only [Stmt.code, List.length_append, List.length_singleton]
      exact ((bodyStarts_clean sigs body _ pc h).append_right
        (((((Clean.scopedCode sigs first).append (.plain rfl)).append
          (.scopedCode sigs last)).append (.plain rfl)).append (.labeled rfl))
        (by simp; omega)).append_left _
  | .ret _ _, base, pc, h | .assignItem .., base, pc, h | .assign .., base, pc, h
  | .call .., base, pc, h | .expr .., base, pc, h => by
    simp only [Stmt.starts, List.mem_singleton] at h
    subst h
    exact .here pc (Stmt.code_ne_nil _ _ _)

theorem bodyStarts_clean (sigs : Signatures) : ∀ (ss : List Stmt) (base : Nat),
    ∀ pc ∈ bodyStarts sigs base ss, CleanAt base (bodyCode sigs base ss) pc
  | [], base, pc, h => by
    simp only [bodyStarts] at h
    cases h
  | s :: ss, base, pc, h => by
    simp only [bodyStarts, List.mem_append] at h
    simp only [bodyCode]
    rcases h with h | h
    · exact (s.starts_clean sigs base pc h).append_left _
    · exact (bodyStarts_clean sigs ss _ pc h).append_right (s.code_clean sigs base) rfl

end

/-! ## Functions -/

theorem Function.prologue_clean (f : Function) : Clean f.prologue := by
  have params (ps : List Parameter) :
      Clean (ps.map fun p => .plain (.bindArg p.ty p.name) p.pos) := by
    induction ps with
    | nil => exact .nil
    | cons p ps ih => exact .append (a := [_]) (.plain rfl) ih
  exact .append (a := [_]) (.labeled rfl) (params f.params)

theorem Function.code_clean (sigs : Signatures) (base : Nat) (f : Function) :
    Clean (f.code sigs base) := by
  obtain ⟨tail, eq, htail⟩ := f.code_eq sigs base
  have last : Clean tail := by
    rcases htail with rfl | ⟨rfl, _⟩
    · exact .plain rfl
    · exact .nil
  rw [eq]
  exact (f.prologue_clean.append (bodyCode_clean sigs f.body _)).append last

theorem codeAll_clean (sigs : Signatures) (base : Nat) (fs : List Function) :
    Clean (Function.codeAll sigs base fs) := by
  induction fs generalizing base with
  | nil => exact .nil
  | cons f fs ih => exact (f.code_clean sigs base).append (ih _)

/-- Nothing lies about where statements begin. -/
theorem statementStarts_clean (sigs : Signatures) (base : Nat) (fs : List Function) :
    ∀ pc ∈ statementStarts sigs base fs, CleanAt base (Function.codeAll sigs base fs) pc := by
  induction fs generalizing base with
  | nil =>
    intro pc h
    cases h
  | cons f fs ih =>
    intro pc h
    simp only [statementStarts, List.mem_append] at h
    rcases h with h | h
    · obtain ⟨tail, eq, _⟩ := f.code_eq sigs base
      refine CleanAt.append_left ?_ _
      rw [eq]
      exact ((bodyStarts_clean sigs f.body _ pc h).append_right f.prologue_clean rfl).append_left _
    · exact (ih _ pc h).append_right (f.code_clean sigs base) rfl

/-! ## Places -/

theorem Function.codeAll_getLast (sigs : Signatures) (base : Nat) (fs : List Function) :
    ∀ i ∈ (Function.codeAll sigs base fs).getLast?, i.op = .ret := by
  induction fs generalizing base with
  | nil =>
    intro i hi
    cases hi
  | cons f fs ih =>
    intro i hi
    obtain ⟨_, code, last, eq, ret⟩ := f.code_flow sigs base
    simp only [Function.codeAll, List.getLast?_append, Option.mem_def, Option.or_eq_some_iff] at hi
    obtain hi | ⟨_, hi⟩ := hi
    · exact ih _ i hi
    · rw [eq, List.getLast?_concat] at hi
      cases hi
      exact ret

/-- In a call that is about to execute the instruction at `pc` of these functions, this lies
about. -/
def Lies (functions : List Function) (pc : Nat) (c : Clutter) : Prop :=
  ∃ before i after, Function.codeAll (signatures functions) 0 functions = before ++ i :: after ∧
    pc = before.length ∧ tidy before .clean = some c

section

variable {functions : List Function} {isHost : String → Bool} {p : Program} {pc : Nat} {c : Clutter}

/-- There is an instruction at every place, and what lies about is what it needs. -/
theorem Lies.instr (hp : Compiled functions isHost p) (h : Lies functions pc c) :
    ∃ i next, p.code[pc]? = some i ∧ i.op.tidy c = some next ∧
      (i.op ≠ .ret → Lies functions (pc + 1) next) := by
  obtain ⟨before, i, after, eq, rfl, hbefore⟩ := h
  have whole := codeAll_clean (signatures functions) 0 functions
  have last := Function.codeAll_getLast (signatures functions) 0 functions
  rw [Clean, eq, tidy_append hbefore, tidy_cons] at whole
  obtain ⟨next, hi, _⟩ := Option.bind_eq_some_iff.1 whole
  have placed : p.code[before.length]? = some i := by
    rw [hp.code, eq]
    simp
  refine ⟨i, next, placed, (Instr.tidy_eq_some hi).1, fun hr => ?_⟩
  cases after with
  | nil =>
    rw [eq] at last
    exact absurd (last i (by simp)) hr
  | cons j after =>
    refine ⟨before ++ [i], j, after, by rw [eq]; simp, by simp, ?_⟩
    rw [tidy_append hbefore, tidy_singleton, hi]

/-- Nothing lies about where labels are bound. -/
theorem Lies.of_resolve (hp : Compiled functions isHost p) {label : String}
    (h : p.resolve label = some pc) : Lies functions pc .clean := by
  obtain ⟨i, hi, labeled⟩ := (hp.labels label pc).1 h
  rw [hp.code, List.getElem?_toArray, List.getElem?_append] at hi
  split at hi
  · obtain ⟨lt, get⟩ := List.getElem?_eq_some_iff.1 hi
    have eq := (List.take_append_drop pc (Function.codeAll (signatures functions) 0 functions)).symm
    rw [List.drop_eq_getElem_cons lt, get] at eq
    have whole := codeAll_clean (signatures functions) 0 functions
    rw [Clean, eq] at whole
    obtain ⟨mid, before, rest⟩ := exists_tidy_append whole
    rw [tidy_cons] at rest
    obtain ⟨next, here, _⟩ := Option.bind_eq_some_iff.1 rest
    obtain ⟨_, none | clean⟩ := Instr.tidy_eq_some here
    · cases none.symm.trans labeled
    · exact ⟨_, i, _, eq, by simp; omega, clean ▸ before⟩
  · have start := List.mem_of_getElem? hi
    simp only [startCode, callCode, argsCode, List.nil_append, List.singleton_append,
      List.mem_cons, List.not_mem_nil, or_false] at start
    obtain rfl | rfl := start <;> cases labeled

/-- Nothing lies about where statements begin. -/
theorem Lies.eq_clean (h : Lies functions pc c)
    (starts : pc ∈ statementStarts (signatures functions) 0 functions) : c = .clean := by
  obtain ⟨before, i, after, eq, rfl, hbefore⟩ := h
  obtain ⟨before', _, _, eq', length, clean⟩ := statementStarts_clean _ 0 functions _ starts
  rw [Nat.zero_add] at length
  obtain ⟨rfl, _⟩ := List.append_inj (eq.symm.trans eq') length
  exact Option.some.inj (hbefore.symm.trans clean)

end

end StackScript
