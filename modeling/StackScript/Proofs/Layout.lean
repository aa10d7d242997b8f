import StackScript.Load

/-!
# Where the code of a program lies

* `Program.LabelsMatch`: the table of labels says what the instructions say, and
  `pushAll_labelsMatch` keeps it so;
* `Program.CodeAt`: a piece of code lies at an index of the program;
* `Compiled`: what is known of a program that `compile` has built;
* `Compiled.function_at`: the code of a function is where its label is bound;
* `Compiled.resolve_function_eq_none`: no other label looks like that of a function.
-/

namespace StackScript

namespace Program

/-- A label is bound to the instruction that carries it. -/
def LabelsMatch (p : Program) : Prop :=
  ∀ label i, p.resolve label = some i ↔ ∃ instr, p.code[i]? = some instr ∧ instr.label = some label

theorem labelsMatch_empty : empty.LabelsMatch := by
  intro label i
  simp [empty, resolve]

theorem LabelsMatch.push {p q : Program} {instr : Instr} (hp : p.LabelsMatch)
    (h : p.push instr = .ok q) : q.LabelsMatch := by
  intro label i
  rw [push_eq] at h
  cases hl : instr.label with
  | none =>
    simp only [hl, Except.ok.injEq] at h
    subst h
    have hi := hp label i
    simp only [resolve] at hi ⊢
    rw [hi, Array.getElem?_push]
    split
    · rename_i eq
      subst eq
      simp [hl]
    · rfl
  | some new =>
    simp only [hl] at h
    split at h
    · cases h
    · rename_i fresh
      simp only [Except.ok.injEq] at h
      subst h
      have hi := hp label i
      simp only [resolve] at hi fresh ⊢
      rw [List.lookup_cons, Array.getElem?_push]
      by_cases hn : label = new
      · subst hn
        have unbound : ∀ j : Nat, ¬ ∃ other : Instr,
            p.code[j]? = some other ∧ other.label = some label := by
          intro j hj
          have := (hp label j).2 hj
          simp [resolve] at this
          simp [this] at fresh
        simp only [beq_self_eq_true, Option.some.injEq]
        by_cases hs : i = p.code.size
        · simp [hs, hl]
        · simp only [hs, ↓reduceIte]
          exact ⟨fun h => absurd h.symm hs, fun h => absurd h (unbound i)⟩
      · rw [beq_eq_false_iff_ne.2 hn]
        by_cases hs : i = p.code.size
        · subst hs
          simp only [↓reduceIte, Option.some.injEq, exists_eq_left', hl]
          simp only [Array.getElem?_eq_none (Nat.le_refl _)] at hi
          rw [hi]
          simp [Ne.symm hn]
        · simp only [hs, ↓reduceIte]
          exact hi

theorem push_code {p q : Program} {instr : Instr} (h : p.push instr = .ok q) :
    q.code = p.code.push instr := by
  rw [push_eq] at h
  split at h
  · cases h; rfl
  · split at h
    · cases h
    · cases h; rfl

theorem pushAll_cons_eq_ok {p q : Program} {instr : Instr} {code : List Instr} :
    p.pushAll (instr :: code) = .ok q ↔ ∃ r, p.push instr = .ok r ∧ r.pushAll code = .ok q := by
  simp only [pushAll, List.foldlM_cons]
  cases p.push instr <;> simp [Bind.bind, Except.bind]

theorem pushAll_append {p q : Program} {a b : List Instr} (h : p.pushAll a = .ok q) :
    p.pushAll (a ++ b) = q.pushAll b := by
  simp only [pushAll, List.foldlM_append] at h ⊢
  rw [h]
  rfl

theorem pushAll_labelsMatch {code : List Instr} {p q : Program} (hp : p.LabelsMatch)
    (h : p.pushAll code = .ok q) : q.LabelsMatch := by
  induction code generalizing p with
  | nil => cases h; exact hp
  | cons instr code ih =>
    obtain ⟨r, hr, hq⟩ := pushAll_cons_eq_ok.1 h
    exact ih (hp.push hr) hq

theorem pushAll_code {code : List Instr} {p q : Program} (h : p.pushAll code = .ok q) :
    q.code = p.code ++ code := by
  induction code generalizing p with
  | nil => cases h; simp
  | cons instr code ih =>
    obtain ⟨r, hr, hq⟩ := pushAll_cons_eq_ok.1 h
    rw [ih hq, push_code hr]
    simp

theorem pushAll_size {code : List Instr} {p q : Program} (h : p.pushAll code = .ok q) :
    q.code.size = p.code.size + code.length := by
  rw [pushAll_code h, ← Array.length_toList, Array.toList_appendList, List.length_append,
    Array.length_toList]

theorem LabelsMatch.resolve_eq {p : Program} (hp : p.LabelsMatch) {i : Nat} {label : String}
    {op : Op} {pos : Position} (h : p.code[i]? = some (.labeled label op pos)) :
    p.resolve label = some i :=
  (hp label i).2 ⟨_, h, rfl⟩

/-! ## Placed code -/

/-- `code` lies at the index `base` of the program. -/
def CodeAt (p : Program) (base : Nat) (code : List Instr) : Prop :=
  ∀ k instr, code[k]? = some instr → p.code[base + k]? = some instr

theorem CodeAt.head {p : Program} {base : Nat} {instr : Instr} {code : List Instr}
    (h : p.CodeAt base (instr :: code)) : p.code[base]? = some instr :=
  h 0 instr rfl

theorem CodeAt.at {p : Program} {base base' : Nat} {code : List Instr} (h : p.CodeAt base code)
    (eq : base = base') : p.CodeAt base' code :=
  eq ▸ h

theorem codeAt_nil {p : Program} {base : Nat} : p.CodeAt base [] :=
  fun _ _ h => nomatch h

theorem codeAt_append {p : Program} {base : Nat} {a b : List Instr} :
    p.CodeAt base (a ++ b) ↔ p.CodeAt base a ∧ p.CodeAt (base + a.length) b := by
  constructor
  · intro h
    constructor
    · intro k instr hk
      obtain ⟨hlt, _⟩ := List.getElem?_eq_some_iff.1 hk
      exact h k instr (by rw [List.getElem?_append_left hlt, hk])
    · intro k instr hk
      have := h (a.length + k) instr (by rw [List.getElem?_append_right (by omega)]; simpa using hk)
      rwa [← Nat.add_assoc] at this
  · rintro ⟨ha, hb⟩ k instr hk
    by_cases hlt : k < a.length
    · exact ha k instr (by rwa [List.getElem?_append_left hlt] at hk)
    · rw [List.getElem?_append_right (by omega)] at hk
      have := hb _ instr hk
      rwa [show base + a.length + (k - a.length) = base + k by omega] at this

theorem codeAt_cons {p : Program} {base : Nat} {instr : Instr} {code : List Instr} :
    p.CodeAt base (instr :: code) ↔ p.code[base]? = some instr ∧ p.CodeAt (base + 1) code := by
  rw [← List.singleton_append, codeAt_append]
  constructor
  · rintro ⟨h, hcode⟩
    exact ⟨h.head, hcode⟩
  · rintro ⟨h, hcode⟩
    refine ⟨?_, hcode⟩
    intro k i hk
    cases k with
    | zero => simpa using hk ▸ h
    | succ k => simp at hk

theorem codeAt_of_code {p : Program} {code : List Instr} (h : p.code = code.toArray) :
    p.CodeAt 0 code := by
  intro k instr hk
  simpa [h] using hk

end Program

/-! ## Labels of the emitted code -/

/-- The label of a jump. -/
def Label.IsIndexed (label : String) : Prop :=
  ∃ kind ∈ ["if", "while", "for", "forinc", "forinc_e"], ∃ index, label = Label.indexed kind index

theorem Label.function_injective {a b : String} (h : Label.function a = Label.function b) :
    a = b :=
  (String.append_right_inj _).1 h

/-- The third character tells the label of a jump from that of a function. -/
theorem Label.IsIndexed.ne_function {label : String} (h : Label.IsIndexed label) (name : String) :
    label ≠ Label.function name := by
  obtain ⟨kind, hkind, index, rfl⟩ := h
  intro eq
  have eq := congrArg (fun s => s.toList.take 3) eq
  simp only [List.mem_cons, List.not_mem_nil, or_false] at hkind
  obtain rfl | rfl | rfl | rfl | rfl := hkind <;>
    simp [Label.indexed, Label.function, String.toList_append] at eq

/-- What the code of an expression is made of. A call carries the type that its function returns. -/
def Op.InExpr (sigs : Signatures) : Op → Prop
  | .push _ | .load _ | .apply _ | .openScope | .closeScope | .passArg | .emptyArray | .append
  | .loadItem _ => True
  | .call name _ returns => returns = (sigs name).bind Signature.returns
  | _ => False

/-- What the code of a statement is made of. -/
def Op.InBody (sigs : Signatures) : Op → Prop
  | .marker .function | .bindArg .. | .exit => False
  | .call name _ returns => returns = (sigs name).bind Signature.returns
  | _ => True

theorem Op.InExpr.inBody {sigs : Signatures} {op : Op} (h : op.InExpr sigs) : op.InBody sigs := by
  cases op <;> first | exact h | trivial

structure Instr.InExpr (sigs : Signatures) (i : Instr) : Prop where
  label : i.label = none
  op : i.op.InExpr sigs

structure Instr.InBody (sigs : Signatures) (i : Instr) : Prop where
  label : ∀ label, i.label = some label → Label.IsIndexed label
  op : i.op.InBody sigs

theorem Instr.InExpr.inBody {sigs : Signatures} {i : Instr} (h : i.InExpr sigs) : i.InBody sigs :=
  ⟨fun label hl => by simp [h.label] at hl, h.op.inBody⟩

mutual

theorem Expr.code_inExpr (sigs : Signatures) : ∀ e : Expr, ∀ i ∈ e.code sigs, i.InExpr sigs
  | .binary _ _ lhs rhs => by
    simp only [Expr.code, List.forall_mem_append, List.forall_mem_singleton]
    exact ⟨⟨lhs.code_inExpr sigs, rhs.code_inExpr sigs⟩, rfl, trivial⟩
  | .literal .. | .var .. => by
    simp only [Expr.code, List.forall_mem_singleton]
    exact ⟨rfl, trivial⟩
  | .call _ site _ args => by
    simp only [Expr.code, List.forall_mem_append, List.forall_mem_singleton]
    exact ⟨argsCode_inExpr sigs site args, rfl, rfl⟩
  | .index _ _ index => by
    simp only [Expr.code, inScope, List.forall_mem_append, List.forall_mem_singleton]
    exact ⟨⟨⟨⟨rfl, trivial⟩, index.code_inExpr sigs⟩, rfl, trivial⟩, rfl, trivial⟩
  | .array _ items => by
    simp only [Expr.code, List.forall_mem_append, List.forall_mem_singleton]
    exact ⟨⟨rfl, trivial⟩, itemsCode_inExpr sigs items⟩
  | .paren _ inner => by
    simpa only [Expr.code] using inner.code_inExpr sigs

theorem argsCode_inExpr (sigs : Signatures) (site : Position) :
    ∀ es : List Expr, ∀ i ∈ argsCode sigs site es, i.InExpr sigs
  | [] => by simp [argsCode]
  | e :: es => by
    simp only [argsCode, inScope, List.forall_mem_append, List.forall_mem_singleton]
    exact ⟨⟨⟨⟨⟨rfl, trivial⟩, e.code_inExpr sigs⟩, rfl, trivial⟩, rfl, trivial⟩,
      argsCode_inExpr sigs site es⟩

theorem itemsCode_inExpr (sigs : Signatures) :
    ∀ es : List Expr, ∀ i ∈ itemsCode sigs es, i.InExpr sigs
  | [] => by simp [itemsCode]
  | e :: es => by
    simp only [itemsCode, inScope, List.forall_mem_append, List.forall_mem_singleton]
    exact ⟨⟨⟨⟨⟨rfl, trivial⟩, e.code_inExpr sigs⟩, rfl, trivial⟩, rfl, trivial⟩,
      itemsCode_inExpr sigs es⟩

end

theorem Expr.scopedCode_inExpr (sigs : Signatures) (e : Expr) :
    ∀ i ∈ e.scopedCode sigs, i.InExpr sigs := by
  simp only [Expr.scopedCode, inScope, List.forall_mem_append, List.forall_mem_singleton]
  exact ⟨⟨⟨rfl, trivial⟩, e.code_inExpr sigs⟩, rfl, trivial⟩

theorem Expr.scopedCode_inBody (sigs : Signatures) (e : Expr) :
    ∀ i ∈ e.scopedCode sigs, i.InBody sigs :=
  fun i hi => (e.scopedCode_inExpr sigs i hi).inBody

theorem Instr.InBody.plain {sigs : Signatures} {op : Op} (pos : Position)
    (h : op.InBody sigs := by trivial) : (Instr.plain op pos).InBody sigs :=
  ⟨by simp [Instr.plain], h⟩

theorem Instr.InBody.labeled {sigs : Signatures} {op : Op} {kind : String} (index : Nat)
    (pos : Position) (hk : kind ∈ ["if", "while", "for", "forinc", "forinc_e"] := by simp)
    (h : op.InBody sigs := by trivial) :
    (Instr.labeled (Label.indexed kind index) op pos).InBody sigs :=
  ⟨fun _ hl => ⟨kind, hk, index, (Option.some.inj hl).symm⟩, h⟩

mutual

theorem Stmt.code_inBody (sigs : Signatures) :
    ∀ (s : Stmt) (base : Nat), ∀ i ∈ s.code sigs base, i.InBody sigs
  | .cond pos test body, base => by
    simp only [Stmt.code, List.forall_mem_append, List.forall_mem_singleton]
    exact ⟨⟨⟨test.scopedCode_inBody sigs, .plain _⟩, bodyCode_inBody sigs body _⟩,
      .labeled _ _⟩
  | .loop pos test body, base => by
    simp only [Stmt.code, List.forall_mem_append, List.forall_mem_cons,
      List.not_mem_nil, false_implies, implies_true, and_true]
    exact ⟨⟨⟨⟨.labeled _ _, test.scopedCode_inBody sigs⟩,
      .plain _⟩, bodyCode_inBody sigs body _⟩, .plain _,
      .labeled _ _⟩
  | .count pos init test step body, base => by
    simp only [Stmt.code, List.forall_mem_append, List.forall_mem_cons,
      List.not_mem_nil, false_implies, implies_true, and_true]
    exact ⟨⟨⟨⟨⟨⟨init.code_inBody sigs _, .labeled _ _⟩,
      test.scopedCode_inBody sigs⟩, .plain _⟩, bodyCode_inBody sigs body _⟩,
      step.code_inBody sigs _⟩, .plain _, .labeled _ _⟩
  | .range pos first last name body, base => by
    simp only [Stmt.code, List.forall_mem_append, List.forall_mem_cons,
      List.not_mem_nil, false_implies, implies_true, and_true]
    exact ⟨⟨⟨⟨⟨⟨first.scopedCode_inBody sigs, .plain _⟩,
      last.scopedCode_inBody sigs⟩, .plain _⟩,
      .labeled _ _⟩, bodyCode_inBody sigs body _⟩,
      .plain _, .labeled _ _⟩
  | .ret pos none, base => by
    simp only [Stmt.code, List.forall_mem_singleton]
    exact .plain _
  | .ret pos (some value), base => by
    simp only [Stmt.code, List.forall_mem_append, List.forall_mem_cons,
      List.not_mem_nil, false_implies, implies_true, and_true]
    exact ⟨value.scopedCode_inBody sigs, .plain _, .plain _⟩
  | .assignItem pos name index value, base => by
    simp only [Stmt.code, List.forall_mem_append, List.forall_mem_singleton]
    exact ⟨⟨⟨index.scopedCode_inBody sigs, .plain _⟩,
      value.scopedCode_inBody sigs⟩, .plain _⟩
  | .assign pos ty name value, base => by
    simp only [Stmt.code, List.forall_mem_append, List.forall_mem_singleton]
    exact ⟨value.scopedCode_inBody sigs, .plain _⟩
  | .call pos site name args, base => by
    simp only [Stmt.code, inScope, callCode, List.forall_mem_append, List.forall_mem_singleton]
    exact ⟨⟨.plain _, fun i hi => (argsCode_inExpr sigs site args i hi).inBody,
      .plain _⟩, .plain _⟩
  | .expr _ value, base => by
    simpa only [Stmt.code] using value.scopedCode_inBody sigs

theorem bodyCode_inBody (sigs : Signatures) :
    ∀ (ss : List Stmt) (base : Nat), ∀ i ∈ bodyCode sigs base ss, i.InBody sigs
  | [], base => by simp [bodyCode]
  | s :: ss, base => by
    simp only [bodyCode, List.forall_mem_append]
    exact ⟨s.code_inBody sigs base, bodyCode_inBody sigs ss _⟩

end

theorem Stmt.code_ne_nil (sigs : Signatures) (base : Nat) (st : Stmt) : st.code sigs base ≠ [] := by
  cases st with
  | ret pos value => cases value <;> simp [Stmt.code]
  | _ => simp [Stmt.code, Expr.scopedCode, inScope]

/-! ## Functions -/

namespace Function

/-- A function ends with the return that its body ends with, or with one of its own. -/
theorem code_eq (sigs : Signatures) (base : Nat) (f : Function) :
    ∃ tail,
      f.code sigs base = f.prologue ++ bodyCode sigs (base + f.prologue.length) f.body ++ tail ∧
      (tail = [.plain .ret f.pos] ∨ tail = [] ∧
        (f.prologue ++ bodyCode sigs (base + f.prologue.length) f.body).getLast?.map (·.op) =
          some .ret) := by
  unfold code
  dsimp only
  split
  · rename_i last
    exact ⟨[], by simp, .inr ⟨rfl, last⟩⟩
  · exact ⟨[.plain .ret f.pos], rfl, .inl rfl⟩

theorem code_head (sigs : Signatures) (base : Nat) (f : Function) :
    ∃ code, f.code sigs base =
      .labeled (Label.function f.name) (.marker .function) f.pos :: code := by
  obtain ⟨tail, eq, _⟩ := f.code_eq sigs base
  exact ⟨_, eq⟩

/-- The code of functions behind `base` instructions. -/
def codeAll (sigs : Signatures) (base : Nat) : List Function → List Instr
  | [] => []
  | f :: fs =>
    let head := f.code sigs base
    head ++ codeAll sigs (base + head.length) fs

theorem codeAll_append (sigs : Signatures) (base : Nat) (fs gs : List Function) :
    codeAll sigs base (fs ++ gs) =
      codeAll sigs base fs ++ codeAll sigs (base + (codeAll sigs base fs).length) gs := by
  induction fs generalizing base with
  | nil => rfl
  | cons f fs ih =>
    simp only [List.cons_append, codeAll, ih, List.append_assoc, List.length_append,
      Nat.add_assoc]

theorem code_at_of_mem {sigs : Signatures} {p : Program} {f : Function} {fs : List Function}
    {base : Nat} (hf : f ∈ fs) (h : p.CodeAt base (codeAll sigs base fs)) :
    ∃ b, p.CodeAt b (f.code sigs b) := by
  induction fs generalizing base with
  | nil => cases hf
  | cons g fs ih =>
    obtain ⟨hg, hfs⟩ := Program.codeAt_append.1 h
    cases hf with
    | head => exact ⟨base, hg⟩
    | tail _ hf => exact ih hf hfs

/-- Instructions of a function other than its marker and the binding of its parameters. -/
theorem code_cases {sigs : Signatures} {base : Nat} {f : Function} {i : Instr}
    (h : i ∈ f.code sigs base) : i ∈ f.prologue ∨ i.InBody sigs := by
  obtain ⟨tail, eq, ht⟩ := f.code_eq sigs base
  rw [eq, List.mem_append, List.mem_append] at h
  obtain (h | h) | h := h
  · exact .inl h
  · exact .inr (bodyCode_inBody sigs f.body _ i h)
  · obtain rfl | ⟨rfl, _⟩ := ht
    · rw [List.mem_singleton.1 h]
      exact .inr (.plain _)
    · cases h

/-- An instruction is one of a function, whose code is there as a whole. -/
theorem mem_codeAll {sigs : Signatures} {fs : List Function} {base : Nat} {i : Instr}
    (h : i ∈ codeAll sigs base fs) :
    ∃ f ∈ fs, ∃ b, i ∈ f.code sigs b ∧ f.code sigs b ⊆ codeAll sigs base fs := by
  induction fs generalizing base with
  | nil => cases h
  | cons g fs ih =>
    obtain h | h := List.mem_append.1 h
    · exact ⟨g, by simp, base, h, List.subset_append_left ..⟩
    · obtain ⟨f, hf, b, hi, whole⟩ := ih h
      exact ⟨f, by simp [hf], b, hi, List.subset_append_of_subset_right _ whole⟩

end Function

/-- What is known of a program that has been compiled. -/
structure Compiled (functions : List Function) (isHost : String → Bool) (p : Program) : Prop where
  main : (signatures functions entryPoint).isSome
  code : p.code = (Function.codeAll (signatures functions) 0 functions ++
    startCode (signatures functions)).toArray
  entry : p.entry = (Function.codeAll (signatures functions) 0 functions).length
  labels : p.LabelsMatch
  calls : ∀ i ∈ Function.codeAll (signatures functions) 0 functions ++
    startCode (signatures functions), callError? (signatures functions) isHost i = none

theorem Program.pushAll_of_pushFunction {sigs : Signatures} {f : Function} {p q : Program}
    (h : p.pushFunction sigs f = .ok q) : p.pushAll (f.code sigs p.code.size) = .ok q := by
  unfold pushFunction at h
  split at h
  · cases h
  · exact h

/-- Functions that are accepted stand one behind the other. -/
theorem Program.pushAll_of_pushFunctions {sigs : Signatures} {fs : List Function} {p q : Program}
    (h : fs.foldlM (pushFunction sigs) p = .ok q) :
    p.pushAll (Function.codeAll sigs p.code.size fs) = .ok q := by
  induction fs generalizing p with
  | nil => exact h
  | cons f fs ih =>
    simp only [List.foldlM_cons, Bind.bind, Except.bind] at h
    split at h
    · cases h
    · rename_i r hr
      have head := pushAll_of_pushFunction hr
      have rest := ih h
      rw [pushAll_size head] at rest
      rw [Function.codeAll, pushAll_append head, rest]

theorem compiled_of_compile {functions : List Function} {isHost : String → Bool} {p : Program}
    (h : compile functions isHost = .ok p) : Compiled functions isHost p := by
  unfold compile at h
  dsimp only at h
  split at h
  · cases h
  · split at h
    · cases h
    · rename_i main
      simp only [bind, Except.bind, pure, Except.pure] at h
      split at h
      · cases h
      · rename_i declared hd
        have hd := Program.pushAll_of_pushFunctions hd
        split at h
        · cases h
        · rename_i q hq
          have code : q.code = (Function.codeAll (signatures functions) 0 functions ++
              startCode (signatures functions)).toArray := by
            rw [Program.pushAll_code hq, Program.pushAll_code hd]
            simp [Program.empty]
          split at h
          · cases h
          · rename_i calls
            cases h
            refine ⟨by simpa [Option.isSome_iff_ne_none] using main, code, ?_, ?_, ?_⟩
            · simpa [Program.empty] using Program.pushAll_size hd
            · have labels := Program.pushAll_labelsMatch
                (Program.pushAll_labelsMatch Program.labelsMatch_empty hd) hq
              exact fun label i => labels label i
            · rw [code] at calls
              exact List.findSome?_eq_none_iff.1 (Option.eq_none_iff_forall_ne_some.2 calls)

namespace Compiled

variable {functions : List Function} {isHost : String → Bool} {p : Program}

theorem mem_code (hp : Compiled functions isHost p) {i : Nat} {instr : Instr}
    (h : p.code[i]? = some instr) :
    instr ∈ Function.codeAll (signatures functions) 0 functions ++
      startCode (signatures functions) := by
  rw [hp.code, List.getElem?_toArray] at h
  exact List.mem_of_getElem? h

theorem codeAt (hp : Compiled functions isHost p) :
    p.CodeAt 0 (Function.codeAll (signatures functions) 0 functions) ∧
      p.CodeAt p.entry (startCode (signatures functions)) := by
  have h := Program.codeAt_append.1 (Program.codeAt_of_code hp.code)
  rw [Nat.zero_add, ← hp.entry] at h
  exact h

/-- The code of a function is where its label is bound. -/
theorem function_at (hp : Compiled functions isHost p) {f : Function} (hf : f ∈ functions) :
    ∃ base, p.CodeAt base (f.code (signatures functions) base) ∧
      p.resolve (Label.function f.name) = some base := by
  obtain ⟨base, hcode⟩ := Function.code_at_of_mem hf hp.codeAt.1
  obtain ⟨code, eq⟩ := f.code_head (signatures functions) base
  exact ⟨base, hcode, hp.labels.resolve_eq (eq ▸ hcode).head⟩

/-- There is an entry point. -/
theorem find?_main (hp : Compiled functions isHost p) :
    ∃ f, functions.find? (·.name = entryPoint) = some f := by
  have main := hp.main
  simp only [signatures, Option.isSome_map] at main
  exact Option.isSome_iff_exists.1 main

/-- Labels are those of functions and those of jumps. -/
theorem label_cases (hp : Compiled functions isHost p) {k : Nat} {i : Instr} {label : String}
    (hi : p.code[k]? = some i) (h : i.label = some label) :
    (∃ f ∈ functions, label = Label.function f.name) ∨ Label.IsIndexed label := by
  obtain hmem | hmem := List.mem_append.1 (hp.mem_code hi)
  · obtain ⟨f, hf, b, hi, _⟩ := Function.mem_codeAll hmem
    obtain hpro | hbody := Function.code_cases hi
    · simp only [Function.prologue, List.mem_cons, List.mem_map] at hpro
      obtain rfl | ⟨q, _, rfl⟩ := hpro
      · exact .inl ⟨f, hf, (Option.some.inj h).symm⟩
      · cases h
    · exact .inr (hbody.label label h)
  · simp only [startCode, callCode, argsCode, List.nil_append, List.singleton_append,
      List.mem_cons, List.not_mem_nil, or_false] at hmem
    obtain rfl | rfl := hmem <;> cases h

/-- The label of a function that is not there is not bound to anything else. -/
theorem resolve_function_eq_none (hp : Compiled functions isHost p) {name : String}
    (h : ∀ f ∈ functions, f.name ≠ name) : p.resolve (Label.function name) = none := by
  rw [Option.eq_none_iff_forall_ne_some]
  intro i hi
  obtain ⟨instr, hcode, label⟩ := (hp.labels _ i).1 hi
  obtain ⟨f, hf, same⟩ | jump := hp.label_cases hcode label
  · exact h f hf (Label.function_injective same).symm
  · exact jump.ne_function name rfl

/-- A call of a function has as many arguments as it has parameters. -/
theorem call_arity (hp : Compiled functions isHost p) {pc argc : Nat} {name : String}
    {returns : Option Ty} {label : Option String} {site : Position} {f : Function}
    (hi : p.code[pc]? = some ⟨.call name argc returns, label, site⟩)
    (hf : functions.find? (·.name = name) = some f) : f.params.length = argc := by
  have fine := hp.calls _ (hp.mem_code hi)
  simp only [callError?, signatures, hf, Option.map_some, Function.signature] at fine
  split at fine
  · assumption
  · cases fine

/-- A call goes to a function of the program or to one of the host. -/
theorem call_isHost (hp : Compiled functions isHost p) {pc argc : Nat} {name : String}
    {returns : Option Ty} {label : Option String} {site : Position}
    (hi : p.code[pc]? = some ⟨.call name argc returns, label, site⟩)
    (hf : functions.find? (·.name = name) = none) : isHost name = true := by
  have fine := hp.calls _ (hp.mem_code hi)
  simp only [callError?, signatures, hf, Option.map_none] at fine
  split at fine
  · assumption
  · cases fine

/-- A call carries the type that its function returns. -/
theorem call_returns (hp : Compiled functions isHost p) {pc argc : Nat} {name : String}
    {returns : Option Ty} {label : Option String} {site : Position}
    (hi : p.code[pc]? = some ⟨.call name argc returns, label, site⟩) :
    returns = (signatures functions name).bind Signature.returns := by
  obtain hmem | hmem := List.mem_append.1 (hp.mem_code hi)
  · obtain ⟨f, _, b, hmem, _⟩ := Function.mem_codeAll hmem
    obtain hpro | hbody := Function.code_cases hmem
    · simp only [Function.prologue, List.mem_cons, List.mem_map] at hpro
      obtain eq | ⟨q, _, eq⟩ := hpro <;> cases eq
    · exact hbody.op
  · simp only [startCode, callCode, argsCode, List.nil_append, List.singleton_append,
      List.mem_cons, List.not_mem_nil, or_false] at hmem
    obtain eq | eq := hmem <;> cases eq
    rfl

end Compiled

end StackScript
