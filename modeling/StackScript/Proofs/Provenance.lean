import StackScript.Proofs.Grammar
import StackScript.Proofs.Layout

/-!
# Where code comes from

The strings that code pushes and the names in it stand in the tokens that it was compiled from.

* `stringsOf`, `namesOf`, `stringsIn`, `namesIn`: the strings and names of code and of tokens;
* `Quotes`: code has the strings of tokens, each as often, and no names but theirs;
* `Expr.code_quotes`, `Stmt.code_quotes`, `Function.code_quotes`: so it is with the code of a tree
  and the tokens of that tree;
* `Compiled.quotes`: and with that of a program.
-/

namespace StackScript

/-! ## Strings and names -/

/-- The string that an operation pushes, if it pushes one. -/
def Op.strings : Op → List String
  | .push (.string s) => [s]
  | _ => []

/-- The variable or function that an operation names. -/
def Op.names : Op → List String
  | .bindArg _ name | .assign _ name | .assignItem name | .load name | .call name _ _
  | .rangeTest name _ | .rangeStep name _ | .loadItem name => [name]
  | _ => []

def Token.strings : Token → List String
  | .string s => [s]
  | _ => []

/-- A name, and that of the bound if it is the variable of a range loop. -/
def Token.names : Token → List String
  | .name word => [word, boundName word]
  | _ => []

/-- The strings that code pushes. -/
def stringsOf (code : List Instr) : List String := code.flatMap (·.op.strings)

/-- The variables and functions that code names. -/
def namesOf (code : List Instr) : List String := code.flatMap (·.op.names)

def stringsIn (ts : List Located) : List String := ts.flatMap (·.token.strings)

def namesIn (ts : List Located) : List String := ts.flatMap (·.token.names)

section

variable (a b code : List Instr) (op : Op) (pos : Position) (label : String)

@[simp] theorem stringsOf_nil : stringsOf [] = [] := rfl

@[simp] theorem stringsOf_append : stringsOf (a ++ b) = stringsOf a ++ stringsOf b :=
  List.flatMap_append

@[simp] theorem stringsOf_plain :
    stringsOf (.plain op pos :: code) = op.strings ++ stringsOf code := rfl

@[simp] theorem stringsOf_labeled :
    stringsOf (.labeled label op pos :: code) = op.strings ++ stringsOf code := rfl

@[simp] theorem namesOf_nil : namesOf [] = [] := rfl

@[simp] theorem namesOf_append : namesOf (a ++ b) = namesOf a ++ namesOf b :=
  List.flatMap_append

@[simp] theorem namesOf_plain : namesOf (.plain op pos :: code) = op.names ++ namesOf code := rfl

@[simp] theorem namesOf_labeled :
    namesOf (.labeled label op pos :: code) = op.names ++ namesOf code := rfl

@[simp] theorem stringsOf_inScope : stringsOf (inScope pos code) = stringsOf code := by
  simp [inScope, Op.strings]

@[simp] theorem namesOf_inScope : namesOf (inScope pos code) = namesOf code := by
  simp [inScope, Op.names]

end

section

variable (t : Located) (ts us : List Located) (pos p q : Position) (name : String)

@[simp] theorem stringsIn_nil : stringsIn [] = [] := rfl

@[simp] theorem stringsIn_cons :
    stringsIn (t :: ts) = t.token.strings ++ stringsIn ts := rfl

@[simp] theorem stringsIn_append : stringsIn (ts ++ us) = stringsIn ts ++ stringsIn us :=
  List.flatMap_append

@[simp, grind =] theorem namesIn_nil : namesIn [] = [] := rfl

@[simp] theorem namesIn_cons : namesIn (t :: ts) = t.token.names ++ namesIn ts := rfl

@[grind =] theorem namesIn_mark (m : Punctuation) : namesIn (mark m pos :: ts) = namesIn ts := rfl

@[grind =] theorem namesIn_word (k : Keyword) : namesIn (word k pos :: ts) = namesIn ts := rfl

@[grind =] theorem namesIn_identifier :
    namesIn (identifier name pos :: ts) = name :: boundName name :: namesIn ts := rfl

@[grind =] theorem namesIn_operator (op : Operator) :
    namesIn (⟨.operator op, pos⟩ :: ts) = namesIn ts := rfl

@[simp, grind =] theorem namesIn_append : namesIn (ts ++ us) = namesIn ts ++ namesIn us :=
  List.flatMap_append

@[simp] theorem stringsIn_braced : stringsIn (braced p q ts) = stringsIn ts := by
  simp [braced, Token.strings]

@[simp, grind =] theorem namesIn_braced : namesIn (braced p q ts) = namesIn ts := by
  simp [braced, Token.names]

end

/-! ## Code and its tokens -/

/-- The strings that the code pushes are those of the tokens, each as often, and its names are
among theirs. -/
structure Quotes (ts : List Located) (code : List Instr) : Prop where
  strings : (stringsOf code).Perm (stringsIn ts)
  names : namesOf code ⊆ namesIn ts

namespace Quotes

variable {ts us : List Located} {a b code : List Instr}

theorem nil : Quotes [] [] := ⟨.nil, List.Subset.refl _⟩

theorem append (ha : Quotes ts a) (hb : Quotes us b) : Quotes (ts ++ us) (a ++ b) := by
  constructor
  · simpa using ha.strings.append hb.strings
  · rw [namesOf_append]
    grind [ha.names, hb.names]

/-- Instructions that neither push a string nor name anything. -/
theorem mute (code : List Instr) (strings : stringsOf code = [] := by rfl)
    (names : namesOf code = [] := by rfl) : Quotes [] code := by
  constructor
  · simp [strings]
  · simp [names]

/-- Instructions that have a name in them, or that of its bound. -/
theorem naming (name : String) (pos : Position) (code : List Instr)
    (strings : stringsOf code = [] := by rfl)
    (names : namesOf code ⊆ [name, boundName name] := by simp [callInstr, Op.names]) :
    Quotes [identifier name pos] code := by
  constructor
  · simp [strings, Token.strings]
  · simpa [Token.names] using names

/-- Tokens may stand in another order, and others among them that are no strings. -/
theorem among (h : Quotes us code) (strings : (stringsIn us).Perm (stringsIn ts))
    (names : namesIn us ⊆ namesIn ts) : Quotes ts code :=
  ⟨h.strings.trans strings, List.Subset.trans h.names names⟩

/-- A mark stands for nothing. -/
theorem mark_cons (h : Quotes ts code) (m : Punctuation) (pos : Position) :
    Quotes (mark m pos :: ts) code :=
  ⟨h.strings, h.names⟩

section

variable {α : Type} {R : α → List Located → Prop} {xs : List α}

theorem separated {code : α → List Instr} (h : Separated R xs ts)
    (each : ∀ x ∈ xs, ∀ ts, R x ts → Quotes ts (code x)) : Quotes ts (xs.flatMap code) := by
  induction h with
  | last hx => simpa using each _ (.head _) _ hx
  | cons pos hx _ ih =>
    obtain ⟨head, tail⟩ := List.forall_mem_cons.1 each
    exact (head _ hx).append ((ih tail).mark_cons .comma pos)

theorem listed {code : α → List Instr} {close : Punctuation} (h : Listed R close xs ts)
    (each : ∀ x ∈ xs, ∀ ts, R x ts → Quotes ts (code x)) : Quotes ts (xs.flatMap code) := by
  cases h with
  | nil pos => exact nil.mark_cons close pos
  | some pos h =>
    have whole := (separated h each).append (nil.mark_cons close pos)
    rwa [List.append_nil] at whole

end

end Quotes

/-! ## Expressions -/

section

variable {sigs : Signatures} {e : Expr} {es : List Expr} {ts : List Located} {close : Punctuation}

theorem Quotes.scoped (h : Quotes ts (e.code sigs)) : Quotes ts (e.scopedCode sigs) := by
  constructor
  · rw [Expr.scopedCode, stringsOf_inScope]
    exact h.strings
  · rw [Expr.scopedCode, namesOf_inScope]
    exact h.names

/-- An operation behind an expression that is evaluated on its own. -/
theorem Quotes.scoped_mute (h : Quotes ts (e.code sigs)) (code : List Instr)
    (strings : stringsOf code = [] := by rfl) (names : namesOf code = [] := by rfl) :
    Quotes ts (e.scopedCode sigs ++ code) := by
  have whole := h.scoped.append (.mute code strings names)
  rwa [List.append_nil] at whole

theorem argsCode_eq_flatMap (sigs : Signatures) (site : Position) (es : List Expr) :
    argsCode sigs site es = es.flatMap fun e => e.scopedCode sigs ++ [.plain .passArg site] := by
  induction es with
  | nil => simp [argsCode]
  | cons e es ih => simp [argsCode, Expr.scopedCode, ih]

theorem itemsCode_eq_flatMap (sigs : Signatures) (es : List Expr) :
    itemsCode sigs es = es.flatMap fun e => e.scopedCode sigs ++ [.plain .append e.pos] := by
  induction es with
  | nil => simp [itemsCode]
  | cons e es ih => simp [itemsCode, Expr.scopedCode, ih]

theorem argsCode_quotes (site : Position) (h : Listed Expr.Renders close es ts)
    (each : ∀ e ∈ es, ∀ ts, e.Renders ts → Quotes ts (e.code sigs)) :
    Quotes ts (argsCode sigs site es) := by
  rw [argsCode_eq_flatMap]
  exact .listed h fun e he us hr => (each e he us hr).scoped_mute _

theorem itemsCode_quotes (h : Listed Expr.Renders close es ts)
    (each : ∀ e ∈ es, ∀ ts, e.Renders ts → Quotes ts (e.code sigs)) :
    Quotes ts (itemsCode sigs es) := by
  rw [itemsCode_eq_flatMap]
  exact .listed h fun e he us hr => (each e he us hr).scoped_mute _

end

theorem Literal.strings_token (value : Literal) :
    value.token.strings = (Op.push value).strings := by
  cases value with
  | bool b => cases b <;> rfl
  | _ => rfl

mutual

theorem Expr.code_quotes (sigs : Signatures) : ∀ (e : Expr) {ts : List Located}, e.Renders ts →
    Quotes ts (e.code sigs)
  | .binary pos op lhs rhs, _, .binary hl hr => by
    have operands := (lhs.code_quotes sigs hl).append (rhs.code_quotes sigs hr)
    refine (operands.append (.mute _)).among ?_ ?_
    · simp [Token.strings]
    · grind
  | .literal pos value, _, .literal _ _ => by
    constructor
    · simp [Expr.code, value.strings_token]
    · simp [Expr.code, Op.names]
  | .var pos name, _, .var _ _ => by
    rw [Expr.code]
    exact .naming name pos _
  | .call pos _ name args, _, .call p h => by
    have args := argsCode_quotes pos h (all_code_quotes sigs args)
    refine (args.append (.naming name pos _)).among ?_ ?_
    · simp [Token.strings]
    · grind
  | .index pos name inner, _, .index p q h => by
    have index := (inner.code_quotes sigs h).scoped
    refine (index.append (.naming name pos _)).among ?_ ?_
    · simp [Token.strings]
    · grind
  | .array pos items, _, .array h => by
    have items := itemsCode_quotes h (all_code_quotes sigs items)
    exact ((Quotes.mute _).append items).mark_cons .lbracket pos
  | .paren pos inner, _, .paren p h => by
    refine (inner.code_quotes sigs h).among ?_ ?_
    · simp [Token.strings]
    · grind

theorem all_code_quotes (sigs : Signatures) : ∀ (es : List Expr), ∀ e ∈ es, ∀ ts, e.Renders ts →
    Quotes ts (e.code sigs)
  | e :: _, _, .head _, _, h => e.code_quotes sigs h
  | _ :: es, e, .tail _ mem, ts, h => all_code_quotes sigs es e mem ts h

end

/-! ## Statements -/

theorem bodyCode_quotes {sigs : Signatures} {body : List Stmt} {ts : List Located}
    (h : InSequence Stmt.Renders body ts) (base : Nat)
    (each : ∀ s ∈ body, ∀ ts, s.Renders ts → ∀ base, Quotes ts (s.code sigs base)) :
    Quotes ts (bodyCode sigs base body) := by
  induction h generalizing base with
  | nil =>
    rw [bodyCode]
    exact .nil
  | cons hs _ ih =>
    obtain ⟨head, tail⟩ := List.forall_mem_cons.1 each
    rw [bodyCode]
    exact (head _ hs base).append (ih _ tail)

theorem Quotes.count {sigs : Signatures} {init step : Stmt} {test : Expr} {body : List Stmt}
    {initial tested stepped repeated : List Located} (pos : Position)
    (hinit : ∀ base, Quotes initial (init.code sigs base)) (htest : Quotes tested (test.code sigs))
    (hstep : ∀ base, Quotes stepped (step.code sigs base))
    (hbody : ∀ base, Quotes repeated (bodyCode sigs base body)) (base : Nat) :
    Quotes (initial ++ tested ++ repeated ++ stepped)
      ((Stmt.count pos init test step body).code sigs base) := by
  rw [Stmt.code]
  refine ((((((hinit base).append (.mute _)).append htest.scoped).append (.mute _)).append
    (hbody _)).append (hstep _)).append (.mute _) |>.among ?_ ?_
  · simp
  · simp

mutual

theorem Stmt.code_quotes (sigs : Signatures) : ∀ (s : Stmt) {ts : List Located}, s.Renders ts →
    ∀ base, Quotes ts (s.code sigs base)
  | .cond pos test body, _, .cond p q ht hb, base => by
    have test := (test.code_quotes sigs ht).scoped
    have body (base : Nat) := bodyCode_quotes hb base (body_code_quotes sigs body)
    refine (((test.append (.mute _)).append (body _)).append (.mute _)).among ?_ ?_
    · simp [Token.strings]
    · grind
  | .loop pos test body, _, .loop p q ht hb, base => by
    have test := (test.code_quotes sigs ht).scoped
    have body (base : Nat) := bodyCode_quotes hb base (body_code_quotes sigs body)
    refine (((((Quotes.mute _).append test).append (.mute _)).append (body _)).append
      (.mute _)).among ?_ ?_
    · simp [Token.strings]
    · grind
  -- The head of the loop has its step before the body, and the code has it behind.
  | .count pos init test step body, _, .count p q r hi hn ht hs hb, base => by
    have body (base : Nat) := bodyCode_quotes hb base (body_code_quotes sigs body)
    refine (Quotes.count pos (init.code_quotes sigs hi) (test.code_quotes sigs ht)
      (step.code_quotes sigs hs) body base).among ?_ ?_
    · simp [Token.strings, List.perm_append_left_iff, List.perm_append_comm]
    · grind
  | .count pos init test step body, _, .countInParens p q r u v hi ht hs hb, base => by
    have body (base : Nat) := bodyCode_quotes hb base (body_code_quotes sigs body)
    refine (Quotes.count pos (init.code_quotes sigs hi) (test.code_quotes sigs ht)
      (step.code_quotes sigs hs) body base).among ?_ ?_
    · simp [Token.strings, List.perm_append_left_iff, List.perm_append_comm]
    · grind
  | .range pos first last name body, _, .range p q r u v hf hl hb, base => by
    have first := (first.code_quotes sigs hf).scoped
    have last := (last.code_quotes sigs hl).scoped
    have body (base : Nat) := bodyCode_quotes hb base (body_code_quotes sigs body)
    refine (((((((first.append (.naming name r _)).append last).append (.naming name r _)).append
      (.naming name r _)).append (body _)).append (.naming name r _))).among ?_ ?_
    · simp [Token.strings]
    · grind
  | .ret pos none, _, .ret _ p, base => (Quotes.mute _).among (by simp [Token.strings]) (by simp)
  | .ret pos (some value), _, .retValue p h, base => by
    have value := (value.code_quotes sigs h).scoped
    refine (value.append (.mute _)).among ?_ ?_
    · simp [Token.strings]
    · grind
  | .assignItem pos name index value, _, .assignItem p q r u hi hv, base => by
    have index := (index.code_quotes sigs hi).scoped
    have value := (value.code_quotes sigs hv).scoped
    refine (((index.append (.mute _)).append value).append (.naming name pos _)).among ?_ ?_
    · simp [Token.strings]
    · grind
  | .assign pos (some ty) name value, _, .declare p q r h, base => by
    have value := (value.code_quotes sigs h).scoped
    refine (value.append (.naming name p _)).among ?_ ?_
    · simp [Token.strings]
    · grind
  | .assign pos none name value, _, .assign p q h, base => by
    have value := (value.code_quotes sigs h).scoped
    refine (value.append (.naming name pos _)).among ?_ ?_
    · simp [Token.strings]
    · grind
  | .call pos _ name args, _, .call p h, base => by
    have call := Expr.code_quotes sigs _ h
    rw [Expr.code] at call
    refine (((Quotes.mute _).append call).append (.mute _)).among ?_ ?_
    · simp [Token.strings]
    · grind
  | .expr _ value, _, .expr p h, base => by
    refine (value.code_quotes sigs h).scoped.among ?_ ?_
    · simp [Token.strings]
    · grind

theorem body_code_quotes (sigs : Signatures) : ∀ (body : List Stmt), ∀ s ∈ body, ∀ ts,
    s.Renders ts → ∀ base, Quotes ts (s.code sigs base)
  | s :: _, _, .head _, _, h, base => s.code_quotes sigs h base
  | _ :: body, s, .tail _ mem, ts, h, base => body_code_quotes sigs body s mem ts h base

end

/-! ## Functions -/

namespace Function

theorem params_quotes {params : List Parameter} {ts : List Located} {close : Punctuation}
    (h : Listed Parameter.Renders close params ts) :
    Quotes ts (params.map fun p => .plain (.bindArg p.ty p.name) p.pos) := by
  rw [List.map_eq_flatMap]
  refine .listed h fun p _ us hp => ?_
  cases hp with
  | intro pos q ty name =>
    exact (Quotes.naming name q _).among (by simp [Token.strings]) (by simp)

theorem code_quotes (sigs : Signatures) (f : Function) {ts : List Located} (h : f.Renders ts)
    (base : Nat) : Quotes ts (f.code sigs base) ∧ f.name ∈ namesIn ts := by
  obtain ⟨tail, eq, htail⟩ := f.code_eq sigs base
  have tail : Quotes [] tail := by
    obtain rfl | ⟨rfl, _⟩ := htail
    · exact .mute _
    · exact .nil
  cases h with
  | @intro pos name params returns body ts us vs p q r u hparams hreturns hbody =>
    have body (base : Nat) := bodyCode_quotes hbody base (body_code_quotes sigs body)
    have silent : stringsIn us = [] := by cases hreturns <;> rfl
    rw [eq]
    constructor
    · refine (((Quotes.append (.mute [_]) (params_quotes hparams)).append (body _)).append tail).among
        ?_ ?_
      · simp [Token.strings, silent]
      · grind
    · simp [Token.names]

theorem codeAll_quotes (sigs : Signatures) {fs : List Function} {ts : List Located}
    (h : InSequence Function.Renders fs ts) (base : Nat) :
    Quotes ts (codeAll sigs base fs) ∧ ∀ f ∈ fs, f.name ∈ namesIn ts := by
  induction h generalizing base with
  | nil => exact ⟨.nil, by simp⟩
  | @cons f fs ts us hf _ ih =>
    obtain ⟨head, named⟩ := f.code_quotes sigs hf base
    obtain ⟨tail, others⟩ := ih (base + (f.code sigs base).length)
    refine ⟨head.append tail, List.forall_mem_cons.2 ⟨?_, fun g hg => ?_⟩⟩
    · simp [named]
    · simp [others g hg]

end Function

/-- A program pushes the strings of its text and has no names but those of the text. -/
theorem Compiled.quotes {fs : List Function} {isHost : String → Bool} {p : Program}
    {ts : List Located} (hp : Compiled fs isHost p) (h : ProgramStands fs ts) :
    Quotes ts p.code.toList ∧ ∀ f ∈ fs, f.name ∈ namesIn ts := by
  obtain ⟨functions, named⟩ := Function.codeAll_quotes (signatures fs) h.2 0
  obtain ⟨main, found⟩ := hp.find?_main
  have entry : entryPoint ∈ namesIn ts := by
    have same : main.name = entryPoint := by simpa using List.find?_some found
    exact same ▸ named main (List.mem_of_find?_eq_some found)
  rw [hp.code]
  refine ⟨⟨?_, ?_⟩, named⟩
  · simpa [startCode, callCode, argsCode, callInstr, Op.strings] using functions.strings
  · simpa [startCode, callCode, argsCode, callInstr, Op.names] using ⟨functions.names, entry⟩

end StackScript
