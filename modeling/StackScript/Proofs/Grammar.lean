import StackScript.Syntax
import StackScript.Token

/-!
# The grammar

The token lists that a tree stands for, and the trees that stand for themselves.

* `Expr.Renders`, `Stmt.Renders`, `Function.Renders`: a tree is written as these tokens, and its
  positions are those of the tokens it names;
* `Expr.Canonical`, `Stmt.Canonical`: the shape of the tree is that of the precedence of its
  operators, and its statements are what they look like.
-/

namespace StackScript

/-! ## Tokens -/

def mark (m : Punctuation) (pos : Position) : Located := ⟨.punctuation m, pos⟩

def word (k : Keyword) (pos : Position) : Located := ⟨.keyword k, pos⟩

def identifier (name : String) (pos : Position) : Located := ⟨.name name, pos⟩

@[simp] theorem mark_token (m : Punctuation) (pos : Position) :
    (mark m pos).token = .punctuation m := rfl

@[simp] theorem word_token (k : Keyword) (pos : Position) : (word k pos).token = .keyword k := rfl

@[simp] theorem identifier_token (name : String) (pos : Position) :
    (identifier name pos).token = .name name := rfl

@[simp] theorem mark_pos (m : Punctuation) (pos : Position) : (mark m pos).pos = pos := rfl

@[simp] theorem word_pos (k : Keyword) (pos : Position) : (word k pos).pos = pos := rfl

@[simp] theorem identifier_pos (name : String) (pos : Position) :
    (identifier name pos).pos = pos := rfl

def Literal.token : Literal → Token
  | .int n => .int n
  | .float x => .float x
  | .string s => .string s
  | .bool true => .keyword .true_
  | .bool false => .keyword .false_

/-- Whether tokens begin with this one. -/
def BeginsWith (token : Token) (ts : List Located) : Prop := ts.head?.map (·.token) = some token

@[simp] theorem beginsWith_cons {token : Token} {first : Located} {ts : List Located} :
    BeginsWith token (first :: ts) ↔ first.token = token := by
  simp [BeginsWith]

theorem BeginsWith.append {token : Token} {ts : List Located} (h : BeginsWith token ts)
    (us : List Located) : BeginsWith token (ts ++ us) := by
  cases ts with
  | nil => cases h
  | cons => exact h

/-- Pieces one behind the other. -/
inductive InSequence {α : Type} (R : α → List Located → Prop) : List α → List Located → Prop
  | nil : InSequence R [] []
  | cons {x : α} {xs : List α} {ts us : List Located} :
    R x ts → InSequence R xs us → InSequence R (x :: xs) (ts ++ us)

/-- One piece or more with commas between them. -/
inductive Separated {α : Type} (R : α → List Located → Prop) : List α → List Located → Prop
  | last {x : α} {ts : List Located} : R x ts → Separated R [x] ts
  | cons {x : α} {xs : List α} {ts us : List Located} (pos : Position) :
    R x ts → Separated R xs us → Separated R (x :: xs) (ts ++ mark .comma pos :: us)

/-- Pieces with commas between them, up to a closing mark. -/
inductive Listed {α : Type} (R : α → List Located → Prop) (close : Punctuation) :
    List α → List Located → Prop
  | nil (pos : Position) : Listed R close [] [mark close pos]
  | some {xs : List α} {ts : List Located} (pos : Position) :
    Separated R xs ts → Listed R close xs (ts ++ [mark close pos])

theorem InSequence.and_iff {α : Type} {P : α → Prop} {R : α → List Located → Prop} {xs : List α}
    {ts : List Located} :
    InSequence (fun x ts => P x ∧ R x ts) xs ts ↔ (∀ x ∈ xs, P x) ∧ InSequence R xs ts := by
  constructor
  · intro h
    induction h with
    | nil => exact ⟨by simp, .nil⟩
    | cons hx _ ih => exact ⟨List.forall_mem_cons.2 ⟨hx.1, ih.1⟩, .cons hx.2 ih.2⟩
  · rintro ⟨all, h⟩
    induction h with
    | nil => exact .nil
    | cons hx _ ih =>
      obtain ⟨head, tail⟩ := List.forall_mem_cons.1 all
      exact .cons ⟨head, hx⟩ (ih tail)

theorem Separated.and_iff {α : Type} {P : α → Prop} {R : α → List Located → Prop} {xs : List α}
    {ts : List Located} :
    Separated (fun x ts => P x ∧ R x ts) xs ts ↔ (∀ x ∈ xs, P x) ∧ Separated R xs ts := by
  constructor
  · intro h
    induction h with
    | last hx => exact ⟨by simpa using hx.1, .last hx.2⟩
    | cons pos hx _ ih => exact ⟨List.forall_mem_cons.2 ⟨hx.1, ih.1⟩, .cons pos hx.2 ih.2⟩
  · rintro ⟨all, h⟩
    induction h with
    | last hx => exact .last ⟨all _ (List.mem_singleton_self _), hx⟩
    | cons pos hx _ ih =>
      obtain ⟨head, tail⟩ := List.forall_mem_cons.1 all
      exact .cons pos ⟨head, hx⟩ (ih tail)

theorem Listed.and_iff {α : Type} {P : α → Prop} {R : α → List Located → Prop}
    {close : Punctuation} {xs : List α} {ts : List Located} :
    Listed (fun x ts => P x ∧ R x ts) close xs ts ↔ (∀ x ∈ xs, P x) ∧ Listed R close xs ts := by
  constructor
  · intro h
    cases h with
    | nil pos => exact ⟨by simp, .nil pos⟩
    | some pos h => exact ⟨(Separated.and_iff.1 h).1, .some pos (Separated.and_iff.1 h).2⟩
  · rintro ⟨all, h⟩
    cases h with
    | nil pos => exact .nil pos
    | some pos h => exact .some pos (Separated.and_iff.2 ⟨all, h⟩)

/-! ## Expressions -/

/-- The tokens of an expression. A binary node is at its operator, all others are at their first
token. -/
inductive Expr.Renders : Expr → List Located → Prop
  | binary {pos : Position} {op : Operator} {lhs rhs : Expr} {ts us : List Located} :
    lhs.Renders ts → rhs.Renders us →
    (Expr.binary pos op lhs rhs).Renders (ts ++ ⟨.operator op, pos⟩ :: us)
  | literal (pos : Position) (value : Literal) :
    (Expr.literal pos value).Renders [⟨value.token, pos⟩]
  | var (pos : Position) (name : String) : (Expr.var pos name).Renders [identifier name pos]
  | call {pos : Position} {name : String} {args : List Expr} {ts : List Located} (p : Position) :
    Listed Expr.Renders .rparen args ts →
    (Expr.call pos pos name args).Renders (identifier name pos :: mark .lparen p :: ts)
  | index {pos : Position} {name : String} {index : Expr} {ts : List Located} (p q : Position) :
    index.Renders ts →
    (Expr.index pos name index).Renders
      (identifier name pos :: mark .lbracket p :: ts ++ [mark .rbracket q])
  | array {pos : Position} {items : List Expr} {ts : List Located} :
    Listed Expr.Renders .rbracket items ts →
    (Expr.array pos items).Renders (mark .lbracket pos :: ts)
  | paren {pos : Position} {inner : Expr} {ts : List Located} (p : Position) :
    inner.Renders ts → (Expr.paren pos inner).Renders (mark .lparen pos :: ts ++ [mark .rparen p])

theorem Expr.Renders.ne_nil {e : Expr} {ts : List Located} (h : e.Renders ts) : ts ≠ [] := by
  cases h <;> simp

/-- How tight an operator binds. -/
def Operator.tightness : Operator → Nat
  | .mul | .div => 2
  | .add | .sub => 1
  | _ => 0

theorem Operator.isComparison_iff (op : Operator) : op.isComparison = true ↔ op.tightness = 0 := by
  cases op <;> decide

theorem Operator.isSum_iff (op : Operator) : op.isSum = true ↔ op.tightness = 1 := by
  cases op <;> decide

theorem Operator.isProduct_iff (op : Operator) : op.isProduct = true ↔ op.tightness = 2 := by
  cases op <;> decide

/-- How tight an expression holds together. Only binary nodes fall apart. -/
def Expr.tightness : Expr → Nat
  | .binary _ op _ _ => op.tightness
  | _ => 3

/-- Operators associate to the left: the left operand of a node binds as tight as the node, the
right one tighter. -/
inductive Expr.Canonical : Expr → Prop
  | binary {pos : Position} {op : Operator} {lhs rhs : Expr} :
    op.tightness ≤ lhs.tightness → op.tightness < rhs.tightness → lhs.Canonical → rhs.Canonical →
    (Expr.binary pos op lhs rhs).Canonical
  | literal (pos : Position) (value : Literal) : (Expr.literal pos value).Canonical
  | var (pos : Position) (name : String) : (Expr.var pos name).Canonical
  | call {pos site : Position} {name : String} {args : List Expr} :
    (∀ e ∈ args, e.Canonical) → (Expr.call pos site name args).Canonical
  | index {pos : Position} {name : String} {index : Expr} :
    index.Canonical → (Expr.index pos name index).Canonical
  | array {pos : Position} {items : List Expr} :
    (∀ e ∈ items, e.Canonical) → (Expr.array pos items).Canonical
  | paren {pos : Position} {inner : Expr} : inner.Canonical → (Expr.paren pos inner).Canonical

/-- An expression that binds at least this tight, and its tokens. -/
def Expr.Stands (k : Nat) (e : Expr) (ts : List Located) : Prop :=
  k ≤ e.tightness ∧ e.Canonical ∧ e.Renders ts

/-! ## Statements -/

/-- Tokens in braces. -/
def braced (p q : Position) (ts : List Located) : List Located :=
  mark .lbrace p :: ts ++ [mark .rbrace q]

/-- The tokens of a statement, which is at its first token. -/
inductive Stmt.Renders : Stmt → List Located → Prop
  | cond {pos : Position} {test : Expr} {body : List Stmt} {ts us : List Located} (p q : Position) :
    test.Renders ts → InSequence Stmt.Renders body us →
    (Stmt.cond pos test body).Renders (word .if_ pos :: ts ++ braced p q us)
  | loop {pos : Position} {test : Expr} {body : List Stmt} {ts us : List Located} (p q : Position) :
    test.Renders ts → InSequence Stmt.Renders body us →
    (Stmt.loop pos test body).Renders (word .while_ pos :: ts ++ braced p q us)
  /-- A parenthesis behind the keyword is that of the head. -/
  | count {pos : Position} {init step : Stmt} {test : Expr} {body : List Stmt}
    {ts us vs ws : List Located} (p q r : Position) :
    init.Renders ts → ¬BeginsWith (.punctuation .lparen) ts → test.Renders us → step.Renders vs →
    InSequence Stmt.Renders body ws →
    (Stmt.count pos init test step body).Renders
      (word .for_ pos :: ts ++ us ++ mark .semicolon p :: vs ++ braced q r ws)
  | countInParens {pos : Position} {init step : Stmt} {test : Expr} {body : List Stmt}
    {ts us vs ws : List Located} (p q r u v : Position) :
    init.Renders ts → test.Renders us → step.Renders vs → InSequence Stmt.Renders body ws →
    (Stmt.count pos init test step body).Renders
      (word .for_ pos :: mark .lparen u :: ts ++ us ++ mark .semicolon p :: vs ++
        mark .rparen v :: braced q r ws)
  | range {pos : Position} {first last : Expr} {name : String} {body : List Stmt}
    {ts us vs : List Located} (p q r u v : Position) :
    first.Renders ts → last.Renders us → InSequence Stmt.Renders body vs →
    (Stmt.range pos first last name body).Renders
      (word .from_ pos :: ts ++ word .to_ p :: us ++ word .as_ q :: identifier name r ::
        braced u v vs)
  | ret (pos p : Position) :
    (Stmt.ret pos none).Renders [word .return_ pos, mark .semicolon p]
  | retValue {pos : Position} {value : Expr} {ts : List Located} (p : Position) :
    value.Renders ts →
    (Stmt.ret pos (some value)).Renders (word .return_ pos :: ts ++ [mark .semicolon p])
  | assignItem {pos : Position} {name : String} {index value : Expr} {ts us : List Located}
    (p q r u : Position) :
    index.Renders ts → value.Renders us →
    (Stmt.assignItem pos name index value).Renders
      (identifier name pos :: mark .lbracket p :: ts ++ mark .rbracket q :: mark .assign r :: us ++
        [mark .semicolon u])
  | declare {pos : Position} {ty : Ty} {name : String} {value : Expr} {ts : List Located}
    (p q r : Position) :
    value.Renders ts →
    (Stmt.assign pos (some ty) name value).Renders
      (word (.type ty) pos :: identifier name p :: mark .assign q :: ts ++ [mark .semicolon r])
  | assign {pos : Position} {name : String} {value : Expr} {ts : List Located} (p q : Position) :
    value.Renders ts →
    (Stmt.assign pos none name value).Renders
      (identifier name pos :: mark .assign p :: ts ++ [mark .semicolon q])
  | call {pos : Position} {name : String} {args : List Expr} {ts : List Located} (p : Position) :
    (Expr.call pos pos name args).Renders ts →
    (Stmt.call pos pos name args).Renders (ts ++ [mark .semicolon p])
  | expr {value : Expr} {first : Located} {ts : List Located} (p : Position) :
    value.Renders (first :: ts) →
    (Stmt.expr first.pos value).Renders (first :: ts ++ [mark .semicolon p])

theorem Stmt.Renders.ne_nil {s : Stmt} {ts : List Located} (h : s.Renders ts) : ts ≠ [] := by
  cases h <;> simp

/-- Statements that end with a semicolon. -/
def Stmt.IsSimple : Stmt → Prop
  | .cond .. | .loop .. | .count .. | .range .. => False
  | _ => True

def Expr.IsCall : Expr → Prop
  | .call .. => True
  | _ => False

/-- The head of a counting loop has simple statements, and a call on its own is a call statement. -/
inductive Stmt.Canonical : Stmt → Prop
  | cond {pos : Position} {test : Expr} {body : List Stmt} :
    test.Canonical → (∀ s ∈ body, s.Canonical) → (Stmt.cond pos test body).Canonical
  | loop {pos : Position} {test : Expr} {body : List Stmt} :
    test.Canonical → (∀ s ∈ body, s.Canonical) → (Stmt.loop pos test body).Canonical
  | count {pos : Position} {init step : Stmt} {test : Expr} {body : List Stmt} :
    init.IsSimple → step.IsSimple → init.Canonical → test.Canonical → step.Canonical →
    (∀ s ∈ body, s.Canonical) → (Stmt.count pos init test step body).Canonical
  | range {pos : Position} {first last : Expr} {name : String} {body : List Stmt} :
    first.Canonical → last.Canonical → (∀ s ∈ body, s.Canonical) →
    (Stmt.range pos first last name body).Canonical
  | ret (pos : Position) : (Stmt.ret pos none).Canonical
  | retValue {pos : Position} {value : Expr} :
    value.Canonical → (Stmt.ret pos (some value)).Canonical
  | assignItem {pos : Position} {name : String} {index value : Expr} :
    index.Canonical → value.Canonical → (Stmt.assignItem pos name index value).Canonical
  | assign {pos : Position} {ty : Option Ty} {name : String} {value : Expr} :
    value.Canonical → (Stmt.assign pos ty name value).Canonical
  | call {pos site : Position} {name : String} {args : List Expr} :
    (∀ e ∈ args, e.Canonical) → (Stmt.call pos site name args).Canonical
  | expr {pos : Position} {value : Expr} :
    value.Canonical → ¬value.IsCall → (Stmt.expr pos value).Canonical

/-- The statements of a block and its tokens. -/
def BlockStands (body : List Stmt) (ts : List Located) : Prop :=
  (∀ st ∈ body, st.Canonical) ∧ ∃ p q us, InSequence Stmt.Renders body us ∧ ts = braced p q us

/-! ## Functions -/

/-- A parameter is at its type. -/
inductive Parameter.Renders : Parameter → List Located → Prop
  | intro (pos p : Position) (ty : Ty) (name : String) :
    Parameter.Renders ⟨pos, ty, name⟩ [word (.type ty) pos, identifier name p]

/-- The tokens of a return type, if there is one. -/
inductive ReturnRenders : Option Ty → List Located → Prop
  | none : ReturnRenders none []
  | some (ty : Ty) (pos : Position) : ReturnRenders (some ty) [word (.type ty) pos]

/-- The tokens of a function, which is at its keyword. -/
inductive Function.Renders : Function → List Located → Prop
  | intro {pos : Position} {name : String} {params : List Parameter} {returns : Option Ty}
    {body : List Stmt} {ts us vs : List Located} (p q r u : Position) :
    Listed Parameter.Renders .rparen params ts → ReturnRenders returns us →
    InSequence Stmt.Renders body vs →
    Function.Renders ⟨pos, name, params, returns, body⟩
      (word .function pos :: identifier name p :: mark .lparen q :: ts ++ us ++ braced r u vs)

theorem Function.Renders.ne_nil {f : Function} {ts : List Located} (h : f.Renders ts) :
    ts ≠ [] := by
  cases h
  simp

def Function.Canonical (f : Function) : Prop := ∀ s ∈ f.body, s.Canonical

/-- The functions of a program and its tokens. -/
def ProgramStands (fs : List Function) (ts : List Located) : Prop :=
  (∀ f ∈ fs, f.Canonical) ∧ InSequence Function.Renders fs ts

end StackScript
