import StackScript.Proofs.Grammar.Soundness

/-!
# What the grammar says is what is read

A canonical tree is read off the front of its tokens, as long as what follows them does not go on
with it. Together with soundness, `parses_exactly`: the parser reads the canonical tree of its
tokens, and no other.
-/

namespace StackScript

/-! ## What follows -/

/-- Whether a token can stand behind an expression whose operators bind at least this tight. -/
def Token.ends (k : Nat) : Token → Bool
  | .operator op => op.tightness < k
  | .punctuation .lparen | .punctuation .lbracket => false
  | _ => true

/-- Whether these tokens can stand behind an expression whose operators bind at least this tight. -/
def Ends (k : Nat) : List Located → Prop
  | [] => True
  | first :: _ => first.token.ends k = true

theorem Ends.succ {k : Nat} {rest : List Located} (h : Ends k rest) : Ends (k + 1) rest := by
  obtain _ | ⟨⟨token, p⟩, rest⟩ := rest
  · trivial
  cases token with
  | operator op =>
    have loose : op.tightness < k := by simpa [Ends, Token.ends] using h
    simpa [Ends, Token.ends] using Nat.lt_succ_of_lt loose
  | punctuation m => cases m <;> exact h
  | _ => exact h

theorem Ends.not_begins {k : Nat} {m : Punctuation} {rest : List Located} (h : Ends k rest)
    (opening : m = .lparen ∨ m = .lbracket) : ¬BeginsWith (.punctuation m) rest := by
  obtain _ | ⟨⟨token, p⟩, rest⟩ := rest
  · intro begins
    cases begins
  · intro begins
    cases begins
    obtain rfl | rfl := opening <;> cases h

/-- An expression of one level is one of the next level or a node of this level. -/
theorem Expr.Stands.split {k : Nat} {e : Expr} {ts : List Located} (small : k < 3)
    (h : e.Stands k ts) :
    e.Stands (k + 1) ts ∨
      ∃ p op lhs rhs us vs, e = .binary p op lhs rhs ∧ ts = us ++ ⟨.operator op, p⟩ :: vs ∧
        op.tightness = k ∧ lhs.Stands k us ∧ rhs.Stands (k + 1) vs := by
  obtain ⟨tight, good, renders⟩ := h
  by_cases tighter : k + 1 ≤ e.tightness
  · exact .inl ⟨tighter, good, renders⟩
  cases e with
  | binary p op lhs rhs =>
    have same : op.tightness = k := Nat.le_antisymm (Nat.not_lt.1 tighter) tight
    cases good with | binary left right goodLhs goodRhs =>
    cases renders with | binary renderLhs renderRhs =>
    rw [same] at left right
    exact .inr ⟨p, op, lhs, rhs, _, _, rfl, rfl, same, ⟨left, goodLhs, renderLhs⟩,
      right, goodRhs, renderRhs⟩
  | _ => exact (tighter small).elim

/-- Whether an expression can begin with this token. -/
def Token.starts : Token → Bool
  | .int _ | .float _ | .string _ | .name _ => true
  | .keyword .true_ | .keyword .false_ => true
  | .punctuation .lparen | .punctuation .lbracket => true
  | _ => false

theorem Expr.Canonical.starts {e : Expr} {ts : List Located} (good : e.Canonical)
    (h : e.Renders ts) : ∃ first us, ts = first :: us ∧ first.token.starts = true := by
  induction good generalizing ts with
  | binary _ _ _ _ ihLhs _ =>
    cases h with | binary hlhs hrhs =>
    obtain ⟨first, us, rfl, starts⟩ := ihLhs hlhs
    exact ⟨first, _, rfl, starts⟩
  | literal pos value =>
    cases h
    refine ⟨_, [], rfl, ?_⟩
    cases value with
    | bool b => cases b <;> rfl
    | _ => rfl
  | var =>
    cases h
    exact ⟨_, _, rfl, rfl⟩
  | call =>
    cases h
    exact ⟨_, _, rfl, rfl⟩
  | index =>
    cases h
    exact ⟨_, _, rfl, rfl⟩
  | array =>
    cases h
    exact ⟨_, _, rfl, rfl⟩
  | paren =>
    cases h
    exact ⟨_, _, rfl, rfl⟩

/-- An expression does not begin with a token that starts none. -/
theorem Expr.Canonical.not_begins {e : Expr} {ts : List Located} (good : e.Canonical)
    (h : e.Renders ts) {token : Token} (other : token.starts = false) (rest : List Located) :
    ¬BeginsWith token (ts ++ rest) := by
  obtain ⟨first, us, rfl, starts⟩ := good.starts h
  intro begins
  cases begins
  rw [other] at starts
  cases starts

/-- Whether a statement that ends with a semicolon can begin with this token. -/
def Token.startsSimple : Token → Bool
  | .keyword .return_ | .keyword (.type _) => true
  | token => token.starts

theorem Token.startsSimple_of_starts {token : Token} (h : token.starts = true) :
    token.startsSimple = true := by
  cases token with
  | keyword k => cases k <;> first | rfl | exact h
  | _ => exact h

theorem Stmt.Canonical.starts {st : Stmt} {ts : List Located} (good : st.Canonical)
    (h : st.Renders ts) :
    ∃ first us, ts = first :: us ∧ first.token ≠ .punctuation .rbrace ∧
      (st.IsSimple → first.token.startsSimple = true) := by
  have value {e : Expr} {us vs : List Located} {P : Prop} (good : e.Canonical)
      (h : e.Renders us) :
      ∃ first ws, us ++ vs = first :: ws ∧ first.token ≠ .punctuation .rbrace ∧
        (P → first.token.startsSimple = true) := by
    obtain ⟨first, us, rfl, starts⟩ := good.starts h
    refine ⟨first, us ++ vs, rfl, ?_, fun _ => Token.startsSimple_of_starts starts⟩
    intro brace
    rw [brace] at starts
    cases starts
  cases h with
  | cond | loop | count | countInParens | range => exact ⟨_, _, rfl, nofun, nofun⟩
  | ret | retValue | assignItem | declare | assign => exact ⟨_, _, rfl, nofun, fun _ => rfl⟩
  | call p h =>
    cases good with | call all =>
    exact value (.call all) h
  | expr p h =>
    cases good with | expr goodValue _ =>
    exact value goodValue h

namespace Parser

variable {α : Type}

/-- A reading takes its pieces off the front of so many tokens, if what follows them allows. -/
def Takes (p : Parser α) (bound : Nat) (follow : List Located → Prop)
    (R : α → List Located → Prop) : Prop :=
  ∀ ⦃a : α⦄ ⦃ts rest : List Located⦄, R a ts → follow rest → (ts ++ rest).length ≤ bound →
    p.Gives (ts ++ rest) a rest

/-! ## Lists -/

section Lists

variable {item : Parser α} {R : α → List Located → Prop} {follow : List Located → Prop}
  {close : Punctuation} {bound n : Nat} (hitem : item.Takes bound follow R)
  (comma : ∀ p ts, follow (mark .comma p :: ts)) (closes : ∀ p ts, follow (mark close p :: ts))
  (differs : close ≠ .comma)

include hitem comma closes differs

theorem separated_takes {xs : List α} {ts rest : List Located} {p : Position}
    (h : Separated R xs ts) (short : (ts ++ mark close p :: rest).length ≤ bound)
    (enough : (ts ++ mark close p :: rest).length ≤ n) :
    (separated item close n).Gives (ts ++ mark close p :: rest) xs rest := by
  -- the closing mark is always unread
  obtain ⟨n, rfl⟩ : ∃ m, n = m + 1 := Nat.exists_eq_succ_of_ne_zero (by simp at enough; omega)
  induction h generalizing n with
  | last hx =>
    have other : ¬BeginsWith (.punctuation .comma) (mark close p :: rest) := by
      simpa using differs
    exact (hitem hx (closes p rest) short).bind
      (.ite_eat_false other ((punctuation_gives close p rest).bind (.pure _ rest)))
  | cons q hx hxs ih =>
    rename_i ts us
    have eq : ts ++ mark .comma q :: us ++ mark close p :: rest =
        ts ++ mark .comma q :: (us ++ mark close p :: rest) := by simp
    rw [eq] at short enough ⊢
    simp only [List.length_append, List.length_cons] at enough
    obtain ⟨n, rfl⟩ : ∃ m, n = m + 1 := Nat.exists_eq_succ_of_ne_zero (by omega)
    have more := ih (by simp at short ⊢; omega) n (by simp; omega)
    exact (hitem hx (comma q _) short).bind (.ite_eat_true q (more.bind (.pure _ rest)))

theorem list_takes
    (starts : ∀ {x ts}, R x ts → ∀ rest, ¬BeginsWith (.punctuation close) (ts ++ rest))
    (enough : bound ≤ n) : (list n item close).Takes bound (fun _ => True) (Listed R close) := by
  intro xs us rest h _ short
  cases h with
  | nil p => exact .ite_eat_true p (.pure [] rest)
  | some p h =>
    rename_i ts
    have eq : ts ++ [mark close p] ++ rest = ts ++ mark close p :: rest := by simp
    rw [eq] at short ⊢
    have other : ¬BeginsWith (.punctuation close) (ts ++ mark close p :: rest) := by
      cases h with
      | last hx => exact starts hx _
      | cons q hx _ =>
        rw [List.append_assoc]
        exact starts hx _
    exact .ite_eat_false other
      (separated_takes hitem comma closes differs h short (Nat.le_trans short enough))

end Lists

/-! ## Expressions -/

section Levels

variable {level : Operator → Bool} {operand : Parser Expr} {k bound : Nat}

theorem operands_stop (hlevel : ∀ op, level op = true ↔ op.tightness = k) {rest : List Located}
    (ends : Ends k rest) (n : Nat) (e : Expr) :
    (operands level operand n e).Gives rest e rest := by
  cases n with
  | zero => exact .pure e rest
  | succ n =>
    apply (peek_gives rest).bind
    obtain _ | ⟨⟨token, p⟩, rest⟩ := rest
    · exact .pure e []
    cases token with
    | operator op =>
      have loose : op.tightness < k := by simpa [Ends, Token.ends] using ends
      have other : ¬level op = true := by
        intro same
        have := (hlevel op).1 same
        omega
      simp only [List.head?_cons, Option.map_some, other, Bool.false_eq_true, if_false]
      exact .pure e _
    | _ => exact .pure e _

/-- One operator and its right operand more. -/
theorem operands_step (hlevel : ∀ op, level op = true ↔ op.tightness = k) {n : Nat}
    {lhs rhs e : Expr} {op : Operator} {p : Position} {ts us rest : List Located}
    (tight : op.tightness = k) (hrhs : operand.Gives ts rhs us)
    (next : (operands level operand n (.binary p op lhs rhs)).Gives us e rest) :
    (operands level operand (n + 1) lhs).Gives (⟨.operator op, p⟩ :: ts) e rest := by
  apply (peek_gives _).bind
  simp only [List.head?_cons, Option.map_some, (hlevel op).2 tight, if_true]
  exact (pos_gives _ ts).bind ((advance_gives _ ts).discard.bind (hrhs.bind next))

variable (hlevel : ∀ op, level op = true ↔ op.tightness = k) (small : k < 3)
  (hoperand : operand.Takes bound (Ends (k + 1)) (Expr.Stands (k + 1))) {n : Nat}

include hlevel small hoperand

/-- Operators of one level nest to the left. What is made of an expression behind its tokens is made
of it in front of them: the operand furthest to the left is read first, and the nodes are built
around it. -/
theorem leftAssoc_gives {e e' : Expr} {ts rest rest' : List Located} (he : e.Stands k ts)
    (ends : Ends (k + 1) rest) (short : (ts ++ rest).length ≤ bound)
    (enough : (ts ++ rest).length ≤ n + 1)
    (next : ∀ m, rest.length ≤ m → (operands level operand m e).Gives rest e' rest') :
    (leftAssoc n level operand).Gives (ts ++ rest) e' rest' := by
  induction size : ts.length using Nat.strongRecOn generalizing e ts rest with
  | ind size ih =>
    obtain he | ⟨p, op, lhs, rhs, us, vs, rfl, rfl, same, hlhs, hrhs⟩ := he.split small
    · have read : 0 < ts.length := List.length_pos_iff.2 he.2.2.ne_nil
      have unread : rest.length ≤ n := by
        rw [List.length_append] at enough
        omega
      exact (hoperand he ends short).bind (next n unread)
    · have eq : us ++ ⟨.operator op, p⟩ :: vs ++ rest =
          us ++ ⟨.operator op, p⟩ :: (vs ++ rest) := by simp
      rw [eq] at short enough ⊢
      have behind : Ends (k + 1) (⟨.operator op, p⟩ :: (vs ++ rest)) := by
        simp [Ends, Token.ends, same]
      have rhsGives := hoperand hrhs ends (by simp at short ⊢; omega)
      refine ih us.length (by simp at size; omega) hlhs behind short enough ?_ rfl
      intro m unread
      rw [List.length_cons, List.length_append] at unread
      obtain ⟨m, rfl⟩ : ∃ i, m = i + 1 := Nat.exists_eq_succ_of_ne_zero (by omega)
      exact operands_step hlevel same rhsGives (next m (by omega))

theorem leftAssoc_takes (enough : bound ≤ n + 1) :
    (leftAssoc n level operand).Takes bound (Ends k) (Expr.Stands k) := by
  intro e ts rest he ends short
  refine leftAssoc_gives hlevel small hoperand he ends.succ short (Nat.le_trans short enough) ?_
  intro m _
  exact operands_stop hlevel ends m e

end Levels

section Operands

variable {expr : Parser Expr} {bound n : Nat} (hexpr : expr.Takes bound (Ends 0) (Expr.Stands 0))
  (enough : bound ≤ n)

include hexpr enough

theorem list_expr_takes {close : Punctuation} (closing : close = .rparen ∨ close = .rbracket) :
    (list n expr close).Takes bound (fun _ => True) fun es ts =>
      (∀ e ∈ es, e.Canonical) ∧ Listed Expr.Renders close es ts := by
  have hexpr : expr.Takes bound (Ends 0) fun e ts => e.Canonical ∧ e.Renders ts := by
    intro e ts rest he
    exact hexpr ⟨Nat.zero_le _, he⟩
  have starts : (Token.punctuation close).starts = false := by
    obtain rfl | rfl := closing <;> rfl
  intro es ts rest h
  refine list_takes hexpr (fun _ _ => rfl) ?_ ?_ ?_ enough (Listed.and_iff.2 h)
  · intro p ts
    obtain rfl | rfl := closing <;> rfl
  · obtain rfl | rfl := closing <;> decide
  · intro e ts he rest
    exact he.1.not_begins he.2 starts rest

theorem factor_takes : (factor n expr).Takes (bound + 1) (Ends 3) (Expr.Stands 3) := by
  rintro e us rest ⟨tight, good, renders⟩ ends short
  cases renders with
  | @binary _ op =>
    cases op <;> simp [Expr.tightness, Operator.tightness] at tight
  | literal p value =>
    apply (advance_gives _ rest).bind
    cases value with
    | bool b => cases b <;> exact .pure _ rest
    | _ => exact .pure _ rest
  | var p x =>
    apply (advance_gives _ rest).bind
    exact .ite_eat_false (ends.not_begins (.inl rfl))
      (.ite_eat_false (ends.not_begins (.inr rfl)) (.pure _ rest))
  | @call _ _ _ ts q hargs =>
    cases good with | call goodArgs =>
    apply (advance_gives _ _).bind
    have list := list_expr_takes hexpr enough (.inl rfl) ⟨goodArgs, hargs⟩ trivial
      (by simp at short ⊢; omega : (ts ++ rest).length ≤ bound)
    exact .ite_eat_true q (list.bind (.pure _ rest))
  | @index p x index ts q r renders =>
    cases good with | index goodIndex =>
    have eq : identifier x p :: mark .lbracket q :: ts ++ [mark .rbracket r] ++ rest =
        identifier x p :: mark .lbracket q :: (ts ++ mark .rbracket r :: rest) := by simp
    rw [eq] at short ⊢
    apply (advance_gives _ _).bind
    have inner : expr.Gives (ts ++ mark .rbracket r :: rest) index (mark .rbracket r :: rest) :=
      hexpr ⟨Nat.zero_le _, goodIndex, renders⟩ rfl (by simp at short ⊢; omega)
    refine .ite_eat_false ?_ (.ite_eat_true q (inner.bind
      ((punctuation_gives .rbracket r rest).bind (.pure _ rest))))
    simp
  | @array _ _ ts hitems =>
    cases good with | array goodItems =>
    apply (advance_gives _ _).bind
    have list := list_expr_takes hexpr enough (.inr rfl) ⟨goodItems, hitems⟩ trivial
      (by simp at short ⊢; omega : (ts ++ rest).length ≤ bound)
    exact list.bind (.pure _ rest)
  | @paren p inner ts q renders =>
    cases good with | paren goodInner =>
    have eq : mark .lparen p :: ts ++ [mark .rparen q] ++ rest =
        mark .lparen p :: (ts ++ mark .rparen q :: rest) := by simp
    rw [eq] at short ⊢
    apply (advance_gives _ _).bind
    have inner : expr.Gives (ts ++ mark .rparen q :: rest) inner (mark .rparen q :: rest) :=
      hexpr ⟨Nat.zero_le _, goodInner, renders⟩ rfl (by simp at short ⊢; omega)
    exact inner.bind ((punctuation_gives .rparen q rest).bind (.pure _ rest))

end Operands

theorem expressionWithin_takes (bound : Nat) :
    (expressionWithin bound).Takes bound (Ends 0) (Expr.Stands 0) := by
  induction bound with
  | zero =>
    intro e ts rest he _ short
    have some : 0 < ts.length := List.length_pos_iff.2 he.2.2.ne_nil
    rw [List.length_append] at short
    omega
  | succ bound ih =>
    have factors := factor_takes ih (Nat.le_refl bound)
    have products := leftAssoc_takes Operator.isProduct_iff (by decide) factors (Nat.le_refl _)
    have sums := leftAssoc_takes Operator.isSum_iff (by decide) products (Nat.le_refl _)
    exact leftAssoc_takes Operator.isComparison_iff (by decide) sums (Nat.le_refl _)

theorem expression_gives {e : Expr} {ts : List Located} (good : e.Canonical)
    (renders : e.Renders ts) (rest : List Located) (ends : Ends 0 rest) :
    expression.Gives (ts ++ rest) e rest :=
  (remaining_gives _).bind
    (expressionWithin_takes _ ⟨Nat.zero_le _, good, renders⟩ ends (Nat.le_refl _))

/-! ## Statements -/

/-- A statement that begins with an expression. -/
theorem simple_target {e : Expr} {st : Stmt} {first : Located} {ts rest rest' : List Located}
    (good : e.Canonical) (renders : e.Renders (first :: ts)) (ends : Ends 0 rest)
    (next : (do
      if ← eat (.punctuation .assign) then
        let value ← expression
        let st ← assignment first.pos e value
        punctuation .semicolon
        return st
      else
        punctuation .semicolon
        return alone first.pos e : Parser Stmt).Gives rest st rest') :
    simple.Gives (first :: ts ++ rest) st rest' := by
  refine (pos_gives first _).bind (.ite_eat_false (good.not_begins renders rfl rest) ?_)
  refine (type?_gives_none ?_).bind ((expression_gives good renders rest ends).bind next)
  intro ty
  exact good.not_begins renders rfl rest

theorem simple_assignment {target value : Expr} {st : Stmt} {first : Located}
    {ts us : List Located} (goodTarget : target.Canonical)
    (renderTarget : target.Renders (first :: ts)) (goodValue : value.Canonical)
    (renderValue : value.Renders us) (made : assignment first.pos target value = pure st)
    (p q : Position) (rest : List Located) :
    simple.Gives (first :: ts ++ mark .assign p :: us ++ mark .semicolon q :: rest) st rest := by
  rw [List.append_assoc]
  have hvalue := expression_gives goodValue renderValue (mark .semicolon q :: rest) rfl
  refine simple_target goodTarget renderTarget rfl (.ite_eat_true p (hvalue.bind ?_))
  rw [made]
  exact (Gives.pure st _).bind ((punctuation_gives .semicolon q rest).bind (.pure st rest))

theorem simple_alone {e : Expr} {first : Located} {ts : List Located} (good : e.Canonical)
    (renders : e.Renders (first :: ts)) (p : Position) (rest : List Located) :
    simple.Gives (first :: ts ++ mark .semicolon p :: rest) (alone first.pos e) rest := by
  have other : ¬BeginsWith (.punctuation .assign) (mark .semicolon p :: rest) := by
    simp
  exact simple_target good renders rfl
    (.ite_eat_false other ((punctuation_gives .semicolon p rest).bind (.pure _ rest)))

theorem alone_eq_expr {e : Expr} (h : ¬e.IsCall) (p : Position) : alone p e = .expr p e := by
  cases e with
  | call => exact (h trivial).elim
  | _ => rfl

theorem simple_gives {st : Stmt} {ts : List Located} (good : st.Canonical) (short : st.IsSimple)
    (h : st.Renders ts) (rest : List Located) : simple.Gives (ts ++ rest) st rest := by
  cases h with
  | cond | loop | count | countInParens | range => exact short.elim
  | ret p q => exact (pos_gives _ _).bind (.ite_eat_true p (.ite_eat_true q (.pure _ rest)))
  | @retValue p value us q h =>
    cases good with | retValue goodValue =>
    have hvalue := expression_gives goodValue h (mark .semicolon q :: rest) rfl
    simp only [List.cons_append, List.append_assoc, List.nil_append]
    refine (pos_gives _ _).bind (.ite_eat_true p (.ite_eat_false ?_ (hvalue.bind ?_)))
    · exact goodValue.not_begins h rfl _
    · exact (punctuation_gives .semicolon q rest).bind (.pure _ rest)
  | @assignItem p x index value us vs q r u v hindex hvalue =>
    cases good with | assignItem goodIndex goodValue =>
    have target : (Expr.index p x index).Renders
      (identifier x p :: mark .lbracket q :: us ++ [mark .rbracket r]) := .index q r hindex
    have := simple_assignment (.index goodIndex) target goodValue hvalue rfl u v rest
    simpa using this
  | @declare p ty x value us q r u h =>
    cases good with | assign goodValue =>
    have hvalue := expression_gives goodValue h (mark .semicolon u :: rest) rfl
    simp only [List.cons_append, List.append_assoc, List.nil_append]
    refine (pos_gives _ _).bind (.ite_eat_false (by simp) ?_)
    refine (type?_gives_some ty p _).bind ((name_gives x q _).bind ?_)
    refine (punctuation_gives .assign r _).bind (hvalue.bind ?_)
    exact (punctuation_gives .semicolon u rest).bind (.pure _ rest)
  | @assign p x value us q r h =>
    cases good with | assign goodValue =>
    have := simple_assignment (.var p x) (.var p x) goodValue h rfl q r rest
    simpa using this
  | @call p x args us q h =>
    cases good with | call all =>
    rw [List.append_assoc]
    cases h with | call r hargs =>
    exact simple_alone (.call all) (.call r hargs) q rest
  | @expr value first us q h =>
    cases good with | expr goodValue other =>
    rw [← alone_eq_expr other, List.append_assoc]
    exact simple_alone goodValue h q rest

section Blocks

variable {block : Parser (List Stmt)} {bound : Nat}
  (hblock : block.Takes bound (fun _ => True) BlockStands)

include hblock

/-- A test with a block behind it, in statements that are made of the two. -/
theorem tested_gives (made : Expr → List Stmt → Stmt) {q r : Position}
    {test : Expr} {body : List Stmt} {ts us rest : List Located} (goodTest : test.Canonical)
    (htest : test.Renders ts) (goodBody : ∀ st ∈ body, st.Canonical)
    (hbody : InSequence Stmt.Renders body us) (short : (braced q r us ++ rest).length ≤ bound) :
    (do
      let test ← expression
      return made test (← block) : Parser Stmt).Gives (ts ++ (braced q r us ++ rest))
      (made test body) rest := by
  have test := expression_gives goodTest htest (braced q r us ++ rest) rfl
  have body := hblock ⟨goodBody, q, r, us, hbody, rfl⟩ trivial short
  exact test.bind (body.bind (.pure _ rest))

/-- The pieces of a counting loop, with and without parentheses. -/
theorem counting_gives {p r x : Position} (q : Position) {init step : Stmt} {test : Expr}
    {body : List Stmt} {ts us vs ws rest : List Located}
    (good : (Stmt.count p init test step body).Canonical)
    (hinit : init.Renders ts) (htest : test.Renders us) (hstep : step.Renders vs)
    (hbody : InSequence Stmt.Renders body ws) (short : (braced r x ws ++ rest).length ≤ bound) :
    (∀ u v, (counting p block).Gives
      (mark .lparen u :: (ts ++ (us ++ mark .semicolon q ::
        (vs ++ mark .rparen v :: (braced r x ws ++ rest)))))
      (.count p init test step body) rest) ∧
    (¬BeginsWith (.punctuation .lparen) ts → (counting p block).Gives
      (ts ++ (us ++ mark .semicolon q :: (vs ++ (braced r x ws ++ rest))))
      (.count p init test step body) rest) := by
  cases good with | count simpleInit simpleStep goodInit goodTest goodStep goodBody =>
  have init := simple_gives goodInit simpleInit hinit
  have test (vs : List Located) := expression_gives goodTest htest (mark .semicolon q :: vs) rfl
  have step := simple_gives goodStep simpleStep hstep
  have body := hblock ⟨goodBody, r, x, ws, hbody, rfl⟩ trivial short
  constructor
  · intro u v
    refine (eat_gives_true _ u _).bind ((init _).bind ((test _).bind ?_))
    refine (punctuation_gives _ q _).bind ((step _).bind ((punctuation_gives _ v _).bind ?_))
    exact body.bind (.pure _ rest)
  · intro bare
    have other (us : List Located) : ¬BeginsWith (.punctuation .lparen) (ts ++ us) := by
      obtain ⟨first, ts, rfl⟩ := List.exists_cons_of_ne_nil hinit.ne_nil
      exact bare
    refine (eat_gives_false (other _)).bind ((init _).bind ((test _).bind ?_))
    exact (punctuation_gives _ q _).bind ((step _).bind (body.bind (.pure _ rest)))

theorem ranging_gives {p v w : Position} (q r u : Position) {first last : Expr} {x : String}
    {body : List Stmt} {ts us vs rest : List Located}
    (good : (Stmt.range p first last x body).Canonical) (hfirst : first.Renders ts)
    (hlast : last.Renders us) (hbody : InSequence Stmt.Renders body vs)
    (short : (braced v w vs ++ rest).length ≤ bound) :
    (ranging p block).Gives
      (ts ++ word .to_ q :: (us ++ word .as_ r :: identifier x u :: (braced v w vs ++ rest)))
      (.range p first last x body) rest := by
  cases good with | range goodFirst goodLast goodBody =>
  have first (us : List Located) := expression_gives goodFirst hfirst (word .to_ q :: us) rfl
  have last (us : List Located) := expression_gives goodLast hlast (word .as_ r :: us) rfl
  have body := hblock ⟨goodBody, v, w, vs, hbody, rfl⟩ trivial short
  refine (first _).bind ((keyword_gives _ q _).discard.bind ?_)
  refine (last _).bind ((keyword_gives _ r _).discard.bind ?_)
  exact (name_gives x u _).bind (body.bind (.pure _ rest))

theorem statement_takes :
    (statement block).Takes bound (fun _ => True) fun st ts => st.Canonical ∧ st.Renders ts := by
  rintro st ts rest ⟨good, renders⟩ _ short
  have simple (simple : st.IsSimple) : (statement block).Gives (ts ++ rest) st rest := by
    obtain ⟨first, us, rfl, _, starts⟩ := good.starts renders
    have other {k : Keyword} (no : (Token.keyword k).startsSimple = false) :
        ¬BeginsWith (.keyword k) (first :: us ++ rest) := by
      intro begins
      rw [beginsWith_cons.1 begins, no] at starts
      exact Bool.noConfusion (starts simple)
    exact (pos_gives _ _).bind (.ite_eat_false (other rfl) (.ite_eat_false (other rfl)
      (.ite_eat_false (other rfl) (.ite_eat_false (other rfl)
        (simple_gives good simple renders rest)))))
  have other {k k' : Keyword} {p : Position} {us : List Located} (h : k ≠ k') :
      ¬BeginsWith (.keyword k') (word k p :: us) := by
    simpa using h
  cases renders with
  | @cond p test body ts us q r htest hbody =>
    cases good with | cond goodTest goodBody =>
    simp only [List.cons_append, List.append_assoc, List.length_cons, List.length_append]
      at short ⊢
    have pieces := tested_gives hblock (Stmt.cond p) goodTest htest goodBody hbody
      (by rw [List.length_append]; omega : (braced q r us ++ rest).length ≤ bound)
    exact (pos_gives _ _).bind (.ite_eat_true p pieces)
  | @loop p test body ts us q r htest hbody =>
    cases good with | loop goodTest goodBody =>
    simp only [List.cons_append, List.append_assoc, List.length_cons, List.length_append]
      at short ⊢
    have pieces := tested_gives hblock (Stmt.loop p) goodTest htest goodBody hbody
      (by rw [List.length_append]; omega : (braced q r us ++ rest).length ≤ bound)
    exact (pos_gives _ _).bind (.ite_eat_false (other nofun) (.ite_eat_true p pieces))
  | @count p init step test body ts us vs ws q r u hinit bare htest hstep hbody =>
    simp only [List.cons_append, List.append_assoc, List.length_cons, List.length_append]
      at short ⊢
    have head := (counting_gives hblock q good hinit htest hstep hbody
      (by rw [List.length_append]; omega : (braced r u ws ++ rest).length ≤ bound)).2 bare
    exact (pos_gives _ _).bind (.ite_eat_false (other nofun) (.ite_eat_false (other nofun)
      (.ite_eat_true p head)))
  | @countInParens p init step test body ts us vs ws q r u v w hinit htest hstep hbody =>
    simp only [List.cons_append, List.append_assoc, List.length_cons, List.length_append]
      at short ⊢
    have head := (counting_gives hblock q good hinit htest hstep hbody
      (by rw [List.length_append]; omega : (braced r u ws ++ rest).length ≤ bound)).1 v w
    exact (pos_gives _ _).bind (.ite_eat_false (other nofun) (.ite_eat_false (other nofun)
      (.ite_eat_true p head)))
  | @range p first last x body ts us vs q r u v w hfirst hlast hbody =>
    simp only [List.cons_append, List.append_assoc, List.length_cons, List.length_append]
      at short ⊢
    have head := ranging_gives hblock q r u good hfirst hlast hbody
      (by rw [List.length_append]; omega : (braced v w vs ++ rest).length ≤ bound)
    exact (pos_gives _ _).bind (.ite_eat_false (other nofun) (.ite_eat_false (other nofun)
      (.ite_eat_false (other nofun) (.ite_eat_true p head))))
  | _ => exact simple trivial

end Blocks

theorem statements_gives {stmt : Parser Stmt} {bound n : Nat}
    (hstmt : stmt.Takes bound (fun _ => True) fun st ts => st.Canonical ∧ st.Renders ts)
    {body : List Stmt} {ts rest : List Located} {p : Position}
    (h : InSequence (fun st ts => st.Canonical ∧ st.Renders ts) body ts)
    (short : (ts ++ mark .rbrace p :: rest).length ≤ bound)
    (enough : (ts ++ mark .rbrace p :: rest).length ≤ n) :
    (statements stmt n).Gives (ts ++ mark .rbrace p :: rest) body rest := by
  -- the closing brace is always unread
  obtain ⟨n, rfl⟩ : ∃ m, n = m + 1 := Nat.exists_eq_succ_of_ne_zero (by simp at enough; omega)
  induction h generalizing n with
  | nil => exact .ite_eat_true p (.pure [] rest)
  | @cons st body ts us hst _ ih =>
    obtain ⟨first, ts, rfl, other, _⟩ := hst.1.starts hst.2
    rw [List.append_assoc] at short enough ⊢
    simp only [List.cons_append, List.length_cons, List.length_append] at short enough
    obtain ⟨n, rfl⟩ : ∃ m, n = m + 1 := Nat.exists_eq_succ_of_ne_zero (by omega)
    have one := hstmt hst trivial
      (by simp; omega : (first :: ts ++ (us ++ mark .rbrace p :: rest)).length ≤ bound)
    have more := ih (by simp; omega) n (by simp; omega)
    refine .ite_eat_false (by simpa using other) ((peek_gives _).bind ?_)
    exact one.bind (more.bind (.pure _ rest))

theorem blockWithin_takes (bound : Nat) :
    (blockWithin bound).Takes bound (fun _ => True) BlockStands := by
  induction bound with
  | zero =>
    rintro body _ rest ⟨_, p, q, ts, _, rfl⟩ _ short
    simp [braced] at short
  | succ bound ih =>
    rintro body _ rest ⟨good, p, q, ts, renders, rfl⟩ _ short
    simp only [braced, List.cons_append, List.append_assoc, List.length_cons, List.nil_append]
      at short ⊢
    have short := Nat.le_of_succ_le_succ short
    exact (punctuation_gives .lbrace p _).bind
      (statements_gives (statement_takes ih) (InSequence.and_iff.2 ⟨good, renders⟩) short short)

theorem block_gives {body : List Stmt} {ts : List Located} (h : BlockStands body ts)
    (rest : List Located) : block.Gives (ts ++ rest) body rest :=
  (remaining_gives _).bind (blockWithin_takes _ h trivial (Nat.le_refl _))

/-! ## Functions -/

theorem parameter_takes (bound : Nat) :
    parameter.Takes bound (fun _ => True) Parameter.Renders := by
  rintro _ _ rest ⟨p, q, ty, x⟩ _ _
  exact (pos_gives _ _).bind ((type_gives ty p _).bind ((name_gives x q rest).bind (.pure _ rest)))

theorem type?_gives {returns : Option Ty} {ts rest : List Located} (h : ReturnRenders returns ts)
    (other : ∀ ty, ¬BeginsWith (.keyword (.type ty)) rest) :
    type?.Gives (ts ++ rest) returns rest := by
  cases h with
  | none => exact type?_gives_none other
  | some ty p => exact type?_gives_some ty p rest

theorem parameters_gives {params : List Parameter} {ts : List Located}
    (h : Listed Parameter.Renders .rparen params ts) (rest : List Located) :
    (list (ts ++ rest).length parameter .rparen).Gives (ts ++ rest) params rest := by
  have starts {param : Parameter} {ts : List Located} (h : param.Renders ts)
      (rest : List Located) : ¬BeginsWith (.punctuation .rparen) (ts ++ rest) := by
    cases h
    simp
  exact list_takes (parameter_takes _) (fun _ _ => trivial) (fun _ _ => trivial) (by decide) starts
    (Nat.le_refl _) h trivial (Nat.le_refl _)

theorem function_gives {f : Function} {ts : List Located} (good : f.Canonical)
    (h : f.Renders ts) (rest : List Located) : function.Gives (ts ++ rest) f rest := by
  cases h with
  | @intro p x params returns body ts us vs q r u v hparams hreturns hbody =>
    simp only [List.cons_append, List.append_assoc]
    have body := block_gives ⟨good, u, v, vs, hbody, rfl⟩ rest
    have brace (ty : Ty) : ¬BeginsWith (.keyword (.type ty)) (braced u v vs ++ rest) := by
      simp [braced]
    have params := parameters_gives hparams (us ++ (braced u v vs ++ rest))
    refine (keyword_gives .function p _).bind ((name_gives x q _).bind ?_)
    refine (punctuation_gives .lparen r _).bind ((remaining_gives _).bind ?_)
    exact params.bind ((type?_gives hreturns brace).bind (body.bind (.pure _ rest)))

theorem functions_gives {fs : List Function} {ts : List Located} {n : Nat}
    (h : InSequence (fun f ts => f.Canonical ∧ f.Renders ts) fs ts) (enough : ts.length ≤ n) :
    (functions n).Gives ts fs [] := by
  induction h generalizing n with
  | nil =>
    cases n with
    | zero => exact .pure [] []
    | succ n => exact (peek_gives []).bind (.pure [] [])
  | @cons f fs ts us hf _ ih =>
    obtain ⟨first, ts, rfl⟩ := List.exists_cons_of_ne_nil hf.2.ne_nil
    simp only [List.cons_append, List.length_cons, List.length_append] at enough
    obtain ⟨n, rfl⟩ : ∃ m, n = m + 1 := Nat.exists_eq_succ_of_ne_zero (by omega)
    refine (peek_gives _).bind ((function_gives hf.1 hf.2 us).bind ?_)
    exact (ih (by omega)).bind (.pure _ [])

theorem program_gives {fs : List Function} {ts : List Located} (h : ProgramStands fs ts) :
    program.Gives ts fs [] :=
  (remaining_gives ts).bind (functions_gives (InSequence.and_iff.2 h) (Nat.le_refl _))

/-! ## Exactness -/

theorem program_eq_ok_iff {fs : List Function} {ts : List Located} :
    (∃ t, program (.ofList ts) = .ok fs t) ↔ ProgramStands fs ts := by
  constructor
  · rintro ⟨t, h⟩
    exact program_reads h
  · intro h
    obtain ⟨last, eq⟩ := program_gives h .start
    exact ⟨_, eq⟩

end Parser

theorem parse_eq_ok_iff {source : String} {fs : List Function} :
    parse source = .ok fs ↔ ∃ ts, tokenize source = .ok ts ∧ ProgramStands fs ts := by
  simp only [← Parser.program_eq_ok_iff]
  cases lexed : tokenize source with
  | error e => simp [parse, Tokens.ofText, lexed, bind, Except.bind]
  | ok ts =>
    simp only [parse, Tokens.ofText, lexed, bind, Except.bind, Except.ok.injEq, exists_eq_left']
    cases Parser.program (.ofList ts) <;> simp

theorem ProgramStands.unique {fs gs : List Function} {ts : List Located}
    (hfs : ProgramStands fs ts) (hgs : ProgramStands gs ts) : fs = gs := by
  obtain ⟨t, eq⟩ := Parser.program_eq_ok_iff.2 hfs
  obtain ⟨u, eq'⟩ := Parser.program_eq_ok_iff.2 hgs
  rw [eq] at eq'
  cases eq'
  rfl

/-- The parser succeeds with a tree exactly when the tree is canonical and the tokens are those the
grammar writes it as, positions included. No tokens are those of two trees. -/
theorem parses_exactly :
    (∀ ts fs, (∃ t, Parser.program (.ofList ts) = .ok fs t) ↔ ProgramStands fs ts) ∧
      (∀ source fs,
        parse source = .ok fs ↔ ∃ ts, tokenize source = .ok ts ∧ ProgramStands fs ts) ∧
      ∀ ts fs gs, ProgramStands fs ts → ProgramStands gs ts → fs = gs :=
  ⟨fun _ _ => Parser.program_eq_ok_iff, fun _ _ => parse_eq_ok_iff,
    fun _ _ _ => ProgramStands.unique⟩

/-- The tokens of `function f() { return 7 - 2 - 1; }`. -/
def differences : List Located :=
  [word .function ⟨1, 1⟩, identifier "f" ⟨1, 10⟩, mark .lparen ⟨1, 11⟩, mark .rparen ⟨1, 12⟩,
    mark .lbrace ⟨1, 14⟩, word .return_ ⟨1, 16⟩, ⟨.int 7, ⟨1, 23⟩⟩, ⟨.operator .sub, ⟨1, 25⟩⟩,
    ⟨.int 2, ⟨1, 27⟩⟩, ⟨.operator .sub, ⟨1, 29⟩⟩, ⟨.int 1, ⟨1, 31⟩⟩, mark .semicolon ⟨1, 32⟩,
    mark .rbrace ⟨1, 34⟩]

theorem parses_exactly_differences :
    ProgramStands [⟨⟨1, 1⟩, "f", [], none,
      [.ret ⟨1, 16⟩ (some (.binary ⟨1, 29⟩ .sub
        (.binary ⟨1, 25⟩ .sub (.literal ⟨1, 23⟩ (.int 7)) (.literal ⟨1, 27⟩ (.int 2)))
        (.literal ⟨1, 31⟩ (.int 1))))]⟩] differences :=
  (parses_exactly.1 _ _).1 ⟨⟨[], ⟨1, 34⟩⟩, rfl⟩

end StackScript
