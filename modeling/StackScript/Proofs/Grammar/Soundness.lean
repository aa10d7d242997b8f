import StackScript.Proofs.Grammar.Reading

/-!
# What is read is what the grammar says

Each reading that succeeds has read the tokens of its tree off the front of the unread ones, and the
tree is canonical.
-/

namespace StackScript

namespace Parser

variable {α : Type}

/-- What a reading gives when it succeeds, and the tokens it has read then. -/
def Reads (p : Parser α) (R : α → List Located → Prop) : Prop :=
  ∀ ⦃s t : Tokens⦄ ⦃a : α⦄, p s = .ok a t → ∃ ts, s.rest = ts ++ t.rest ∧ R a ts

theorem separated_reads {item : Parser α} {R : α → List Located → Prop} (hitem : item.Reads R)
    (close : Punctuation) (n : Nat) :
    (separated item close n).Reads fun xs ts =>
      ∃ us pos, Separated R xs us ∧ ts = us ++ [mark close pos] := by
  -- the last item, with the mark behind it
  have closing {x : α} {s u t : Tokens} {ts : List Located} {xs : List α}
      (eq : s.rest = ts ++ u.rest) (hx : R x ts)
      (h : (do punctuation close; return [x] : Parser (List α)) u = .ok xs t) :
      ∃ vs, s.rest = vs ++ t.rest ∧ ∃ us pos, Separated R xs us ∧ vs = us ++ [mark close pos] := by
    obtain ⟨_, v, hmark, h⟩ := bind_eq_ok.1 h
    obtain ⟨rfl, rfl⟩ := pure_eq_ok.1 h
    have read : s.rest = ts ++ [mark close v.last] ++ v.rest := by
      rw [eq, punctuation_ok hmark]
      simp
    exact ⟨_, read, ts, v.last, .last hx, rfl⟩
  induction n with
  | zero =>
    intro s t xs h
    obtain ⟨x, u, hx, h⟩ := bind_eq_ok.1 h
    obtain ⟨ts, eq, hx⟩ := hitem hx
    exact closing eq hx h
  | succ n ih =>
    intro s t xs h
    obtain ⟨x, u, hx, h⟩ := bind_eq_ok.1 h
    obtain ⟨ts, eq, hx⟩ := hitem hx
    obtain ⟨v, comma, h⟩ | ⟨_, h⟩ := ite_eat_eq_ok h
    · obtain ⟨ys, w, hys, h⟩ := bind_eq_ok.1 h
      obtain ⟨rfl, rfl⟩ := pure_eq_ok.1 h
      obtain ⟨_, eq', us, pos, hus, rfl⟩ := ih hys
      have read : s.rest = ts ++ mark .comma v.last :: us ++ [mark close pos] ++ w.rest := by
        rw [eq, comma, eq']
        simp [mark]
      exact ⟨_, read, _, pos, .cons v.last hx hus, rfl⟩
    · exact closing eq hx h

theorem list_reads {item : Parser α} {R : α → List Located → Prop} (hitem : item.Reads R)
    (bound : Nat) (close : Punctuation) : (list bound item close).Reads (Listed R close) := by
  intro s t xs h
  obtain ⟨u, eq, h⟩ | ⟨_, h⟩ := ite_eat_eq_ok h
  · obtain ⟨rfl, rfl⟩ := pure_eq_ok.1 h
    exact ⟨[mark close u.last], eq, .nil _⟩
  · obtain ⟨_, eq, us, pos, hus, rfl⟩ := separated_reads hitem close bound h
    exact ⟨_, eq, .some pos hus⟩

/-! ## Expressions -/

/-- What operators and operands of one level make of an expression of that level. -/
theorem operands_reads {level : Operator → Bool} {operand : Parser Expr} {k : Nat}
    (hlevel : ∀ op, level op = true ↔ op.tightness = k)
    (hoperand : operand.Reads (Expr.Stands (k + 1)))
    {n : Nat} {lhs e : Expr} {s t : Tokens} {ts : List Located} (hlhs : lhs.Stands k ts)
    (h : operands level operand n lhs s = .ok e t) :
    ∃ us, s.rest = us ++ t.rest ∧ e.Stands k (ts ++ us) := by
  induction n generalizing lhs s ts with
  | zero =>
    obtain ⟨rfl, rfl⟩ := pure_eq_ok.1 h
    exact ⟨[], rfl, by simpa using hlhs⟩
  | succ n ih =>
    have stop (h : (pure lhs : Parser Expr) s = .ok e t) :
        ∃ us, s.rest = us ++ t.rest ∧ e.Stands k (ts ++ us) := by
      obtain ⟨rfl, rfl⟩ := pure_eq_ok.1 h
      exact ⟨[], rfl, by simpa using hlhs⟩
    rw [operands, peek_bind] at h
    cases begins : s.rest.head?.map (·.token) with
    | none =>
      rw [begins] at h
      exact stop h
    | some token =>
    rw [begins] at h
    cases token with
    | operator op =>
      by_cases same : level op = true
      · simp only [same, if_true] at h
        rw [pos_bind] at h
        obtain ⟨_, u, hadvance, h⟩ := bind_eq_ok.1 h
        obtain ⟨rhs, v, hrhs, h⟩ := bind_eq_ok.1 h
        obtain ⟨us, eq, hrhs⟩ := hoperand hrhs
        have operator := discard_advance_ok begins hadvance
        have tight := (hlevel op).1 same
        have node :
            (Expr.binary s.pos op lhs rhs).Stands k (ts ++ ⟨.operator op, s.pos⟩ :: us) := by
          have left : op.tightness ≤ lhs.tightness := tight ▸ hlhs.1
          have right : op.tightness < rhs.tightness := tight ▸ hrhs.1
          exact ⟨Nat.le_of_eq tight.symm, .binary left right hlhs.2.1 hrhs.2.1,
            .binary hlhs.2.2 hrhs.2.2⟩
        obtain ⟨vs, eq', he⟩ := ih node h
        have read : s.rest = ⟨.operator op, s.pos⟩ :: us ++ vs ++ t.rest := by
          rw [operator, eq, eq']
          simp
        exact ⟨_, read, by simpa using he⟩
      · simp only [same, Bool.false_eq_true, if_false] at h
        exact stop h
    | _ => exact stop h

theorem leftAssoc_reads {level : Operator → Bool} {operand : Parser Expr} {k : Nat}
    (hlevel : ∀ op, level op = true ↔ op.tightness = k)
    (hoperand : operand.Reads (Expr.Stands (k + 1))) (bound : Nat) :
    (leftAssoc bound level operand).Reads (Expr.Stands k) := by
  intro s t e h
  obtain ⟨lhs, u, hlhs, h⟩ := bind_eq_ok.1 h
  obtain ⟨ts, eq, tight, canonical, renders⟩ := hoperand hlhs
  have first : lhs.Stands k ts := ⟨by omega, canonical, renders⟩
  obtain ⟨us, eq', he⟩ := operands_reads hlevel hoperand first h
  exact ⟨ts ++ us, by rw [eq, eq', List.append_assoc], he⟩

theorem list_expr_reads {expr : Parser Expr} (hexpr : expr.Reads (Expr.Stands 0)) (bound : Nat)
    (close : Punctuation) :
    (list bound expr close).Reads fun es ts =>
      (∀ e ∈ es, e.Canonical) ∧ Listed Expr.Renders close es ts := by
  have hexpr : expr.Reads fun e ts => e.Canonical ∧ e.Renders ts := by
    intro s t e h
    obtain ⟨ts, eq, _, he⟩ := hexpr h
    exact ⟨ts, eq, he⟩
  intro s t es h
  obtain ⟨ts, eq, h⟩ := list_reads hexpr bound close h
  exact ⟨ts, eq, Listed.and_iff.1 h⟩

theorem named_reads {expr : Parser Expr} (hexpr : expr.Reads (Expr.Stands 0)) (bound : Nat)
    (start : Position) (name : String) :
    (named bound expr start name).Reads fun e ts =>
      e.Stands 3 (identifier name start :: ts) := by
  intro s t e h
  obtain ⟨u, eq, h⟩ | ⟨_, h⟩ := ite_eat_eq_ok h
  · obtain ⟨args, v, hargs, h⟩ := bind_eq_ok.1 h
    obtain ⟨rfl, rfl⟩ := pure_eq_ok.1 h
    obtain ⟨ts, eq', canonical, renders⟩ := list_expr_reads hexpr bound .rparen hargs
    exact ⟨mark .lparen u.last :: ts, by rw [eq, eq']; rfl, Nat.le_refl 3, .call canonical,
      .call u.last renders⟩
  obtain ⟨u, eq, h⟩ | ⟨_, h⟩ := ite_eat_eq_ok h
  · obtain ⟨index, v, hindex, h⟩ := bind_eq_ok.1 h
    obtain ⟨_, w, hmark, h⟩ := bind_eq_ok.1 h
    obtain ⟨rfl, rfl⟩ := pure_eq_ok.1 h
    obtain ⟨ts, eq', _, canonical, renders⟩ := hexpr hindex
    have read : s.rest = mark .lbracket u.last :: ts ++ [mark .rbracket w.last] ++ w.rest := by
      rw [eq, eq', punctuation_ok hmark]
      simp [mark]
    exact ⟨_, read, Nat.le_refl 3, .index canonical, .index u.last w.last renders⟩
  · obtain ⟨rfl, rfl⟩ := pure_eq_ok.1 h
    exact ⟨[], rfl, Nat.le_refl 3, .var start name, .var start name⟩

/-- An operand that is no binary node. -/
theorem factor_reads {expr : Parser Expr} (hexpr : expr.Reads (Expr.Stands 0)) (bound : Nat) :
    (factor bound expr).Reads (Expr.Stands 3) := by
  intro s t e h
  obtain ⟨found, u, hadvance, h⟩ := bind_eq_ok.1 h
  obtain ⟨rfl, _⟩ | ⟨⟨token, start⟩, rfl, eq⟩ := advance_ok hadvance
  · exact (fail_ne_ok h).elim
  have literal {value : Literal} (same : value.token = token)
      (h : (pure (.literal start value) : Parser Expr) u = .ok e t) :
      ∃ ts, s.rest = ts ++ t.rest ∧ e.Stands 3 ts := by
    obtain ⟨rfl, rfl⟩ := pure_eq_ok.1 h
    subst same
    exact ⟨[⟨value.token, start⟩], eq, Nat.le_refl 3, .literal start value, .literal start value⟩
  cases token with
  | int n => exact literal rfl h
  | float x => exact literal rfl h
  | string x => exact literal rfl h
  | keyword k =>
    cases k with
    | true_ => exact literal rfl h
    | false_ => exact literal rfl h
    | _ => exact (throw_ne_ok h).elim
  | punctuation m =>
    cases m with
    | lparen =>
      obtain ⟨inner, v, hinner, h⟩ := bind_eq_ok.1 h
      obtain ⟨_, w, hmark, h⟩ := bind_eq_ok.1 h
      obtain ⟨rfl, rfl⟩ := pure_eq_ok.1 h
      obtain ⟨ts, eq', _, canonical, renders⟩ := hexpr hinner
      have read : s.rest = mark .lparen start :: ts ++ [mark .rparen w.last] ++ w.rest := by
        rw [eq, eq', punctuation_ok hmark]
        simp [mark]
      exact ⟨_, read, Nat.le_refl 3, .paren canonical, .paren w.last renders⟩
    | lbracket =>
      obtain ⟨items, v, hitems, h⟩ := bind_eq_ok.1 h
      obtain ⟨rfl, rfl⟩ := pure_eq_ok.1 h
      obtain ⟨ts, eq', canonical, renders⟩ := list_expr_reads hexpr bound .rbracket hitems
      exact ⟨mark .lbracket start :: ts, by rw [eq, eq']; rfl, Nat.le_refl 3, .array canonical,
        .array renders⟩
    | _ => exact (throw_ne_ok h).elim
  | name x =>
    obtain ⟨ts, eq', he⟩ := named_reads hexpr bound start x h
    exact ⟨identifier x start :: ts, by rw [eq, eq']; rfl, he⟩
  | operator op => exact (throw_ne_ok h).elim

theorem expressionWithin_reads (bound : Nat) :
    (expressionWithin bound).Reads (Expr.Stands 0) := by
  induction bound with
  | zero =>
    intro s t e h
    exact (fail_ne_ok h).elim
  | succ bound ih =>
    have products := leftAssoc_reads Operator.isProduct_iff (factor_reads ih bound) bound
    have sums := leftAssoc_reads Operator.isSum_iff products bound
    exact leftAssoc_reads Operator.isComparison_iff sums bound

theorem expression_reads : expression.Reads fun e ts => e.Canonical ∧ e.Renders ts := by
  intro s t e h
  rw [expression, remaining_bind] at h
  obtain ⟨ts, eq, _, he⟩ := expressionWithin_reads _ h
  exact ⟨ts, eq, he⟩

/-! ## Statements -/

/-- An expression and the value assigned to it, with the marks behind them. -/
theorem assignment_stands {target value : Expr} {st : Stmt} {s u v : Tokens}
    {ts rest us : List Located} (p q : Position) (eq : s.rest = ts ++ rest)
    (htarget : target.Canonical ∧ target.Renders ts) (hvalue : value.Canonical ∧ value.Renders us)
    (h : assignment s.pos target value u = .ok st v) :
    u = v ∧ (st.Canonical ∧ st.IsSimple) ∧
      st.Renders (ts ++ mark .assign p :: us ++ [mark .semicolon q]) := by
  cases target with
  | var r x =>
    obtain ⟨rfl, rfl⟩ := pure_eq_ok.1 h
    cases htarget.2
    rw [pos_of_rest eq]
    exact ⟨rfl, ⟨.assign hvalue.1, trivial⟩, .assign p q hvalue.2⟩
  | index r x index =>
    obtain ⟨rfl, rfl⟩ := pure_eq_ok.1 h
    cases htarget.1 with | index hindex =>
    cases htarget.2 with | index p' q' renders =>
    rw [pos_of_rest eq]
    refine ⟨rfl, ⟨.assignItem hindex hvalue.1, trivial⟩, ?_⟩
    simpa using Stmt.Renders.assignItem p' q' p q renders hvalue.2
  | _ => exact (throw_ne_ok h).elim

/-- An expression on its own, with the mark behind it. -/
theorem alone_stands {value : Expr} {s : Tokens} {ts rest : List Located} (p : Position)
    (eq : s.rest = ts ++ rest) (hvalue : value.Canonical ∧ value.Renders ts) :
    ((alone s.pos value).Canonical ∧ (alone s.pos value).IsSimple) ∧
      (alone s.pos value).Renders (ts ++ [mark .semicolon p]) := by
  obtain ⟨canonical, renders⟩ := hvalue
  have other (no : ¬value.IsCall) :
      ((Stmt.expr s.pos value).Canonical ∧ (Stmt.expr s.pos value).IsSimple) ∧
        (Stmt.expr s.pos value).Renders (ts ++ [mark .semicolon p]) := by
    obtain ⟨first, ts, rfl⟩ := List.exists_cons_of_ne_nil renders.ne_nil
    rw [pos_of_rest eq]
    exact ⟨⟨.expr canonical no, trivial⟩, .expr p renders⟩
  cases value with
  | call q site x args =>
    cases canonical with | call all =>
    cases renders with | call _ hargs =>
    rw [pos_of_rest eq]
    exact ⟨⟨.call all, trivial⟩, .call p (.call _ hargs)⟩
  | _ => exact other id

theorem simple_reads :
    simple.Reads fun st ts => (st.Canonical ∧ st.IsSimple) ∧ st.Renders ts := by
  intro s t st h
  rw [simple, pos_bind] at h
  obtain ⟨u, eq, h⟩ | ⟨_, h⟩ := ite_eat_eq_ok h
  · rw [pos_of_rest eq] at h
    obtain ⟨v, eq', h⟩ | ⟨_, h⟩ := ite_eat_eq_ok h
    · obtain ⟨rfl, rfl⟩ := pure_eq_ok.1 h
      exact ⟨[word .return_ u.last, mark .semicolon v.last], by rw [eq, eq']; rfl,
        ⟨.ret _, trivial⟩, .ret _ _⟩
    · obtain ⟨value, v, hvalue, h⟩ := bind_eq_ok.1 h
      obtain ⟨_, w, hmark, h⟩ := bind_eq_ok.1 h
      obtain ⟨rfl, rfl⟩ := pure_eq_ok.1 h
      obtain ⟨ts, eq', canonical, renders⟩ := expression_reads hvalue
      have read : s.rest = word .return_ u.last :: ts ++ [mark .semicolon w.last] ++ w.rest := by
        rw [eq, eq', punctuation_ok hmark]
        simp [word]
      exact ⟨_, read, ⟨.retValue canonical, trivial⟩, .retValue w.last renders⟩
  obtain ⟨found, u, htype, h⟩ := bind_eq_ok.1 h
  cases found with
  | some ty =>
    have eq := type?_some htype
    rw [pos_of_rest eq] at h
    obtain ⟨x, v, hname, h⟩ := bind_eq_ok.1 h
    obtain ⟨_, w, hassign, h⟩ := bind_eq_ok.1 h
    obtain ⟨value, z, hvalue, h⟩ := bind_eq_ok.1 h
    obtain ⟨_, t, hmark, h⟩ := bind_eq_ok.1 h
    obtain ⟨rfl, rfl⟩ := pure_eq_ok.1 h
    obtain ⟨ts, eq', canonical, renders⟩ := expression_reads hvalue
    have read : s.rest = word (.type ty) u.last :: identifier x v.last :: mark .assign w.last ::
        ts ++ [mark .semicolon t.last] ++ t.rest := by
      rw [eq, name_ok hname, punctuation_ok hassign, eq', punctuation_ok hmark]
      simp
    exact ⟨_, read, ⟨.assign canonical, trivial⟩, .declare v.last w.last t.last renders⟩
  | none =>
    obtain rfl := type?_none htype
    obtain ⟨target, u, htarget, h⟩ := bind_eq_ok.1 h
    obtain ⟨ts, eq, htarget⟩ := expression_reads htarget
    obtain ⟨v, eq', h⟩ | ⟨_, h⟩ := ite_eat_eq_ok h
    · obtain ⟨value, w, hvalue, h⟩ := bind_eq_ok.1 h
      obtain ⟨made, w', hmade, h⟩ := bind_eq_ok.1 h
      obtain ⟨_, z, hmark, h⟩ := bind_eq_ok.1 h
      obtain ⟨rfl, rfl⟩ := pure_eq_ok.1 h
      obtain ⟨us, eq'', hvalue⟩ := expression_reads hvalue
      obtain ⟨rfl, stands⟩ := assignment_stands v.last z.last eq htarget hvalue hmade
      have read : s.rest =
          ts ++ mark .assign v.last :: us ++ [mark .semicolon z.last] ++ z.rest := by
        rw [eq, eq', eq'', punctuation_ok hmark]
        simp [mark]
      exact ⟨_, read, stands⟩
    · obtain ⟨made, v, hmade, h⟩ := bind_eq_ok.1 h
      obtain ⟨rfl, rfl⟩ := pure_eq_ok.1 hmade
      obtain ⟨_, w, hmark, h⟩ := bind_eq_ok.1 h
      obtain ⟨rfl, rfl⟩ := pure_eq_ok.1 h
      have read : s.rest = ts ++ [mark .semicolon w.last] ++ w.rest := by
        rw [eq, punctuation_ok hmark]
        simp
      exact ⟨_, read, alone_stands w.last eq htarget⟩

/-- A test with a block behind it, in statements that are made of the two. -/
theorem tested_reads {block : Parser (List Stmt)} (hblock : block.Reads BlockStands)
    {made : Expr → List Stmt → Stmt} {first : Located}
    (good : ∀ {test body}, test.Canonical → (∀ st ∈ body, st.Canonical) →
      (made test body).Canonical)
    (renders : ∀ {test body ts us} p q, test.Renders ts → InSequence Stmt.Renders body us →
      (made test body).Renders (first :: ts ++ braced p q us)) :
    (do
      let test ← expression
      return made test (← block) : Parser Stmt).Reads
      fun st ts => st.Canonical ∧ st.Renders (first :: ts) := by
  intro s t st h
  obtain ⟨test, u, htest, h⟩ := bind_eq_ok.1 h
  obtain ⟨body, v, hbody, h⟩ := bind_eq_ok.1 h
  obtain ⟨rfl, rfl⟩ := pure_eq_ok.1 h
  obtain ⟨ts, eqTest, goodTest, renderTest⟩ := expression_reads htest
  obtain ⟨_, eqBody, goodBody, p, q, us, renderBody, rfl⟩ := hblock hbody
  have read : s.rest = ts ++ braced p q us ++ v.rest := by
    rw [eqTest, eqBody, List.append_assoc]
  exact ⟨_, read, good goodTest goodBody, renders p q renderTest renderBody⟩

theorem counting_reads {p : Position} {block : Parser (List Stmt)}
    (hblock : block.Reads BlockStands) :
    (counting p block).Reads fun st ts => st.Canonical ∧ st.Renders (word .for_ p :: ts) := by
  intro s t st h
  obtain ⟨parenthesized, u, heat, h⟩ := bind_eq_ok.1 h
  obtain ⟨init, v, hinit, h⟩ := bind_eq_ok.1 h
  obtain ⟨test, w, htest, h⟩ := bind_eq_ok.1 h
  obtain ⟨_, x, hmark, h⟩ := bind_eq_ok.1 h
  obtain ⟨step, y, hstep, h⟩ := bind_eq_ok.1 h
  obtain ⟨ts, eqInit, ⟨goodInit, simpleInit⟩, renderInit⟩ := simple_reads hinit
  obtain ⟨us, eqTest, goodTest, renderTest⟩ := expression_reads htest
  obtain ⟨vs, eqStep, ⟨goodStep, simpleStep⟩, renderStep⟩ := simple_reads hstep
  have head : u.rest = ts ++ us ++ mark .semicolon x.last :: vs ++ y.rest := by
    rw [eqInit, eqTest, punctuation_ok hmark, eqStep]
    simp
  cases parenthesized with
  | true =>
    obtain ⟨_, z, hclose, h⟩ := bind_eq_ok.1 h
    obtain ⟨body, z', hbody, h⟩ := bind_eq_ok.1 h
    obtain ⟨rfl, rfl⟩ := pure_eq_ok.1 h
    obtain ⟨_, eqBody, goodBody, q, r, ws, renderBody, rfl⟩ := hblock hbody
    refine ⟨_, ?_, .count simpleInit simpleStep goodInit goodTest goodStep goodBody,
      .countInParens x.last q r u.last z.last renderInit renderTest renderStep renderBody⟩
    rw [eat_true heat, head, punctuation_ok hclose, eqBody]
    simp [mark]
  | false =>
    obtain ⟨body, z, hbody, h⟩ := bind_eq_ok.1 h
    obtain ⟨rfl, rfl⟩ := pure_eq_ok.1 h
    obtain ⟨_, eqBody, goodBody, q, r, ws, renderBody, rfl⟩ := hblock hbody
    obtain ⟨rfl, other⟩ := eat_false heat
    have bare : ¬BeginsWith (.punctuation .lparen) ts := by
      intro begins
      have whole := begins.append (us ++ mark .semicolon x.last :: vs ++ y.rest)
      apply other
      rw [head]
      simpa using whole
    refine ⟨_, ?_, .count simpleInit simpleStep goodInit goodTest goodStep goodBody,
      .count x.last q r renderInit bare renderTest renderStep renderBody⟩
    rw [head, eqBody]
    simp

theorem ranging_reads {p : Position} {block : Parser (List Stmt)}
    (hblock : block.Reads BlockStands) :
    (ranging p block).Reads fun st ts => st.Canonical ∧ st.Renders (word .from_ p :: ts) := by
  intro s t st h
  obtain ⟨first, u, hfirst, h⟩ := bind_eq_ok.1 h
  obtain ⟨_, v, hto, h⟩ := bind_eq_ok.1 h
  obtain ⟨p', hto⟩ := discard_eq_ok.1 hto
  obtain ⟨last, w, hlast, h⟩ := bind_eq_ok.1 h
  obtain ⟨_, x, has, h⟩ := bind_eq_ok.1 h
  obtain ⟨q', has⟩ := discard_eq_ok.1 has
  obtain ⟨name, y, hname, h⟩ := bind_eq_ok.1 h
  obtain ⟨body, z, hbody, h⟩ := bind_eq_ok.1 h
  obtain ⟨rfl, rfl⟩ := pure_eq_ok.1 h
  obtain ⟨ts, eqFirst, goodFirst, renderFirst⟩ := expression_reads hfirst
  obtain ⟨us, eqLast, goodLast, renderLast⟩ := expression_reads hlast
  obtain ⟨_, eqBody, goodBody, q, r, vs, renderBody, rfl⟩ := hblock hbody
  refine ⟨_, ?_, .range goodFirst goodLast goodBody,
    .range p' q' y.last q r renderFirst renderLast renderBody⟩
  rw [eqFirst, keyword_ok hto, eqLast, keyword_ok has, name_ok hname, eqBody]
  simp

theorem statement_reads {block : Parser (List Stmt)} (hblock : block.Reads BlockStands) :
    (statement block).Reads fun st ts => st.Canonical ∧ st.Renders ts := by
  intro s t st h
  rw [statement, pos_bind] at h
  obtain ⟨u, eq, h⟩ | ⟨_, h⟩ := ite_eat_eq_ok h
  · rw [pos_of_rest eq] at h
    obtain ⟨ts, eq', stands⟩ := tested_reads hblock .cond .cond h
    exact ⟨_, by rw [eq, eq']; rfl, stands⟩
  obtain ⟨u, eq, h⟩ | ⟨_, h⟩ := ite_eat_eq_ok h
  · rw [pos_of_rest eq] at h
    obtain ⟨ts, eq', stands⟩ := tested_reads hblock .loop .loop h
    exact ⟨_, by rw [eq, eq']; rfl, stands⟩
  obtain ⟨u, eq, h⟩ | ⟨_, h⟩ := ite_eat_eq_ok h
  · rw [pos_of_rest eq] at h
    obtain ⟨ts, eq', stands⟩ := counting_reads hblock h
    exact ⟨_, by rw [eq, eq']; rfl, stands⟩
  obtain ⟨u, eq, h⟩ | ⟨_, h⟩ := ite_eat_eq_ok h
  · rw [pos_of_rest eq] at h
    obtain ⟨ts, eq', stands⟩ := ranging_reads hblock h
    exact ⟨_, by rw [eq, eq']; rfl, stands⟩
  · obtain ⟨ts, eq, ⟨good, _⟩, renders⟩ := simple_reads h
    exact ⟨ts, eq, good, renders⟩

theorem statements_reads {stmt : Parser Stmt}
    (hstmt : stmt.Reads fun st ts => st.Canonical ∧ st.Renders ts) (n : Nat) :
    (statements stmt n).Reads fun body ts =>
      ∃ us pos, InSequence (fun st ts => st.Canonical ∧ st.Renders ts) body us ∧
        ts = us ++ [mark .rbrace pos] := by
  induction n with
  | zero =>
    intro s t body h
    exact (fail_ne_ok h).elim
  | succ n ih =>
    intro s t body h
    obtain ⟨u, eq, h⟩ | ⟨_, h⟩ := ite_eat_eq_ok h
    · obtain ⟨rfl, rfl⟩ := pure_eq_ok.1 h
      exact ⟨[mark .rbrace u.last], eq, [], u.last, .nil, rfl⟩
    rw [peek_bind] at h
    split at h
    · exact (fail_ne_ok h).elim
    obtain ⟨st, u, hst, h⟩ := bind_eq_ok.1 h
    obtain ⟨rest, v, hrest, h⟩ := bind_eq_ok.1 h
    obtain ⟨rfl, rfl⟩ := pure_eq_ok.1 h
    obtain ⟨ts, eq, hst⟩ := hstmt hst
    obtain ⟨_, eq', us, pos, hus, rfl⟩ := ih hrest
    have read : s.rest = ts ++ us ++ [mark .rbrace pos] ++ v.rest := by
      rw [eq, eq']
      simp
    exact ⟨_, read, ts ++ us, pos, .cons hst hus, rfl⟩

theorem blockWithin_reads (bound : Nat) : (blockWithin bound).Reads BlockStands := by
  induction bound with
  | zero =>
    intro s t body h
    exact (fail_ne_ok h).elim
  | succ bound ih =>
    intro s t body h
    obtain ⟨_, u, hmark, h⟩ := bind_eq_ok.1 h
    obtain ⟨_, eq, us, pos, hus, rfl⟩ := statements_reads (statement_reads ih) bound h
    obtain ⟨good, renders⟩ := InSequence.and_iff.1 hus
    have read : s.rest = braced u.last pos us ++ t.rest := by
      rw [punctuation_ok hmark, eq]
      rfl
    exact ⟨_, read, good, u.last, pos, us, renders, rfl⟩

theorem block_reads : block.Reads BlockStands := by
  intro s t body h
  rw [block, remaining_bind] at h
  exact blockWithin_reads _ h

/-! ## Functions -/

theorem parameter_reads : parameter.Reads Parameter.Renders := by
  intro s t param h
  rw [parameter, pos_bind] at h
  obtain ⟨ty, u, htype, h⟩ := bind_eq_ok.1 h
  obtain ⟨x, v, hname, h⟩ := bind_eq_ok.1 h
  obtain ⟨rfl, rfl⟩ := pure_eq_ok.1 h
  have eq := type_ok htype
  have read : s.rest = [word (.type ty) u.last, identifier x v.last] ++ v.rest := by
    rw [eq, name_ok hname]
    rfl
  rw [pos_of_rest eq]
  exact ⟨_, read, .intro u.last v.last ty x⟩

theorem type?_reads : type?.Reads ReturnRenders := by
  intro s t returns h
  cases returns with
  | some ty => exact ⟨[word (.type ty) t.last], type?_some h, .some ty t.last⟩
  | none =>
    obtain rfl := type?_none h
    exact ⟨[], rfl, .none⟩

theorem function_reads : function.Reads fun f ts => f.Canonical ∧ f.Renders ts := by
  intro s t f h
  obtain ⟨p, u, hkeyword, h⟩ := bind_eq_ok.1 h
  obtain ⟨x, v, hname, h⟩ := bind_eq_ok.1 h
  obtain ⟨_, w, hmark, h⟩ := bind_eq_ok.1 h
  rw [remaining_bind] at h
  obtain ⟨params, y, hparams, h⟩ := bind_eq_ok.1 h
  obtain ⟨returns, z, hreturns, h⟩ := bind_eq_ok.1 h
  obtain ⟨body, z', hbody, h⟩ := bind_eq_ok.1 h
  obtain ⟨rfl, rfl⟩ := pure_eq_ok.1 h
  obtain ⟨ts, eqParams, renderParams⟩ := list_reads parameter_reads _ _ hparams
  obtain ⟨us, eqReturns, renderReturns⟩ := type?_reads hreturns
  obtain ⟨_, eqBody, goodBody, q, r, vs, renderBody, rfl⟩ := block_reads hbody
  refine ⟨_, ?_, goodBody, .intro v.last w.last q r renderParams renderReturns renderBody⟩
  rw [keyword_ok hkeyword, name_ok hname, punctuation_ok hmark, eqParams, eqReturns, eqBody]
  simp

/-- Functions are read up to the end. -/
theorem functions_reads (n : Nat) {s t : Tokens} {fs : List Function}
    (h : functions n s = .ok fs t) (enough : s.rest.length ≤ n) :
    InSequence (fun f ts => f.Canonical ∧ f.Renders ts) fs s.rest := by
  induction n generalizing s fs with
  | zero =>
    obtain ⟨rfl, rfl⟩ := pure_eq_ok.1 h
    rw [List.length_eq_zero_iff.1 (Nat.le_zero.1 enough)]
    exact .nil
  | succ n ih =>
    rw [functions, peek_bind] at h
    split at h
    · rename_i ended
      obtain ⟨rfl, rfl⟩ := pure_eq_ok.1 h
      have empty : s.rest = [] := by simpa using ended
      rw [empty]
      exact .nil
    obtain ⟨f, u, hf, h⟩ := bind_eq_ok.1 h
    obtain ⟨rest, v, hrest, h⟩ := bind_eq_ok.1 h
    obtain ⟨rfl, rfl⟩ := pure_eq_ok.1 h
    obtain ⟨ts, eq, hf⟩ := function_reads hf
    have some_read : 0 < ts.length := List.length_pos_iff.2 hf.2.ne_nil
    have fewer := congrArg List.length eq
    rw [List.length_append] at fewer
    rw [eq]
    exact .cons hf (ih hrest (by omega))

theorem program_reads {ts : List Located} {fs : List Function} {t : Tokens}
    (h : program (.ofList ts) = .ok fs t) : ProgramStands fs ts := by
  rw [program, remaining_bind] at h
  exact InSequence.and_iff.1 (functions_reads _ h (Nat.le_refl _))

end Parser

end StackScript
