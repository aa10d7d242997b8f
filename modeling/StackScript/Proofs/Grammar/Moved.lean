import StackScript.Proofs.Grammar

/-!
# Trees at other places

* `Located.moved`, `Expr.moved`, `Stmt.moved`, `Function.moved`: the same token or tree with other
  positions;
* `ProgramStands.moved`: what tokens stand for does not depend on where they are.
-/

namespace StackScript

variable (f : Position → Position)

/-! ## Tokens and trees -/

def Located.moved (t : Located) : Located := ⟨t.token, f t.pos⟩

mutual

def Expr.moved : Expr → Expr
  | .binary pos op lhs rhs => .binary (f pos) op lhs.moved rhs.moved
  | .literal pos value => .literal (f pos) value
  | .var pos name => .var (f pos) name
  | .call pos site name args => .call (f pos) (f site) name (movedAll args)
  | .index pos name index => .index (f pos) name index.moved
  | .array pos items => .array (f pos) (movedAll items)
  | .paren pos inner => .paren (f pos) inner.moved

def movedAll : List Expr → List Expr
  | [] => []
  | e :: es => e.moved :: movedAll es

end

mutual

def Stmt.moved : Stmt → Stmt
  | .cond pos test body => .cond (f pos) (test.moved f) (movedBody body)
  | .loop pos test body => .loop (f pos) (test.moved f) (movedBody body)
  | .count pos init test step body =>
    .count (f pos) init.moved (test.moved f) step.moved (movedBody body)
  | .range pos first last name body =>
    .range (f pos) (first.moved f) (last.moved f) name (movedBody body)
  | .ret pos value => .ret (f pos) (value.map (Expr.moved f))
  | .assignItem pos name index value => .assignItem (f pos) name (index.moved f) (value.moved f)
  | .assign pos ty name value => .assign (f pos) ty name (value.moved f)
  | .call pos site name args => .call (f pos) (f site) name (movedAll f args)
  | .expr pos value => .expr (f pos) (value.moved f)

def movedBody : List Stmt → List Stmt
  | [] => []
  | s :: ss => s.moved :: movedBody ss

end

def Parameter.moved (p : Parameter) : Parameter := { p with pos := f p.pos }

def Function.moved (g : Function) : Function :=
  ⟨f g.pos, g.name, g.params.map (Parameter.moved f), g.returns, movedBody f g.body⟩

theorem movedAll_eq_map (es : List Expr) : movedAll f es = es.map (Expr.moved f) := by
  induction es with
  | nil => rfl
  | cons e es ih => rw [movedAll, ih, List.map_cons]

theorem movedBody_eq_map (body : List Stmt) : movedBody f body = body.map (Stmt.moved f) := by
  induction body with
  | nil => rfl
  | cons s body ih => rw [movedBody, ih, List.map_cons]

/-! ## Canonical trees -/

theorem Expr.tightness_moved (e : Expr) : (e.moved f).tightness = e.tightness := by
  cases e <;> rfl

theorem Expr.Canonical.moved {e : Expr} (h : e.Canonical) : (e.moved f).Canonical := by
  induction h with
  | binary left right _ _ ihl ihr =>
    constructor
    · rwa [Expr.tightness_moved]
    · rwa [Expr.tightness_moved]
    · exact ihl
    · exact ihr
  | literal pos value => exact .literal (f pos) value
  | var pos name => exact .var (f pos) name
  | call _ ih =>
    constructor
    simpa [movedAll_eq_map] using ih
  | index _ ih => exact .index ih
  | array _ ih =>
    constructor
    simpa [movedAll_eq_map] using ih
  | paren _ ih => exact .paren ih

theorem Stmt.IsSimple.moved {s : Stmt} (h : s.IsSimple) : (s.moved f).IsSimple := by
  cases s <;> exact h

theorem Expr.not_isCall_moved {e : Expr} (h : ¬e.IsCall) : ¬(e.moved f).IsCall := by
  cases e <;> exact h

theorem Stmt.Canonical.moved {s : Stmt} (h : s.Canonical) : (s.moved f).Canonical := by
  induction h with
  | cond test _ body =>
    rw [Stmt.moved, movedBody_eq_map]
    exact .cond (test.moved f) (List.forall_mem_map.2 body)
  | loop test _ body =>
    rw [Stmt.moved, movedBody_eq_map]
    exact .loop (test.moved f) (List.forall_mem_map.2 body)
  | count init step _ test _ _ goodInit goodStep body =>
    rw [Stmt.moved, movedBody_eq_map]
    exact .count (init.moved f) (step.moved f) goodInit (test.moved f) goodStep
      (List.forall_mem_map.2 body)
  | range first last _ body =>
    rw [Stmt.moved, movedBody_eq_map]
    exact .range (first.moved f) (last.moved f) (List.forall_mem_map.2 body)
  | ret pos => exact .ret (f pos)
  | retValue value => exact .retValue (value.moved f)
  | assignItem index value => exact .assignItem (index.moved f) (value.moved f)
  | assign value => exact .assign (value.moved f)
  | call args =>
    rw [Stmt.moved, movedAll_eq_map]
    exact .call (List.forall_mem_map.2 fun e he => (args e he).moved f)
  | expr value noCall => exact .expr (value.moved f) (Expr.not_isCall_moved f noCall)

/-! ## Rendered trees -/

section

variable {f} {α : Type} {R : α → List Located → Prop} {g : α → α} {xs : List α} {ts : List Located}

theorem BeginsWith.of_moved {token : Token} (h : BeginsWith token (ts.map (Located.moved f))) :
    BeginsWith token ts := by
  cases ts with
  | nil => exact h
  | cons t ts => exact h

theorem InSequence.moved (h : InSequence R xs ts)
    (hR : ∀ x ∈ xs, ∀ ts, R x ts → R (g x) (ts.map (Located.moved f))) :
    InSequence R (xs.map g) (ts.map (Located.moved f)) := by
  induction h with
  | nil => exact .nil
  | cons hx _ ih =>
    rw [List.map_append]
    obtain ⟨head, tail⟩ := List.forall_mem_cons.1 hR
    exact .cons (head _ hx) (ih tail)

theorem Separated.moved (h : Separated R xs ts)
    (hR : ∀ x ∈ xs, ∀ ts, R x ts → R (g x) (ts.map (Located.moved f))) :
    Separated R (xs.map g) (ts.map (Located.moved f)) := by
  induction h with
  | last hx => exact .last (hR _ (.head _) _ hx)
  | cons pos hx _ ih =>
    rw [List.map_append]
    obtain ⟨head, tail⟩ := List.forall_mem_cons.1 hR
    exact .cons (f pos) (head _ hx) (ih tail)

theorem Listed.moved {close : Punctuation} (h : Listed R close xs ts)
    (hR : ∀ x ∈ xs, ∀ ts, R x ts → R (g x) (ts.map (Located.moved f))) :
    Listed R close (xs.map g) (ts.map (Located.moved f)) := by
  cases h with
  | nil pos => exact .nil (f pos)
  | some pos h =>
    rw [List.map_append]
    exact .some (f pos) (h.moved hR)

end

mutual

theorem Expr.renders_moved : ∀ (e : Expr) {ts : List Located}, e.Renders ts →
    (e.moved f).Renders (ts.map (Located.moved f))
  | .binary pos op lhs rhs, _, .binary hl hr => by
    rw [List.map_append]
    exact .binary (lhs.renders_moved hl) (rhs.renders_moved hr)
  | .literal pos value, _, .literal _ _ => .literal (f pos) value
  | .var pos name, _, .var _ _ => .var (f pos) name
  | .call pos _ name args, _, .call p h => by
    rw [Expr.moved, movedAll_eq_map]
    exact .call (f p) (h.moved (all_renders_moved args))
  | .index pos name index, _, .index p q h => by
    simp only [List.map_append, List.map_cons]
    exact .index (f p) (f q) (index.renders_moved h)
  | .array pos items, _, .array h => by
    rw [Expr.moved, movedAll_eq_map]
    exact .array (h.moved (all_renders_moved items))
  | .paren pos inner, _, .paren p h => by
    simp only [List.map_append, List.map_cons]
    exact .paren (f p) (inner.renders_moved h)

theorem all_renders_moved : ∀ (es : List Expr), ∀ e ∈ es, ∀ ts, e.Renders ts →
    (e.moved f).Renders (ts.map (Located.moved f))
  | e :: _, _, .head _, _, h => e.renders_moved h
  | _ :: es, e, .tail _ mem, ts, h => all_renders_moved es e mem ts h

end

theorem braced_moved (p q : Position) (ts : List Located) :
    (braced p q ts).map (Located.moved f) = braced (f p) (f q) (ts.map (Located.moved f)) := by
  simp only [braced, List.map_append, List.map_cons]
  rfl

mutual

theorem Stmt.renders_moved : ∀ (s : Stmt) {ts : List Located}, s.Renders ts →
    (s.moved f).Renders (ts.map (Located.moved f))
  | .cond pos test body, _, .cond p q ht hb => by
    rw [Stmt.moved, movedBody_eq_map]
    simp only [List.map_append, List.map_cons, braced_moved]
    exact .cond (f p) (f q) (test.renders_moved f ht) (hb.moved (body_renders_moved body))
  | .loop pos test body, _, .loop p q ht hb => by
    rw [Stmt.moved, movedBody_eq_map]
    simp only [List.map_append, List.map_cons, braced_moved]
    exact .loop (f p) (f q) (test.renders_moved f ht) (hb.moved (body_renders_moved body))
  | .count pos init test step body, _, .count p q r hi hn ht hs hb => by
    rw [Stmt.moved, movedBody_eq_map]
    simp only [List.map_append, List.map_cons, braced_moved]
    exact .count (f p) (f q) (f r) (init.renders_moved hi) (fun begins => hn begins.of_moved)
      (test.renders_moved f ht) (step.renders_moved hs) (hb.moved (body_renders_moved body))
  | .count pos init test step body, _, .countInParens p q r u v hi ht hs hb => by
    rw [Stmt.moved, movedBody_eq_map]
    simp only [List.map_append, List.map_cons, braced_moved]
    exact .countInParens (f p) (f q) (f r) (f u) (f v) (init.renders_moved hi)
      (test.renders_moved f ht) (step.renders_moved hs) (hb.moved (body_renders_moved body))
  | .range pos first last name body, _, .range p q r u v hf hl hb => by
    rw [Stmt.moved, movedBody_eq_map]
    simp only [List.map_append, List.map_cons, braced_moved]
    exact .range (f p) (f q) (f r) (f u) (f v) (first.renders_moved f hf)
      (last.renders_moved f hl) (hb.moved (body_renders_moved body))
  | .ret pos none, _, .ret _ p => .ret (f pos) (f p)
  | .ret pos (some value), _, .retValue p h => by
    simp only [List.map_append, List.map_cons]
    exact .retValue (f p) (value.renders_moved f h)
  | .assignItem pos name index value, _, .assignItem p q r u hi hv => by
    simp only [List.map_append, List.map_cons]
    exact .assignItem (f p) (f q) (f r) (f u) (index.renders_moved f hi) (value.renders_moved f hv)
  | .assign pos (some ty) name value, _, .declare p q r h => by
    simp only [List.map_append, List.map_cons]
    exact .declare (f p) (f q) (f r) (value.renders_moved f h)
  | .assign pos none name value, _, .assign p q h => by
    simp only [List.map_append, List.map_cons]
    exact .assign (f p) (f q) (value.renders_moved f h)
  | .call pos _ name args, _, .call p h => by
    rw [List.map_append]
    exact .call (f p) (Expr.renders_moved f _ h)
  | .expr _ value, _, .expr p h => by
    simp only [List.map_append, List.map_cons]
    exact .expr (f p) (value.renders_moved f h)

theorem body_renders_moved : ∀ (body : List Stmt), ∀ s ∈ body, ∀ ts, s.Renders ts →
    (s.moved f).Renders (ts.map (Located.moved f))
  | s :: _, _, .head _, _, h => s.renders_moved h
  | _ :: body, s, .tail _ mem, ts, h => body_renders_moved body s mem ts h

end

theorem Parameter.renders_moved (p : Parameter) {ts : List Located} (h : p.Renders ts) :
    (p.moved f).Renders (ts.map (Located.moved f)) := by
  cases h with
  | intro pos q ty name => exact .intro (f pos) (f q) ty name

theorem ReturnRenders.moved {returns : Option Ty} {ts : List Located}
    (h : ReturnRenders returns ts) : ReturnRenders returns (ts.map (Located.moved f)) := by
  cases h with
  | none => exact .none
  | some ty pos => exact .some ty (f pos)

theorem Function.renders_moved (g : Function) {ts : List Located} (h : g.Renders ts) :
    (g.moved f).Renders (ts.map (Located.moved f)) := by
  cases h with
  | intro p q r u hparams hreturns hbody =>
    rw [Function.moved, movedBody_eq_map]
    simp only [List.map_append, List.map_cons, braced_moved]
    exact .intro (f p) (f q) (f r) (f u) (hparams.moved fun x _ _ => x.renders_moved f)
      (hreturns.moved f) (hbody.moved (body_renders_moved f _))

/-- What tokens stand for does not depend on where they are. -/
theorem ProgramStands.moved {fs : List Function} {ts : List Located} (h : ProgramStands fs ts) :
    ProgramStands (fs.map (Function.moved f)) (ts.map (Located.moved f)) := by
  constructor
  · simp only [List.forall_mem_map]
    intro g hg
    rw [Function.Canonical, Function.moved, movedBody_eq_map]
    exact List.forall_mem_map.2 fun s hs => (h.1 g hg s hs).moved f
  · exact h.2.moved fun g _ _ => g.renders_moved f

end StackScript
