import Mathlib.Order.Filter.AtTopBot.Basic
import Mathlib.Order.Filter.Finite
import Mathlib.Data.Fintype.Order
import StackScript.Proofs.Budget
import StackScript.Proofs.Correctness
import StackScript.Proofs.Refusals

/-!
# Programs of range loops halt

* `Eval.Ends`: an evaluation that does not use up its bound, and what it ends with;
* `Stmt.Bounded`: a statement that goes round only as often as a range says;
* `Range.rounds_end`: each round brings the variable of a range loop closer to its bound;
* `CallsName`, `Acyclic`: which function calls which, without a cycle;
* `ranges_halt`: the machine comes to the exit or to a fault.
-/

namespace StackScript

/-! ## Evaluations that end -/

/-- The bound is not used up, and without a fault the result is such. -/
def Eval.Ends {α : Type} (x : Eval α) (P : α → Prop) : Prop := ∀ c,
  match x c with
  | .done a _ => P a
  | .fault _ _ | .lacks _ _ => True
  | .exhausted => False

namespace Eval.Ends

variable {α β : Type} {x : Eval α} {P Q : α → Prop} {R : β → Prop}

theorem pure {a : α} (h : P a) : (pure a : Eval α).Ends P := fun _ => h

theorem fault (pos : Position) (f : Fault) : (Eval.fault pos f : Eval α).Ends P := fun _ => trivial

theorem lacks (pos : Position) : (Eval.lacks pos : Eval α).Ends P := fun _ => trivial

theorem imp (h : x.Ends P) (hPQ : ∀ a, P a → Q a) : x.Ends Q := by
  intro c
  have hc := h c
  cases hx : x c with
  | done a d =>
    rw [hx] at hc
    exact hPQ a hc
  | fault | lacks => trivial
  | exhausted =>
    rw [hx] at hc
    exact hc

theorem bind {f : α → Eval β} (h : x.Ends P) (hf : ∀ a, P a → (f a).Ends R) :
    (x >>= f).Ends R := by
  intro c
  have hc := h c
  rw [Eval.run_bind]
  cases hx : x c with
  | done a d =>
    rw [hx] at hc
    exact hf a hc d
  | fault | lacks => trivial
  | exhausted =>
    rw [hx] at hc
    exact hc

theorem ofExcept {pos : Position} {r : Except Fault α} (h : ∀ a, r = .ok a → P a) :
    (Eval.ofExcept pos r).Ends P := by
  cases r with
  | ok a => exact .pure (h a rfl)
  | error f => exact .fault pos f

theorem needed (pos : Position) (v : Option Value) : (Eval.needed pos v).Ends fun _ => True := by
  cases v with
  | some v => exact .pure trivial
  | none => exact .fault pos .emptyStack

end Eval.Ends

/-- A call of this function ends, whatever its arguments. -/
def Answers (call : Calls) (name : String) : Prop :=
  ∀ site args, (call site name args).Ends fun _ => True

/-! ## Expressions -/

section

variable {call : Calls} {env : Env}

theorem Operator.evalOnto_ends (op : Operator) (pos : Position) (waiting : List Value) :
    (op.evalOnto pos waiting).Ends fun _ => True := by
  match waiting with
  | [] | [_] => exact .lacks pos
  | r :: l :: waiting =>
    apply Eval.Ends.bind (.ofExcept fun _ _ => trivial)
    intro v _
    exact .pure trivial

mutual

/-- An expression ends if the calls in it do. -/
theorem Expr.evalOnto_ends : ∀ (e : Expr) (waiting : List Value),
    (∀ c ∈ e.calls, Answers call c.name) → (e.evalOnto call env waiting).Ends fun _ => True
  | .binary pos op lhs rhs, waiting, h => by
    rw [Expr.calls] at h
    rw [Expr.evalOnto]
    apply (lhs.evalOnto_ends waiting fun c hc => h c (List.mem_append_left _ hc)).bind
    intro waiting _
    apply (rhs.evalOnto_ends waiting fun c hc => h c (List.mem_append_right _ hc)).bind
    intro waiting _
    exact op.evalOnto_ends pos waiting
  | .literal _ _, _, _ => by
    rw [Expr.evalOnto]
    exact .pure trivial
  | .var _ _, _, _ => by
    rw [Expr.evalOnto]
    exact .bind (.ofExcept fun _ _ => trivial) fun _ _ => .pure trivial
  | .call _ site name args, _, h => by
    rw [Expr.calls] at h
    rw [Expr.evalOnto]
    apply (argsOnto_ends site args fun c hc => h c (List.mem_append_left _ hc)).bind
    intro args _
    have answered : Answers call name := h ⟨name, _⟩ (List.mem_append_right _ (.head _))
    exact (answered site args).bind fun _ _ => .pure trivial
  | .index pos _ index, _, h => by
    rw [Expr.calls] at h
    rw [Expr.evalOnto]
    apply (index.evalOnto_ends [] h).bind
    intro i _
    apply (Eval.Ends.needed pos i.head?).bind
    intro i _
    exact .bind (.ofExcept fun _ _ => trivial) fun _ _ => .pure trivial
  | .array _ items, _, h => by
    rw [Expr.calls] at h
    rw [Expr.evalOnto]
    exact (itemsOnto_ends items [] h).bind fun _ _ => .pure trivial
  | .paren _ inner, waiting, h => by
    rw [Expr.calls] at h
    rw [Expr.evalOnto]
    exact inner.evalOnto_ends waiting h

theorem argsOnto_ends (site : Position) : ∀ es : List Expr,
    (∀ c ∈ callsOfAll es, Answers call c.name) → (argsOnto call env site es).Ends fun _ => True
  | [], _ => by
    rw [argsOnto]
    exact .pure trivial
  | e :: es, h => by
    rw [callsOfAll] at h
    rw [argsOnto]
    apply (e.evalOnto_ends [] fun c hc => h c (List.mem_append_left _ hc)).bind
    intro v _
    apply (Eval.Ends.needed site v.head?).bind
    intro v _
    apply (argsOnto_ends site es fun c hc => h c (List.mem_append_right _ hc)).bind
    intro vs _
    exact .pure trivial

theorem itemsOnto_ends : ∀ (es : List Expr) (items : List Value),
    (∀ c ∈ callsOfAll es, Answers call c.name) → (itemsOnto call env es items).Ends fun _ => True
  | [], _, _ => by
    rw [itemsOnto]
    exact .pure trivial
  | e :: es, items, h => by
    rw [callsOfAll] at h
    rw [itemsOnto]
    apply (e.evalOnto_ends [] fun c hc => h c (List.mem_append_left _ hc)).bind
    intro v _
    apply (Eval.Ends.needed e.pos v.head?).bind
    intro v _
    exact itemsOnto_ends es (items ++ [v]) fun c hc => h c (List.mem_append_right _ hc)

end

theorem Expr.valueOnto_ends (e : Expr) (h : ∀ c ∈ e.calls, Answers call c.name) :
    (e.valueOnto call env).Ends fun _ => True :=
  (e.evalOnto_ends [] h).bind fun _ _ => .pure trivial

theorem Expr.needed_ends (pos : Position) (e : Expr) (h : ∀ c ∈ e.calls, Answers call c.name) :
    (Values.needed (valueOnto call) pos e env).Ends fun _ => True :=
  (e.valueOnto_ends h).bind fun v _ => .needed pos v

theorem Expr.test_ends (pos : Position) (e : Expr) (h : ∀ c ∈ e.calls, Answers call c.name) :
    (Values.test (valueOnto call) pos e env).Ends fun _ => True :=
  (e.needed_ends pos h).bind fun _ _ => .ofExcept fun _ _ => trivial

end

/-! ## Variables that a loop counts with -/

/-- The variables a statement assigns itself, apart from those in it. -/
def Stmt.assigns : Stmt → List String
  | .assign _ _ name _ => [name]
  | .range _ _ _ name _ => [name, boundName name]
  | _ => []

/-- No loop but over a range, whose variable and bound are left alone in its body. -/
def Stmt.Bounded : Stmt → Prop
  | .range _ _ _ name body =>
    ∀ t ∈ statementsOf body, name ∉ t.assigns ∧ boundName name ∉ t.assigns
  | .loop .. | .count .. => False
  | _ => True

instance : DecidablePred Stmt.Bounded
  | .range _ _ _ name body => inferInstanceAs <| Decidable <|
    ∀ t ∈ statementsOf body, name ∉ t.assigns ∧ boundName name ∉ t.assigns
  | .loop .. | .count .. => inferInstanceAs (Decidable False)
  | .cond .. | .ret .. | .assignItem .. | .assign .. | .call .. | .expr .. =>
    inferInstanceAs (Decidable True)

/-- A bounded statement that assigns none of these variables. -/
def Stmt.Leaves (names : List String) (s : Stmt) : Prop :=
  s.Bounded ∧ ∀ name ∈ names, name ∉ s.assigns

/-- The variable is this integer. -/
def Env.Holds (env : Env) (name : String) (n : Int64) : Prop := env name = some ⟨.int n, .int⟩

/-- These variables are integers. -/
def Env.Counts (env : Env) (names : List String) : Prop := ∀ name ∈ names, ∃ n, env.Holds name n

/-- These variables are as they were. -/
def Env.Same (env : Env) (names : List String) (env' : Env) : Prop :=
  ∀ name ∈ names, env' name = env name

/-- Where the function has not returned, its variables are such. -/
def Exit.Next (P : Env → Prop) : Exit → Prop
  | .next env => P env
  | .returned _ => True

theorem Exit.Next.imp {x : Exit} {P Q : Env → Prop} (h : x.Next P) (hPQ : ∀ env, P env → Q env) :
    x.Next Q := by
  cases x with
  | next env => exact hPQ env h
  | returned v => trivial

theorem Exit.Next.next? {x : Exit} {f : Env → Eval Exit} {P Q : Env → Prop} (h : x.Next P)
    (hf : ∀ env, P env → (f env).Ends (Exit.Next Q)) : (x.next? f).Ends (Exit.Next Q) := by
  cases x with
  | next env => exact hf env h
  | returned v => exact .pure trivial

namespace Env

variable {env env' : Env} {name : String} {names : List String}

theorem Counts.of_same (h : env.Counts names) (same : env.Same names env') :
    env'.Counts names := by
  intro name hname
  obtain ⟨n, hn⟩ := h name hname
  exact ⟨n, (same name hname).trans hn⟩

theorem Same.trans {env'' : Env} (h : env.Same names env') (h' : env'.Same names env'') :
    env.Same names env'' := fun name hname => (h' name hname).trans (h name hname)

theorem Same.of_subset {others : List String} (h : env.Same others env') (sub : names ⊆ others) :
    env.Same names env' := fun name hname => h name (sub hname)

theorem bind_same (env : Env) (b : Binding) (h : name ∉ names) :
    env.Same names (env.bind name b) := by
  intro other hother
  rw [Env.bind, if_neg (ne_of_mem_of_not_mem hother h)]

/-- What an assignment that is made does. -/
theorem assign_eq_ok {v : Value} {ty : Option Ty} (h : env.assign name v ty = .ok env') :
    ∃ t, (ty <|> (env name).map Binding.ty) = some t ∧ v.ty = t ∧ env' = env.bind name ⟨v, t⟩ := by
  unfold Env.assign Value.check at h
  split at h
  · rename_i t ht
    split at h
    · rename_i same
      cases h
      exact ⟨t, ht, same, rfl⟩
    · cases h
  · cases h

theorem assign_same {v : Value} {ty : Option Ty} (h : env.assign name v ty = .ok env')
    (hname : name ∉ names) : env.Same names env' := by
  obtain ⟨t, _, _, rfl⟩ := assign_eq_ok h
  exact bind_same env _ hname

theorem assign_int {v : Value} (h : env.assign name v (some .int) = .ok env') :
    ∃ n, env' = env.bind name ⟨.int n, .int⟩ := by
  obtain ⟨t, ht, hv, rfl⟩ := assign_eq_ok h
  cases ht
  cases v with
  | int n => exact ⟨n, rfl⟩
  | float | string | bool | array => cases hv

theorem Holds.bind (env : Env) (name : String) (n : Int64) :
    (env.bind name ⟨.int n, .int⟩).Holds name n := if_pos rfl

theorem Holds.bind_ne {other : String} {n : Int64} (h : env.Holds name n) (b : Binding)
    (apart : name ≠ other) : (env.bind other b).Holds name n := by
  rw [Holds, Env.bind, if_neg apart]
  exact h

theorem Holds.assign {n : Int64} (h : env.Holds name n) (m : Int64) :
    env.assign name (.int m) none = .ok (env.bind name ⟨.int m, .int⟩) := by
  unfold Env.assign
  rw [h]
  rfl

theorem Holds.range {n m : Int64} (hn : env.Holds name n) (hm : env.Holds (boundName name) m) :
    env.range name = .ok (n, m) := by
  unfold Env.range Env.int Env.lookup
  rw [hn, hm]
  rfl

/-- Integers have no items, so that an item is assigned to another variable. -/
theorem assignItem_same {i v : Value} (h : env.assignItem name i v = .ok env')
    (counts : env.Counts names) : env.Same names env' := by
  intro other hother
  by_cases same : other = name
  · obtain ⟨n, hn⟩ := counts other hother
    rw [same] at hn
    unfold Env.assignItem Env.items Env.lookup at h
    rw [hn] at h
    cases h
  · unfold Env.assignItem at h
    cases hitems : env.items name with
    | error f =>
      rw [hitems] at h
      cases h
    | ok items =>
      rw [hitems] at h
      change (elementIndex i items.length >>= _) = _ at h
      cases hindex : elementIndex i items.length with
      | error f =>
        rw [hindex] at h
        cases h
      | ok place =>
        rw [hindex] at h
        cases h
        rw [Env.update, if_neg same]

end Env

/-! ## Range loops -/

theorem ne_boundName (name : String) : name ≠ boundName name := by
  intro same
  have length := congrArg String.length same
  rw [boundName, String.length_append] at length
  have : "_end".length = 4 := rfl
  omega

/-- How far two integers are apart. -/
def distance (n m : Int64) : Nat := (n.toInt - m.toInt).natAbs

theorem distance_lt (n m : Int64) : distance n m < 2 ^ 64 := by
  have := n.toInt_lt
  have := n.le_toInt
  have := m.toInt_lt
  have := m.le_toInt
  unfold distance
  omega

theorem distance_stepToward {n m : Int64} (h : n ≠ m) :
    distance (stepToward n m) m + 1 = distance n m := by
  have n_lt := n.toInt_lt
  have le_n := n.le_toInt
  have m_lt := m.toInt_lt
  have le_m := m.le_toInt
  have apart : n.toInt ≠ m.toInt := fun same => h (Int64.toInt_inj.1 same)
  unfold distance stepToward
  split
  · rename_i below
    have below := Int64.lt_iff_toInt_lt.1 below
    have up : (n + 1).toInt = n.toInt + 1 := by
      rw [Int64.toInt_add]
      exact Int.bmod_eq_of_le (by simp; omega) (by simp; omega)
    rw [up]
    omega
  · rename_i notBelow
    have above : m < n := Int64.lt_iff_toInt_lt.2 (by
      have := mt Int64.lt_iff_toInt_lt.2 notBelow
      omega)
    have below := Int64.lt_iff_toInt_lt.1 above
    have down : (n - 1).toInt = n.toInt - 1 := by
      rw [Int64.toInt_sub]
      exact Int.bmod_eq_of_le (by simp; omega) (by simp; omega)
    rw [if_pos above, down]
    omega

namespace Range

variable {name : String} {env : Env} {n m : Int64}

theorem test_ends (pos : Position) (hn : env.Holds name n) (hm : env.Holds (boundName name) m) :
    (test pos name env).Ends fun again => again = true → n ≠ m := by
  unfold test
  rw [hn.range hm]
  exact .pure fun again => of_decide_eq_true again

theorem step_ends (pos : Position) (hn : env.Holds name n) (hm : env.Holds (boundName name) m) :
    (step pos name env).Ends
      fun x => x = .next (env.bind name ⟨.int (stepToward n m), .int⟩) := by
  unfold step
  rw [hn.range hm]
  apply Eval.Ends.bind (.ofExcept (P := fun env' => env' = env.bind name _) _)
  · intro env' same
    rw [same]
    exact .pure rfl
  · intro env' assigned
    rw [hn.assign] at assigned
    exact (Except.ok.inj assigned).symm

/-- A round moves the variable and leaves the bound, if the body leaves both alone. -/
theorem round_ends (pos : Position) {body : Env → Eval Exit} {names : List String}
    (hname : name ∉ names)
    (hbody : (body env).Ends (Exit.Next (env.Same (name :: boundName name :: names))))
    (hn : env.Holds name n) (hm : env.Holds (boundName name) m) :
    (do (← body env).next? (step pos name)).Ends (Exit.Next fun env' =>
      env'.Holds name (stepToward n m) ∧ env'.Holds (boundName name) m ∧ env.Same names env') := by
  apply hbody.bind
  intro x hx
  apply hx.next?
  intro env' same
  have hn' : env'.Holds name n := (same name (by simp)).trans hn
  have hm' : env'.Holds (boundName name) m := (same (boundName name) (by simp)).trans hm
  apply (step_ends pos hn' hm').imp
  rintro _ rfl
  refine ⟨.bind env' name _, ?_, ?_⟩
  · exact hm'.bind_ne _ (ne_boundName name).symm
  · exact (same.of_subset (by simp)).trans (Env.bind_same env' _ hname)

/-- A loop whose body leaves the variable and the bound alone takes no more rounds than they are
apart: each brings them closer by one. -/
theorem rounds_end (pos : Position) {body : Env → Eval Exit} {names : List String}
    (hname : name ∉ names)
    (hbody : ∀ env : Env, env.Counts (name :: boundName name :: names) →
      (body env).Ends (Exit.Next (env.Same (name :: boundName name :: names))))
    {bound : Nat} (hn : env.Holds name n) (hm : env.Holds (boundName name) m)
    (counts : env.Counts names) (enough : distance n m < bound) :
    (rounds (test pos name) (fun env => do (← body env).next? (step pos name)) bound env).Ends
      (Exit.Next (env.Same names)) := by
  induction bound generalizing env n with
  | zero => omega
  | succ bound ih =>
    rw [rounds]
    apply (test_ends pos hn hm).bind
    intro again apart
    cases again with
    | false => exact .pure fun _ _ => rfl
    | true =>
      have all : env.Counts (name :: boundName name :: names) := by
        simp only [Env.Counts, List.forall_mem_cons]
        exact ⟨⟨n, hn⟩, ⟨m, hm⟩, counts⟩
      apply (round_ends pos hname (hbody env all) hn hm).bind
      intro x hx
      apply hx.next?
      intro env' next
      obtain ⟨hn', hm', same⟩ := next
      have closer := distance_stepToward (apart rfl)
      apply (ih hn' hm' (counts.of_same same) (by omega)).imp
      intro y hy
      exact hy.imp fun _ => same.trans

end Range

/-! ## Statements -/

section

variable {call : Calls} {returns : Option Ty} {fuel : Nat}

mutual

/-- A bounded statement ends if the calls in it do, and keeps the integers that nothing in it
assigns. -/
theorem Stmt.exec_ends (enough : 2 ^ 64 ≤ fuel) : ∀ (s : Stmt) {names : List String} {env : Env},
    (∀ c ∈ s.calls, Answers call c.name) → (∀ t ∈ s :: s.inside, t.Leaves names) →
    env.Counts names →
      (s.exec (Expr.valueOnto call) returns fuel env).Ends (Exit.Next (env.Same names))
  | .cond pos test body, names, env, hcalls, hleaves, counts => by
    rw [Stmt.calls] at hcalls
    rw [Stmt.inside] at hleaves
    rw [Stmt.exec]
    apply (test.test_ends pos fun c hc => hcalls c (List.mem_append_left _ hc)).bind
    intro holds _
    cases holds with
    | false => exact .pure fun _ _ => rfl
    | true =>
      exact execBody_ends enough body (fun c hc => hcalls c (List.mem_append_right _ hc))
        (fun t ht => hleaves t (.tail _ ht)) counts
  | .loop .., _, _, _, hleaves, _ => (hleaves _ (.head _)).1.elim
  | .count .., _, _, _, hleaves, _ => (hleaves _ (.head _)).1.elim
  | .range pos first last name body, names, env, hcalls, hleaves, counts => by
    rw [Stmt.calls] at hcalls
    rw [Stmt.inside] at hleaves
    rw [Stmt.exec]
    have first_calls : ∀ c ∈ first.calls, Answers call c.name := fun c hc => hcalls c (by simp [hc])
    have last_calls : ∀ c ∈ last.calls, Answers call c.name := fun c hc => hcalls c (by simp [hc])
    have own := hleaves _ (.head _)
    have hname : name ∉ names := fun hname => own.2 name hname (by simp [Stmt.assigns])
    have hbound : boundName name ∉ names := fun hname => own.2 _ hname (by simp [Stmt.assigns])
    apply (first.needed_ends pos first_calls).bind
    intro v _
    apply Eval.Ends.bind (.ofExcept fun _ => Env.assign_int)
    rintro _ ⟨n, rfl⟩
    apply (last.needed_ends pos last_calls).bind
    intro w _
    apply Eval.Ends.bind (.ofExcept fun _ => Env.assign_int)
    rintro _ ⟨m, rfl⟩
    have same := (Env.bind_same env ⟨.int n, .int⟩ hname).trans
      (Env.bind_same _ ⟨.int m, .int⟩ hbound)
    have hn := (Env.Holds.bind env name n).bind_ne ⟨.int m, .int⟩ (ne_boundName name)
    -- inside the loop its own variable and bound join those that have to stay
    have round : ∀ env : Env, env.Counts (name :: boundName name :: names) →
        (execBody (Expr.valueOnto call) returns fuel body env).Ends
          (Exit.Next (env.Same (name :: boundName name :: names))) := by
      intro env counts
      apply execBody_ends enough body (fun c hc => hcalls c (by simp [hc])) _ counts
      intro t ht
      have inner := hleaves t (.tail _ ht)
      refine ⟨inner.1, ?_⟩
      simp only [List.forall_mem_cons]
      exact ⟨(own.1 t ht).1, (own.1 t ht).2, inner.2⟩
    apply (Range.rounds_end pos hname round hn (.bind _ _ m) (counts.of_same same)
      (Nat.lt_of_lt_of_le (distance_lt n m) enough)).imp
    intro x hx
    exact hx.imp fun _ => same.trans
  | .ret _ none, _, _, _, _, _ => by
    rw [Stmt.exec]
    exact .pure trivial
  | .ret pos (some value), _, _, hcalls, _, _ => by
    rw [Stmt.exec]
    apply (value.needed_ends pos hcalls).bind
    intro v _
    exact .bind (.ofExcept fun _ _ => trivial) fun _ _ => .pure trivial
  | .assignItem pos name index value, names, env, hcalls, _, counts => by
    rw [Stmt.calls] at hcalls
    rw [Stmt.exec]
    apply (index.needed_ends pos fun c hc => hcalls c (List.mem_append_left _ hc)).bind
    intro i _
    apply (value.needed_ends pos fun c hc => hcalls c (List.mem_append_right _ hc)).bind
    intro v _
    apply Eval.Ends.bind (.ofExcept fun env' assigned => Env.assignItem_same assigned counts)
    intro env' same
    exact .pure same
  | .assign pos ty name value, names, env, hcalls, hleaves, _ => by
    rw [Stmt.exec]
    have other : name ∉ names := fun hname => (hleaves _ (.head _)).2 name hname (.head _)
    apply (value.needed_ends pos hcalls).bind
    intro v _
    apply Eval.Ends.bind (.ofExcept fun env' assigned => Env.assign_same assigned other)
    intro env' same
    exact .pure same
  | .call pos site name args, names, env, hcalls, _, _ => by
    rw [Stmt.exec, Eval.discard_bind]
    refine (Expr.valueOnto_ends _ fun c hc => hcalls c ?_).bind fun _ _ => .pure fun _ _ => rfl
    rw [Stmt.calls]
    rwa [Expr.calls] at hc
  | .expr _ value, names, env, hcalls, _, _ => by
    rw [Stmt.exec, Eval.discard_bind]
    exact (value.valueOnto_ends hcalls).bind fun _ _ => .pure fun _ _ => rfl

theorem execBody_ends (enough : 2 ^ 64 ≤ fuel) :
    ∀ (body : List Stmt) {names : List String} {env : Env},
    (∀ c ∈ callsOfBody body, Answers call c.name) → (∀ t ∈ statementsOf body, t.Leaves names) →
    env.Counts names →
      (execBody (Expr.valueOnto call) returns fuel body env).Ends (Exit.Next (env.Same names))
  | [], _, _, _, _, _ => by
    rw [execBody]
    exact .pure fun _ _ => rfl
  | s :: ss, names, env, hcalls, hleaves, counts => by
    rw [callsOfBody] at hcalls
    rw [statementsOf] at hleaves
    rw [execBody]
    apply (Stmt.exec_ends enough s (fun c hc => hcalls c (List.mem_append_left _ hc))
      (fun t ht => hleaves t (List.mem_append_left _ ht)) counts).bind
    intro x hx
    apply hx.next?
    intro env' same
    apply (execBody_ends enough ss (fun c hc => hcalls c (List.mem_append_right _ hc))
      (fun t ht => hleaves t (List.mem_append_right _ ht)) (counts.of_same same)).imp
    intro y hy
    exact hy.imp fun _ => same.trans

end

end

/-! ## Calls without a cycle -/

/-- The function with the one name has a call of the other name in its body. -/
def CallsName (functions : List Function) (caller callee : String) : Prop :=
  ∃ f ∈ functions, f.name = caller ∧ ∃ c ∈ callsOfBody f.body, c.name = callee

/-- No function calls itself, be it through others. -/
def Acyclic (functions : List Function) : Prop :=
  ∀ name, ¬Relation.TransGen (CallsName functions) name name

/-- Functions that only call functions of a lower rank do not come back to themselves. -/
theorem acyclic_of_rank {functions : List Function} (rank : String → Nat)
    (h : ∀ f ∈ functions, ∀ c ∈ callsOfBody f.body, rank c.name < rank f.name) :
    Acyclic functions := by
  have lower {a b : String} (way : Relation.TransGen (CallsName functions) a b) :
      rank b < rank a := by
    induction way with
    | single calls =>
      obtain ⟨f, hf, rfl, c, hc, rfl⟩ := calls
      exact h f hf c hc
    | tail _ calls ih =>
      obtain ⟨f, hf, rfl, c, hc, rfl⟩ := calls
      exact Nat.lt_trans (h f hf c hc) ih
  intro name cycle
  exact Nat.lt_irrefl _ (lower cycle)

section

variable {functions : List Function} {host : Host}

/-- No way leads on from callers to what they call without an end. -/
theorem Acyclic.wellFounded (h : Acyclic functions) :
    WellFounded fun g f : { f // f ∈ functions } => CallsName functions f.1.name g.1.name := by
  let below (g f : { f // f ∈ functions }) : Prop :=
    Relation.TransGen (CallsName functions) f.1.name g.1.name
  have : Std.Irrefl below := ⟨fun f => h f.1.name⟩
  have : IsTrans _ below := ⟨fun _ _ _ first second => second.trans first⟩
  have : Finite { f // f ∈ functions } := List.finite_toSet functions
  exact (Finite.wellFounded_of_trans_of_irrefl below).mono fun _ _ calls => .single calls

theorem askHost_ends (host : Host) (site : Position) (name : String) (args : List Value) :
    (askHost host site name args).Ends fun _ => True := by
  intro c
  unfold askHost
  rcases host.get? name with _ | answer | visit
  · trivial
  · dsimp only
    cases answer ⟨.empty, 0, 0, true⟩ args c <;> trivial
  · trivial

theorem bindParams_ends (params : List Parameter) (args : List Value) (env : Env) :
    (bindParams params args env).Ends fun _ => True := by
  fun_induction bindParams params args env with
  | case1 => exact .pure trivial
  | case2 env p ps v vs ih => exact .bind (.ofExcept fun _ _ => trivial) fun env _ => ih env
  | case3 => exact .fault _ _

/-- Depth and rounds suffice for a call once they suffice for the calls in the function. -/
theorem invoke_ends {f : Function} {fuel : Nat} {name : String}
    (hf : functions.find? (·.name = name) = some f)
    (hcalls : ∀ c ∈ callsOfBody f.body, Answers (invoke Expr.valueOnto functions host fuel) c.name)
    (hbounded : ∀ s ∈ statementsOf f.body, s.Bounded) (enough : 2 ^ 64 ≤ fuel) :
    Answers (invoke Expr.valueOnto functions host (fuel + 1)) name := by
  intro site args
  rw [invoke, hf]
  apply (bindParams_ends f.params args .empty).bind
  intro env _
  have leaves : ∀ s ∈ statementsOf f.body, s.Leaves [] := by
    intro s hs
    exact ⟨hbounded s hs, by simp⟩
  apply (execBody_ends enough f.body hcalls leaves (by simp [Env.Counts])).bind
  intro x _
  cases x with
  | next env => exact .pure trivial
  | returned v => exact .pure trivial

open Filter in
/-- With enough fuel every call ends. -/
theorem eventually_answers (host : Host) (acyclic : Acyclic functions)
    (bounded : ∀ f ∈ functions, ∀ s ∈ statementsOf f.body, s.Bounded) (name : String) :
    ∀ᶠ fuel in atTop, Answers (invoke Expr.valueOnto functions host fuel) name := by
  have unknown {name : String} (h : functions.find? (·.name = name) = none) :
      ∀ᶠ fuel in atTop, Answers (invoke Expr.valueOnto functions host fuel) name := by
    refine eventually_atTop.2 ⟨1, fun fuel positive site args => ?_⟩
    obtain ⟨fuel, rfl⟩ := Nat.exists_eq_add_of_le' positive
    rw [invoke, h]
    exact askHost_ends host site name args
  have known (f : { f // f ∈ functions }) :
      ∀ᶠ fuel in atTop, Answers (invoke Expr.valueOnto functions host fuel) f.1.name := by
    induction f using acyclic.wellFounded.induction with
    | _ f ih =>
      obtain ⟨g, hg⟩ : ∃ g, functions.find? (·.name = f.1.name) = some g := by
        rw [← Option.isSome_iff_exists, List.find?_isSome]
        exact ⟨f.1, f.2, by simp⟩
      have member := List.mem_of_find?_eq_some hg
      have same : g.name = f.1.name := by simpa using List.find?_some hg
      have inner : ∀ c ∈ callsOfBody g.body,
          ∀ᶠ fuel in atTop, Answers (invoke Expr.valueOnto functions host fuel) c.name := by
        intro c hc
        cases callee : functions.find? (·.name = c.name) with
        | none => exact unknown callee
        | some k =>
          have hk : k.name = c.name := by simpa using List.find?_some callee
          rw [← hk]
          exact ih ⟨k, List.mem_of_find?_eq_some callee⟩ ⟨g, member, same, c, hc, hk.symm⟩
      have all := (eventually_all_finite (List.finite_toSet (callsOfBody g.body))).2 inner
      obtain ⟨bound, hbound⟩ := eventually_atTop.1 (all.and (eventually_ge_atTop (2 ^ 64)))
      refine eventually_atTop.2 ⟨bound + 1, fun fuel hfuel => ?_⟩
      obtain ⟨fuel, rfl⟩ := Nat.exists_eq_add_of_le' (Nat.le_trans (Nat.le_add_left 1 bound) hfuel)
      obtain ⟨answers, enough⟩ := hbound fuel (by omega)
      exact invoke_ends hg answers (bounded g member) enough
  cases callee : functions.find? (·.name = name) with
  | none => exact unknown callee
  | some f =>
    have same : f.name = name := by simpa using List.find?_some callee
    rw [← same]
    exact known ⟨f, List.mem_of_find?_eq_some callee⟩

end

theorem Machine.Path.reaches {m : Machine} {console : Console} {s t : State} {n : Nat}
    (hs : m.Reaches console s) (h : m.Path n s t) : m.Reaches console t := by
  induction h with
  | refl => exact hs
  | step _ step _ ih => exact ih (.step hs step)

/-- Without other loops and without recursion, the machine comes to the exit or to a fault. -/
theorem ranges_halt {functions : List Function} {p : Program}
    (h : compile functions Host.standard.contains = .ok p) (acyclic : Acyclic functions)
    (bounded : ∀ f ∈ functions, ∀ s ∈ statementsOf f.body, s.Bounded) (console : Console) :
    let m : Machine := ⟨p, .standard, none⟩
    ∃ n s, m.Path n (m.start console) s ∧ s.running = true ∧
      ((p.code[s.pc]? = some (.plain .exit .none) ∧ ∃ t, m.step s = .ok () t ∧ t.running = false) ∨
        ∃ e t, m.step s = .error e t) := by
  intro m
  have hp : Compiled functions m.host.contains m.program := compiled_of_compile h
  obtain ⟨fuel, answers⟩ := (eventually_answers .standard acyclic bounded "main").exists
  have sim := sim_start hp rfl Host.standard_blind fuel console
  have ends : (evalMain Expr.valueOnto functions m.host fuel).Ends fun _ => True := answers .none []
  cases hx : evalMain Expr.valueOnto functions m.host fuel console with
  | done v c =>
    rw [hx] at sim
    obtain ⟨n, s, path, running, t, step, stops, _⟩ := sim
    have sound := (path.reaches .start).sound hp Host.standard_direct
    have exit := sound.exit_of_stops hp Host.standard_direct running step stops
    exact ⟨n, s, path, running, .inl ⟨exit, t, step, stops⟩⟩
  | fault e c | lacks pos c =>
    rw [hx] at sim
    obtain ⟨n, s, t, path, running, step, _⟩ := sim
    exact ⟨n, s, path, running, .inr ⟨_, t, step⟩⟩
  | exhausted =>
    have ends := ends console
    rw [hx] at ends
    exact ends.elim

/-- Counts down in a function whose loops use the variable of the loop that calls it. -/
def staircase : List Function :=
  [⟨⟨1, 1⟩, "main", [], none,
      [.range ⟨2, 1⟩ (.literal ⟨2, 6⟩ (.int 0)) (.literal ⟨2, 11⟩ (.int 3)) "i"
        [.call ⟨3, 1⟩ ⟨3, 1⟩ "stair" [.var ⟨3, 7⟩ "i"]]]⟩,
    ⟨⟨6, 1⟩, "stair", [⟨⟨6, 7⟩, .int, "n"⟩], none,
      [.range ⟨7, 1⟩ (.var ⟨7, 6⟩ "n") (.literal ⟨7, 11⟩ (.int 0)) "i"
        [.range ⟨8, 1⟩ (.literal ⟨8, 6⟩ (.int 0)) (.var ⟨8, 11⟩ "i") "j"
          [.assign ⟨9, 1⟩ (some .int) "sum"
              (.binary ⟨9, 13⟩ .add (.var ⟨9, 11⟩ "i") (.var ⟨9, 15⟩ "j")),
            .call ⟨10, 1⟩ ⟨10, 1⟩ "out" [.var ⟨10, 5⟩ "sum"]]]]⟩]

theorem ranges_halt_staircase :
    ∃ p, compile staircase Host.standard.contains = .ok p ∧ Acyclic staircase ∧
      (∀ f ∈ staircase, ∀ s ∈ statementsOf f.body, s.Bounded) ∧
      let m : Machine := ⟨p, .standard, none⟩
      ∃ n s, m.Path n (m.start (.ofInput [] none)) s ∧ s.running = true ∧
        ((p.code[s.pc]? = some (.plain .exit .none) ∧
            ∃ t, m.step s = .ok () t ∧ t.running = false) ∨
          ∃ e t, m.step s = .error e t) := by
  obtain ⟨p, hp⟩ : ∃ p, compile staircase Host.standard.contains = .ok p := ⟨_, rfl⟩
  have acyclic : Acyclic staircase :=
    acyclic_of_rank (fun name => if name = "main" then 2 else if name = "stair" then 1 else 0)
      (by decide)
  have bounded : ∀ f ∈ staircase, ∀ s ∈ statementsOf f.body, s.Bounded := by decide
  exact ⟨p, hp, acyclic, bounded, ranges_halt hp acyclic bounded _⟩

end StackScript
