import StackScript.Proofs.Steps
import StackScript.Proofs.Variables

/-!
# Assignments, exactly

* `Scopes.typeFor`: the type that an assigned variable has;
* `Scopes.assign_eq_typeFor`: how an assignment ends, by that type;
* `Scopes.exists_assign_iff`, `Scopes.assign_eq_error_iff`: when it succeeds, and how it fails;
* `Scopes.Rebinds`: one variable of one scope is bound, and `Scopes.rebinds_replace`, which one;
* `Scopes.assign_append_eq`: an assignment over a final scope is the same whatever lies below;
* `assignment_exact`: all this of every assignment, and what is found behind it.
-/

namespace StackScript

namespace Scopes

variable {ss ss' : Scopes} {name : String} {v : Value} {b : Binding}

/-! ## What is found behind a change -/

theorem get?_replace (b : Binding) (other : String) (h : (ss.get? name).isSome = true) :
    (ss.replace name b).get? other = if other = name then some b else ss.get? other := by
  induction ss with
  | nil => cases h
  | cons s rest ih =>
    unfold replace
    cases own : s.get? name with
    | some old =>
      have replaced := lookup_replace s.vars name b other
      rw [show s.vars.lookup name = some old from own] at replaced
      rw [Option.isSome_some, if_pos rfl, get?, Scope.get?, Scope.replace, replaced]
      by_cases same : other = name
      · simp [same]
      · simp [same, get?, Scope.get?]
    | none =>
      cases final : s.final with
      | true => simp [get?, own, final] at h
      | false =>
        have inner : (get? rest name).isSome = true := by simpa [get?, own, final] using h
        simp only [Option.isSome_none, Bool.false_eq_true, if_false, get?, final, ih inner]
        by_cases same : other = name
        · simp [same, own]
        · simp [same]

theorem get?_declare (h : ss.declare name b = .ok ss') (other : String) :
    ss'.get? other = if other = name then some b else ss.get? other := by
  cases ss with
  | nil => cases h
  | cons s rest =>
    cases h
    rw [get?, Scope.get?, Scope.declare]
    dsimp only
    rw [lookup_cons_ite]
    by_cases same : other = name
    · rw [if_pos same, if_pos same]
    · rw [if_neg same, if_neg same]
      rfl

/-! ## How an assignment ends -/

/-- The type of a variable once it is assigned: the one that is given, or else its own. -/
def typeFor (ss : Scopes) (name : String) (ty : Option Ty) : Option Ty :=
  ty <|> (ss.get? name).map Binding.ty

theorem assign_eq_typeFor (ss : Scopes) (name : String) (v : Value) (ty : Option Ty) :
    ss.assign name v ty = match ss.typeFor name ty with
      | none => .error (.undeclaredVariable name)
      | some wanted =>
        if v.ty = wanted then
          if (ss.get? name).isSome then .ok (ss.replace name ⟨v, wanted⟩)
          else ss.declare name ⟨v, wanted⟩
        else .error (.typeMismatch wanted v.ty) := by
  rw [assign_eq]
  unfold typeFor Value.check
  cases ss.get? name with
  | some old =>
    cases ty with
    | none =>
      by_cases fits : v.ty = old.ty <;>
        simp [fits, bind, Except.bind, pure, Except.pure]
    | some ty =>
      by_cases fits : v.ty = ty <;> simp [fits, bind, Except.bind, pure, Except.pure]
  | none =>
    cases ty with
    | none => rfl
    | some ty => by_cases fits : v.ty = ty <;> simp [fits, bind, Except.bind]

theorem assigning_eq_ok_iff {ty : Option Ty} :
    assigning name v ty ss = .ok () ss' ↔ ss.assign name v ty = .ok ss' := by
  rw [assigning_eq_assign]
  cases ss.assign name v ty <;> simp

theorem assigning_eq_error_iff {ty : Option Ty} {f : Fault} :
    assigning name v ty ss = .error f ss' ↔ ss.assign name v ty = .error f ∧ ss' = ss := by
  rw [assigning_eq_assign]
  cases ss.assign name v ty <;> simp [eq_comm]

theorem declare_eq_error_iff {f : Fault} :
    ss.declare name b = .error f ↔ ss = [] ∧ f = .noActiveScope := by
  cases ss with
  | nil => simp [declare, eq_comm]
  | cons s rest => simp [declare]

theorem typeFor_eq_none_iff {ty : Option Ty} :
    ss.typeFor name ty = none ↔ ss.get? name = none ∧ ty = none := by
  cases ty <;> simp [typeFor]

/-- Where no variable is visible, the type that is given counts. -/
theorem typeFor_of_hidden {ty : Option Ty} (hidden : ss.get? name = none) :
    ss.typeFor name ty = ty := by
  simp [typeFor, hidden]

theorem typeFor_of_visible {ty : Option Ty} (visible : ss.get? name = some b) :
    ss.typeFor name ty = some (ty.getD b.ty) := by
  cases ty <;> simp [typeFor, visible]

theorem assign_eq_ok_iff {ty : Option Ty} : ss.assign name v ty = .ok ss' ↔
    ss.typeFor name ty = some v.ty ∧
      (((ss.get? name).isSome = true ∧ ss' = ss.replace name ⟨v, v.ty⟩) ∨
        (ss.get? name = none ∧ ss.declare name ⟨v, v.ty⟩ = .ok ss')) := by
  rw [assign_eq_typeFor]
  cases ss.typeFor name ty with
  | none => simp
  | some wanted =>
    by_cases fits : v.ty = wanted
    · subst fits
      cases ss.get? name <;> simp [eq_comm]
    · simp [fits, Ne.symm fits]

theorem assign_eq_error_iff {ty : Option Ty} {f : Fault} : ss.assign name v ty = .error f ↔
    (ss.get? name = none ∧ ty = none ∧ f = .undeclaredVariable name) ∨
      (∃ wanted, ss.typeFor name ty = some wanted ∧ v.ty ≠ wanted ∧
        f = .typeMismatch wanted v.ty) ∨
      (ss = [] ∧ ty = some v.ty ∧ f = .noActiveScope) := by
  rw [assign_eq_typeFor, ← and_assoc, ← typeFor_eq_none_iff]
  cases hw : ss.typeFor name ty with
  | none =>
    have untyped : ty = none := (typeFor_eq_none_iff.1 hw).2
    simp [untyped, eq_comm]
  | some wanted =>
    by_cases fits : v.ty = wanted
    · subst fits
      cases hn : ss.get? name with
      | some old =>
        have inside : ss ≠ [] := by
          rintro rfl
          cases hn
        simp [inside]
      | none =>
        have given : ty = some v.ty := (typeFor_of_hidden hn).symm.trans hw
        simp [given, declare_eq_error_iff]
    · have given : ss = [] → ty ≠ some v.ty := by
        rintro rfl rfl
        exact fits (Option.some.inj hw)
      simp only [if_neg fits, Except.error.injEq]
      grind

/-- An assignment succeeds where the value has the type that the variable keeps or gets. A new
variable needs a type and a scope. -/
theorem exists_assign_iff {ty : Option Ty} : (∃ ss', ss.assign name v ty = .ok ss') ↔
    (∃ b, ss.get? name = some b ∧ v.ty = ty.getD b.ty) ∨
      (ss.get? name = none ∧ ty = some v.ty ∧ ss ≠ []) := by
  simp only [assign_eq_ok_iff]
  cases hn : ss.get? name with
  | some old => simp [typeFor_of_visible hn, eq_comm]
  | none =>
    rw [typeFor_of_hidden hn]
    cases ss with
    | nil => simp [declare]
    | cons s rest => simp [declare]

/-- An assignment of another value is to a variable of its type. -/
theorem assign_none (h : ss.assign name v none = .ok ss') : ∃ old,
    ss.get? name = some old ∧ v.ty = old.ty ∧ ss' = ss.replace name ⟨v, old.ty⟩ := by
  obtain ⟨wanted, ⟨visible, rfl⟩ | ⟨hidden, -⟩⟩ := assign_eq_ok_iff.1 h
  · obtain ⟨old, hn⟩ := Option.isSome_iff_exists.1 visible
    rw [typeFor_of_visible hn, Option.getD_none, Option.some.injEq] at wanted
    exact ⟨old, hn, wanted.symm, by rw [wanted]⟩
  · rw [typeFor_of_hidden hidden] at wanted
    cases wanted

/-- Where there is a scope, a value is assigned with its type. -/
theorem exists_assign (scope : Scope) (rest : Scopes) (name : String) (v : Value) :
    ∃ ss', assign (scope :: rest) name v (some v.ty) = .ok ss' := by
  rw [exists_assign_iff]
  cases get? (scope :: rest) name <;> simp

/-- An assignment changes one variable. -/
theorem get?_assign {ty : Option Ty} (h : ss.assign name v ty = .ok ss') (other : String) :
    ss'.get? other = if other = name then some ⟨v, v.ty⟩ else ss.get? other := by
  obtain ⟨-, ⟨visible, rfl⟩ | ⟨-, declared⟩⟩ := assign_eq_ok_iff.1 h
  · exact get?_replace _ _ visible
  · exact get?_declare declared other

/-! ## What an assignment changes -/

/-- One variable of the scope behind `front` is bound, and nothing else is changed. -/
structure Rebinds (name : String) (b : Binding) (ss ss' front : Scopes) (old new : Scope)
    (outer : Scopes) : Prop where
  before : ss = front ++ old :: outer
  behind : ss' = front ++ new :: outer
  stack : new.stack = old.stack
  final : new.final = old.final
  get? : ∀ other, new.get? other = if other = name then some b else old.get? other

/-- The binding of a visible name is in the first scope that has one, with no final scope in front
of it. -/
theorem rebinds_replace {found : Binding} (visible : ss.get? name = some found) (b : Binding) :
    ∃ front old new outer, Rebinds name b ss (ss.replace name b) front old new outer ∧
      old.get? name = some found ∧ ∀ s ∈ front, s.final = false ∧ s.get? name = none := by
  induction ss with
  | nil => cases visible
  | cons s rest ih =>
    unfold get? at visible
    unfold replace
    cases own : s.get? name with
    | some held =>
      obtain rfl : held = found := by simpa [own] using visible
      refine ⟨[], s, s.replace name b, rest, ⟨rfl, rfl, rfl, rfl, fun other => ?_⟩, own, by simp⟩
      have replaced := lookup_replace s.vars name b other
      rw [show s.vars.lookup name = some held from own] at replaced
      exact replaced
    | none =>
      cases final : s.final with
      | true => simp [own, final] at visible
      | false =>
        obtain ⟨front, old, new, outer, rebinds, holds, passed⟩ :=
          ih (by simpa [own, final] using visible)
        refine ⟨s :: front, old, new, outer, ?_, holds, ?_⟩
        · exact { rebinds with
            before := congrArg (s :: ·) rebinds.before
            behind := congrArg (s :: ·) rebinds.behind }
        · exact List.forall_mem_cons.2 ⟨⟨final, own⟩, passed⟩

theorem rebinds_declare (declared : ss.declare name b = .ok ss') :
    ∃ old new outer, Rebinds name b ss ss' [] old new outer := by
  cases ss with
  | nil => cases declared
  | cons s rest =>
    cases declared
    exact ⟨s, s.declare name b, rest, rfl, rfl, rfl, rfl, lookup_cons_ite name b s.vars⟩

/-! ## Scopes up to a final one -/

variable {own : Scopes}

theorem get?_append (h : true ∈ own.map Scope.final) (below : Scopes)
    (name : String) : get? (own ++ below) name = get? own name := by
  induction own with
  | nil => cases h
  | cons s own ih =>
    simp only [List.cons_append, get?]
    cases s.get? name with
    | some b => rfl
    | none =>
      cases hs : s.final with
      | true => rfl
      | false =>
        have rest : true ∈ own.map Scope.final := by simpa [hs] using h
        simpa using ih rest

theorem replace_append (h : true ∈ own.map Scope.final) (below : Scopes)
    (name : String) (b : Binding) :
    replace (own ++ below) name b = replace own name b ++ below := by
  induction own with
  | nil => cases h
  | cons s own ih =>
    simp only [List.cons_append, replace]
    cases (s.get? name).isSome with
    | true => rfl
    | false =>
      cases hs : s.final with
      | true => rfl
      | false =>
        have rest : true ∈ own.map Scope.final := by simpa [hs] using h
        simpa using ih rest

theorem map_final_replace (ss : Scopes) (name : String) (b : Binding) :
    (replace ss name b).map Scope.final = ss.map Scope.final := by
  induction ss with
  | nil => rfl
  | cons s ss ih =>
    simp only [replace]
    split
    · rfl
    · split
      · rfl
      · rw [List.map_cons, List.map_cons, ih]

theorem map_final_assign {ty : Option Ty} (h : ss.assign name v ty = .ok ss') :
    ss'.map Scope.final = ss.map Scope.final := by
  obtain ⟨-, ⟨-, rfl⟩ | ⟨-, declared⟩⟩ := assign_eq_ok_iff.1 h
  · exact map_final_replace ss name _
  · obtain ⟨old, new, outer, rebinds⟩ := rebinds_declare declared
    simp [rebinds.before, rebinds.behind, rebinds.final]

theorem map_final_setItems (ss : Scopes) (name : String) (items : List Value) :
    (ss.setItems name items).map Scope.final = ss.map Scope.final := by
  unfold setItems
  cases ss.get? name with
  | some b => exact map_final_replace ss name _
  | none => rfl

theorem lookup_append (h : true ∈ own.map Scope.final) (below : Scopes) (name : String) :
    lookup (own ++ below) name = lookup own name := by
  rw [lookup, get?_append h, lookup]

theorem items_append (h : true ∈ own.map Scope.final) (below : Scopes) (name : String) :
    items (own ++ below) name = items own name := by
  rw [items, get?_append h, items]

theorem assign_append_eq (h : true ∈ own.map Scope.final) (below : Scopes) (name : String)
    (v : Value) (ty : Option Ty) :
    assign (own ++ below) name v ty = (assign own name v ty).map (· ++ below) := by
  simp only [assign_eq_typeFor, typeFor, get?_append h, replace_append h]
  cases ty <|> (get? own name).map Binding.ty with
  | none => rfl
  | some wanted =>
    by_cases fits : v.ty = wanted
    · subst fits
      cases own with
      | nil => cases h
      | cons s own => cases get? (s :: own) name <;> simp [declare, Except.map]
    · simp [fits, Except.map]

theorem setItems_append_eq (h : true ∈ own.map Scope.final) (below : Scopes) (name : String)
    (items : List Value) :
    setItems (own ++ below) name items = setItems own name items ++ below := by
  unfold setItems
  rw [get?_append h]
  cases get? own name with
  | some b => exact replace_append h below name _
  | none => rfl

end Scopes

/-- An assignment succeeds exactly where the value has the type that the variable keeps or gets,
fails in one of three ways and then leaves the scopes as they were, and otherwise binds one
variable: the innermost visible one of its name, or else a new one of the innermost scope. -/
theorem assignment_exact (ss : Scopes) (name : String) (v : Value) (ty : Option Ty) :
    ((∃ ss', Scopes.assigning name v ty ss = .ok () ss') ↔
      (∃ b, ss.get? name = some b ∧ v.ty = ty.getD b.ty) ∨
        (ss.get? name = none ∧ ty = some v.ty ∧ ss ≠ [])) ∧
    (∀ f, (∃ ss', Scopes.assigning name v ty ss = .error f ss') ↔
      (ss.get? name = none ∧ ty = none ∧ f = .undeclaredVariable name) ∨
        (∃ wanted, ss.typeFor name ty = some wanted ∧ v.ty ≠ wanted ∧
          f = .typeMismatch wanted v.ty) ∨
        (ss = [] ∧ ty = some v.ty ∧ f = .noActiveScope)) ∧
    (∀ f ss', Scopes.assigning name v ty ss = .error f ss' → ss' = ss ∧
      ∀ s : State, s.scopes = ss → Exec.assign name v ty s = .error f s) ∧
    ∀ ss', Scopes.assigning name v ty ss = .ok () ss' → ∃ front old new outer,
      ss.Rebinds name ⟨v, v.ty⟩ ss' front old new outer ∧
      ((∃ b, ss.get? name = some b ∧ old.get? name = some b ∧
          ∀ s ∈ front, s.final = false ∧ s.get? name = none) ∨
        (ss.get? name = none ∧ front = [])) ∧
      ss.typeFor name ty = some v.ty ∧ ss'.get? name = some ⟨v, v.ty⟩ ∧
      (∀ other, other ≠ name → ss'.get? other = ss.get? other) ∧
      ∀ inner rest, ss'.close = .ok (inner, rest) → front ≠ [] →
        inner.final = false ∧ rest.get? name = some ⟨v, v.ty⟩ := by
  refine ⟨?_, fun f => ?_, fun f ss' failed => ?_, fun ss' run => ?_⟩
  · simp only [Scopes.assigning_eq_ok_iff]
    exact Scopes.exists_assign_iff
  · simp only [Scopes.assigning_eq_error_iff, exists_and_left, exists_eq, and_true]
    exact Scopes.assign_eq_error_iff
  · obtain ⟨failed, rfl⟩ := Scopes.assigning_eq_error_iff.1 failed
    refine ⟨rfl, fun s hs => ?_⟩
    rw [Exec.run_assign, hs, failed]
  · have assigned := Scopes.assigning_eq_ok_iff.1 run
    have get := Scopes.get?_assign assigned
    have found : ss'.get? name = some ⟨v, v.ty⟩ := by rw [get, if_pos rfl]
    have others : ∀ other, other ≠ name → ss'.get? other = ss.get? other := fun other differs => by
      rw [get, if_neg differs]
    obtain ⟨wanted, ⟨visible, eq⟩ | ⟨hidden, declared⟩⟩ := Scopes.assign_eq_ok_iff.1 assigned
    · obtain ⟨b, hb⟩ := Option.isSome_iff_exists.1 visible
      obtain ⟨front, old, new, outer, rebinds, holds, passed⟩ :=
        Scopes.rebinds_replace hb ⟨v, v.ty⟩
      rw [← eq] at rebinds
      refine ⟨front, old, new, outer, rebinds, .inl ⟨b, hb, holds, passed⟩, wanted, found, others,
        fun inner rest closed enclosed => ?_⟩
      -- The innermost scope has no variable of this name, so what is found is found without it.
      obtain ⟨s, front, rfl⟩ := List.exists_cons_of_ne_nil enclosed
      obtain ⟨final, own⟩ := passed s (.head _)
      rw [rebinds.behind] at closed found
      cases closed
      exact ⟨final, by simpa [Scopes.get?, own, final] using found⟩
    · obtain ⟨old, new, outer, rebinds⟩ := Scopes.rebinds_declare declared
      exact ⟨[], old, new, outer, rebinds, .inr ⟨hidden, rfl⟩, wanted, found, others,
        fun _ _ _ enclosed => absurd rfl enclosed⟩

/-- The same name in two scopes of a call, and another one in the scopes of its caller. -/
def shadowing : Scopes :=
  [⟨[.int 1], [("y", ⟨.bool true, .bool⟩)], false⟩, ⟨[], [("x", ⟨.int 1, .int⟩)], false⟩,
    ⟨[.int 2], [("x", ⟨.int 2, .int⟩)], true⟩, ⟨[], [("z", ⟨.int 3, .int⟩)], true⟩]

theorem assignment_exact_shadowing :
    (∃ ss' inner rest,
      Scopes.assigning "x" (.string "one") (some .string) shadowing = .ok () ss' ∧
      ss'.get? "x" = some ⟨.string "one", .string⟩ ∧
      (∀ other, other ≠ "x" → ss'.get? other = shadowing.get? other) ∧
      ss'.close = .ok (inner, rest) ∧ rest.get? "x" = some ⟨.string "one", .string⟩) ∧
    (∃ ss', Scopes.assigning "z" (.int 4) none shadowing =
      .error (.undeclaredVariable "z") ss' ∧ ss' = shadowing) ∧
    ∃ ss', Scopes.assigning "x" (.string "one") none shadowing =
      .error (.typeMismatch .int .string) ss' ∧ ss' = shadowing := by
  obtain ⟨succeeds, -, -, behind⟩ := assignment_exact shadowing "x" (.string "one") (some .string)
  obtain ⟨-, undeclared, kept, -⟩ := assignment_exact shadowing "z" (.int 4) none
  obtain ⟨-, mismatched, kept', -⟩ := assignment_exact shadowing "x" (.string "one") none
  obtain ⟨ss', assigned⟩ := succeeds.2 (.inl ⟨_, rfl, rfl⟩)
  obtain ⟨ss₁, failed⟩ := (undeclared _).2 (.inl ⟨rfl, rfl, rfl⟩)
  obtain ⟨ss₂, failed'⟩ := (mismatched _).2 (.inr (.inl ⟨.int, rfl, nofun, rfl⟩))
  refine ⟨?_, ⟨ss₁, failed, (kept _ _ failed).1⟩, ⟨ss₂, failed', (kept' _ _ failed').1⟩⟩
  obtain ⟨front, old, new, outer, rebinds, ⟨b, hb, holds, -⟩ | ⟨hidden, -⟩, -, found, others,
    closed⟩ := behind ss' assigned
  · cases assigned
    refine ⟨_, _, _, rfl, found, others, rfl, (closed _ _ rfl ?_).2⟩
    rintro rfl
    cases rebinds.before
    cases holds
  · cases hidden

end StackScript
