import StackScript.Proofs.Meaning

/-!
# Variables in scopes

* `Shows`: the variables of a final scope are those of the evaluator;
* `Sees`: code in a scope finds the variables of the evaluator;
* `Shows.assign_ok`, `Shows.setItems`: what changes them on one side changes them on the other.
-/

namespace StackScript

/-- The variables of a scope, as the evaluator has them. -/
def Shows (vars : List (String × Binding)) (env : Env) : Prop :=
  ∀ name, vars.lookup name = env name

/-- The variables that code in a scope can see. Its stack does not matter. -/
def Sees (vars : List (String × Binding)) (final : Bool) (rest : Scopes) (env : Env) : Prop :=
  ∀ stack name, Scopes.get? (⟨stack, vars, final⟩ :: rest) name = env name

variable {vars : List (String × Binding)} {final : Bool} {rest : Scopes} {env : Env}

theorem shows_empty : Shows [] .empty := fun _ => rfl

theorem Shows.sees (h : Shows vars env) (rest : Scopes) : Sees vars true rest env := by
  intro stack name
  simp only [Scopes.get?, Scope.get?, h name]
  cases env name <;> rfl

theorem Sees.opened (h : Sees vars final rest env) (stack : List Value) :
    Sees [] false (⟨stack, vars, final⟩ :: rest) env := by
  intro stack' name
  rw [← h stack name]
  rfl

theorem Sees.lookup (h : Sees vars final rest env) (stack : List Value) (name : String) :
    Scopes.lookup (⟨stack, vars, final⟩ :: rest) name = env.lookup name := by
  cases he : env name <;> simp [Scopes.lookup, Env.lookup, h stack name, he]

theorem Sees.items (h : Sees vars final rest env) (stack : List Value) (name : String) :
    Scopes.items (⟨stack, vars, final⟩ :: rest) name = env.items name := by
  rw [Scopes.items, Env.items, Env.lookup, h stack name]
  rcases env name with _ | ⟨v, ty⟩
  · rfl
  · cases v <;> rfl

theorem lookup_cons_ite (key : String) (b : Binding) (vars : List (String × Binding))
    (name : String) :
    ((key, b) :: vars).lookup name = if name = key then some b else vars.lookup name := by
  rw [List.lookup_cons]
  by_cases h : name = key
  · rw [if_pos h, beq_iff_eq.2 h]
  · rw [if_neg h, beq_false_of_ne h]

theorem lookup_replace (vars : List (String × Binding)) (name : String) (b : Binding)
    (other : String) :
    (vars.map fun v => if v.1 = name then (name, b) else v).lookup other =
      if other = name then (vars.lookup name).map fun _ => b else vars.lookup other := by
  induction vars with
  | nil => split <;> rfl
  | cons v vars ih =>
    obtain ⟨key, binding⟩ := v
    rw [List.map_cons]
    by_cases hk : key = name
    · subst hk
      by_cases ho : other = key
      · simp [ho]
      · simp [lookup_cons_ite, ho, ih]
    · by_cases ho : other = name
      · subst ho
        simp [lookup_cons_ite, hk, Ne.symm hk, ih]
      · simp [lookup_cons_ite, hk, ho, ih]

theorem Shows.bind (h : Shows vars env) (name : String) (b : Binding) :
    Shows ((name, b) :: vars) (env.bind name b) := by
  intro other
  rw [lookup_cons_ite, Env.bind, h other]

theorem Shows.replace (h : Shows vars env) {name : String} {old : Binding}
    (hn : env name = some old) (b : Binding) :
    Shows (vars.map fun v => if v.1 = name then (name, b) else v) (env.bind name b) := by
  intro other
  rw [lookup_replace, Env.bind, h name, hn, h other]
  rfl

/-- An assignment changes the variables of a final scope, and does so as it changes those of the
evaluator. -/
theorem Shows.assign (h : Shows vars env) (name : String) (v : Value) (ty : Option Ty)
    (stack : List Value) (rest : Scopes) :
    ∃ bound : Binding → List (String × Binding), (∀ b, Shows (bound b) (env.bind name b)) ∧
      Scopes.assign (⟨stack, vars, true⟩ :: rest) name v ty =
        match ty <|> (env name).map Binding.ty with
        | some ty => do
          v.check ty
          return ⟨stack, bound ⟨v, ty⟩, true⟩ :: rest
        | none => .error (.undeclaredVariable name) := by
  have get := h.sees rest stack name
  cases hn : env name with
  | none =>
    refine ⟨fun b => (name, b) :: vars, h.bind name, ?_⟩
    rw [Scopes.assign_eq]
    rw [get, hn]
    cases ty <;> rfl
  | some old =>
    refine ⟨fun b => vars.map fun v => if v.1 = name then (name, b) else v, h.replace hn, ?_⟩
    have replaced (b : Binding) : Scopes.replace (⟨stack, vars, true⟩ :: rest) name b =
        ⟨stack, vars.map fun v => if v.1 = name then (name, b) else v, true⟩ :: rest := by
      simp [Scopes.replace, Scope.get?, Scope.replace, h name, hn]
    rw [Scopes.assign_eq]
    rw [get, hn]
    simp only [replaced]
    cases ty <;> rfl

theorem Shows.assign_ok (h : Shows vars env) {name : String} {v : Value} {ty : Option Ty}
    {env' : Env} (he : env.assign name v ty = .ok env') (stack : List Value) (rest : Scopes) :
    ∃ vars', Shows vars' env' ∧
      Scopes.assign (⟨stack, vars, true⟩ :: rest) name v ty =
        .ok (⟨stack, vars', true⟩ :: rest) := by
  obtain ⟨bound, shows, eq⟩ := h.assign name v ty stack rest
  rw [eq]
  rw [Env.assign] at he
  cases ht : ty <|> (env name).map Binding.ty with
  | none => simp [ht] at he
  | some ty =>
    simp only [ht] at he ⊢
    cases hc : v.check ty with
    | error f => rw [hc] at he; cases he
    | ok _ =>
      rw [hc] at he
      cases he
      exact ⟨_, shows _, rfl⟩

theorem Shows.assign_error (h : Shows vars env) {name : String} {v : Value} {ty : Option Ty}
    {f : Fault} (he : env.assign name v ty = .error f) (stack : List Value) (rest : Scopes) :
    Scopes.assign (⟨stack, vars, true⟩ :: rest) name v ty = .error f := by
  obtain ⟨bound, _, eq⟩ := h.assign name v ty stack rest
  rw [eq]
  rw [Env.assign] at he
  cases ht : ty <|> (env name).map Binding.ty with
  | none => simpa [ht] using he
  | some ty =>
    simp only [ht] at he ⊢
    cases hc : v.check ty with
    | error f => rw [hc] at he; cases he; rfl
    | ok _ => rw [hc] at he; cases he

/-- Other items change an array where it is. -/
theorem Shows.setItems (h : Shows vars env) {name : String} {old : Binding}
    (hn : env name = some old) (items : List Value) (stack : List Value) (rest : Scopes) :
    ∃ vars', Shows vars' (env.update name (.array items)) ∧
      Scopes.setItems (⟨stack, vars, true⟩ :: rest) name items = ⟨stack, vars', true⟩ :: rest := by
  have update :
      env.update name (.array items) = env.bind name { old with value := .array items } := by
    funext other
    simp only [Env.update, Env.bind, hn]
    rfl
  refine ⟨vars.map fun v => if v.1 = name then (name, { old with value := .array items }) else v,
    update ▸ h.replace hn _, ?_⟩
  rw [Scopes.setItems, h.sees rest stack name, hn]
  simp [Scopes.replace, Scope.get?, Scope.replace, h name, hn]

end StackScript
