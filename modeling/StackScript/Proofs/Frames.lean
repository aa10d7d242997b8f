import StackScript.Proofs.Assignment
import StackScript.Proofs.Shape

/-!
# What instructions do to the call on top

* `Fault.Internal`: the faults of a machine whose code does not fit together;
* `Exec.Safe`: a move raises none of them, and what it leaves;
* `State.Holds`: the call on top holds what its shape says, over scopes and arguments that are not
  its own;
* `Holds.execute`: an instruction keeps to that.
-/

namespace StackScript

/-- Faults that are no fault of the program. -/
def Fault.Internal : Fault → Prop
  | unresolvedLabel _ | missingArgument _ | unexpectedReturn | noActiveScope => True
  | _ => False

instance : DecidablePred Fault.Internal := fun f => by
  cases f <;> first | exact instDecidableTrue | exact instDecidableFalse

namespace Exec

variable {α β : Type} {s : State}

/-- From `s`, a move raises no internal fault, and `Q` holds of what it gives and leaves. -/
def Safe (x : Exec α) (s : State) (Q : α → State → Prop) : Prop :=
  match x s with
  | .ok a t => Q a t
  | .error f _ => ¬f.Internal

namespace Safe

variable {Q : α → State → Prop} {R : β → State → Prop}

theorem of_eq_ok {x : Exec α} {a : α} {t : State} (h : x s = .ok a t) (hq : Q a t) :
    x.Safe s Q := by
  rw [Safe, h]
  exact hq

theorem of_eq_error {x : Exec α} {f : Fault} {t : State} (h : x s = .error f t)
    (hf : ¬f.Internal) : x.Safe s Q := by
  rw [Safe, h]
  exact hf

theorem of_run_eq {x y : Exec α} {t : State} (h : x s = y t) (hy : y.Safe t Q) : x.Safe s Q := by
  rw [Safe, h]
  exact hy

theorem pure {a : α} (h : Q a s) : (pure a : Exec α).Safe s Q := h

theorem throw {f : Fault} (hf : ¬f.Internal) : (throw f : Exec α).Safe s Q := hf

theorem bind {x : Exec α} {f : α → Exec β} (h : x.Safe s Q)
    (hf : ∀ a t, Q a t → (f a).Safe t R) : (x >>= f).Safe s R := by
  unfold Safe at h ⊢
  rw [run_bind]
  cases hx : x s with
  | ok a t =>
    rw [hx] at h
    exact hf a t h
  | error e t =>
    rw [hx] at h
    exact h

theorem imp {Q' : α → State → Prop} {x : Exec α} (h : x.Safe s Q)
    (hQ : ∀ a t, Q a t → Q' a t) : x.Safe s Q' := by
  unfold Safe at h ⊢
  cases hx : x s with
  | ok a t =>
    rw [hx] at h
    exact hQ a t h
  | error e t =>
    rw [hx] at h
    exact h

theorem get_bind {f : State → Exec β} (h : (f s).Safe s R) : (get >>= f).Safe s R := h

end Safe

end Exec

/-! ## Scopes up to a final one -/

namespace Scopes

/-- An assignment stays above the next final scope. -/
theorem assign_append {own : Scopes} (h : true ∈ own.map Scope.final) (below : Scopes)
    (name : String) (v : Value) (ty : Option Ty) :
    match assign (own ++ below) name v ty with
    | .ok scopes => ∃ own', scopes = own' ++ below ∧ own'.map Scope.final = own.map Scope.final
    | .error f => ¬f.Internal := by
  rw [assign_append_eq h]
  cases assigned : assign own name v ty with
  | ok own' => exact ⟨own', rfl, map_final_assign assigned⟩
  | error f =>
    obtain ⟨-, -, rfl⟩ | ⟨wanted, -, -, rfl⟩ | ⟨rfl, -⟩ := assign_eq_error_iff.1 assigned
    · exact id
    · exact id
    · cases h

theorem setItems_append {own : Scopes} (h : true ∈ own.map Scope.final) (below : Scopes)
    (name : String) (items : List Value) :
    ∃ own', setItems (own ++ below) name items = own' ++ below ∧
      own'.map Scope.final = own.map Scope.final :=
  ⟨_, setItems_append_eq h below name items, map_final_setItems own name items⟩

theorem lookup_error {ss : Scopes} {name : String} {f : Fault} (h : ss.lookup name = .error f) :
    ¬f.Internal := by
  unfold lookup at h
  split at h <;> cases h
  exact id

theorem items_error {ss : Scopes} {name : String} {f : Fault} (h : ss.items name = .error f) :
    ¬f.Internal := by
  unfold items at h
  split at h <;> cases h <;> exact id

end Scopes

theorem elementIndex_error {v : Value} {length : Nat} {f : Fault}
    (h : elementIndex v length = .error f) : ¬f.Internal := by
  unfold elementIndex at h
  split at h
  · split at h <;> cases h
    exact id
  · cases h
    exact id

theorem Integer.toValue_error {n : Int} {f : Fault} (h : Integer.toValue n = .error f) :
    ¬f.Internal := by
  unfold Integer.toValue at h
  split at h <;> cases h
  exact id

theorem Operator.apply_error {op : Operator} {l r : Value} {f : Fault}
    (h : op.apply l r = .error f) : ¬f.Internal := by
  unfold Operator.apply at h
  split at h
  · unfold Operator.onIntegers at h
    split at h <;> try exact Integer.toValue_error h
    · split at h
      · cases h
        exact id
      · exact Integer.toValue_error h
    all_goals cases h
  · cases h
    exact id
  · cases h
    exact id

/-! ## The call on top -/

/-- The call on top is at `pc` and has this shape. Below it are calls, scopes and waiting arguments
that are not its own. -/
structure State.Holds (s : State) (pc : Nat) (sh : Shape) (calls : List Frame) (below : Scopes)
    (kept : List Value) : Prop where
  running : s.running = true
  pc : s.pc = pc
  calls : s.calls = calls
  scopes : ∃ own, s.scopes = own ++ below ∧
    own.map Scope.final = List.replicate sh.scopes false ++ [true]
  waiting : ∃ args, s.waiting = args ++ kept ∧ args.length = sh.waiting
  incoming : s.incoming.length = sh.incoming

namespace State.Holds

variable {s : State} {pc : Nat} {sh : Shape} {calls : List Frame} {below : Scopes}
  {kept : List Value}

/-- Moves that keep the final flags of the scopes keep the shape. -/
theorem set_scopes {own own' : Scopes} (hs : s.Holds pc sh calls below kept)
    (eq : s.scopes = own ++ below) (same : own'.map Scope.final = own.map Scope.final) :
    { s with scopes := own' ++ below }.Holds pc sh calls below kept := by
  obtain ⟨own₀, eq₀, finals⟩ := hs.scopes
  obtain rfl : own = own₀ := List.append_cancel_right (eq.symm.trans eq₀)
  exact { hs with scopes := ⟨own', rfl, same.trans finals⟩ }

theorem own_cons (hs : s.Holds pc sh calls below kept) :
    ∃ scope own, s.scopes = scope :: own ++ below := by
  obtain ⟨own, eq, finals⟩ := hs.scopes
  cases own with
  | nil => cases hn : sh.scopes <;> simp [hn, List.replicate_succ] at finals
  | cons scope own => exact ⟨scope, own, eq⟩

theorem own_final {own : Scopes} (hs : s.Holds pc sh calls below kept)
    (eq : s.scopes = own ++ below) : true ∈ own.map Scope.final := by
  obtain ⟨own₀, eq₀, finals⟩ := hs.scopes
  obtain rfl : own = own₀ := List.append_cancel_right (eq.symm.trans eq₀)
  rw [finals]
  simp

theorem ofExcept {α : Type} {x : Except Fault α} (hs : s.Holds pc sh calls below kept)
    (hx : ∀ f, x = .error f → ¬f.Internal) :
    (Exec.ofExcept x).Safe s fun _ t => t.Holds pc sh calls below kept := by
  cases x with
  | ok a => exact .of_eq_ok rfl hs
  | error f => exact .of_eq_error rfl (hx f rfl)

theorem push (hs : s.Holds pc sh calls below kept) (v : Value) :
    (Exec.push v).Safe s fun _ t => t.Holds pc sh calls below kept := by
  obtain ⟨scope, own, eq⟩ := hs.own_cons
  have same : (scope.push v :: own).map Scope.final = (scope :: own).map Scope.final := rfl
  exact .of_eq_ok (Exec.run_push_cons s v eq) (hs.set_scopes eq same)

theorem pop (hs : s.Holds pc sh calls below kept) :
    Exec.pop.Safe s fun _ t => t.Holds pc sh calls below kept := by
  obtain ⟨⟨stack, vars, final⟩, own, eq⟩ := hs.own_cons
  have run := Exec.run_pop s
  rw [eq] at run
  cases stack with
  | nil => exact .of_eq_error run id
  | cons v stack =>
    have same : (⟨stack, vars, final⟩ :: own : Scopes).map Scope.final =
        (⟨v :: stack, vars, final⟩ :: own : Scopes).map Scope.final := rfl
    exact .of_eq_ok run (hs.set_scopes eq same)

theorem lookup (hs : s.Holds pc sh calls below kept) (name : String) :
    (Exec.lookup name).Safe s fun _ t => t.Holds pc sh calls below kept := by
  have run := Exec.run_lookup s name
  cases hv : s.scopes.lookup name with
  | ok v =>
    rw [hv] at run
    exact .of_eq_ok run hs
  | error f =>
    rw [hv] at run
    exact .of_eq_error run (Scopes.lookup_error hv)

theorem takeResult (hs : s.Holds pc sh calls below kept) :
    Exec.takeResult.Safe s fun _ t => t.Holds pc sh calls below kept := by
  have run := Exec.run_takeResult s
  cases hv : s.result with
  | some v =>
    rw [hv] at run
    exact .of_eq_ok run { hs with }
  | none =>
    rw [hv] at run
    exact .of_eq_error run id

theorem assign (hs : s.Holds pc sh calls below kept) (name : String) (v : Value)
    (ty : Option Ty) :
    (Exec.assign name v ty).Safe s fun _ t => t.Holds pc sh calls below kept := by
  obtain ⟨own, eq, _⟩ := hs.scopes
  have run := Exec.run_assign s name v ty
  have assigned := Scopes.assign_append (hs.own_final eq) below name v ty
  rw [← eq] at assigned
  cases ha : s.scopes.assign name v ty with
  | ok scopes =>
    rw [ha] at run assigned
    obtain ⟨own', rfl, same⟩ := assigned
    exact .of_eq_ok run (hs.set_scopes eq same)
  | error f =>
    rw [ha] at run assigned
    exact .of_eq_error run assigned

theorem setItems (hs : s.Holds pc sh calls below kept) (name : String) (items : List Value) :
    { s with scopes := s.scopes.setItems name items }.Holds pc sh calls below kept := by
  obtain ⟨own, eq, _⟩ := hs.scopes
  obtain ⟨own', set, same⟩ := Scopes.setItems_append (hs.own_final eq) below name items
  rw [eq, set]
  exact hs.set_scopes eq same

theorem rangeBounds (hs : s.Holds pc sh calls below kept) (name : String) :
    (Machine.rangeBounds name).Safe s fun _ t => t.Holds pc sh calls below kept := by
  have int {s : State} (hs : s.Holds pc sh calls below kept) (name : String) :
      (Machine.rangeBounds.int name).Safe s fun _ t => t.Holds pc sh calls below kept := by
    apply (hs.lookup name).bind
    intro v t ht
    cases v with
    | int n => exact .pure ht
    | _ => exact .throw id
  apply (int hs name).bind
  intro _ t ht
  exact (int ht _).bind fun _ u hu => .pure hu

theorem jump {m : Machine} {label : String} {goal : Nat} (hs : s.Holds pc sh calls below kept)
    (hl : m.program.resolve label = some goal) :
    (m.jump label).Safe s fun _ t => t.Holds goal sh calls below kept := by
  have run := Machine.run_jump m label s
  rw [hl] at run
  exact .of_eq_ok run { hs with pc := rfl }

theorem closeScope (hs : s.Holds pc sh calls below kept) (h : 0 < sh.scopes) :
    Exec.closeScope.Safe s
      fun _ t => t.Holds pc { sh with scopes := sh.scopes - 1 } calls below kept := by
  obtain ⟨n, hn⟩ := Nat.exists_eq_add_of_lt h
  rw [Nat.zero_add] at hn
  obtain ⟨own, eq, finals⟩ := hs.scopes
  rw [hn, List.replicate_succ, List.cons_append] at finals
  cases own with
  | nil => cases finals
  | cons scope own =>
    have run := Exec.run_closeScope s
    rw [eq] at run
    rw [List.map_cons, List.cons.injEq] at finals
    exact .of_eq_ok run { hs with scopes := ⟨own, rfl, by simpa [hn] using finals.2⟩ }

theorem takeIncoming {n : Nat} (hs : s.Holds pc sh calls below kept) (hn : sh.incoming = n + 1)
    (name : String) :
    (Exec.takeIncoming name).Safe s
      fun _ t => t.Holds pc { sh with incoming := n } calls below kept := by
  have run := Exec.run_takeIncoming s name
  have count := hs.incoming.trans hn
  cases hi : s.incoming with
  | nil => simp [hi] at count
  | cons v incoming =>
    rw [hi] at run count
    exact .of_eq_ok run { hs with incoming := Nat.succ.inj count }

theorem takeArguments {argc : Nat} (hs : s.Holds pc sh calls below kept) (h : argc ≤ sh.waiting)
    (name : String) :
    (Exec.takeArguments name argc).Safe s fun args t =>
      args.length = argc ∧ t.Holds pc { sh with waiting := sh.waiting - argc } calls below kept ∧
        t.scopes = s.scopes ∧ t.waiting = s.waiting.drop argc := by
  obtain ⟨args, eq, length⟩ := hs.waiting
  have enough : ¬s.waiting.length < argc := by simp [eq, length]; omega
  have run := Exec.run_takeArguments s name argc
  rw [if_neg enough] at run
  have left : s.waiting.drop argc = args.drop argc ++ kept := by
    rw [eq, List.drop_append_of_le_length (by omega)]
  refine .of_eq_ok run ⟨by simp [eq]; omega, { hs with waiting := ⟨_, left, ?_⟩ }, rfl, rfl⟩
  simp [length]

end State.Holds

/-- Instructions that leave the calls as they are. -/
def Op.Local : Op → Prop
  | .call .. | .ret | .handBack | .exit => False
  | _ => True

/-- Instructions that open, close or bind nothing. -/
def Op.Keeps : Op → Prop
  | .bindArg .. | .openScope | .closeScope | .passArg => False
  | op => op.Local

theorem Op.flow_eq_of_keeps {op : Op} {sh next : Shape} (hf : op.flow sh = some next)
    (hk : op.Keeps) : next = sh := by
  cases op with
  | bindArg | openScope | closeScope | passArg | call | ret | handBack | exit => exact hk.elim
  | marker k =>
    simp only [Op.flow] at hf
    split at hf <;> cases hf
    rfl
  | jumpUnless | jump | rangeTest | rangeStep =>
    simp only [Op.flow] at hf
    split at hf <;> cases hf
    exact Eq.symm ‹_›
  | _ =>
    simp only [Op.flow] at hf
    split at hf <;> cases hf
    rfl

/-- Only what the calls see tells whether a result is handed back. -/
theorem Op.flow_handed {op : Op} {sh next : Shape} (hf : op.flow sh = some next)
    (hlocal : op.Local) : next.handed = sh.handed := by
  cases op with
  | call | ret | handBack | exit => exact hlocal.elim
  | bindArg | openScope | closeScope | passArg =>
    simp only [Op.flow] at hf
    split at hf <;> cases hf
    rfl
  | _ => rw [Op.flow_eq_of_keeps hf hlocal]

/-- Where an instruction goes on: behind itself, or at the label it may jump to. -/
def Machine.Goes (m : Machine) (op : Op) (pc pc' : Nat) : Prop :=
  pc' = pc ∨ ∃ label, op.target? = some label ∧ m.program.resolve label = some pc'

section

variable {m : Machine} {s : State} {op : Op} {pc : Nat} {sh next : Shape} {calls : List Frame}
  {below : Scopes} {kept : List Value}

theorem State.Holds.execute_keeps (hs : s.Holds pc sh calls below kept) (hk : op.Keeps)
    (ht : ∀ label, op.target? = some label → ∃ goal, m.program.resolve label = some goal)
    (inner : State → StepResult) :
    (m.execute inner op).Safe s
      fun _ t => ∃ pc', t.Holds pc' sh calls below kept ∧ m.Goes op pc pc' := by
  cases op with
  | bindArg | openScope | closeScope | passArg | call | ret | handBack | exit => exact hk.elim
  | marker k => exact .pure ⟨pc, hs, .inl rfl⟩
  | assign ty name =>
    apply hs.takeResult.bind
    intro v t ht
    exact (ht.assign name v ty).imp fun _ u hu => ⟨pc, hu, .inl rfl⟩
  | assignItem name =>
    apply hs.takeResult.bind
    intro v t ht
    apply ht.pop.bind
    intro index t ht
    refine .get_bind ?_
    apply (ht.ofExcept fun f => Scopes.items_error).bind
    intro items u hu
    apply (hu.ofExcept fun f => elementIndex_error).bind
    intro i w hw
    exact .of_eq_ok rfl ⟨pc, hw.setItems name _, .inl rfl⟩
  | push value => exact (hs.push _).imp fun _ t ht => ⟨pc, ht, .inl rfl⟩
  | load name =>
    apply (hs.lookup name).bind
    intro v t ht
    exact (ht.push v).imp fun _ u hu => ⟨pc, hu, .inl rfl⟩
  | pushResult =>
    apply hs.takeResult.bind
    intro v t ht
    exact (ht.push v).imp fun _ u hu => ⟨pc, hu, .inl rfl⟩
  | apply op =>
    apply hs.pop.bind
    intro r t ht
    apply ht.pop.bind
    intro l u hu
    apply (hu.ofExcept fun f => Operator.apply_error).bind
    intro v w hw
    exact (hw.push v).imp fun _ u hu => ⟨pc, hu, .inl rfl⟩
  | jumpUnless guard label =>
    obtain ⟨goal, hg⟩ := ht label rfl
    apply hs.takeResult.bind
    intro v t ht
    cases v with
    | bool b =>
      cases b with
      | true => exact .pure ⟨pc, ht, .inl rfl⟩
      | false => exact (ht.jump hg).imp fun _ u hu => ⟨goal, hu, .inr ⟨label, rfl, hg⟩⟩
    | _ => exact .throw id
  | jump label =>
    obtain ⟨goal, hg⟩ := ht label rfl
    exact (hs.jump hg).imp fun _ t ht => ⟨goal, ht, .inr ⟨label, rfl, hg⟩⟩
  | rangeTest name label =>
    obtain ⟨goal, hg⟩ := ht label rfl
    apply (hs.rangeBounds name).bind
    intro ends t ht
    dsimp only
    split
    · exact (ht.jump hg).imp fun _ u hu => ⟨goal, hu, .inr ⟨label, rfl, hg⟩⟩
    · exact .pure ⟨pc, ht, .inl rfl⟩
  | rangeStep name label =>
    obtain ⟨goal, hg⟩ := ht label rfl
    apply (hs.rangeBounds name).bind
    intro ends t ht
    apply (ht.assign name _ none).bind
    intro _ u hu
    exact (hu.jump hg).imp fun _ w hw => ⟨goal, hw, .inr ⟨label, rfl, hg⟩⟩
  | emptyArray => exact (hs.push _).imp fun _ t ht => ⟨pc, ht, .inl rfl⟩
  | append =>
    apply hs.takeResult.bind
    intro item t ht
    apply ht.pop.bind
    intro v u hu
    cases v with
    | array items => exact (hu.push _).imp fun _ w hw => ⟨pc, hw, .inl rfl⟩
    | _ => exact .throw id
  | loadItem name =>
    apply hs.takeResult.bind
    intro index t ht
    apply (ht.lookup name).bind
    intro v u hu
    cases v with
    | array items =>
      apply (hu.ofExcept fun f => elementIndex_error).bind
      intro i w hw
      exact (hw.push _).imp fun _ x hx => ⟨pc, hx, .inl rfl⟩
    | _ => exact .throw id

/-- A local instruction that finds the shape it needs leaves the next one. -/
theorem State.Holds.execute (hs : s.Holds pc sh calls below kept) (hlocal : op.Local)
    (hf : op.flow sh = some next)
    (ht : ∀ label, op.target? = some label → ∃ goal, m.program.resolve label = some goal)
    (inner : State → StepResult) :
    (m.execute inner op).Safe s
      fun _ t => ∃ pc', t.Holds pc' next calls below kept ∧ m.Goes op pc pc' := by
  cases op with
  | call | ret | handBack | exit => exact hlocal.elim
  | bindArg ty name =>
    simp only [Op.flow] at hf
    split at hf <;> cases hf
    apply (hs.takeIncoming rfl name).bind
    intro v t ht
    exact (ht.assign name v (some ty)).imp fun _ u hu => ⟨pc, hu, .inl rfl⟩
  | openScope =>
    simp only [Op.flow] at hf
    split at hf <;> cases hf
    obtain ⟨own, eq, finals⟩ := hs.scopes
    refine .of_eq_ok rfl ⟨pc, { hs with scopes := ⟨.new false :: own, ?_, ?_⟩ }, .inl rfl⟩
    · simp [Scopes.opened, eq]
    · simp [Scope.new, finals, List.replicate_succ]
  | closeScope =>
    simp only [Op.flow] at hf
    split at hf <;> cases hf
    rename_i ho
    exact (hs.closeScope ho.2).bind fun scope t ht => .of_eq_ok rfl ⟨pc, { ht with }, .inl rfl⟩
  | passArg =>
    simp only [Op.flow] at hf
    split at hf <;> cases hf
    apply hs.takeResult.bind
    intro v t ht
    obtain ⟨args, eq, length⟩ := ht.waiting
    refine .of_eq_ok rfl ⟨pc, { ht with waiting := ⟨v :: args, ?_, ?_⟩ }, .inl rfl⟩
    · simp [eq]
    · simp [length]
  | _ =>
    obtain rfl := Op.flow_eq_of_keeps hf hlocal
    refine hs.execute_keeps ?_ ht inner
    exact hlocal

end

end StackScript
