import Mathlib.Data.List.Forall2
import StackScript.Proofs.Carrier
import StackScript.Proofs.Control

/-!
# Machines in lockstep

Two machines whose programs correspond take the same steps. Their programs may lie in different
places and have different labels, and what the last result is may differ where nobody takes it.

* `Paired`: two moves end in the same way;
* `Op.Mirrors`, `Program.Corresponds`: instructions and places of two programs that do the same;
* `Abreast`: two states are the same but for places and for the last result;
* `Host.AnswersAlike`: functions of the host that make no difference between two programs;
* `Lockstep.stepWithin`, `Lockstep.runFor`: steps and runs from such states;
* `Lockstep.dispatches`: they dispatch instructions that mirror each other.
-/

namespace StackScript

/-! ## Moves of two machines -/

/-- Both results give the same and leave states in `Q`, or both fail in the same way and leave
states in `E`. -/
def Paired {ε σ α : Type} (E : σ → σ → Prop) (Q : α → σ → σ → Prop) :
    EStateM.Result ε σ α → EStateM.Result ε σ α → Prop
  | .ok a s, .ok b t => a = b ∧ Q a s t
  | .error e s, .error f t => e = f ∧ E s t
  | _, _ => False

namespace Paired

variable {ε σ α β : Type} {E E' : σ → σ → Prop} {Q Q' : α → σ → σ → Prop} {R : β → σ → σ → Prop}
  {r r' : EStateM.Result ε σ α} {x y : EStateM ε σ α} {f g : α → EStateM ε σ β} {s t : σ}

theorem cases (h : Paired E Q r r') :
    (∃ a s t, r = .ok a s ∧ r' = .ok a t ∧ Q a s t) ∨
      ∃ e s t, r = .error e s ∧ r' = .error e t ∧ E s t := by
  unfold Paired at h
  split at h
  · obtain ⟨rfl, hq⟩ := h
    exact .inl ⟨_, _, _, rfl, rfl, hq⟩
  · obtain ⟨rfl, he⟩ := h
    exact .inr ⟨_, _, _, rfl, rfl, he⟩
  · exact h.elim

theorem imp (h : Paired E Q r r') (hE : ∀ s t, E s t → E' s t)
    (hQ : ∀ a s t, Q a s t → Q' a s t) : Paired E' Q' r r' := by
  obtain ⟨a, s, t, rfl, rfl, hq⟩ | ⟨e, s, t, rfl, rfl, he⟩ := h.cases
  · exact ⟨rfl, hQ a s t hq⟩
  · exact ⟨rfl, hE s t he⟩

theorem bind (h : Paired E Q (x s) (y t))
    (hf : ∀ a s' t', Q a s' t' → Paired E R (f a s') (g a t')) :
    Paired E R ((x >>= f) s) ((y >>= g) t) := by
  simp only [Bind.bind, EStateM.bind]
  obtain ⟨a, s', t', hx, hy, hq⟩ | ⟨e, s', t', hx, hy, he⟩ := h.cases
  · rw [hx, hy]
    exact hf a s' t' hq
  · rw [hx, hy]
    exact ⟨rfl, he⟩

/-- The results are at hand where something is to be said of the states. -/
theorem and_eq (h : Paired E Q r r') :
    Paired E (fun a s t => Q a s t ∧ r = .ok a s ∧ r' = .ok a t) r r' := by
  obtain ⟨a, s, t, rfl, rfl, hq⟩ | ⟨e, s, t, rfl, rfl, he⟩ := h.cases
  · exact ⟨rfl, hq, rfl, rfl⟩
  · exact ⟨rfl, he⟩

theorem get_bind {f g : σ → EStateM ε σ β} (h : Paired E R (f s s) (g t t)) :
    Paired E R ((get >>= f) s) ((get >>= g) t) := h

end Paired

/-- Operations that do the same but for where they jump. -/
inductive Op.Mirrors : Op → Op → Prop
  | same {op : Op} (stays : op.target? = none) : Mirrors op op
  | marker (k k' : Marker) : Mirrors (.marker k) (.marker k')
  | jumpUnless (guard guard' : Guard) (label label' : String) :
    Mirrors (.jumpUnless guard label) (.jumpUnless guard' label')
  | jump (label label' : String) : Mirrors (.jump label) (.jump label')
  | rangeTest (name label label' : String) :
    Mirrors (.rangeTest name label) (.rangeTest name label')
  | rangeStep (name label label' : String) :
    Mirrors (.rangeStep name label) (.rangeStep name label')

theorem Op.Mirrors.refl (op : Op) : op.Mirrors op := by
  cases op with
  | jumpUnless guard label => exact .jumpUnless guard guard label label
  | jump label => exact .jump label label
  | rangeTest name label => exact .rangeTest name label label
  | rangeStep name label => exact .rangeStep name label label
  | _ => exact .same rfl

theorem Op.Mirrors.eq {op op' : Op} (h : op.Mirrors op') (stays : op.target? = none)
    (hm : ∀ k, op ≠ .marker k) : op' = op := by
  cases h with
  | same => rfl
  | marker k => exact absurd rfl (hm k)
  | jumpUnless | jump | rangeTest | rangeStep => cases stays

/-- Two labels lead to places in `P`, or they are the same and lead nowhere. -/
def Program.Meet (p q : Program) (P : Nat → Nat → Prop) (label label' : String) : Prop :=
  p.resolve label = none ∧ q.resolve label' = none ∧ label' = label ∨
    ∃ a b, p.resolve label = some a ∧ q.resolve label' = some b ∧ P a b

theorem Program.Meet.imp {p q : Program} {P P' : Nat → Nat → Prop} {label label' : String}
    (h : p.Meet q P label label') (hP : ∀ a b, p.resolve label = some a → P a b → P' a b) :
    p.Meet q P' label label' :=
  Or.imp id (fun ⟨a, b, ha, hb, hab⟩ => ⟨a, b, ha, hb, hP a b ha hab⟩) h

/-- The places of two states are in `P`, their return addresses in `F`, and the states are the same
otherwise. Only if they are `alike`, the last results are the same too. -/
structure Abreast (P F : Nat → Nat → Prop) (alike : Prop) (s t : State) : Prop where
  pc : P s.pc t.pc
  calls : s.calls.Forall₂ (fun f g => g.returns = f.returns ∧ F f.returnTo g.returnTo) t.calls
  running : t.running = s.running
  steps : t.steps = s.steps
  scopes : t.scopes = s.scopes
  waiting : t.waiting = s.waiting
  incoming : t.incoming = s.incoming
  console : t.console = s.console
  result : alike → t.result = s.result

namespace Abreast

variable {P P' F F' : Nat → Nat → Prop} {alike alike' : Prop} {s t : State}

theorem imp (h : Abreast P F alike s t) (hP : P s.pc t.pc → P' s.pc t.pc)
    (hF : ∀ a b, F a b → F' a b) (ha : alike' → alike) : Abreast P' F' alike' s t :=
  { h with
    pc := hP h.pc
    calls := h.calls.imp fun _ _ hf => ⟨hf.1, hF _ _ hf.2⟩
    result := fun h' => h.result (ha h') }

/-- A function of the host sees the same of both, but for the program. -/
theorem view (h : Abreast P F alike s t) (m m' : Machine) :
    m'.view t = { m.view s with program := m'.program } := by
  simp only [Machine.view, h.scopes, h.running, h.calls.length_eq]

/-- The type that the function being run has to return. -/
theorem declared (h : Abreast P F alike s t) :
    t.calls.head?.bind Frame.returns = s.calls.head?.bind Frame.returns := by
  have calls := h.calls
  cases hs : s.calls with
  | nil =>
    rw [hs, List.forall₂_nil_left_iff] at calls
    rw [calls]
  | cons frame frames =>
    rw [hs, List.forall₂_cons_left_iff] at calls
    obtain ⟨frame', frames', ⟨returns, _⟩, _, ht⟩ := calls
    rw [ht]
    exact returns

theorem set_scopes (h : Abreast P F alike s t) (scopes : Scopes) :
    Abreast P F alike { s with scopes } { t with scopes } :=
  { h with scopes := rfl }

theorem ofExcept {α : Type} (h : Abreast P F alike s t) (x : Except Fault α) :
    Paired (Abreast P F alike) (fun _ => Abreast P F alike) (Exec.ofExcept x s)
      (Exec.ofExcept x t) := by
  cases x <;> exact ⟨rfl, h⟩

theorem onScopes (h : Abreast P F alike s t) (f : Scopes → Except Fault Scopes) :
    Paired (Abreast P F alike) (fun _ => Abreast P F alike) (Exec.onScopes f s)
      (Exec.onScopes f t) := by
  rw [Exec.run_onScopes, Exec.run_onScopes, h.scopes]
  cases f s.scopes with
  | ok scopes => exact ⟨rfl, h.set_scopes scopes⟩
  | error e => exact ⟨rfl, h⟩

theorem assign (h : Abreast P F alike s t) (name : String) (v : Value) (ty : Option Ty) :
    Paired (Abreast P F alike) (fun _ => Abreast P F alike) (Exec.assign name v ty s)
      (Exec.assign name v ty t) := by
  rw [Exec.assign_eq]
  exact h.onScopes _

theorem push (h : Abreast P F alike s t) (v : Value) :
    Paired (Abreast P F alike) (fun _ => Abreast P F alike) (Exec.push v s) (Exec.push v t) :=
  h.onScopes _

theorem pop (h : Abreast P F alike s t) :
    Paired (Abreast P F alike) (fun _ => Abreast P F alike) (Exec.pop s) (Exec.pop t) := by
  rw [Exec.run_pop, Exec.run_pop, h.scopes]
  split
  · exact ⟨rfl, h.set_scopes _⟩
  · exact ⟨rfl, h⟩
  · exact ⟨rfl, h⟩

theorem closeScope (h : Abreast P F alike s t) :
    Paired (Abreast P F alike) (fun _ => Abreast P F alike) (Exec.closeScope s)
      (Exec.closeScope t) := by
  rw [Exec.run_closeScope, Exec.run_closeScope, h.scopes]
  split
  · exact ⟨rfl, h.set_scopes _⟩
  · exact ⟨rfl, h⟩

theorem lookup (h : Abreast P F alike s t) (name : String) :
    Paired (Abreast P F alike) (fun _ => Abreast P F alike) (Exec.lookup name s)
      (Exec.lookup name t) := by
  rw [Exec.run_lookup, Exec.run_lookup, h.scopes]
  split <;> exact ⟨rfl, h⟩

theorem takeResult (h : Abreast P F alike s t) (ha : alike) :
    Paired (Abreast P F alike) (fun _ => Abreast P F alike) (Exec.takeResult s)
      (Exec.takeResult t) := by
  rw [Exec.run_takeResult, Exec.run_takeResult, h.result ha]
  split
  · exact ⟨rfl, { h with result := fun _ => rfl }⟩
  · exact ⟨rfl, h⟩

theorem takeIncoming (h : Abreast P F alike s t) (name : String) :
    Paired (Abreast P F alike) (fun _ => Abreast P F alike) (Exec.takeIncoming name s)
      (Exec.takeIncoming name t) := by
  rw [Exec.run_takeIncoming, Exec.run_takeIncoming, h.incoming]
  split
  · exact ⟨rfl, { h with incoming := rfl }⟩
  · exact ⟨rfl, h⟩

theorem takeArguments (h : Abreast P F alike s t) (name : String) (argc : Nat) :
    Paired (Abreast P F alike) (fun _ => Abreast P F alike) (Exec.takeArguments name argc s)
      (Exec.takeArguments name argc t) := by
  rw [Exec.run_takeArguments, Exec.run_takeArguments, h.waiting]
  split
  · exact ⟨rfl, h⟩
  · exact ⟨rfl, { h with waiting := rfl }⟩

theorem rangeBounds (h : Abreast P F alike s t) (name : String) :
    Paired (Abreast P F alike) (fun _ => Abreast P F alike) (Machine.rangeBounds name s)
      (Machine.rangeBounds name t) := by
  have int {s t : State} (h : Abreast P F alike s t) (name : String) :
      Paired (Abreast P F alike) (fun _ => Abreast P F alike) (Machine.rangeBounds.int name s)
        (Machine.rangeBounds.int name t) := by
    refine (h.lookup name).bind fun v s t h => ?_
    cases v <;> exact ⟨rfl, h⟩
  exact (int h name).bind fun _ _ _ h => (int h _).bind fun _ _ _ h => ⟨rfl, h⟩

theorem answered (h : Abreast P F alike s t) (name : String)
    (r : Except HostError (Option Value)) :
    Paired (Abreast P F alike) (fun _ => Abreast P F alike) (Machine.answered name r s)
      (Machine.answered name r t) := by
  rcases r with e | _ | v
  · exact ⟨rfl, h⟩
  · exact ⟨rfl, h⟩
  · exact h.push v

theorem jump {m m' : Machine} (h : Abreast P F alike s t) {label label' : String}
    (meet : m.program.Meet m'.program P label label') :
    Paired (Abreast P F alike) (fun _ => Abreast P F alike) (m.jump label s)
      (m'.jump label' t) := by
  rw [Machine.run_jump, Machine.run_jump]
  rcases meet with ⟨ha, hb, rfl⟩ | ⟨a, b, ha, hb, hP⟩
  · rw [ha, hb]
    exact ⟨rfl, h⟩
  · rw [ha, hb]
    exact ⟨rfl, { h with pc := hP }⟩

/-- An instruction that neither calls nor ends anything does the same to both machines. Closing a
scope makes the last results the same. -/
theorem execute {m m' : Machine} {inner inner' : State → StepResult} {op op' : Op}
    (h : Abreast P F alike s t) (mirrors : op.Mirrors op') (takes : op.takesResult = true → alike)
    (hc : ∀ name argc declared, op ≠ .call name argc declared) (hr : op ≠ .ret)
    (he : op ≠ .exit)
    (targets : ∀ label label', op.target? = some label → op'.target? = some label' →
      m.program.Meet m'.program P label label') :
    Paired (Abreast P F alike) (fun _ => Abreast P F (alike ∨ op = .closeScope))
      (m.execute inner op s) (m'.execute inner' op' t) := by
  suffices kept : op ≠ .closeScope → Paired (Abreast P F alike) (fun _ => Abreast P F alike)
      (m.execute inner op s) (m'.execute inner' op' t) by
    by_cases closes : op = .closeScope
    · subst closes
      cases mirrors
      refine h.closeScope.bind fun scope s t h => ⟨rfl, ?_⟩
      exact { h with result := fun _ => rfl }
    · refine (kept closes).imp (fun _ _ h => h) fun _ _ _ h => ?_
      exact h.imp id (fun _ _ h => h) fun h => h.resolve_right closes
  intro closes
  cases mirrors with
  | marker k k' => exact ⟨rfl, h⟩
  | jumpUnless guard guard' label label' =>
    refine (h.takeResult (takes rfl)).bind fun v s t h => ?_
    cases v with
    | bool b =>
      cases b with
      | true => exact ⟨rfl, h⟩
      | false => exact h.jump (targets label label' rfl rfl)
    | _ => exact ⟨rfl, h⟩
  | jump label label' =>
    exact h.jump (targets label label' rfl rfl)
  | rangeTest name label label' =>
    refine (h.rangeBounds name).bind fun ends s t h => ?_
    dsimp only
    split
    · exact h.jump (targets label label' rfl rfl)
    · exact ⟨rfl, h⟩
  | rangeStep name label label' =>
    refine (h.rangeBounds name).bind fun ends s t h => ?_
    exact (h.assign ..).bind fun _ _ _ h => h.jump (targets label label' rfl rfl)
  | same stays =>
    cases op with
    | call name argc declared => exact absurd rfl (hc name argc declared)
    | ret => exact absurd rfl hr
    | exit => exact absurd rfl he
    | closeScope => exact absurd rfl closes
    | jumpUnless | jump | rangeTest | rangeStep => cases stays
    | marker k => exact ⟨rfl, h⟩
    | bindArg ty name => exact (h.takeIncoming name).bind fun v _ _ h => h.assign ..
    | assign ty name => exact (h.takeResult (takes rfl)).bind fun v _ _ h => h.assign ..
    | assignItem name =>
      refine (h.takeResult (takes rfl)).bind fun v _ _ h => h.pop.bind fun index s t h => ?_
      refine .get_bind ?_
      rw [h.scopes]
      refine (h.ofExcept _).bind fun items _ _ h => (h.ofExcept _).bind fun i s t h => ?_
      exact ⟨rfl, { h with scopes := congrArg (Scopes.setItems · name _) h.scopes }⟩
    | handBack =>
      refine (h.takeResult (takes rfl)).bind fun v s t h => .get_bind ?_
      rw [h.declared]
      cases s.calls.head?.bind Frame.returns with
      | none => exact h.onScopes _
      | some ty => exact (h.ofExcept _).bind fun _ _ _ h => h.onScopes _
    | openScope => exact ⟨rfl, { h with scopes := congrArg (Scopes.opened · false) h.scopes }⟩
    | push value => exact h.push _
    | load name => exact (h.lookup name).bind fun v _ _ h => h.push v
    | pushResult => exact (h.takeResult (takes rfl)).bind fun v _ _ h => h.push v
    | apply op =>
      refine h.pop.bind fun r _ _ h => h.pop.bind fun l _ _ h => ?_
      exact (h.ofExcept _).bind fun v _ _ h => h.push v
    | passArg =>
      refine (h.takeResult (takes rfl)).bind fun v _ _ h => ?_
      exact ⟨rfl, { h with waiting := congrArg (v :: ·) h.waiting }⟩
    | emptyArray => exact h.push _
    | append =>
      refine (h.takeResult (takes rfl)).bind fun item _ _ h => h.pop.bind fun v _ _ h => ?_
      cases v with
      | array items => exact h.push _
      | _ => exact ⟨rfl, h⟩
    | loadItem name =>
      refine (h.takeResult (takes rfl)).bind fun index _ _ h => ?_
      refine (h.lookup name).bind fun v _ _ h => ?_
      cases v with
      | array items => exact (h.ofExcept _).bind fun i _ _ h => h.push _
      | _ => exact ⟨rfl, h⟩

/-- Both machines return to their callers. -/
theorem ret {m m' : Machine} {inner inner' : State → StepResult} (h : Abreast P F alike s t) :
    Paired (Abreast P F alike) (fun _ => Abreast F F alike) (m.execute inner .ret s)
      (m'.execute inner' .ret t) := by
  have closed : Paired (Abreast P F alike) (fun _ => Abreast P F alike)
      ((discard Exec.closeScope : Exec Unit) s) ((discard Exec.closeScope : Exec Unit) t) :=
    h.closeScope.bind fun _ _ _ h => ⟨rfl, h⟩
  refine closed.bind fun _ s t h => .get_bind ?_
  have calls := h.calls
  cases hs : s.calls with
  | nil =>
    rw [hs, List.forall₂_nil_left_iff] at calls
    rw [calls]
    exact ⟨rfl, h⟩
  | cons frame frames =>
    rw [hs, List.forall₂_cons_left_iff] at calls
    obtain ⟨frame', frames', ⟨_, returnTo⟩, rest, ht⟩ := calls
    rw [ht]
    exact ⟨rfl, { h with pc := returnTo, calls := rest }⟩

/-- Both machines enter a function, and will come back to where they are. -/
theorem callFunction {m m' : Machine} (h : Abreast P F alike s t) (name : String) (argc : Nat)
    (declared : Option Ty) (back : ∀ a b, P a b → F a b) {goal : Nat → Nat → Prop}
    (enters : m.program.Meet m'.program goal (Label.function name) (Label.function name)) :
    Paired (Abreast P F alike) (fun _ => Abreast goal F alike) (m.callFunction name argc declared s)
      (m'.callFunction name argc declared t) := by
  simp only [Machine.callFunction]
  rcases enters with ⟨ha, hb, _⟩ | ⟨a, b, ha, hb, hgoal⟩
  · rw [ha, hb]
    exact ⟨rfl, h⟩
  · rw [ha, hb]
    refine (h.takeArguments name argc).bind fun args s t h => ⟨rfl, ?_⟩
    exact { h with
      pc := hgoal
      calls := .cons ⟨rfl, back _ _ h.pc⟩ h.calls
      scopes := congrArg (Scopes.opened · true) h.scopes
      incoming := rfl }

end Abreast

/-! ## Functions of the host -/

/-- Replies that are the same when the one is asked by a machine with the program `p` and the other
by one with `q`. -/
def Reply.Alike (p q : Program) (reply reply' : Reply) : Prop :=
  ∀ view : View, reply' { view with program := q } = reply { view with program := p }

/-- Visits that do the same, the one to a machine with the program `p` and the other to one with
`q`. -/
inductive Visit.Alike (p q : Program) : Visit → Visit → Prop
  | answer {reply reply' : Reply} :
    reply.Alike p q reply' → Alike p q (.answer reply) (.answer reply')
  | use {change change' : View → Console → Console} {next next' : View → Console → Visit} :
    (∀ view : View, change' { view with program := q } = change { view with program := p }) →
    (∀ (view : View) (c : Console),
      Alike p q (next { view with program := p } c) (next' { view with program := q } c)) →
    Alike p q (.use change next) (.use change' next')
  | step {next next' : Visit} {ended ended' : Option ExecutionError → Reply} :
    Alike p q next next' → (∀ error, (ended error).Alike p q (ended' error)) →
    Alike p q (.step next ended) (.step next' ended')

/-- The function does the same for machines with the one and with the other program. -/
def HostFunction.AnswersAlike (p q : Program) : HostFunction → Prop
  | .direct answer => ∀ args, Reply.Alike p q (answer · args) (answer · args)
  | .visiting visit => ∀ args, (visit args).Alike p q (visit args)

/-- What functions of the host do depends on whether the machine is running and on how many calls
and scopes it has, but makes no difference between these programs. -/
def Host.AnswersAlike (p q : Program) (h : Host) : Prop :=
  ∀ name f, h.get? name = some f → f.AnswersAlike p q

theorem Visit.Alike.refl (p : Program) (v : Visit) : v.Alike p p v := by
  induction v with
  | answer reply => exact .answer fun _ => rfl
  | use change next ih => exact .use (fun _ => rfl) fun view c => ih _ c
  | step next ended ih => exact .step ih fun _ _ => rfl

/-- One and the same program makes no difference to any function. -/
theorem Host.AnswersAlike.refl (p : Program) (h : Host) : h.AnswersAlike p p := by
  intro name f _
  cases f with
  | direct answer => exact fun _ _ => rfl
  | visiting visit => exact fun args => .refl p (visit args)

/-- The standard functions do not look at the program. -/
theorem Host.standard_answersAlike (p q : Program) : Host.standard.AnswersAlike p q :=
  Host.forall_standard (fun _ _ => rfl) (fun _ _ => rfl) fun _ _ => rfl

/-- A function that answers from how a step went does not look at the program either. -/
theorem HostFunction.stepping_answersAlike (p q : Program)
    (answer : List Value → Option ExecutionError → Except HostError (Option Value)) :
    (stepping answer).AnswersAlike p q :=
  fun _ => .step (.answer fun _ => rfl) fun _ _ => rfl

/-! ## Programs that correspond -/

/-- Results are taken behind the end of a scope only, and not at a label. -/
structure Program.Feeds (p : Program) : Prop where
  succ : ∀ {pc : Nat} {i : Instr}, p.code[pc]? = some i → i.op ≠ .closeScope → ¬p.TakesAt (pc + 1)
  resolve : ∀ {label : String} {pc : Nat}, p.resolve label = some pc → ¬p.TakesAt pc

theorem Compiled.feeds {functions : List Function} {isHost : String → Bool} {p : Program}
    (hp : Compiled functions isHost p) : p.Feeds :=
  ⟨hp.not_takesAt_succ, hp.not_takesAt_resolve⟩

/-- Places of two programs that do the same: there the instructions mirror each other, and control
goes on to such places again. -/
structure Program.Corresponds (p q : Program) (R : Nat → Nat → Prop) : Prop where
  code : ∀ {a b : Nat}, R a b → p.code[a]? = none ∧ q.code[b]? = none ∨
    ∃ i j, p.code[a]? = some i ∧ q.code[b]? = some j ∧ j.pos = i.pos ∧ i.op.Mirrors j.op
  next : ∀ {a b : Nat} {i : Instr}, R a b → p.code[a]? = some i → i.op ≠ .ret → i.op ≠ .exit →
    R (a + 1) (b + 1)
  target : ∀ {a b : Nat} {i j : Instr} {label label' : String}, R a b → p.code[a]? = some i →
    q.code[b]? = some j → i.op.target? = some label → j.op.target? = some label' →
    p.Meet q R label label'
  function : ∀ {a b : Nat} {i : Instr} {name : String} {argc : Nat} {declared : Option Ty}, R a b →
    p.code[a]? = some i → i.op = .call name argc declared →
    p.Meet q R (Label.function name) (Label.function name)

theorem Program.Meet.refl (p : Program) (label : String) : p.Meet p Eq label label := by
  cases h : p.resolve label with
  | none => exact .inl ⟨h, h, rfl⟩
  | some a => exact .inr ⟨a, a, h, h, rfl⟩

/-- Each place of a program corresponds to itself. -/
theorem Program.Corresponds.refl (p : Program) : p.Corresponds p Eq where
  code := by
    rintro a _ rfl
    cases h : p.code[a]? with
    | none => exact .inl ⟨rfl, rfl⟩
    | some i => exact .inr ⟨i, i, rfl, rfl, rfl, .refl i.op⟩
  next := fun eq _ _ _ => congrArg (· + 1) eq
  target := by
    rintro a _ i j label label' rfl hi hj ht ht'
    obtain rfl := Option.some.inj (hi.symm.trans hj)
    obtain rfl := Option.some.inj (ht.symm.trans ht')
    exact .refl p label
  function := fun _ _ _ => .refl p _

/-- Machines on the same host, with the same budget, whose programs correspond by `R`. Where they
stop they are at places in `S`. -/
structure Lockstep (m m' : Machine) (R S : Nat → Nat → Prop) : Prop where
  host : m'.host = m.host
  alike : m.host.AnswersAlike m.program m'.program
  budget : m'.budget = m.budget
  feeds : m.program.Feeds
  corresponds : m.program.Corresponds m'.program R
  weaken : ∀ a b, R a b → S a b
  succ : ∀ a b, S a b → S (a + 1) (b + 1)

/-- The states of two machines that take the same steps. Nobody takes a result where they are going
to return. -/
def InStep (p : Program) (R : Nat → Nat → Prop) (s t : State) : Prop :=
  Abreast R (fun a b => R a b ∧ ¬p.TakesAt a) (p.TakesAt s.pc) s t

/-- The places where control may also come back to: no result is taken there. -/
theorem Abreast.inStep {p : Program} {R : Nat → Nat → Prop} {alike : Prop} {s t : State}
    (h : Abreast (fun a b => R a b ∧ ¬p.TakesAt a) (fun a b => R a b ∧ ¬p.TakesAt a) alike s t) :
    InStep p R s t :=
  h.imp And.left (fun _ _ hf => hf) fun takes => absurd takes h.pc.2

/-- The states that steps lead to: while the machines are running they are in step. -/
structure Follows (p : Program) (R S : Nat → Nat → Prop) (s t : State) : Prop where
  abreast : Abreast S S False s t
  inStep : s.running = true → InStep p R s t

/-- Steps from states that are in step lead to such that follow. -/
def StepsAlike (p : Program) (R S : Nat → Nat → Prop) (inner inner' : State → StepResult) : Prop :=
  ∀ s t, InStep p R s t → Paired (Follows p R S) (fun _ => Follows p R S) (inner s) (inner' t)

theorem Abreast.stops {S : Nat → Nat → Prop} {s t : State} (h : Abreast S S False s t)
    (p : Program) (R : Nat → Nat → Prop) :
    Follows p R S { s with running := false } { t with running := false } :=
  ⟨{ h with running := rfl }, fun running => by cases running⟩

/-- What a function of the host leaves of the console, it leaves of both. -/
theorem Follows.exchange {p : Program} {R S : Nat → Nat → Prop} {s t : State}
    (h : Follows p R S s t) (console : Console) :
    Follows p R S { s with console } { t with console } :=
  ⟨{ h.abreast with console := rfl }, fun running => { h.inStep running with console := rfl }⟩

theorem Follows.answered {p : Program} {R S : Nat → Nat → Prop} {s t : State}
    (h : Follows p R S s t) (name : String) (r : Except HostError (Option Value)) :
    Paired (Abreast S S False) (fun _ => Follows p R S) (Machine.answered name r s)
      (Machine.answered name r t) := by
  rcases r with e | _ | v
  · exact ⟨rfl, h.abreast⟩
  · exact ⟨rfl, h⟩
  · rw [Machine.answered, Exec.push, Exec.run_onScopes, Exec.run_onScopes, h.abreast.scopes]
    cases s.scopes.push v with
    | ok scopes =>
      exact ⟨rfl, h.abreast.set_scopes scopes, fun running => (h.inStep running).set_scopes scopes⟩
    | error e => exact ⟨rfl, h.abreast⟩

namespace Lockstep

variable {m m' : Machine} {R S : Nat → Nat → Prop} {s t : State}

theorem weak (l : Lockstep m m' R S) {P : Nat → Nat → Prop} {alike : Prop}
    (h : Abreast P (fun a b => R a b ∧ ¬m.program.TakesAt a) alike s t)
    (hP : P s.pc t.pc → S s.pc t.pc) : Abreast S S False s t :=
  h.imp hP (fun a b hf => l.weaken a b hf.1) False.elim

theorem follows (l : Lockstep m m' R S) (h : InStep m.program R s t) :
    Follows m.program R S s t :=
  ⟨l.weak h (l.weaken _ _), fun _ => h⟩

theorem settled (l : Lockstep m m' R S) {alike : Prop}
    (h : Abreast (fun a b => R a b ∧ ¬m.program.TakesAt a)
      (fun a b => R a b ∧ ¬m.program.TakesAt a) alike s t) : Follows m.program R S s t :=
  l.follows h.inStep

theorem answersAlike (l : Lockstep m m' R S) {name : String} {f : HostFunction}
    (hf : m.hostFunction? name = some f) : f.AnswersAlike m.program m'.program := by
  unfold Machine.hostFunction? at hf
  split at hf
  · cases hf
  · exact l.alike name f hf

/-- Calls go to the same function of the host, or to none on both sides. -/
theorem hostFunction?_eq (l : Lockstep m m' R S) {a b : Nat} {i : Instr} {name : String}
    {argc : Nat} {declared : Option Ty} (hR : R a b) (hi : m.program.code[a]? = some i)
    (hop : i.op = .call name argc declared) : m'.hostFunction? name = m.hostFunction? name := by
  unfold Machine.hostFunction?
  rcases l.corresponds.function hR hi hop with ⟨ha, hb, _⟩ | ⟨c, d, ha, hb, _⟩
  · rw [ha, hb, l.host]
  · rw [ha, hb]

section Visits

variable {inner inner' : State → StepResult} {name : String}

theorem reply (h : Follows m.program R S s t) {answer answer' : Reply}
    (alike : answer.Alike m.program m'.program answer') :
    Paired (Abreast S S False) (fun _ => Follows m.program R S) (m.reply name answer s)
      (m'.reply name answer' t) := by
  have same : answer' (m'.view t) t.console = answer (m.view s) s.console := by
    rw [h.abreast.view m m', h.abreast.console]
    exact congrFun (alike (m.view s)) s.console
  simp only [Machine.reply, same]
  cases answer (m.view s) s.console with
  | ok v console => exact (h.exchange console).answered name _
  | error e console => exact (h.exchange console).answered name _

/-- Visits that do the same lead machines that are in step to states that follow. -/
theorem visit {v v' : Visit} (alike : v.Alike m.program m'.program v')
    (hin : StepsAlike m.program R S inner inner')
    (l : Lockstep m m' R S) (h : InStep m.program R s t) :
    Paired (Abreast S S False) (fun _ => Follows m.program R S) (m.visit inner name v s)
      (m'.visit inner' name v' t) := by
  induction alike generalizing s t with
  | answer replies => exact reply (l.follows h) replies
  | @use change change' next next' changes _ ih =>
    simp only [Machine.visit, h.console]
    rw [h.view m m']
    exact ih (m.view s) s.console { h with console := congrFun (changes (m.view s)) s.console }
  | step _ replies ih =>
    simp only [Machine.visit]
    obtain ⟨_, s', t', hs, ht, next⟩ | ⟨e, s', t', hs, ht, next⟩ := (hin s t h).cases
    · rw [hs, ht]
      simp only [next.abreast.running]
      split
      next running => exact ih (next.inStep running)
      next => exact reply next (replies none)
    · rw [hs, ht]
      exact reply next (replies (some e))

theorem callHost (l : Lockstep m m' R S) {f : HostFunction}
    (alike : f.AnswersAlike m.program m'.program)
    (hin : StepsAlike m.program R S inner inner')
    (h : InStep m.program R s t) (args : List Value) :
    Paired (Abreast S S False) (fun _ => Follows m.program R S) (m.callHost inner name f args s)
      (m'.callHost inner' name f args t) := by
  cases f with
  | direct answer => exact reply (l.follows h) (alike args)
  | visiting v => exact visit (alike args) hin l h

/-- Both machines take the steps of such visits from states that are in step. -/
theorem stepsFrom {v v' : Visit} (alike : v.Alike m.program m'.program v')
    (hin : StepsAlike m.program R S inner inner')
    (h : InStep m.program R s t) {u : State} (hu : m.StepsFrom inner v s u) :
    ∃ w, m'.StepsFrom inner' v' t w ∧ InStep m.program R u w := by
  induction hu generalizing v' t with
  | now =>
    cases alike
    exact ⟨t, .now, h⟩
  | @later _ _ s s' _ step running _ ih =>
    cases alike with
    | step alike _ =>
      have stepped := hin s t h
      rw [step] at stepped
      cases step' : inner' t with
      | error e t' =>
        rw [step'] at stepped
        exact stepped.elim
      | ok _ t' =>
        rw [step'] at stepped
        obtain ⟨w, steps, last⟩ := ih alike (stepped.2.inStep running)
        exact ⟨w, .later step' (stepped.2.abreast.running.trans running) steps, last⟩
  | @used change next s _ _ ih =>
    cases alike with
    | @use _ change' _ next' changes alike =>
      have changed : change' (m'.view t) t.console = change (m.view s) s.console := by
        rw [h.view m m', h.console]
        exact congrFun (changes (m.view s)) s.console
      have next : (next (m.view s) s.console).Alike m.program m'.program
          (next' (m'.view t) t.console) := by
        rw [h.view m m', h.console]
        exact alike (m.view s) s.console
      obtain ⟨w, steps, last⟩ :=
        ih (t := { t with console := change' (m'.view t) t.console }) next
          { h with console := changed }
      exact ⟨w, .used steps, last⟩

end Visits

section Execute

variable {i j : Instr} {inner inner' : State → StepResult}

/-- Behind an instruction that control may go on behind, both machines are in step but for the last
result. -/
theorem counted (l : Lockstep m m' R S) (h : InStep m.program R s t)
    (hi : m.program.code[s.pc]? = some i) (hr : i.op ≠ .ret) (he : i.op ≠ .exit) :
    Abreast R (fun a b => R a b ∧ ¬m.program.TakesAt a) (m.program.TakesAt s.pc)
      (Machine.counted s) (Machine.counted t) :=
  { h with
    pc := l.corresponds.next h.pc hi hr he
    steps := congrArg (· + 1) h.steps }

/-- Control comes back to behind a call, where nobody takes a result. -/
theorem counted_call (l : Lockstep m m' R S) (h : InStep m.program R s t)
    (hi : m.program.code[s.pc]? = some i) {name : String} {argc : Nat} {declared : Option Ty}
    (hop : i.op = .call name argc declared) :
    Abreast (fun a b => R a b ∧ ¬m.program.TakesAt a) (fun a b => R a b ∧ ¬m.program.TakesAt a)
      (m.program.TakesAt s.pc) (Machine.counted s) (Machine.counted t) := by
  have here : ¬m.program.TakesAt (s.pc + 1) := l.feeds.succ hi (by rw [hop]; simp)
  have next := l.counted h hi (by rw [hop]; simp) (by rw [hop]; simp)
  exact next.imp (fun hR => ⟨hR, here⟩) (fun _ _ hf => hf) id

theorem execute_onward (l : Lockstep m m' R S) (h : InStep m.program R s t)
    (hi : m.program.code[s.pc]? = some i) (hj : m'.program.code[t.pc]? = some j)
    (mirrors : i.op.Mirrors j.op) (hc : ∀ name argc declared, i.op ≠ .call name argc declared)
    (hr : i.op ≠ .ret) (he : i.op ≠ .exit) :
    Paired (Abreast S S False) (fun _ => Follows m.program R S)
      (m.execute inner i.op (Machine.counted s)) (m'.execute inner' j.op (Machine.counted t)) := by
  have executed : Paired _ _ (m.execute inner i.op (Machine.counted s))
      (m'.execute inner' j.op (Machine.counted t)) :=
    (l.counted h hi hr he).execute mirrors (fun takes => ⟨i, hi, takes⟩) hc hr he
      fun label label' ht ht' => l.corresponds.target h.pc hi hj ht ht'
  refine executed.and_eq.imp (fun s t h => l.weak h (l.weaken _ _)) fun _ s' t' ⟨h', run, _⟩ => ?_
  refine l.follows (h'.imp id (fun _ _ hf => hf) fun takes => ?_)
  -- A result is taken here only if the instruction has just closed a scope.
  have onward := Machine.onward_of_execute hc hr he run
  by_contra other
  obtain ⟨_, closes⟩ := not_or.1 other
  rcases onward.pc with pc | ⟨label, _, resolves⟩
  · change s'.pc = s.pc + 1 at pc
    rw [pc] at takes
    exact l.feeds.succ hi closes takes
  · exact l.feeds.resolve resolves takes

theorem execute_call (l : Lockstep m m' R S) (h : InStep m.program R s t)
    (hi : m.program.code[s.pc]? = some i) {name : String} {argc : Nat} {declared : Option Ty}
    (hop : i.op = .call name argc declared)
    (hin : StepsAlike m.program R S inner inner') :
    Paired (Abreast S S False) (fun _ => Follows m.program R S)
      (m.execute inner (.call name argc declared) (Machine.counted s))
      (m'.execute inner' (.call name argc declared) (Machine.counted t)) := by
  have back := l.counted_call h hi hop
  simp only [Machine.execute, l.hostFunction?_eq h.pc hi hop]
  cases hf : m.hostFunction? name with
  | none =>
    refine (back.callFunction name argc declared (fun _ _ hf => hf) ?_).imp
      (fun s t h => l.weak h fun hf => l.weaken _ _ hf.1) fun _ s t h => l.settled h
    exact (l.corresponds.function h.pc hi hop).imp fun _ _ hc hR => ⟨hR, l.feeds.resolve hc⟩
  | some f =>
    have taken := (back.takeArguments name argc).imp
      (fun s t h => l.weak h fun hf => l.weaken _ _ hf.1) fun _ _ _ h => h
    refine taken.bind fun args u v h => ?_
    exact l.callHost (l.answersAlike hf) hin h.inStep args

theorem execute (l : Lockstep m m' R S) (h : InStep m.program R s t)
    (hi : m.program.code[s.pc]? = some i) (hj : m'.program.code[t.pc]? = some j)
    (mirrors : i.op.Mirrors j.op)
    (hin : StepsAlike m.program R S inner inner') :
    Paired (Abreast S S False) (fun _ => Follows m.program R S)
      (m.execute inner i.op (Machine.counted s)) (m'.execute inner' j.op (Machine.counted t)) := by
  have stopping : Abreast S (fun a b => R a b ∧ ¬m.program.TakesAt a) (m.program.TakesAt s.pc)
      (Machine.counted s) (Machine.counted t) :=
    { h with
      pc := l.succ _ _ (l.weaken _ _ h.pc)
      steps := congrArg (· + 1) h.steps }
  by_cases hc : ∃ name argc declared, i.op = .call name argc declared
  · obtain ⟨name, argc, declared, hop⟩ := hc
    rw [mirrors.eq (by rw [hop]; rfl) (by rw [hop]; simp), hop]
    exact l.execute_call h hi hop hin
  by_cases hr : i.op = .ret
  · rw [mirrors.eq (by rw [hr]; rfl) (by rw [hr]; simp), hr]
    exact stopping.ret.imp (fun s t h => l.weak h id) fun _ s t h => l.settled h
  by_cases he : i.op = .exit
  · rw [mirrors.eq (by rw [he]; rfl) (by rw [he]; simp), he]
    exact ⟨rfl, { l.weak stopping id with running := rfl }, fun running => by cases running⟩
  exact l.execute_onward h hi hj mirrors
    (fun name argc declared hop => hc ⟨name, argc, declared, hop⟩) hr he

end Execute

/-! ## Steps and runs -/

theorem dispatch (l : Lockstep m m' R S) {i j : Instr} {inner inner' : State → StepResult}
    (h : InStep m.program R s t) (hi : m.program.code[s.pc]? = some i)
    (hj : m'.program.code[t.pc]? = some j) (pos : j.pos = i.pos) (mirrors : i.op.Mirrors j.op)
    (hin : StepsAlike m.program R S inner inner') :
    Paired (Follows m.program R S) (fun _ => Follows m.program R S) (m.dispatch inner i s)
      (m'.dispatch inner' j t) := by
  have exhausted : m'.exhausted? t.steps = m.exhausted? s.steps := by
    rw [Machine.exhausted?, l.budget, h.steps, Machine.exhausted?]
  unfold Machine.dispatch
  rw [exhausted, pos]
  cases m.exhausted? s.steps with
  | some budget => exact ⟨rfl, (l.weak h (l.weaken _ _)).stops _ _⟩
  | none =>
    have executed := l.execute h hi hj mirrors hin
    unfold Machine.counted at executed
    obtain ⟨_, s', t', hs, ht, next⟩ | ⟨e, s', t', hs, ht, failed⟩ := executed.cases
    · simp only [hs, ht]
      exact ⟨rfl, next⟩
    · simp only [hs, ht]
      exact ⟨rfl, failed.stops _ _⟩

/-- Machines that are in step take the same step. -/
theorem stepWithin (l : Lockstep m m' R S) (depth : Nat) (h : InStep m.program R s t) :
    Paired (Follows m.program R S) (fun _ => Follows m.program R S) (m.stepWithin depth s)
      (m'.stepWithin depth t) := by
  induction depth generalizing s t with
  | zero => exact ⟨rfl, (l.weak h (l.weaken _ _)).stops _ _⟩
  | succ depth ih =>
    rcases l.corresponds.code h.pc with ⟨hi, hj⟩ | ⟨i, j, hi, hj, pos, mirrors⟩
    · rw [Machine.stepWithin_of_none hi, Machine.stepWithin_of_none hj]
      exact ⟨rfl, (l.weak h (l.weaken _ _)).stops _ _⟩
    · simp only [Machine.stepWithin, hi, hj]
      exact l.dispatch h hi hj pos mirrors fun u v inStep => ih inStep

/-- Machines that are in step run alike. -/
theorem runFor (l : Lockstep m m' R S) (n : Nat) (h : Follows m.program R S s t) :
    Paired (Follows m.program R S) (fun _ => Follows m.program R S) (m.runFor n s)
      (m'.runFor n t) := by
  induction n generalizing s t with
  | zero => exact ⟨rfl, h⟩
  | succ n ih =>
    rw [Machine.runFor, Machine.runFor, h.abreast.running]
    split
    · rename_i running
      have stepped := l.stepWithin Machine.nesting (h.inStep running)
      rw [← Machine.step, ← Machine.step] at stepped
      obtain ⟨_, s', t', hs, ht, next⟩ | ⟨e, s', t', hs, ht, failed⟩ := stepped.cases
      · rw [hs, ht]
        exact ih next
      · rw [hs, ht]
        exact ⟨rfl, failed⟩
    · exact ⟨rfl, h⟩

/-- Where one of the machines dispatches an instruction, in a step of its own or of the host, the
other one dispatches one that mirrors it. -/
theorem dispatchesWithin (l : Lockstep m m' R S) {depth : Nat} (h : InStep m.program R s t)
    {u : State} (hu : m.DispatchesWithin depth s u) :
    ∃ v, m'.DispatchesWithin depth t v ∧ InStep m.program R u v := by
  induction hu generalizing t with
  | here depth s => exact ⟨t, .here depth t, h⟩
  | @nested depth s u _ _ i name argc declared args visit hi hop host taken steps _ ih =>
    rcases l.corresponds.code h.pc with ⟨none, _⟩ | ⟨_, j, hi', hj, _, mirrors⟩
    · cases none.symm.trans hi
    obtain rfl := Option.some.inj (hi'.symm.trans hi)
    have call := mirrors.eq (by rw [hop]; rfl) (by rw [hop]; simp)
    have paired := (l.counted_call h hi hop).takeArguments name argc
    rw [taken] at paired
    cases taken' : Exec.takeArguments name argc (Machine.counted t) with
    | error e v =>
      rw [taken'] at paired
      exact paired.elim
    | ok args' v =>
      rw [taken'] at paired
      obtain ⟨rfl, visited⟩ := paired
      obtain ⟨w, steps', inStep⟩ := stepsFrom (l.answersAlike host args)
        (fun _ _ => l.stepWithin depth) visited.inStep steps
      obtain ⟨x, hx, last⟩ := ih inStep
      have host' := (l.hostFunction?_eq h.pc hi hop).trans host
      exact ⟨x, .nested hj (call.trans hop) host' taken' steps' hx, last⟩

end Lockstep

end StackScript
