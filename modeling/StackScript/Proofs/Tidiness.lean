import StackScript.Proofs.Clutter
import StackScript.Proofs.Control

/-!
# Machines stay tidy

What the listing says of the scopes of a call holds at run time, for the call on top and for those
that wait below it.

* `Scopes.Cluttered`: the scopes of a call in which this lies about;
* `Scopes.Cluttered.execute`: an instruction keeps to what the listing says;
* `State.Tidy`: each pending call has left what the listing says behind its call;
* `State.Tidy.step`, `State.Tidy.runFor`: so it stays, and the entry point hands back into the last
  scope;
* `machine_tidy`: the scopes of every state that a compiled program reaches, and those of its end.
-/

namespace StackScript

/-! ## The scopes of a call -/

/-- The scopes of a call in which this lies about, over those below it. Its own scope has the
variables; the scopes it has opened have none. -/
inductive Scopes.Cluttered (below : Scopes) : Clutter → Scopes → Prop
  | own {home : Scope} {k : Nat} : home.final = true → home.stack.length = k →
    Cluttered below ⟨0, k⟩ (home :: below)
  | inner {scope : Scope} {ss : Scopes} {n k : Nat} : scope.final = false → scope.vars = [] →
    Cluttered below ⟨n, k⟩ ss → Cluttered below ⟨n + 1, k⟩ (scope :: ss)

namespace Scopes.Cluttered

variable {below ss ss' : Scopes} {n k : Nat} {name : String} {v : Value}

theorem push_inner (h : Cluttered below ⟨n + 1, k⟩ ss) (hp : ss.push v = .ok ss') :
    Cluttered below ⟨n + 1, k⟩ ss' := by
  cases h with
  | inner final vars rest =>
    cases hp
    exact .inner final vars rest

theorem push_own (h : Cluttered below ⟨0, k⟩ ss) (hp : ss.push v = .ok ss') :
    Cluttered below ⟨0, k + 1⟩ ss' := by
  cases h with
  | own final length =>
    cases hp
    exact .own final (congrArg (· + 1) length)

theorem replace (h : Cluttered below ⟨0, k⟩ ss) (b : Binding) :
    Cluttered below ⟨0, k⟩ (ss.replace name b) := by
  cases h with
  | own final length =>
    unfold Scopes.replace
    split
    · exact .own final length
    · exact .own final length

/-- Where no scope is open, a variable is bound in the scope of the call. -/
theorem assign {ty : Option Ty} (h : Cluttered below ⟨0, k⟩ ss)
    (ha : ss.assign name v ty = .ok ss') : Cluttered below ⟨0, k⟩ ss' := by
  rw [Scopes.assign_eq] at ha
  unfold Value.check at ha
  cases hn : ss.get? name with
  | some old =>
    by_cases fits : v.ty = ty.getD old.ty
    · simp only [hn, fits, if_true] at ha
      cases ha
      exact h.replace _
    · simp only [hn, fits, if_false] at ha
      cases ha
  | none =>
    cases ty with
    | none =>
      simp only [hn] at ha
      cases ha
    | some ty =>
      by_cases fits : v.ty = ty
      · simp only [hn, fits, if_true] at ha
        cases h with
        | own final length =>
          cases ha
          exact .own final length
      · simp only [hn, fits, if_false] at ha
        cases ha

theorem setItems (h : Cluttered below ⟨0, k⟩ ss) (items : List Value) :
    Cluttered below ⟨0, k⟩ (ss.setItems name items) := by
  unfold Scopes.setItems
  split
  · exact h.replace _
  · exact h

/-- A call has one final scope. -/
theorem countP_final {c : Clutter} (h : Cluttered below c ss) :
    ss.countP Scope.final = below.countP Scope.final + 1 := by
  induction h with
  | own final => exact List.countP_cons_of_pos final
  | inner final _ _ ih => rw [List.countP_cons_of_neg (by simp [final]), ih]

theorem vars_eq_nil {c : Clutter} (h : Cluttered below c ss)
    (hb : ∀ scope ∈ below, scope.final = false → scope.vars = []) :
    ∀ scope ∈ ss, scope.final = false → scope.vars = [] := by
  induction h with
  | own final => exact List.forall_mem_cons.2 ⟨fun other => by simp [final] at other, hb⟩
  | inner _ vars _ ih => exact List.forall_mem_cons.2 ⟨fun _ => vars, ih⟩

end Scopes.Cluttered

/-! ## Instructions -/

namespace Exec

variable {α β : Type} {s : State} {P Q : Scopes → Prop}

/-- From `s`, a move that does not fail leaves scopes like this. -/
def Leaves (x : Exec α) (s : State) (Q : Scopes → Prop) : Prop :=
  ∀ a t, x s = .ok a t → Q t.scopes

namespace Leaves

theorem pure {a : α} (h : Q s.scopes) : (pure a : Exec α).Leaves s Q := by
  rintro _ _ ⟨⟩
  exact h

theorem throw {f : Fault} : (throw f : Exec α).Leaves s Q := by
  rintro _ _ ⟨⟩

theorem bind {x : Exec α} {f : α → Exec β} (h : x.Leaves s P)
    (hf : ∀ a t, P t.scopes → (f a).Leaves t Q) : (x >>= f).Leaves s Q := by
  intro b u run
  rw [run_bind] at run
  cases hx : x s with
  | ok a t =>
    rw [hx] at run
    exact hf a t (h a t hx) b u run
  | error e t =>
    rw [hx] at run
    cases run

theorem get_bind {f : State → Exec β} (h : (f s).Leaves s Q) : (get >>= f).Leaves s Q := h

theorem modify {f : State → State} (h : Q (f s).scopes) : (modify f : Exec Unit).Leaves s Q := by
  rintro _ _ ⟨⟩
  exact h

theorem ofExcept (h : Q s.scopes) (x : Except Fault α) : (ofExcept x).Leaves s Q := by
  cases x with
  | ok a => exact .pure h
  | error f => exact .throw

theorem onScopes {f : Scopes → Except Fault Scopes} (h : ∀ ss, f s.scopes = .ok ss → Q ss) :
    (onScopes f).Leaves s Q := by
  intro a t run
  rw [run_onScopes] at run
  split at run
  · rename_i ss eq
    cases run
    exact h ss eq
  · cases run

theorem lookup (h : Q s.scopes) (name : String) : (Exec.lookup name).Leaves s Q :=
  .get_bind (.ofExcept h _)

theorem takeResult (h : Q s.scopes) : Exec.takeResult.Leaves s Q := by
  intro a t run
  rw [run_takeResult] at run
  split at run <;> cases run
  exact h

theorem takeResult_bind {f : Value → Exec β}
    (h : ∀ v, s.result = some v → (f v).Leaves { s with result := none } Q) :
    (Exec.takeResult >>= f).Leaves s Q := by
  intro b t run
  rw [run_bind, run_takeResult] at run
  cases hr : s.result with
  | none =>
    rw [hr] at run
    cases run
  | some v =>
    rw [hr] at run
    exact h v hr b t run

theorem takeIncoming (h : Q s.scopes) (name : String) : (Exec.takeIncoming name).Leaves s Q := by
  intro a t run
  rw [run_takeIncoming] at run
  split at run <;> cases run
  exact h

theorem takeArguments (h : Q s.scopes) (name : String) (argc : Nat) :
    (Exec.takeArguments name argc).Leaves s Q := by
  intro a t run
  rw [run_takeArguments] at run
  split at run <;> cases run
  exact h

theorem jump (h : Q s.scopes) (m : Machine) (label : String) : (m.jump label).Leaves s Q := by
  unfold Machine.jump
  split
  · exact .modify h
  · exact .throw

theorem rangeBounds (h : Q s.scopes) (name : String) : (Machine.rangeBounds name).Leaves s Q := by
  have int {s : State} (h : Q s.scopes) (name : String) :
      (Machine.rangeBounds.int name).Leaves s Q := by
    refine (Leaves.lookup h name).bind fun v t ht => ?_
    cases v with
    | int n => exact .pure ht
    | _ => exact .throw
  exact (int h name).bind fun _ t ht => (int ht _).bind fun _ u hu => .pure hu

variable {below : Scopes} {n k : Nat}

theorem push_inner (h : Scopes.Cluttered below ⟨n + 1, k⟩ s.scopes) (v : Value) :
    (Exec.push v).Leaves s (Scopes.Cluttered below ⟨n + 1, k⟩) :=
  .onScopes fun _ => h.push_inner

theorem pop_inner (h : Scopes.Cluttered below ⟨n + 1, k⟩ s.scopes) :
    Exec.pop.Leaves s (Scopes.Cluttered below ⟨n + 1, k⟩) := by
  intro a t run
  rw [run_pop] at run
  split at run
  · rename_i eq
    cases run
    rw [eq] at h
    cases h with
    | inner final vars rest => exact .inner final vars rest
  · cases run
  · cases run

theorem pop_own (h : Scopes.Cluttered below ⟨0, k + 1⟩ s.scopes) :
    Exec.pop.Leaves s (Scopes.Cluttered below ⟨0, k⟩) := by
  intro a t run
  rw [run_pop] at run
  split at run
  · rename_i eq
    cases run
    rw [eq] at h
    cases h with
    | own final length => exact .own final (Nat.succ.inj length)
  · cases run
  · cases run

theorem closeScope (h : Scopes.Cluttered below ⟨n + 1, k⟩ s.scopes) :
    Exec.closeScope.Leaves s (Scopes.Cluttered below ⟨n, k⟩) := by
  intro a t run
  rw [run_closeScope] at run
  split at run
  · rename_i eq
    cases run
    rw [eq] at h
    cases h with
    | inner _ _ rest => exact rest
  · cases run

end Leaves

end Exec

namespace Scopes.Cluttered

variable {m : Machine} {inner : State → StepResult} {s : State} {below : Scopes} {op : Op}
  {c next : Clutter}

theorem assigns (h : Cluttered below .clean s.scopes) (name : String) (v : Value)
    (ty : Option Ty) : (Exec.assign name v ty).Leaves s (Cluttered below .clean) := by
  rw [Exec.assign_eq]
  exact .onScopes fun _ => h.assign

/-- An instruction that leaves the calls as they are leaves what the listing says. -/
theorem execute (h : Cluttered below c s.scopes) (ht : op.tidy c = some next) (hl : op.Local) :
    (m.execute inner op).Leaves s (Cluttered below next) := by
  -- In each case the listing only has the instruction where certain things lie about.
  cases op with
  | call | ret | handBack | exit => exact hl.elim
  | openScope =>
    cases ht
    exact .modify (.inner rfl rfl h)
  | closeScope =>
    rcases c with ⟨_ | n, k⟩ <;> cases ht
    exact (Exec.Leaves.closeScope h).bind fun _ t ht => .modify ht
  | pushResult =>
    rcases c with ⟨_ | n, _ | k⟩ <;> cases ht
    exact (Exec.Leaves.takeResult h).bind fun v t ht => .onScopes fun _ => ht.push_own
  | assignItem name =>
    rcases c with ⟨_ | n, _ | _ | k⟩ <;> cases ht
    refine (Exec.Leaves.takeResult h).bind fun v t ht => ?_
    refine (Exec.Leaves.pop_own ht).bind fun index u hu => .get_bind ?_
    refine (Exec.Leaves.ofExcept hu _).bind fun items w hw => ?_
    exact (Exec.Leaves.ofExcept hw _).bind fun i x hx => .modify (hx.setItems _)
  | push value =>
    rcases c with ⟨_ | n, k⟩ <;> cases ht
    exact .push_inner h _
  | load name =>
    rcases c with ⟨_ | n, k⟩ <;> cases ht
    exact (Exec.Leaves.lookup h name).bind fun v t ht => .push_inner ht v
  | apply op =>
    rcases c with ⟨_ | n, k⟩ <;> cases ht
    refine (Exec.Leaves.pop_inner h).bind fun r t ht => ?_
    refine (Exec.Leaves.pop_inner ht).bind fun l u hu => ?_
    exact (Exec.Leaves.ofExcept hu _).bind fun v w hw => .push_inner hw v
  | passArg =>
    rcases c with ⟨_ | n, k⟩ <;> cases ht
    exact (Exec.Leaves.takeResult h).bind fun v t ht => .modify ht
  | emptyArray =>
    rcases c with ⟨_ | n, k⟩ <;> cases ht
    exact .push_inner h _
  | append =>
    rcases c with ⟨_ | n, k⟩ <;> cases ht
    refine (Exec.Leaves.takeResult h).bind fun item t ht => ?_
    refine (Exec.Leaves.pop_inner ht).bind fun v u hu => ?_
    cases v with
    | array items => exact .push_inner hu _
    | _ => exact .throw
  | loadItem name =>
    rcases c with ⟨_ | n, k⟩ <;> cases ht
    refine (Exec.Leaves.takeResult h).bind fun index t ht => ?_
    refine (Exec.Leaves.lookup ht name).bind fun v u hu => ?_
    cases v with
    | array items => exact (Exec.Leaves.ofExcept hu _).bind fun i w hw => .push_inner hw _
    | _ => exact .throw
  | marker k =>
    rcases c with ⟨_ | n, _ | k⟩ <;> cases ht
    exact .pure h
  | bindArg ty name =>
    rcases c with ⟨_ | n, _ | k⟩ <;> cases ht
    exact (Exec.Leaves.takeIncoming h name).bind fun v t ht => ht.assigns name v _
  | assign ty name =>
    rcases c with ⟨_ | n, _ | k⟩ <;> cases ht
    exact (Exec.Leaves.takeResult h).bind fun v t ht => ht.assigns name v ty
  | jumpUnless guard label =>
    rcases c with ⟨_ | n, _ | k⟩ <;> cases ht
    refine (Exec.Leaves.takeResult h).bind fun v t ht => ?_
    cases v with
    | bool b =>
      cases b with
      | true => exact .pure ht
      | false => exact .jump ht m label
    | _ => exact .throw
  | jump label =>
    rcases c with ⟨_ | n, _ | k⟩ <;> cases ht
    exact .jump h m label
  | rangeTest name label =>
    rcases c with ⟨_ | n, _ | k⟩ <;> cases ht
    refine (Exec.Leaves.rangeBounds h name).bind fun ends t ht => ?_
    dsimp only
    split
    · exact .jump ht m label
    · exact .pure ht
  | rangeStep name label =>
    rcases c with ⟨_ | n, _ | k⟩ <;> cases ht
    refine (Exec.Leaves.rangeBounds h name).bind fun ends t ht => ?_
    exact (ht.assigns name _ none).bind fun _ u hu => .jump hu m label

end Scopes.Cluttered

/-! ## Pending calls -/

/-- Pending calls, the last one first, over the scopes of their callers. The call of the entry point
returns behind all functions, into a scope with the values that it has handed back. Each other one
has been made where a scope was open. -/
inductive Waits (functions : List Function) (values : List Value) : List Frame → Scopes → Prop
  | main {frame : Frame} :
    (Function.codeAll (signatures functions) 0 functions).length ≤ frame.returnTo →
    Waits functions values [frame] [⟨values, [], true⟩]
  | call {frame : Frame} {calls : List Frame} {below ss : Scopes} {n k : Nat} :
    Lies functions frame.returnTo ⟨n + 1, k⟩ → Scopes.Cluttered below ⟨n + 1, k⟩ ss →
    Waits functions values calls below → Waits functions values (frame :: calls) ss

/-- The call on top and those below it have left about what the listing says, and the entry point
has handed these values back. -/
inductive State.Tidy (functions : List Function) (values : List Value) (s : State) : Prop
  | outside :
    (Function.codeAll (signatures functions) 0 functions).length ≤ s.pc → s.calls = [] →
    s.scopes = [⟨values, [], true⟩] → Tidy functions values s
  | inside {c : Clutter} {below : Scopes} : Lies functions s.pc c →
    Scopes.Cluttered below c s.scopes → Waits functions values s.calls below →
    Tidy functions values s

/-- The value that the entry point hands back in the next step. -/
def Machine.handsBack? (m : Machine) (s : State) : Option Value :=
  if m.program.code[s.pc]?.map Instr.op = some .handBack ∧ s.calls.length = 1 then s.result
  else none

/-- The values that the entry point hands back in this many steps of a run, the last one first. -/
def Machine.handedBack (m : Machine) : Nat → State → List Value
  | 0, _ => []
  | n + 1, s =>
    if s.running then
      match m.step s with
      | .ok _ t => handedBack m n t ++ (m.handsBack? s).toList
      | .error _ _ => []
    else []

section

variable {functions : List Function} {values : List Value} {calls : List Frame} {ss : Scopes}

theorem Waits.countP_final (h : Waits functions values calls ss) :
    ss.countP Scope.final = calls.length := by
  induction h with
  | main => rfl
  | call _ cluttered _ ih => rw [cluttered.countP_final, ih, List.length_cons]

theorem Waits.vars_eq_nil (h : Waits functions values calls ss) :
    ∀ scope ∈ ss, scope.final = false → scope.vars = [] := by
  induction h with
  | main => simp
  | call _ cluttered _ ih => exact cluttered.vars_eq_nil ih

theorem Waits.length_pos (h : Waits functions values calls ss) : 0 < calls.length := by
  cases h <;> simp

/-- A value is handed back into the innermost scope of the caller. -/
theorem Waits.pushed {v : Value} {ss' : Scopes} (h : Waits functions values calls ss)
    (hp : ss.push v = .ok ss') :
    Waits functions ((if calls.length = 1 then [v] else []) ++ values) calls ss' := by
  cases h with
  | main behind =>
    cases hp
    exact .main behind
  | @call frame calls _ _ n k lies cluttered waits =>
    have others : (frame :: calls).length ≠ 1 := by
      have := waits.length_pos
      rw [List.length_cons]
      omega
    rw [if_neg others]
    exact .call lies (cluttered.push_inner hp) waits

end

/-! ## Steps -/

section

variable {functions : List Function} {m : Machine} {inner : State → StepResult} {s t : State}
  {values : List Value} {c next : Clutter} {below : Scopes} {op : Op} {i : Instr}

/-- Instructions that leave the calls as they are go on in the call on top. -/
theorem State.Tidy.of_local (hp : Compiled functions m.host.contains m.program)
    (waits : Waits functions values s.calls below) (cluttered : Scopes.Cluttered below c s.scopes)
    (ht : op.tidy c = some next) (hnext : Lies functions (s.pc + 1) next) (hl : op.Local)
    (run : m.execute inner op (Machine.counted s) = .ok () t) : t.Tidy functions values := by
  have left : Scopes.Cluttered below next t.scopes :=
    Scopes.Cluttered.execute (s := Machine.counted s) cluttered ht hl () t run
  have onward : m.Onward op (Machine.counted s) t := by
    refine Machine.onward_of_execute (fun _ _ _ call => ?_) (fun ret => ?_) (fun exit => ?_) run
    · exact (call ▸ hl : Op.Local (.call ..))
    · exact (ret ▸ hl : Op.Local .ret)
    · exact (exit ▸ hl : Op.Local .exit)
  have waits : Waits functions values t.calls below := onward.calls ▸ waits
  rcases onward.pc with pc | ⟨label, target, resolves⟩
  · exact .inside (pc ▸ hnext) left waits
  · have clean : next = .clean := Op.tidy_target target ht
    exact .inside (.of_resolve hp resolves) (clean ▸ left) waits

/-- Entering a function opens its own scope, where nothing lies about. -/
theorem Machine.callFunction_enters (hp : Compiled functions m.host.contains m.program)
    {name : String} {argc : Nat} {returns : Option Ty}
    (run : m.callFunction name argc returns s = .ok () t) :
    Lies functions t.pc .clean ∧ Scopes.Cluttered s.scopes .clean t.scopes ∧
      t.calls = ⟨s.pc, returns⟩ :: s.calls := by
  unfold callFunction at run
  cases target : m.program.resolve (Label.function name) with
  | none =>
    simp only [target] at run
    cases run
  | some goal =>
    simp only [target, Exec.run_bind, Exec.run_takeArguments] at run
    by_cases short : s.waiting.length < argc
    · rw [if_pos short] at run
      cases run
    · rw [if_neg short] at run
      cases run
      exact ⟨.of_resolve hp target, .own rfl rfl, rfl⟩

/-- A function of the host answers into the scope that the call stands in. -/
theorem Scopes.Cluttered.callHost {n k : Nat} (h : Cluttered below ⟨n + 1, k⟩ s.scopes)
    (name : String) (answer : Answer) (args : List Value) :
    (m.callHost inner name (.direct answer) args).Leaves s (Cluttered below ⟨n + 1, k⟩) := by
  obtain ⟨r, console, eq⟩ := m.reply_eq name (answer · args) s
  have answered : (Machine.answered name r).Leaves { s with console }
      (Cluttered below ⟨n + 1, k⟩) := by
    rcases r with e | _ | v
    · exact .throw
    · exact .pure h
    · exact .push_inner (s := { s with console }) h v
  intro a t run
  exact answered a t (eq.symm.trans run)

theorem State.Tidy.of_call (hp : Compiled functions m.host.contains m.program) (hh : m.host.Direct)
    {name : String} {argc : Nat} {returns : Option Ty}
    (waits : Waits functions values s.calls below) (cluttered : Scopes.Cluttered below c s.scopes)
    (ht : (Op.call name argc returns).tidy c = some next) (hnext : Lies functions (s.pc + 1) next)
    (run : m.execute inner (.call name argc returns) (Machine.counted s) = .ok () t) :
    t.Tidy functions values := by
  obtain ⟨n, k, rfl, rfl⟩ : ∃ n k, c = ⟨n + 1, k⟩ ∧ next = ⟨n + 1, k⟩ := by
    rcases c with ⟨_ | n, k⟩ <;> cases ht
    exact ⟨n, k, rfl, rfl⟩
  cases hf : m.hostFunction? name with
  | none =>
    simp only [Machine.execute, hf] at run
    obtain ⟨lies, own, calls⟩ := Machine.callFunction_enters hp run
    refine .inside lies own ?_
    rw [calls]
    exact .call hnext cluttered waits
  | some f =>
    obtain ⟨answer, rfl⟩ := Machine.hostFunction?_direct hh hf
    have moves := m.execute_moves inner (.call name argc returns) (Machine.counted s)
    rw [run] at moves
    have left : Scopes.Cluttered below ⟨n + 1, k⟩ t.scopes := by
      simp only [Machine.execute, hf] at run
      exact (Exec.Leaves.takeArguments (s := Machine.counted s) cluttered name argc).bind
        (fun args u hu => hu.callHost name answer args) () t run
    cases moves with
    | onward onward =>
      rcases onward.pc with pc | ⟨label, target, _⟩
      · exact .inside (pc ▸ hnext) left (onward.calls ▸ waits)
      · cases target
    | enters call pc =>
      -- The name would be that of a function of the program, which comes before the host.
      cases call
      simp [Machine.hostFunction?, pc] at hf
    | leaves ret => cases ret
    | exits exit => cases exit
    | nests call host =>
      cases call
      rw [hf] at host
      cases host

/-- A return closes the scope of the call and finds that of its caller as it was. -/
theorem State.Tidy.of_ret (waits : Waits functions values s.calls below)
    (cluttered : Scopes.Cluttered below c s.scopes) (ht : Op.ret.tidy c = some next)
    (run : m.execute inner .ret (Machine.counted s) = .ok () t) : t.Tidy functions values := by
  rcases c with ⟨_ | n, _ | k⟩ <;> cases ht
  generalize hc : s.calls = calls at waits
  generalize hs : s.scopes = ss at cluttered
  cases cluttered with
  | own final _ =>
    have scopes : (Machine.counted s).scopes = _ := hs
    have pending : (Machine.counted s).calls = calls := hc
    simp only [Machine.execute, Exec.run_bind, Exec.run_discard, Exec.run_closeScope, scopes,
      Exec.run_get, pending] at run
    cases waits with
    | main behind =>
      cases run
      exact .outside behind rfl rfl
    | call lies cluttered waits =>
      cases run
      exact .inside lies cluttered waits

theorem Scopes.Cluttered.handBack (h : Cluttered below .clean s.scopes) :
    (m.execute inner .handBack).Leaves s fun ss => ∃ v below', s.result = some v ∧
      below.push v = .ok below' ∧ Cluttered below' .clean ss := by
  refine .takeResult_bind fun v result => .get_bind ?_
  have pushed {u : State} (hu : Cluttered below .clean u.scopes) :
      (Exec.onScopes (·.pushBelow v)).Leaves u fun ss => ∃ v below', s.result = some v ∧
        below.push v = .ok below' ∧ Cluttered below' .clean ss := by
    refine .onScopes fun ss push => ?_
    generalize u.scopes = scopes at hu push
    cases hu with
    | own final length =>
      cases below with
      | nil => cases push
      | cons caller rest =>
        cases push
        exact ⟨v, _, result, rfl, .own final length⟩
  split
  · exact (Exec.Leaves.ofExcept (s := { s with result := none }) h _).bind fun _ u hu => pushed hu
  · exact pushed h

theorem State.Tidy.of_handBack (waits : Waits functions values s.calls below)
    (cluttered : Scopes.Cluttered below c s.scopes) (ht : Op.handBack.tidy c = some next)
    (hnext : Lies functions (s.pc + 1) next)
    (run : m.execute inner .handBack (Machine.counted s) = .ok () t) :
    t.Tidy functions ((if s.calls.length = 1 then s.result.toList else []) ++ values) := by
  obtain ⟨rfl, rfl⟩ : c = .clean ∧ next = .clean := by
    rcases c with ⟨_ | n, _ | k⟩ <;> cases ht
    exact ⟨rfl, rfl⟩
  obtain ⟨v, below', result, push, left⟩ :=
    Scopes.Cluttered.handBack (s := Machine.counted s) cluttered () t run
  change s.result = some v at result
  have onward := Machine.onward_of_execute (by simp) (by simp) (by simp) run
  have calls : t.calls = s.calls := onward.calls
  rcases onward.pc with pc | ⟨label, target, _⟩
  · refine .inside (pc ▸ hnext) left ?_
    rw [calls, result]
    exact waits.pushed push
  · cases target

/-- Outside of all calls, the entry point is called or the machine stops. -/
theorem State.Tidy.of_outside (hp : Compiled functions m.host.contains m.program)
    (behind : (Function.codeAll (signatures functions) 0 functions).length ≤ s.pc)
    (calls : s.calls = []) (scopes : s.scopes = [⟨values, [], true⟩])
    (hs : m.step s = .ok () t) : t.Tidy functions values := by
  obtain ⟨start, exit, size⟩ := hp.start_code
  rw [← hp.entry] at behind
  obtain here | here | here : s.pc = m.program.entry ∨ s.pc = m.program.entry + 1 ∨
      m.program.code.size ≤ s.pc := by omega
  · have run := Machine.execute_of_step (here ▸ start) hs
    obtain ⟨f, hf⟩ := hp.find?_main
    obtain ⟨base, _, target⟩ := hp.function_at (List.mem_of_find?_eq_some hf)
    have named : f.name = entryPoint := by simpa using List.find?_some hf
    have host : m.hostFunction? entryPoint = none := by
      simp only [Machine.hostFunction?, named ▸ target]
    simp only [callInstr, Instr.plain, Machine.execute, host] at run
    obtain ⟨lies, own, pending⟩ := Machine.callFunction_enters hp run
    change Scopes.Cluttered s.scopes .clean t.scopes at own
    change t.calls = ⟨s.pc + 1, _⟩ :: s.calls at pending
    refine .inside lies own ?_
    rw [pending, calls, scopes]
    exact .main (by simp only; rw [← hp.entry]; omega)
  · have run := Machine.execute_of_step (here ▸ exit) hs
    cases run
    refine .outside ?_ calls scopes
    simp only [Machine.counted]
    rw [← hp.entry]
    omega
  · rw [Machine.step_eq_of_size_le here] at hs
    cases hs
    exact .outside (hp.entry ▸ behind) calls scopes

/-- Steps keep machines tidy. -/
theorem State.Tidy.step (hp : Compiled functions m.host.contains m.program) (hh : m.host.Direct)
    (h : s.Tidy functions values) (hs : m.step s = .ok () t) :
    t.Tidy functions ((m.handsBack? s).toList ++ values) := by
  cases h with
  | outside behind calls scopes =>
    have none : m.handsBack? s = none := if_neg (by simp [calls])
    rw [none]
    exact .of_outside hp behind calls scopes hs
  | @inside c below lies cluttered waits =>
    obtain ⟨⟨op, label, pos⟩, next, hi, ht, hnext⟩ := lies.instr hp
    have run := Machine.execute_of_step hi hs
    have none (other : op ≠ .handBack) : m.handsBack? s = none := if_neg (by simp [hi, other])
    cases op with
    | exit => cases ht
    | call name argc returns =>
      rw [none (by simp)]
      exact .of_call hp hh waits cluttered ht (hnext (by simp)) run
    | ret =>
      rw [none (by simp)]
      exact .of_ret waits cluttered ht run
    | handBack =>
      have value : (m.handsBack? s).toList =
          if s.calls.length = 1 then s.result.toList else [] := by
        simp only [Machine.handsBack?, hi, Option.map_some, true_and]
        split <;> rfl
      rw [value]
      exact .of_handBack waits cluttered ht (hnext (by simp)) run
    | _ =>
      rw [none (by simp)]
      exact .of_local hp waits cluttered ht (hnext (by simp)) trivial run

theorem State.Tidy.runFor (hp : Compiled functions m.host.contains m.program) (hh : m.host.Direct)
    (h : s.Tidy functions values) {n : Nat} (run : m.runFor n s = .ok () t) :
    t.Tidy functions (m.handedBack n s ++ values) := by
  induction n generalizing s values with
  | zero =>
    cases run
    exact h
  | succ n ih =>
    rw [Machine.runFor] at run
    rw [Machine.handedBack]
    split at run
    · rename_i running
      rw [if_pos running]
      cases hu : m.step s with
      | ok _ u =>
        rw [hu] at run
        simp only [List.append_assoc]
        exact ih (h.step hp hh hu) run
      | error e u =>
        rw [hu] at run
        cases run
    · rename_i stopped
      cases run
      rw [if_neg stopped]
      exact h

/-! ## Reached states -/

variable {console : Console}

theorem Machine.start_tidy (hp : Compiled functions m.host.contains m.program) (console : Console) :
    (m.start console).Tidy functions [] :=
  .outside (Nat.le_of_eq hp.entry.symm) rfl rfl

theorem Machine.Reaches.tidy (hp : Compiled functions m.host.contains m.program)
    (hh : m.host.Direct) (h : m.Reaches console s) : ∃ values, s.Tidy functions values := by
  induction h with
  | start => exact ⟨[], m.start_tidy hp console⟩
  | step _ hs ih =>
    obtain ⟨values, tidy⟩ := ih
    exact ⟨_, tidy.step hp hh hs⟩

/-- A machine that has stopped has returned from the entry point, which has handed at most one value
back. -/
theorem Machine.Reaches.ended (hp : Compiled functions m.host.contains m.program)
    (hh : m.host.Direct) (h : m.Reaches console s) (stopped : s.running = false) :
    s.calls = [] ∧ s.waiting = [] ∧ ∃ scope, s.scopes = [scope] ∧ scope.stack.length ≤ 1 := by
  induction h with
  | start => cases stopped
  | @step s t reached hs ih =>
    have goesOn (running : t.running = true) : False := by simp [running] at stopped
    have sound := reached.sound hp hh
    cases sound with
    | starting running pc calls scopes waiting =>
      have step := Sound.enters hp running pc calls scopes waiting
      rw [hs] at step
      exact (goesOn step.running).elim
    | inside inside =>
      have step := inside.step hp hh (by simp [mainBase])
      rw [hs] at step
      exact (step.elim (fun h => goesOn h.running) fun h => goesOn h.running).elim
    | returned returned =>
      have pc : s.pc = m.program.entry + 1 := returned.pc
      have run := Machine.execute_of_step (pc ▸ hp.start_code.2.1) hs
      cases run
      refine ⟨returned.calls, returned.waiting, ?_⟩
      obtain ⟨handed, below⟩ := returned.scopes
      cases handed with
      | false => exact ⟨.new true, below, Nat.zero_le 1⟩
      | true =>
        obtain ⟨v, _, pushed⟩ := below
        exact ⟨(Scope.new true).push v, (Except.ok.inj pushed).symm, Nat.le_refl 1⟩
    | ended running pc =>
      rw [Machine.step_eq_of_size_le pc] at hs
      cases hs
      exact ih running

theorem State.Tidy.countP_final (h : s.Tidy functions values) :
    s.scopes.countP Scope.final = s.calls.length + 1 := by
  cases h with
  | outside _ calls scopes => rw [calls, scopes]; rfl
  | inside _ cluttered waits => rw [cluttered.countP_final, waits.countP_final]

theorem State.Tidy.vars_eq_nil (h : s.Tidy functions values) :
    ∀ scope ∈ s.scopes, scope.final = false → scope.vars = [] := by
  cases h with
  | outside _ _ scopes => simp [scopes]
  | inside _ cluttered waits => exact cluttered.vars_eq_nil waits.vars_eq_nil

/-- Where a statement begins, the call on top has its own scope only, and nothing on its stack. -/
theorem State.Tidy.at_statement (h : s.Tidy functions values)
    (starts : s.pc ∈ statementStarts (signatures functions) 0 functions) :
    s.calls ≠ [] ∧
      ∃ home below, s.scopes = home :: below ∧ home.final = true ∧ home.stack = [] := by
  cases h with
  | outside behind =>
    obtain ⟨before, i, after, eq, pc, _⟩ := statementStarts_clean _ 0 functions _ starts
    rw [eq, List.length_append, List.length_cons] at behind
    omega
  | inside lies cluttered waits =>
    obtain rfl := lies.eq_clean starts
    refine ⟨List.ne_nil_of_length_pos waits.length_pos, ?_⟩
    generalize s.scopes = scopes at cluttered
    cases cluttered with
    | own final length => exact ⟨_, _, rfl, final, List.eq_nil_of_length_eq_zero length⟩

end

/-- The machine keeps its shape. In every state that a compiled program reaches there is one final
scope for each pending call and one at the bottom, only final scopes have variables, and where a
statement begins the innermost scope is that of the call on top, with nothing on its stack. A run
that ends, also one that was stepped before, leaves no call, no argument and one scope, with the
value on its stack that the entry point has handed back, or with none. -/
theorem machine_tidy {functions : List Function} {m : Machine}
    (h : compile functions m.host.contains = .ok m.program) (hh : m.host.Direct)
    (console : Console) :
    (∀ s, m.Reaches console s →
      s.scopes.countP Scope.final = s.calls.length + 1 ∧
      (∀ scope ∈ s.scopes, scope.final = false → scope.vars = []) ∧
      (s.pc ∈ statementStarts (signatures functions) 0 functions → s.calls ≠ [] ∧
        ∃ home below, s.scopes = home :: below ∧ home.final = true ∧ home.stack = [])) ∧
    ∀ k n s t, m.runFor k (m.start console) = .ok () s → m.run n s = .ok () t →
      t.running = false →
      t.calls = [] ∧ t.waiting = [] ∧ ∃ scope, t.scopes = [scope] ∧
        scope.stack = m.handedBack (k + n) (m.start console) ∧ scope.stack.length ≤ 1 := by
  have hp := compiled_of_compile h
  refine ⟨fun s reached => ?_, fun k n s t before run stopped => ?_⟩
  · obtain ⟨values, tidy⟩ := reached.tidy hp hh
    exact ⟨tidy.countP_final, tidy.vars_eq_nil, tidy.at_statement⟩
  · have whole : m.runFor (k + n) (m.start console) = .ok () t :=
      (Machine.runFor_add before n).trans (Machine.runFor_of_run run)
    have reached : m.Reaches console t := Machine.Reaches.start.runFor whole
    obtain ⟨calls, waiting, scope, scopes, few⟩ := reached.ended hp hh stopped
    refine ⟨calls, waiting, scope, scopes, ?_, few⟩
    have tidy := (m.start_tidy hp console).runFor hp hh whole
    rw [List.append_nil] at tidy
    cases tidy with
    | outside _ _ eq =>
      obtain rfl : scope = _ := List.singleton_inj.1 (scopes.symm.trans eq)
      rfl
    | inside _ _ waits =>
      have pending := waits.length_pos
      rw [calls] at pending
      cases pending

/-- Writes the result of a call into an array, and returns it from within a loop. -/
def storing : List Function :=
  [⟨⟨1, 1⟩, "main", [], some .int,
      [.assign ⟨2, 1⟩ (some .array) "a"
          (.array ⟨2, 11⟩ [.literal ⟨2, 12⟩ (.int 5), .literal ⟨2, 15⟩ (.int 7)]),
        .assignItem ⟨3, 1⟩ "a" (.literal ⟨3, 3⟩ (.int 0))
          (.call ⟨3, 8⟩ ⟨3, 8⟩ "twice" [.index ⟨3, 14⟩ "a" (.literal ⟨3, 16⟩ (.int 1))]),
        .loop ⟨4, 1⟩ (.literal ⟨4, 7⟩ (.bool true))
          [.ret ⟨5, 1⟩ (some (.index ⟨5, 8⟩ "a" (.literal ⟨5, 10⟩ (.int 0))))]]⟩,
    ⟨⟨8, 1⟩, "twice", [⟨⟨8, 7⟩, .int, "n"⟩], some .int,
      [.ret ⟨9, 1⟩ (some (.binary ⟨9, 10⟩ .add (.var ⟨9, 8⟩ "n") (.var ⟨9, 12⟩ "n")))]⟩]

/-- In the function that is called, nothing is on the stack while the index lies about below it. The
run ends with the value that was returned. -/
theorem machine_tidy_storing :
    ∃ (m : Machine) (s t : State), compile storing m.host.contains = .ok m.program ∧
      m.host.Direct ∧ m.Reaches (.ofInput [] none) s ∧ s.calls.length = 2 ∧
      s.scopes.map (·.stack.length) = [0, 0, 1, 0] ∧ s.scopes.countP Scope.final = 3 ∧
      s.pc ∈ statementStarts (signatures storing) 0 storing ∧
      (∃ home below, s.scopes = home :: below ∧ home.final = true ∧ home.stack = []) ∧
      m.run 30 s = .ok () t ∧ t.running = false ∧ t.calls = [] ∧
      ∃ scope, t.scopes = [scope] ∧ scope.stack = [.int 14] := by
  obtain ⟨p, s, t, hp, toCall, pending, heights, starts, toEnd, stopped, value⟩ :
      ∃ p s t, compile storing (Host.contains []) = .ok p ∧
        Machine.runFor ⟨p, [], none⟩ 29 (.initial p.entry (.ofInput [] none)) = .ok () s ∧
        s.calls.length = 2 ∧ s.scopes.map (·.stack.length) = [0, 0, 1, 0] ∧
        s.pc ∈ statementStarts (signatures storing) 0 storing ∧
        Machine.run ⟨p, [], none⟩ 30 s = .ok () t ∧ t.running = false ∧
        Machine.handedBack ⟨p, [], none⟩ 59 (.initial p.entry (.ofInput [] none)) = [.int 14] :=
    ⟨_, _, _, rfl, rfl, rfl, rfl, by decide, rfl, rfl, rfl⟩
  let m : Machine := ⟨p, [], none⟩
  have direct : m.host.Direct := fun name f hf => by cases hf
  have reached : m.Reaches (.ofInput [] none) s := Machine.Reaches.start.runFor toCall
  obtain ⟨states, runs⟩ := machine_tidy (m := m) hp direct (.ofInput [] none)
  obtain ⟨finals, _, statement⟩ := states s reached
  rw [pending] at finals
  obtain ⟨_, home⟩ := statement starts
  obtain ⟨calls, _, scope, scopes, handed, _⟩ := runs 29 30 s t toCall toEnd stopped
  exact ⟨m, s, t, hp, direct, reached, pending, heights, finals, starts, home, toEnd,
    stopped, calls, scope, scopes, handed.trans value⟩

end StackScript
