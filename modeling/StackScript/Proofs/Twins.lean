import StackScript.Proofs.Carrier
import StackScript.Proofs.Convention

/-!
# Two calls on the same arguments

Machines that make the same call over different callers, instruction by instruction.

* `Agree`: a move gives the same from two states, or fails in the same way;
* `Console.Alike`: consoles that have been used in the same way;
* `Twins`: the states of two machines are the same above what lies below the call;
* `Twins.execute`: instructions keep them so.
-/

namespace StackScript

/-! ## Moves from two states -/

/-- From `s` and from `t`, a move gives the same and `Q` holds of what it gives and leaves, or it
fails in the same way and `E` holds of what it leaves. -/
def Agree {ε σ α : Type} (E : σ → σ → Prop) (x : EStateM ε σ α) (s t : σ)
    (Q : α → σ → σ → Prop) : Prop :=
  match x s, x t with
  | .ok a s', .ok b t' => a = b ∧ Q a s' t'
  | .error e s', .error f t' => e = f ∧ E s' t'
  | _, _ => False

namespace Agree

variable {ε σ α β : Type} {E : σ → σ → Prop} {x : EStateM ε σ α} {s t : σ} {Q : α → σ → σ → Prop}
  {R : β → σ → σ → Prop}

theorem of_ok {a : α} {s' t' : σ} (hs : x s = .ok a s') (ht : x t = .ok a t') (h : Q a s' t') :
    Agree E x s t Q := by
  rw [Agree, hs, ht]
  exact ⟨rfl, h⟩

theorem of_error {e : ε} {s' t' : σ} (hs : x s = .error e s') (ht : x t = .error e t')
    (h : E s' t') : Agree E x s t Q := by
  rw [Agree, hs, ht]
  exact ⟨rfl, h⟩

theorem pure {a : α} (h : Q a s t) : Agree E (pure a : EStateM ε σ α) s t Q := ⟨rfl, h⟩

theorem throw {e : ε} (h : E s t) : Agree E (throw e : EStateM ε σ α) s t Q := ⟨rfl, h⟩

/-- How a move goes from both states. -/
theorem cases (h : Agree E x s t Q) :
    (∃ a s' t', x s = .ok a s' ∧ x t = .ok a t' ∧ Q a s' t') ∨
      ∃ e s' t', x s = .error e s' ∧ x t = .error e t' ∧ E s' t' := by
  unfold Agree at h
  split at h
  · obtain ⟨rfl, hq⟩ := h
    exact .inl ⟨_, _, _, ‹_›, ‹_›, hq⟩
  · obtain ⟨rfl, he⟩ := h
    exact .inr ⟨_, _, _, ‹_›, ‹_›, he⟩
  · exact h.elim

theorem bind {f : α → EStateM ε σ β} (h : Agree E x s t Q)
    (hf : ∀ a s' t', Q a s' t' → Agree E (f a) s' t' R) : Agree E (x >>= f) s t R := by
  obtain ⟨a, s', t', hs, ht, hq⟩ | ⟨e, s', t', hs, ht, he⟩ := h.cases
  · have next := hf a s' t' hq
    simp only [Agree, Bind.bind, EStateM.bind, hs, ht] at next ⊢
    exact next
  · have failed {u u' : σ} (hu : x u = .error e u') : (x >>= f) u = .error e u' := by
      simp only [Bind.bind, EStateM.bind, hu]
    exact of_error (failed hs) (failed ht) he

theorem imp {Q' : α → σ → σ → Prop} (h : Agree E x s t Q)
    (hQ : ∀ a s' t', Q a s' t' → Q' a s' t') : Agree E x s t Q' := by
  obtain ⟨a, s', t', hs, ht, hq⟩ | ⟨e, s', t', hs, ht, he⟩ := h.cases
  · exact of_ok hs ht (hQ a s' t' hq)
  · exact of_error hs ht he

theorem of_run_eq {y : EStateM ε σ α} {s' t' : σ} (hs : x s = y s') (ht : x t = y t')
    (h : Agree E y s' t' Q) : Agree E x s t Q := by
  rw [Agree, hs, ht]
  exact h

/-- A move may look at the state, if that makes no difference to what it does. -/
theorem get_bind {f : σ → EStateM ε σ β} (same : f t = f s) (h : Agree E (f s) s t R) :
    Agree E (get >>= f) s t R := by
  have run (u : σ) : (get >>= f) u = f u u := rfl
  refine of_run_eq (run s) ?_ h
  rw [run, same]

end Agree

/-! ## Consoles -/

/-- How many bytes the output still takes, if it is bounded. -/
def Console.left (c : Console) : Option Nat := c.limit.map (· - c.written.size)

/-- The consoles `x` and `y` have come from `c` and `d` by the same use. -/
structure Console.Alike (c d x y : Console) : Prop where
  written : ∃ bytes, x.written = c.written ++ bytes ∧ y.written = d.written ++ bytes
  unread : y.unread = x.unread
  left : y.left = x.left

namespace Console

theorem room_eq (c : Console) (size : Nat) : c.room size = c.left.elim size (min size) := by
  unfold room left
  cases c.limit <;> rfl

theorem left_written (c : Console) (bytes : Array UInt8) :
    { c with written := c.written ++ bytes }.left = c.left.map (· - bytes.size) := by
  unfold left
  cases c.limit with
  | none => rfl
  | some limit => simp [Nat.sub_sub]

theorem Alike.onConsole {c d x y : Console} {α : Type} {use : EStateM IoError Console α}
    (h : Agree (Alike c d) use x y fun _ => Alike c d) :
    Agree (Alike c d) (Host.onConsole use) x y fun _ => Alike c d := by
  obtain ⟨a, x', y', hx, hy, next⟩ | ⟨e, x', y', hx, hy, next⟩ := h.cases
  · have used {u u' : Console} (hu : use u = .ok a u') : Host.onConsole use u = .ok a u' := by
      simp only [Host.onConsole, hu]
    exact .of_ok (used hx) (used hy) next
  · have failed {u u' : Console} (hu : use u = .error e u') :
        Host.onConsole use u = .error ⟨[e.message]⟩ u' := by
      simp only [Host.onConsole, hu]
    exact .of_error (failed hx) (failed hy) next

namespace Alike

variable {c d x y : Console}

theorem refl (unread : d.unread = c.unread) (left : d.left = c.left) : Alike c d c d :=
  ⟨⟨#[], by simp, by simp⟩, unread, left⟩

theorem append (h : Alike c d x y) (bytes : Array UInt8) :
    Alike c d { x with written := x.written ++ bytes }
      { y with written := y.written ++ bytes } := by
  obtain ⟨before, hx, hy⟩ := h.written
  refine ⟨⟨before ++ bytes, by simp [hx], by simp [hy]⟩, h.unread, ?_⟩
  rw [left_written, left_written, h.left]

theorem write (h : Alike c d x y) (s : String) :
    Agree (Alike c d) (Console.write s) x y fun _ => Alike c d := by
  have room (size : Nat) : y.room size = x.room size := by rw [room_eq, room_eq, h.left]
  have next := h.append (s.toUTF8.data.take (x.room s.toUTF8.data.size))
  by_cases fits : x.room s.toUTF8.data.size = s.toUTF8.data.size
  · exact .of_ok (if_pos fits) (by simp only [Console.write, room, if_pos fits]) next
  · exact .of_error (if_neg fits) (by simp only [Console.write, room, if_neg fits]) next

theorem readLine (h : Alike c d x y) :
    Agree (Alike c d) Console.readLine x y fun _ => Alike c d := by
  have next (rest : List UInt8) : Alike c d { x with unread := rest } { y with unread := rest } :=
    { h with unread := rfl }
  unfold Agree Console.readLine
  rw [h.unread]
  dsimp only
  cases Text.ofBytes? (splitLine x.unread).1 with
  | some line => exact ⟨rfl, next _⟩
  | none => exact ⟨rfl, next _⟩

theorem nextLine (h : Alike c d x y) :
    Agree (Alike c d) Host.nextLine x y fun _ => Alike c d :=
  (onConsole h.readLine).bind fun _ _ _ next => .pure next

theorem out (h : Alike c d x y) (view : View) (args : List Value) :
    Agree (Alike c d) (Host.out view args) x y fun _ => Alike c d := by
  refine (onConsole (h.write _)).bind fun _ _ _ next => ?_
  exact (onConsole (next.write _)).bind fun _ _ _ next => .pure next

theorem readLine_answer (h : Alike c d x y) (view : View) (args : List Value) :
    Agree (Alike c d) (Host.readLine view args) x y fun _ => Alike c d :=
  h.nextLine.bind fun _ _ _ next => .pure next

theorem readInt (h : Alike c d x y) (view : View) (args : List Value) :
    Agree (Alike c d) (Host.readInt view args) x y fun _ => Alike c d := by
  refine h.nextLine.bind fun line _ _ next => ?_
  dsimp only
  cases Integer.read (Text.trim line) with
  | ok n => exact .pure next
  | error cause => exact .throw next

end Alike

end Console

/-- Functions of this host see nothing of the machine but the console, and use consoles that are
alike in the same way. -/
def Host.Uniform (h : Host) : Prop :=
  ∀ name f, h.get? name = some f → ∃ answer, (f = .direct fun _ => answer) ∧
    ∀ args c d x y, Console.Alike c d x y →
      Agree (Console.Alike c d) (answer args) x y fun _ => Console.Alike c d

theorem Host.standard_uniform : Host.standard.Uniform := by
  -- None of them looks at the machine, so any view will do.
  let view : View := ⟨.empty, 0, 0, true⟩
  apply Host.forall_standard
  · exact ⟨_, rfl, fun args _ _ _ _ h => h.out view args⟩
  · exact ⟨_, rfl, fun args _ _ _ _ h => h.readLine_answer view args⟩
  · exact ⟨_, rfl, fun args _ _ _ _ h => h.readInt view args⟩

theorem Host.Uniform.direct {h : Host} (hh : h.Uniform) : h.Direct := by
  intro name f hf
  obtain ⟨answer, rfl, _⟩ := hh name f hf
  exact ⟨_, rfl⟩

/-! ## Scopes over others -/

namespace Scopes

variable {own : Scopes}

/-- These scopes, with values on the stack of the innermost. -/
def receiving (values : List Value) : Scopes → Scopes
  | [] => []
  | scope :: rest => { scope with stack := values ++ scope.stack } :: rest

/-- What is assigned, and where, depends on the scopes down to a final one. -/
theorem assign_above (h : true ∈ own.map Scope.final) (name : String) (v : Value)
    (ty : Option Ty) :
    (∃ own', true ∈ own'.map Scope.final ∧
      ∀ below, assign (own ++ below) name v ty = .ok (own' ++ below)) ∨
    ∃ f, ∀ below, assign (own ++ below) name v ty = .error f := by
  simp only [assign_append_eq h]
  cases assigned : assign own name v ty with
  | ok own' => exact .inl ⟨own', map_final_assign assigned ▸ h, fun _ => rfl⟩
  | error f => exact .inr ⟨f, fun _ => rfl⟩

theorem setItems_above (h : true ∈ own.map Scope.final) (name : String) (items : List Value) :
    ∃ own', true ∈ own'.map Scope.final ∧
      ∀ below, setItems (own ++ below) name items = own' ++ below :=
  ⟨_, map_final_setItems own name items ▸ h, fun below => setItems_append_eq h below name items⟩

end Scopes

/-! ## Twins -/

/-- The machines of `s` and `t` make the same call, and will go on in `k` and in `l`. They are at
the same instruction and the same above what lies below the call. -/
structure Twins (p : Program) (returns : Option Ty) (k l s t : State) : Prop where
  pc : t.pc = s.pc
  incoming : t.incoming = s.incoming
  calls : ∃ frames : List Frame, (∀ frame ∈ frames, ¬p.TakesAt frame.returnTo) ∧
    s.calls = frames ++ ⟨k.pc, returns⟩ :: k.calls ∧ t.calls = frames ++ ⟨l.pc, returns⟩ :: l.calls
  scopes : ∃ own values, true ∈ own.map Scope.final ∧
    s.scopes = own ++ k.scopes.receiving values ∧ t.scopes = own ++ l.scopes.receiving values
  waiting : ∃ args, s.waiting = args ++ k.waiting ∧ t.waiting = args ++ l.waiting
  console : Console.Alike k.console l.console s.console t.console

/-- What two machines have done to their consoles since `k` and `l` is the same. -/
def AlikeSince (k l s t : State) : Prop := Console.Alike k.console l.console s.console t.console

namespace Twins

variable {p : Program} {returns : Option Ty} {k l s t : State}

theorem ofExcept {α : Type} (h : Twins p returns k l s t) (x : Except Fault α) :
    Agree (AlikeSince k l) (Exec.ofExcept x) s t fun _ => Twins p returns k l := by
  cases x with
  | ok a => exact .pure h
  | error f => exact .throw h.console

theorem push (h : Twins p returns k l s t) (v : Value) :
    Agree (AlikeSince k l) (Exec.push v) s t fun _ => Twins p returns k l := by
  obtain ⟨own, values, final, hs, ht⟩ := h.scopes
  cases own with
  | nil => cases final
  | cons scope own =>
    refine .of_ok (Exec.run_push_cons s v hs) (Exec.run_push_cons t v ht) ?_
    exact { h with scopes := ⟨scope.push v :: own, values, final, rfl, rfl⟩ }

theorem pop (h : Twins p returns k l s t) :
    Agree (AlikeSince k l) Exec.pop s t fun _ => Twins p returns k l := by
  obtain ⟨own, values, final, hs, ht⟩ := h.scopes
  have runs := Exec.run_pop s
  have runt := Exec.run_pop t
  rw [hs] at runs
  rw [ht] at runt
  cases own with
  | nil => cases final
  | cons scope own =>
    obtain ⟨stack, vars, isFinal⟩ := scope
    cases stack with
    | nil => exact .of_error runs runt h.console
    | cons v stack =>
      refine .of_ok runs runt ?_
      exact { h with scopes := ⟨⟨stack, vars, isFinal⟩ :: own, values, final, rfl, rfl⟩ }

theorem lookup_eq (h : Twins p returns k l s t) (name : String) :
    t.scopes.lookup name = s.scopes.lookup name := by
  obtain ⟨own, values, final, hs, ht⟩ := h.scopes
  rw [hs, ht, Scopes.lookup_append final, Scopes.lookup_append final]

theorem items_eq (h : Twins p returns k l s t) (name : String) :
    t.scopes.items name = s.scopes.items name := by
  obtain ⟨own, values, final, hs, ht⟩ := h.scopes
  rw [hs, ht, Scopes.items_append final, Scopes.items_append final]

theorem lookup (h : Twins p returns k l s t) (name : String) :
    Agree (AlikeSince k l) (Exec.lookup name) s t fun _ => Twins p returns k l := by
  have runs := Exec.run_lookup s name
  have runt := Exec.run_lookup t name
  rw [h.lookup_eq] at runt
  cases hv : s.scopes.lookup name with
  | ok v =>
    rw [hv] at runs runt
    exact .of_ok runs runt h
  | error f =>
    rw [hv] at runs runt
    exact .of_error runs runt h.console

theorem takeResult (h : Twins p returns k l s t) (hr : t.result = s.result) :
    Agree (AlikeSince k l) Exec.takeResult s t fun _ => Twins p returns k l := by
  have runs := Exec.run_takeResult s
  have runt := Exec.run_takeResult t
  rw [hr] at runt
  cases hv : s.result with
  | some v =>
    rw [hv] at runs runt
    exact .of_ok runs runt { h with }
  | none =>
    rw [hv] at runs runt
    exact .of_error runs runt h.console

theorem takeIncoming (h : Twins p returns k l s t) (name : String) :
    Agree (AlikeSince k l) (Exec.takeIncoming name) s t fun _ => Twins p returns k l := by
  have runs := Exec.run_takeIncoming s name
  have runt := Exec.run_takeIncoming t name
  rw [h.incoming] at runt
  cases hi : s.incoming with
  | nil =>
    rw [hi] at runs runt
    exact .of_error runs runt h.console
  | cons v incoming =>
    rw [hi] at runs runt
    exact .of_ok runs runt { h with incoming := rfl }

theorem assign (h : Twins p returns k l s t) (name : String) (v : Value) (ty : Option Ty) :
    Agree (AlikeSince k l) (Exec.assign name v ty) s t
      fun _ => Twins p returns k l := by
  obtain ⟨own, values, final, hs, ht⟩ := h.scopes
  have runs := Exec.run_assign s name v ty
  have runt := Exec.run_assign t name v ty
  obtain ⟨own', final', assigned⟩ | ⟨f, failed⟩ := Scopes.assign_above final name v ty
  · rw [hs, assigned] at runs
    rw [ht, assigned] at runt
    exact .of_ok runs runt { h with scopes := ⟨own', values, final', rfl, rfl⟩ }
  · rw [hs, failed] at runs
    rw [ht, failed] at runt
    exact .of_error runs runt h.console

theorem setItems (h : Twins p returns k l s t) (name : String) (items : List Value) :
    Twins p returns k l { s with scopes := s.scopes.setItems name items }
      { t with scopes := t.scopes.setItems name items } := by
  obtain ⟨own, values, final, hs, ht⟩ := h.scopes
  obtain ⟨own', final', set⟩ := Scopes.setItems_above final name items
  exact { h with scopes := ⟨own', values, final', by rw [hs, set], by rw [ht, set]⟩ }

theorem rangeBounds (h : Twins p returns k l s t) (name : String) :
    Agree (AlikeSince k l) (Machine.rangeBounds name) s t fun _ => Twins p returns k l := by
  have int {s t : State} (h : Twins p returns k l s t) (name : String) :
      Agree (AlikeSince k l) (Machine.rangeBounds.int name) s t fun _ => Twins p returns k l := by
    refine (h.lookup name).bind fun v s t h => ?_
    cases v with
    | int n => exact .pure h
    | _ => exact .throw h.console
  refine (int h name).bind fun _ s t h => ?_
  exact (int h _).bind fun _ s t h => .pure h

theorem jump {m : Machine} (h : Twins p returns k l s t) (label : String) :
    Agree (AlikeSince k l) (m.jump label) s t fun _ => Twins p returns k l := by
  have runs := Machine.run_jump m label s
  have runt := Machine.run_jump m label t
  cases hg : m.program.resolve label with
  | some goal =>
    rw [hg] at runs runt
    exact .of_ok runs runt { h with pc := rfl }
  | none =>
    rw [hg] at runs runt
    exact .of_error runs runt h.console

theorem closeScope {m : Machine} (h : Twins p returns k l s t)
    (top : ∀ scope rest, s.scopes = scope :: rest → scope.final = false)
    (inner : State → StepResult) :
    Agree (AlikeSince k l) (m.execute inner .closeScope) s t
      fun _ s t => Twins p returns k l s t ∧ t.result = s.result := by
  obtain ⟨own, values, final, hs, ht⟩ := h.scopes
  have runs := Exec.run_closeScope s
  have runt := Exec.run_closeScope t
  rw [hs] at runs
  rw [ht] at runt
  cases own with
  | nil => cases final
  | cons scope own =>
    have inner : true ∈ own.map Scope.final := by simpa [top scope _ hs] using final
    have closed : Agree (AlikeSince k l) Exec.closeScope s t fun _ => Twins p returns k l :=
      .of_ok runs runt { h with scopes := ⟨own, values, inner, rfl, rfl⟩ }
    exact closed.bind fun scope s t h => .of_ok rfl rfl ⟨{ h with }, rfl⟩

/-- Instructions that leave the calls as they are do the same to both machines. -/
theorem execute {m : Machine} {op : Op} (h : Twins p returns k l s t) (hlocal : op.Local)
    (hc : op ≠ .closeScope) (hr : op.takesResult = true → t.result = s.result)
    (inner : State → StepResult) :
    Agree (AlikeSince k l) (m.execute inner op) s t fun _ => Twins p returns k l := by
  cases op with
  | call | ret | handBack | exit => exact hlocal.elim
  | closeScope => exact absurd rfl hc
  | marker k => exact .pure h
  | bindArg ty name => exact (h.takeIncoming name).bind fun v _ _ h => h.assign name v (some ty)
  | openScope =>
    obtain ⟨own, values, final, hs, ht⟩ := h.scopes
    refine .of_ok rfl rfl { h with scopes := ⟨.new false :: own, values, ?_, ?_, ?_⟩ }
    · simpa [Scope.new] using final
    · simp [Scopes.opened, hs]
    · simp [Scopes.opened, ht]
  | assign ty name => exact (h.takeResult (hr rfl)).bind fun v _ _ h => h.assign name v ty
  | assignItem name =>
    refine (h.takeResult (hr rfl)).bind fun v _ _ h => ?_
    refine h.pop.bind fun index s t h => ?_
    refine .get_bind (by rw [h.items_eq]) ?_
    refine (h.ofExcept _).bind fun items _ _ h => ?_
    refine (h.ofExcept _).bind fun i _ _ h => ?_
    exact .of_ok rfl rfl (h.setItems name _)
  | push value => exact h.push _
  | load name => exact (h.lookup name).bind fun v _ _ h => h.push v
  | pushResult => exact (h.takeResult (hr rfl)).bind fun v _ _ h => h.push v
  | apply op =>
    refine h.pop.bind fun r _ _ h => ?_
    refine h.pop.bind fun l _ _ h => ?_
    exact (h.ofExcept _).bind fun v _ _ h => h.push v
  | passArg =>
    refine (h.takeResult (hr rfl)).bind fun v _ _ h => ?_
    obtain ⟨args, hs, ht⟩ := h.waiting
    exact .of_ok rfl rfl { h with waiting := ⟨v :: args, by simp [hs], by simp [ht]⟩ }
  | jumpUnless guard label =>
    refine (h.takeResult (hr rfl)).bind fun v _ _ h => ?_
    cases v with
    | bool b =>
      cases b with
      | true => exact .pure h
      | false => exact h.jump label
    | _ => exact .throw h.console
  | jump label => exact h.jump label
  | rangeTest name label =>
    refine (h.rangeBounds name).bind fun ends _ _ h => ?_
    dsimp only
    split
    · exact h.jump label
    · exact .pure h
  | rangeStep name label =>
    refine (h.rangeBounds name).bind fun ends _ _ h => ?_
    exact (h.assign name _ none).bind fun _ _ _ h => h.jump label
  | emptyArray => exact h.push _
  | append =>
    refine (h.takeResult (hr rfl)).bind fun item _ _ h => ?_
    refine h.pop.bind fun v _ _ h => ?_
    cases v with
    | array items => exact h.push _
    | _ => exact .throw h.console
  | loadItem name =>
    refine (h.takeResult (hr rfl)).bind fun index _ _ h => ?_
    refine (h.lookup name).bind fun v _ _ h => ?_
    cases v with
    | array items => exact (h.ofExcept _).bind fun i _ _ h => h.push _
    | _ => exact .throw h.console

theorem pushBelow (h : Twins p returns k l s t) (hk : k.scopes ≠ []) (hl : l.scopes ≠ [])
    (v : Value) :
    Agree (AlikeSince k l) (Exec.onScopes (·.pushBelow v)) s t fun _ => Twins p returns k l := by
  obtain ⟨own, values, final, hs, ht⟩ := h.scopes
  have runs := Exec.run_onScopes s (·.pushBelow v)
  have runt := Exec.run_onScopes t (·.pushBelow v)
  match own with
  | [] => cases final
  | [scope] =>
    -- The callers themselves get the value.
    obtain ⟨_, _, eqk⟩ := List.exists_cons_of_ne_nil hk
    obtain ⟨_, _, eql⟩ := List.exists_cons_of_ne_nil hl
    rw [hs, eqk] at runs
    rw [ht, eql] at runt
    refine .of_ok runs runt { h with scopes := ⟨[scope], v :: values, final, ?_, ?_⟩ }
    · rw [eqk]
      rfl
    · rw [eql]
      rfl
  | scope :: below :: own =>
    rw [hs] at runs
    rw [ht] at runt
    refine .of_ok runs runt ?_
    exact { h with scopes := ⟨scope :: below.push v :: own, values, final, rfl, rfl⟩ }

/-- A result is handed to the same call, or to the callers of both. -/
theorem handBack {m : Machine} (h : Twins p returns k l s t) (hk : k.scopes ≠ [])
    (hl : l.scopes ≠ []) (hr : t.result = s.result) (inner : State → StepResult) :
    Agree (AlikeSince k l) (m.execute inner .handBack) s t fun _ => Twins p returns k l := by
  refine (h.takeResult hr).bind fun v s t h => ?_
  have declared : t.calls.head?.bind Frame.returns = s.calls.head?.bind Frame.returns := by
    obtain ⟨frames, _, hs, ht⟩ := h.calls
    rw [hs, ht]
    cases frames <;> rfl
  refine .get_bind (by rw [declared]) ?_
  cases s.calls.head?.bind Frame.returns with
  | none => exact h.pushBelow hk hl v
  | some ty => exact (h.ofExcept _).bind fun _ _ _ h => h.pushBelow hk hl v

/-- Arguments that are not the callers' are the same. -/
theorem arguments (h : Twins p returns k l s t) {argc : Nat}
    (enough : argc + k.waiting.length ≤ s.waiting.length) :
    ∃ args, argc ≤ args.length ∧ s.waiting = args ++ k.waiting ∧ t.waiting = args ++ l.waiting := by
  obtain ⟨args, hs, ht⟩ := h.waiting
  rw [hs, List.length_append] at enough
  exact ⟨args, by omega, hs, ht⟩

theorem takeArguments (h : Twins p returns k l s t) {argc : Nat}
    (enough : argc + k.waiting.length ≤ s.waiting.length) (name : String) :
    Agree (AlikeSince k l) (Exec.takeArguments name argc) s t fun _ => Twins p returns k l := by
  obtain ⟨args, fits, hs, ht⟩ := h.arguments enough
  have taken (rest : List Value) : ¬(args ++ rest).length < argc := by
    rw [List.length_append]
    omega
  have runs := Exec.run_takeArguments s name argc
  have runt := Exec.run_takeArguments t name argc
  rw [hs, if_neg (taken _), List.take_append_of_le_length fits,
    List.drop_append_of_le_length fits] at runs
  rw [ht, if_neg (taken _), List.take_append_of_le_length fits,
    List.drop_append_of_le_length fits] at runt
  exact .of_ok runs runt { h with waiting := ⟨args.drop argc, rfl, rfl⟩ }

/-- Functions of the host answer both machines in the same way. -/
theorem callHost {m : Machine} (h : Twins p returns k l s t) (hh : m.host.Uniform) {name : String}
    {argc : Nat} {f : HostFunction} (hf : m.hostFunction? name = some f)
    (enough : argc + k.waiting.length ≤ s.waiting.length) (declared : Option Ty)
    (inner : State → StepResult) :
    Agree (AlikeSince k l) (m.execute inner (.call name argc declared)) s t
      fun _ => Twins p returns k l := by
  have run (s : State) : m.execute inner (.call name argc declared) s =
      (Exec.takeArguments name argc >>= m.callHost inner name f) s := by
    simp only [Machine.execute, hf]
  have offered : m.host.get? name = some f := by
    unfold Machine.hostFunction? at hf
    split at hf
    · cases hf
    · exact hf
  obtain ⟨answer, rfl, uniform⟩ := hh name f offered
  refine .of_run_eq (run s) (run t) ?_
  refine (h.takeArguments enough name).bind fun args s t h => ?_
  refine .of_run_eq (y := m.reply name fun _ => answer args) rfl rfl ?_
  obtain ⟨v, x, y, hx, hy, next⟩ | ⟨e, x, y, hx, hy, next⟩ :=
    (uniform args _ _ _ _ h.console).cases
  · have answered : Twins p returns k l { s with console := x } { t with console := y } :=
      { h with console := next }
    refine .of_run_eq (y := Machine.answered name (.ok v)) (Machine.reply_of_ok hx)
      (Machine.reply_of_ok hy) ?_
    cases v with
    | none => exact .pure answered
    | some v => exact answered.push v
  · have failed : AlikeSince k l { s with console := x } { t with console := y } := next
    exact .of_run_eq (y := Machine.answered name (.error e)) (Machine.reply_of_error hx)
      (Machine.reply_of_error hy) (.throw failed)

/-- Both machines enter the same function. -/
theorem callFunction {m : Machine} (h : Twins m.program returns k l s t) {name : String}
    {argc target : Nat} (ht : m.program.resolve (Label.function name) = some target)
    (enough : argc + k.waiting.length ≤ s.waiting.length) (back : ¬m.program.TakesAt s.pc)
    (declared : Option Ty) (inner : State → StepResult) :
    Agree (AlikeSince k l) (m.execute inner (.call name argc declared)) s t
      fun _ s t => Twins m.program returns k l s t ∧ s.pc = target := by
  obtain ⟨args, fits, ws, wt⟩ := h.arguments enough
  obtain ⟨frames, fresh, cs, ct⟩ := h.calls
  obtain ⟨own, values, final, ss, st⟩ := h.scopes
  have runs : m.execute inner (.call name argc declared) s = _ :=
    Machine.execute_callFunction ht (by rw [ws, List.length_append]; omega) inner
  have runt : m.execute inner (.call name argc declared) t = _ :=
    Machine.execute_callFunction ht (by rw [wt, List.length_append]; omega) inner
  refine .of_ok runs runt ⟨⟨rfl, ?_, ?_, ?_, ?_, h.console⟩, rfl⟩
  · simp only [ws, wt, List.take_append_of_le_length fits]
  · refine ⟨⟨s.pc, declared⟩ :: frames, ?_, by simp [cs], by simp [ct, h.pc]⟩
    simpa using ⟨back, fresh⟩
  · refine ⟨.new true :: own, values, by simp [Scope.new], by simp [ss], by simp [st]⟩
  · refine ⟨args.drop argc, ?_, ?_⟩
    · simp only [ws, List.drop_append_of_le_length fits]
    · simp only [wt, List.drop_append_of_le_length fits]

end Twins

end StackScript
