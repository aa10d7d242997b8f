import StackScript.Proofs.Safety

/-!
# The calling convention

* `Machine.During`: the states from a call on, until its frame is popped;
* `Inside.during`: all of them are inside that call;
* `calling_convention`: what a call leaves of its caller when it returns, and while it runs.
-/

namespace StackScript

/-- Steps from `s` to `t` with more than `depth` calls pending all the time. -/
inductive Machine.During (m : Machine) (depth : Nat) (s : State) : State → Prop
  | refl : depth < s.calls.length → During m depth s s
  | step {t u : State} : During m depth s t → m.step t = .ok () u → depth < u.calls.length →
    During m depth s u

/-- A step in front of others. -/
theorem Machine.During.head {m : Machine} {depth : Nat} {s t u : State}
    (deep : depth < s.calls.length) (step : m.step s = .ok () t) (h : m.During depth t u) :
    m.During depth s u := by
  induction h with
  | refl deep' => exact .step (.refl deep) step deep'
  | step _ step' deep' ih => exact .step ih step' deep'

/-- What a caller may find of its scopes: what it left, or one value of the declared type more on
the stack of the innermost. -/
def Scopes.Receives (returns : Option Ty) (before after : Scopes) : Prop :=
  after = before ∨ ∃ v, (∀ ty, returns = some ty → v.ty = ty) ∧ before.push v = .ok after

theorem Base.Below.receives {b : Base} {handed : Bool} {below : Scopes}
    (h : b.Below handed below) : b.scopes.Receives b.returns below := by
  cases handed with
  | false => exact .inl h
  | true => exact .inr h

/-- A value that is received changes no variable. -/
theorem Scopes.Receives.vars {returns : Option Ty} {before after : Scopes}
    (h : before.Receives returns after) : after.map Scope.vars = before.map Scope.vars := by
  obtain rfl | ⟨v, _, pushed⟩ := h
  · rfl
  · cases before with
    | nil => cases pushed
    | cons scope rest =>
      cases pushed
      rfl

section

variable {functions : List Function} {m : Machine} {b : Base} {s t : State}

/-- Until its frame is popped, the machine is inside the call. -/
theorem Inside.during (hp : Compiled functions m.host.contains m.program) (hh : m.host.Direct)
    (hb : b.scopes ≠ []) (hs : Inside m.program (signatures functions) b s)
    (h : m.During b.calls.length s t) : Inside m.program (signatures functions) b t := by
  induction h with
  | refl => exact hs
  | step _ step deeper ih =>
    have next := ih.step hp hh hb
    rw [step] at next
    obtain inside | returned := next
    · exact inside
    · rw [returned.calls] at deeper
      omega

theorem Chain.length_lt {p : Program} {sigs : Signatures} {returns : Option Ty} {handed : Bool}
    {calls : List Frame} {below : Scopes} {kept : List Value}
    (h : Chain p sigs b returns handed calls below kept) : b.calls.length < calls.length := by
  induction h with
  | bottom => simp
  | call _ _ _ _ _ ih =>
    rw [List.length_cons]
    omega

/-- Below all scopes of the calls above lies that of the call that is looked at, and below it what
the caller may find. -/
theorem Chain.callee {p : Program} {sigs : Signatures} {returns : Option Ty} {handed : Bool}
    {calls : List Frame} {below : Scopes} {kept : List Value}
    (h : Chain p sigs b returns handed calls below kept) {n : Nat} {own : Scopes}
    (finals : own.map Scope.final = List.replicate n false ++ [true]) :
    ∃ inner callee lower, own ++ below = inner ++ callee :: lower ∧ callee.final = true ∧
      b.scopes.Receives b.returns lower := by
  induction h generalizing n own with
  | bottom hbelow =>
    obtain ⟨inner, last, rfl, _, hlast⟩ := List.map_eq_append_iff.1 finals
    obtain ⟨callee, rest, rfl, final, hrest⟩ := List.map_eq_cons_iff.1 hlast
    rw [List.map_eq_nil_iff.1 hrest]
    exact ⟨inner, callee, _, by simp, final, hbelow.receives⟩
  | call _ _ finals' _ _ ih =>
    obtain ⟨inner, callee, lower, eq, final, received⟩ := ih finals'
    exact ⟨own ++ inner, callee, lower, by rw [eq, List.append_assoc], final, received⟩

/-- A machine before a call has its arguments waiting. -/
theorem Sound.before_call (hp : Compiled functions m.host.contains m.program)
    (h : Sound m.program (signatures functions) s) {argc : Nat} {name : String}
    {returns : Option Ty} {label : Option String} {site : Position}
    (hi : m.program.code[s.pc]? = some ⟨.call name argc returns, label, site⟩) :
    s.running = true ∧ argc ≤ s.waiting.length ∧ s.scopes ≠ [] := by
  obtain ⟨call, exit, size⟩ := hp.start_code
  cases h with
  | starting running pc _ scopes waiting =>
    rw [pc, call] at hi
    cases hi
    exact ⟨running, Nat.zero_le _, by simp [scopes]⟩
  | inside inside =>
    obtain ⟨f, pc, sh, _, _, _, hs, within, _⟩ := inside
    obtain ⟨i, next, placed, hf, _⟩ := within.instr
    rw [hs.pc, placed] at hi
    cases hi
    simp only [Op.flow] at hf
    split at hf <;> cases hf
    rename_i ho
    obtain ⟨args, waiting, length⟩ := hs.waiting
    obtain ⟨scope, own, scopes⟩ := hs.own_cons
    refine ⟨hs.running, ?_, by simp [scopes]⟩
    rw [waiting, List.length_append]
    omega
  | returned returned =>
    have pc : s.pc = m.program.entry + 1 := returned.pc
    rw [pc, exit] at hi
    cases hi
  | ended _ pc =>
    obtain ⟨lt, _⟩ := Array.getElem?_eq_some_iff.1 hi
    omega

/-- The call that a machine is about to make. -/
def State.base (s : State) (argc : Nat) (returns : Option Ty) : Base :=
  ⟨s.pc + 1, returns, s.calls, s.scopes, s.waiting.drop argc⟩

/-- The step of a call leads inside it. -/
theorem Compiled.step_inside (hp : Compiled functions m.host.contains m.program) {f : Function}
    {argc : Nat} {name : String} {returns : Option Ty} {label : Option String} {site : Position}
    (hi : m.program.code[s.pc]? = some ⟨.call name argc returns, label, site⟩)
    (hf : functions.find? (·.name = name) = some f) (hr : s.running = true)
    (h : argc ≤ s.waiting.length) (hs : m.step s = .ok () t) :
    Inside m.program (signatures functions) (s.base argc f.returns) t := by
  obtain ⟨u, base, run, hu, within⟩ := hp.call_enters hi hf hr h m.inner
  have inside : Inside m.program (signatures functions) (s.base argc f.returns) u :=
    ⟨f, base, _, _, _, _, hu, within, .bottom rfl⟩
  have step := Machine.step_of_safe hi (.of_eq_ok run inside)
  rw [hs] at step
  exact step

/-- The return of the call that is looked at leads back to its caller. -/
theorem Inside.returns {sigs : Signatures} (h : Inside m.program sigs b s) {i : Instr}
    (hi : m.program.code[s.pc]? = some i) (ret : i.op = .ret)
    (top : s.calls.length = b.calls.length + 1) (hb : m.exhausted? s.steps = none) :
    ∃ t, m.step s = .ok () t ∧ Returned b t := by
  obtain ⟨f, pc, sh, calls, below, kept, hs, within, chain⟩ := h
  obtain ⟨j, next, placed, hf, -⟩ := within.instr
  obtain rfl : i = j := Option.some.inj ((hs.pc ▸ hi).symm.trans placed)
  rw [ret] at hf
  obtain ⟨handed, rfl⟩ := Op.flow_ret hf
  have hs := hs.counted
  rw [Machine.step_eq_execute hi hb, ret]
  generalize f.returns = returns at chain
  cases chain with
  | bottom hbelow =>
    obtain ⟨run, waiting, incoming⟩ := hs.ret (m := m) m.inner
    rw [run]
    exact ⟨_, rfl, hs.running, rfl, rfl, ⟨handed, hbelow⟩, waiting, incoming⟩
  | call _ _ _ _ chain =>
    have deeper := chain.length_lt
    have calls := congrArg List.length hs.calls
    simp only [Machine.counted, List.length_cons] at calls
    omega

end

/-- A call leaves its caller as it was: once the frame of the call is popped, the machine is behind
the call, with its arguments taken and at most one value of the declared type on the caller's
innermost stack. Until then no variable below the scope of the call changes. -/
theorem calling_convention {functions : List Function} {m : Machine}
    (h : compile functions m.host.contains = .ok m.program) (hh : m.host.Direct) {console : Console}
    {s entered t : State} (hs : m.Reaches console s) {f : Function} {name : String} {argc : Nat}
    {returns : Option Ty} {label : Option String} {site : Position}
    (hi : m.program.code[s.pc]? = some ⟨.call name argc returns, label, site⟩)
    (hf : functions.find? (·.name = name) = some f) (enter : m.step s = .ok () entered)
    (during : m.During s.calls.length entered t) :
    (∃ inner callee below, t.scopes = inner ++ callee :: below ∧ callee.final = true ∧
      below.map Scope.vars = s.scopes.map Scope.vars) ∧
    ∀ i, m.program.code[t.pc]? = some i → i.op = .ret → t.calls.length = s.calls.length + 1 →
      m.exhausted? t.steps = none →
      ∃ u, m.step t = .ok () u ∧ u.pc = s.pc + 1 ∧ u.calls = s.calls ∧
        u.waiting = s.waiting.drop argc ∧ s.scopes.Receives f.returns u.scopes := by
  have hp := compiled_of_compile h
  obtain ⟨running, waiting, scopes⟩ := (hs.sound hp hh).before_call hp hi
  have inside := (hp.step_inside hi hf running waiting enter).during hp hh scopes during
  constructor
  · obtain ⟨_, _, _, _, _, _, holds, _, chain⟩ := inside
    obtain ⟨own, eq, finals⟩ := holds.scopes
    obtain ⟨inner, callee, below, split, final, received⟩ := chain.callee finals
    exact ⟨inner, callee, below, eq.trans split, final, received.vars⟩
  · intro i placed ret top budget
    obtain ⟨u, step, returned⟩ := inside.returns placed ret top budget
    obtain ⟨handed, below⟩ := returned.scopes
    exact ⟨u, step, returned.pc, returned.calls, returned.waiting, below.receives⟩

/-- Doubles a number by a call. -/
def doubling : List Function :=
  [⟨⟨1, 1⟩, "main", [], none,
      [.assign ⟨2, 1⟩ (some .int) "n" (.literal ⟨2, 9⟩ (.int 4)),
        .expr ⟨3, 1⟩ (.call ⟨3, 1⟩ ⟨3, 1⟩ "double" [.var ⟨3, 8⟩ "n"])]⟩,
    ⟨⟨5, 1⟩, "double", [⟨⟨5, 8⟩, .int, "n"⟩], some .int,
      [.ret ⟨6, 1⟩ (some (.binary ⟨6, 10⟩ .add (.var ⟨6, 8⟩ "n") (.var ⟨6, 12⟩ "n")))]⟩]

theorem calling_convention_doubling :
    ∃ (m : Machine) (s entered t u : State), compile doubling m.host.contains = .ok m.program ∧
      m.Reaches (.ofInput [] none) s ∧ m.step s = .ok () entered ∧
      m.During s.calls.length entered t ∧ m.step t = .ok () u ∧ u.pc = s.pc + 1 ∧
      u.calls = s.calls ∧ u.waiting = s.waiting.drop 1 ∧
      s.scopes.Receives (some .int) u.scopes := by
  obtain ⟨p, s, entered, t, hp, run, hi, hf, enter, _, during, ret, top⟩ : ∃ p s entered t,
      compile doubling (Host.contains []) = .ok p ∧
      Machine.runFor ⟨p, [], none⟩ 11 (.initial p.entry (.ofInput [] none)) = .ok () s ∧
      p.code[s.pc]? = some ⟨.call "double" 1 (some .int), none, ⟨3, 1⟩⟩ ∧
      (doubling.find? (·.name = "double")).map (·.returns) = some (some .int) ∧
      Machine.step ⟨p, [], none⟩ s = .ok () entered ∧
      Machine.runFor ⟨p, [], none⟩ 8 entered = .ok () t ∧
      Machine.During ⟨p, [], none⟩ s.calls.length entered t ∧
      p.code[t.pc]? = some (.plain .ret ⟨6, 1⟩) ∧ t.calls.length = s.calls.length + 1 := by
    refine ⟨_, _, _, _, rfl, rfl, rfl, rfl, rfl, rfl, ?_, rfl, rfl⟩
    iterate 8 refine .head (by decide) rfl ?_
    exact .refl (by decide)
  obtain ⟨f, hf, returns⟩ := Option.map_eq_some_iff.1 hf
  have direct : Host.Direct [] := fun _ _ h => by cases h
  have reached : (Machine.mk p [] none).Reaches (.ofInput [] none) s :=
    Machine.Reaches.start.runFor run
  obtain ⟨_, back⟩ := calling_convention hp direct reached hi hf enter during
  obtain ⟨u, step, pc, calls, waiting, scopes⟩ := back _ ret rfl top rfl
  exact ⟨_, s, entered, t, u, hp, reached, enter, during, step, pc, calls, waiting,
    returns ▸ scopes⟩

end StackScript
