import StackScript.Proofs.Operands
import StackScript.Proofs.Simulation.Functions

/-!
# Compiled programs do what they mean

`compile_correct`: with no budget, the machine ends a compiled program with success exactly if the
evaluator does, with the same output and the same unread input. Unless an operator is without an
operand, it also ends with the same fault at the same place. `borrowing_misses`: where one is
without an operand, it may end with another fault.
-/

namespace StackScript

open Program (codeAt_append codeAt_cons)

theorem Host.standard_blind : Host.standard.Blind :=
  Host.forall_standard ⟨_, rfl⟩ ⟨_, rfl⟩ ⟨_, rfl⟩

section

variable {functions : List Function} {m : Machine}

/-- From its start the machine follows the call of the entry point to the exit behind it. -/
theorem sim_start (hp : Compiled functions m.host.contains m.program) (hb : m.budget = none)
    (hh : m.host.Blind) (n : Nat) (console : Console) :
    m.Sim n (m.start console)
      (fun _ c t => t.running = true ∧ ∃ u, m.step t = .ok () u ∧ u.running = false ∧ u.console = c)
      (evalMain Expr.valueOnto functions m.host n console) := by
  have hcode := hp.codeAt.2
  simp only [startCode, callCode, argsCode, List.nil_append, codeAt_append, codeAt_cons] at hcode
  obtain ⟨⟨hcall, _⟩, hexit, _⟩ := hcode
  have start : (m.start console).Stands m.program.entry [] [⟨[], [], true⟩]
      (([] : List Value).reverse ++ []) console := ⟨rfl, rfl, rfl, rfl, rfl, rfl⟩
  refine (sim_invoke hp hb hh n start hcall).imp fun v c t ht => ⟨ht.running, ?_⟩
  exact ⟨_, ht.step_ok hb hexit rfl, rfl, ht.console⟩

theorem Machine.Fails.outcome? {console : Console} {e : ExecutionError} {c : Console}
    (h : m.Fails (m.start console) e c) :
    ∃ steps, m.outcome? steps console = some (.error e c) := by
  obtain ⟨k, t, u, path, hr, step, hc⟩ := h
  refine ⟨k + 1, ?_⟩
  rw [Machine.outcome?_eq, path.runFor_add, Machine.runFor, if_pos hr, step]
  simp only [hc]

/-- What the evaluation onto waiting operands ends with, the machine ends with. -/
theorem outcome?_of_ending? (hp : Compiled functions m.host.contains m.program)
    (hb : m.budget = none) (hh : m.host.Blind) {fuel : Nat} {console : Console}
    {o : EStateM.Result ExecutionError Console Unit}
    (h : (evalMain Expr.valueOnto functions m.host fuel console).ending? = some o) :
    ∃ steps, m.outcome? steps console = some o := by
  have sim := sim_start hp hb hh fuel console
  cases hx : evalMain Expr.valueOnto functions m.host fuel console with
  | done v c =>
    rw [hx] at h sim
    obtain ⟨k, t, path, hr, u, step, ended, hc⟩ := sim
    have path := path.trans (.step hr step (.refl u))
    refine ⟨k + 1, ?_⟩
    rw [Machine.outcome?_eq, ← Nat.add_zero (k + 1), path.runFor_add, Machine.runFor]
    simp only [ended, hc]
    exact h
  | fault e c | lacks pos c =>
    rw [hx] at h sim
    obtain ⟨⟩ := h
    exact Machine.Fails.outcome? sim
  | exhausted =>
    rw [hx] at h
    cases h

/-- A machine that ends in some number of steps is not followed beyond them, so that this much fuel
lets the evaluation end. -/
theorem ending?_of_outcome? (hp : Compiled functions m.host.contains m.program)
    (hb : m.budget = none) (hh : m.host.Blind) {steps : Nat} {console : Console}
    {o : EStateM.Result ExecutionError Console Unit} (h : m.outcome? steps console = some o) :
    ∃ fuel, (evalMain Expr.valueOnto functions m.host fuel console).ending? = some o := by
  have sim := sim_start hp hb hh (steps + 1) console
  have ends : (evalMain Expr.valueOnto functions m.host (steps + 1) console).ending?.isSome := by
    cases hx : evalMain Expr.valueOnto functions m.host (steps + 1) console with
    | done | fault | lacks => rfl
    | exhausted =>
      rw [hx] at sim
      obtain ⟨k, t, hk, path⟩ := sim
      obtain ⟨u, run, running⟩ := path.runFor_running (n := steps) (by omega)
      rw [Machine.outcome?_eq, run] at h
      simp [running] at h
  obtain ⟨o', ho'⟩ := Option.isSome_iff_exists.1 ends
  obtain ⟨steps', same⟩ := outcome?_of_ending? hp hb hh ho'
  exact ⟨steps + 1, Machine.outcome?_unique h same ▸ ho'⟩

end

/-- A machine without a budget ends a compiled program with success exactly if the program means
that, and leaves the same output and input. And if no operator comes to be without an operand, it
ends the program with any outcome exactly if the program means that outcome. -/
theorem compile_correct {functions : List Function} {p : Program}
    (h : compile functions Host.standard.contains = .ok p) (console : Console) :
    (∀ c, (∃ fuel, meaning? functions .standard fuel console = some (.ok () c)) ↔
      ∃ steps, (Machine.mk p .standard none).outcome? steps console = some (.ok () c)) ∧
    (¬LacksOperand functions .standard console →
      ∀ o, (∃ fuel, meaning? functions .standard fuel console = some o) ↔
        ∃ steps, (Machine.mk p .standard none).outcome? steps console = some o) := by
  have hp := compiled_of_compile h
  have follows (o : EStateM.Result ExecutionError Console Unit) :
      (∃ fuel, (evalMain Expr.valueOnto functions .standard fuel console).ending? = some o) ↔
        ∃ steps, (Machine.mk p .standard none).outcome? steps console = some o :=
    ⟨fun ⟨_, ho⟩ => outcome?_of_ending? (m := ⟨p, .standard, none⟩) hp rfl Host.standard_blind ho,
      fun ⟨_, ho⟩ => ending?_of_outcome? (m := ⟨p, .standard, none⟩) hp rfl Host.standard_blind ho⟩
  have agrees (fuel : Nat) := invoke_agrees functions .standard fuel .none "main" []
  refine ⟨fun c => (exists_congr fun fuel => ?_).trans (follows _), fun whole o =>
    (exists_congr fun fuel => ?_).trans (follows o)⟩
  · exact (agrees fuel).ending?_eq_ok
  · have same := (agrees fuel).eq fun pos d lacks => whole ⟨fuel, pos, d, lacks⟩
    rw [meaning?, evalMain, evalMain, same]

/-- Divides by a number after the other, until that fails. -/
def divisions : List Function :=
  [⟨⟨1, 1⟩, "main", [], none,
      [.range ⟨2, 1⟩ (.literal ⟨2, 7⟩ (.int 2)) (.literal ⟨2, 7⟩ (.int 5)) "i"
        [.call ⟨3, 1⟩ ⟨3, 1⟩ "out" [.call ⟨3, 5⟩ ⟨3, 5⟩ "divide"
          [.binary ⟨3, 14⟩ .sub (.var ⟨3, 12⟩ "i") (.literal ⟨3, 16⟩ (.int 3))]]]]⟩,
    ⟨⟨5, 1⟩, "divide", [⟨⟨5, 8⟩, .int, "n"⟩], some .int,
      [.ret ⟨6, 1⟩ (some (.binary ⟨6, 10⟩ .div (.literal ⟨6, 8⟩ (.int 8)) (.var ⟨6, 12⟩ "n")))]⟩]

theorem compile_correct_divisions :
    ∃ p, compile divisions Host.standard.contains = .ok p ∧
      ¬LacksOperand divisions .standard (.ofInput [65] none) ∧
      ∃ steps, (Machine.mk p .standard none).outcome? steps (.ofInput [65] none) =
        some (.error ⟨⟨6, 10⟩, .divisionByZero⟩ ⟨[65], #[45, 56, 10], none⟩) := by
  obtain ⟨p, hp⟩ : ∃ p, compile divisions Host.standard.contains = .ok p := ⟨_, rfl⟩
  have fails : evalMain Expr.eval divisions .standard 4 (.ofInput [65] none) =
      .fault ⟨⟨6, 10⟩, .divisionByZero⟩ ⟨[65], #[45, 56, 10], none⟩ := rfl
  have whole : ¬LacksOperand divisions .standard (.ofInput [65] none) := by
    rintro ⟨fuel, pos, c, lacks⟩
    have same := evalMain_unique (n := fuel) (k := 4) (by rw [lacks]; simp) (by rw [fails]; simp)
    rw [lacks, fails] at same
    cases same
  have ends := ((compile_correct hp (.ofInput [65] none)).2 whole _).1 ⟨4, congrArg _ fails⟩
  exact ⟨p, hp, whole, ends⟩

/-- The division is without an operand, and the machine does not say so: it divides the operand that
waits for the addition. -/
theorem borrowing_misses :
    ∃ p, compile borrowing Host.standard.contains = .ok p ∧
      (∃ fuel, meaning? borrowing .standard fuel (.ofInput [] none) =
        some (.error ⟨⟨1, 48⟩, .emptyStack⟩ (.ofInput [] none))) ∧
      (∃ steps, (Machine.mk p .standard none).outcome? steps (.ofInput [] none) =
        some (.error ⟨⟨1, 48⟩, .divisionByZero⟩ (.ofInput [] none))) ∧
      ¬∃ steps, (Machine.mk p .standard none).outcome? steps (.ofInput [] none) =
        some (.error ⟨⟨1, 48⟩, .emptyStack⟩ (.ofInput [] none)) := by
  obtain ⟨p, hp, ends⟩ : ∃ p, compile borrowing Host.standard.contains = .ok p ∧
      (Machine.mk p .standard none).outcome? 10 (.ofInput [] none) =
        some (.error ⟨⟨1, 48⟩, .divisionByZero⟩ (.ofInput [] none)) := ⟨_, rfl, rfl⟩
  refine ⟨p, hp, ⟨2, rfl⟩, ⟨10, ends⟩, ?_⟩
  rintro ⟨steps, misses⟩
  cases Machine.outcome?_unique ends misses

end StackScript
