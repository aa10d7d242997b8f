import StackScript.Proofs.Assignment
import StackScript.Proofs.Halting
import StackScript.Proofs.Locals

/-!
# Range loops, exactly

* `stepToward_toInt`: a step towards the bound is never too large for an integer;
* `Machine.Leads`: where the next step leads, if the budget is not used up;
* `Program.LoopAt`: what each instruction of a loop does, from a state with these values;
* `Machine.Rounds`: so many rounds of a loop, and `Machine.Rounds.looping`, its variable after them;
* `Machine.exists_rounds`: rounds are made until the variable has come to its bound;
* `RangeLoop.Begins`: the ends of a loop of the program are evaluated;
* `range_exact`: how often the body is executed, and with which values.
-/

namespace StackScript

/-! ## Steps towards the bound -/

/-- A step towards the bound is one up or down, and never too large for an integer. -/
theorem stepToward_toInt (current last : Int64) :
    (stepToward current last).toInt = current.toInt + (last.toInt - current.toInt).sign := by
  have := current.toInt_lt
  have := current.le_toInt
  have := last.toInt_lt
  have := last.le_toInt
  unfold stepToward
  simp only [Int64.lt_iff_toInt_lt]
  obtain below | same | above := Int.lt_trichotomy current.toInt last.toInt
  · have up : (current + 1).toInt = current.toInt + 1 := by
      rw [Int64.toInt_add]
      exact Int.bmod_eq_of_le (by simp; omega) (by simp; omega)
    rw [if_pos below, up, Int.sign_eq_one_of_pos (by omega)]
  · rw [if_neg (by omega), if_neg (by omega), same, Int.sub_self, Int.sign_zero, Int.add_zero]
  · have down : (current - 1).toInt = current.toInt - 1 := by
      rw [Int64.toInt_sub]
      exact Int.bmod_eq_of_le (by simp; omega) (by simp; omega)
    rw [if_neg (by omega), if_pos above, down, Int.sign_eq_neg_one_of_neg (by omega)]
    rfl

/-- The value of a loop from `n` to `e` after so many steps. -/
def countTo (n e : Int64) (k : Nat) : Int :=
  if n.toInt ≤ e.toInt then n.toInt + k else n.toInt - k

theorem countTo_succ {n e : Int64} {k : Nat} (h : k < distance e n) :
    countTo n e k ≠ e.toInt ∧
      countTo n e k + (e.toInt - countTo n e k).sign = countTo n e (k + 1) := by
  unfold distance at h
  unfold countTo
  split
  · rw [Int.sign_eq_one_of_pos (by omega)]
    omega
  · rw [Int.sign_eq_neg_one_of_neg (by omega)]
    omega

theorem countTo_distance (n e : Int64) : countTo n e (distance e n) = e.toInt := by
  unfold countTo distance
  split <;> omega

/-! ## Instructions -/

namespace Machine

variable {m : Machine} {inner : State → StepResult} {s t : State} {name label : String}
  {n e : Int64}

theorem int_eq_ok : rangeBounds.int name s = .ok n t ↔
    s.scopes.lookup name = .ok (.int n) ∧ s = t := by
  rw [rangeBounds.int, Exec.run_bind, Exec.run_lookup]
  cases s.scopes.lookup name with
  | error f => simp
  | ok v => cases v <;> simp

theorem rangeBounds_eq_ok : rangeBounds name s = .ok (n, e) t ↔
    s.scopes.lookup name = .ok (.int n) ∧ s.scopes.lookup (boundName name) = .ok (.int e) ∧
      s = t := by
  simp only [rangeBounds, Exec.bind_eq_ok, int_eq_ok]
  constructor
  · rintro ⟨_, _, ⟨hn, rfl⟩, _, _, ⟨he, rfl⟩, run⟩
    cases run
    exact ⟨hn, he, rfl⟩
  · rintro ⟨hn, he, rfl⟩
    exact ⟨n, s, ⟨hn, rfl⟩, e, s, ⟨he, rfl⟩, rfl⟩

/-- The test jumps if the variable has the value of its bound. -/
theorem execute_rangeTest {ty ty' : Ty} (hn : s.scopes.get? name = some ⟨.int n, ty⟩)
    (he : s.scopes.get? (boundName name) = some ⟨.int e, ty'⟩) :
    m.execute inner (.rangeTest name label) s =
      if n = e then m.jump label s else .ok () s := by
  have bounds : rangeBounds name s = .ok (n, e) s :=
    rangeBounds_eq_ok.2 ⟨by rw [Scopes.lookup, hn], by rw [Scopes.lookup, he], rfl⟩
  rw [execute, Exec.run_bind, bounds]
  dsimp only
  split <;> rfl

/-- The step gives the variable its next value and goes back. -/
theorem execute_rangeStep {ty : Ty} {goal : Nat} (hn : s.scopes.get? name = some ⟨.int n, .int⟩)
    (he : s.scopes.get? (boundName name) = some ⟨.int e, ty⟩)
    (resolves : m.program.resolve label = some goal) :
    m.execute inner (.rangeStep name label) s = .ok () { s with
      scopes := s.scopes.replace name ⟨.int (stepToward n e), .int⟩, pc := goal } := by
  have bounds : rangeBounds name s = .ok (n, e) s :=
    rangeBounds_eq_ok.2 ⟨by rw [Scopes.lookup, hn], by rw [Scopes.lookup, he], rfl⟩
  have assigned : s.scopes.assign name (.int (stepToward n e)) none =
      .ok (s.scopes.replace name ⟨.int (stepToward n e), .int⟩) := by
    rw [Scopes.assign_eq]
    unfold Value.check
    simp only [hn]
    rfl
  simp only [execute, Exec.run_bind, bounds, Exec.run_assign, assigned, run_jump, resolves]

/-- In every program, a step takes the variable one step towards its bound. -/
theorem rangeStep_toward (run : m.execute inner (.rangeStep name label) s = .ok () t) :
    ∃ n e : Int64, s.scopes.lookup name = .ok (.int n) ∧
      s.scopes.lookup (boundName name) = .ok (.int e) ∧
      t.scopes.lookup name = .ok (.int (stepToward n e)) := by
  obtain ⟨⟨n, e⟩, _, bounds, run⟩ := Exec.bind_eq_ok.1 run
  obtain ⟨hn, he, rfl⟩ := rangeBounds_eq_ok.1 bounds
  obtain ⟨⟨⟩, u, moved, run⟩ := Exec.bind_eq_ok.1 run
  obtain ⟨ss, assigned, rfl⟩ := Exec.assign_eq_ok.1 moved
  obtain ⟨old, found, -, rfl⟩ := Scopes.assign_none assigned
  refine ⟨n, e, hn, he, ?_⟩
  rw [run_jump] at run
  cases resolves : m.program.resolve label with
  | none =>
    rw [resolves] at run
    cases run
  | some goal =>
    rw [resolves] at run
    cases run
    rw [Scopes.lookup, Scopes.get?_replace _ _ (by rw [found]; rfl), if_pos rfl]

/-- The next step leads to `t` and nowhere else, unless the budget is used up. -/
structure Leads (m : Machine) (s t : State) : Prop where
  only : ∀ u, m.step s = .ok () u → u = t
  step : m.exhausted? s.steps = none → m.step s = .ok () t

theorem leads_of_execute {i : Instr} (instr : m.program.code[s.pc]? = some i)
    (run : m.execute m.inner i.op (counted s) = .ok () t) : m.Leads s t := by
  constructor
  · intro u step
    cases run.symm.trans (execute_of_step instr step)
    rfl
  · intro hb
    rw [step_eq_execute instr hb, run]

/-- A bound of a loop is bound to its integer. -/
theorem step_assign {op : Option String} {pos : Position}
    (instr : m.program.code[s.pc]? = some ⟨.assign (some .int) name, op, pos⟩)
    (hr : s.result = some (.int n)) (step : m.step s = .ok () t) :
    t.running = s.running ∧ t.pc = s.pc + 1 ∧ t.calls = s.calls ∧
      ∀ other, t.scopes.get? other =
        if other = name then some ⟨.int n, .int⟩ else s.scopes.get? other := by
  obtain ⟨v, _, taken, run⟩ := Exec.bind_eq_ok.1 (execute_of_step instr step)
  obtain ⟨result, rfl⟩ := Exec.takeResult_eq_ok.1 taken
  obtain ⟨ss, assigned, rfl⟩ := Exec.assign_eq_ok.1 run
  obtain rfl : Value.int n = v := Option.some.inj (hr.symm.trans result)
  exact ⟨rfl, rfl, rfl, Scopes.get?_assign assigned⟩

theorem assign_leads {op : Option String} {pos : Position} {b : Binding} {other : String}
    (instr : m.program.code[s.pc]? = some ⟨.assign (some .int) name, op, pos⟩)
    (hr : s.result = some (.int n)) (found : s.scopes.get? other = some b) :
    ∃ t, m.Leads s t ∧ t.running = s.running ∧ t.pc = s.pc + 1 ∧ t.calls = s.calls ∧
      ∀ other, t.scopes.get? other =
        if other = name then some ⟨.int n, .int⟩ else s.scopes.get? other := by
  cases hs : s.scopes with
  | nil =>
    rw [hs] at found
    cases found
  | cons scope rest =>
    obtain ⟨ss, assigned⟩ := Scopes.exists_assign scope rest name (.int n)
    have run : m.execute m.inner (.assign (some .int) name) (counted s) =
        .ok () { counted s with result := none, scopes := ss } := by
      have taken : (counted s).result = some (.int n) := hr
      have scopes : (counted s).scopes = scope :: rest := hs
      simp only [execute, Exec.run_bind, Exec.run_takeResult, taken, Exec.run_assign, scopes]
      rw [show some Ty.int = some (Value.int n).ty from rfl, assigned]
    exact ⟨_, leads_of_execute instr run, rfl, rfl, rfl, Scopes.get?_assign assigned⟩

end Machine

/-! ## The loop -/

/-- The variable of a loop and its bound have these values, both of them integers. -/
structure State.Ranges (s : State) (name : String) (n e : Int64) : Prop where
  var : s.scopes.get? name = some ⟨.int n, .int⟩
  bound : s.scopes.get? (boundName name) = some ⟨.int e, .int⟩

/-- A running machine at `pc` on top of these calls, in a loop with these values. -/
structure State.Looping (s : State) (pc : Nat) (calls : List Frame) (name : String) (n e : Int64) :
    Prop where
  running : s.running = true
  pc : s.pc = pc
  calls : s.calls = calls
  ranges : s.Ranges name n e

/-- A loop in a listing: its test at the head, the body, the step and the marker behind it. -/
structure Program.LoopAt (p : Program) (head length : Nat) (name : String) : Prop where
  test : ∃ finish label pos, p.code[head]? = some ⟨.rangeTest name finish, label, pos⟩ ∧
    p.resolve finish = some (head + length + 2)
  back : ∃ start label pos, p.code[head + 1 + length]? = some ⟨.rangeStep name start, label, pos⟩ ∧
    p.resolve start = some head
  behind : ∃ label pos, p.code[head + length + 2]? = some ⟨.marker .rangeEnd, label, pos⟩

/-- From `c`, where the value of the bound is known, so many rounds of the loop lead to this state
before its test. -/
inductive Machine.Rounds (m : Machine) (head length : Nat) (c : State) : Nat → State → Prop
  | zero {d : State} : m.step c = .ok () d → Rounds m head length c 0 d
  | succ {k : Nat} {x y z w : State} : Rounds m head length c k x → m.step x = .ok () y →
    y.pc = head + 1 → m.Crosses (head + 1) (head + 1 + length) y z → m.step z = .ok () w →
    Rounds m head length c (k + 1) w

/-- The instruction at this place calls nothing. -/
def Program.SilentAt (p : Program) (pc : Nat) : Prop :=
  ∃ i, p.code[pc]? = some i ∧ ∀ name argc declared, i.op ≠ .call name argc declared

namespace Program.LoopAt

variable {m : Machine} {head length : Nat} {name : String} {s t : State} {calls : List Frame}
  {n e : Int64}

theorem silent_test {p : Program} (h : p.LoopAt head length name) : p.SilentAt head := by
  obtain ⟨_, _, _, instr, -⟩ := h.test
  exact ⟨_, instr, fun _ _ _ => by simp⟩

theorem silent_back {p : Program} (h : p.LoopAt head length name) :
    p.SilentAt (head + 1 + length) := by
  obtain ⟨_, _, _, instr, -⟩ := h.back
  exact ⟨_, instr, fun _ _ _ => by simp⟩

theorem silent_behind {p : Program} (h : p.LoopAt head length name) :
    p.SilentAt (head + length + 2) := by
  obtain ⟨_, _, instr⟩ := h.behind
  exact ⟨_, instr, fun _ _ _ => by simp⟩

/-- The test leaves the loop if the values are the same. -/
theorem test_leads (h : m.program.LoopAt head length name) (hs : s.Looping head calls name n e) :
    ∃ t, m.Leads s t ∧
      t.Looping (if n = e then head + length + 2 else head + 1) calls name n e := by
  obtain ⟨finish, label, pos, instr, resolves⟩ := h.test
  have leads {t : State} (run : (if n = e then m.jump finish (Machine.counted s)
      else .ok () (Machine.counted s)) = .ok () t) : m.Leads s t :=
    Machine.leads_of_execute (hs.pc.symm ▸ instr)
      ((Machine.execute_rangeTest (s := Machine.counted s) hs.ranges.var hs.ranges.bound).trans run)
  by_cases same : n = e
  · refine ⟨{ Machine.counted s with pc := head + length + 2 }, leads ?_, ?_⟩
    · rw [if_pos same, Machine.run_jump, resolves]
    · rw [if_pos same]
      exact ⟨hs.running, rfl, hs.calls, hs.ranges.var, hs.ranges.bound⟩
  · refine ⟨Machine.counted s, leads (if_neg same), ?_⟩
    rw [if_neg same]
    exact ⟨hs.running, congrArg (· + 1) hs.pc, hs.calls, hs.ranges.var, hs.ranges.bound⟩

/-- The end of the body leads back to the test, with the next value. -/
theorem back_leads (h : m.program.LoopAt head length name)
    (hs : s.Looping (head + 1 + length) calls name n e) :
    ∃ t, m.Leads s t ∧ t.Looping head calls name (stepToward n e) e := by
  obtain ⟨start, label, pos, instr, resolves⟩ := h.back
  have found : (s.scopes.get? name).isSome = true := by rw [hs.ranges.var]; rfl
  refine ⟨_, Machine.leads_of_execute (hs.pc.symm ▸ instr) (Machine.execute_rangeStep
    (s := Machine.counted s) hs.ranges.var hs.ranges.bound resolves), ?_⟩
  refine ⟨hs.running, rfl, hs.calls, ?_, ?_⟩
  · exact (Scopes.get?_replace _ _ found).trans (if_pos rfl)
  · refine (Scopes.get?_replace _ _ found).trans ?_
    rw [if_neg (ne_boundName name).symm]
    exact hs.ranges.bound

/-- Behind the loop is only its marker. -/
theorem behind_leads (h : m.program.LoopAt head length name)
    (hs : s.Looping (head + length + 2) calls name n e) :
    ∃ t, m.Leads s t ∧ t.Looping (head + length + 3) calls name n e := by
  obtain ⟨label, pos, instr⟩ := h.behind
  exact ⟨Machine.counted s, Machine.leads_of_execute (hs.pc.symm ▸ instr) rfl, hs.running,
    congrArg (· + 1) hs.pc, hs.calls, hs.ranges.var, hs.ranges.bound⟩

end Program.LoopAt

/-! ## Rounds -/

/-- Every execution of the body comes to its end, and leaves the variable of the loop and its bound
as they are. -/
def Machine.RoundsPass (m : Machine) (head length : Nat) (name : String) (c : State) : Prop :=
  ∀ k x y, m.Rounds head length c k x → m.step x = .ok () y → y.pc = head + 1 →
    ∃ z, m.Crosses (head + 1) (head + 1 + length) y z ∧
      z.scopes.get? name = y.scopes.get? name ∧
      z.scopes.get? (boundName name) = y.scopes.get? (boundName name)

/-- In this piece of the code, the budget may be used up. -/
def Machine.Starves (m : Machine) (calls : List Frame) (lo hi : Nat) (s : State) : Prop :=
  ∃ t budget, m.Along (m.RunsIn calls lo hi) s t ∧ m.RunsIn calls lo hi t ∧
    m.exhausted? t.steps = some budget

/-- Without a budget, it is never used up. -/
theorem Machine.Starves.budget_ne {m : Machine} {calls : List Frame} {lo hi : Nat} {s : State}
    (h : m.Starves calls lo hi s) : m.budget ≠ none := by
  intro unbounded
  obtain ⟨t, budget, -, -, exhausted⟩ := h
  cases (exhausted?_none unbounded t.steps).symm.trans exhausted

section

variable {m : Machine} {head length lo hi : Nat} {name : String} {c d s t u : State}
  {calls : List Frame} {n e v : Int64} {k : Nat}

/-- A loop is inside its code where it stands before an instruction that calls nothing. -/
theorem State.Looping.runsIn {pc : Nat} (hs : s.Looping pc calls name n e)
    (silent : m.program.SilentAt pc) (low : lo ≤ pc) (high : pc < hi) : m.RunsIn calls lo hi s := by
  obtain ⟨i, hi, hc⟩ := silent
  exact .of_ne_call (hs.pc.symm ▸ hi) hc hs.running
    (.inr ⟨hs.calls, hs.pc.symm ▸ low, hs.pc.symm ▸ high⟩)

theorem Machine.Crosses.within {lo' hi' : Nat} (h : m.Crosses lo hi s t) (low : lo' ≤ lo)
    (high : hi ≤ hi') : m.Along (m.RunsIn s.calls lo' hi') s t :=
  h.along.imp fun _ here => here.widen low high

/-- Steps go on by the next one, unless the budget is used up. -/
theorem Machine.Along.next (h : m.Along (m.RunsIn calls lo hi) s t) (ht : m.RunsIn calls lo hi t)
    (leads : m.Leads t u) : m.Starves calls lo hi s ∨
      m.step t = .ok () u ∧ m.Along (m.RunsIn calls lo hi) s u := by
  cases hb : m.exhausted? t.steps with
  | some budget => exact .inl ⟨t, budget, h, ht, hb⟩
  | none => exact .inr ⟨leads.step hb, h.trans (.step ht (leads.step hb) (.refl u))⟩

theorem State.Looping.crossed (hs : s.Looping (head + 1) calls name n e)
    (crosses : m.Crosses (head + 1) (head + 1 + length) s t)
    (var : t.scopes.get? name = s.scopes.get? name)
    (bound : t.scopes.get? (boundName name) = s.scopes.get? (boundName name)) :
    t.Looping (head + 1 + length) calls name n e :=
  ⟨crosses.running, crosses.pc, crosses.calls.trans hs.calls,
    var.trans hs.ranges.var, bound.trans hs.ranges.bound⟩

/-- The value of the variable tells whether all rounds are made. -/
theorem countTo_eq_iff (value : v.toInt = countTo n e k) (most : k ≤ distance e n) :
    v = e ↔ k = distance e n := by
  constructor
  · rintro rfl
    by_contra other
    exact (countTo_succ (Nat.lt_of_le_of_ne most other)).1 value.symm
  · rintro rfl
    exact Int64.toInt_inj.1 (value.trans (countTo_distance n e))

/-- However many rounds are made, the variable has come as far towards its bound. -/
theorem Machine.Rounds.looping (loop : m.program.LoopAt head length name)
    (pass : m.RoundsPass head length name c)
    (start : m.Leads c d) (hd : d.Looping head calls name n e)
    (rounds : m.Rounds head length c k s) : k ≤ distance e n ∧
      ∃ v : Int64, v.toInt = countTo n e k ∧ s.Looping head calls name v e := by
  induction rounds with
  | zero step => exact ⟨Nat.zero_le _, n, by simp [countTo], start.only _ step ▸ hd⟩
  | @succ k x y z w before test enters crosses back ih =>
    obtain ⟨most, v, value, hx⟩ := ih
    obtain ⟨_, leads, hy⟩ := loop.test_leads hx
    obtain rfl := leads.only _ test
    have apart : v ≠ e := by
      intro same
      rw [if_pos same] at hy
      have := hy.pc
      omega
    rw [if_neg apart] at hy
    have more : k < distance e n :=
      Nat.lt_of_le_of_ne most fun all => apart ((countTo_eq_iff value most).2 all)
    obtain ⟨z', crosses', var, bound⟩ := pass k x y before test enters
    obtain rfl := crosses.unique crosses'
    obtain ⟨_, leads, hw⟩ := loop.back_leads (hy.crossed crosses var bound)
    obtain rfl := leads.only _ back
    exact ⟨more, _, by rw [stepToward_toInt, value, (countTo_succ more).2], hw⟩

/-- As many rounds are made as there are steps to the bound, unless the budget is used up. -/
theorem Machine.exists_rounds (loop : m.program.LoopAt head length name)
    (pass : m.RoundsPass head length name c)
    (start : m.Leads c d) (hd : d.Looping head calls name n e)
    (along : m.Along (m.RunsIn calls lo hi) s c) (inside : m.RunsIn calls lo hi c) (low : lo ≤ head)
    (high : head + length + 2 < hi) (most : k ≤ distance e n) :
    m.Starves calls lo hi s ∨
      ∃ x, m.Rounds head length c k x ∧ m.Along (m.RunsIn calls lo hi) s x := by
  induction k with
  | zero =>
    refine (along.next inside start).imp_right ?_
    rintro ⟨step, along⟩
    exact ⟨d, .zero step, along⟩
  | succ k ih =>
    obtain starves | ⟨x, rounds, along⟩ := ih (Nat.le_of_succ_le most)
    · exact .inl starves
    obtain ⟨le, v, value, hx⟩ := rounds.looping loop pass start hd
    have apart : v ≠ e := fun same => by
      have := (countTo_eq_iff value le).1 same
      omega
    obtain ⟨y, leads, hy⟩ := loop.test_leads hx
    obtain starves | ⟨test, along⟩ := along.next (hx.runsIn loop.silent_test low (by omega)) leads
    · exact .inl starves
    rw [if_neg apart] at hy
    obtain ⟨z, crosses, var, bound⟩ := pass k x y rounds test hy.pc
    have hz := hy.crossed crosses var bound
    have through : m.Along (m.RunsIn y.calls lo hi) y z := crosses.within (by omega) (by omega)
    rw [hy.calls] at through
    obtain ⟨w, leads, -⟩ := loop.back_leads hz
    refine ((along.trans through).next (hz.runsIn loop.silent_back (by omega) (by omega))
      leads).imp_right ?_
    rintro ⟨back, along⟩
    exact ⟨w, .succ rounds test hy.pc crosses back, along⟩

end

/-! ## Range loops of a program -/

/-- A range loop and where its code lies. -/
structure RangeLoop where
  pos : Position
  first : Expr
  last : Expr
  name : String
  body : List Stmt
  base : Nat

namespace RangeLoop

variable (r : RangeLoop) (sigs : Signatures)

def code : List Instr := (Stmt.range r.pos r.first r.last r.name r.body).code sigs r.base

/-- The code of the ends, each with the assignment behind it. -/
def ends : List Instr :=
  r.first.scopedCode sigs ++ [.plain (.assign (some .int) r.name) r.pos]
    ++ r.last.scopedCode sigs ++ [.plain (.assign (some .int) (boundName r.name)) r.pos]

/-- The place of the test, behind the ends. -/
def head : Nat := r.base + (r.ends sigs).length

/-- The length of the body. -/
def length : Nat := (bodyCode sigs (r.head sigs + 1) r.body).length

/-- From `s`, where the loop starts, its ends are evaluated, the last one once the variable has the
value of the first. At `c` the value of the last one is at hand. -/
def Begins (m : Machine) (n e : Int64) (s c : State) : Prop :=
  ∃ a b, s.pc = r.base ∧ m.Crosses s.pc (s.pc + (r.first.scopedCode sigs).length) s a ∧
    a.result = some (.int n) ∧ m.step a = .ok () b ∧
    m.Crosses b.pc (b.pc + (r.last.scopedCode sigs).length) b c ∧ c.result = some (.int e)

variable {r sigs} {p : Program} {m : Machine} {n e : Int64} {s c d : State}

theorem code_eq : r.code sigs = r.ends sigs ++
    ([.labeled (Label.indexed "forinc" (r.head sigs))
        (.rangeTest r.name (Label.indexed "forinc_e" (r.head sigs))) r.pos] ++
      bodyCode sigs (r.head sigs + 1) r.body ++
      [.plain (.rangeStep r.name (Label.indexed "forinc" (r.head sigs))) r.pos,
        .labeled (Label.indexed "forinc_e" (r.head sigs)) (.marker .rangeEnd) r.pos]) := by
  rw [code, Stmt.code, List.append_assoc, List.append_assoc, ← List.append_assoc [_]]
  rfl

theorem head_eq : r.head sigs =
    r.base + (r.first.scopedCode sigs).length + 1 + (r.last.scopedCode sigs).length + 1 := by
  simp only [head, ends, List.length_append, List.length_singleton]
  omega

theorem base_add_length : r.base + (r.code sigs).length = r.head sigs + r.length sigs + 3 := by
  rw [code_eq, head, length, head]
  simp only [List.length_append, List.length_cons, List.length_nil]
  omega

theorem ends_at (placed : p.CodeAt r.base (r.code sigs)) :
    p.CodeAt r.base (r.first.scopedCode sigs) ∧
      p.code[r.base + (r.first.scopedCode sigs).length]? =
        some (.plain (.assign (some .int) r.name) r.pos) ∧
      p.CodeAt (r.base + (r.first.scopedCode sigs).length + 1) (r.last.scopedCode sigs) ∧
      p.code[r.base + (r.first.scopedCode sigs).length + 1 + (r.last.scopedCode sigs).length]? =
        some (.plain (.assign (some .int) (boundName r.name)) r.pos) := by
  rw [code_eq, Program.codeAt_append] at placed
  have ends := placed.1
  simp only [RangeLoop.ends, Program.codeAt_append, Program.codeAt_cons, List.length_append,
    List.length_cons, List.length_nil] at ends
  obtain ⟨⟨⟨first, assign, -⟩, last⟩, bound, -⟩ := ends
  exact ⟨first, assign, last.at (by omega), (congrArg (p.code[·]?) (by omega)).trans bound⟩

theorem loopAt (hl : p.LabelsMatch) (placed : p.CodeAt r.base (r.code sigs)) :
    p.LoopAt (r.head sigs) (r.length sigs) r.name := by
  rw [code_eq, Program.codeAt_append] at placed
  have loop := placed.2
  have size : (bodyCode sigs (r.head sigs + 1) r.body).length = r.length sigs := rfl
  rw [← head] at loop
  simp only [Program.codeAt_append, Program.codeAt_cons, List.length_append, List.length_cons,
    List.length_nil, size] at loop
  obtain ⟨⟨⟨test, -⟩, -⟩, back, behind, -⟩ := loop
  have back : p.code[r.head sigs + 1 + r.length sigs]? = _ :=
    (congrArg (p.code[·]?) (by omega)).trans back
  have behind : p.code[r.head sigs + r.length sigs + 2]? = _ :=
    (congrArg (p.code[·]?) (by omega)).trans behind
  exact ⟨⟨_, _, _, test, hl.resolve_eq behind⟩, ⟨_, _, _, back, hl.resolve_eq test⟩, ⟨_, _, behind⟩⟩

/-- What is known of the machine when the ends are evaluated. -/
theorem Begins.at {functions : List Function}
    (hp : Compiled functions m.host.contains m.program)
    (placed : m.program.CodeAt r.base (r.code (signatures functions)))
    (h : r.Begins (signatures functions) m n e s c) :
    c.running = true ∧ c.pc + 1 = r.head (signatures functions) ∧ c.calls = s.calls ∧
      c.scopes.get? r.name = some ⟨.int n, .int⟩ ∧ c.result = some (.int e) ∧
      m.program.code[c.pc]? = some (.plain (.assign (some .int) (boundName r.name)) r.pos) ∧
      m.Along (m.RunsIn s.calls r.base (r.head (signatures functions))) s c := by
  obtain ⟨a, b, base, first, value, bind, last, bound⟩ := h
  obtain ⟨-, assign, code, assignBound⟩ := ends_at placed
  have behind : r.head (signatures functions) = _ := head_eq
  have apc := first.pc
  rw [base] at apc
  obtain ⟨-, bpc, bcalls, bound'⟩ := Machine.step_assign (apc.symm ▸ assign) value bind
  have var := (bound' r.name).trans (if_pos rfl)
  have some : b.scopes ≠ [] := by
    intro none
    rw [none] at var
    cases var
  have cpc := last.pc
  rw [bpc, apc] at cpc
  refine ⟨last.running, by omega, last.calls.trans (bcalls.trans first.calls), ?_, bound,
    cpc ▸ assignBound, ?_⟩
  · rw [← var]
    exact last.get?_eq hp (bpc ▸ apc ▸ code) some r.name
  · refine (first.within (by omega) (by omega)).trans (.step ?_ bind ?_)
    · exact .of_ne_call (apc.symm ▸ assign) (fun _ _ _ => by simp [Instr.plain]) first.running
        (.inr ⟨first.calls, by omega, by omega⟩)
    · have through : m.Along (m.RunsIn b.calls r.base (r.head (signatures functions))) b c :=
        last.within (by omega) (by omega)
      rwa [bcalls, first.calls] at through

end RangeLoop

/-- The variable of a range loop counts from the first value to the last, either way and however
far apart they are. If every execution of the body comes to its end and leaves the variable and its
bound alone, there are as many as there are steps between the two values, and the loop ends where
they are the same, unless the budget is used up. In every state of every program, a step is
exact. -/
theorem range_exact {functions : List Function} {m : Machine}
    (h : compile functions m.host.contains = .ok m.program) {r : RangeLoop} {n e : Int64}
    {s c : State} (placed : m.program.CodeAt r.base (r.code (signatures functions)))
    (begins : r.Begins (signatures functions) m n e s c)
    (pass : m.RoundsPass (r.head (signatures functions)) (r.length (signatures functions)) r.name
      c) :
    let head := r.head (signatures functions)
    let length := r.length (signatures functions)
    let behind := r.base + (r.code (signatures functions)).length
    (∀ k x y, m.Rounds head length c k x → m.step x = .ok () y →
      if k < distance e n then
        y.pc = head + 1 ∧ y.calls = s.calls ∧
          ∃ v : Int64, y.Ranges r.name v e ∧ v.toInt = countTo n e k
      else k = distance e n ∧ y.pc = head + length + 2 ∧ y.Ranges r.name e e) ∧
    (m.Starves s.calls r.base behind s ∨ ∃ x t, m.Rounds head length c (distance e n) x ∧
      m.Along (m.RunsIn s.calls r.base behind) x t ∧ m.Crosses r.base behind s t ∧
      t.Ranges r.name e e) ∧
    (∀ current last : Int64, (stepToward current last).toInt =
      current.toInt + (last.toInt - current.toInt).sign) ∧
    ∀ (m : Machine) (s t : State) (name goal : String) (label : Option String) (pos : Position),
      m.program.code[s.pc]? = some ⟨.rangeStep name goal, label, pos⟩ → m.step s = .ok () t →
      ∃ n e : Int64, s.scopes.lookup name = .ok (.int n) ∧
        s.scopes.lookup (boundName name) = .ok (.int e) ∧
        t.scopes.lookup name = .ok (.int (stepToward n e)) := by
  intro head length behind
  have hp := compiled_of_compile h
  have loop := RangeLoop.loopAt hp.labels placed
  have ends : behind = head + length + 3 := RangeLoop.base_add_length
  have before : head = _ := RangeLoop.head_eq
  obtain ⟨running, pc, calls, var, value, assign, along⟩ := begins.at hp placed
  obtain ⟨d, start, drunning, dpc, dcalls, bound⟩ := Machine.assign_leads assign value var
  have hd : d.Looping head s.calls r.name n e := by
    refine ⟨drunning.trans running, dpc.trans pc, dcalls.trans calls, ?_,
      (bound _).trans (if_pos rfl)⟩
    rw [bound, if_neg (ne_boundName r.name), var]
  refine ⟨fun k x y rounds test => ?_, ?_, stepToward_toInt,
    fun m s t name goal label pos instr step => ?_⟩
  · obtain ⟨most, v, counted, hx⟩ := rounds.looping loop pass start hd
    obtain ⟨_, leads, hy⟩ := loop.test_leads hx
    obtain rfl := leads.only _ test
    have all := countTo_eq_iff counted most
    split
    · rw [if_neg fun same => by have := all.1 same; omega] at hy
      exact ⟨hy.pc, hy.calls, v, hy.ranges, counted⟩
    · obtain rfl := all.2 (by omega)
      rw [if_pos rfl] at hy
      exact ⟨by omega, hy.pc, hy.ranges⟩
  · have inside : m.RunsIn s.calls r.base behind c :=
      .of_ne_call assign (fun _ _ _ => by simp [Instr.plain]) running
        (.inr ⟨calls, by omega, by omega⟩)
    have wider : m.Along (m.RunsIn s.calls r.base behind) s c :=
      along.imp fun _ here => here.widen (Nat.le_refl _) (by omega)
    obtain starves | ⟨x, rounds, toTest⟩ := Machine.exists_rounds loop pass start hd wider inside
      (by omega) (by omega) (Nat.le_refl _)
    · exact .inl starves
    obtain ⟨-, v, counted, hx⟩ := rounds.looping loop pass start hd
    obtain rfl := (countTo_eq_iff counted (Nat.le_refl _)).2 rfl
    obtain ⟨y, leads, hy⟩ := loop.test_leads hx
    obtain starves | ⟨test, toEnd⟩ := toTest.next (hx.runsIn loop.silent_test (by omega) (by omega))
        leads
    · exact .inl starves
    rw [if_pos rfl] at hy
    obtain ⟨t, leads, ht⟩ := loop.behind_leads hy
    refine (toEnd.next (hy.runsIn loop.silent_behind (by omega) (by omega)) leads).imp_right ?_
    rintro ⟨step, through⟩
    refine ⟨x, t, rounds, ?_, ⟨through, ht.running, ht.pc.trans ends.symm, ht.calls⟩, ht.ranges⟩
    exact .step (hx.runsIn loop.silent_test (by omega) (by omega)) test
      (.step (hy.runsIn loop.silent_behind (by omega) (by omega)) step (.refl t))
  · exact Machine.rangeStep_toward (s := Machine.counted s) (Machine.execute_of_step instr step)

/-- From this state before its test, the loop goes on until the test leaves it, and each execution
of the body passes. -/
inductive Machine.Finishes (m : Machine) (head length : Nat) (name : String) : State → Prop
  | leave {x y : State} : m.step x = .ok () y → y.pc ≠ head + 1 → Finishes m head length name x
  | round {x y z w : State} : m.step x = .ok () y →
    m.Crosses (head + 1) (head + 1 + length) y z → z.scopes.get? name = y.scopes.get? name →
    z.scopes.get? (boundName name) = y.scopes.get? (boundName name) → m.step z = .ok () w →
    Finishes m head length name w → Finishes m head length name x

/-- A loop that finishes is one in which every execution of the body passes. -/
theorem Machine.Finishes.pass {m : Machine} {head length : Nat} {name : String} {c d : State}
    (start : m.step c = .ok () d) (h : m.Finishes head length name d) :
    m.RoundsPass head length name c := by
  have finishes {k : Nat} {x : State} (rounds : m.Rounds head length c k x) :
      m.Finishes head length name x := by
    induction rounds with
    | zero step =>
      cases start.symm.trans step
      exact h
    | succ _ test enters crosses back ih =>
      cases ih with
      | leave test' leaves =>
        cases test.symm.trans test'
        exact absurd enters leaves
      | round test' crosses' _ _ back' later =>
        cases test.symm.trans test'
        obtain rfl := crosses.unique crosses'
        cases back.symm.trans back'
        exact later
  intro k x y rounds test enters
  cases finishes rounds with
  | leave test' leaves =>
    cases test.symm.trans test'
    exact absurd enters leaves
  | round test' crosses var bound =>
    cases test.symm.trans test'
    exact ⟨_, crosses, var, bound⟩

/-- Counts down, and keeps the last value that the body has seen. -/
def countdown : RangeLoop where
  pos := ⟨2, 1⟩
  first := .literal ⟨2, 6⟩ (.int 2)
  last := .literal ⟨2, 11⟩ (.int 0)
  name := "i"
  body := [.assign ⟨3, 1⟩ (some .int) "seen" (.var ⟨3, 12⟩ "i")]
  base := 1

/-- The function that counts down. -/
def counting : List Function :=
  [⟨⟨1, 1⟩, "main", [], none,
    [.range countdown.pos countdown.first countdown.last countdown.name countdown.body]⟩]

theorem range_exact_countdown :
    ∃ (m : Machine) (s c x t : State), compile counting m.host.contains = .ok m.program ∧
      m.program.CodeAt countdown.base (countdown.code (signatures counting)) ∧
      countdown.Begins (signatures counting) m 2 0 s c ∧
      m.RoundsPass (countdown.head (signatures counting)) (countdown.length (signatures counting))
        "i" c ∧
      m.Rounds (countdown.head (signatures counting)) (countdown.length (signatures counting)) c 2
        x ∧
      m.Crosses countdown.base
        (countdown.base + (countdown.code (signatures counting)).length) s t ∧
      t.Ranges "i" 0 0 := by
  have direct : Host.Direct [] := fun _ _ h => by cases h
  obtain ⟨p, s, a, b, c, d, hp, -, code, pc, -, first, two, bind, bpc, -, last, zero, start,
      finishes⟩ : ∃ p s a b c d,
      compile counting (Host.contains []) = .ok p ∧
      Machine.runFor ⟨p, [], none⟩ 2 (.initial p.entry (.ofInput [] none)) = .ok () s ∧
      p.CodeAt countdown.base (countdown.code (signatures counting)) ∧
      s.pc = countdown.base ∧ Machine.runFor ⟨p, [], none⟩ 3 s = .ok () a ∧
      Machine.Crosses ⟨p, [], none⟩ 1 4 s a ∧ a.result = some (.int 2) ∧
      Machine.step ⟨p, [], none⟩ a = .ok () b ∧ b.pc = 5 ∧
      Machine.runFor ⟨p, [], none⟩ 3 b = .ok () c ∧ Machine.Crosses ⟨p, [], none⟩ 5 8 b c ∧
      c.result = some (.int 0) ∧ Machine.step ⟨p, [], none⟩ c = .ok () d ∧
      Machine.Finishes ⟨p, [], none⟩ 9 4 "i" d := by
    refine ⟨_, _, _, _, _, _, rfl, rfl, ?_, rfl, rfl, ⟨?_, rfl, rfl, rfl⟩, rfl, rfl, rfl,
      rfl, ⟨?_, rfl, rfl, rfl⟩, rfl, rfl, ?_⟩
    · iterate 15 refine Program.codeAt_cons.2 ⟨rfl, ?_⟩
      exact Program.codeAt_nil
    · iterate 3 refine .step (.of_direct direct rfl (.inr ⟨rfl, by decide, by decide⟩)) rfl ?_
      exact .refl _
    · iterate 3 refine .step (.of_direct direct rfl (.inr ⟨rfl, by decide, by decide⟩)) rfl ?_
      exact .refl _
    · iterate 2
        refine .round (z := ?_) (w := ?_) rfl ⟨?_, ?_, ?_, ?_⟩ ?_ ?_ ?_ ?_
        rotate_left 2
        · iterate 4 refine .step (.of_direct direct rfl (.inr ⟨rfl, by decide, by decide⟩)) rfl ?_
          exact .refl _
        iterate 6 rfl
      exact .leave rfl (by decide)
  have begins : countdown.Begins (signatures counting) ⟨p, [], none⟩ 2 0 s c := by
    refine ⟨a, b, pc, ?_, two, bind, ?_, zero⟩
    · rw [pc]
      exact first
    · rw [bpc]
      exact last
  obtain ⟨-, starves | ⟨x, t, rounds, -, crosses, ranges⟩, -⟩ :=
    range_exact hp code begins (finishes.pass start)
  · exact absurd rfl starves.budget_ne
  · exact ⟨_, s, c, x, t, hp, code, begins, finishes.pass start, rounds, crosses, ranges⟩

end StackScript
