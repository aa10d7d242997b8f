import StackScript.Proofs.Relocation

/-!
# The order of functions

Programs that reach the same functions from their entry points run alike, however these functions
are ordered and whatever other functions stand between them.

* `Reached`: the functions that calls lead to from the entry point;
* `Rearranged`: functions that reach the same ones, next to others;
* `Place`: the places of two programs that do the same;
* `order_irrelevant`: their runs go in lockstep, and no order of functions is refused if another is
  accepted.
-/

namespace StackScript

/-- The functions that calls lead to from the entry point. -/
inductive Reached (functions : List Function) : Function → Prop
  | entry {f : Function} : f ∈ functions → f.name = entryPoint → Reached functions f
  | call {f g : Function} {c : Call} : Reached functions f → c ∈ callsOfBody f.body →
    g ∈ functions → g.name = c.name → Reached functions g

theorem Reached.mem {functions : List Function} {f : Function} (h : Reached functions f) :
    f ∈ functions := by
  cases h with
  | entry mem => exact mem
  | call _ _ mem => exact mem

/-- The names that are called from functions that are reached, and that of the entry point. -/
inductive Called (functions : List Function) : String → Prop
  | entry : Called functions entryPoint
  | call {f : Function} {c : Call} : Reached functions f → c ∈ callsOfBody f.body →
    Called functions c.name

theorem Called.reached {functions : List Function} {g : Function} (h : Called functions g.name)
    (hg : g ∈ functions) : Reached functions g := by
  generalize hn : g.name = name at h
  cases h with
  | entry => exact .entry hg hn
  | call hf hc => exact .call hf hc hg hn

/-- A function whose name is not called makes no difference to what is reached. -/
theorem reached_iff_of_uncalled {functions functions' : List Function} (spare : String)
    (entry : entryPoint ≠ spare)
    (uncalled : ∀ f ∈ functions, ∀ c ∈ callsOfBody f.body, c.name ≠ spare)
    (mem : ∀ g, g.name ≠ spare → (g ∈ functions' ↔ g ∈ functions)) (f : Function) :
    Reached functions f ↔ Reached functions' f := by
  constructor
  · intro h
    induction h with
    | @entry f hf named =>
      have other : f.name ≠ spare := by rwa [named]
      exact .entry ((mem f other).2 hf) named
    | @call f g c reached hc hg named ih =>
      have other : g.name ≠ spare := by
        rw [named]
        exact uncalled f reached.mem c hc
      exact .call ih hc ((mem g other).2 hg) named
  · intro h
    induction h with
    | @entry f hf named =>
      have other : f.name ≠ spare := by rwa [named]
      exact .entry ((mem f other).1 hf) named
    | @call f g c _ hc hg named ih =>
      have other : g.name ≠ spare := by
        rw [named]
        exact uncalled f ih.mem c hc
      exact .call ih hc ((mem g other).1 hg) named

/-- Functions that reach the same ones as others do, next to functions of other names. -/
structure Rearranged (functions functions' : List Function) : Prop where
  once : (functions'.map (·.name)).Nodup
  reached : ∀ f, Reached functions f ↔ Reached functions' f

namespace Rearranged

variable {functions functions' : List Function}

theorem called (r : Rearranged functions functions') {name : String} (h : Called functions name) :
    Called functions' name := by
  cases h with
  | entry => exact .entry
  | call hf hc => exact .call ((r.reached _).1 hf) hc

/-- What is called is the same function of both, or of none of them. -/
theorem find?_eq (r : Rearranged functions functions') {name : String}
    (h : Called functions name) :
    functions'.find? (·.name = name) = functions.find? (·.name = name) := by
  cases found : functions.find? (·.name = name) with
  | some g =>
    obtain rfl : g.name = name := by simpa using List.find?_some found
    have reached := (r.reached g).1 (h.reached (List.mem_of_find?_eq_some found))
    exact find?_eq_of_nodup r.once reached.mem
  | none =>
    refine List.find?_eq_none.2 fun g hg named => ?_
    obtain rfl : g.name = name := by simpa using named
    have reached := (r.reached g).2 ((r.called h).reached hg)
    exact List.find?_eq_none.1 found g reached.mem named

theorem signatures_eq (r : Rearranged functions functions') {name : String}
    (h : Called functions name) : signatures functions' name = signatures functions name := by
  rw [signatures, signatures, r.find?_eq h]

theorem code_moved (r : Rearranged functions functions') {f : Function}
    (hf : Reached functions f) (base base' : Nat) :
    CodeMoved base base' (f.code (signatures functions) base)
      (f.code (signatures functions') base') :=
  f.code_moved fun _ hc => r.signatures_eq (.call hf hc)

theorem startCode_eq (r : Rearranged functions functions') :
    startCode (signatures functions') = startCode (signatures functions) := by
  simp only [startCode, callCode, callInstr, argsCode, r.signatures_eq .entry]

end Rearranged

/-! ## Places -/

/-- Places of two programs that do the same: in the code of a function that both reach, or in the
code that starts them. -/
inductive Place (functions functions' : List Function) (p q : Program) : Nat → Nat → Prop
  | inside {f : Function} {base base' k : Nat} (reached : Reached functions f)
    (left : p.CodeAt base (f.code (signatures functions) base))
    (right : q.CodeAt base' (f.code (signatures functions') base'))
    (hk : k < (f.code (signatures functions) base).length) :
    Place functions functions' p q (base + k) (base' + k)
  | start {k : Nat} (hk : k < 2) : Place functions functions' p q (p.entry + k) (q.entry + k)

namespace Place

variable {functions functions' : List Function} {isHost : String → Bool} {p q : Program} {a b : Nat}

/-- At such places the programs have the same instruction, but for the numbers of labels. -/
theorem instr (r : Rearranged functions functions') (hp : Compiled functions isHost p)
    (hq : Compiled functions' isHost q) (h : Place functions functions' p q a b) :
    ∃ i j, p.code[a]? = some i ∧ q.code[b]? = some j ∧ j.pos = i.pos ∧
      i.op.Renamed Label.Renumbered j.op := by
  cases h with
  | @inside f base base' k reached left right hk =>
    have hi := List.getElem?_eq_getElem hk
    obtain ⟨j, hj, moved⟩ := (r.code_moved reached base base').getElem? hi
    exact ⟨_, j, left k _ hi, right k j hj, moved.pos, moved.op.imp fun _ _ _ h => h.renumbered⟩
  | @start k hk =>
    have left := hp.codeAt.2
    have right := hq.codeAt.2
    rw [r.startCode_eq] at right
    obtain ⟨i, hi, stays⟩ : ∃ i, (startCode (signatures functions))[k]? = some i ∧
        i.op.target? = none := by
      match k with
      | 0 => exact ⟨_, rfl, rfl⟩
      | 1 => exact ⟨_, rfl, rfl⟩
    exact ⟨i, i, left k i hi, right k i hi, rfl, .same stays⟩

/-- Behind an instruction that control may go on behind, the places are such again. -/
theorem next (hp : Compiled functions isHost p) (h : Place functions functions' p q a b)
    {i : Instr} (hi : p.code[a]? = some i) (hr : i.op ≠ .ret) (he : i.op ≠ .exit) :
    Place functions functions' p q (a + 1) (b + 1) := by
  cases h with
  | @inside f base base' k reached left right hk =>
    refine .inside (k := k + 1) reached left right (Nat.lt_of_le_of_ne hk fun last => ?_)
    -- The last instruction of a function returns.
    obtain ⟨_, code, ret, eq, isRet⟩ := f.code_flow (signatures functions) base
    have here : (f.code (signatures functions) base)[k]? = some ret := by
      have length : k = code.length := by simpa [eq] using last
      rw [eq, length, List.getElem?_concat_length]
    have same : i = ret := Option.some.inj (hi.symm.trans (left k ret here))
    exact hr (same ▸ isRet)
  | @start k hk =>
    obtain ⟨_, exit, _⟩ := hp.start_code
    match k with
    | 0 => exact .start (by omega)
    | 1 =>
      cases hi.symm.trans exit
      exact absurd rfl he

/-- Jumps lead to such places. -/
theorem target (r : Rearranged functions functions') (hp : Compiled functions isHost p)
    (hq : Compiled functions' isHost q) (h : Place functions functions' p q a b) {i j : Instr}
    (hi : p.code[a]? = some i) (hj : q.code[b]? = some j) {label label' : String}
    (ht : i.op.target? = some label) (ht' : j.op.target? = some label') :
    p.Meet q (Place functions functions' p q) label label' := by
  cases h with
  | @inside f base base' k reached left right hk =>
    have moved := r.code_moved reached base base'
    have hk := List.getElem?_eq_getElem hk
    obtain ⟨j', hj', here⟩ := moved.getElem? hk
    obtain rfl := Option.some.inj ((left k _ hk).symm.trans hi)
    obtain rfl := Option.some.inj ((right k j' hj').symm.trans hj)
    obtain ⟨before, goal, after, eq, carries, _, _⟩ := f.code_lands _ base hk ht
    have there : (f.code (signatures functions) base)[before.length]? = some goal := by
      rw [eq]
      simp
    obtain ⟨goal', hgoal', arrived⟩ := moved.getElem? there
    have carried := arrived.label
    rw [carries] at carried
    refine .inr ⟨_, _, (hp.labels label _).2 ⟨goal, left _ _ there, carries⟩,
      (hq.labels label' _).2 ⟨goal', right _ _ hgoal', ?_⟩, .inside reached left right ?_⟩
    · exact (here.op.target ht ht').carried_eq carried
    · exact (List.getElem?_eq_some_iff.1 there).1
  | @start k hk =>
    obtain ⟨call, exit, _⟩ := hp.start_code
    match k with
    | 0 =>
      cases hi.symm.trans call
      cases ht
    | 1 =>
      cases hi.symm.trans exit
      cases ht

/-- A call at such a place is of a name that is called. -/
theorem called (hp : Compiled functions isHost p) (h : Place functions functions' p q a b)
    {i : Instr} (hi : p.code[a]? = some i) {name : String} {argc : Nat} {declared : Option Ty}
    (hop : i.op = .call name argc declared) : Called functions name := by
  cases h with
  | @inside f base base' k reached left right hk =>
    have hk := List.getElem?_eq_getElem hk
    obtain rfl := Option.some.inj ((left k _ hk).symm.trans hi)
    have calls : ⟨name, argc⟩ ∈ callsOf (f.code (signatures functions) base) :=
      List.mem_filterMap.2 ⟨_, List.mem_of_getElem? hk, by rw [hop]; rfl⟩
    rw [Function.callsOf_code] at calls
    exact .call reached calls
  | @start k hk =>
    obtain ⟨call, exit, _⟩ := hp.start_code
    match k with
    | 0 =>
      cases hi.symm.trans call
      cases hop
      exact .entry
    | 1 =>
      cases hi.symm.trans exit
      cases hop

/-- Both programs enter the same function, or none. -/
theorem function (r : Rearranged functions functions') (hp : Compiled functions isHost p)
    (hq : Compiled functions' isHost q) {name : String} (h : Called functions name) :
    p.Meet q (Place functions functions' p q) (Label.function name) (Label.function name) := by
  cases found : functions.find? (·.name = name) with
  | some g =>
    obtain rfl : g.name = name := by simpa using List.find?_some found
    have reached := h.reached (List.mem_of_find?_eq_some found)
    obtain ⟨base, left, resolves⟩ := hp.function_at reached.mem
    obtain ⟨base', right, resolves'⟩ := hq.function_at ((r.reached g).1 reached).mem
    obtain ⟨code, eq⟩ := g.code_head (signatures functions) base
    refine .inr ⟨base, base', resolves, resolves', .inside (k := 0) reached left right ?_⟩
    rw [eq]
    simp
  | none =>
    have found' := (r.find?_eq h).trans found
    refine .inl ⟨hp.resolve_function_eq_none ?_, hq.resolve_function_eq_none ?_, rfl⟩
    · simpa using found
    · simpa using found'

theorem corresponds (r : Rearranged functions functions') (hp : Compiled functions isHost p)
    (hq : Compiled functions' isHost q) : p.Corresponds q (Place functions functions' p q) where
  code h := by
    obtain ⟨i, j, hi, hj, pos, renamed⟩ := h.instr r hp hq
    exact .inr ⟨i, j, hi, hj, pos, renamed.mirrors⟩
  next h hi hr he := h.next hp hi hr he
  target h hi hj ht ht' := h.target r hp hq hi hj ht ht'
  function h hi hop := Place.function r hp hq (h.called hp hi hop)

end Place

/-! ## Runs -/

theorem Paired.reported {E : State → State → Prop} {Q : Unit → State → State → Prop}
    {r r' : StepResult} (h : Paired E Q r r') :
    Paired E Q (Machine.reported r) (Machine.reported r') := by
  obtain ⟨_, s, t, rfl, rfl, hq⟩ | ⟨e, s, t, rfl, rfl, he⟩ := h.cases
  · exact ⟨rfl, hq⟩
  · exact ⟨rfl, he⟩

/-- What can be seen of two machines from outside is the same: how deep their calls and scopes are
and whether they are running, how many steps they have taken, and the console. -/
structure State.Resembles (s t : State) : Prop where
  calls : t.calls.length = s.calls.length
  scopes : t.scopes.length = s.scopes.length
  running : t.running = s.running
  steps : t.steps = s.steps
  console : t.console = s.console

theorem Abreast.resembles {P F : Nat → Nat → Prop} {alike : Prop} {s t : State}
    (h : Abreast P F alike s t) : s.Resembles t :=
  ⟨h.calls.length_eq.symm, congrArg List.length h.scopes, h.running, h.steps, h.console⟩

theorem outcome?_eq_of_paired {m m' : Machine} {console : Console} {n : Nat}
    {Q : Unit → State → State → Prop} (hQ : ∀ a s t, Q a s t → s.Resembles t)
    (h : Paired State.Resembles Q (m.run n (m.start console)) (m'.run n (m'.start console))) :
    m'.outcome? n console = m.outcome? n console := by
  unfold Machine.outcome?
  obtain ⟨_, s, t, hs, ht, hq⟩ | ⟨e, s, t, hs, ht, seen⟩ := h.cases
  · have seen := hQ () s t hq
    rw [hs, ht]
    simp only [seen.running, seen.console]
  · rw [hs, ht]
    cases e with
    | alreadyEnded => rfl
    | execution e => simp only [seen.console]

/-- Each instruction that one machine dispatches in its next step has a counterpart at the same
position, the same but for the numbers of labels, that the other one dispatches. -/
def Machine.DispatchesAlike (m m' : Machine) (s t : State) : Prop :=
  ∀ u, m.Dispatches s u → ∃ v i j, m'.Dispatches t v ∧ m.program.code[u.pc]? = some i ∧
    m'.program.code[v.pc]? = some j ∧ j.pos = i.pos ∧ i.op.Renamed Label.Renumbered j.op

/-! ## The order of functions and compiling -/

theorem accepted_iff {functions : List Function} {isHost : String → Bool} :
    (∃ p, compile functions isHost = .ok p) ↔ Accepted functions isHost := by
  refine ⟨fun ⟨p, hp⟩ => ?_, Accepted.exists_compile⟩
  obtain accepted | ⟨e, refused⟩ := accepted_or_refused functions isHost
  · exact accepted
  · cases hp.symm.trans refused.compile_eq

theorem Accepted.perm {functions functions' : List Function} {isHost : String → Bool}
    (h : Accepted functions isHost) (perm : functions.Perm functions') :
    Accepted functions' isHost := by
  have names := perm.map (·.name)
  refine ⟨names.nodup_iff.1 h.once, names.mem_iff.1 h.entry, fun c hc e fails => ?_⟩
  have calls : c ∈ programCalls functions := by
    simp only [programCalls, List.mem_append, List.mem_flatMap] at hc ⊢
    rcases hc with ⟨f, hf, called⟩ | start
    · exact .inl ⟨f, perm.mem_iff.2 hf, called⟩
    · exact .inr start
  refine h.calls c calls e ?_
  cases fails with
  | arity hf named differ => exact .arity (perm.mem_iff.2 hf) named differ
  | unresolved none missing => exact .unresolved (fun f hf => none f (perm.mem_iff.1 hf)) missing

/-- Declaration order and functions that are not reached do not matter to hosts to whose functions
the programs make no difference. Two programs that reach the same functions run in lockstep on any
such host, input and budget: after every number of steps they look the same, they dispatch the same
instructions but for the numbers of labels, and they end in the same way. And whether functions are
accepted does not depend on their order. -/
theorem order_irrelevant :
    (∀ (functions functions' : List Function) (m m' : Machine),
      m'.host = m.host → m'.budget = m.budget → m.host.AnswersAlike m.program m'.program →
      compile functions m.host.contains = .ok m.program →
      compile functions' m.host.contains = .ok m'.program →
      (∀ f, Reached functions f ↔ Reached functions' f) → ∀ (console : Console) (n : Nat),
        Paired State.Resembles
          (fun _ s t => s.Resembles t ∧ (s.running = true → m.DispatchesAlike m' s t))
          (m.run n (m.start console)) (m'.run n (m'.start console)) ∧
        m'.outcome? n console = m.outcome? n console) ∧
    ∀ (functions functions' : List Function) (isHost : String → Bool),
      functions.Perm functions' →
        ((∃ p, compile functions isHost = .ok p) ↔ ∃ q, compile functions' isHost = .ok q) := by
  refine ⟨fun functions functions' m m' host budget alike hp hq reached console n => ?_,
    fun functions functions' isHost perm => ?_⟩
  · have r : Rearranged functions functions' :=
      ⟨(accepted_iff.1 ⟨_, hq⟩).once, reached⟩
    replace hp := compiled_of_compile hp
    replace hq := compiled_of_compile hq
    have l : Lockstep m m' (Place functions functions' m.program m'.program) (fun _ _ => True) :=
      ⟨host, alike, budget, hp.feeds, Place.corresponds r hp hq, fun _ _ _ => trivial,
        fun _ _ _ => trivial⟩
    have start : InStep m.program (Place functions functions' m.program m'.program)
        (m.start console) (m'.start console) :=
      ⟨.start (k := 0) (by omega), .nil, rfl, rfl, rfl, rfl, rfl, rfl, fun _ => rfl⟩
    have ran : Paired State.Resembles
        (fun _ s t => s.Resembles t ∧ (s.running = true → m.DispatchesAlike m' s t))
        (m.run n (m.start console)) (m'.run n (m'.start console)) := by
      rw [Machine.run_eq, if_pos (by rfl), Machine.run_eq, if_pos (by rfl)]
      refine (l.runFor n (l.follows start)).reported.imp (fun _ _ h => h.abreast.resembles)
        fun _ s t h => ⟨h.abreast.resembles, fun running u hu => ?_⟩
      obtain ⟨v, hv, inStep⟩ := l.dispatchesWithin (h.inStep running) hu
      obtain ⟨i, j, hi, hj, pos, renamed⟩ := inStep.pc.instr r hp hq
      exact ⟨v, i, j, hv, hi, hj, pos, renamed⟩
    exact ⟨ran, outcome?_eq_of_paired (fun _ _ _ h => h.1) ran⟩
  · rw [accepted_iff, accepted_iff]
    exact ⟨fun h => h.perm perm, fun h => h.perm perm.symm⟩

/-- The functions of `descent` the other way round, behind one that nobody calls. -/
def ascent : List Function :=
  ⟨⟨1, 1⟩, "spare", [], none, [.loop ⟨2, 1⟩ (.literal ⟨2, 7⟩ (.bool true))
    [.call ⟨3, 1⟩ ⟨3, 1⟩ "descend" [.literal ⟨3, 9⟩ (.int 9)]]]⟩ :: descent.reverse

theorem reached_ascent (f : Function) : Reached descent f ↔ Reached ascent f := by
  refine reached_iff_of_uncalled "spare" (by decide) (by decide) (fun g named => ?_) f
  rw [ascent, List.mem_cons, List.mem_reverse]
  exact or_iff_right fun eq => named (by rw [eq])

theorem depthHost_answersAlike (p q : Program) : depthHost.AnswersAlike p q := by
  apply Host.forall_get?
  intro entry listed
  obtain rfl := List.mem_singleton.1 listed
  exact fun _ _ => rfl

/-- In the middle of their runs the two programs are at different places, four calls deep. -/
theorem order_irrelevant_ascent :
    ∃ (m m' : Machine) (s t : State), m.host.AnswersAlike m.program m'.program ∧
      compile descent depthHost.contains = .ok m.program ∧
      compile ascent depthHost.contains = .ok m'.program ∧
      (∀ f, Reached descent f ↔ Reached ascent f) ∧
      m.run 52 (m.start (.ofInput [] none)) = .ok () s ∧
      m'.run 52 (m'.start (.ofInput [] none)) = .ok () t ∧ s.pc ≠ t.pc ∧ s.calls.length = 4 ∧
      s.Resembles t ∧ m.DispatchesAlike m' s t ∧
      m'.outcome? 99 (.ofInput [] none) = m.outcome? 99 (.ofInput [] none) := by
  obtain ⟨p, q, s, t, hp, hq, run, run', apart, deep, running⟩ : ∃ p q s t,
      compile descent depthHost.contains = .ok p ∧ compile ascent depthHost.contains = .ok q ∧
      Machine.run ⟨p, depthHost, none⟩ 52 (.initial p.entry (.ofInput [] none)) = .ok () s ∧
      Machine.run ⟨q, depthHost, none⟩ 52 (.initial q.entry (.ofInput [] none)) = .ok () t ∧
      s.pc ≠ t.pc ∧ s.calls.length = 4 ∧ s.running = true :=
    ⟨_, _, _, _, rfl, rfl, rfl, rfl, by decide, rfl, rfl⟩
  have alike := depthHost_answersAlike p q
  have lockstep := order_irrelevant.1 descent ascent ⟨p, depthHost, none⟩ ⟨q, depthHost, none⟩ rfl
    rfl alike hp hq reached_ascent (.ofInput [] none)
  have paired := (lockstep 52).1
  rw [show (Machine.mk p depthHost none).start _ = .initial p.entry _ from rfl, run,
    show (Machine.mk q depthHost none).start _ = .initial q.entry _ from rfl, run'] at paired
  obtain ⟨_, seen, dispatched⟩ := paired
  exact ⟨_, _, s, t, alike, hp, hq, reached_ascent, run, run', apart, deep, seen,
    dispatched running, (lockstep 99).2⟩

/-- Prints what the host says of the size of its program. -/
def boaster : Function :=
  ⟨⟨1, 1⟩, "main", [], none,
    [.call ⟨2, 1⟩ ⟨2, 1⟩ "out" [.call ⟨2, 5⟩ ⟨2, 5⟩ "size" []]]⟩

def bystander : Function := ⟨⟨4, 1⟩, "spare", [], none, []⟩

/-- Has a function that counts the instructions of the program. -/
def sizeHost : Host :=
  [("out", .direct Host.out),
    ("size", .direct fun view _ => pure (some (.int (.ofNat view.program.code.size))))]

theorem reached_bystander (f : Function) :
    Reached [boaster] f ↔ Reached [boaster, bystander] f := by
  refine reached_iff_of_uncalled "spare" (by decide) (by decide) (fun g named => ?_) f
  rw [List.mem_cons, List.mem_singleton (a := g) (b := bystander), List.mem_singleton]
  exact or_iff_left fun eq => named (by rw [eq, bystander])

/-- To a function of the host that looks at the program a function that nobody calls does matter. -/
theorem size_tells_apart :
    ∃ m m' : Machine, m'.host = m.host ∧ m'.budget = m.budget ∧
      compile [boaster] m.host.contains = .ok m.program ∧
      compile [boaster, bystander] m.host.contains = .ok m'.program ∧
      (∀ f, Reached [boaster] f ↔ Reached [boaster, bystander] f) ∧
      m.outcome? 20 (.ofInput [] none) = some (.ok () ⟨[], #[49, 49, 10], none⟩) ∧
      m'.outcome? 20 (.ofInput [] none) = some (.ok () ⟨[], #[49, 51, 10], none⟩) := by
  obtain ⟨p, q, hp, hq, alone, beside⟩ : ∃ p q,
      compile [boaster] sizeHost.contains = .ok p ∧
      compile [boaster, bystander] sizeHost.contains = .ok q ∧
      Machine.outcome? ⟨p, sizeHost, none⟩ 20 (.ofInput [] none) =
        some (.ok () ⟨[], #[49, 49, 10], none⟩) ∧
      Machine.outcome? ⟨q, sizeHost, none⟩ 20 (.ofInput [] none) =
        some (.ok () ⟨[], #[49, 51, 10], none⟩) := by
    refine ⟨_, _, rfl, rfl, ?_, ?_⟩ <;> decide +kernel
  exact ⟨⟨p, sizeHost, none⟩, ⟨q, sizeHost, none⟩, rfl, rfl, hp, hq, reached_bystander, alone,
    beside⟩

end StackScript
