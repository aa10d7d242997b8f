import StackScript.Proofs.Safety

/-!
# The listing of a program

What can be said of compiled code by looking at it.

* `depth`: how deep in scopes code is, counted in the order of the listing;
* `Program.Range`: the instructions of a function, from its marker to its last return;
* `Program.Ranges`: functions stand one behind the other;
* `compile_wellFormed`: labels, jumps, ranges and calls of a program fit together.
-/

namespace StackScript

/-! ## Depth -/

/-- How far an instruction goes into scopes. -/
def Op.deepens : Op → Int
  | .openScope => 1
  | .closeScope => -1
  | _ => 0

/-- How deep in scopes code ends, counted in the order of the listing. -/
def depth : List Instr → Int
  | [] => 0
  | i :: code => i.op.deepens + depth code

/-- How deep in scopes the instruction at `pc` is, counted from the one at `start`. -/
def Program.depth (p : Program) (start pc : Nat) : Int :=
  StackScript.depth ((p.code.toList.drop start).take (pc - start))

theorem Op.flow_scopes {op : Op} {sh next : Shape} (h : op.flow sh = some next) :
    (next.scopes : Int) = sh.scopes + op.deepens := by
  cases op with
  | bindArg =>
    simp only [Op.flow] at h
    split at h <;> cases h
    rfl
  | ret =>
    obtain ⟨handed, rfl⟩ := Op.flow_ret h
    simp only [Op.flow] at h
    split at h <;> cases h
    rfl
  | closeScope =>
    simp only [Op.flow] at h
    split at h <;> cases h
    simp only [Op.deepens]
    omega
  | handBack | jumpUnless | jump | rangeTest | rangeStep =>
    simp only [Op.flow] at h
    split at h <;> cases h
    rename_i level
    rw [level]
    rfl
  | exit => cases h
  | _ =>
    simp only [Op.flow] at h
    split at h <;> cases h
    rfl

/-- The scopes that a shape has open are those that the code before it has left open. -/
theorem flow_depth {code : List Instr} {sh next : Shape} (h : flow code sh = some next) :
    (next.scopes : Int) = sh.scopes + depth code := by
  induction code generalizing sh with
  | nil => cases h; simp [depth]
  | cons i code ih =>
    rw [flow_cons] at h
    obtain ⟨mid, hi, rest⟩ := Option.bind_eq_some_iff.1 h
    have first := Op.flow_scopes hi
    have rest := ih rest
    rw [depth]
    omega

theorem exists_flow_append {a b : List Instr} {sh next : Shape}
    (h : flow (a ++ b) sh = some next) : ∃ mid, flow a sh = some mid ∧ flow b mid = some next := by
  simpa only [flow, List.foldlM_append, Option.bind_eq_bind, Option.bind_eq_some_iff] using h

/-- Jumps and returns are made with no scope open. -/
theorem Op.flow_scopes_eq_zero {op : Op} {sh next : Shape} (h : op.flow sh = some next)
    (hop : op.target?.isSome ∨ op = .ret) : sh.scopes = 0 := by
  cases op with
  | jumpUnless | jump | rangeTest | rangeStep =>
    simp only [Op.flow] at h
    split at h <;> cases h
    rename_i level
    rw [level]
    rfl
  | ret =>
    obtain ⟨handed, rfl⟩ := Op.flow_ret h
    rfl
  | _ => simp [Op.target?] at hop

theorem Program.CodeAt.depth_eq {p : Program} {start : Nat} {a b : List Instr}
    (h : p.CodeAt start (a ++ b)) : p.depth start (start + a.length) = StackScript.depth a := by
  have same : (p.code.toList.drop start).take a.length = a := by
    refine List.ext_getElem? fun k => ?_
    rw [List.getElem?_take]
    split
    · rename_i hk
      have placed := h k (a.get ⟨k, hk⟩) (by simp [List.getElem?_append_left hk])
      simpa [List.getElem?_eq_getElem hk] using placed
    · exact (List.getElem?_eq_none (by omega)).symm
  rw [Program.depth, Nat.add_sub_cancel_left, same]

/-! ## Ranges -/

/-- The code of `f` are the instructions from `start` on and before `stop`. -/
structure Program.Range (p : Program) (start stop : Nat) (f : Function) : Prop where
  /-- It begins with the marker of the function. -/
  marker : p.code[start]? = some (.labeled (Label.function f.name) (.marker .function) f.pos)
  /-- It ends with a return. -/
  ends : ∃ last i, start < last ∧ last + 1 = stop ∧ p.code[last]? = some i ∧ i.op = .ret
  /-- Its jumps stay in it: a label is bound to one instruction, the only one that carries it. -/
  jumps : ∀ source i label, start ≤ source → source < stop → p.code[source]? = some i →
    i.op.target? = some label → ∃ goal j, start ≤ goal ∧ goal < stop ∧
      p.resolve label = some goal ∧ p.code[goal]? = some j ∧ i.op.LeadsTo source goal j.op ∧
      (∀ other k, p.code[other]? = some k → (k.label = some label ↔ other = goal)) ∧
      p.depth start goal = 0
  /-- It closes no scope that it has not opened. -/
  nonneg : ∀ pc, start ≤ pc → pc ≤ stop → 0 ≤ p.depth start pc
  /-- Jumps and returns are made with no scope open. -/
  level : ∀ pc i, start ≤ pc → pc < stop → p.code[pc]? = some i →
    i.op.target?.isSome ∨ i.op = .ret → p.depth start pc = 0

/-- The functions take the instructions from `start` on and before `stop`, one behind the other. -/
inductive Program.Ranges (p : Program) : Nat → List Function → Nat → Prop
  | nil (n : Nat) : p.Ranges n [] n
  | cons {start mid stop : Nat} {f : Function} {fs : List Function} :
    p.Range start mid f → p.Ranges mid fs stop → p.Ranges start (f :: fs) stop

section

variable {p : Program} {sigs : Signatures} {start : Nat} {f : Function}

/-- Code splits at every place. -/
theorem Program.CodeAt.split {code : List Instr} (h : p.CodeAt start code) {pc : Nat}
    (hs : start ≤ pc) (hpc : pc < start + code.length) {i : Instr} (hi : p.code[pc]? = some i) :
    ∃ before after, code = before ++ i :: after ∧ pc = start + before.length := by
  have hk : pc - start < code.length := by omega
  have placed := h (pc - start) _ (List.getElem?_eq_getElem hk)
  rw [Nat.add_sub_cancel' hs, hi] at placed
  refine ⟨code.take (pc - start), code.drop (pc - start + 1), ?_, ?_⟩
  · rw [Option.some.inj placed, List.getElem_cons_drop, List.take_append_drop]
  · rw [List.length_take, Nat.min_eq_left (Nat.le_of_lt hk)]
    omega

theorem Program.CodeAt.range (hl : p.LabelsMatch) (h : p.CodeAt start (f.code sigs start)) :
    p.Range start (start + (f.code sigs start).length) f := by
  obtain ⟨whole, code, ret, last, isRet⟩ := f.code_flow sigs start
  obtain ⟨rest, first⟩ := f.code_head sigs start
  -- What is open at a place, by the code before it.
  have shape {before after : List Instr} (eq : f.code sigs start = before ++ after) :
      ∃ sh, flow before (.entry f.params.length) = some sh ∧
        p.depth start (start + before.length) = sh.scopes ∧ flow after sh = some .level := by
    obtain ⟨sh, hb, ha⟩ := exists_flow_append (eq ▸ whole)
    have scopes := flow_depth hb
    refine ⟨sh, hb, ?_, ha⟩
    rw [Program.CodeAt.depth_eq (eq ▸ h), scopes]
    exact (Int.zero_add _).symm
  refine ⟨(first ▸ h).head, ?_, ?_, ?_, ?_⟩
  · refine ⟨start + code.length, ret, ?_, by simp [last, Nat.add_assoc],
      (codeAt_append.1 (last ▸ h)).2.head, isRet⟩
    cases code with
    | nil =>
      rw [last] at first
      cases first
      cases isRet
    | cons => simp
  · intro source i label hs hsource hi ht
    obtain ⟨before, after, eq, rfl⟩ := h.split hs hsource hi
    obtain ⟨left, j, right, eq', hj, level, leads⟩ :=
      f.code_lands sigs start (k := before.length) (by rw [eq]; simp) ht
    obtain ⟨sh, hb, scopes, _⟩ := shape eq'
    cases hb.symm.trans level
    have placed : p.code[start + left.length]? = some j := (codeAt_append.1 (eq' ▸ h)).2.head
    have bound := (hl label _).2 ⟨j, placed, hj⟩
    refine ⟨_, j, Nat.le_add_right .., ?_, bound, placed, leads.shift start, ?_, scopes⟩
    · simp [eq']
    · intro other k hk
      constructor
      · exact fun carries => Option.some.inj (((hl label _).2 ⟨k, hk, carries⟩).symm.trans bound)
      · rintro rfl
        exact Option.some.inj (placed.symm.trans hk) ▸ hj
  · intro pc hs hpc
    obtain ⟨sh, _, scopes, _⟩ := shape (List.take_append_drop (pc - start) _).symm
    rw [List.length_take, Nat.min_eq_left (by omega), Nat.add_sub_cancel' hs] at scopes
    omega
  · intro pc i hs hpc hi hop
    obtain ⟨before, after, eq, rfl⟩ := h.split hs hpc hi
    obtain ⟨sh, _, scopes, ha⟩ := shape eq
    rw [flow_cons] at ha
    obtain ⟨next, hi, _⟩ := Option.bind_eq_some_iff.1 ha
    rw [scopes, Op.flow_scopes_eq_zero hi hop]
    rfl

end

theorem Program.CodeAt.ranges {p : Program} {sigs : Signatures} (hl : p.LabelsMatch)
    {fs : List Function} {start : Nat} (h : p.CodeAt start (Function.codeAll sigs start fs)) :
    p.Ranges start fs (start + (Function.codeAll sigs start fs).length) := by
  induction fs generalizing start with
  | nil => exact .nil start
  | cons f fs ih =>
    obtain ⟨hf, hfs⟩ := codeAt_append.1 h
    refine .cons (hf.range hl) ?_
    rw [Function.codeAll, List.length_append, ← Nat.add_assoc]
    exact ih hfs

/-! ## Calls -/

/-- A call enters the function whose marker is at `target`, whatever waits below its arguments. -/
def Machine.CallsFunction (m : Machine) (name : String) (argc : Nat) (returns : Option Ty)
    (target : Nat) : Prop :=
  ∀ inner s, argc ≤ s.waiting.length → ∃ t, m.execute inner (.call name argc returns) s = .ok () t ∧
    t.pc = target ∧ t.calls = ⟨s.pc, returns⟩ :: s.calls ∧ t.scopes = .new true :: s.scopes ∧
    t.incoming = (s.waiting.take argc).reverse ∧ t.waiting = s.waiting.drop argc

/-- A call goes to the host, and fails if that has no function of the name. -/
def Machine.CallsHost (m : Machine) (name : String) (argc : Nat) (returns : Option Ty) : Prop :=
  ∀ inner, m.execute inner (.call name argc returns) =
    match m.host.get? name with
    | some f => Exec.takeArguments name argc >>= m.callHost inner name f
    | none => throw (.unresolvedLabel (Label.function name))

theorem Machine.callsFunction {m : Machine} {name : String} {target : Nat}
    (ht : m.program.resolve (Label.function name) = some target) (argc : Nat)
    (returns : Option Ty) : m.CallsFunction name argc returns target :=
  fun inner _ h => ⟨_, execute_callFunction ht h inner, rfl, rfl, rfl, rfl, rfl⟩

theorem Machine.callsHost {m : Machine} {name : String}
    (ht : m.program.resolve (Label.function name) = none) (argc : Nat) (returns : Option Ty) :
    m.CallsHost name argc returns := by
  intro inner
  cases hh : m.host.get? name <;> simp [execute, hostFunction?, ht, hh, callFunction]

section

variable {functions : List Function} {isHost : String → Bool} {p : Program}

/-- The label of a function is bound if there is one, and then to its marker. -/
theorem Compiled.resolve_function (hp : Compiled functions isHost p) (name : String) (i : Nat) :
    p.resolve (Label.function name) = some i ↔ ∃ f ∈ functions, f.name = name ∧
      p.code[i]? = some (.labeled (Label.function name) (.marker .function) f.pos) := by
  constructor
  · intro bound
    by_cases declared : ∃ f ∈ functions, f.name = name
    · obtain ⟨f, hf, rfl⟩ := declared
      obtain ⟨base, hcode, target⟩ := hp.function_at hf
      obtain ⟨code, eq⟩ := f.code_head (signatures functions) base
      cases bound.symm.trans target
      exact ⟨f, hf, rfl, (eq ▸ hcode).head⟩
    · have free := hp.resolve_function_eq_none fun f hf eq => declared ⟨f, hf, eq⟩
      cases bound.symm.trans free
  · rintro ⟨f, _, _, marker⟩
    exact hp.labels.resolve_eq marker

end

/-- The code of a program is well formed: its functions stand one behind the other, each with its
jumps, and in front of the call of the entry point and the exit, which are the last two
instructions. The label of a function is bound if there is one, and to its marker, so that a call
enters a function of the program exactly if it was compiled for one. -/
theorem compile_wellFormed {functions : List Function} {isHost : String → Bool} {p : Program}
    (h : compile functions isHost = .ok p) :
    p.Ranges 0 functions p.entry ∧ p.code.size = p.entry + 2 ∧
      p.code[p.entry]? = some (callInstr (signatures functions) .none entryPoint 0) ∧
      p.code[p.entry + 1]? = some (.plain .exit .none) ∧
      (∀ name i, p.resolve (Label.function name) = some i ↔ ∃ f ∈ functions, f.name = name ∧
        p.code[i]? = some (.labeled (Label.function name) (.marker .function) f.pos)) ∧
      ∀ m : Machine, m.program = p → ∀ name argc returns,
        match signatures functions name with
        | some _ => ∃ target, p.resolve (Label.function name) = some target ∧
          m.CallsFunction name argc returns target
        | none => m.CallsHost name argc returns := by
  have hp := compiled_of_compile h
  obtain ⟨start, exit, size⟩ := hp.start_code
  have ranges := hp.codeAt.1.ranges hp.labels
  rw [Nat.zero_add, ← hp.entry] at ranges
  refine ⟨ranges, size, start, exit, hp.resolve_function, ?_⟩
  rintro m rfl name argc returns
  cases found : functions.find? (·.name = name) with
  | some f =>
    obtain rfl : f.name = name := by simpa using List.find?_some found
    obtain ⟨base, _, target⟩ := hp.function_at (List.mem_of_find?_eq_some found)
    simp only [signatures, found, Option.map_some]
    exact ⟨base, target, m.callsFunction target argc returns⟩
  | none =>
    have free := hp.resolve_function_eq_none (by simpa using found)
    simp only [signatures, found, Option.map_none]
    exact m.callsHost free argc returns

/-- Loops in loops, by names that look like labels. -/
def nested : List Function :=
  [⟨⟨1, 1⟩, "_if.10", [⟨⟨1, 7⟩, .int, "_function.main"⟩], some .int,
      [.range ⟨2, 3⟩ (.literal ⟨2, 12⟩ (.int 0)) (.var ⟨2, 15⟩ "_function.main") "i"
        [.cond ⟨3, 5⟩ (.binary ⟨3, 11⟩ .gt (.var ⟨3, 9⟩ "i") (.literal ⟨3, 13⟩ (.int 1)))
          [.ret ⟨4, 7⟩ (some (.var ⟨4, 14⟩ "i"))]],
        .ret ⟨6, 3⟩ (some (.literal ⟨6, 10⟩ (.int 0)))]⟩,
    ⟨⟨8, 1⟩, "main", [], none,
      [.loop ⟨9, 3⟩ (.literal ⟨9, 10⟩ (.bool true))
        [.count ⟨10, 5⟩ (.assign ⟨10, 10⟩ (some .int) "_while.0" (.literal ⟨10, 25⟩ (.int 0)))
          (.binary ⟨10, 37⟩ .lt (.var ⟨10, 28⟩ "_while.0") (.literal ⟨10, 39⟩ (.int 3)))
          (.assign ⟨10, 42⟩ none "_while.0"
            (.call ⟨10, 53⟩ ⟨10, 53⟩ "_if.10" [.var ⟨10, 59⟩ "_while.0"]))
          [.call ⟨11, 7⟩ ⟨11, 7⟩ "out" [.var ⟨11, 11⟩ "_while.0"]]]]⟩]

theorem compile_wellFormed_nested :
    ∃ p, compile nested Host.standard.contains = .ok p ∧ p.Ranges 0 nested p.entry ∧
      p.code.size = p.entry + 2 ∧ p.resolve "_function._if.10" = some 0 ∧
      p.resolve "_if.10" = some 22 ∧ (Machine.mk p .standard none).CallsHost "out" 1 none := by
  obtain ⟨p, hp, function, finish⟩ : ∃ p, compile nested Host.standard.contains = .ok p ∧
      p.resolve "_function._if.10" = some 0 ∧ p.resolve "_if.10" = some 22 := ⟨_, rfl, rfl, rfl⟩
  obtain ⟨ranges, size, _, _, _, calls⟩ := compile_wellFormed hp
  exact ⟨p, hp, ranges, size, function, finish, calls ⟨p, .standard, none⟩ rfl "out" 1 none⟩

end StackScript
