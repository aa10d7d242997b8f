import StackScript.Proofs.Layout

/-!
# The shape of a call

What the code of a function holds open at each of its instructions, read off the listing alone.

* `Op.flow`: an instruction needs a shape and leaves another one to the next;
* `Stmt.code_flow`, `Function.code_flow`: statements leave what they find, and a function opens
  nothing that it does not close;
* `Op.LeadsTo`, `Stmt.code_lands`: jumps go to an instruction of the right kind, from and to places
  where nothing is open.
-/

namespace StackScript

/-- What a call holds while it runs. -/
structure Shape where
  /-- The scopes it has opened inside its own. -/
  scopes : Nat
  /-- The arguments it has passed to calls that it has not made yet. -/
  waiting : Nat
  /-- The parameters that it has not bound yet. -/
  incoming : Nat
  /-- Whether its result is handed back. -/
  handed : Bool
  deriving DecidableEq, Repr

/-- Nothing is open between statements. -/
def Shape.level : Shape := ⟨0, 0, 0, false⟩

/-- A call has all its parameters to bind. -/
def Shape.entry (params : Nat) : Shape := ⟨0, 0, params, false⟩

/-- Whether code may run on: no parameter is left to bind and no result is handed back. -/
def Shape.IsOpen (sh : Shape) : Prop := sh.incoming = 0 ∧ sh.handed = false

instance (sh : Shape) : Decidable sh.IsOpen :=
  inferInstanceAs (Decidable (_ ∧ _))

/-- The label that an instruction may jump to. -/
def Op.target? : Op → Option String
  | .jumpUnless _ label | .jump label | .rangeTest _ label | .rangeStep _ label => some label
  | _ => none

/-- The shape behind an instruction in the listing. Behind a return there is other code that starts
from nothing. -/
def Op.flow (op : Op) (sh : Shape) : Option Shape :=
  match op with
  | .marker _ => if sh.handed then none else some sh
  | .bindArg .. =>
    match sh with
    | ⟨0, 0, n + 1, false⟩ => some ⟨0, 0, n, false⟩
    | _ => none
  | .ret => if sh = .level ∨ sh = ⟨0, 0, 0, true⟩ then some .level else none
  | .handBack => if sh = .level then some ⟨0, 0, 0, true⟩ else none
  | .jumpUnless .. | .jump _ | .rangeTest .. | .rangeStep .. =>
    if sh = .level then some .level else none
  | .openScope => if sh.IsOpen then some { sh with scopes := sh.scopes + 1 } else none
  | .closeScope =>
    if sh.IsOpen ∧ 0 < sh.scopes then some { sh with scopes := sh.scopes - 1 } else none
  | .passArg => if sh.IsOpen then some { sh with waiting := sh.waiting + 1 } else none
  | .call _ argc _ =>
    if sh.IsOpen ∧ argc ≤ sh.waiting then some { sh with waiting := sh.waiting - argc } else none
  | .exit => none
  | _ => if sh.IsOpen then some sh else none

theorem Op.flow_target {op : Op} {label : String} {sh next : Shape}
    (ht : op.target? = some label) (hf : op.flow sh = some next) : next = .level := by
  cases op with
  | jumpUnless | jump | rangeTest | rangeStep =>
    simp only [Op.flow] at hf
    split at hf <;> cases hf
    rfl
  | _ => cases ht

/-- A return finds the scope of its call, and whether a result is handed back. -/
theorem Op.flow_ret {sh next : Shape} (h : Op.ret.flow sh = some next) :
    ∃ handed, sh = ⟨0, 0, 0, handed⟩ := by
  simp only [Op.flow] at h
  split at h <;> cases h
  rename_i closed
  obtain rfl | rfl := closed
  · exact ⟨false, rfl⟩
  · exact ⟨true, rfl⟩

/-- The shape behind code in the listing. -/
def flow (code : List Instr) (sh : Shape) : Option Shape :=
  code.foldlM (fun sh i => i.op.flow sh) sh

theorem flow_cons (i : Instr) (code : List Instr) (sh : Shape) :
    flow (i :: code) sh = (i.op.flow sh).bind (flow code) := by
  simp only [flow, List.foldlM_cons]
  rfl

theorem flow_singleton (i : Instr) (sh : Shape) : flow [i] sh = i.op.flow sh := by
  rw [flow_cons]
  cases i.op.flow sh <;> rfl

theorem flow_append {a b : List Instr} {sh mid : Shape} (h : flow a sh = some mid) :
    flow (a ++ b) sh = flow b mid := by
  simp only [flow, List.foldlM_append] at h ⊢
  rw [h]
  rfl

theorem flow_inScope {pos : Position} {code : List Instr} {sh : Shape} (ho : sh.IsOpen)
    (h : flow code { sh with scopes := sh.scopes + 1 } = some { sh with scopes := sh.scopes + 1 }) :
    flow (inScope pos code) sh = some sh := by
  have opened : Op.openScope.flow sh = some { sh with scopes := sh.scopes + 1 } := if_pos ho
  have closed : Op.closeScope.flow { sh with scopes := sh.scopes + 1 } = some sh :=
    if_pos ⟨ho, Nat.succ_pos _⟩
  rw [inScope, List.append_assoc, List.singleton_append, flow_cons, Instr.plain, opened,
    Option.bind_some, flow_append h, flow_singleton, Instr.plain, closed]

/-- A call takes the arguments that were passed to it. -/
theorem callCode_flow (sigs : Signatures) (site : Position) (name : String) (args : List Expr)
    {sh : Shape} (ho : sh.IsOpen)
    (h : flow (argsCode sigs site args) sh = some { sh with waiting := sh.waiting + args.length }) :
    flow (callCode sigs site name args) sh = some sh := by
  rw [callCode, flow_append h, flow_singleton]
  simp only [callInstr, Instr.plain, Op.flow]
  rw [if_pos ⟨ho, Nat.le_add_left _ _⟩, Nat.add_sub_cancel]

mutual

/-- An expression leaves the shape it finds. -/
theorem Expr.code_flow (sigs : Signatures) :
    ∀ (e : Expr) {sh : Shape}, sh.IsOpen → flow (e.code sigs) sh = some sh
  | .binary pos op lhs rhs, sh, ho => by
    rw [Expr.code, List.append_assoc, flow_append (lhs.code_flow sigs ho),
      flow_append (rhs.code_flow sigs ho), flow_singleton]
    exact if_pos ho
  | .literal pos value, sh, ho => by
    rw [Expr.code, flow_singleton]
    exact if_pos ho
  | .var pos name, sh, ho => by
    rw [Expr.code, flow_singleton]
    exact if_pos ho
  | .call pos site name args, sh, ho => by
    rw [Expr.code, ← callCode]
    exact callCode_flow sigs site name args ho (argsCode_flow sigs site args ho)
  | .index pos name index, sh, ho => by
    rw [Expr.code, flow_append (flow_inScope ho (index.code_flow sigs ho)), flow_singleton]
    exact if_pos ho
  | .array pos items, sh, ho => by
    rw [Expr.code, List.singleton_append, flow_cons]
    have empty : Op.emptyArray.flow sh = some sh := if_pos ho
    rw [Instr.plain, empty]
    exact itemsCode_flow sigs items ho
  | .paren pos inner, sh, ho => by
    rw [Expr.code]
    exact inner.code_flow sigs ho

theorem argsCode_flow (sigs : Signatures) (site : Position) :
    ∀ (es : List Expr) {sh : Shape}, sh.IsOpen →
      flow (argsCode sigs site es) sh = some { sh with waiting := sh.waiting + es.length }
  | [], sh, ho => by
    rw [argsCode]
    rfl
  | e :: es, sh, ho => by
    have passed : Op.passArg.flow sh = some { sh with waiting := sh.waiting + 1 } := if_pos ho
    rw [argsCode, List.append_assoc, flow_append (flow_inScope ho (e.code_flow sigs ho)),
      List.singleton_append, flow_cons, Instr.plain, passed, Option.bind_some, List.length_cons,
      Nat.add_comm es.length, ← Nat.add_assoc]
    exact argsCode_flow sigs site es ho

theorem itemsCode_flow (sigs : Signatures) :
    ∀ (es : List Expr) {sh : Shape}, sh.IsOpen → flow (itemsCode sigs es) sh = some sh
  | [], sh, ho => by
    rw [itemsCode]
    rfl
  | e :: es, sh, ho => by
    have appended : Op.append.flow sh = some sh := if_pos ho
    rw [itemsCode, List.append_assoc, flow_append (flow_inScope ho (e.code_flow sigs ho)),
      List.singleton_append, flow_cons, Instr.plain, appended, Option.bind_some]
    exact itemsCode_flow sigs es ho

end

theorem Shape.level_isOpen : Shape.level.IsOpen := ⟨rfl, rfl⟩

theorem Expr.scopedCode_flow (sigs : Signatures) (e : Expr) {sh : Shape} (ho : sh.IsOpen) :
    flow (e.scopedCode sigs) sh = some sh :=
  flow_inScope ho (e.code_flow sigs ho)

/-- Code that leaves nothing open between statements. -/
def Level (code : List Instr) : Prop := flow code .level = some .level

namespace Level

theorem nil : Level [] := rfl

theorem append {a b : List Instr} (ha : Level a) (hb : Level b) : Level (a ++ b) := by
  rw [Level, flow_append ha]
  exact hb

theorem cons {i : Instr} {code : List Instr} (hi : i.op.flow .level = some .level)
    (h : Level code) : Level (i :: code) := by
  rw [Level, flow_cons, hi]
  exact h

theorem singleton {i : Instr} (hi : i.op.flow .level = some .level) : Level [i] :=
  .cons hi .nil

theorem scopedCode (sigs : Signatures) (e : Expr) : Level (e.scopedCode sigs) :=
  e.scopedCode_flow sigs Shape.level_isOpen

end Level

mutual

/-- A statement leaves nothing open. -/
theorem Stmt.code_level (sigs : Signatures) : ∀ (s : Stmt) (base : Nat), Level (s.code sigs base)
  | .cond pos test body, base => by
    rw [Stmt.code]
    exact (((Level.scopedCode sigs test).append (.singleton rfl)).append
      (bodyCode_level sigs body _)).append (.singleton rfl)
  | .loop pos test body, base => by
    rw [Stmt.code]
    exact ((((Level.singleton rfl).append (.scopedCode sigs test)).append (.singleton rfl)).append
      (bodyCode_level sigs body _)).append (.cons rfl (.singleton rfl))
  | .count pos init test step body, base => by
    rw [Stmt.code]
    exact ((((((init.code_level sigs _).append (.singleton rfl)).append
      (.scopedCode sigs test)).append (.singleton rfl)).append (bodyCode_level sigs body _)).append
      (step.code_level sigs _)).append (.cons rfl (.singleton rfl))
  | .range pos first last name body, base => by
    rw [Stmt.code]
    exact ((((((Level.scopedCode sigs first).append (.singleton rfl)).append
      (.scopedCode sigs last)).append (.singleton rfl)).append (.singleton rfl)).append
      (bodyCode_level sigs body _)).append (.cons rfl (.singleton rfl))
  | .ret pos none, base => by
    rw [Stmt.code]
    exact .singleton rfl
  | .ret pos (some value), base => by
    rw [Stmt.code]
    have back : Level [.plain .handBack pos, .plain .ret pos] := rfl
    exact (Level.scopedCode sigs value).append back
  | .assignItem pos name index value, base => by
    rw [Stmt.code]
    exact (((Level.scopedCode sigs index).append (.singleton rfl)).append
      (.scopedCode sigs value)).append (.singleton rfl)
  | .assign pos ty name value, base => by
    rw [Stmt.code]
    exact (Level.scopedCode sigs value).append (.singleton rfl)
  | .call pos site name args, base => by
    rw [Stmt.code]
    have opened : Shape.IsOpen ⟨1, 0, 0, false⟩ := ⟨rfl, rfl⟩
    exact flow_inScope Shape.level_isOpen
      (callCode_flow sigs site name args opened (argsCode_flow sigs site args opened))
  | .expr _ value, base => by
    rw [Stmt.code]
    exact .scopedCode sigs value

theorem bodyCode_level (sigs : Signatures) :
    ∀ (ss : List Stmt) (base : Nat), Level (bodyCode sigs base ss)
  | [], base => by
    rw [bodyCode]
    exact .nil
  | s :: ss, base => by
    rw [bodyCode]
    exact (s.code_level sigs base).append (bodyCode_level sigs ss _)

end

theorem Function.prologue_flow (f : Function) :
    flow f.prologue (.entry f.params.length) = some .level := by
  have bind (ps : List Parameter) :
      flow (ps.map fun p => .plain (.bindArg p.ty p.name) p.pos) (.entry ps.length) =
        some .level := by
    induction ps with
    | nil => rfl
    | cons p ps ih =>
      rw [List.map_cons, flow_cons]
      exact ih
  rw [Function.prologue, flow_cons]
  exact bind f.params

/-- A function opens nothing that it does not close, and ends with a return. -/
theorem Function.code_flow (sigs : Signatures) (base : Nat) (f : Function) :
    flow (f.code sigs base) (.entry f.params.length) = some .level ∧
      ∃ code i, f.code sigs base = code ++ [i] ∧ i.op = .ret := by
  obtain ⟨tail, eq, htail⟩ := f.code_eq sigs base
  have body : flow (f.prologue ++ bodyCode sigs (base + f.prologue.length) f.body)
      (.entry f.params.length) = some .level := by
    rw [flow_append f.prologue_flow]
    exact bodyCode_level sigs f.body _
  obtain rfl | ⟨rfl, last⟩ := htail
  · rw [eq, flow_append body]
    exact ⟨rfl, _, _, rfl, rfl⟩
  · rw [List.append_nil] at eq
    rw [eq]
    obtain ⟨i, hi, ret⟩ := Option.map_eq_some_iff.1 last
    obtain ⟨code, split⟩ := List.getLast?_eq_some_iff.1 hi
    exact ⟨body, code, i, split, ret⟩

/-! ## Jumps -/

/-- Where an instruction may jump to, from the index `source` to the index `goal` where `target`
stands: on to the end of its construct or back to the start of a loop. -/
def Op.LeadsTo (op : Op) (source goal : Nat) (target : Op) : Prop :=
  match op with
  | .jumpUnless .if_ _ => source < goal ∧ target = .marker .ifEnd
  | .jumpUnless .while_ _ => source < goal ∧ target = .marker .whileEnd
  | .jumpUnless .for_ _ => source < goal ∧ target = .marker .forEnd
  | .jump _ => goal < source ∧ (target = .marker .whileStart ∨ target = .marker .forStart)
  | .rangeTest .. => source < goal ∧ target = .marker .rangeEnd
  | .rangeStep name _ => goal < source ∧ ∃ label, target = .rangeTest name label
  | _ => False

theorem Op.LeadsTo.shift {op target : Op} {source goal : Nat} (h : op.LeadsTo source goal target)
    (n : Nat) : op.LeadsTo (n + source) (n + goal) target := by
  unfold LeadsTo at h ⊢
  split at h <;> first | exact ⟨Nat.add_lt_add_left h.1 n, h.2⟩ | exact h

/-- The code has a place for this jump, which stands somewhere before it. -/
def Ahead (op : Op) (label : String) (code : List Instr) : Prop :=
  ∃ a j b, code = a ++ j :: b ∧ j.label = some label ∧ Level a ∧ ∀ n, op.LeadsTo 0 (n + 1) j.op

namespace Ahead

variable {op : Op} {label : String} {a b : List Instr} {j : Instr}

theorem here (hj : j.label = some label) (leads : ∀ n, op.LeadsTo 0 (n + 1) j.op) :
    Ahead op label (j :: b) :=
  ⟨[], j, b, rfl, hj, .nil, leads⟩

theorem skip (ha : Level a) (h : Ahead op label b) : Ahead op label (a ++ b) := by
  obtain ⟨c, j, d, rfl, hj, level, leads⟩ := h
  exact ⟨a ++ c, j, d, by simp, hj, ha.append level, leads⟩

end Ahead

/-- The code has a place for this jump, which stands somewhere behind it. -/
def Behind (op : Op) (label : String) (code : List Instr) : Prop :=
  ∃ a j b, code = a ++ j :: b ∧ j.label = some label ∧ Level a ∧ ∀ n, op.LeadsTo (n + 1) 0 j.op

namespace Behind

variable {op : Op} {label : String} {a : List Instr} {j : Instr}

theorem here (ha : Level a) (hj : j.label = some label) (leads : ∀ n, op.LeadsTo (n + 1) 0 j.op) :
    Behind op label (a ++ [j]) :=
  ⟨a, j, [], rfl, hj, ha, leads⟩

theorem extend (h : Behind op label a) (b : List Instr) : Behind op label (a ++ b) := by
  obtain ⟨c, j, d, rfl, landing⟩ := h
  exact ⟨c, j, d ++ b, by simp, landing⟩

end Behind

/-- Each jump of the code, where it stands between `before` and `after`, goes to a place of the
whole where nothing is open. -/
def Lands (before code after : List Instr) : Prop :=
  ∀ (k : Nat) (i : Instr) (label : String), code[k]? = some i → i.op.target? = some label →
    ∃ left j right, before ++ code ++ after = left ++ j :: right ∧ j.label = some label ∧
      Level left ∧ i.op.LeadsTo (before.length + k) left.length j.op

namespace Lands

variable {code x y a b : List Instr} {i j : Instr} {label : String}

theorem append (ha : Lands x a (b ++ y)) (hb : Lands (x ++ a) b y) : Lands x (a ++ b) y := by
  intro k i label hi ht
  by_cases hk : k < a.length
  · rw [List.getElem?_append_left hk] at hi
    obtain ⟨left, j, right, eq, landing⟩ := ha k i label hi ht
    exact ⟨left, j, right, by simpa using eq, landing⟩
  · rw [List.getElem?_append_right (by omega)] at hi
    obtain ⟨left, j, right, eq, hj, level, leads⟩ := hb _ i label hi ht
    refine ⟨left, j, right, by simpa using eq, hj, level, ?_⟩
    rwa [List.length_append, Nat.add_assoc, Nat.add_sub_cancel' (by omega)] at leads

/-- Code whose jumps stay inside it may stand anywhere between statements. -/
theorem enclose (h : Lands [] code []) (hx : Level x) : Lands x code y := by
  intro k i label hi ht
  obtain ⟨left, j, right, eq, hj, level, leads⟩ := h k i label hi ht
  rw [List.nil_append, List.append_nil] at eq
  refine ⟨x ++ left, j, right ++ y, by simp [eq], hj, hx.append level, ?_⟩
  rw [List.length_nil, Nat.zero_add] at leads
  rw [List.length_append]
  exact leads.shift x.length

theorem of_target?_eq_none (h : ∀ i ∈ code, i.op.target? = none) : Lands x code y := by
  intro k i label hi ht
  rw [h i (List.mem_of_getElem? hi)] at ht
  cases ht

theorem of_inExpr {sigs : Signatures} (h : ∀ i ∈ code, i.InExpr sigs) : Lands x code y := by
  refine of_target?_eq_none fun i hi => ?_
  have op := (h i hi).op
  revert op
  cases i.op <;> simp [Op.InExpr, Op.target?]

theorem scopedCode (sigs : Signatures) (e : Expr) : Lands x (e.scopedCode sigs) y :=
  of_inExpr (e.scopedCode_inExpr sigs)

theorem nil : Lands x [] y := by
  intro k i label hi
  cases hi

theorem still (h : i.op.target? = none) : Lands x [i] y :=
  of_target?_eq_none fun _ hj => List.mem_singleton.1 hj ▸ h

theorem singleton (hi : i.op.target? = some label)
    (h : ∃ left j right, x ++ [i] ++ y = left ++ j :: right ∧ j.label = some label ∧ Level left ∧
      i.op.LeadsTo x.length left.length j.op) : Lands x [i] y := by
  intro k i' label' hk ht
  cases k with
  | zero =>
    obtain rfl : i = i' := Option.some.inj hk
    obtain rfl : label = label' := Option.some.inj (hi.symm.trans ht)
    exact h
  | succ k => simp at hk

theorem onward (hi : i.op.target? = some label) (hx : Level x)
    (level : i.op.flow .level = some .level) (h : Ahead i.op label y) : Lands x [i] y := by
  obtain ⟨a, j, b, rfl, hj, ha, leads⟩ := h
  have before := (hx.append (.singleton level)).append ha
  refine singleton hi ⟨x ++ [i] ++ a, j, b, by simp, hj, before, ?_⟩
  have length : (x ++ [i] ++ a).length = x.length + (a.length + 1) := by simp
  rw [length]
  exact (leads a.length).shift x.length

theorem back (hi : i.op.target? = some label) (h : Behind i.op label x) : Lands x [i] y := by
  obtain ⟨a, j, b, rfl, hj, ha, leads⟩ := h
  refine singleton hi ⟨a, j, b ++ [i] ++ y, by simp, hj, ha, ?_⟩
  rw [List.length_append, List.length_cons]
  exact (leads b.length).shift a.length

end Lands

mutual

/-- The jumps of a statement stay inside it and go where nothing is open. -/
theorem Stmt.code_lands (sigs : Signatures) :
    ∀ (s : Stmt) (base : Nat), Lands [] (s.code sigs base) []
  | .cond pos test body, base => by
    rw [Stmt.code]
    refine .append (.append (.append (.scopedCode sigs test) ?_) ?_) (.still rfl)
    · refine .onward rfl (.append .nil (.scopedCode sigs test)) rfl ?_
      exact .skip (bodyCode_level sigs body _) (.here rfl fun n => ⟨n.succ_pos, rfl⟩)
    · refine (bodyCode_lands sigs body _).enclose ?_
      exact .append .nil (.append (.scopedCode sigs test) (.singleton rfl))
  | .loop pos test body, base => by
    rw [Stmt.code]
    refine .append (.append (.append (.append (.still rfl) ?_) ?_) ?_)
      (.append (a := [_]) ?_ (.still rfl))
    · exact .scopedCode sigs test
    · refine .onward rfl (.append .nil (.append (.singleton rfl) (.scopedCode sigs test))) rfl ?_
      exact .skip (bodyCode_level sigs body _)
        (.skip (a := [_]) (.singleton rfl) (.here rfl fun n => ⟨n.succ_pos, rfl⟩))
    · refine (bodyCode_lands sigs body _).enclose (.append .nil ?_)
      exact .append (.append (.singleton rfl) (.scopedCode sigs test)) (.singleton rfl)
    · rw [List.nil_append]
      refine .back rfl (.extend (.extend (.extend (.here (a := []) .nil rfl ?_) _) _) _)
      exact fun n => ⟨n.succ_pos, .inl rfl⟩
  | .count pos init test step body, base => by
    rw [Stmt.code]
    have head (start jump : Instr) (hs : start.op.flow .level = some .level)
        (hj : jump.op.flow .level = some .level) :
        Level ([] ++ (init.code sigs base ++ [start] ++ test.scopedCode sigs ++ [jump])) :=
      .append .nil (.append (.append (.append (init.code_level sigs _) (.singleton hs))
        (.scopedCode sigs test)) (.singleton hj))
    refine .append (.append (.append (.append (.append (.append ?_ (.still rfl)) ?_) ?_) ?_) ?_)
      (.append (a := [_]) ?_ (.still rfl))
    · exact (init.code_lands sigs base).enclose .nil
    · exact .scopedCode sigs test
    · refine .onward rfl (.append .nil (.append (.append (init.code_level sigs _) (.singleton rfl))
        (.scopedCode sigs test))) rfl ?_
      exact .skip (bodyCode_level sigs body _) (.skip (step.code_level sigs _)
        (.skip (a := [_]) (.singleton rfl) (.here rfl fun n => ⟨n.succ_pos, rfl⟩)))
    · exact (bodyCode_lands sigs body _).enclose (head _ _ rfl rfl)
    · exact (step.code_lands sigs _).enclose
        ((head _ _ rfl rfl).append (bodyCode_level sigs body _))
    · rw [List.nil_append]
      refine .back rfl (.extend (.extend (.extend (.extend
        (.here (init.code_level sigs base) rfl ?_) _) _) _) _)
      exact fun n => ⟨n.succ_pos, .inr rfl⟩
  | .range pos first last name body, base => by
    rw [Stmt.code]
    have bounds (i j : Instr) (hi : i.op.flow .level = some .level)
        (hj : j.op.flow .level = some .level) :
        Level (first.scopedCode sigs ++ [i] ++ last.scopedCode sigs ++ [j]) :=
      .append (.append (.append (.scopedCode sigs first) (.singleton hi)) (.scopedCode sigs last))
        (.singleton hj)
    refine .append (.append (.append ?_ ?_) ?_) (.append (a := [_]) ?_ (.still rfl))
    · exact .append (.append (.append (.scopedCode sigs first) (.still rfl))
        (.scopedCode sigs last)) (.still rfl)
    · refine .onward rfl (.append .nil (bounds _ _ rfl rfl)) rfl ?_
      exact .skip (bodyCode_level sigs body _)
        (.skip (a := [_]) (.singleton rfl) (.here rfl fun n => ⟨n.succ_pos, rfl⟩))
    · refine (bodyCode_lands sigs body _).enclose ?_
      exact .append .nil ((bounds _ _ rfl rfl).append (.singleton rfl))
    · rw [List.nil_append]
      refine .back rfl (.extend (.here (bounds _ _ rfl rfl) rfl ?_) _)
      exact fun n => ⟨n.succ_pos, _, rfl⟩
  | .ret pos none, base => by
    rw [Stmt.code]
    exact .still rfl
  | .ret pos (some value), base => by
    rw [Stmt.code]
    exact .append (.scopedCode sigs value) (.append (a := [_]) (.still rfl) (.still rfl))
  | .assignItem pos name index value, base => by
    rw [Stmt.code]
    exact .append (.append (.append (.scopedCode sigs index) (.still rfl)) (.scopedCode sigs value))
      (.still rfl)
  | .assign pos ty name value, base => by
    rw [Stmt.code]
    exact .append (.scopedCode sigs value) (.still rfl)
  | .call pos site name args, base => by
    rw [Stmt.code, inScope, callCode]
    refine .append (.append (.still rfl) (.append ?_ (.still rfl))) (.still rfl)
    exact .of_inExpr (argsCode_inExpr sigs site args)
  | .expr _ value, base => by
    rw [Stmt.code]
    exact .scopedCode sigs value

theorem bodyCode_lands (sigs : Signatures) :
    ∀ (ss : List Stmt) (base : Nat), Lands [] (bodyCode sigs base ss) []
  | [], base => by
    rw [bodyCode]
    exact .nil
  | s :: ss, base => by
    rw [bodyCode]
    exact .append ((s.code_lands sigs base).enclose .nil)
      ((bodyCode_lands sigs ss _).enclose (s.code_level sigs base))

end

/-- The jumps of a function stay inside it and go where nothing is open. -/
theorem Function.code_lands (sigs : Signatures) (base : Nat) (f : Function) {k : Nat} {i : Instr}
    (hi : (f.code sigs base)[k]? = some i) {label : String} (ht : i.op.target? = some label) :
    ∃ before j after, f.code sigs base = before ++ j :: after ∧ j.label = some label ∧
      flow before (.entry f.params.length) = some .level ∧ i.op.LeadsTo k before.length j.op := by
  obtain ⟨tail, eq, htail⟩ := f.code_eq sigs base
  have prologue : ∀ i ∈ f.prologue, i.op.target? = none := by
    simp [Function.prologue, Instr.labeled, Instr.plain, Op.target?]
  have after : ∀ i ∈ tail, i.op.target? = none := by
    obtain rfl | ⟨rfl, _⟩ := htail <;> simp [Instr.plain, Op.target?]
  rw [eq] at hi ⊢
  by_cases hk : k < f.prologue.length
  · rw [List.append_assoc, List.getElem?_append_left hk] at hi
    simp [prologue i (List.mem_of_getElem? hi)] at ht
  · rw [List.append_assoc, List.getElem?_append_right (by omega)] at hi
    by_cases hk' : k - f.prologue.length < (bodyCode sigs (base + f.prologue.length) f.body).length
    · rw [List.getElem?_append_left hk'] at hi
      obtain ⟨left, j, right, body, hj, level, leads⟩ :=
        bodyCode_lands sigs f.body _ _ i label hi ht
      rw [List.nil_append, List.append_nil] at body
      refine ⟨f.prologue ++ left, j, right ++ tail, by simp [body], hj, ?_, ?_⟩
      · rw [flow_append f.prologue_flow]
        exact level
      · have leads := leads.shift f.prologue.length
        rwa [List.length_nil, Nat.zero_add, Nat.add_sub_cancel' (by omega),
          ← List.length_append] at leads
    · rw [List.getElem?_append_right (by omega)] at hi
      simp [after i (List.mem_of_getElem? hi)] at ht

/-! ## Places -/

/-- In a call of `f` that is about to execute the instruction at `pc`, this is open. -/
def Program.Within (p : Program) (sigs : Signatures) (f : Function) (pc : Nat) (sh : Shape) :
    Prop :=
  ∃ base before i after, p.CodeAt base (f.code sigs base) ∧
    f.code sigs base = before ++ i :: after ∧ pc = base + before.length ∧
    flow before (.entry f.params.length) = some sh

namespace Program.Within

variable {p : Program} {sigs : Signatures} {f : Function} {pc : Nat} {sh : Shape}

/-- There is an instruction at every place, and what is open is what it needs. -/
theorem instr (h : p.Within sigs f pc sh) :
    ∃ i next, p.code[pc]? = some i ∧ i.op.flow sh = some next ∧
      (i.op ≠ .ret → p.Within sigs f (pc + 1) next) := by
  obtain ⟨base, before, i, after, hcode, eq, rfl, hbefore⟩ := h
  obtain ⟨whole, code, last, hlast, ret⟩ := f.code_flow sigs base
  rw [eq, flow_append hbefore, flow_cons] at whole
  obtain ⟨next, hi, _⟩ := Option.bind_eq_some_iff.1 whole
  have placed : p.code[base + before.length]? = some i := (codeAt_append.1 (eq ▸ hcode)).2.head
  refine ⟨i, next, placed, hi, fun hr => ?_⟩
  rw [eq] at hlast
  cases after with
  | nil =>
    obtain ⟨_, same⟩ := List.append_inj' hlast rfl
    exact absurd ((List.singleton_inj.1 same) ▸ ret) hr
  | cons j after =>
    refine ⟨base, before ++ [i], j, after, hcode, by rw [eq]; simp, by simp; omega, ?_⟩
    rw [flow_append hbefore, flow_singleton, hi]

/-- A jump goes to a place of the same function where nothing is open. -/
theorem target (h : p.Within sigs f pc sh) (hl : p.LabelsMatch) {i : Instr}
    (hi : p.code[pc]? = some i) {label : String} (ht : i.op.target? = some label) :
    ∃ goal, p.resolve label = some goal ∧ p.Within sigs f goal .level := by
  obtain ⟨base, before, k, after, hcode, eq, rfl, _⟩ := h
  have placed : p.code[base + before.length]? = some k := (codeAt_append.1 (eq ▸ hcode)).2.head
  obtain rfl : i = k := Option.some.inj (hi.symm.trans placed)
  obtain ⟨before', j, after', eq', hj, level, _⟩ :=
    f.code_lands sigs base (k := before.length) (by rw [eq]; simp) ht
  have placed' : p.code[base + before'.length]? = some j :=
    (codeAt_append.1 (eq' ▸ hcode)).2.head
  exact ⟨base + before'.length, (hl label _).2 ⟨j, placed', hj⟩,
    base, before', j, after', hcode, eq', rfl, level⟩

theorem resolves (h : p.Within sigs f pc sh) (hl : p.LabelsMatch) {i : Instr}
    (hi : p.code[pc]? = some i) {label : String} (ht : i.op.target? = some label) :
    ∃ goal, p.resolve label = some goal := by
  obtain ⟨goal, hg, _⟩ := h.target hl hi ht
  exact ⟨goal, hg⟩

end Program.Within

/-- A function is entered where its label is bound, with its parameters to bind. -/
theorem Compiled.within_entry {functions : List Function} {isHost : String → Bool} {p : Program}
    (hp : Compiled functions isHost p) {f : Function} (hf : f ∈ functions) :
    ∃ base, p.resolve (Label.function f.name) = some base ∧
      p.Within (signatures functions) f base (.entry f.params.length) := by
  obtain ⟨base, hcode, target⟩ := hp.function_at hf
  obtain ⟨code, eq⟩ := f.code_head (signatures functions) base
  exact ⟨base, target, base, [], _, code, hcode, eq, rfl, rfl⟩

end StackScript
