import StackScript.Proofs.Layout

/-!
# Labels are new

A label of a jump is named for the index of an instruction of its construct, and no two constructs
of a kind have that instruction in common.

* `Label.indexed_injective`: the name tells the kind and the index;
* `Owns`: different labels, named for indices in a range;
* `Stmt.code_owns`: the labels of a statement are named for its own instructions;
* `Function.codeAll_nodup`: the labels of functions with different names are different;
* `Program.exists_pushFunctions`: so none of them is refused.
-/

namespace StackScript

/-! ## Names of labels -/

theorem Text.digitChar_injective {a b : Nat} (ha : a < 16) (hb : b < 16)
    (h : a.digitChar = b.digitChar) : a = b := by
  have below : ∀ a < 16, ∀ b < 16, Nat.digitChar a = Nat.digitChar b → a = b := by decide
  exact below a ha b hb h

theorem Text.hex_injective {a b : Nat} (h : hex a = hex b) : a = b := by
  have digits : Nat.toDigits 16 a = Nat.toDigits 16 b := by
    simpa [hex] using congrArg String.toList h
  clear h
  induction a using Nat.strongRecOn generalizing b with
  | _ a ih =>
    rw [Nat.toDigits_eq_if (by decide), Nat.toDigits_eq_if (n := b) (by decide)] at digits
    split at digits <;> split at digits
    · exact digitChar_injective ‹_› ‹_› (List.singleton_inj.1 digits)
    · simp [List.cons_eq_append_iff] at digits
    · simp [List.append_eq_cons_iff] at digits
    · obtain ⟨upper, lower⟩ := List.append_inj' digits rfl
      have upper := ih (a / 16) (by omega) upper
      have lower := digitChar_injective (Nat.mod_lt _ (by decide)) (Nat.mod_lt _ (by decide))
        (List.singleton_inj.1 lower)
      omega

/-- The kinds of labels differ before the index begins. -/
theorem Label.indexed_injective {kind kind' : String} {i j : Nat}
    (hk : kind ∈ ["if", "while", "for", "forinc", "forinc_e"])
    (hk' : kind' ∈ ["if", "while", "for", "forinc", "forinc_e"])
    (h : Label.indexed kind i = Label.indexed kind' j) : kind = kind' ∧ i = j := by
  have digits : (Text.hex i).toList = (Text.hex j).toList → i = j := fun eq =>
    Text.hex_injective (String.toList_injective eq)
  have h := congrArg String.toList h
  simp only [List.mem_cons, List.not_mem_nil, or_false] at hk hk'
  obtain rfl | rfl | rfl | rfl | rfl := hk <;> obtain rfl | rfl | rfl | rfl | rfl := hk' <;>
    simp [Label.indexed, String.toList_append] at h ⊢ <;> exact digits h

/-! ## Labels of code -/

/-- The labels that instructions carry. -/
def labelsOf (code : List Instr) : List String := code.filterMap Instr.label

@[simp] theorem labelsOf_append (a b : List Instr) : labelsOf (a ++ b) = labelsOf a ++ labelsOf b :=
  List.filterMap_append ..

@[simp] theorem labelsOf_nil : labelsOf [] = [] := rfl

@[simp] theorem labelsOf_plain (op : Op) (pos : Position) (code : List Instr) :
    labelsOf (.plain op pos :: code) = labelsOf code := rfl

@[simp] theorem labelsOf_labeled (label : String) (op : Op) (pos : Position) (code : List Instr) :
    labelsOf (.labeled label op pos :: code) = label :: labelsOf code := rfl

theorem mem_labelsOf {label : String} {code : List Instr} :
    label ∈ labelsOf code ↔ ∃ i ∈ code, i.label = some label :=
  List.mem_filterMap

theorem labelsOf_eq_nil {sigs : Signatures} {code : List Instr} (h : ∀ i ∈ code, i.InExpr sigs) :
    labelsOf code = [] :=
  List.filterMap_eq_nil_iff.2 fun i hi => (h i hi).label

@[simp] theorem labelsOf_scopedCode (sigs : Signatures) (e : Expr) :
    labelsOf (e.scopedCode sigs) = [] :=
  labelsOf_eq_nil (e.scopedCode_inExpr sigs)

/-- These labels are different, and named for indices from `first` on and before `last`. -/
structure Owns (first last : Nat) (names : List String) : Prop where
  le : first ≤ last
  nodup : names.Nodup
  named : ∀ label ∈ names, ∃ kind ∈ ["if", "while", "for", "forinc", "forinc_e"], ∃ index,
    first ≤ index ∧ index < last ∧ label = Label.indexed kind index

namespace Owns

variable {first mid last n : Nat} {xs ys : List String}

theorem nil (n : Nat) : Owns n n [] := ⟨Nat.le_refl n, .nil, by simp⟩

theorem one (kind : String) (n : Nat)
    (hk : kind ∈ ["if", "while", "for", "forinc", "forinc_e"] := by simp) :
    Owns n (n + 1) [Label.indexed kind n] := by
  refine ⟨Nat.le_succ n, by simp, fun label h => ?_⟩
  exact ⟨kind, hk, n, Nat.le_refl n, Nat.lt_succ_self n, List.mem_singleton.1 h⟩

/-- A range loop names both its labels for the same instruction. -/
theorem two (n : Nat) : Owns n (n + 1) [Label.indexed "forinc" n, Label.indexed "forinc_e" n] := by
  have differ : Label.indexed "forinc" n ≠ Label.indexed "forinc_e" n := fun eq => by
    have kinds := (Label.indexed_injective (by simp) (by simp) eq).1
    simp at kinds
  refine ⟨Nat.le_succ n, by simp [differ], fun label h => ?_⟩
  simp only [List.mem_cons, List.not_mem_nil, or_false] at h
  obtain rfl | rfl := h
  · exact ⟨"forinc", by simp, n, Nat.le_refl n, Nat.lt_succ_self n, rfl⟩
  · exact ⟨"forinc_e", by simp, n, Nat.le_refl n, Nat.lt_succ_self n, rfl⟩

theorem widen {first' last' : Nat} (h : Owns first last xs) (hf : first' ≤ first)
    (hl : last ≤ last') : Owns first' last' xs := by
  refine ⟨by have := h.le; omega, h.nodup, fun label hx => ?_⟩
  obtain ⟨kind, hk, index, hi, hi', eq⟩ := h.named label hx
  exact ⟨kind, hk, index, by omega, by omega, eq⟩

theorem append (hx : Owns first mid xs) (hy : Owns mid last ys) : Owns first last (xs ++ ys) := by
  have hx' := hx.widen (Nat.le_refl first) hy.le
  have hy' := hy.widen hx.le (Nat.le_refl last)
  refine ⟨hx'.le, List.nodup_append.2 ⟨hx.nodup, hy.nodup, fun a ha b hb eq => ?_⟩, ?_⟩
  · obtain ⟨kind, hk, i, _, hi, rfl⟩ := hx.named a ha
    obtain ⟨kind', hk', j, hj, _, rfl⟩ := hy.named b hb
    have same := (Label.indexed_injective hk hk' eq).2
    omega
  · intro label h
    exact (List.mem_append.1 h).elim (hx'.named label) (hy'.named label)

theorem perm (h : Owns first last xs) (hp : ys.Perm xs) : Owns first last ys :=
  ⟨h.le, hp.nodup_iff.2 h.nodup, fun label hy => h.named label (hp.mem_iff.1 hy)⟩

/-- A label that stands behind others may be named for what stands before them. -/
theorem behind (hx : Owns first mid xs) (hy : Owns mid last ys) : Owns first last (ys ++ xs) :=
  (hx.append hy).perm List.perm_append_comm

theorem of_labelsOf_eq_nil {code : List Instr} (n : Nat) (h : labelsOf code = []) :
    Owns n (n + code.length) (labelsOf code) :=
  h ▸ (nil n).widen (Nat.le_refl n) (Nat.le_add_right n _)

end Owns

mutual

/-- The labels of a statement are named for its own instructions. -/
theorem Stmt.code_owns (sigs : Signatures) : ∀ (s : Stmt) (base : Nat),
    Owns base (base + (s.code sigs base).length) (labelsOf (s.code sigs base))
  | .cond pos test body, base => by
    have inner (n : Nat) := bodyCode_owns sigs body (n + 1)
    simp only [Stmt.code, labelsOf_append, labelsOf_scopedCode, labelsOf_plain, labelsOf_labeled,
      labelsOf_nil, List.nil_append, List.append_nil, List.length_append, List.length_cons,
      List.length_nil]
    exact ((Owns.one "if" _).behind (inner _)).widen (by omega) (by omega)
  | .loop pos test body, base => by
    have inner (n : Nat) := (Owns.one "while" n).behind (bodyCode_owns sigs body (n + 1))
    simp only [Stmt.code, labelsOf_append, labelsOf_scopedCode, labelsOf_plain, labelsOf_labeled,
      labelsOf_nil, List.append_assoc, List.length_append, List.length_cons, List.length_nil]
    have rest := (inner (base + 1 + (test.scopedCode sigs).length)).widen
      (Nat.le_add_right (base + 1) _) (Nat.le_refl _)
    exact ((Owns.one "while" base).append rest).widen (Nat.le_refl _) (by omega)
  | .count pos init test step body, base => by
    have inner (n : Nat) := (Owns.one "for" n).behind
      ((bodyCode_owns sigs body (n + 1)).append (step.code_owns sigs _))
    simp only [Stmt.code, labelsOf_append, labelsOf_scopedCode, labelsOf_plain, labelsOf_labeled,
      labelsOf_nil, List.append_nil, List.length_append, List.length_cons, List.length_nil]
    have start := (init.code_owns sigs base).append (.one "for" _)
    have rest := (inner (base + (init.code sigs base).length + 1 +
      (test.scopedCode sigs).length)).widen (Nat.le_add_right _ _) (Nat.le_refl _)
    have whole := start.append rest
    simp only [List.append_assoc] at whole ⊢
    exact whole.widen (Nat.le_refl _) (by omega)
  | .range pos first last name body, base => by
    have inner (n : Nat) := ((Owns.two n).append (bodyCode_owns sigs body (n + 1))).perm
      (List.Perm.cons _ List.perm_append_comm)
    simp only [Stmt.code, labelsOf_append, labelsOf_scopedCode, labelsOf_plain, labelsOf_labeled,
      labelsOf_nil, List.nil_append, List.append_nil, List.length_append, List.length_cons,
      List.length_nil]
    exact (inner _).widen (by omega) (by omega)
  | .ret pos none, base => .of_labelsOf_eq_nil base (by simp [Stmt.code])
  | .ret pos (some value), base => .of_labelsOf_eq_nil base (by simp [Stmt.code])
  | .assignItem pos name index value, base => .of_labelsOf_eq_nil base (by simp [Stmt.code])
  | .assign pos ty name value, base => .of_labelsOf_eq_nil base (by simp [Stmt.code])
  | .call pos site name args, base => by
    refine .of_labelsOf_eq_nil base ?_
    simp [Stmt.code, inScope, callCode, callInstr, labelsOf_eq_nil (argsCode_inExpr sigs site args)]
  | .expr _ value, base => .of_labelsOf_eq_nil base (by simp [Stmt.code])

theorem bodyCode_owns (sigs : Signatures) : ∀ (ss : List Stmt) (base : Nat),
    Owns base (base + (bodyCode sigs base ss).length) (labelsOf (bodyCode sigs base ss))
  | [], base => by
    rw [bodyCode]
    exact .nil base
  | s :: ss, base => by
    have rest := bodyCode_owns sigs ss (base + (s.code sigs base).length)
    rw [bodyCode, labelsOf_append, List.length_append, ← Nat.add_assoc]
    exact (s.code_owns sigs base).append rest

end

/-! ## Labels of functions -/

namespace Function

/-- A function has its own label and those of its body. -/
theorem labelsOf_code (sigs : Signatures) (base : Nat) (f : Function) :
    labelsOf (f.code sigs base) =
      Label.function f.name :: labelsOf (bodyCode sigs (base + f.prologue.length) f.body) := by
  have params : labelsOf (f.params.map fun p => .plain (.bindArg p.ty p.name) p.pos) = [] :=
    List.filterMap_eq_nil_iff.2 fun i hi => by
      obtain ⟨p, _, rfl⟩ := List.mem_map.1 hi
      rfl
  have before : labelsOf f.prologue = [Label.function f.name] := by
    rw [prologue, labelsOf_labeled, params]
  obtain ⟨tail, eq, htail⟩ := f.code_eq sigs base
  have after : labelsOf tail = [] := by
    obtain rfl | ⟨rfl, _⟩ := htail <;> rfl
  rw [eq, labelsOf_append, labelsOf_append, before, after, List.append_nil]
  rfl

theorem body_owns (sigs : Signatures) (base : Nat) (f : Function) :
    Owns base (base + (f.code sigs base).length)
      (labelsOf (bodyCode sigs (base + f.prologue.length) f.body)) := by
  obtain ⟨tail, eq, _⟩ := f.code_eq sigs base
  have body := bodyCode_owns sigs f.body (base + f.prologue.length)
  rw [eq, List.length_append, List.length_append]
  exact body.widen (by omega) (by omega)

/-- The labels of functions are their own and those of their jumps. -/
theorem labelsOf_codeAll (sigs : Signatures) (base : Nat) (fs : List Function) :
    ∃ jumps, Owns base (base + (codeAll sigs base fs).length) jumps ∧
      (labelsOf (codeAll sigs base fs)).Perm
        (fs.map (fun f => Label.function f.name) ++ jumps) := by
  induction fs generalizing base with
  | nil => exact ⟨[], .nil base, .refl []⟩
  | cons f fs ih =>
    obtain ⟨jumps, owns, perm⟩ := ih (base + (f.code sigs base).length)
    refine ⟨labelsOf (bodyCode sigs (base + f.prologue.length) f.body) ++ jumps, ?_, ?_⟩
    · rw [codeAll, List.length_append, ← Nat.add_assoc]
      exact (f.body_owns sigs base).append owns
    · rw [codeAll, labelsOf_append, labelsOf_code, List.cons_append, List.map_cons,
        List.cons_append]
      exact .cons _ ((perm.append_left _).trans (List.perm_append_comm_assoc ..))

/-- The labels of functions with different names are different. -/
theorem codeAll_nodup (sigs : Signatures) (base : Nat) {fs : List Function}
    (h : (fs.map (·.name)).Nodup) : (labelsOf (codeAll sigs base fs)).Nodup := by
  obtain ⟨jumps, owns, perm⟩ := labelsOf_codeAll sigs base fs
  have functions : (fs.map fun f => Label.function f.name).Nodup := by
    refine List.pairwise_map.2 ((List.pairwise_map.1 h).imp fun differ eq => ?_)
    exact differ (Label.function_injective eq)
  refine perm.nodup_iff.2 (List.nodup_append.2 ⟨functions, owns.nodup, fun a ha b hb => ?_⟩)
  obtain ⟨f, _, rfl⟩ := List.mem_map.1 ha
  obtain ⟨kind, hk, index, _, _, rfl⟩ := owns.named b hb
  have jump : Label.IsIndexed (Label.indexed kind index) := ⟨kind, hk, index, rfl⟩
  exact (jump.ne_function f.name).symm

end Function

/-! ## No label is refused -/

namespace Program

variable {p : Program}

/-- Only labels that an instruction carries are bound. -/
theorem LabelsMatch.resolve_eq_none_iff (hp : p.LabelsMatch) {label : String} :
    p.resolve label = none ↔ label ∉ labelsOf p.code.toList := by
  constructor
  · intro free hmem
    obtain ⟨instr, hi, hl⟩ := mem_labelsOf.1 hmem
    obtain ⟨i, hi⟩ := List.mem_iff_getElem?.1 hi
    have bound := (hp label i).2 ⟨instr, by simpa using hi, hl⟩
    simp [free] at bound
  · intro absent
    refine Option.eq_none_iff_forall_ne_some.2 fun i bound => absent ?_
    obtain ⟨instr, hi, hl⟩ := (hp label i).1 bound
    exact mem_labelsOf.2 ⟨instr, Array.mem_toList_iff.2 (Array.mem_of_getElem? hi), hl⟩

theorem exists_push (hp : p.LabelsMatch) {i : Instr}
    (h : (labelsOf (p.code.toList ++ [i])).Nodup) : ∃ q, p.push i = .ok q := by
  rw [push_eq]
  cases hl : i.label with
  | none => exact ⟨_, rfl⟩
  | some label =>
    have new : label ∉ labelsOf p.code.toList := by
      intro old
      rw [labelsOf_append] at h
      exact (List.nodup_append.1 h).2.2 label old label (mem_labelsOf.2 ⟨i, by simp, hl⟩) rfl
    have free := hp.resolve_eq_none_iff.2 new
    simp only [free, Option.isSome_none]
    exact ⟨_, rfl⟩

theorem exists_pushAll (hp : p.LabelsMatch) {code : List Instr}
    (h : (labelsOf (p.code.toList ++ code)).Nodup) : ∃ q, p.pushAll code = .ok q := by
  induction code generalizing p with
  | nil => exact ⟨p, rfl⟩
  | cons i code ih =>
    rw [← List.singleton_append, ← List.append_assoc] at h
    have first := h
    rw [labelsOf_append] at first
    obtain ⟨q, hq⟩ := exists_push hp (List.nodup_append.1 first).1
    have rest : (labelsOf (q.code.toList ++ code)).Nodup := by
      rwa [push_code hq, Array.toList_push]
    obtain ⟨r, hr⟩ := ih (hp.push hq) rest
    exact ⟨r, pushAll_cons_eq_ok.2 ⟨q, hq, hr⟩⟩

/-- A function whose label is new is accepted if its labels are. -/
theorem exists_pushFunction (hp : p.LabelsMatch) {sigs : Signatures} {f : Function}
    (h : (labelsOf (p.code.toList ++ f.code sigs p.code.size)).Nodup) :
    p.resolve (Label.function f.name) = none ∧ ∃ q, p.pushFunction sigs f = .ok q := by
  have new : Label.function f.name ∉ labelsOf p.code.toList := by
    intro old
    rw [labelsOf_append, f.labelsOf_code] at h
    exact (List.nodup_append.1 h).2.2 _ old _ (List.mem_cons_self ..) rfl
  have free := hp.resolve_eq_none_iff.2 new
  obtain ⟨q, hq⟩ := exists_pushAll hp h
  refine ⟨free, q, ?_⟩
  rw [pushFunction, free]
  exact hq

theorem exists_pushFunctions (hp : p.LabelsMatch) {sigs : Signatures} {fs : List Function}
    (h : (labelsOf (p.code.toList ++ Function.codeAll sigs p.code.size fs)).Nodup) :
    ∃ q, fs.foldlM (pushFunction sigs) p = .ok q := by
  induction fs generalizing p with
  | nil => exact ⟨p, rfl⟩
  | cons f fs ih =>
    rw [Function.codeAll, ← List.append_assoc] at h
    have first := h
    rw [labelsOf_append] at first
    obtain ⟨_, q, hq⟩ := exists_pushFunction hp (List.nodup_append.1 first).1
    have pushed := pushAll_of_pushFunction hq
    have code : q.code.toList = p.code.toList ++ f.code sigs p.code.size := by
      rw [pushAll_code pushed, Array.toList_appendList]
    rw [← code, ← pushAll_size pushed] at h
    obtain ⟨r, hr⟩ := ih (pushAll_labelsMatch hp pushed) h
    refine ⟨r, ?_⟩
    rw [List.foldlM_cons, hq]
    exact hr

end Program

end StackScript
