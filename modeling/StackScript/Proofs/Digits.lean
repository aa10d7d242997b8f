import StackScript.Integer

/-!
# Integers in digits

* `Integer.readDigits_toDigits`: the digits of a number are read as that number, with either sign;
* `Integer.text_forms`: an integer is written as digits, behind a minus if it is negative;
* `Integer.text_range`: the characters that integers are written in;
* `Integer.read_text`: what is written for an integer is read as that integer.
-/

namespace StackScript.Integer

theorem le_ofDigitChars (cs : List Char) (acc : Nat) : acc ≤ Nat.ofDigitChars 10 cs acc := by
  induction cs generalizing acc with
  | nil => exact Nat.le_refl acc
  | cons c cs ih =>
    have := ih (10 * acc + (c.toNat - '0'.toNat))
    rw [Nat.ofDigitChars_cons]
    omega

/-- Digits are read if their value fits: what is read on the way to it is smaller. -/
theorem readDigits_eq {cs : List Char} (digits : ∀ c ∈ cs, c.isDigit = true) (sign : Int)
    (outside : Refusal) {acc : Nat}
    (fits : ∀ n : Nat, n ≤ Nat.ofDigitChars 10 cs acc → Fits (sign * n)) :
    readDigits sign outside (sign * acc) cs = .ok (sign * Nat.ofDigitChars 10 cs acc) := by
  induction cs generalizing acc with
  | nil => rfl
  | cons c cs ih =>
    obtain ⟨digit, digits⟩ := List.forall_mem_cons.1 digits
    rw [Nat.ofDigitChars_cons] at fits ⊢
    have next : sign * acc * 10 + sign * (c.toNat - '0'.toNat : Nat) =
        sign * (10 * acc + (c.toNat - '0'.toNat) : Nat) := by
      rw [Int.natCast_add, Int.natCast_mul, Int.mul_add, Int.mul_assoc, Int.mul_comm acc]
      rfl
    rw [readDigits, if_pos digit]
    dsimp only
    rw [next, if_pos (fits _ (le_ofDigitChars cs _)), ih digits fits]

theorem isDigit_toDigits {n : Nat} : ∀ c ∈ Nat.toDigits 10 n, c.isDigit = true := fun _ mem =>
  Nat.isDigit_of_mem_toDigits (by decide) (by decide) mem

theorem readDigits_toDigits (sign : Int) (outside : Refusal) {n : Nat}
    (fits : ∀ m : Nat, m ≤ n → Fits (sign * m)) :
    readDigits sign outside 0 (Nat.toDigits 10 n) = .ok (sign * n) := by
  have value : Nat.ofDigitChars 10 (Nat.toDigits 10 n) 0 = n :=
    Nat.ofDigitChars_toDigits (by decide) (by decide)
  have read : readDigits sign outside (sign * (0 : Nat)) (Nat.toDigits 10 n) = _ :=
    readDigits_eq isDigit_toDigits sign outside (by rwa [value])
  rwa [value, Int.natCast_zero, Int.mul_zero] at read

theorem toDigits_cons (n : Nat) :
    ∃ c cs, Nat.toDigits 10 n = c :: cs ∧ ∀ d ∈ c :: cs, d.isDigit = true := by
  obtain ⟨c, cs, eq⟩ := List.exists_cons_of_ne_nil (Nat.toDigits_ne_nil (n := n) (b := 10))
  exact ⟨c, cs, eq, eq ▸ isDigit_toDigits⟩

/-- Without a sign in front, all is digits. -/
theorem read_unsigned {c : Char} (digit : c.isDigit = true) (cs : List Char) :
    read (c :: cs) = Int64.ofInt <$> readDigits 1 .tooLarge 0 (c :: cs) := by
  have plus : c ≠ '+' := by
    rintro rfl
    simp at digit
  have minus : c ≠ '-' := by
    rintro rfl
    simp at digit
  simp [read, plus, minus]

theorem text_forms (n : Int64) :
    ∃ m : Nat, (n.toInt = m ∧ (text n).toList = Nat.toDigits 10 m) ∨
      (n.toInt = -m ∧ 0 < m ∧ (text n).toList = '-' :: Nat.toDigits 10 m) := by
  have digits (m : Nat) : (Nat.repr m).toList = Nat.toDigits 10 m := by
    rw [Nat.repr_eq_ofList_toDigits, String.toList_ofList]
  rw [text]
  cases n.toInt with
  | ofNat m => exact ⟨m, .inl ⟨rfl, digits m⟩⟩
  | negSucc m =>
    refine ⟨m + 1, .inr ⟨rfl, m.succ_pos, ?_⟩⟩
    change ("-" ++ Nat.repr (m + 1)).toList = _
    rw [String.toList_append, digits]
    rfl

/-- The characters of integers lie between the minus and the digit nine. -/
theorem text_range (n : Int64) : ∀ c ∈ (text n).toList, 0x2D ≤ c.toNat ∧ c.toNat ≤ 0x39 := by
  have digits (m : Nat) : ∀ c ∈ Nat.toDigits 10 m, 0x2D ≤ c.toNat ∧ c.toNat ≤ 0x39 := by
    intro c mem
    have digit := isDigit_toDigits c mem
    simp only [Char.isDigit, Bool.and_eq_true, decide_eq_true_eq] at digit
    have below : 48 ≤ c.toNat := digit.1
    have above : c.toNat ≤ 57 := digit.2
    omega
  obtain ⟨m, ⟨-, written⟩ | ⟨-, -, written⟩⟩ := text_forms n
  · exact written ▸ digits m
  · rw [written]
    exact List.forall_mem_cons.2 ⟨by decide, digits m⟩

theorem read_text (n : Int64) : read (text n).toList = .ok n := by
  have below := n.le_toInt
  have above := n.toInt_lt
  obtain ⟨m, ⟨value, written⟩ | ⟨value, -, written⟩⟩ := text_forms n
  all_goals
    obtain ⟨c, cs, eq, digits⟩ := toDigits_cons m
    rw [written, eq]
  · have number : readDigits 1 .tooLarge 0 (Nat.toDigits 10 m) = .ok (1 * m) :=
      readDigits_toDigits 1 .tooLarge fun k le => by
        unfold Fits
        omega
    rw [read_unsigned (digits c (.head _)), ← eq, number, Int.one_mul, ← value]
    exact congrArg Except.ok n.ofInt_toInt
  · have number : readDigits (-1) .tooSmall 0 (Nat.toDigits 10 m) = .ok (-1 * m) :=
      readDigits_toDigits (-1) .tooSmall fun k le => by
        unfold Fits
        omega
    change Int64.ofInt <$> readDigits (-1) .tooSmall 0 (c :: cs) = _
    rw [← eq, number, Int.neg_one_mul, ← value]
    exact congrArg Except.ok n.ofInt_toInt

/-- An integer that is not negative is written in digits alone. -/
theorem text_digits {n : Int64} (h : 0 ≤ n.toInt) :
    ∃ c cs, (text n).toList = c :: cs ∧ ∀ d ∈ c :: cs, d.isDigit = true := by
  obtain ⟨m, ⟨-, written⟩ | ⟨value, positive, -⟩⟩ := text_forms n
  · rw [written]
    exact toDigits_cons m
  · omega

end StackScript.Integer
