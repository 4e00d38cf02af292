import TwoPhase.Arithmetic

/-!
# Exact arithmetic

An operation on integers gives the integer that it stands for, and nothing else: a result that 64
bits do not hold is a fault, and so is a division by zero.

One result that would fit is refused.  A remainder goes with a quotient, and the quotient of the
least integer by `-1` is one too large; the remainder of the two is zero, and yet there is none.
-/

namespace TwoPhase

/-- Whether 64 bits hold an integer. -/
def Fits64 (x : Int) : Prop := Int64.minValue.toInt ≤ x ∧ x ≤ Int64.maxValue.toInt

instance (x : Int) : Decidable (Fits64 x) := inferInstanceAs (Decidable (_ ∧ _))

theorem fits64_toInt (n : Int64) : Fits64 n.toInt := ⟨n.minValue_le_toInt, n.toInt_le⟩

/-- An arithmetic operation on integers. -/
inductive Calculation where
  | add (a b : Int64)
  | sub (a b : Int64)
  | mul (a b : Int64)
  | div (a b : Int64)
  | mod (a b : Int64)
  | neg (a : Int64)
  deriving DecidableEq, Repr

namespace Calculation

/-- What comes of the operation. -/
def outcome : Calculation → Except Fault Value
  | add a b => BinaryOp.add.apply (.int a) (.int b)
  | sub a b => BinaryOp.sub.apply (.int a) (.int b)
  | mul a b => BinaryOp.mul.apply (.int a) (.int b)
  | div a b => BinaryOp.div.apply (.int a) (.int b)
  | mod a b => BinaryOp.mod.apply (.int a) (.int b)
  | neg a => UnaryOp.neg.apply (.int a)

/-- How the operation is written. -/
def symbol : Calculation → String
  | add .. => "+"
  | sub .. => "-"
  | mul .. => "*"
  | div .. => "/"
  | mod .. => "%"
  | neg _ => "-"

/-- The integer that the operation stands for, of whatever size.  A quotient is cut off toward
zero, and a remainder is what the quotient leaves. -/
def exact : Calculation → Int
  | add a b => a.toInt + b.toInt
  | sub a b => a.toInt - b.toInt
  | mul a b => a.toInt * b.toInt
  | div a b => a.toInt.tdiv b.toInt
  | mod a b => a.toInt - b.toInt * a.toInt.tdiv b.toInt
  | neg a => -a.toInt

/-- The operation divides by zero. -/
def ByZero : Calculation → Prop
  | div _ b => b = 0
  | mod _ b => b = 0
  | _ => False

/-- The operation is a remainder that goes with the one quotient that does not fit. -/
def LacksQuotient : Calculation → Prop
  | mod a b => a = Int64.minValue ∧ b = -1
  | _ => False

end Calculation

/-! ## Results that fit -/

section fit64

variable {x : Int} {op : String}

theorem fit64_of_fits (op : String) (h : Fits64 x) :
    ∃ n : Int64, n.toInt = x ∧ fit64 op x = .ok (.int n) := by
  have hvalue : (Int64.ofInt x).toInt = x := by
    apply Int64.toInt_ofInt_of_le h.1
    exact Int.lt_of_le_sub_one h.2
  exact ⟨Int64.ofInt x, hvalue, by rw [fit64, if_pos hvalue]⟩

theorem fit64_of_not_fits (op : String) (h : ¬Fits64 x) :
    fit64 op x = .error (.integerOverflow op) := by
  have hvalue : (Int64.ofInt x).toInt ≠ x := by
    intro heq
    apply h
    rw [← heq]
    exact fits64_toInt _
  rw [fit64, if_neg hvalue]

end fit64

/-! ## Quotients and remainders -/

section quotients

variable {a b : Int64}

theorem toInt_eq_zero_iff : b.toInt = 0 ↔ b = 0 := by
  rw [← Int64.toInt_inj]
  rfl

/-- Only the least integer has a quotient that is too large, and only by `-1`. -/
theorem fits64_tdiv_iff (a b : Int64) :
    Fits64 (a.toInt.tdiv b.toInt) ↔ ¬(a = Int64.minValue ∧ b = -1) := by
  have hleast : a = Int64.minValue ↔ a.toInt = Int64.minValue.toInt := Int64.toInt_inj.symm
  have hminus : b = -1 ↔ b.toInt = -1 := by
    rw [← Int64.toInt_inj]
    rfl
  simp only [Fits64, hleast, hminus, Int64.toInt_minValue, Int64.toInt_maxValue]
  have hlow := Int64.le_toInt a
  have hhigh := Int64.toInt_lt a
  generalize a.toInt = x at *
  generalize b.toInt = y at *
  have habs : (x.tdiv y).natAbs = x.natAbs / y.natAbs := Int.natAbs_tdiv x y
  by_cases hy : y.natAbs = 1
  · obtain rfl | rfl : y = 1 ∨ y = -1 := by omega
    · rw [Int.tdiv_one]
      omega
    · rw [Int.tdiv_neg, Int.tdiv_one]
      omega
  · -- a divisor of any other size at least halves what it divides
    have hhalf : x.natAbs / y.natAbs ≤ 2 ^ 62 := by
      by_cases hzero : y.natAbs = 0
      · simp [hzero]
      · calc x.natAbs / y.natAbs ≤ x.natAbs / 2 := Nat.div_le_div_left (by omega) (by omega)
          _ ≤ 2 ^ 62 := by omega
    omega

/-- A remainder is smaller than what it is a remainder by. -/
theorem fits64_tmod (a : Int64) (hb : b.toInt ≠ 0) : Fits64 (a.toInt.tmod b.toInt) := by
  have habs : (a.toInt.tmod b.toInt).natAbs = a.toInt.natAbs % b.toInt.natAbs :=
    Int.natAbs_tmod _ _
  have hsmall : a.toInt.natAbs % b.toInt.natAbs < b.toInt.natAbs := Nat.mod_lt _ (by omega)
  have hlow := Int64.le_toInt b
  have hhigh := Int64.toInt_lt b
  simp only [Fits64, Int64.toInt_minValue, Int64.toInt_maxValue]
  omega

end quotients

/-! ## Operations -/

namespace Calculation

/-- How an operation can come out. -/
inductive Ending (c : Calculation) : Prop where
  | byZero (hzero : c.ByZero) (houtcome : c.outcome = .error .divisionByZero)
  | value (n : Int64) (hzero : ¬c.ByZero) (hquotient : ¬c.LacksQuotient)
      (hexact : n.toInt = c.exact) (houtcome : c.outcome = .ok (.int n))
  | overflow (hzero : ¬c.ByZero) (hover : ¬Fits64 c.exact ∨ c.LacksQuotient)
      (houtcome : c.outcome = .error (.integerOverflow c.symbol))

/-- An operation that only checks whether its result fits. -/
theorem Ending.of_fit64 {c : Calculation} (hzero : ¬c.ByZero) (hquotient : ¬c.LacksQuotient)
    (houtcome : c.outcome = fit64 c.symbol c.exact) : c.Ending := by
  by_cases hfits : Fits64 c.exact
  · obtain ⟨n, hn, hfit⟩ := fit64_of_fits c.symbol hfits
    exact .value n hzero hquotient hn (houtcome.trans hfit)
  · exact .overflow hzero (.inl hfits) (houtcome.trans (fit64_of_not_fits _ hfits))

theorem ending (c : Calculation) : c.Ending := by
  cases c with
  | add a b => exact .of_fit64 id id rfl
  | sub a b => exact .of_fit64 id id rfl
  | mul a b => exact .of_fit64 id id rfl
  | neg a => exact .of_fit64 id id rfl
  | div a b =>
      by_cases hb : b.toInt = 0
      · exact .byZero (toInt_eq_zero_iff.1 hb) (if_pos hb)
      · exact .of_fit64 (mt toInt_eq_zero_iff.2 hb) id (if_neg hb)
  | mod a b =>
      by_cases hb : b.toInt = 0
      · exact .byZero (toInt_eq_zero_iff.1 hb) (if_pos hb)
      · have hzero : ¬(mod a b).ByZero := mt toInt_eq_zero_iff.2 hb
        have houtcome : (mod a b).outcome = (do
            let _ ← fit64 "%" (a.toInt.tdiv b.toInt)
            fit64 "%" (a.toInt.tmod b.toInt)) := if_neg hb
        by_cases hquotient : Fits64 (a.toInt.tdiv b.toInt)
        · obtain ⟨_, _, hfit⟩ := fit64_of_fits "%" hquotient
          obtain ⟨n, hn, hfit'⟩ := fit64_of_fits "%" (fits64_tmod a hb)
          rw [hfit, hfit'] at houtcome
          exact .value n hzero ((fits64_tdiv_iff a b).1 hquotient) (hn.trans (Int.tmod_def _ _))
            houtcome
        · rw [fit64_of_not_fits "%" hquotient] at houtcome
          have hlacks : a = Int64.minValue ∧ b = -1 :=
            Classical.not_not.1 (mt (fits64_tdiv_iff a b).2 hquotient)
          exact .overflow hzero (.inr hlacks) houtcome

/-- Arithmetic is exact.  An operation gives the integer that it stands for, where 64 bits hold it;
it fails by a division by zero just where it divides by zero, and by an overflow just where it does
not and its result is too large or too small.  A remainder is also refused where its quotient is too
large, which is so for the least integer and `-1` only. -/
theorem arithmetic_exact (c : Calculation) :
    (¬c.ByZero → Fits64 c.exact → ¬c.LacksQuotient →
      ∃ n : Int64, n.toInt = c.exact ∧ c.outcome = .ok (.int n)) ∧
    (c.outcome = .error .divisionByZero ↔ c.ByZero) ∧
    ∀ op, c.outcome = .error (.integerOverflow op) ↔
      op = c.symbol ∧ ¬c.ByZero ∧ (¬Fits64 c.exact ∨ c.LacksQuotient) := by
  cases c.ending with
  | byZero hzero houtcome =>
      rw [houtcome]
      exact ⟨fun h => absurd hzero h, by simp [hzero], by simp [hzero]⟩
  | value n hzero hquotient hexact houtcome =>
      have hfits : Fits64 c.exact := hexact ▸ fits64_toInt n
      rw [houtcome]
      exact ⟨fun _ _ _ => ⟨n, hexact, rfl⟩, by simp [hzero], by simp [hfits, hquotient]⟩
  | overflow hzero hover houtcome =>
      rw [houtcome]
      refine ⟨fun _ hfits hquotient => ?_, by simp [hzero], fun op => ?_⟩
      · rcases hover with hlarge | hlacks
        · exact absurd hfits hlarge
        · exact absurd hlacks hquotient
      · constructor
        · intro heq
          cases heq
          exact ⟨rfl, hzero, hover⟩
        · rintro ⟨rfl, _⟩
          rfl

/-- A product that is just the least integer is given, since that fits. -/
theorem arithmetic_exact_least_product :
    let c := mul 4294967296 (-2147483648)
    c.exact = Int64.minValue.toInt ∧ c.outcome = .ok (.int Int64.minValue) := by
  intro c
  have hexact : c.exact = Int64.minValue.toInt := by decide
  obtain ⟨hvalue, _⟩ := arithmetic_exact c
  obtain ⟨n, hn, houtcome⟩ := hvalue id (by decide) id
  obtain rfl : n = Int64.minValue := Int64.toInt_inj.1 (hn.trans hexact)
  exact ⟨hexact, houtcome⟩

/-- The remainder of the least integer by `-1` is zero, which would fit, and yet it is refused. -/
theorem remainder_refused :
    let c := mod Int64.minValue (-1)
    ¬c.ByZero ∧ c.exact = 0 ∧ Fits64 c.exact ∧ c.outcome = .error (.integerOverflow "%") := by
  have hzero : (-1 : Int64) ≠ 0 := by decide
  exact ⟨hzero, by decide, by decide, rfl⟩

end Calculation

end TwoPhase
