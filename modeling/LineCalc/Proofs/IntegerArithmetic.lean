import LineCalc.Num.Arithmetic
import Mathlib

/-!
Arithmetic on integers without bounds, and the operations on numbers against it. An operation gives the exact
result if it fits into 64 bits and refuses otherwise. Powers are computed by squaring, which stops at the first product
that does not fit, and not at all where the exponent is too long; still none is refused that fits (`powInt?_eq`).
-/

namespace LineCalc

/-- Why a calculation with integers stops. -/
inductive IntegerStop where
  | unbound (name : String)
  | outOfRange
  | negativeExponent (base : Int)
  | notInteger
deriving DecidableEq, Repr

/-- The result of a step, if it is in the range of 64-bit integers. -/
def inRange (n : Int) : Except IntegerStop Int :=
  if -2 ^ 63 ≤ n ∧ n < 2 ^ 63 then .ok n else .error .outOfRange

/-- One for what holds and zero for what does not. -/
def truth (p : Prop) [Decidable p] : Int := if p then 1 else 0

def UnaryOp.exact : UnaryOp → Int → Int
  | plus, n => n
  | minus, n => -n
  | not, n => truth (n = 0)

def BinaryOp.exact (op : BinaryOp) (a b : Int) : Except IntegerStop Int :=
  match op with
  | or => .ok (truth (a ≠ 0 ∨ b ≠ 0))
  | and => .ok (truth (a ≠ 0 ∧ b ≠ 0))
  | equal => .ok (truth (a = b))
  | notEqual => .ok (truth (a ≠ b))
  | less => .ok (truth (a < b))
  | greater => .ok (truth (b < a))
  | lessEqual => .ok (truth (a ≤ b))
  | greaterEqual => .ok (truth (b ≤ a))
  | add => inRange (a + b)
  | sub => inRange (a - b)
  | mul => inRange (a * b)
  | div => .error .notInteger
  | pow => if b < 0 then .error (.negativeExponent a) else inRange (a ^ b.toNat)

/-! ### Powers -/

theorem neg_one_pow_two_mul (k : Nat) : (-1 : Int) ^ (2 * k) = 1 := by
  rw [Int.pow_mul]
  exact Int.one_pow

/-- Powers of a base beyond 1 and -1 outgrow the range. -/
theorem fitInt?_pow_eq_none {base : Int} {n : Nat} (hbase : 2 ≤ base.natAbs) (hn : 64 ≤ n) :
    fitInt? (base ^ n) = none := by
  have hlarge : 2 ^ 64 ≤ (base ^ n).natAbs := by
    rw [Int.natAbs_pow]
    calc 2 ^ 64 ≤ 2 ^ n := Nat.pow_le_pow_right (by decide) hn
      _ ≤ base.natAbs ^ n := Nat.pow_le_pow_left hbase n
  rw [fitInt?_eq_none_iff, Int64.toInt_minValue, Int64.toInt_maxValue]
  omega

theorem fitInt?_toInt (i : Int64) : fitInt? i.toInt = some i := fitInt?_eq_some_iff.mpr rfl

/-- Even powers are not negative, so behind one that does not fit no power does: not even one of the other sign, for
which the range goes further by one. -/
theorem fitInt?_pow_eq_none_of_le {base : Int} {k n : Nat} (h : fitInt? (base ^ (2 * k)) = none) (hle : 2 * k ≤ n) :
    fitInt? (base ^ n) = none := by
  obtain ⟨j, rfl⟩ := Nat.exists_eq_add_of_le hle
  cases j with
  | zero => exact h
  | succ j =>
      have hnonneg : 0 ≤ base ^ (2 * k) := by
        rw [Int.pow_mul]
        exact Int.pow_nonneg (sq_nonneg base)
      rw [fitInt?_eq_none_iff, Int64.toInt_minValue, Int64.toInt_maxValue] at h
      have hlarge : 2 ^ 63 ≤ (base ^ (2 * k)).natAbs := by omega
      rw [Int.natAbs_pow] at hlarge
      have hbase : 2 ≤ base.natAbs := by
        by_contra hsmall
        have hle : base.natAbs ^ (2 * k) ≤ 1 ^ (2 * k) := Nat.pow_le_pow_left (by omega) _
        rw [Nat.one_pow] at hle
        omega
      have hbeyond : 2 ^ 64 ≤ (base ^ (2 * k + (j + 1))).natAbs := by
        rw [Int.natAbs_pow, Nat.pow_add]
        calc 2 ^ 64 = 2 ^ 63 * 2 := rfl
          _ ≤ base.natAbs ^ (2 * k) * base.natAbs ^ (j + 1) :=
            Nat.mul_le_mul hlarge (hbase.trans (Nat.le_self_pow (Nat.succ_ne_zero j) _))
      rw [fitInt?_eq_none_iff, Int64.toInt_minValue, Int64.toInt_maxValue]
      omega

/-- Squaring stops only where the power itself does not fit. -/
theorem squarePow?_eq (base : Int64) (n : Nat) : squarePow? base n = fitInt? (base.toInt ^ n) := by
  induction base, n using squarePow?.induct with
  | case1 base =>
      rw [squarePow?, if_pos rfl, Int.pow_zero]
      exact (fitInt?_toInt 1).symm
  | case2 base =>
      rw [squarePow?, if_neg Nat.one_ne_zero, if_pos rfl, Int.pow_one, fitInt?_toInt]
  | case3 base n hzero hone ih =>
      have hsplit := Nat.div_add_mod n 2
      rw [squarePow?, if_neg hzero, if_neg hone]
      cases hsquare : fitInt? (base.toInt * base.toInt) with
      | none =>
          rw [← sq] at hsquare
          exact (fitInt?_pow_eq_none_of_le (k := 1) hsquare (by omega)).symm
      | some square =>
          have hpower : square.toInt ^ (n / 2) = base.toInt ^ (2 * (n / 2)) := by
            rw [fitInt?_eq_some_iff.mp hsquare, ← sq, ← Int.pow_mul]
          have heven : squarePow? square (n / 2) = fitInt? (base.toInt ^ (2 * (n / 2))) := by rw [ih, hpower]
          simp only [Option.bind_eq_bind, Option.bind_some, heven]
          cases hfit : fitInt? (base.toInt ^ (2 * (n / 2))) with
          | none => exact (fitInt?_pow_eq_none_of_le hfit (by omega)).symm
          | some even =>
              rw [Option.bind_some]
              obtain hmod | hmod := Nat.mod_two_eq_zero_or_one n
              · rw [if_pos hmod, ← hfit]
                congr 2
                omega
              · rw [if_neg (by omega), fitInt?_eq_some_iff.mp hfit, ← Int.pow_succ]
                congr 2
                omega

/-- A power by cases on the base is the power, if it fits. -/
theorem powInt?_eq {base exponent : Int64} (h : 0 ≤ exponent.toInt) :
    powInt? base exponent = fitInt? (base.toInt ^ exponent.toInt.toNat) := by
  rw [powInt?]
  by_cases hzero : exponent = 0
  · subst hzero
    rw [if_pos rfl, Int64.toInt_zero, Int.toNat_zero, Int.pow_zero]
    exact (fitInt?_toInt 1).symm
  rw [if_neg hzero]
  have hpos : exponent.toInt.toNat ≠ 0 := by
    intro hnat
    exact hzero (Int64.toInt.inj (by rw [Int64.toInt_zero]; omega))
  by_cases hbase : base = 0 ∨ base = 1
  · rw [if_pos hbase]
    rcases hbase with rfl | rfl
    · rw [Int64.toInt_zero, Int.zero_pow hpos]
      exact (fitInt?_toInt 0).symm
    · rw [Int64.toInt_one, Int.one_pow]
      exact (fitInt?_toInt 1).symm
  rw [if_neg hbase]
  by_cases hneg : base = -1
  · have hmod : exponent % 2 = 0 ↔ exponent.toInt.toNat % 2 = 0 := by
      rw [← Int64.toInt_inj, Int64.toInt_mod, Int64.toInt_zero, show (2 : Int64).toInt = 2 from rfl,
        Int.tmod_eq_emod_of_nonneg h]
      omega
    have hdivide := Nat.div_add_mod exponent.toInt.toNat 2
    subst hneg
    rw [if_pos rfl, show (-1 : Int64).toInt = -1 from rfl]
    by_cases heven : exponent % 2 = 0
    · rw [hmod.mp heven, Nat.add_zero] at hdivide
      rw [if_pos heven, ← hdivide, neg_one_pow_two_mul]
      exact (fitInt?_toInt 1).symm
    · have hodd := (Nat.mod_two_eq_zero_or_one exponent.toInt.toNat).resolve_left fun h => heven (hmod.mpr h)
      rw [hodd] at hdivide
      rw [if_neg heven, ← hdivide, Int.pow_succ, neg_one_pow_two_mul]
      exact (fitInt?_toInt (-1)).symm
  rw [if_neg hneg]
  by_cases hword : exponent.toInt < UInt32.size
  · rw [if_pos ⟨h, hword⟩, squarePow?_eq]
  · have h0 : base.toInt ≠ 0 := fun h => hbase (.inl (Int64.toInt.inj h))
    have h1 : base.toInt ≠ 1 := fun h => hbase (.inr (Int64.toInt.inj h))
    have h2 : base.toInt ≠ -1 := fun h => hneg (Int64.toInt.inj h)
    have hn : (4294967296 : Int) ≤ exponent.toInt := Int.not_lt.mp hword
    rw [if_neg fun hle => hword hle.2, fitInt?_pow_eq_none (by omega) (by omega)]

/-- An integer has a power to an exponent that is not negative exactly if the power fits into 64 bits, and then it is
the power of the integers without bounds, for which everything to the exponent zero is one. -/
theorem integer_power {base exponent : Int64} (h : 0 ≤ exponent.toInt) :
    let power := base.toInt ^ exponent.toInt.toNat
    ((∃ r, powInt? base exponent = some r) ↔ -2 ^ 63 ≤ power ∧ power < 2 ^ 63) ∧
      (∀ r, powInt? base exponent = some r ↔ r.toInt = power) ∧
      (powInt? base exponent = none ↔ power < -2 ^ 63 ∨ 2 ^ 63 ≤ power) := by
  intro power
  have hpower : powInt? base exponent = fitInt? power := powInt?_eq h
  have hnone : powInt? base exponent = none ↔ power < -2 ^ 63 ∨ 2 ^ 63 ≤ power := by
    rw [hpower, fitInt?_eq_none_iff, Int64.toInt_minValue, Int64.toInt_maxValue]
    omega
  refine ⟨?_, fun r => ?_, hnone⟩
  · rw [← Option.isSome_iff_exists, ← Option.ne_none_iff_isSome, ne_eq, hnone]
    omega
  · rw [hpower, fitInt?_eq_some_iff]

/-- The least integer is a power of -2, and the power of 2 beside it is too large by one. -/
theorem integer_power_least :
    0 ≤ (63 : Int64).toInt ∧ powInt? (-2) 63 = some Int64.minValue ∧ powInt? 2 63 = none := by
  have hexponent : 0 ≤ (63 : Int64).toInt := by decide
  obtain ⟨_, hleast, _⟩ := @integer_power (-2) 63 hexponent
  obtain ⟨_, _, hbeyond⟩ := @integer_power 2 63 hexponent
  exact ⟨hexponent, (hleast Int64.minValue).mpr (by decide), hbeyond.mpr (.inr (by decide))⟩

/-! ### Comparisons and logic -/

theorem compare_toInt (a b : Int64) : compare a b = compare a.toInt b.toInt := by
  show compareOfLessAndEq a b = compareOfLessAndEq a.toInt b.toInt
  simp only [compareOfLessAndEq, Int64.lt_iff_toInt_lt, Int64.toInt_inj]

namespace Num

variable (a b : Int64)

/-- Integers compare as themselves, not as doubles. -/
theorem compare?_int : (int a).compare? (int b) = some (compare a.toInt b.toInt) := by
  rw [← compare_toInt]
  rfl

theorem isTrue_int : (int a).isTrue = true ↔ a.toInt ≠ 0 := by
  simp [isTrue, isZero, ← Int64.toInt_inj]

theorem isNegative_int : (int a).isNegative = true ↔ a.toInt < 0 := by
  rw [isNegative, decide_eq_true_iff, Int64.lt_iff_toInt_lt, Int64.toInt_zero]

theorem ofBool_eq {p : Prop} [Decidable p] {q : Bool} (h : q = true ↔ p) :
    ∃ k : Int64, ofBool q = int k ∧ k.toInt = truth p := by
  rw [ofBool, truth]
  by_cases hp : p
  · rw [if_pos hp, if_pos (h.mpr hp)]
    exact ⟨1, rfl, rfl⟩
  · rw [if_neg hp, if_neg (fun hq => hp (h.mp hq))]
    exact ⟨0, rfl, rfl⟩

/-! ### Operations -/

/-- The exact result of a step and that of the operation on numbers. A negative exponent is no integer
operation unless the base is zero. -/
def Agrees (exact : Except IntegerStop Int) (result : Except ArithmeticError Num) : Prop :=
  match exact with
  | .ok n => ∃ k : Int64, result = .ok (int k) ∧ k.toInt = n
  | .error .outOfRange => result = .error .overflow
  | .error (.negativeExponent base) => base = 0 → result = .error .divisionByZero
  | .error (.unbound _) | .error .notInteger => False

theorem agrees_ofBool {p : Prop} [Decidable p] {q : Bool} (h : q = true ↔ p) :
    Agrees (.ok (truth p)) (.ok (ofBool q)) := by
  obtain ⟨k, hk, htruth⟩ := ofBool_eq h
  exact ⟨k, by rw [hk], htruth⟩

theorem agrees_fit (n : Int) : Agrees (inRange n)
    (match fitInt? n with
    | some r => .ok (int r)
    | none => .error .overflow) := by
  rw [inRange]
  cases hfit : fitInt? n with
  | some r =>
      obtain rfl := fitInt?_eq_some_iff.mp hfit
      rw [if_pos ⟨r.le_toInt, r.toInt_lt⟩]
      exact ⟨r, rfl, rfl⟩
  | none =>
      rw [fitInt?_eq_none_iff, Int64.toInt_minValue, Int64.toInt_maxValue] at hfit
      rw [if_neg (by omega)]
      rfl

theorem agrees_power : Agrees (BinaryOp.pow.exact a.toInt b.toInt) (power (int a) (int b)) := by
  rw [BinaryOp.exact, power]
  by_cases hb : b.toInt < 0
  · rw [if_pos hb]
    intro ha
    have hzero : (int a).isZero = true := beq_iff_eq.mpr (Int64.toInt.inj ha)
    rw [if_pos (by rw [hzero, (isNegative_int b).mpr hb]; rfl)]
  · have hnegative : (int b).isNegative = false := by
      rw [← Bool.not_eq_true, isNegative_int]
      exact hb
    have hexponent : 0 ≤ b := Int64.le_iff_toInt_le.mpr (by rw [Int64.toInt_zero]; omega)
    rw [if_neg hb, if_neg (by rw [hnegative, Bool.and_false]; exact Bool.false_ne_true)]
    simp only [if_pos hexponent]
    rw [powInt?_eq (by omega)]
    exact agrees_fit _

/-- Every operation but the division is exact on integers or refused. -/
theorem agrees_apply {op : BinaryOp} (hdiv : op ≠ .div) :
    Agrees (op.exact a.toInt b.toInt) (apply op (int a) (int b)) := by
  cases op with
  | div => contradiction
  | pow => exact agrees_power a b
  | add | sub | mul => exact agrees_fit _
  | or =>
      apply agrees_ofBool
      rw [Bool.or_eq_true, isTrue_int, isTrue_int]
  | and =>
      apply agrees_ofBool
      rw [Bool.and_eq_true, isTrue_int, isTrue_int]
  | equal =>
      apply agrees_ofBool
      rw [compare?_int, beq_iff_eq, Option.some_inj, Int.compare_eq_eq]
  | notEqual =>
      apply agrees_ofBool
      rw [compare?_int, bne_iff_ne, ne_eq, Option.some_inj, Int.compare_eq_eq]
  | less =>
      apply agrees_ofBool
      rw [compare?_int, beq_iff_eq, Option.some_inj, Int.compare_eq_lt]
  | greater =>
      apply agrees_ofBool
      rw [compare?_int, beq_iff_eq, Option.some_inj, Int.compare_eq_gt]
  | lessEqual =>
      apply agrees_ofBool
      rw [compare?_int, Bool.or_eq_true, beq_iff_eq, beq_iff_eq, Option.some_inj, Option.some_inj,
        Int.compare_eq_lt, Int.compare_eq_eq, ← Int.le_iff_lt_or_eq]
  | greaterEqual =>
      apply agrees_ofBool
      rw [compare?_int, Bool.or_eq_true, beq_iff_eq, beq_iff_eq, Option.some_inj, Option.some_inj,
        Int.compare_eq_gt, Int.compare_eq_eq, eq_comm, ← Int.le_iff_lt_or_eq]

theorem agrees_not : ∃ k : Int64, (int a).not = int k ∧ k.toInt = UnaryOp.not.exact a.toInt := by
  apply ofBool_eq
  rw [Bool.not_eq_true', ← Bool.not_eq_true, isTrue_int, Decidable.not_not]

end Num
end LineCalc
