import LineCalc.Proofs.IntegerArithmetic
import LineCalc.Value

/-!
Comparisons against exact values. The bits of a double stand for a rational number, an infinity or no number, and an
integer stands for itself. The comparison of an integer with a double rounds neither of them: its two limits send what
is out of range to the right side, and leave doubles whose whole part is a 64-bit integer
(`Extended.compareInt_finite`). So numbers of both kinds compare as what they stand for
(`Num.compare?_eq_some_iff`), and the six comparisons are those of a linear order, in any mixture
(`Value.comparisons_exact`).
-/

namespace LineCalc

/-- The rational numbers, with an infinity on either side. -/
abbrev ExactValue := WithBot (WithTop ℚ)

/-- What the bits of a double stand for, by sign, exponent and fraction. Doubles with the exponent 0 have no leading
bit; the exponent 2047 is that of the infinities and of what is no number. -/
def exactOfBits? (bits : UInt64) : Option ExactValue :=
  let sign : ℚ := if 2 ^ 63 ≤ bits.toNat then -1 else 1
  let exponent : ℕ := bits.toNat / 2 ^ 52 % 2 ^ 11
  let fraction : ℕ := bits.toNat % 2 ^ 52
  if exponent = 2047 then
    if fraction = 0 then some (if 2 ^ 63 ≤ bits.toNat then ⊥ else ⊤) else none
  else if exponent = 0 then some ((sign * (fraction / 2 ^ 52) * 2 ^ (-1022 : ℤ) : ℚ) : WithTop ℚ)
  else some ((sign * (1 + fraction / 2 ^ 52) * 2 ^ ((exponent : ℤ) - 1023) : ℚ) : WithTop ℚ)

/-! ### Doubles counted in units -/

namespace Binary64

theorem cast_shiftLeft (m n : ℕ) : ((m <<< n : ℕ) : ℚ) = m * 2 ^ (n : ℤ) := by
  rw [Nat.shiftLeft_eq, Nat.cast_mul, Nat.cast_pow, Nat.cast_ofNat, zpow_natCast]

theorem cast_one : (one : ℚ) = 2 ^ (1074 : ℤ) := by
  rw [one, cast_shiftLeft, Nat.cast_one, one_mul]
  rfl

theorem one_pos : 0 < one := by
  rw [one, Nat.one_shiftLeft]
  exact Nat.two_pow_pos 1074

theorem limit_eq : limit = one * 2 ^ 63 := by
  rw [← Nat.shiftLeft_eq]
  exact Nat.shiftLeft_add 1 1074 63

theorem units_div_one (negative : Bool) (mantissa shift : ℕ) :
    (units negative mantissa shift / one : ℚ) =
      (if negative then -1 else 1) * mantissa * 2 ^ ((shift : ℤ) - 1074) := by
  rw [cast_one, zpow_sub₀ two_ne_zero, units]
  cases negative with
  | false =>
      rw [if_neg Bool.false_ne_true, if_neg Bool.false_ne_true, Int.cast_natCast, cast_shiftLeft, one_mul,
        mul_div_assoc]
  | true =>
      rw [if_pos rfl, if_pos rfl, Int.cast_neg, Int.cast_natCast, cast_shiftLeft, neg_one_mul, neg_mul, neg_div,
        mul_div_assoc]

end Binary64

namespace Extended

/-- What the value of a double stands for: its units, counted out. -/
def exact : Extended → ExactValue
  | negInfinity => ⊥
  | finite units => ((units / Binary64.one : ℚ) : WithTop ℚ)
  | infinity => ⊤

theorem exact_finite_mul_one (n : ℤ) : (finite (n * Binary64.one)).exact = ((n : ℚ) : WithTop ℚ) := by
  have hone : (Binary64.one : ℚ) ≠ 0 := Nat.cast_ne_zero.mpr Binary64.one_pos.ne'
  rw [exact, Int.cast_mul, Int.cast_natCast, mul_div_cancel_right₀ _ hone]

theorem exact_finite_strictMono : StrictMono fun units => (finite units).exact := by
  intro x y hxy
  have hone : (0 : ℚ) < Binary64.one := Nat.cast_pos.mpr Binary64.one_pos
  have hquotient : (x / Binary64.one : ℚ) < y / Binary64.one := div_lt_div_of_pos_right (Int.cast_lt.mpr hxy) hone
  exact WithBot.coe_lt_coe.mpr (WithTop.coe_lt_coe.mpr hquotient)

theorem bot_lt_exact_finite (units : ℤ) : ⊥ < (finite units).exact := WithBot.bot_lt_coe _

theorem exact_finite_lt_top (units : ℤ) : (finite units).exact < ⊤ := WithBot.coe_lt_coe.mpr (WithTop.coe_lt_top _)

theorem bot_lt_top : (⊥ : ExactValue) < ⊤ := WithBot.bot_lt_coe _

theorem compare_finite (x y : ℤ) : compare (finite x) (finite y) = compare x y := by
  show (compare x y).then .eq = compare x y
  exact Ordering.then_eq

/-- The values of doubles are in the order of what they stand for. -/
theorem compares_compare (x y : Extended) : (compare x y).Compares x.exact y.exact := by
  cases x with
  | negInfinity =>
      cases y with
      | negInfinity => rfl
      | finite v => exact bot_lt_exact_finite v
      | infinity => exact bot_lt_top
  | finite u =>
      cases y with
      | negInfinity => exact bot_lt_exact_finite u
      | finite v =>
          rw [compare_finite]
          exact exact_finite_strictMono.compares.mpr ((compare_iff u v).mp rfl)
      | infinity => exact exact_finite_lt_top u
  | infinity =>
      cases y with
      | negInfinity => exact bot_lt_top
      | finite v => exact exact_finite_lt_top v
      | infinity => rfl

end Extended

/-- The double that is read from bits is what they stand for. -/
theorem Binary64.exact_ofBits (bits : UInt64) : (ofBits bits).extended?.map Extended.exact = exactOfBits? bits := by
  have hexponents : 2048 = 2 ^ 11 := rfl
  simp only [ofBits, exactOfBits?, Nat.one_shiftLeft, Nat.shiftRight_eq_div_pow, hexponents]
  generalize bits.toNat / 2 ^ 52 % 2 ^ 11 = exponent, bits.toNat % 2 ^ 52 = fraction
  by_cases hlast : exponent = 2047
  · rw [if_pos hlast, if_pos hlast]
    by_cases hfraction : fraction = 0
    · rw [if_pos hfraction, if_pos hfraction]
      by_cases hnegative : 2 ^ 63 ≤ bits.toNat
      · simp only [hnegative]
        rfl
      · simp only [hnegative]
        rfl
    · rw [if_neg hfraction, if_neg hfraction]
      rfl
  rw [if_neg hlast, if_neg hlast]
  by_cases hfirst : exponent = 0
  · have hshift : ((0 : ℕ) : ℤ) - 1074 = -1022 - (52 : ℕ) := rfl
    rw [if_pos hfirst, if_pos hfirst]
    show some (((units _ _ _ / one : ℚ) : WithTop ℚ) : ExactValue) = _
    rw [units_div_one, hshift, zpow_sub₀ two_ne_zero, zpow_natCast]
    simp only [decide_eq_true_eq]
    congr 3
    ring
  · have hshift : ((exponent - 1 : ℕ) : ℤ) - 1074 = (exponent : ℤ) - 1023 - (52 : ℕ) := by omega
    rw [if_neg hfirst, if_neg hfirst]
    show some (((units _ _ _ / one : ℚ) : WithTop ℚ) : ExactValue) = _
    rw [units_div_one, hshift, zpow_sub₀ two_ne_zero, zpow_natCast, Nat.cast_add, Nat.cast_pow, Nat.cast_ofNat]
    simp only [decide_eq_true_eq]
    congr 3
    ring

/-! ### Integers and doubles -/

section

variable {d units : ℤ} (hd : 0 < d)

include hd

/-- By whole parts first, and then by what is left of the dividend, an integer is compared with the quotient. -/
theorem compare_tdiv_then (n : ℤ) :
    (compare n (units.tdiv d)).then (compare 0 (units - units.tdiv d * d)) = compare (n * d) units := by
  have hdivide : units.tdiv d * d + units.tmod d = units := Int.tdiv_mul_add_tmod units d
  have hlow : -d < units.tmod d := Int.lt_tmod_of_pos units hd
  have hhigh : units.tmod d < d := Int.tmod_lt_of_pos units hd
  rcases Int.lt_trichotomy n (units.tdiv d) with h | h | h
  · have hnext : (n + 1) * d ≤ units.tdiv d * d := Int.mul_le_mul_of_nonneg_right h hd.le
    rw [Int.add_mul, Int.one_mul] at hnext
    have hless : n * d < units := by omega
    rw [Int.compare_eq_lt.mpr h, Int.compare_eq_lt.mpr hless]
    rfl
  · rw [Int.compare_eq_eq.mpr h, h]
    show compare 0 (units - units.tdiv d * d) = _
    rcases Int.lt_trichotomy (units.tdiv d * d) units with hless | hequal | hgreater
    · rw [Int.compare_eq_lt.mpr hless, Int.compare_eq_lt.mpr (Int.sub_pos_of_lt hless)]
    · rw [hequal, Int.sub_self, Int.compare_eq_eq.mpr rfl, Int.compare_eq_eq.mpr rfl]
    · rw [Int.compare_eq_gt.mpr hgreater, Int.compare_eq_gt.mpr (Int.sub_neg_of_lt hgreater)]
  · have hnext : (units.tdiv d + 1) * d ≤ n * d := Int.mul_le_mul_of_nonneg_right h hd.le
    rw [Int.add_mul, Int.one_mul] at hnext
    have hgreater : units < n * d := by omega
    rw [Int.compare_eq_gt.mpr h, Int.compare_eq_gt.mpr hgreater]
    rfl

/-- Between the limits the whole part is a 64-bit integer. -/
theorem tdiv_in_range (hlow : -(2 ^ 63 * d) ≤ units) (hhigh : units < 2 ^ 63 * d) :
    -2 ^ 63 ≤ units.tdiv d ∧ units.tdiv d < 2 ^ 63 := by
  have hdivide : units.tdiv d * d + units.tmod d = units := Int.tdiv_mul_add_tmod units d
  constructor
  · by_contra hless
    have hrest : units.tmod d < d := Int.tmod_lt_of_pos units hd
    have hnext : units.tdiv d * d ≤ (-2 ^ 63 - 1) * d := Int.mul_le_mul_of_nonneg_right (by omega) hd.le
    rw [Int.sub_mul, Int.one_mul] at hnext
    omega
  · by_contra hless
    have hrest : -d < units.tmod d := Int.lt_tmod_of_pos units hd
    have hnext : 2 ^ 63 * d ≤ units.tdiv d * d := Int.mul_le_mul_of_nonneg_right (by omega) hd.le
    have hunits : 0 ≤ units := by omega
    have hnonneg : 0 ≤ units.tmod d := Int.tmod_nonneg d hunits
    omega

end

namespace Extended

theorem compareInt_finite (n : Int64) (units : ℤ) :
    (finite units).compareInt n = compare (n.toInt * Binary64.one) units := by
  have hone : (0 : ℤ) < Binary64.one := Int.natCast_pos.mpr Binary64.one_pos
  have hlimit : (Binary64.limit : ℤ) = 2 ^ 63 * Binary64.one := by
    rw [Binary64.limit_eq, Nat.mul_comm]
    rfl
  rw [compareInt, hlimit]
  by_cases hhigh : 2 ^ 63 * (Binary64.one : ℤ) ≤ units
  · have hless : n.toInt * Binary64.one < units := calc
      n.toInt * Binary64.one < 2 ^ 63 * Binary64.one := Int.mul_lt_mul_of_pos_right n.toInt_lt hone
      _ ≤ units := hhigh
    rw [if_pos hhigh, Int.compare_eq_lt.mpr hless]
  rw [if_neg hhigh]
  by_cases hlow : units < -(2 ^ 63 * (Binary64.one : ℤ))
  · have hgreater : units < n.toInt * Binary64.one := calc
      units < -(2 ^ 63 * Binary64.one) := hlow
      _ = -2 ^ 63 * Binary64.one := (Int.neg_mul ..).symm
      _ ≤ n.toInt * Binary64.one := Int.mul_le_mul_of_nonneg_right n.le_toInt hone.le
    rw [if_pos hlow, Int.compare_eq_gt.mpr hgreater]
  rw [if_neg hlow]
  obtain ⟨hmin, hmax⟩ := tdiv_in_range hone (Int.not_lt.mp hlow) (Int.not_le.mp hhigh)
  have hwhole : (Int64.ofInt (units.tdiv Binary64.one)).toInt = units.tdiv Binary64.one :=
    Int64.toInt_ofInt_of_le hmin hmax
  show (compare n (Int64.ofInt (units.tdiv Binary64.one))).then _ = _
  rw [compare_toInt, hwhole]
  exact compare_tdiv_then hone _

/-- An integer compares with a double as with what it stands for. -/
theorem compares_compareInt (n : Int64) (x : Extended) :
    (x.compareInt n).Compares (((n.toInt : ℚ) : WithTop ℚ) : ExactValue) x.exact := by
  rw [← exact_finite_mul_one]
  cases x with
  | negInfinity => exact bot_lt_exact_finite _
  | infinity => exact exact_finite_lt_top _
  | finite units =>
      rw [compareInt_finite]
      exact exact_finite_strictMono.compares.mpr ((compare_iff _ units).mp rfl)

end Extended

/-! ### Numbers -/

namespace Num

/-- The exact value of a number. Only a double that is no number has none. -/
def exactValue? : Num → Option ExactValue
  | int n => some ((n.toInt : ℚ) : WithTop ℚ)
  | float x => exactOfBits? x.toBits

/-- Both numbers have exact values, and these are in the relation. -/
def Stand (r : ExactValue → ExactValue → Prop) (a b : Num) : Prop := ∃ x ∈ a.exactValue?, ∃ y ∈ b.exactValue?, r x y

variable {a b c : Num} {r s : ExactValue → ExactValue → Prop}

theorem exactValue?_float (x : Float) : (float x).exactValue? = (Binary64.ofFloat x).extended?.map Extended.exact :=
  (Binary64.exact_ofBits x.toBits).symm

theorem compares_int (m n : ℤ) :
    (compare m n).Compares (((m : ℚ) : WithTop ℚ) : ExactValue) (((n : ℚ) : WithTop ℚ) : ExactValue) := by
  have hmono : StrictMono fun n : ℤ => (((n : ℚ) : WithTop ℚ) : ExactValue) :=
    WithBot.coe_strictMono.comp (WithTop.coe_strictMono.comp Int.cast_strictMono)
  exact hmono.compares.mpr ((compare_iff m n).mp rfl)

/-- Numbers compare as their exact values do, and not at all if one of them has none. -/
theorem compare?_spec (a b : Num) :
    match a.exactValue?, b.exactValue? with
    | some x, some y => ∃ o, a.compare? b = some o ∧ o.Compares x y
    | _, _ => a.compare? b = none := by
  cases a with
  | int m =>
      cases b with
      | int n => exact ⟨_, compare?_int m n, compares_int _ _⟩
      | float y =>
          rw [exactValue?_float, compare?]
          cases (Binary64.ofFloat y).extended? with
          | none => rfl
          | some y => exact ⟨_, rfl, y.compares_compareInt m⟩
  | float x =>
      cases b with
      | int n =>
          rw [exactValue?_float, compare?]
          cases (Binary64.ofFloat x).extended? with
          | none => rfl
          | some x => exact ⟨_, rfl, Ordering.compares_swap.mpr (x.compares_compareInt n)⟩
      | float y =>
          rw [exactValue?_float, exactValue?_float, compare?]
          cases (Binary64.ofFloat x).extended? with
          | none => rfl
          | some x =>
              cases (Binary64.ofFloat y).extended? with
              | none => rfl
              | some y => exact ⟨_, rfl, x.compares_compare y⟩

theorem compare?_eq_some_iff {o : Ordering} : a.compare? b = some o ↔ Stand o.Compares a b := by
  have hspec := compare?_spec a b
  constructor
  · intro h
    cases ha : a.exactValue? with
    | none =>
        simp only [ha] at hspec
        rw [hspec] at h
        cases h
    | some x =>
        cases hb : b.exactValue? with
        | none =>
            simp only [ha, hb] at hspec
            rw [hspec] at h
            cases h
        | some y =>
            simp only [ha, hb] at hspec
            obtain ⟨o', ho, hcompares⟩ := hspec
            rw [ho] at h
            cases h
            exact ⟨x, ha, y, hb, hcompares⟩
  · rintro ⟨x, hx, y, hy, hcompares⟩
    rw [Option.mem_def.mp hx, Option.mem_def.mp hy] at hspec
    obtain ⟨o', ho, hcompares'⟩ := hspec
    rw [ho, hcompares'.inj hcompares]

theorem stand_iff {x y : ExactValue} (ha : a.exactValue? = some x) (hb : b.exactValue? = some y) :
    Stand r a b ↔ r x y := by
  constructor
  · rintro ⟨x', hx', y', hy', h⟩
    rwa [Option.mem_unique hx' ha, Option.mem_unique hy' hb] at h
  · intro h
    exact ⟨x, ha, y, hb, h⟩

theorem stand_or : Stand (fun x y => r x y ∨ s x y) a b ↔ Stand r a b ∨ Stand s a b := by
  constructor
  · rintro ⟨x, hx, y, hy, h | h⟩
    · exact .inl ⟨x, hx, y, hy, h⟩
    · exact .inr ⟨x, hx, y, hy, h⟩
  · rintro (⟨x, hx, y, hy, h⟩ | ⟨x, hx, y, hy, h⟩)
    · exact ⟨x, hx, y, hy, .inl h⟩
    · exact ⟨x, hx, y, hy, .inr h⟩

theorem Stand.trans [IsTrans ExactValue r] (hab : Stand r a b) (hbc : Stand r b c) : Stand r a c := by
  obtain ⟨x, hx, y, hy, hxy⟩ := hab
  obtain ⟨y', hy', z, hz, hyz⟩ := hbc
  rw [Option.mem_unique hy' hy] at hyz
  exact ⟨x, hx, z, hz, IsTrans.trans x y z hxy hyz⟩

theorem stand_swap : Stand (fun x y => r y x) a b ↔ Stand r b a := by
  constructor <;> rintro ⟨x, hx, y, hy, h⟩ <;> exact ⟨y, hy, x, hx, h⟩

end Num

/-- What a comparison asks of exact values. -/
inductive BinaryOp.Asks : BinaryOp → (ExactValue → ExactValue → Prop) → Prop
  | equal : Asks equal (· = ·)
  | less : Asks less (· < ·)
  | greater : Asks greater (· > ·)
  | lessEqual : Asks lessEqual (· ≤ ·)
  | greaterEqual : Asks greaterEqual (· ≥ ·)

namespace Value

variable {a b c : Value} {op : BinaryOp} {p : Prop} {r : ExactValue → ExactValue → Prop}

/-- The operation gives 1. -/
def Holds (op : BinaryOp) (a b : Value) : Prop := a.apply op b = .ok { num := .int 1, frame := a.frame }

/-- The operation gives 1 if `p` holds, and 0 if it does not. -/
def Tells (op : BinaryOp) (a b : Value) (p : Prop) : Prop :=
  (p → Holds op a b) ∧ (¬p → a.apply op b = .ok { num := .int 0, frame := a.frame })

theorem tells_of_apply {q : Bool} (happly : Num.apply op a.num b.num = .ok (.ofBool q)) (hq : q = true ↔ p) :
    Tells op a b p := by
  rw [Tells, Holds, apply, happly]
  constructor
  · intro hp
    rw [hq.mpr hp]
    rfl
  · intro hp
    rw [Bool.eq_false_iff.mpr fun h => hp (hq.mp h)]
    rfl

theorem Tells.holds_iff (h : Tells op a b p) : Holds op a b ↔ p := by
  constructor
  · intro hholds
    by_contra hp
    have hzero := h.2 hp
    rw [Holds, hzero] at hholds
    simp at hholds
  · exact h.1

/-- A comparison asks whether the exact values are in a relation. -/
theorem tells_of_asks (h : op.Asks r) (a b : Value) : Tells op a b (Num.Stand r a.num b.num) := by
  cases h with
  | equal | less | greater =>
      apply tells_of_apply rfl
      rw [beq_iff_eq, Num.compare?_eq_some_iff]
      rfl
  | lessEqual =>
      apply tells_of_apply rfl
      rw [Bool.or_eq_true, beq_iff_eq, beq_iff_eq, Num.compare?_eq_some_iff, Num.compare?_eq_some_iff, ← Num.stand_or]
      simp only [Ordering.Compares, ← le_iff_lt_or_eq]
  | greaterEqual =>
      apply tells_of_apply rfl
      rw [Bool.or_eq_true, beq_iff_eq, beq_iff_eq, Num.compare?_eq_some_iff, Num.compare?_eq_some_iff, ← Num.stand_or]
      simp only [Ordering.Compares, ge_iff_le, gt_iff_lt, le_iff_lt_or_eq, eq_comm]

theorem holds_iff (h : op.Asks r) : Holds op a b ↔ Num.Stand r a.num b.num := (tells_of_asks h a b).holds_iff

theorem apply_notEqual (a b : Value) : ∃ n : Int64, a.apply .equal b = .ok { num := .int n, frame := a.frame } ∧
    a.apply .notEqual b = .ok { num := .int (1 - n), frame := a.frame } := by
  cases h : a.num.compare? b.num == some .eq with
  | true =>
      refine ⟨1, ?_, ?_⟩
      · rw [apply, Num.apply, h]
        rfl
      · rw [apply, Num.apply, bne, h]
        rfl
  | false =>
      refine ⟨0, ?_, ?_⟩
      · rw [apply, Num.apply, h]
        rfl
      · rw [apply, Num.apply, bne, h]
        rfl

theorem holds_swap {op' : BinaryOp} {s : ExactValue → ExactValue → Prop} (h : op.Asks r) (h' : op'.Asks s)
    (hswap : ∀ x y, r x y ↔ s y x) : Holds op a b ↔ Holds op' b a := by
  rw [holds_iff h, holds_iff h', ← Num.stand_swap]
  simp only [Num.Stand, hswap]

/-- Comparisons are those of exact values, whatever the kinds of the numbers. Each asks whether both numbers have exact
values in its relation, and gives 1 or 0; that two numbers differ is 1 less what their equality gives. Of two numbers
with exact values, one is less, or they are equal, or one is greater, and only one of these. From the right operand to
the left, the comparisons are mirrored; from one pair to the next, each of them is transitive. -/
theorem comparisons_exact (a b c : Value) :
    (∀ {op r}, op.Asks r → Tells op a b (Num.Stand r a.num b.num)) ∧
      (∃ n : Int64, a.apply .equal b = .ok { num := .int n, frame := a.frame } ∧
        a.apply .notEqual b = .ok { num := .int (1 - n), frame := a.frame }) ∧
      (a.num.exactValue? ≠ none → b.num.exactValue? ≠ none →
        (Holds .less a b ∧ ¬Holds .equal a b ∧ ¬Holds .greater a b) ∨
          (¬Holds .less a b ∧ Holds .equal a b ∧ ¬Holds .greater a b) ∨
          (¬Holds .less a b ∧ ¬Holds .equal a b ∧ Holds .greater a b)) ∧
      ((Holds .less a b ↔ Holds .greater b a) ∧ (Holds .equal a b ↔ Holds .equal b a) ∧
        (Holds .lessEqual a b ↔ Holds .greaterEqual b a)) ∧
      ∀ {op r}, op.Asks r → Holds op a b → Holds op b c → Holds op a c := by
  refine ⟨fun hop => tells_of_asks hop a b, apply_notEqual a b, ?_, ?_, ?_⟩
  · intro ha hb
    obtain ⟨x, hx⟩ := Option.ne_none_iff_exists'.mp ha
    obtain ⟨y, hy⟩ := Option.ne_none_iff_exists'.mp hb
    rw [holds_iff .less, holds_iff .equal, holds_iff .greater]
    simp only [Num.stand_iff hx hy]
    rcases lt_trichotomy x y with h | h | h
    · exact .inl ⟨h, h.ne, h.not_gt⟩
    · exact .inr (.inl ⟨h.not_lt, h, h.not_gt⟩)
    · exact .inr (.inr ⟨h.not_gt, h.ne', h⟩)
  · exact ⟨holds_swap .less .greater fun _ _ => .rfl, holds_swap .equal .equal fun _ _ => eq_comm,
      holds_swap .lessEqual .greaterEqual fun _ _ => .rfl⟩
  · intro op r hop hab hbc
    rw [holds_iff hop] at hab hbc ⊢
    cases hop <;> exact hab.trans hbc

/-- `2 ^ 53 + 1` and `2 ^ 53` are two integers and have one nearest double, which is `2 ^ 53`. -/
theorem comparisons_exact_adjacent :
    let a : Value := { num := .int 9007199254740993 }
    let b : Value := { num := .float (.ofBits 0x4340000000000000) }
    let c : Value := { num := .int 9007199254740992 }
    (a.num.exactValue? ≠ none ∧ b.num.exactValue? ≠ none ∧ Holds .greaterEqual a b ∧ Holds .greaterEqual b c) ∧
      (¬Holds .less a b ∧ ¬Holds .equal a b ∧ Holds .greater a b) ∧ Holds .greaterEqual a c := by
  intro a b c
  have ha : a.num.exactValue? ≠ none := nofun
  have hb : b.num.exactValue? ≠ none := by decide
  have hab : Holds .greaterEqual a b := rfl
  have hbc : Holds .greaterEqual b c := rfl
  have hgreater : Holds .greater a b := rfl
  obtain ⟨_, _, htrichotomy, _, htrans⟩ := comparisons_exact a b c
  refine ⟨⟨ha, hb, hab, hbc⟩, ?_, htrans .greaterEqual hab hbc⟩
  obtain ⟨_, _, h⟩ | ⟨_, _, h⟩ | h := htrichotomy ha hb
  · exact absurd hgreater h
  · exact absurd hgreater h
  · exact h

end Value
end LineCalc
