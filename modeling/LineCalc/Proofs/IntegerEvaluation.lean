import LineCalc.Proofs.IntegerArithmetic
import LineCalc.Proofs.ValueFrames

/-!
Evaluation of integer expressions against a calculation without bounds. The calculation visits operands from
left to right, carries the names' values along, and stops at the first name without a value, the first result
out of range or the first negative exponent. Evaluation keeps up with it (`eval_follows`): it binds the same
integers, has the same result where there is one, and fails where the calculation stops. Only a negative
exponent of a base other than zero is no failure: there evaluation goes on with doubles, and the calculation
says nothing more.
-/

namespace LineCalc

/-- Names with integers. -/
abbrev Integers := String → Option Int

def Integers.set (σ : Integers) (x : String) (n : Int) : Integers := fun y => if x = y then some n else σ y

namespace Expr

/-- The literals are integers and nothing is divided. -/
def isIntegral : Expr → Bool
  | number n =>
    match n.value with
    | .int _ => true
    | .float _ => false
  | name _ => true
  | assign _ value => value.isIntegral
  | unary _ operand => operand.isIntegral
  | binary left op right => op.value != .div && left.isIntegral && right.isIntegral

/-- The calculation without bounds, and the names' values where it ends or stops. -/
def exact (σ : Integers) : Expr → Except IntegerStop Int × Integers
  | number n =>
    match n.value with
    | .int k => (.ok k.toInt, σ)
    | .float _ => (.error .notInteger, σ)
  | name x =>
    match σ x.value with
    | some n => (.ok n, σ)
    | none => (.error (.unbound x.value), σ)
  | assign x value =>
    match value.exact σ with
    | (.ok n, σ) => (.ok n, σ.set x.value n)
    | stopped => stopped
  | unary op operand =>
    match operand.exact σ with
    | (.ok n, σ) => (inRange (op.value.exact n), σ)
    | stopped => stopped
  | binary left op right =>
    match left.exact σ with
    | (.ok m, σ) =>
      match right.exact σ with
      | (.ok n, σ) => (op.value.exact m n, σ)
      | stopped => stopped
    | stopped => stopped

end Expr

/-- What a failed evaluation says when the calculation stops. -/
def IntegerStop.message? : IntegerStop → Option String
  | unbound name => some ("'" ++ name ++ "' is not defined")
  | outOfRange => some "Integer overflow"
  | negativeExponent base => if base = 0 then some "Division by zero" else none
  | notInteger => none

/-- The value is the integer. -/
def Value.IsInt (v : Value) (n : Int) : Prop := ∃ k : Int64, v.num = .int k ∧ k.toInt = n

/-- The evaluation failed and says so. -/
def FailsWith (result : Except EvalError Value) (message : String) : Prop :=
  ∃ e, result = .error e ∧ e.cause.message = message

namespace Interpreter

/-- The names have these integers as values, and no other names have values. -/
structure Holds (i : Interpreter) (σ : Integers) : Prop where
  isInt : ∀ x n, σ x = some n → ∃ v, i.get? x = some v ∧ v.IsInt n
  unbound : ∀ x, σ x = none → i.get? x = none

/-- The outcome of the calculation and that of the evaluation. -/
def Follows (calculation : Except IntegerStop Int × Integers)
    (evaluation : Except EvalError Value × Interpreter) : Prop :=
  match calculation with
  | (.ok n, σ) => (∃ v, evaluation.1 = .ok v ∧ v.IsInt n) ∧ evaluation.2.Holds σ
  | (.error stop, σ) => stop ≠ .notInteger ∧
      ∀ m, stop.message? = some m → FailsWith evaluation.1 m ∧ evaluation.2.Holds σ

variable {i : Interpreter} {σ : Integers} {x : String} {v : Value} {m n : Int} {stop : IntegerStop}

theorem Holds.set (h : i.Holds σ) (x : String) (hv : v.IsInt n) : (i.set x v).Holds (σ.set x n) := by
  constructor
  · intro y k hk
    rw [Integers.set] at hk
    rw [get?_set]
    by_cases hxy : x = y
    · rw [if_pos hxy] at hk ⊢
      cases hk
      exact ⟨v, rfl, hv⟩
    · rw [if_neg hxy] at hk ⊢
      exact h.isInt y k hk
  · intro y hnone
    rw [Integers.set] at hnone
    rw [get?_set]
    by_cases hxy : x = y
    · rw [if_pos hxy] at hnone
      cases hnone
    · rw [if_neg hxy] at hnone ⊢
      exact h.unbound y hnone

theorem follows_read (h : i.Holds σ) (x : Located String) :
    Follows ((Expr.name x).exact σ) (i.read x, i) := by
  rw [Expr.exact, read]
  cases hx : σ x.value with
  | some n =>
      obtain ⟨v, hv, k, hk, hn⟩ := h.isInt _ n hx
      rw [hv]
      exact ⟨⟨_, rfl, k, hk, hn⟩, h⟩
  | none =>
      rw [h.unbound _ hx]
      constructor
      · intro hstop
        cases hstop
      · intro m hm
        cases hm
        exact ⟨⟨_, rfl, rfl⟩, h⟩

/-- The result of an operation, located. -/
theorem follows_settle {exact : Except IntegerStop Int} {result : Except ArithmeticError Num}
    {operation : Except Fault Value} (h : i.Holds σ) (hagrees : Num.Agrees exact result)
    (hok : ∀ n, result = .ok n → ∃ v, operation = .ok v ∧ v.num = n)
    (herror : ∀ e, result = .error e → ∃ fault, operation = .error fault ∧ fault.error = e) (span : Span) :
    Follows (exact, σ) (i.settle span operation, i) := by
  cases exact with
  | ok n =>
      obtain ⟨k, hk, hn⟩ := hagrees
      obtain ⟨v, rfl, hv⟩ := hok _ hk
      exact ⟨⟨_, rfl, k, hv, hn⟩, h⟩
  | error stop =>
      cases stop with
      | unbound | notInteger => exact hagrees.elim
      | outOfRange =>
          obtain ⟨fault, rfl, hfault⟩ := herror _ hagrees
          refine ⟨nofun, ?_⟩
          intro m hm
          cases hm
          exact ⟨⟨_, rfl, by rw [hfault]; rfl⟩, h⟩
      | negativeExponent base =>
          refine ⟨nofun, ?_⟩
          intro m hm
          by_cases hbase : base = 0
          · obtain ⟨fault, rfl, hfault⟩ := herror _ (hagrees hbase)
            rw [IntegerStop.message?, if_pos hbase] at hm
            cases hm
            exact ⟨⟨_, rfl, by rw [hfault]; rfl⟩, h⟩
          · rw [IntegerStop.message?, if_neg hbase] at hm
            cases hm

theorem follows_binary {a b : Value} {op : BinaryOp} (h : i.Holds σ) (ha : a.IsInt m) (hb : b.IsInt n)
    (hdiv : op ≠ .div) (span : Span) : Follows (op.exact m n, σ) (i.settle span (a.apply op b), i) := by
  obtain ⟨j, hj, rfl⟩ := ha
  obtain ⟨k, hk, rfl⟩ := hb
  refine follows_settle h (Num.agrees_apply j k hdiv) ?_ ?_ span
  · intro r hr
    refine ⟨{ num := r, frame := a.frame }, ?_, rfl⟩
    rw [Value.apply, hj, hk, hr]
  · intro e he
    rw [Value.apply, hj, hk, he]
    cases e with
    | divisionByZero => exact ⟨_, rfl, rfl⟩
    | overflow => exact ⟨_, rfl, rfl⟩

theorem inRange_toInt (k : Int64) : inRange k.toInt = .ok k.toInt := by
  rw [inRange, if_pos ⟨k.le_toInt, k.toInt_lt⟩]

/-- A sign is an operation too: the negative is the product with -1, which can be out of range. -/
theorem follows_unary {op : UnaryOp} (h : i.Holds σ) (hv : v.IsInt n) (span : Span) :
    Follows (inRange (op.exact n), σ) (i.settle span (v.applyUnary op), i) := by
  cases op with
  | plus =>
      obtain ⟨k, hk, rfl⟩ := hv
      rw [UnaryOp.exact, inRange_toInt]
      exact ⟨⟨_, rfl, k, hk, rfl⟩, h⟩
  | minus =>
      have hone : Value.IsInt { num := .int (-1), span := v.span } (-1) := ⟨-1, rfl, rfl⟩
      have hmul : BinaryOp.mul ≠ .div := nofun
      have hproduct := follows_binary h hv hone hmul span
      rwa [BinaryOp.exact, Int.mul_neg_one] at hproduct
  | not =>
      obtain ⟨k, hk, rfl⟩ := hv
      obtain ⟨r, hr, hexact⟩ := Num.agrees_not k
      rw [← hexact, inRange_toInt]
      refine ⟨⟨_, rfl, r, ?_, rfl⟩, h⟩
      rw [← hr, ← hk]
      rfl

/-- Where the calculation stops in a part, it stops in the whole, and evaluation fails in the part as in the
whole. -/
theorem Follows.stopped {part whole : Except EvalError Value × Interpreter} (h : Follows (.error stop, σ) part)
    (hfailed : ∀ e i, part = (.error e, i) → whole = (.error e, i)) : Follows (.error stop, σ) whole := by
  refine ⟨h.1, ?_⟩
  intro m hm
  obtain ⟨⟨e, he, hmessage⟩, hholds⟩ := h.2 m hm
  rw [hfailed e part.2 (Prod.ext he rfl)]
  exact ⟨⟨e, rfl, hmessage⟩, hholds⟩

/-- Evaluation keeps up with the calculation. -/
theorem eval_follows {e : Expr} (he : e.isIntegral) (h : i.Holds σ) : Follows (e.exact σ) (i.eval e) := by
  induction e generalizing i σ with
  | number n =>
      obtain ⟨num, span⟩ := n
      cases num with
      | int k => exact ⟨⟨_, rfl, k, rfl, rfl⟩, h⟩
      | float _ => cases he
  | name x => exact follows_read h x
  | assign x value ih =>
      have hvalue := ih he h
      rw [Expr.exact]
      rcases hexact : value.exact σ with ⟨stop | n, σ'⟩ <;> rw [hexact] at hvalue
      · exact hvalue.stopped fun _ _ => eval_assign_of_error
      · obtain ⟨⟨v, hv, hint⟩, hholds⟩ := hvalue
        rw [eval_assign_of_ok (Prod.ext hv rfl)]
        exact ⟨⟨v, rfl, hint⟩, hholds.set x.value hint⟩
  | unary op operand ih =>
      have hoperand := ih he h
      rw [Expr.exact]
      rcases hexact : operand.exact σ with ⟨stop | n, σ'⟩ <;> rw [hexact] at hoperand
      · exact hoperand.stopped fun _ _ => eval_unary_of_error
      · obtain ⟨⟨v, hv, hint⟩, hholds⟩ := hoperand
        rw [eval_unary_of_ok (Prod.ext hv rfl)]
        exact follows_unary hholds hint _
  | binary left op right ihleft ihright =>
      simp only [Expr.isIntegral, Bool.and_eq_true, bne_iff_ne] at he
      obtain ⟨⟨hdiv, heleft⟩, heright⟩ := he
      have hleft := ihleft heleft h
      rw [Expr.exact]
      rcases hexact : left.exact σ with ⟨stop | m, σ'⟩ <;> rw [hexact] at hleft
      · exact hleft.stopped fun _ _ => eval_binary_of_left_error
      obtain ⟨⟨a, ha, hinta⟩, hholds⟩ := hleft
      have hleft : i.eval left = (.ok a, (i.eval left).2) := Prod.ext ha rfl
      have hright := ihright heright hholds
      simp only
      rcases hexact' : right.exact σ' with ⟨stop | n, σ''⟩ <;> rw [hexact'] at hright
      · exact hright.stopped fun _ _ => eval_binary_of_right_error hleft
      · obtain ⟨⟨b, hb, hintb⟩, hholds'⟩ := hright
        rw [eval_binary_of_ok hleft (Prod.ext hb rfl)]
        exact follows_binary hholds' hinta hintb hdiv _

/-- The integers that the names are bound to. -/
def integers (i : Interpreter) : Integers := fun x =>
  match i.get? x with
  | some v =>
    match v.num with
    | .int k => some k.toInt
    | .float _ => none
  | none => none

theorem holds_integers (hints : ∀ x v, i.get? x = some v → ∃ n, v.IsInt n) :
    i.Holds i.integers := by
  constructor
  · intro x n hn
    rw [integers] at hn
    cases hx : i.get? x with
    | none =>
        rw [hx] at hn
        cases hn
    | some v =>
        obtain ⟨m, k, hk, rfl⟩ := hints x v hx
        simp only [hx, hk] at hn
        cases hn
        exact ⟨v, rfl, k, hk, rfl⟩
  · intro x hnone
    rw [integers] at hnone
    cases hx : i.get? x with
    | none => rfl
    | some v =>
        obtain ⟨m, k, hk, _⟩ := hints x v hx
        simp only [hx, hk] at hnone
        cases hnone

end Interpreter

/-- Integer expressions are evaluated exactly or refused, and nothing wraps. Where the calculation without
bounds has a result, so does evaluation, and it is the same integer. Where it stops, evaluation fails and says
why; it has a traceback to tell so, unless a value came from a frame that is not there. The names are bound to the
same integers afterwards, in both cases. A negative exponent is a failure for the base zero only. -/
theorem integer_evaluation {i : Interpreter} {e : Expr}
    (hints : ∀ x v, i.get? x = some v → ∃ n, v.IsInt n) (he : e.isIntegral) :
    let calculation := e.exact i.integers
    let evaluation := i.eval e
    (∀ n, calculation.1 = .ok n → ∃ v, evaluation.1 = .ok v ∧ v.IsInt n) ∧
    (∀ x, calculation.1 = .error (.unbound x) → FailsWith evaluation.1 ("'" ++ x ++ "' is not defined")) ∧
    (calculation.1 = .error .outOfRange → FailsWith evaluation.1 "Integer overflow") ∧
    (calculation.1 = .error (.negativeExponent 0) → FailsWith evaluation.1 "Division by zero") ∧
    ((∀ base, base ≠ 0 → calculation.1 ≠ .error (.negativeExponent base)) → evaluation.2.Holds calculation.2) ∧
    (i.Traceable → ∀ error, evaluation.1 = .error error → error.traceback?.isSome) ∧
    calculation.1 ≠ .error .notInteger := by
  intro calculation evaluation
  have hfollows : Interpreter.Follows calculation evaluation :=
    Interpreter.eval_follows he (Interpreter.holds_integers hints)
  have htraceback (htraceable : i.Traceable) := (htraceable.eval e).1
  rcases calculation with ⟨stop | n, σ⟩
  · obtain ⟨hinteger, hstop⟩ := hfollows
    refine ⟨nofun, ?_, ?_, ?_, ?_, htraceback, ?_⟩
    · intro x hx
      cases hx
      exact (hstop _ rfl).1
    · intro hrange
      cases hrange
      exact (hstop _ rfl).1
    · intro hexponent
      cases hexponent
      exact (hstop _ rfl).1
    · intro hbase
      cases stop with
      | unbound | outOfRange => exact (hstop _ rfl).2
      | negativeExponent base =>
          have hzero : base = 0 := Decidable.byContradiction fun h => hbase base h rfl
          exact (hstop _ (if_pos hzero)).2
      | notInteger => contradiction
    · intro hstop'
      cases hstop'
      contradiction
  · obtain ⟨hvalue, hholds⟩ := hfollows
    refine ⟨?_, nofun, nofun, nofun, fun _ => hholds, htraceback, nofun⟩
    intro m hm
    cases hm
    exact hvalue

theorem integer_evaluation_negative :
    let minimum : Expr := .binary (.unary ⟨.minus, {}⟩ (.number ⟨.int 2, {}⟩)) ⟨.pow, {}⟩ (.number ⟨.int 63, {}⟩)
    let e : Expr := .unary ⟨.minus, {}⟩ (.assign ⟨"x", {}⟩ minimum)
    (∀ x v, Interpreter.fresh.get? x = some v → ∃ n, v.IsInt n) ∧ e.isIntegral ∧ Interpreter.fresh.Traceable ∧
      FailsWith (Interpreter.fresh.eval e).1 "Integer overflow" ∧
      (∀ error, (Interpreter.fresh.eval e).1 = .error error → error.traceback?.isSome) ∧
      ∃ v, (Interpreter.fresh.eval e).2.get? "x" = some v ∧ v.IsInt (-2 ^ 63) := by
  intro minimum e
  have hints : ∀ x v, Interpreter.fresh.get? x = some v → ∃ n, v.IsInt n := by
    intro x v hv
    rw [Interpreter.get?_fresh] at hv
    split at hv <;> cases hv
    exact ⟨0, 0, rfl, rfl⟩
  have he : e.isIntegral := by decide
  have htraceable : Interpreter.fresh.Traceable :=
    Interpreter.singleFrame_fresh.traceable Interpreter.framesAre_fresh
  have hexact : e.exact Interpreter.fresh.integers =
      (.error .outOfRange, Integers.set Interpreter.fresh.integers "x" (-2 ^ 63)) := rfl
  obtain ⟨_, _, hrange, _, hholds, htraceback, _⟩ := integer_evaluation hints he
  rw [hexact] at hrange hholds
  exact ⟨hints, he, htraceable, hrange rfl, htraceback htraceable, (hholds nofun).isInt "x" (-2 ^ 63) rfl⟩

end LineCalc
