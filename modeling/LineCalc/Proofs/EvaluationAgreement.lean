import LineCalc.Proofs.EvaluationWalk
import LineCalc.Proofs.MovedPlaces
import LineCalc.Proofs.ValueFrames
import Mathlib.Data.List.Forall2
import Mathlib.Data.Option.Defs
import Mathlib.Data.Set.Basic

/-!
What evaluation depends on. Of a value that is bound to a name it uses the number, and the frame only to begin a
traceback in it; where the value was computed it never asks, as reading a name gives the value the place of the
name. So two interpreters that give the same numbers to the names in an expression come to the same result or to
the same error (`Interpreter.eval_alike`), and if the second one is given the expression some lines further down,
to the same again some lines further down. Up to there they complete the same assignments with the same values, as
the two walks over the expression pass the same nodes (`Walk.passed_alike`).
-/

namespace LineCalc

/-- Both have results or both have errors, and these are related. -/
inductive BothEnd (onOk : α → β → Prop) (onError : ε → δ → Prop) : Except ε α → Except δ β → Prop
  | ok {a b} (h : onOk a b) : BothEnd onOk onError (.ok a) (.ok b)
  | error {e d} (h : onError e d) : BothEnd onOk onError (.error e) (.error d)

theorem BothEnd.mono {onOk onOk' : α → β → Prop} {onError onError' : ε → δ → Prop} {r : Except ε α} {r' : Except δ β}
    (h : BothEnd onOk onError r r') (hok : ∀ a b, onOk a b → onOk' a b) (herror : ∀ e d, onError e d → onError' e d) :
    BothEnd onOk' onError' r r' := by
  cases h with
  | ok h => exact .ok (hok _ _ h)
  | error h => exact .error (herror _ _ h)

def TraceEntry.later (n : UInt64) (entry : TraceEntry) : TraceEntry := { entry with line := entry.line + n }

def EvalError.later (n : UInt64) (e : EvalError) : EvalError :=
  ⟨e.cause, e.span.move (Position.later n), e.traceback?.map (List.map (TraceEntry.later n))⟩

theorem EvalError.later_zero (e : EvalError) : e.later 0 = e := by
  have hentries : TraceEntry.later 0 = id := by
    funext entry
    rw [TraceEntry.later, UInt64.add_zero]
    rfl
  rw [later, hentries, List.map_id_fun, Option.map_id, Position.later_zero]
  rfl

namespace Value

/-- The frame in which a traceback about the value begins, if the frame 0 is the current one. -/
def home (v : Value) : FrameId := v.frame.getD ⟨0⟩

/-- What evaluation uses of a bound value is the same. -/
structure Alike (v w : Value) : Prop where
  num_eq : w.num = v.num
  home_eq : w.home = v.home

/-- The values are alike, and the second one was computed `n` lines further down. -/
structure AlikeAt (n : UInt64) (v w : Value) : Prop extends Alike v w where
  span_eq : w.span = v.span.move (Position.later n)

end Value

/-- The second failure is the first one, `n` lines further down. -/
structure Fault.AlikeAt (n : UInt64) (a b : Fault) : Prop where
  error_eq : b.error = a.error
  span_eq : b.span = a.span.move (Position.later n)
  home_eq : b.frame.getD ⟨0⟩ = a.frame.getD ⟨0⟩

namespace Value

variable {n : UInt64} {a a' b b' v w : Value}

theorem alikeAt_zero_iff : AlikeAt 0 v w ↔ Alike v w ∧ w.span = v.span := by
  constructor
  · intro h
    exact ⟨h.toAlike, h.span_eq.trans v.span.move_later_zero⟩
  · rintro ⟨h, hspan⟩
    exact ⟨h, hspan.trans v.span.move_later_zero.symm⟩

theorem home_of_frame (h : v.frame = none ∨ v.frame = some ⟨0⟩) : v.home = ⟨0⟩ := by
  rw [home]
  obtain h | h := h <;> rw [h] <;> rfl

theorem apply_alike (op : BinaryOp) (ha : AlikeAt n a a') (hb : AlikeAt n b b') :
    BothEnd Alike (Fault.AlikeAt n) (a.apply op b) (a'.apply op b') := by
  rw [apply, apply, ha.num_eq, hb.num_eq]
  cases Num.apply op a.num b.num with
  | ok r => exact .ok ⟨rfl, ha.home_eq⟩
  | error e =>
      cases e with
      | divisionByZero => exact .error ⟨rfl, hb.span_eq, ha.home_eq⟩
      | overflow =>
          refine .error ⟨rfl, ?_, ha.home_eq⟩
          show a'.span.enclose b'.span = _
          rw [ha.span_eq, hb.span_eq]
          rfl

theorem applyUnary_alike (op : UnaryOp) (ha : AlikeAt n a a') :
    BothEnd Alike (Fault.AlikeAt n) (a.applyUnary op) (a'.applyUnary op) := by
  cases op with
  | plus => exact .ok ha.toAlike
  | minus => exact apply_alike .mul ha ⟨⟨rfl, rfl⟩, ha.span_eq⟩
  | not =>
      refine .ok ⟨?_, ha.home_eq⟩
      show a'.num.not = a.num.not
      rw [ha.num_eq]

end Value

namespace Interpreter

variable {i j : Interpreter} {n : UInt64} {names : Set String}

theorem SingleFrame.error_later (hi : i.SingleFrame) (hj : j.SingleFrame) {f f' : Option FrameId}
    (hf : f'.getD ⟨0⟩ = f.getD ⟨0⟩) (cause : EvalError.Cause) (span : Span) :
    j.error cause (span.move (Position.later n)) f' = (i.error cause span f).later n := by
  rw [error, error, EvalError.later, hi.traceback?_eq, hj.traceback?_eq, hi.frame_eq, hj.frame_eq, hf]
  split <;> rfl

/-- Both have a single frame, and the names given have no values or values that are alike. -/
structure Alike (names : Set String) (i j : Interpreter) : Prop where
  left : i.SingleFrame
  right : j.SingleFrame
  values : ∀ x ∈ names, Option.Rel Value.Alike (i.get? x) (j.get? x)

theorem Alike.refl (h : i.SingleFrame) : Alike names i i := by
  refine ⟨h, h, ?_⟩
  intro x _
  cases i.get? x with
  | none => exact .none
  | some v => exact .some ⟨rfl, rfl⟩

theorem Alike.set (h : Alike names i j) {v w : Value} (hvalue : v.Alike w) (x : String) :
    Alike names (i.set x v) (j.set x w) := by
  refine ⟨h.left.set x v, h.right.set x w, ?_⟩
  intro y hy
  rw [get?_set, get?_set]
  split
  · exact .some hvalue
  · exact h.values y hy

theorem Alike.settle (h : Alike names i j) {r r' : Except Fault Value} (span : Span)
    (hr : BothEnd Value.Alike (Fault.AlikeAt n) r r') :
    BothEnd (Value.AlikeAt n) (fun e e' => e' = e.later n) (i.settle span r)
      (j.settle (span.move (Position.later n)) r') := by
  cases hr with
  | ok hvalue => exact .ok ⟨⟨hvalue.num_eq, hvalue.home_eq⟩, rfl⟩
  | @error a b hfault =>
      refine .error ?_
      rw [hfault.error_eq, hfault.span_eq]
      exact h.left.error_later h.right hfault.home_eq _ _

theorem Alike.read (h : Alike names i j) {x : Located String} (hx : x.value ∈ names) :
    BothEnd (Value.AlikeAt n) (fun e e' => e' = e.later n) (i.read x) (j.read (x.move (Position.later n))) := by
  have hvalue := h.values x.value hx
  rw [Interpreter.read, Interpreter.read, Located.value_move, Located.span_move]
  cases hi : i.get? x.value <;> cases hj : j.get? x.value <;> rw [hi, hj] at hvalue <;> cases hvalue
  · exact .error (h.left.error_later h.right rfl _ _)
  · next hvalue => exact .ok ⟨⟨hvalue.num_eq, hvalue.home_eq⟩, rfl⟩

/-- Evaluation keeps step in the two interpreters. -/
theorem eval_alike {e : Expr} (hreads : ∀ x : Located String, .name x ∈ e.postorder → x.value ∈ names)
    (h : Alike names i j) :
    BothEnd (Value.AlikeAt n) (fun e e' => e' = e.later n) (i.eval e).1 (j.eval (e.move (Position.later n))).1 ∧
      Alike names (i.eval e).2 (j.eval (e.move (Position.later n))).2 := by
  induction e generalizing i j with
  | number m =>
      refine ⟨.ok ⟨⟨rfl, ?_⟩, rfl⟩, h⟩
      rw [Value.home, Value.home, h.left.frame_eq, h.right.frame_eq]
  | name x => exact ⟨h.read (hreads x (by simp [Expr.postorder])), h⟩
  | assign x value ih =>
      obtain ⟨hvalue, hafter⟩ := ih (fun y hy => hreads y (by simp [Expr.postorder, hy])) h
      rw [Expr.move]
      rcases hi : i.eval value with ⟨r, i'⟩
      rcases hj : j.eval (value.move (Position.later n)) with ⟨r', j'⟩
      rw [hi, hj] at hvalue hafter
      cases hvalue with
      | error herror =>
          rw [eval_assign_of_error hi, eval_assign_of_error hj]
          exact ⟨.error herror, hafter⟩
      | ok hvalue =>
          rw [eval_assign_of_ok hi, eval_assign_of_ok hj]
          exact ⟨.ok hvalue, hafter.set hvalue.toAlike x.value⟩
  | unary op operand ih =>
      obtain ⟨hoperand, hafter⟩ := ih (fun y hy => hreads y (by simp [Expr.postorder, hy])) h
      rw [Expr.move]
      rcases hi : i.eval operand with ⟨r, i'⟩
      rcases hj : j.eval (operand.move (Position.later n)) with ⟨r', j'⟩
      rw [hi, hj] at hoperand hafter
      cases hoperand with
      | error herror =>
          rw [eval_unary_of_error hi, eval_unary_of_error hj]
          exact ⟨.error herror, hafter⟩
      | ok hoperand =>
          rw [eval_unary_of_ok hi, eval_unary_of_ok hj, ← Expr.move, Expr.span_move]
          exact ⟨hafter.settle _ (Value.applyUnary_alike op.value hoperand), hafter⟩
  | binary left op right ihleft ihright =>
      obtain ⟨hleft, hafter⟩ := ihleft (fun y hy => hreads y (by simp [Expr.postorder, hy])) h
      rw [Expr.move]
      rcases hi : i.eval left with ⟨r, i'⟩
      rcases hj : j.eval (left.move (Position.later n)) with ⟨r', j'⟩
      rw [hi, hj] at hleft hafter
      cases hleft with
      | error herror =>
          rw [eval_binary_of_left_error hi, eval_binary_of_left_error hj]
          exact ⟨.error herror, hafter⟩
      | ok hleft =>
          obtain ⟨hright, hafter'⟩ := ihright (fun y hy => hreads y (by simp [Expr.postorder, hy])) hafter
          rcases hi' : i'.eval right with ⟨r, i''⟩
          rcases hj' : j'.eval (right.move (Position.later n)) with ⟨r', j''⟩
          rw [hi', hj'] at hright hafter'
          cases hright with
          | error herror =>
              rw [eval_binary_of_right_error hi hi', eval_binary_of_right_error hj hj']
              exact ⟨.error herror, hafter'⟩
          | ok hright =>
              rw [eval_binary_of_ok hi hi', eval_binary_of_ok hj hj', ← Expr.move, Expr.span_move]
              exact ⟨hafter'.settle _ (Value.apply_alike op.value hleft hright), hafter'⟩

end Interpreter

/-! ### Completed assignments -/

/-- The nodes passed are the same, and their values alike. -/
abbrev PassedAlike : List (Expr × Value) → List (Expr × Value) → Prop :=
  List.Forall₂ fun a b => b.1 = a.1 ∧ Value.AlikeAt 0 a.2 b.2

theorem PassedAlike.map_fst {passed passed' : List (Expr × Value)} (h : PassedAlike passed passed') :
    passed'.map Prod.fst = passed.map Prod.fst := by
  induction h with
  | nil => rfl
  | cons hhead _ ih => rw [List.map_cons, List.map_cons, hhead.1, ih]

namespace Walk

variable {names : Set String} {w w' : Walk} {node : Expr} {nodes : List Expr}

/-- The names given have no values or values that are alike, and the values to be used are alike. -/
structure Alike (names : Set String) (w w' : Walk) : Prop where
  values : ∀ x ∈ names, Option.Rel Value.Alike (w.names x) (w'.names x)
  stack : List.Forall₂ (Value.AlikeAt 0) w.stack w'.stack

/-- The values of a node are alike, and so are the values left on the stack. -/
abbrev ValuesAlike : Option (Value × List Value) → Option (Value × List Value) → Prop :=
  Option.Rel fun a b => Value.AlikeAt 0 a.1 b.1 ∧ List.Forall₂ (Value.AlikeAt 0) a.2 b.2

theorem valuesAlike_of_operation {r r' : Except Fault Value} {stack stack' : List Value} (span : Span)
    (hr : BothEnd Value.Alike (Fault.AlikeAt 0) r r') (hstack : List.Forall₂ (Value.AlikeAt 0) stack stack') :
    ValuesAlike (r.toOption.map fun v => ({ v with span }, stack))
      (r'.toOption.map fun v => ({ v with span }, stack')) := by
  cases hr with
  | error _ => exact .none
  | ok hvalue => exact .some ⟨Value.alikeAt_zero_iff.mpr ⟨⟨hvalue.num_eq, hvalue.home_eq⟩, rfl⟩, hstack⟩

theorem Alike.value? (h : w.Alike names w') (hreads : ∀ x, node = .name x → x.value ∈ names) :
    ValuesAlike (w.value? ⟨0⟩ node) (w'.value? ⟨0⟩ node) := by
  obtain ⟨σ, stack⟩ := w
  obtain ⟨τ, stack'⟩ := w'
  obtain ⟨hvalues, hstack⟩ := h
  cases node with
  | number m => exact .some ⟨Value.alikeAt_zero_iff.mpr ⟨⟨rfl, rfl⟩, rfl⟩, hstack⟩
  | name x =>
      have hvalue : Option.Rel Value.Alike (σ x.value) (τ x.value) := hvalues x.value (hreads x rfl)
      show ValuesAlike ((σ x.value).map _) ((τ x.value).map _)
      generalize σ x.value = v?, τ x.value = v'? at hvalue
      cases hvalue with
      | none => exact .none
      | some hvalue => exact .some ⟨Value.alikeAt_zero_iff.mpr ⟨⟨hvalue.num_eq, hvalue.home_eq⟩, rfl⟩, hstack⟩
  | assign x value =>
      cases hstack with
      | nil => exact .none
      | cons hvalue hmore => exact .some ⟨hvalue, hmore⟩
  | unary op operand =>
      cases hstack with
      | nil => exact .none
      | cons hvalue hmore => exact valuesAlike_of_operation _ (Value.applyUnary_alike op.value hvalue) hmore
  | binary left op right =>
      cases hstack with
      | nil => exact .none
      | cons hright hmore =>
          cases hmore with
          | nil => exact .none
          | cons hleft hmore => exact valuesAlike_of_operation _ (Value.apply_alike op.value hleft hright) hmore

theorem Alike.pass (h : w.Alike names w') {v v' : Value} {stack stack' : List Value} (hvalue : Value.AlikeAt 0 v v')
    (hstack : List.Forall₂ (Value.AlikeAt 0) stack stack') :
    (w.pass node v stack).Alike names (w'.pass node v' stack') := by
  refine ⟨?_, .cons hvalue hstack⟩
  intro y hy
  cases node with
  | assign x value =>
      show Option.Rel _ (Names.after _ [.bound x.value v] y) (Names.after _ [.bound x.value v'] y)
      rw [Names.after_singleton, Names.after_singleton]
      show Option.Rel _ (if x.value = y then some v else _) (if x.value = y then some v' else _)
      split
      · exact .some hvalue.toAlike
      · exact h.values y hy
  | number | name | unary | binary => exact h.values y hy

end Walk

/-! ### The names afterwards -/

namespace Names

variable {σ τ : Names} {x : String} {v v' : Value} {passed passed' : List (Expr × Value)}

/-- Both give the name a value, and the two values are alike. -/
def BothBind (x : String) (σ τ : Names) : Prop := ∃ v w, σ x = some v ∧ τ x = some w ∧ Value.AlikeAt 0 v w

theorem bothBind_bound (hvalue : Value.AlikeAt 0 v v') : BothBind x (σ.after [.bound x v]) (τ.after [.bound x v']) := by
  refine ⟨v, v', ?_, ?_, hvalue⟩ <;> rw [after_singleton] <;> exact if_pos rfl

theorem BothBind.events (h : BothBind x σ τ) (node : Expr) (hvalue : Value.AlikeAt 0 v v') :
    BothBind x (σ.after (node.events v)) (τ.after (node.events v')) := by
  cases node with
  | assign y value =>
      by_cases hy : y.value = x
      · subst hy
        exact bothBind_bound hvalue
      · obtain ⟨a, b, ha, hb, hab⟩ := h
        refine ⟨a, b, ?_, ?_, hab⟩
        · exact (after_singleton ..).trans ((if_neg hy).trans ha)
        · exact (after_singleton ..).trans ((if_neg hy).trans hb)
  | number | name | unary | binary => exact h

theorem after_assignments_cons (node : Expr) :
    σ.after (assignments ((node, v) :: passed)) = (σ.after (node.events v)).after (assignments passed) := by
  have hassignments : assignments ((node, v) :: passed) = node.events v ++ assignments passed := List.flatMap_cons
  rw [hassignments, after_append]

theorem BothBind.assignments (h : BothBind x σ τ) (hpassed : PassedAlike passed passed') :
    BothBind x (σ.after (assignments passed)) (τ.after (assignments passed')) := by
  induction hpassed generalizing σ τ with
  | nil => exact h
  | @cons nodeValue nodeValue' passed passed' hhead htail ih =>
      obtain ⟨node, v⟩ := nodeValue
      obtain ⟨node', v'⟩ := nodeValue'
      obtain ⟨rfl, hvalue⟩ := hhead
      rw [after_assignments_cons, after_assignments_cons]
      exact ih (h.events _ hvalue)

end Names

namespace Interpreter

/-- The interpreters there are: the fresh one, and what comes of it. -/
inductive Reached : Interpreter → Prop
  | fresh : Reached fresh
  | set {i} (h : Reached i) (name : String) (value : Value) : Reached (i.set name value)
  | remove {i} (h : Reached i) (name : String) : Reached (i.remove name).2
  | eval {i} (h : Reached i) (e : Expr) : Reached (i.eval e).2

variable {i j : Interpreter} {e : Expr}

theorem Reached.singleFrame (h : i.Reached) : i.SingleFrame := by
  induction h with
  | fresh => exact singleFrame_fresh
  | set _ name value ih => exact ih.set name value
  | remove _ name ih => exact ih.remove name
  | eval _ e ih => exact ih.eval e

end Interpreter
end LineCalc
