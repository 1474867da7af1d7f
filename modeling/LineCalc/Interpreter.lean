import LineCalc.Env
import LineCalc.Expr

/-!
Evaluation. An interpreter is an environment and the frame in which expressions are evaluated, which is there
together with its scope. Operands are evaluated from left to right, both operands of `AND` and `OR` too; an
assignment binds its name as soon as its value is known. Evaluation returns the interpreter as it is then, after a
failure too: what was bound before the failure stays bound.
-/

namespace LineCalc

/-- Why an expression has no value. -/
inductive EvalError.Cause where
  | undefined (name : String)
  | arithmetic (error : ArithmeticError)
deriving DecidableEq, Repr

/-- A failed evaluation: why, where, and in which calls. Without a traceback it cannot be told: the value to blame
came from a frame that is not there, and the program stops. -/
structure EvalError where
  cause : EvalError.Cause
  span : Span
  traceback? : Option Traceback
deriving DecidableEq, Repr

def EvalError.Cause.message : EvalError.Cause → String
  | undefined name => "'" ++ name ++ "' is not defined"
  | arithmetic error => error.message

structure Interpreter where
  env : Env
  frame : FrameId
  frame_lt : frame.index < env.frames.size
  scope_lt : env.frames[frame.index].scope.index < env.scopes.size

namespace Interpreter

/-- The name of the outermost frame. -/
def programFrame : String := "<program>"

/-- The scope of the current frame. -/
def scope (i : Interpreter) : ScopeId :=
  have := i.frame_lt
  i.env.frames[i.frame.index].scope

def get? (i : Interpreter) (name : String) : Option Value := i.env.get? i.scope name

def set (i : Interpreter) (name : String) (value : Value) : Interpreter where
  env := i.env.set i.scope name value
  frame := i.frame
  frame_lt := i.frame_lt
  scope_lt := Nat.lt_of_lt_of_eq i.scope_lt Env.size_scopes_set.symm

def remove (i : Interpreter) (name : String) : Option Value × Interpreter :=
  ((i.env.remove i.scope name).1,
    { env := (i.env.remove i.scope name).2
      frame := i.frame
      frame_lt := i.frame_lt
      scope_lt := Nat.lt_of_lt_of_eq i.scope_lt Env.size_scopes_remove.symm })

/-- One frame, in which nothing is bound. -/
def bare : Interpreter where
  env := (({} : Env).rootFrame programFrame).2
  frame := (({} : Env).rootFrame programFrame).1
  frame_lt := Nat.one_pos
  scope_lt := Nat.one_pos

/-- One frame, in which `null` is zero and nothing else is bound. -/
def fresh : Interpreter := bare.set "null" { num := .int 0, frame := bare.frame }

/-- An error at `span`, in the given frame or else the current one. -/
def error (i : Interpreter) (cause : EvalError.Cause) (span : Span) (frame : Option FrameId) : EvalError :=
  ⟨cause, span, i.env.traceback? (frame.getD i.frame) span.start⟩

/-- The result of an operation at `span`. -/
def settle (i : Interpreter) (span : Span) : Except Fault Value → Except EvalError Value
  | .ok v => .ok { v with span }
  | .error fault => .error (i.error (.arithmetic fault.error) fault.span fault.frame)

/-- The value of a name, as read at its place in the text. -/
def read (i : Interpreter) (x : Located String) : Except EvalError Value :=
  match i.get? x.value with
  | some v => .ok { v with span := x.span }
  | none => .error (i.error (.undefined x.value) x.span none)

/-- The value of an expression, and the interpreter afterwards. -/
def eval (i : Interpreter) : Expr → Except EvalError Value × Interpreter
  | .number n => (.ok { num := n.value, span := n.span, frame := i.frame }, i)
  | .name x => (i.read x, i)
  | .assign x value =>
    match i.eval value with
    | (.ok v, i) => (.ok v, i.set x.value v)
    | failed => failed
  | e@(.unary op operand) =>
    match i.eval operand with
    | (.ok v, i) => (i.settle e.span (v.applyUnary op.value), i)
    | failed => failed
  | e@(.binary left op right) =>
    match i.eval left with
    | (.ok a, i) =>
      match i.eval right with
      | (.ok b, i) => (i.settle e.span (a.apply op.value b), i)
      | failed => failed
    | failed => failed

section

variable {i i' i'' : Interpreter} {x : Located String} {value operand left right : Expr} {a b v : Value}
  {error : EvalError}

theorem eval_assign_of_ok (h : i.eval value = (.ok v, i')) :
    i.eval (.assign x value) = (.ok v, i'.set x.value v) := by
  rw [eval, h]

theorem eval_assign_of_error (h : i.eval value = (.error error, i')) :
    i.eval (.assign x value) = (.error error, i') := by
  rw [eval, h]

theorem eval_unary_of_ok {op : Located UnaryOp} (h : i.eval operand = (.ok v, i')) :
    i.eval (.unary op operand) = (i'.settle (Expr.unary op operand).span (v.applyUnary op.value), i') := by
  rw [eval, h]

theorem eval_unary_of_error {op : Located UnaryOp} (h : i.eval operand = (.error error, i')) :
    i.eval (.unary op operand) = (.error error, i') := by
  rw [eval, h]

theorem eval_binary_of_ok {op : Located BinaryOp} (hleft : i.eval left = (.ok a, i'))
    (hright : i'.eval right = (.ok b, i'')) :
    i.eval (.binary left op right) =
      (i''.settle (Expr.binary left op right).span (a.apply op.value b), i'') := by
  rw [eval, hleft]
  simp only [hright]

theorem eval_binary_of_left_error {op : Located BinaryOp} (hleft : i.eval left = (.error error, i')) :
    i.eval (.binary left op right) = (.error error, i') := by
  rw [eval, hleft]

theorem eval_binary_of_right_error {op : Located BinaryOp} (hleft : i.eval left = (.ok a, i'))
    (hright : i'.eval right = (.error error, i'')) : i.eval (.binary left op right) = (.error error, i'') := by
  rw [eval, hleft]
  simp only [hright]

end

end Interpreter
end LineCalc
