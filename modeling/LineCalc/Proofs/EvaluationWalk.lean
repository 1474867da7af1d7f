import LineCalc.Proofs.Bindings

/-!
Evaluation as a walk over the nodes of the expression, left to right and each node behind its parts. The walk
keeps the values that are still to be used on a stack, and says nothing of interpreters: what a name has as
its value follows from the assignments passed. It ends at the first node that fails. Evaluating an expression
passes the same nodes with the same values (`eval_walks`).
-/

namespace LineCalc

/-- The nodes of the expression from left to right, each behind its parts. -/
def Expr.postorder : Expr → List Expr
  | e@(number _) => [e]
  | e@(name _) => [e]
  | e@(assign _ value) => value.postorder ++ [e]
  | e@(unary _ operand) => operand.postorder ++ [e]
  | e@(binary left _ right) => left.postorder ++ (right.postorder ++ [e])

/-- What happens to a name. -/
inductive Event where
  | bound (name : String) (value : Value)
  | removed (name : String)

namespace Event

def name : Event → String
  | bound name _ => name
  | removed name => name

/-- What the event leaves the name with. -/
def left : Event → Option Value
  | bound _ value => some value
  | removed _ => none

end Event

abbrev Names := String → Option Value

/-- What the last event about the name left there, or else what was there before. -/
def Names.after (names : Names) (events : List Event) : Names := fun x =>
  match events.reverse.find? (·.name = x) with
  | some event => event.left
  | none => names x

namespace Names

variable {names : Names}

theorem after_append (events more : List Event) :
    names.after (events ++ more) = (names.after events).after more := by
  funext x
  rw [after, List.reverse_append, List.find?_append, after]
  cases more.reverse.find? (·.name = x) <;> rfl

theorem after_singleton (event : Event) (x : String) :
    names.after [event] x = if event.name = x then event.left else names x := by
  rw [after, List.reverse_singleton, List.find?_singleton]
  by_cases h : event.name = x <;> simp [h]

end Names

/-- The assignment that a node makes once it has its value. -/
def Expr.events (node : Expr) (v : Value) : List Event :=
  match node with
  | assign x _ => [.bound x.value v]
  | _ => []

/-- The assignments made at the nodes passed, which have the values beside them. -/
def assignments (passed : List (Expr × Value)) : List Event := passed.flatMap fun (node, v) => node.events v

/-- The walk at a place between two nodes: the names, and the values still to be used, the last one first. -/
structure Walk where
  names : Names
  stack : List Value

namespace Walk

/-- The value of a node, from the values of its parts, and the stack without these. -/
def value? (frame : FrameId) (w : Walk) (node : Expr) : Option (Value × List Value) :=
  match node, w.stack with
  | .number n, stack => some ({ num := n.value, span := n.span, frame }, stack)
  | .name x, stack => (w.names x.value).map fun v => ({ v with span := x.span }, stack)
  | .assign _ _, v :: stack => some (v, stack)
  | .unary op _, v :: stack =>
    (v.applyUnary op.value).toOption.map fun r => ({ r with span := node.span }, stack)
  | .binary _ op _, b :: a :: stack =>
    (a.apply op.value b).toOption.map fun r => ({ r with span := node.span }, stack)
  | _, _ => none

/-- Goes past a node that has the value. -/
def pass (w : Walk) (node : Expr) (v : Value) (stack : List Value) :
    Walk :=
  ⟨w.names.after (node.events v), v :: stack⟩

/-- The nodes that the walk passes until it ends or comes to a node that fails, with their values. -/
def passed (frame : FrameId) (w : Walk) : List Expr → List (Expr × Value)
  | [] => []
  | node :: nodes =>
    match w.value? frame node with
    | some (v, stack) => (node, v) :: (w.pass node v stack).passed frame nodes
    | none => []

/-- The walk passes all the nodes. -/
inductive Passes (frame : FrameId) : Walk → List Expr → List (Expr × Value) → Walk → Prop
  | nil {w} : Passes frame w [] [] w
  | cons {w node v stack nodes trace w'} (hnode : w.value? frame node = some (v, stack))
      (hnodes : Passes frame (w.pass node v stack) nodes trace w') :
      Passes frame w (node :: nodes) ((node, v) :: trace) w'

/-- The walk passes the nodes before this one, which has no value where the walk has come to `w'`. -/
def FailsAt (frame : FrameId) (w : Walk) (nodes : List Expr) (trace : List (Expr × Value)) (node : Expr)
    (w' : Walk) : Prop :=
  ∃ before behind, nodes = before ++ node :: behind ∧ Passes frame w before trace w' ∧ w'.value? frame node = none

/-- The walk fails at one of the nodes, after what is in the trace. -/
def Fails (frame : FrameId) (w : Walk) (nodes : List Expr) (trace : List (Expr × Value)) (names : Names) :
    Prop :=
  ∃ node w', FailsAt frame w nodes trace node w' ∧ w'.names = names

variable {frame : FrameId} {w w' w'' : Walk} {node : Expr} {nodes nodes' : List Expr}
  {trace trace' : List (Expr × Value)} {names : Names} {v : Value} {stack : List Value}

theorem Passes.append (h : Passes frame w nodes trace w') (h' : Passes frame w' nodes' trace' w'') :
    Passes frame w (nodes ++ nodes') (trace ++ trace') w'' := by
  induction h with
  | nil => exact h'
  | cons hnode _ ih => exact .cons hnode (ih h')

theorem Passes.single (hnode : w.value? frame node = some (v, stack)) :
    Passes frame w [node] [(node, v)] (w.pass node v stack) :=
  .cons hnode .nil

theorem Passes.map_fst (h : Passes frame w nodes trace w') : trace.map Prod.fst = nodes := by
  induction h with
  | nil => rfl
  | cons _ _ ih => rw [List.map_cons, ih]

theorem Passes.names_eq (h : Passes frame w nodes trace w') :
    w'.names = w.names.after (assignments trace) := by
  induction h with
  | nil => rfl
  | @cons w node v _ _ trace _ _ _ ih =>
      have hassignments : assignments ((node, v) :: trace) = node.events v ++ assignments trace :=
        List.flatMap_cons
      rw [ih, hassignments, Names.after_append]
      rfl

theorem Passes.passed_append (h : Passes frame w nodes trace w') (more : List Expr) :
    w.passed frame (nodes ++ more) = trace ++ w'.passed frame more := by
  induction h with
  | nil => rfl
  | cons hnode _ ih =>
      rw [List.cons_append, passed, hnode]
      simp only [ih, List.cons_append]

theorem Passes.passed_eq (h : Passes frame w nodes trace w') : w.passed frame nodes = trace := by
  have hpassed := h.passed_append []
  rwa [passed, List.append_nil, List.append_nil] at hpassed

/-- The value of the last node passed lies on top of the stack. -/
theorem Passes.head?_stack (h : Passes frame w nodes trace w') :
    w'.stack.head? = (trace.getLast?.map Prod.snd).or w.stack.head? := by
  induction h with
  | nil => rfl
  | cons _ _ ih =>
      rw [ih, pass, List.getLast?_cons, Option.map_some, Option.some_or, List.head?_cons]
      cases List.getLast? _ <;> rfl

theorem Passes.failsAt (h : Passes frame w nodes trace w') (h' : FailsAt frame w' nodes' trace' node w'') :
    FailsAt frame w (nodes ++ nodes') (trace ++ trace') node w'' := by
  obtain ⟨before, behind, rfl, hbefore, hnode⟩ := h'
  exact ⟨nodes ++ before, behind, (List.append_assoc ..).symm, h.append hbefore, hnode⟩

theorem Passes.fails (h : Passes frame w nodes trace w') (h' : Fails frame w' nodes' trace' names) :
    Fails frame w (nodes ++ nodes') (trace ++ trace') names := by
  obtain ⟨node, w'', hnode, hnames⟩ := h'
  exact ⟨node, w'', h.failsAt hnode, hnames⟩

theorem FailsAt.single (hnode : w.value? frame node = none) : FailsAt frame w [node] [] node w :=
  ⟨[], [], rfl, .nil, hnode⟩

theorem Fails.single (hnode : w.value? frame node = none) : Fails frame w [node] [] w.names :=
  ⟨node, w, .single hnode, rfl⟩

theorem FailsAt.append (h : FailsAt frame w nodes trace node w') (more : List Expr) :
    FailsAt frame w (nodes ++ more) trace node w' := by
  obtain ⟨before, behind, rfl, hbefore, hnode⟩ := h
  exact ⟨before, behind ++ more, List.append_assoc .., hbefore, hnode⟩

theorem Fails.append (h : Fails frame w nodes trace names) (more : List Expr) :
    Fails frame w (nodes ++ more) trace names := by
  obtain ⟨node, w', hnode, hnames⟩ := h
  exact ⟨node, w', hnode.append more, hnames⟩

theorem FailsAt.mem (h : FailsAt frame w nodes trace node w') : node ∈ nodes := by
  obtain ⟨before, behind, rfl, _, _⟩ := h
  exact List.mem_append_right _ List.mem_cons_self

theorem Fails.names_eq (h : Fails frame w nodes trace names) : names = w.names.after (assignments trace) := by
  obtain ⟨_, w', ⟨_, _, _, hbefore, _⟩, rfl⟩ := h
  exact hbefore.names_eq

theorem Fails.passed_eq (h : Fails frame w nodes trace names) : w.passed frame nodes = trace := by
  obtain ⟨node, w', ⟨before, behind, rfl, hbefore, hnode⟩, _⟩ := h
  rw [hbefore.passed_append, passed, hnode, List.append_nil]

/-- A failing walk leaves nodes out. -/
theorem Fails.map_fst (h : Fails frame w nodes trace names) :
    trace.map Prod.fst <+: nodes ∧ trace.map Prod.fst ≠ nodes := by
  obtain ⟨node, w', ⟨before, behind, rfl, hbefore, _⟩, _⟩ := h
  rw [hbefore.map_fst]
  exact ⟨List.prefix_append .., by simp⟩

end Walk

namespace Interpreter

open Walk

/-- The walk over the nodes, by what evaluation came to: it leaves the value on top of the stack, or it fails.
-/
def Walks (frame : FrameId) (w : Walk) (nodes : List Expr) (evaluation : Except EvalError Value × Interpreter) :
    Prop :=
  match evaluation with
  | (.ok v, i) => ∃ trace, Passes frame w nodes trace ⟨i.get?, v :: w.stack⟩
  | (.error _, i) => ∃ trace, Fails frame w nodes trace i.get?

variable {frame : FrameId} {i : Interpreter} {e : Expr}

theorem frame_of_eval {result : Except EvalError Value} {i' : Interpreter} (hframe : i.frame = frame)
    (h : i.eval e = (result, i')) : i'.frame = frame := by
  have hkept := i.frame_eval e
  rw [h] at hkept
  exact hkept.trans hframe

theorem get?_set_eq_after (x : String) (v : Value) : (i.set x v).get? = Names.after i.get? [.bound x v] := by
  funext y
  rw [get?_set, Names.after_singleton]
  rfl

/-- The node of an operation, once its operands have their values. -/
theorem walks_settle {w : Walk} {nodes : List Expr} {stack : List Value} {trace : List (Expr × Value)}
    {operation : Except Fault Value} (hparts : Passes frame w nodes trace ⟨i.get?, stack⟩)
    (hevents : ∀ v, e.events v = [])
    (hvalue : (⟨i.get?, stack⟩ : Walk).value? frame e =
      operation.toOption.map fun r => ({ r with span := e.span }, w.stack)) :
    Walks frame w (nodes ++ [e]) (i.settle e.span operation, i) := by
  cases operation with
  | error fault => exact ⟨_, hparts.fails (.single hvalue)⟩
  | ok r =>
      have hnode := Passes.single hvalue
      rw [Walk.pass, hevents] at hnode
      exact ⟨_, hparts.append hnode⟩

/-- Evaluation passes the nodes that the walk passes, fails where it fails, and leaves the names with the same
values. -/
theorem eval_walks (hframe : i.frame = frame) (e : Expr) (stack : List Value) :
    Walks frame ⟨i.get?, stack⟩ e.postorder (i.eval e) := by
  induction e generalizing i stack with
  | number n =>
      subst hframe
      exact ⟨_, .single rfl⟩
  | name x =>
      rw [eval, read]
      cases hx : i.get? x.value with
      | some v =>
          have hvalue : (⟨i.get?, stack⟩ : Walk).value? frame (.name x) =
              some ({ v with span := x.span }, stack) := by
            simp only [value?, hx, Option.map_some]
          exact ⟨_, .single hvalue⟩
      | none =>
          have hvalue : (⟨i.get?, stack⟩ : Walk).value? frame (.name x) = none := by
            simp only [value?, hx, Option.map_none]
          exact ⟨_, .single hvalue⟩
  | assign x value ih =>
      have hvalue := ih hframe stack
      rcases heval : i.eval value with ⟨error | v, i'⟩ <;> rw [heval] at hvalue <;>
        obtain ⟨trace, hvalue⟩ := hvalue
      · rw [eval_assign_of_error heval]
        exact ⟨trace, hvalue.append _⟩
      · rw [eval_assign_of_ok heval]
        have hnode : Passes frame ⟨i'.get?, v :: stack⟩ [.assign x value] _ _ := .single rfl
        rw [Walk.pass, Expr.events, ← get?_set_eq_after] at hnode
        exact ⟨_, hvalue.append hnode⟩
  | unary op operand ih =>
      have hoperand := ih hframe stack
      rcases heval : i.eval operand with ⟨error | v, i'⟩ <;> rw [heval] at hoperand <;>
        obtain ⟨trace, hoperand⟩ := hoperand
      · rw [eval_unary_of_error heval]
        exact ⟨trace, hoperand.append _⟩
      · rw [eval_unary_of_ok heval]
        exact walks_settle hoperand (fun _ => rfl) rfl
  | binary left op right ihleft ihright =>
      have hleft := ihleft hframe stack
      rcases heval : i.eval left with ⟨error | a, i'⟩ <;> rw [heval] at hleft <;>
        obtain ⟨trace, hleft⟩ := hleft
      · rw [eval_binary_of_left_error heval]
        exact ⟨trace, hleft.append _⟩
      have hright := ihright (frame_of_eval hframe heval) (a :: stack)
      rcases heval' : i'.eval right with ⟨error | b, i''⟩ <;> rw [heval'] at hright <;>
        obtain ⟨trace', hright⟩ := hright
      · rw [eval_binary_of_right_error heval heval']
        exact ⟨_, hleft.fails (hright.append _)⟩
      · rw [eval_binary_of_ok heval heval', Expr.postorder, ← List.append_assoc]
        exact walks_settle (hleft.append hright) (fun _ => rfl) rfl

/-- In `VAR x = (VAR y = 1) / 0` the quotient fails: `y` has been bound by then, and `x` has not. -/
example :
    let quotient : Expr := .binary (.assign ⟨"y", {}⟩ (.number ⟨.int 1, {}⟩)) ⟨.div, {}⟩ (.number ⟨.int 0, {}⟩)
    let passed := Walk.passed ⟨0⟩ ⟨fun _ => none, []⟩ (Expr.assign ⟨"x", {}⟩ quotient).postorder
    (assignments passed).map Event.name = ["y"] :=
  rfl

end Interpreter
end LineCalc
