import LineCalc.Proofs.EvaluationWalk
import LineCalc.Proofs.NodeSpans

/-!
Where evaluation reports what it came to. An assignment passes its value on with the span that it has, and any other
node gives its value its own span, so a value stands where the expression does without the assignments around it
(`Expr.peel`). What an operation reports of its operands is therefore known from the expression alone, whatever spans
the values had that names were bound to: the first node of the walk that fails is to blame, and the error is at the
name, at the divisor, or from the first operand to the second (`Walk.Blames`).
-/

namespace LineCalc

theorem Position.ne_of_lt {p q : Position} (h : p < q) : p ≠ q := by
  rintro rfl
  change compare p p = .lt at h
  simp [compare_eq] at h

theorem Lexeme.InOrder.sublist {ks ls : List Lexeme} (h : InOrder ls) (hsub : ks.Sublist ls) : InOrder ks :=
  ⟨h.places_pairwise.sublist (hsub.flatMap _), fun l hl => h.start_lt_stop l (hsub.subset hl)⟩

/-! ### The expression in the assignments -/

namespace Expr

/-- The expression without the assignments around it. -/
def peel : Expr → Expr
  | number n => number n
  | name x => name x
  | assign _ value => value.peel
  | unary op operand => unary op operand
  | binary left op right => binary left op right

variable {d e : Expr} {l : Lexeme} {ls : List Lexeme}

theorem peel_mem_preorder (e : Expr) : e.peel ∈ e.preorder := by
  induction e with
  | number | name | unary | binary => exact List.mem_cons_self
  | assign x value ih => exact List.mem_cons_of_mem _ ih

theorem stop_peel (e : Expr) : e.peel.stop = e.stop := by
  induction e with
  | number | name | unary | binary => rfl
  | assign x value ih => exact ih

theorem lexemes_peel_sublist (e : Expr) : e.peel.lexemes.Sublist e.lexemes :=
  lexemes_sublist_of_mem e.peel_mem_preorder

theorem exists_start_peel (e : Expr) : ∃ l ∈ e.lexemes, e.peel.start = l.span.start := by
  obtain ⟨l, hl, hstart⟩ := e.peel.exists_first
  exact ⟨l, e.lexemes_peel_sublist.subset (List.mem_of_mem_head? hl), hstart⟩

theorem mem_preorder_of_mem_postorder (h : d ∈ e.postorder) : d ∈ e.preorder := by
  induction e with
  | number | name => exact h
  | assign x value ih | unary op operand ih =>
      obtain h | h := List.mem_append.mp h
      · exact List.mem_cons_of_mem _ (ih h)
      · exact List.mem_cons.mpr (.inl (List.mem_singleton.mp h))
  | binary left op right ihleft ihright =>
      rw [preorder, List.mem_cons, List.mem_append]
      obtain h | h := List.mem_append.mp h
      · exact .inr (.inl (ihleft h))
      obtain h | h := List.mem_append.mp h
      · exact .inr (.inr (ihright h))
      · exact .inl (List.mem_singleton.mp h)

/-- What begins at a later lexeme starts at a later place. -/
theorem lt_start (h : Lexeme.InOrder (l :: ls)) (hd : d.lexemes.Sublist ls) : l.span.start < d.start := by
  obtain ⟨first, hfirst, hstart⟩ := d.exists_first
  have hmem : first ∈ ls := hd.subset (List.mem_of_mem_head? hfirst)
  rw [hstart]
  exact (List.rel_of_pairwise_cons h.pairwise hmem).1

theorem start_peel_eq_iff (h : Lexeme.InOrder e.lexemes) : e.peel.start = e.start ↔ e.peel = e := by
  cases e with
  | number | name | unary | binary => exact iff_of_true rfl rfl
  | assign x value =>
      have hlt : (assign x value).start < value.peel.start := lt_start h value.lexemes_peel_sublist
      constructor
      · intro hstart
        exact absurd hstart.symm (Position.ne_of_lt hlt)
      · exact congrArg start

/-- The span ends where the operation does, and starts where its first operand does without the assignments around it.
So it leaves out a sign, and it has all of another operation only if there is no such assignment. -/
def CoveredFromOperand (node : Expr) (span : Span) : Prop :=
  span.stop = node.stop ∧
    ((∃ op operand, node = unary op operand ∧ op.value = .minus ∧ span.start = operand.peel.start ∧
        node.start < span.start) ∨
      ∃ left op right, node = binary left op right ∧ op.value ∈ [.add, .sub, .mul, .pow] ∧
        span.start = left.peel.start ∧ (span.start = node.start ↔ left.peel = left))

end Expr

/-! ### What is wrong with the operands -/

namespace Num

variable {op : BinaryOp} {a b : Num}

theorem arithmetic_ne_divisionByZero (onInts : Int → Int → Int) (onFloats : Float → Float → Float) (a b : Num) :
    arithmetic onInts onFloats a b ≠ .error .divisionByZero := by
  intro h
  unfold arithmetic at h
  split at h
  · split at h <;> cases h
  · cases h

theorem power_ne_divisionByZero (h : ¬(a.isZero && b.isNegative)) : power a b ≠ .error .divisionByZero := by
  intro hpower
  unfold power at hpower
  rw [if_neg h] at hpower
  split at hpower
  · split at hpower
    · split at hpower <;> cases hpower
    · cases hpower
  · cases hpower

theorem zero_of_apply (h : apply op a b = .error .divisionByZero) :
    (op = .div ∧ b.isZero) ∨ (op = .pow ∧ a.isZero ∧ b.isNegative) := by
  cases op with
  | add | sub | mul => exact absurd h (arithmetic_ne_divisionByZero _ _ a b)
  | div =>
      rw [apply, divide] at h
      split at h
      · next hzero => exact .inl ⟨rfl, hzero⟩
      · cases h
  | pow =>
      by_cases hzero : a.isZero && b.isNegative
      · exact .inr ⟨rfl, Bool.and_eq_true_iff.mp hzero⟩
      · exact absurd h (power_ne_divisionByZero hzero)
  | or | and | equal | notEqual | less | greater | lessEqual | greaterEqual => cases h

theorem op_of_overflow (h : apply op a b = .error .overflow) : op ∈ [.add, .sub, .mul, .pow] := by
  cases op with
  | add | sub | mul | pow => decide
  | div =>
      rw [apply, divide] at h
      split at h <;> cases h
  | or | and | equal | notEqual | less | greater | lessEqual | greaterEqual => cases h

end Num

/-! ### The node to blame -/

namespace Walk

/-- What a failing node makes evaluation say, and where. -/
inductive Blames (w : Walk) : Expr → String → Span → Prop
  | undefined {x} (hname : w.names x.value = none) :
      Blames w (.name x) ("'" ++ x.value ++ "' is not defined") x.span
  | divisor {left op right a b stack} (hstack : w.stack = b :: a :: stack)
      (hzero : (op.value = .div ∧ b.num.isZero) ∨ (op.value = .pow ∧ a.num.isZero ∧ b.num.isNegative)) :
      Blames w (.binary left op right) "Division by zero" right.peel.span
  | operands {left op right a b stack} (hstack : w.stack = b :: a :: stack)
      (hoverflow : Num.apply op.value a.num b.num = .error .overflow) :
      Blames w (.binary left op right) "Integer overflow" (left.peel.span.enclose right.peel.span)
  | operand {op operand v stack} (hstack : w.stack = v :: stack) (hminus : op.value = .minus)
      (hoverflow : Num.apply .mul v.num (.int (-1)) = .error .overflow) :
      Blames w (.unary op operand) "Integer overflow" operand.peel.span

variable {w : Walk} {node left right operand : Expr} {a b v : Value} {stack : List Value} {fault : Fault}
  {message : String} {span : Span}

theorem blames_of_apply {op : Located BinaryOp} (hstack : w.stack = b :: a :: stack)
    (ha : a.span = left.peel.span) (hb : b.span = right.peel.span) (h : a.apply op.value b = .error fault) :
    w.Blames (.binary left op right) fault.error.message fault.span := by
  rw [Value.apply] at h
  split at h <;> cases h
  · next hzero =>
    rw [hb]
    exact .divisor hstack (Num.zero_of_apply hzero)
  · next hoverflow =>
    rw [ha, hb]
    exact .operands hstack hoverflow

theorem blames_of_applyUnary {op : Located UnaryOp} (hstack : w.stack = v :: stack)
    (hv : v.span = operand.peel.span) (h : v.applyUnary op.value = .error fault) :
    w.Blames (.unary op operand) fault.error.message fault.span := by
  cases hop : op.value with
  | plus | not =>
      rw [hop] at h
      cases h
  | minus =>
      rw [hop, Value.applyUnary, Value.negate, Value.apply] at h
      split at h <;> cases h
      · next hzero => exact absurd hzero (Num.arithmetic_ne_divisionByZero _ _ _ _)
      · next hoverflow =>
        -- the factor -1 has the span of the operand
        show w.Blames _ _ (v.span.enclose v.span)
        rw [hv]
        exact .operand hstack hop hoverflow

theorem Blames.of_overflow (h : w.Blames node "Integer overflow" span) (horder : Lexeme.InOrder node.lexemes) :
    node.CoveredFromOperand span := by
  generalize hmessage : "Integer overflow" = message at h
  cases h with
  | undefined =>
      have hquote := congrArg (·.toList.head?) hmessage
      simp at hquote
  | divisor => exact absurd hmessage (by decide)
  | @operands left op right _ _ _ _ hoverflow =>
      refine ⟨right.stop_peel, .inr ⟨left, op, right, rfl, Num.op_of_overflow hoverflow, rfl, ?_⟩⟩
      exact Expr.start_peel_eq_iff (horder.sublist (List.sublist_append_left _ _))
  | @operand op operand _ _ _ hminus =>
      exact ⟨operand.stop_peel, .inl ⟨op, operand, rfl, hminus, rfl, Expr.lt_start horder operand.lexemes_peel_sublist⟩⟩

/-- What is blamed begins with a lexeme of the node. -/
theorem Blames.exists_start (h : w.Blames node message span) : ∃ l ∈ node.lexemes, span.start = l.span.start := by
  cases h with
  | @undefined x => exact ⟨_, List.mem_singleton_self _, rfl⟩
  | @divisor left op right =>
      obtain ⟨l, hl, hstart⟩ := right.exists_start_peel
      exact ⟨l, List.mem_append_right _ (List.mem_cons_of_mem _ hl), hstart⟩
  | @operands left op right =>
      obtain ⟨l, hl, hstart⟩ := left.exists_start_peel
      exact ⟨l, List.mem_append_left _ hl, hstart⟩
  | @operand op operand =>
      obtain ⟨l, hl, hstart⟩ := operand.exists_start_peel
      exact ⟨l, List.mem_cons_of_mem _ hl, hstart⟩

end Walk

/-! ### Evaluation -/

namespace Interpreter

open Walk

variable {i i' : Interpreter} {frame : FrameId} {e : Expr} {v : Value} {error : EvalError}

/-- The walk comes to a node that is to blame for the error. -/
def FailsBy (frame : FrameId) (w : Walk) (nodes : List Expr) (error : EvalError) : Prop :=
  ∃ trace node w', FailsAt frame w nodes trace node w' ∧ w'.Blames node error.cause.message error.span

theorem FailsBy.append {w : Walk} {nodes : List Expr} (h : FailsBy frame w nodes error) (more : List Expr) :
    FailsBy frame w (nodes ++ more) error := by
  obtain ⟨trace, node, w', hnode, hblames⟩ := h
  exact ⟨trace, node, w', hnode.append more, hblames⟩

theorem FailsBy.behind {w w' : Walk} {nodes nodes' : List Expr} {trace : List (Expr × Value)}
    (h : FailsBy frame w' nodes' error) (hnodes : Passes frame w nodes trace w') :
    FailsBy frame w (nodes ++ nodes') error := by
  obtain ⟨trace', node, w'', hnode, hblames⟩ := h
  exact ⟨_, node, w'', hnodes.failsAt hnode, hblames⟩

/-- The place of what evaluation came to: a result stands where the expression does in its assignments, and for an
error there is a node to blame. -/
def Placed (frame : FrameId) (w : Walk) (e : Expr) : Except EvalError Value → Prop
  | .ok v => v.span = e.peel.span
  | .error error => FailsBy frame w e.postorder error

/-- The node of an operation, once its operands have their values. -/
theorem placed_settle {w w' : Walk} {nodes : List Expr} {trace : List (Expr × Value)} {rest : List Value}
    {operation : Except Fault Value} (hparts : Passes frame w nodes trace w')
    (hpost : e.postorder = nodes ++ [e]) (hpeel : e.peel = e)
    (hvalue : w'.value? frame e = operation.toOption.map fun r => ({ r with span := e.span }, rest))
    (hblames : ∀ fault, operation = .error fault → w'.Blames e fault.error.message fault.span) :
    Placed frame w e (i.settle e.span operation) := by
  cases operation with
  | ok r =>
      show e.span = e.peel.span
      rw [hpeel]
  | error fault =>
      have hnode : FailsBy frame w' [e] (i.error (.arithmetic fault.error) fault.span fault.frame) :=
        ⟨[], e, w', .single hvalue, hblames fault rfl⟩
      show FailsBy frame w e.postorder _
      rw [hpost]
      exact hnode.behind hparts

/-- A part that has a value is passed by the walk. -/
theorem passes_of_eval (hframe : i.frame = frame) (stack : List Value)
    (h : i.eval e = (.ok v, i')) : ∃ trace, Passes frame ⟨i.get?, stack⟩ e.postorder trace ⟨i'.get?, v :: stack⟩ := by
  have hwalks := eval_walks hframe e stack
  rwa [h] at hwalks

theorem eval_placed (hframe : i.frame = frame) (e : Expr) (stack : List Value) :
    Placed frame ⟨i.get?, stack⟩ e (i.eval e).1 := by
  induction e generalizing i stack with
  | number n => rfl
  | name x =>
      rw [eval, read]
      cases hx : i.get? x.value with
      | some v => rfl
      | none =>
          have hvalue : (⟨i.get?, stack⟩ : Walk).value? frame (.name x) = none := by
            simp only [value?, hx, Option.map_none]
          exact ⟨[], _, _, .single hvalue, .undefined hx⟩
  | assign x value ih =>
      have hvalue := ih hframe stack
      rcases heval : i.eval value with ⟨error | v, i'⟩ <;> rw [heval] at hvalue
      · rw [eval_assign_of_error heval]
        exact FailsBy.append hvalue _
      · rw [eval_assign_of_ok heval]
        exact hvalue
  | unary op operand ih =>
      have hoperand := ih hframe stack
      rcases heval : i.eval operand with ⟨error | v, i'⟩ <;> rw [heval] at hoperand
      · rw [eval_unary_of_error heval]
        exact FailsBy.append hoperand _
      · obtain ⟨trace, hpasses⟩ := passes_of_eval hframe stack heval
        rw [eval_unary_of_ok heval]
        exact placed_settle hpasses rfl rfl rfl fun _ => blames_of_applyUnary rfl hoperand
  | binary left op right ihleft ihright =>
      have hleft := ihleft hframe stack
      rcases heval : i.eval left with ⟨error | a, i'⟩ <;> rw [heval] at hleft
      · rw [eval_binary_of_left_error heval]
        exact FailsBy.append hleft _
      have hframe' := frame_of_eval hframe heval
      obtain ⟨trace, hpasses⟩ := passes_of_eval hframe stack heval
      have hright := ihright hframe' (a :: stack)
      rcases heval' : i'.eval right with ⟨error | b, i''⟩ <;> rw [heval'] at hright
      · rw [eval_binary_of_right_error heval heval']
        exact (FailsBy.append hright _).behind hpasses
      · obtain ⟨trace', hpasses'⟩ := passes_of_eval hframe' (a :: stack) heval'
        have hpost : left.postorder ++ (right.postorder ++ [.binary left op right]) = _ :=
          (List.append_assoc ..).symm
        rw [eval_binary_of_ok heval heval']
        exact placed_settle (hpasses.append hpasses') hpost rfl rfl fun _ => blames_of_apply rfl hleft hright

/-! ### The places in the text -/

theorem FailsBy.exists_start {w : Walk} (h : FailsBy frame w e.postorder error) :
    ∃ l ∈ e.lexemes, error.span.start = l.span.start := by
  obtain ⟨trace, node, w', hnode, hblames⟩ := h
  obtain ⟨l, hl, hstart⟩ := hblames.exists_start
  have hmem : node ∈ e.preorder := Expr.mem_preorder_of_mem_postorder hnode.mem
  exact ⟨l, (Expr.lexemes_sublist_of_mem hmem).subset hl, hstart⟩

section

variable {start : Position} {text : String} {lexemes : List Lexeme} {limit : Nat}

theorem inOrder_lexemes (hscan : Token.scan start text = .ok lexemes)
    (hread : Expr.ofLexemes? limit lexemes = .ok e) : Lexeme.InOrder e.lexemes := by
  obtain ⟨ls, rest, rfl, hderives⟩ := Expr.derives_of_ofLexemes? hread
  have hkept := hderives.lexemes_sublist
  exact Token.inOrder_of_scan hscan (hkept.trans (List.sublist_append_left _ _)) fun l hl =>
    hderives.value_ne_eof l (hkept.subset hl)

/-- A result has the span of the expression without the assignments around it. An error is made by the first node that
fails when they are taken from left to right, each behind its parts: it is at the name that has no value, or at the
divisor or the exponent, or goes from the first operand to the second, where these stand without assignments around
them. In the text that the expression was read from, all of this lies in the expression. -/
theorem evaluation_place (i : Interpreter) (e : Expr) :
    (∀ v, (i.eval e).1 = .ok v → v.span = e.peel.span) ∧
      (∀ error, (i.eval e).1 = .error error → FailsBy i.frame ⟨i.get?, []⟩ e.postorder error) ∧
      ∀ {start text lexemes limit}, Token.scan start text = .ok lexemes → Expr.ofLexemes? limit lexemes = .ok e →
        (place (i.eval e).1).Within e.span := by
  have hplaced := eval_placed (i := i) rfl e []
  refine ⟨?_, ?_, ?_⟩
  · intro v hv
    rwa [hv] at hplaced
  · intro error herror
    rwa [herror] at hplaced
  · intro start text lexemes limit hscan hread
    have hplaces := (inOrder_lexemes hscan hread).places_pairwise
    rw [← Expr.places_eq] at hplaces
    exact Expr.within_span hplaces (ends_place_eval i e)

/-- The divisor is an assignment, and the zero that is assigned is to blame. -/
theorem evaluation_place_divisor :
    let on (start stop : Nat) : Span := ⟨⟨start, 0, start⟩, ⟨stop, 0, stop⟩⟩
    let e : Expr :=
      .binary (.number ⟨.int 10, on 0 2⟩) ⟨.div, on 3 4⟩ (.assign ⟨"x", on 10 11⟩ (.number ⟨.int 0, on 14 15⟩))
    let error : EvalError := ⟨.arithmetic .divisionByZero, on 14 15, some [⟨0, "<program>"⟩]⟩
    ∃ lexemes, Token.scan {} "10 / (VAR x = 0)" = .ok lexemes ∧ Expr.ofLexemes? 10 lexemes = .ok e ∧
      (fresh.eval e).1 = .error error ∧ FailsBy fresh.frame ⟨fresh.get?, []⟩ e.postorder error ∧
      error.span.Within e.span := by
  intro on e error
  let lexemes : List Lexeme :=
    [⟨.number (.int 10), on 0 2⟩, ⟨.slash, on 3 4⟩, ⟨.leftParen, on 5 6⟩, ⟨.keyword .var, on 6 9⟩,
      ⟨.identifier "x", on 10 11⟩, ⟨.equal, on 12 13⟩, ⟨.number (.int 0), on 14 15⟩, ⟨.rightParen, on 15 16⟩,
      ⟨.eof, on 16 16⟩]
  have hscan : Token.scan {} "10 / (VAR x = 0)" = .ok lexemes := by cbv
  have hread : Expr.ofLexemes? 10 lexemes = .ok e := by cbv
  have heval : (fresh.eval e).1 = .error error := by cbv
  obtain ⟨_, hfails, hwithin⟩ := evaluation_place fresh e
  have hplace := hwithin hscan hread
  rw [heval] at hplace
  exact ⟨lexemes, hscan, hread, heval, hfails error heval, hplace⟩

/-- An overflow is reported from the value of the first operand on, and not from the start of the operation. -/
theorem overflow_place (hscan : Token.scan start text = .ok lexemes)
    (hread : Expr.ofLexemes? limit lexemes = .ok e) (h : (i.eval e).1 = .error error)
    (hmessage : error.cause.message = "Integer overflow") :
    ∃ trace node w, FailsAt i.frame ⟨i.get?, []⟩ e.postorder trace node w ∧
      node.CoveredFromOperand error.span := by
  have hplaced := eval_placed (i := i) rfl e []
  rw [h] at hplaced
  obtain ⟨trace, node, w, hnode, hblames⟩ := hplaced
  have hmem : node ∈ e.preorder := Expr.mem_preorder_of_mem_postorder hnode.mem
  have horder := (inOrder_lexemes hscan hread).sublist (Expr.lexemes_sublist_of_mem hmem)
  rw [hmessage] at hblames
  exact ⟨trace, node, w, hnode, hblames.of_overflow horder⟩

/-- The sum begins at `x`, and the value of `x` four places later. -/
theorem overflow_place_assigned :
    let on (start stop : Nat) : Span := ⟨⟨start, 0, start⟩, ⟨stop, 0, stop⟩⟩
    let left : Expr := .assign ⟨"x", on 5 6⟩ (.number ⟨.int 9223372036854775807, on 9 28⟩)
    let e : Expr := .binary left ⟨.add, on 30 31⟩ (.number ⟨.int 1, on 32 33⟩)
    let error : EvalError := ⟨.arithmetic .overflow, on 9 33, some [⟨0, "<program>"⟩]⟩
    ∃ lexemes, Token.scan {} "(VAR x = 9223372036854775807) + 1" = .ok lexemes ∧
      Expr.ofLexemes? 10 lexemes = .ok e ∧ (fresh.eval e).1 = .error error ∧
      ∃ trace node w, FailsAt fresh.frame ⟨fresh.get?, []⟩ e.postorder trace node w ∧
        node.CoveredFromOperand error.span := by
  intro on left e error
  let lexemes : List Lexeme :=
    [⟨.leftParen, on 0 1⟩, ⟨.keyword .var, on 1 4⟩, ⟨.identifier "x", on 5 6⟩, ⟨.equal, on 7 8⟩,
      ⟨.number (.int 9223372036854775807), on 9 28⟩, ⟨.rightParen, on 28 29⟩, ⟨.plus, on 30 31⟩,
      ⟨.number (.int 1), on 32 33⟩, ⟨.eof, on 33 33⟩]
  have hscan : Token.scan {} "(VAR x = 9223372036854775807) + 1" = .ok lexemes := by cbv
  have hread : Expr.ofLexemes? 10 lexemes = .ok e := by cbv
  have heval : (fresh.eval e).1 = .error error := by cbv
  exact ⟨lexemes, hscan, hread, heval, overflow_place hscan hread heval rfl⟩

/-- The negation of the least integer goes from the first sign on, and its overflow is reported from the second one. -/
theorem overflow_not_at_operation :
    ¬∀ {i : Interpreter} {text : String} {lexemes : List Lexeme} {limit : Nat} {e : Expr} {error : EvalError}
        {trace : List (Expr × Value)} {node : Expr} {w : Walk}, Token.scan {} text = .ok lexemes →
      Expr.ofLexemes? limit lexemes = .ok e → (i.eval e).1 = .error error →
      error.cause.message = "Integer overflow" → FailsAt i.frame ⟨i.get?, []⟩ e.postorder trace node w →
      error.span = node.span := by
  intro h
  let on (start stop : Nat) : Span := ⟨⟨start, 0, start⟩, ⟨stop, 0, stop⟩⟩
  let lexemes : List Lexeme :=
    [⟨.minus, on 0 1⟩, ⟨.leftParen, on 1 2⟩, ⟨.minus, on 2 3⟩, ⟨.number (.int 9223372036854775807), on 3 22⟩,
      ⟨.minus, on 23 24⟩, ⟨.number (.int 1), on 25 26⟩, ⟨.rightParen, on 26 27⟩, ⟨.eof, on 27 27⟩]
  let negative : Expr := .unary ⟨.minus, on 2 3⟩ (.number ⟨.int 9223372036854775807, on 3 22⟩)
  let least : Expr := .binary negative ⟨.sub, on 23 24⟩ (.number ⟨.int 1, on 25 26⟩)
  let e : Expr := .unary ⟨.minus, on 0 1⟩ least
  let error : EvalError := ⟨.arithmetic .overflow, on 2 26, some [⟨0, "<program>"⟩]⟩
  have hscan : Token.scan {} "-(-9223372036854775807 - 1)" = .ok lexemes := by cbv
  have hread : Expr.ofLexemes? 10 lexemes = .ok e := by cbv
  have heval : (fresh.eval e).1 = .error error := by cbv
  have hleast : Passes fresh.frame ⟨fresh.get?, []⟩ least.postorder _ _ :=
    .cons rfl (.cons rfl (.cons rfl (.cons rfl .nil)))
  have hnode : FailsAt fresh.frame ⟨fresh.get?, []⟩ e.postorder _ e _ := hleast.failsAt (.single rfl)
  exact absurd (h hscan hread heval rfl hnode) (by decide)

end

end Interpreter
end LineCalc
