import LineCalc.Proofs.Bindings

/-!
Where tracebacks begin. The result of an operation belongs to the frame of its left operand, so evaluation gives no
value a frame but the current one and those of the values bound to names, and a failure is traced from one of these
(`Interpreter.FramesAre.eval`). Frames are not changed by evaluation. So if there is a traceback from each of these
frames before, then every failure has its traceback (`Interpreter.Traceable.eval`).
-/

namespace LineCalc

namespace Env

variable {env env' : Env}

/-- A traceback reads frames only. -/
theorem traceback?_congr (h : env'.frames = env.frames) (f : FrameId) (reached : Position) :
    env'.traceback? f reached = env.traceback? f reached := by
  have hframe : env'.frame? f = env.frame? f := by rw [frame?, frame?, h]
  rw [traceback?, traceback?, hframe]
  split
  · rfl
  · split
    · next caller entry _ _ =>
      split
      · next hlt => rw [traceback?_congr h caller entry]
      · rfl
    · rfl
termination_by f.index

end Env

namespace Value

variable {a b v : Value} {fault : Fault}

theorem frame_of_apply {op : BinaryOp} (h : a.apply op b = .ok v) : v.frame = a.frame := by
  rw [apply] at h
  split at h <;> cases h
  rfl

/-- The operand to blame, or both. -/
theorem place_of_apply {op : BinaryOp} (h : a.apply op b = .error fault) :
    fault.frame = a.frame ∧ (fault.span = b.span ∨ fault.span = a.span.enclose b.span) := by
  rw [apply] at h
  split at h <;> cases h
  · exact ⟨rfl, .inl rfl⟩
  · exact ⟨rfl, .inr rfl⟩

theorem frame_of_applyUnary {op : UnaryOp} (h : a.applyUnary op = .ok v) : v.frame = a.frame := by
  cases op with
  | plus | not =>
      cases h
      rfl
  | minus => exact frame_of_apply h

theorem place_of_applyUnary {op : UnaryOp} (h : a.applyUnary op = .error fault) :
    fault.frame = a.frame ∧ fault.span = a.span := by
  cases op with
  | plus | not => cases h
  | minus =>
      obtain ⟨hframe, hspan | hspan⟩ := place_of_apply h
      · exact ⟨hframe, hspan⟩
      · exact ⟨hframe, hspan⟩

end Value

namespace Interpreter

variable {P : FrameId → Prop} {i i' : Interpreter} {e : Expr} {v : Value}

/-- The current frame is one of these, and so are the frames of the values bound to names. A value without a frame
counts as one of the current frame. -/
structure FramesAre (P : FrameId → Prop) (i : Interpreter) : Prop where
  current : P i.frame
  bound : ∀ x, ∀ v ∈ i.get? x, P (v.frame.getD i.frame)

/-- What evaluation came to is of one of these frames: the value, or the traceback of the error. -/
def ComesFrom (P : FrameId → Prop) : Except EvalError Value × Interpreter → Prop
  | (.ok v, i) => P (v.frame.getD i.frame)
  | (.error error, i) => ∃ f, P f ∧ error.traceback? = i.env.traceback? f error.span.start

theorem comesFrom_error (cause : EvalError.Cause) (span : Span) {frame : Option FrameId}
    (hframe : P (frame.getD i.frame)) : ComesFrom P (.error (i.error cause span frame), i) :=
  ⟨frame.getD i.frame, hframe, rfl⟩

/-- The result of an operation is of the frame that its value or its fault is of. -/
theorem comesFrom_settle {frame : Option FrameId} (hframe : P (frame.getD i.frame)) {operation : Except Fault Value}
    (hok : ∀ v, operation = .ok v → v.frame = frame) (herror : ∀ fault, operation = .error fault → fault.frame = frame)
    (span : Span) : ComesFrom P (i.settle span operation, i) := by
  cases operation with
  | ok v =>
      show P (v.frame.getD i.frame)
      rwa [hok v rfl]
  | error fault =>
      refine comesFrom_error _ _ ?_
      rwa [herror fault rfl]

namespace FramesAre

theorem mono {Q : FrameId → Prop} (h : i.FramesAre P) (hmore : ∀ f, P f → Q f) : i.FramesAre Q :=
  ⟨hmore _ h.current, fun x v hv => hmore _ (h.bound x v hv)⟩

theorem set (h : i.FramesAre P) (x : String) (hv : P (v.frame.getD i.frame)) : (i.set x v).FramesAre P := by
  refine ⟨h.current, ?_⟩
  intro y w hw
  rw [get?_set] at hw
  split at hw
  · cases hw
    exact hv
  · exact h.bound y w hw

theorem eval (h : i.FramesAre P) (e : Expr) : ComesFrom P (i.eval e) ∧ (i.eval e).2.FramesAre P := by
  induction e generalizing i with
  | number n => exact ⟨h.current, h⟩
  | name x =>
      refine ⟨?_, h⟩
      rw [Interpreter.eval, read]
      cases hx : i.get? x.value with
      | none => exact comesFrom_error _ _ h.current
      | some v => exact h.bound x.value v hx
  | assign x value ih =>
      obtain ⟨hvalue, hafter⟩ := ih h
      rcases heval : i.eval value with ⟨error | v, i'⟩ <;> rw [heval] at hvalue hafter
      · rw [eval_assign_of_error heval]
        exact ⟨hvalue, hafter⟩
      · rw [eval_assign_of_ok heval]
        exact ⟨hvalue, hafter.set x.value hvalue⟩
  | unary op operand ih =>
      obtain ⟨hoperand, hafter⟩ := ih h
      rcases heval : i.eval operand with ⟨error | v, i'⟩ <;> rw [heval] at hoperand hafter
      · rw [eval_unary_of_error heval]
        exact ⟨hoperand, hafter⟩
      · rw [eval_unary_of_ok heval]
        refine ⟨comesFrom_settle hoperand ?_ ?_ _, hafter⟩
        · exact fun r hr => Value.frame_of_applyUnary hr
        · exact fun fault hfault => (Value.place_of_applyUnary hfault).1
  | binary left op right ihleft ihright =>
      obtain ⟨hleft, hafter⟩ := ihleft h
      rcases heval : i.eval left with ⟨error | a, i'⟩ <;> rw [heval] at hleft hafter
      · rw [eval_binary_of_left_error heval]
        exact ⟨hleft, hafter⟩
      obtain ⟨hright, hafter'⟩ := ihright hafter
      have hframe := i'.frame_eval right
      rcases heval' : i'.eval right with ⟨error | b, i''⟩ <;> rw [heval'] at hright hafter' hframe
      · rw [eval_binary_of_right_error heval heval']
        exact ⟨hright, hafter'⟩
      · rw [eval_binary_of_ok heval heval']
        have hleft' : P (a.frame.getD i''.frame) := hframe ▸ hleft
        refine ⟨comesFrom_settle hleft' ?_ ?_ _, hafter'⟩
        · exact fun r hr => Value.frame_of_apply hr
        · exact fun fault hfault => (Value.place_of_apply hfault).1

end FramesAre

/-- There is a traceback from the current frame, and from those of the values bound to names. -/
def Traceable (i : Interpreter) : Prop := i.FramesAre fun f => ∀ reached, (i.env.traceback? f reached).isSome

/-- Then a failure has its traceback, and there are tracebacks afterwards too. -/
theorem Traceable.eval (h : i.Traceable) (e : Expr) :
    (∀ error, (i.eval e).1 = .error error → error.traceback?.isSome) ∧ (i.eval e).2.Traceable := by
  obtain ⟨hresult, hafter⟩ := FramesAre.eval h e
  have hsame := Env.traceback?_congr (i.frames_eval e)
  constructor
  · intro error herror
    have hevaluation : i.eval e = (.error error, (i.eval e).2) := Prod.ext herror rfl
    rw [hevaluation] at hresult
    obtain ⟨f, hf, htraceback⟩ := hresult
    rw [htraceback, hsame]
    exact hf _
  · rw [Traceable]
    simpa only [hsame] using hafter

/-! ### A single frame -/

/-- With a single frame a traceback has one entry. From a frame that is not there, there is none. -/
theorem SingleFrame.traceback?_eq (h : i.SingleFrame) (f : FrameId) (reached : Position) :
    i.env.traceback? f reached = if f = ⟨0⟩ then some [⟨reached.line, programFrame⟩] else none := by
  rw [Env.traceback?, Env.frame?, h.frames_eq]
  obtain ⟨index⟩ := f
  cases index with
  | zero => rfl
  | succ index => simp

theorem framesAre_fresh : fresh.FramesAre (· = ⟨0⟩) := by
  refine ⟨rfl, ?_⟩
  intro x v hv
  rw [get?_fresh] at hv
  split at hv <;> cases hv
  rfl

theorem SingleFrame.traceable (h : i.SingleFrame) (hframes : i.FramesAre (· = ⟨0⟩)) : i.Traceable := by
  refine hframes.mono ?_
  rintro f rfl reached
  rw [h.traceback?_eq, if_pos rfl]
  rfl

end Interpreter
end LineCalc
