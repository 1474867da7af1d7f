import LineCalc.Interpreter

/-!
What binding and unbinding a name change. Neither moves a scope or a frame, so a name is looked up along the
same scopes as before, and only the scope itself answers differently, and only for that name. Evaluation
changes an interpreter by binding names and in no other way (`eval_keeps`).
-/

namespace LineCalc

namespace Env

variable {env env' : Env} {s t : ScopeId} {x y : String} {v : Value}

/-- What encloses the scope, if there is such a scope. -/
def enclosing? (env : Env) (s : ScopeId) : Option (Option ScopeId) := env.scopes[s.index]?.map Scope.enclosing

theorem chain_eq (env : Env) (s : ScopeId) :
    env.chain s = match env.enclosing? s with
      | none => []
      | some none => [s]
      | some (some outer) => if outer.index < s.index then s :: env.chain outer else [s] := by
  rw [chain, enclosing?]
  cases env.scopes[s.index]? with
  | none => rfl
  | some scope =>
      simp only [Option.map_some]
      cases scope.enclosing <;> rfl

theorem chain_congr (h : ∀ s, env'.enclosing? s = env.enclosing? s) (s : ScopeId) :
    env'.chain s = env.chain s := by
  rw [chain_eq, chain_eq env, h]
  split
  · rfl
  · rfl
  · next outer _ =>
    by_cases houter : outer.index < s.index
    · rw [if_pos houter, if_pos houter, chain_congr h outer]
    · rw [if_neg houter, if_neg houter]
termination_by s.index

theorem chain_eq_cons (hs : s.index < env.scopes.size) : ∃ outer, env.chain s = s :: outer := by
  rw [chain_eq, enclosing?, Array.getElem?_eq_getElem hs, Option.map_some]
  split
  · contradiction
  · exact ⟨_, rfl⟩
  · split
    · exact ⟨_, rfl⟩
    · exact ⟨_, rfl⟩

@[simp] theorem enclosing?_set (t : ScopeId) : (env.set s x v).enclosing? t = env.enclosing? t := by
  rw [enclosing?, enclosing?, set, Array.getElem?_modify]
  split
  · rw [Option.map_map]
    rfl
  · rfl

@[simp] theorem enclosing?_remove (t : ScopeId) : (env.remove s x).2.enclosing? t = env.enclosing? t := by
  rw [enclosing?, enclosing?, remove, Array.getElem?_modify]
  split
  · rw [Option.map_map]
    rfl
  · rfl

theorem local?_set (hs : s.index < env.scopes.size) (t : ScopeId) (y : String) :
    (env.set s x v).local? t y = if s = t ∧ x = y then some v else env.local? t y := by
  rw [local?, local?, set, Array.getElem?_modify]
  by_cases hst : s = t
  · subst hst
    rw [if_pos rfl, Array.getElem?_eq_getElem hs, Option.map_some, Option.bind_some, Std.TreeMap.getElem?_insert]
    simp
  · have hindex : s.index ≠ t.index := fun h => hst (congrArg ScopeId.mk h)
    rw [if_neg hindex, if_neg (fun h => hst h.1)]

theorem local?_remove (t : ScopeId) (y : String) :
    (env.remove s x).2.local? t y = if s = t ∧ x = y then none else env.local? t y := by
  rw [local?, local?, remove, Array.getElem?_modify]
  by_cases hst : s = t
  · subst hst
    rw [if_pos rfl]
    cases env.scopes[s.index]? with
    | none => simp
    | some scope =>
        rw [Option.map_some, Option.bind_some, Std.TreeMap.getElem?_erase]
        simp
  · have hindex : s.index ≠ t.index := fun h => hst (congrArg ScopeId.mk h)
    rw [if_neg hindex, if_neg (fun h => hst h.1)]

/-- Seen from the scope itself, binding a name changes that name and no other. -/
theorem get?_set (hs : s.index < env.scopes.size) (y : String) :
    (env.set s x v).get? s y = if x = y then some v else env.get? s y := by
  have hchain : (env.set s x v).chain s = env.chain s := chain_congr enclosing?_set s
  rw [get?, get?, hchain]
  by_cases hxy : x = y
  · obtain ⟨outer, houter⟩ := chain_eq_cons hs
    rw [if_pos hxy, houter, List.findSome?_cons, local?_set hs, if_pos ⟨rfl, hxy⟩]
  · rw [if_neg hxy]
    congr
    funext t
    rw [local?_set hs, if_neg (fun h => hxy h.2)]

/-- In a scope that no other one encloses, a removed name is unbound. -/
theorem get?_remove (hs : env.enclosing? s = some none) (y : String) :
    (env.remove s x).2.get? s y = if x = y then none else env.get? s y := by
  have hchain : env.chain s = [s] := by rw [chain_eq, hs]
  have hchain' : (env.remove s x).2.chain s = [s] := by rw [chain_congr enclosing?_remove, hchain]
  rw [get?, get?, hchain, hchain', List.findSome?_singleton, List.findSome?_singleton, local?_remove]
  simp

end Env

namespace Interpreter

variable {i : Interpreter} {x : String} {v : Value}

theorem frame?_frame (i : Interpreter) : ∃ frame, i.env.frame? i.frame = some frame ∧ frame.scope = i.scope :=
  ⟨_, Array.getElem?_eq_getElem i.frame_lt, rfl⟩

theorem scope_index_lt (i : Interpreter) : i.scope.index < i.env.scopes.size := i.scope_lt

theorem get?_set (x y : String) (v : Value) : (i.set x v).get? y = if x = y then some v else i.get? y :=
  Env.get?_set i.scope_index_lt y

/-- Evaluation keeps what binding a name keeps. -/
theorem eval_keeps {P : Interpreter → Prop} (hset : ∀ i x v, P i → P (i.set x v)) (e : Expr) (h : P i) :
    P (i.eval e).2 := by
  induction e generalizing i with
  | number | name => exact h
  | assign x value ih =>
      have hvalue := ih h
      rcases heval : i.eval value with ⟨error | v, i'⟩ <;> rw [heval] at hvalue
      · rw [eval_assign_of_error heval]
        exact hvalue
      · rw [eval_assign_of_ok heval]
        exact hset i' x.value v hvalue
  | unary op operand ih =>
      have hoperand := ih h
      rcases heval : i.eval operand with ⟨error | v, i'⟩ <;> rw [heval] at hoperand
      · rw [eval_unary_of_error heval]
        exact hoperand
      · rw [eval_unary_of_ok heval]
        exact hoperand
  | binary left op right ihleft ihright =>
      have hleft := ihleft h
      rcases heval : i.eval left with ⟨error | a, i'⟩ <;> rw [heval] at hleft
      · rw [eval_binary_of_left_error heval]
        exact hleft
      · have hright := ihright hleft
        rcases heval' : i'.eval right with ⟨error | b, i''⟩ <;> rw [heval'] at hright
        · rw [eval_binary_of_right_error heval heval']
          exact hright
        · rw [eval_binary_of_ok heval heval']
          exact hright

theorem frame_eval (i : Interpreter) (e : Expr) : (i.eval e).2.frame = i.frame :=
  eval_keeps (P := fun j => j.frame = i.frame) (fun _ _ _ h => h) e rfl

theorem frames_eval (i : Interpreter) (e : Expr) : (i.eval e).2.env.frames = i.env.frames :=
  eval_keeps (P := fun j => j.env.frames = i.env.frames) (fun _ _ _ h => h) e rfl

/-! ### A single frame -/

/-- There is no frame but the outermost one, and no scope but its own. -/
structure SingleFrame (i : Interpreter) : Prop where
  frame_eq : i.frame = ⟨0⟩
  frames_eq : i.env.frames = #[{ name := programFrame, scope := ⟨0⟩ }]
  size_scopes : i.env.scopes.size = 1
  enclosing?_eq : i.env.enclosing? ⟨0⟩ = some none

namespace SingleFrame

theorem scope_eq (h : i.SingleFrame) : i.scope = ⟨0⟩ := by
  obtain ⟨frame, hframe, hscope⟩ := i.frame?_frame
  rw [Env.frame?, h.frame_eq, h.frames_eq] at hframe
  cases hframe
  exact hscope.symm

theorem set (h : i.SingleFrame) (x : String) (v : Value) : (i.set x v).SingleFrame :=
  ⟨h.frame_eq, h.frames_eq, Env.size_scopes_set.trans h.size_scopes,
    (Env.enclosing?_set _).trans h.enclosing?_eq⟩

theorem remove (h : i.SingleFrame) (x : String) : (i.remove x).2.SingleFrame :=
  ⟨h.frame_eq, h.frames_eq, Env.size_scopes_remove.trans h.size_scopes,
    (Env.enclosing?_remove _).trans h.enclosing?_eq⟩

theorem eval (h : i.SingleFrame) (e : Expr) : (i.eval e).2.SingleFrame :=
  eval_keeps (fun _ x v hi => hi.set x v) e h

theorem get?_remove (h : i.SingleFrame) (x y : String) :
    (i.remove x).2.get? y = if x = y then none else i.get? y :=
  Env.get?_remove (h.scope_eq ▸ h.enclosing?_eq) y

end SingleFrame

theorem singleFrame_bare : bare.SingleFrame := ⟨rfl, rfl, rfl, rfl⟩

theorem singleFrame_fresh : fresh.SingleFrame := singleFrame_bare.set "null" _

theorem get?_bare (x : String) : bare.get? x = none := by
  have hempty : (∅ : Std.TreeMap String Value)[x]? = none := Std.TreeMap.getElem?_emptyc
  rw [get?, singleFrame_bare.scope_eq, Env.get?, Env.chain_eq, singleFrame_bare.enclosing?_eq]
  exact (List.findSome?_singleton ..).trans hempty

theorem get?_fresh (x : String) :
    fresh.get? x = if "null" = x then some { num := .int 0, frame := some ⟨0⟩ } else none := by
  rw [fresh, get?_set, get?_bare]
  rfl

end Interpreter
end LineCalc
