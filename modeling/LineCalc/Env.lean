import LineCalc.Value
import Std.Data.TreeMap

/-!
Environments: scopes, which bind names to values, and frames, which record what called what. A scope may lie in
an enclosing scope, in which a name is looked up when the scope does not bind it; a frame may have a caller, and
then its scope lies in the caller's. Scopes and frames are numbered in order of creation, so a scope is enclosed
by an earlier one and a frame called by an earlier one; the walk along enclosing scopes (`Env.chain`) and the one
along callers (`Env.traceback?`) go to smaller numbers only and end. A value may have come from another environment,
of whose frames this one knows nothing: no frame is called from there, and no traceback begins there.
-/

namespace LineCalc

/-- A scope of an environment, numbered in order of creation. -/
structure ScopeId where
  index : Nat
deriving DecidableEq, Repr

/-- Names with values, and the scope in which other names are looked up. -/
structure Scope where
  bindings : Std.TreeMap String Value := ∅
  enclosing : Option ScopeId := none

/-- What is being evaluated, in which scope, and what called it: the calling frame, and the place reached there. -/
structure Frame where
  name : String
  scope : ScopeId
  caller : Option FrameId := none
  entry : Option Position := none
deriving DecidableEq, Repr

/-- One line of a traceback: the line reached in a frame, and the name of the frame. -/
structure TraceEntry where
  line : UInt64
  frameName : String
deriving DecidableEq, Repr

/-- The frames that were active, from the outermost to the innermost. -/
abbrev Traceback := List TraceEntry

structure Env where
  scopes : Array Scope := #[]
  frames : Array Frame := #[]

namespace Env

/-- Adds a scope. -/
def newScope (env : Env) (enclosing : Option ScopeId) : ScopeId × Env :=
  (⟨env.scopes.size⟩, { env with scopes := env.scopes.push { enclosing } })

/-- Adds a frame, whose scope is the next new scope. -/
def newFrame (env : Env) (name : String) (enclosing : Option ScopeId) (caller : Option FrameId)
    (entry : Option Position) : FrameId × Env :=
  let (scope, env) := env.newScope enclosing
  (⟨env.frames.size⟩, { env with frames := env.frames.push { name, scope, caller, entry } })

/-- Adds a frame that nothing called. No scope encloses its scope. -/
def rootFrame (env : Env) (name : String) : FrameId × Env :=
  env.newFrame name none none none

def frame? (env : Env) (f : FrameId) : Option Frame := env.frames[f.index]?

/-- Adds a frame called from a place in another one, if there is that other one, whose scope encloses the new
one's. -/
def enterFrame? (env : Env) (name : String) (caller : FrameId) (entry : Position) : Option (FrameId × Env) :=
  (env.frame? caller).map fun f => env.newFrame name (some f.scope) (some caller) (some entry)

/-- The scope and those around it, from the inside out. -/
def chain (env : Env) (s : ScopeId) : List ScopeId :=
  match env.scopes[s.index]? with
  | none => []
  | some scope =>
    match scope.enclosing with
    | none => [s]
    | some outer => if outer.index < s.index then s :: env.chain outer else [s]
termination_by s.index

/-- The value that the scope itself gives to a name. -/
def local? (env : Env) (s : ScopeId) (name : String) : Option Value :=
  env.scopes[s.index]?.bind fun scope => scope.bindings[name]?

/-- The value that the scope gives to a name, or the nearest scope around it. -/
def get? (env : Env) (s : ScopeId) (name : String) : Option Value :=
  (env.chain s).findSome? fun s => env.local? s name

/-- Binds a name in the scope itself. -/
def set (env : Env) (s : ScopeId) (name : String) (value : Value) : Env :=
  { env with scopes := env.scopes.modify s.index fun scope =>
      { scope with bindings := scope.bindings.insert name value } }

/-- Unbinds a name in the scope itself, and returns the value it had there. -/
def remove (env : Env) (s : ScopeId) (name : String) : Option Value × Env :=
  (env.local? s name,
    { env with scopes := env.scopes.modify s.index fun scope =>
        { scope with bindings := scope.bindings.erase name } })

@[simp] theorem size_scopes_set {env : Env} {s : ScopeId} {name : String} {value : Value} :
    (env.set s name value).scopes.size = env.scopes.size := Array.size_modify ..

@[simp] theorem size_scopes_remove {env : Env} {s : ScopeId} {name : String} :
    (env.remove s name).2.scopes.size = env.scopes.size := Array.size_modify ..

/-- The frames from the outermost caller to `f`, in which the place `reached` is reached. The others are where
they called the next one. There is no answer if one of these frames is not there. -/
def traceback? (env : Env) (f : FrameId) (reached : Position) : Option Traceback :=
  match env.frame? f with
  | none => none
  | some frame =>
    let innermost := [⟨reached.line, frame.name⟩]
    match frame.caller, frame.entry with
    | some caller, some entry =>
      if caller.index < f.index then (env.traceback? caller entry).map (· ++ innermost) else none
    | _, _ => some innermost
termination_by f.index

end Env
end LineCalc
