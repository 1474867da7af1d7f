import LineCalc.Proofs.Bindings
import Mathlib

/-!
How the scopes and frames of an environment are linked. Whoever uses an environment names a scope or a frame by a
handle that the environment has given out (`Client`). All links then go back to what is there already: a scope is
enclosed by an earlier one, a frame is called by an earlier one, and its scope lies in its caller's
(`Env.WellLinked`). One step of a client keeps this, so it holds after any number of steps, and what is followed from
a handle along the links is always there and comes to an end (`links_go_back`).
-/

namespace LineCalc

/-! ### Following links -/

/-- Followed from `a`, the links pass what is listed and end behind it. A thing that is not there has no links, not
even an end of them, so nothing on the way is missing. -/
inductive Way (link? : α → Option (Option α)) : α → List α → Prop
  | last {a} (hlast : link? a = some none) : Way link? a [a]
  | step {a b way} (hlink : link? a = some (some b)) (hmore : Way link? b way) : Way link? a (a :: way)

namespace Way

variable {link? : α → Option (Option α)} {index : α → Nat} {a : α} {way : List α}

theorem isSome (h : Way link? a way) : ∀ b ∈ way, (link? b).isSome := by
  induction h with
  | last hlast => simp [hlast]
  | step hlink _ ih => exact List.forall_mem_cons.mpr ⟨by rw [hlink]; rfl, ih⟩

theorem index_le (hdown : ∀ a b, link? a = some (some b) → index b < index a) (h : Way link? a way) :
    ∀ b ∈ way, index b ≤ index a := by
  induction h with
  | last => simp
  | step hlink _ ih =>
      rw [List.forall_mem_cons]
      exact ⟨Nat.le_refl _, fun c hc => Nat.le_trans (ih c hc) (Nat.le_of_lt (hdown _ _ hlink))⟩

/-- Links that go back never come to the same thing twice. -/
theorem pairwise (hdown : ∀ a b, link? a = some (some b) → index b < index a) (h : Way link? a way) :
    way.Pairwise fun b c => index c < index b := by
  induction h with
  | last => exact List.pairwise_singleton _ _
  | step hlink hmore ih =>
      exact .cons (fun c hc => Nat.lt_of_le_of_lt (hmore.index_le hdown c hc) (hdown _ _ hlink)) ih

end Way

namespace Env

variable {env env' : Env} {s t : ScopeId} {f g : FrameId} {name : String} {enclosing : Option ScopeId}
  {caller : Option FrameId} {entry : Option Position} {frame : Frame}

/-- What called the frame, if there is such a frame. -/
def caller? (env : Env) (f : FrameId) : Option (Option FrameId) := (env.frame? f).map Frame.caller

/-- The scope of the frame, if there is such a frame. -/
def scopeOf? (env : Env) (f : FrameId) : Option ScopeId := (env.frame? f).map Frame.scope

theorem isSome_enclosing? : (env.enclosing? s).isSome ↔ s.index < env.scopes.size := by
  rw [enclosing?, Option.isSome_map, isSome_getElem?]

theorem isSome_frame? : (env.frame? f).isSome ↔ f.index < env.frames.size := by
  rw [frame?, isSome_getElem?]

theorem frame?_of_lt (hf : f.index < env.frames.size) : ∃ frame, env.frame? f = some frame :=
  Option.isSome_iff_exists.mp (isSome_frame?.mpr hf)

theorem lt_of_frame? (h : env.frame? f = some frame) : f.index < env.frames.size :=
  isSome_frame?.mp (Option.isSome_of_mem h)

theorem enclosing?_newScope (t : ScopeId) :
    (env.newScope enclosing).2.enclosing? t =
      if t.index = env.scopes.size then some enclosing else env.enclosing? t := by
  rw [enclosing?, enclosing?, newScope, Array.getElem?_push]
  split <;> rfl

theorem size_scopes_newScope : (env.newScope enclosing).2.scopes.size = env.scopes.size + 1 := Array.size_push _

theorem size_scopes_newFrame :
    (env.newFrame name enclosing caller entry).2.scopes.size = env.scopes.size + 1 := Array.size_push _

theorem size_frames_newFrame :
    (env.newFrame name enclosing caller entry).2.frames.size = env.frames.size + 1 := Array.size_push _

theorem frame?_newFrame (g : FrameId) :
    (env.newFrame name enclosing caller entry).2.frame? g =
      if g.index = env.frames.size then some { name, scope := ⟨env.scopes.size⟩, caller, entry }
      else env.frame? g := by
  rw [frame?, frame?, newFrame, newScope, Array.getElem?_push]

theorem enclosing?_newFrame (t : ScopeId) :
    (env.newFrame name enclosing caller entry).2.enclosing? t =
      if t.index = env.scopes.size then some enclosing else env.enclosing? t :=
  enclosing?_newScope t

theorem frame?_newFrame_cases (h : (env.newFrame name enclosing caller entry).2.frame? g = some frame) :
    g = ⟨env.frames.size⟩ ∧ frame = { name, scope := ⟨env.scopes.size⟩, caller, entry } ∨
      g.index < env.frames.size ∧ env.frame? g = some frame := by
  rw [frame?_newFrame] at h
  split at h
  · next hg => exact .inl ⟨congrArg FrameId.mk hg, (Option.some.inj h).symm⟩
  · exact .inr ⟨lt_of_frame? h, h⟩

theorem newFrame_of_enterFrame? {place : Position} (h : env.enterFrame? name g place = some (f, env')) :
    ∃ frame, env.frame? g = some frame ∧ f = ⟨env.frames.size⟩ ∧
      env' = (env.newFrame name (some frame.scope) (some g) (some place)).2 := by
  obtain ⟨frame, hframe, hnew⟩ := Option.map_eq_some_iff.mp h
  cases hnew
  exact ⟨frame, hframe, rfl, rfl⟩

/-- Adding a frame leaves the scopes of the others as they are. -/
theorem bind_scopeOf?_newFrame {known : Option FrameId} (hknown : ∀ g ∈ known, g.index < env.frames.size) :
    known.bind (env.newFrame name enclosing caller entry).2.scopeOf? = known.bind env.scopeOf? := by
  refine Option.bind_congr fun g hg => ?_
  rw [scopeOf?, scopeOf?, frame?_newFrame, if_neg (Nat.ne_of_lt (hknown g hg))]

/-! ### The invariant -/

/-- All links go back to scopes and frames that are there. No two frames share a scope, a frame knows where it was
called exactly if it was called, and exactly its caller's scope encloses its own. -/
structure WellLinked (env : Env) : Prop where
  enclosing_lt : ∀ s outer, env.enclosing? s = some (some outer) → outer.index < s.index
  scope_lt : ∀ f frame, env.frame? f = some frame → frame.scope.index < env.scopes.size
  scope_injective : ∀ f g frame frame', env.frame? f = some frame → env.frame? g = some frame' →
    frame.scope = frame'.scope → f = g
  caller_lt : ∀ f g, env.caller? f = some (some g) → g.index < f.index
  entry_iff : ∀ f frame, env.frame? f = some frame → (frame.entry.isSome ↔ frame.caller.isSome)
  enclosing_eq : ∀ f frame, env.frame? f = some frame →
    env.enclosing? frame.scope = some (frame.caller.bind env.scopeOf?)

namespace WellLinked

theorem empty : WellLinked {} := by
  have hframe : ∀ f frame, ({} : Env).frame? f = some frame → False := by simp [frame?]
  constructor
  · simp [enclosing?]
  · exact fun f frame h => (hframe f frame h).elim
  · exact fun f g frame frame' h => (hframe f frame h).elim
  · simp [caller?, frame?]
  · exact fun f frame h => (hframe f frame h).elim
  · exact fun f frame h => (hframe f frame h).elim

theorem caller_lt_size (h : env.WellLinked) (hframe : env.frame? f = some frame) :
    ∀ g ∈ frame.caller, g.index < env.frames.size := by
  intro g hg
  have hcalled : env.caller? f = some (some g) := Option.map_eq_some_iff.mpr ⟨frame, hframe, hg⟩
  exact Nat.lt_trans (h.caller_lt f g hcalled) (lt_of_frame? hframe)

/-- What changes no links keeps them in order. -/
theorem of_links_eq (h : env.WellLinked) (hframes : env'.frames = env.frames)
    (hsize : env'.scopes.size = env.scopes.size) (henclosing : ∀ s, env'.enclosing? s = env.enclosing? s) :
    env'.WellLinked := by
  have hframe : env'.frame? = env.frame? := by
    funext f
    rw [frame?, frame?, hframes]
  have hscope : env'.scopeOf? = env.scopeOf? := by
    funext f
    rw [scopeOf?, scopeOf?, hframe]
  constructor
  · simpa only [henclosing] using h.enclosing_lt
  · simpa only [hframe, hsize] using h.scope_lt
  · simpa only [hframe] using h.scope_injective
  · simpa only [caller?, hframe] using h.caller_lt
  · simpa only [hframe] using h.entry_iff
  · simpa only [hframe, henclosing, hscope] using h.enclosing_eq

theorem newScope (h : env.WellLinked) (hscope : ∀ s ∈ enclosing, s.index < env.scopes.size) :
    (env.newScope enclosing).2.WellLinked := by
  constructor
  · intro s outer houter
    rw [enclosing?_newScope] at houter
    split at houter
    · next hs =>
      rw [hs]
      exact hscope outer (Option.some.inj houter)
    · exact h.enclosing_lt s outer houter
  · intro f frame hframe
    rw [size_scopes_newScope]
    exact Nat.lt_succ_of_lt (h.scope_lt f frame hframe)
  · exact h.scope_injective
  · exact h.caller_lt
  · exact h.entry_iff
  · intro f frame hframe
    have hne : frame.scope.index ≠ env.scopes.size := Nat.ne_of_lt (h.scope_lt f frame hframe)
    rw [enclosing?_newScope, if_neg hne]
    exact h.enclosing_eq f frame hframe

/-- A new frame is called by one that is there and lies in its scope, or it has no caller and lies in no scope. -/
theorem newFrame (h : env.WellLinked) (hcaller : ∀ g ∈ caller, g.index < env.frames.size)
    (hentry : entry.isSome ↔ caller.isSome) (henclosing : enclosing = caller.bind env.scopeOf?) :
    (env.newFrame name enclosing caller entry).2.WellLinked := by
  have hscope : ∀ s ∈ enclosing, s.index < env.scopes.size := by
    intro s hs
    rw [henclosing] at hs
    obtain ⟨g, _, hg⟩ := Option.bind_eq_some_iff.mp hs
    obtain ⟨frame, hframe, rfl⟩ := Option.map_eq_some_iff.mp hg
    exact h.scope_lt g frame hframe
  have hlinked := h.newScope hscope
  -- each frame is the new one, or one of the frames that were there
  constructor
  · exact hlinked.enclosing_lt
  · intro f frame hframe
    rw [size_scopes_newFrame]
    obtain ⟨_, rfl⟩ | ⟨_, hframe⟩ := frame?_newFrame_cases hframe
    · exact Nat.lt_succ_self _
    · exact Nat.lt_succ_of_lt (h.scope_lt f frame hframe)
  · intro f g frame frame' hframe hframe' hscopes
    obtain ⟨rfl, rfl⟩ | ⟨_, hframe⟩ := frame?_newFrame_cases hframe <;>
      obtain ⟨rfl, rfl⟩ | ⟨_, hframe'⟩ := frame?_newFrame_cases hframe'
    · rfl
    · have hlt := h.scope_lt g frame' hframe'
      rw [← hscopes] at hlt
      exact absurd hlt (Nat.lt_irrefl _)
    · have hlt := h.scope_lt f frame hframe
      rw [hscopes] at hlt
      exact absurd hlt (Nat.lt_irrefl _)
    · exact h.scope_injective f g frame frame' hframe hframe' hscopes
  · intro f g hcalled
    obtain ⟨frame, hframe, hg⟩ := Option.map_eq_some_iff.mp hcalled
    obtain ⟨rfl, rfl⟩ | ⟨_, hframe⟩ := frame?_newFrame_cases hframe
    · exact hcaller g hg
    · exact h.caller_lt f g (Option.map_eq_some_iff.mpr ⟨frame, hframe, hg⟩)
  · intro f frame hframe
    obtain ⟨_, rfl⟩ | ⟨_, hframe⟩ := frame?_newFrame_cases hframe
    · exact hentry
    · exact h.entry_iff f frame hframe
  · intro f frame hframe
    rw [enclosing?_newFrame]
    obtain ⟨_, rfl⟩ | ⟨_, hframe⟩ := frame?_newFrame_cases hframe
    · rw [if_pos rfl, bind_scopeOf?_newFrame hcaller, henclosing]
    · rw [if_neg (Nat.ne_of_lt (h.scope_lt f frame hframe)), bind_scopeOf?_newFrame (h.caller_lt_size hframe)]
      exact h.enclosing_eq f frame hframe

theorem rootFrame (h : env.WellLinked) : (env.rootFrame name).2.WellLinked :=
  h.newFrame nofun (by simp) rfl

theorem enterFrame? {place : Position} (h : env.WellLinked)
    (henter : env.enterFrame? name g place = some (f, env')) : env'.WellLinked := by
  obtain ⟨frame, hframe, _, rfl⟩ := newFrame_of_enterFrame? henter
  refine h.newFrame ?_ (by simp) ?_
  · intro g' hg'
    cases hg'
    exact lt_of_frame? hframe
  · rw [Option.bind_some, scopeOf?, hframe, Option.map_some]

theorem set {x : String} {v : Value} (h : env.WellLinked) : (env.set s x v).WellLinked :=
  h.of_links_eq rfl size_scopes_set enclosing?_set

theorem remove {x : String} (h : env.WellLinked) : (env.remove s x).2.WellLinked :=
  h.of_links_eq rfl size_scopes_remove enclosing?_remove

/-! ### Where the links lead -/

/-- From a scope that is there, the links lead outwards along its chain and end. -/
theorem way_chain (h : env.WellLinked) (s : ScopeId) (hs : s.index < env.scopes.size) :
    Way env.enclosing? s (env.chain s) := by
  obtain ⟨enclosing, henclosing⟩ := Option.isSome_iff_exists.mp (isSome_enclosing?.mpr hs)
  rw [chain_eq]
  cases enclosing with
  | none =>
      rw [henclosing]
      exact .last henclosing
  | some outer =>
      have hlt := h.enclosing_lt s outer henclosing
      simp only [henclosing, if_pos hlt]
      exact .step henclosing (h.way_chain outer (Nat.lt_trans hlt hs))
termination_by s.index

/-- From a frame that is there, the links lead along its callers and end. -/
theorem exists_way_caller (h : env.WellLinked) (f : FrameId) (hf : f.index < env.frames.size) :
    ∃ way, Way env.caller? f way := by
  obtain ⟨frame, hframe⟩ := frame?_of_lt hf
  have hcaller : env.caller? f = some frame.caller := congrArg (Option.map Frame.caller) hframe
  cases hcalled : frame.caller with
  | none => exact ⟨[f], .last (by rw [hcaller, hcalled])⟩
  | some g =>
      rw [hcalled] at hcaller
      have hlt := h.caller_lt f g hcaller
      obtain ⟨way, hway⟩ := h.exists_way_caller g (Nat.lt_trans hlt hf)
      exact ⟨f :: way, .step hcaller hway⟩
termination_by f.index

end WellLinked

theorem traceback?_of_root (hframe : env.frame? f = some frame) (hcaller : frame.caller = none) (reached : Position) :
    env.traceback? f reached = some [⟨reached.line, frame.name⟩] := by
  rw [traceback?, hframe]
  simp only [hcaller]

theorem traceback?_of_called {place : Position} (hframe : env.frame? f = some frame) (hcaller : frame.caller = some g)
    (hentry : frame.entry = some place) (hlt : g.index < f.index) (reached : Position) :
    env.traceback? f reached = (env.traceback? g place).map (· ++ [⟨reached.line, frame.name⟩]) := by
  rw [traceback?, hframe]
  simp only [hcaller, hentry, if_pos hlt]

/-- The traceback of a frame goes through all its callers, the outermost first. The place reached in each of them is
where it called the next one. -/
theorem WellLinked.traceback?_eq (h : env.WellLinked) {way : List FrameId} (hway : Way env.caller? f way) :
    ∃ frames sites, way.reverse.map env.frame? = frames.map some ∧ frames.tail.map Frame.entry = sites.map some ∧
      frames.length = sites.length + 1 ∧
      ∀ reached, env.traceback? f reached =
        some (List.zipWith (fun place frame => ⟨place.line, frame.name⟩) (sites ++ [reached]) frames) := by
  induction hway with
  | @last f hlast =>
      obtain ⟨frame, hframe, hcaller⟩ := Option.map_eq_some_iff.mp hlast
      refine ⟨[frame], [], by simp [hframe], rfl, rfl, ?_⟩
      intro reached
      exact traceback?_of_root hframe hcaller reached
  | @step f g way hlink hmore ih =>
      obtain ⟨frame, hframe, hcaller⟩ := Option.map_eq_some_iff.mp hlink
      obtain ⟨frames, sites, hframes, hsites, hlength, htraceback⟩ := ih
      obtain ⟨place, hplace⟩ : ∃ place, frame.entry = some place := by
        rw [← Option.isSome_iff_exists, h.entry_iff f frame hframe, hcaller]
        rfl
      have hne : frames ≠ [] := List.ne_nil_of_length_eq_add_one hlength
      refine ⟨frames ++ [frame], sites ++ [place], ?_, ?_, ?_, ?_⟩
      · rw [List.reverse_cons, List.map_append, List.map_append, hframes, List.map_singleton, List.map_singleton,
          hframe]
      · rw [List.tail_append_of_ne_nil hne, List.map_append, List.map_append, hsites, List.map_singleton,
          List.map_singleton, hplace]
      · rw [List.length_append, List.length_append, hlength]
        rfl
      · intro reached
        have hsame : (sites ++ [place]).length = frames.length := by rw [List.length_append, hlength]; rfl
        rw [traceback?_of_called hframe hcaller hplace (h.caller_lt f g hlink), htraceback,
          List.zipWith_append hsame]
        rfl

/-- Everything that is there is there afterwards too, and no frame has changed. -/
structure Extends (env env' : Env) : Prop where
  scopes_le : env.scopes.size ≤ env'.scopes.size
  frames_le : env.frames.size ≤ env'.frames.size
  frame?_eq : ∀ f, f.index < env.frames.size → env'.frame? f = env.frame? f

theorem Extends.of_frames_eq (hscopes : env.scopes.size ≤ env'.scopes.size) (hframes : env'.frames = env.frames) :
    env.Extends env' where
  scopes_le := hscopes
  frames_le := Nat.le_of_eq (congrArg Array.size hframes.symm)
  frame?_eq f _ := by rw [frame?, frame?, hframes]

theorem Extends.newFrame : env.Extends (env.newFrame name enclosing caller entry).2 where
  scopes_le := by rw [size_scopes_newFrame]; exact Nat.le_succ _
  frames_le := by rw [size_frames_newFrame]; exact Nat.le_succ _
  frame?_eq f hf := by rw [frame?_newFrame, if_neg (Nat.ne_of_lt hf)]

end Env

/-! ### Clients -/

/-- An environment, and the handles of its scopes and frames that were given out. -/
structure Client where
  env : Env := {}
  scopes : List ScopeId := []
  frames : List FrameId := []

namespace Client

variable {c c' : Client}

/-- What can be done with the environment, with no handles but those that were given out. Looking at a frame gives out
its scope and its caller. -/
inductive Step : Client → Client → Prop
  | newScope {c enclosing} (hscope : ∀ s ∈ enclosing, s ∈ c.scopes) :
      Step c { c with env := (c.env.newScope enclosing).2, scopes := (c.env.newScope enclosing).1 :: c.scopes }
  | rootFrame {c name} :
      Step c { c with env := (c.env.rootFrame name).2, frames := (c.env.rootFrame name).1 :: c.frames }
  | enterFrame {c name caller entry f env} (hcaller : caller ∈ c.frames)
      (henter : c.env.enterFrame? name caller entry = some (f, env)) :
      Step c { c with env, frames := f :: c.frames }
  | frame {c f frame} (hf : f ∈ c.frames) (hframe : c.env.frame? f = some frame) :
      Step c { c with scopes := frame.scope :: c.scopes, frames := frame.caller.toList ++ c.frames }
  | set {c s x v} (hs : s ∈ c.scopes) : Step c { c with env := c.env.set s x v }
  | remove {c s x} (hs : s ∈ c.scopes) : Step c { c with env := (c.env.remove s x).2 }

/-- The client has used an environment that was empty at first. -/
def Reachable (c : Client) : Prop := Relation.ReflTransGen Step {} c

/-- All links are in order, and all handles are of scopes and frames that are there. -/
structure Sound (c : Client) : Prop where
  wellLinked : c.env.WellLinked
  scope_lt : ∀ s ∈ c.scopes, s.index < c.env.scopes.size
  frame_lt : ∀ f ∈ c.frames, f.index < c.env.frames.size

theorem Step.extends_env (hstep : Step c c') : c.env.Extends c'.env := by
  cases hstep with
  | newScope => exact .of_frames_eq (by rw [Env.size_scopes_newScope]; exact Nat.le_succ _) rfl
  | rootFrame => exact .newFrame
  | enterFrame hcaller henter =>
      obtain ⟨frame, _, _, rfl⟩ := Env.newFrame_of_enterFrame? henter
      exact .newFrame
  | frame => exact .of_frames_eq (Nat.le_refl _) rfl
  | set => exact .of_frames_eq (Nat.le_of_eq Env.size_scopes_set.symm) rfl
  | remove => exact .of_frames_eq (Nat.le_of_eq Env.size_scopes_remove.symm) rfl

theorem Sound.step (h : c.Sound) (hstep : Step c c') : c'.Sound := by
  -- the handles that were given out before
  have hscope : ∀ s ∈ c.scopes, s.index < c'.env.scopes.size :=
    fun s hs => Nat.lt_of_lt_of_le (h.scope_lt s hs) hstep.extends_env.scopes_le
  have hframe : ∀ f ∈ c.frames, f.index < c'.env.frames.size :=
    fun f hf => Nat.lt_of_lt_of_le (h.frame_lt f hf) hstep.extends_env.frames_le
  cases hstep with
  | newScope henclosing =>
      refine ⟨h.wellLinked.newScope fun s hs => h.scope_lt s (henclosing s hs), ?_, hframe⟩
      refine List.forall_mem_cons.mpr ⟨?_, hscope⟩
      rw [Env.size_scopes_newScope]
      exact Nat.lt_succ_self _
  | rootFrame =>
      refine ⟨h.wellLinked.rootFrame, hscope, List.forall_mem_cons.mpr ⟨?_, hframe⟩⟩
      rw [Env.rootFrame, Env.size_frames_newFrame]
      exact Nat.lt_succ_self _
  | enterFrame hcaller henter =>
      refine ⟨h.wellLinked.enterFrame? henter, hscope, List.forall_mem_cons.mpr ⟨?_, hframe⟩⟩
      obtain ⟨frame, _, rfl, rfl⟩ := Env.newFrame_of_enterFrame? henter
      rw [Env.size_frames_newFrame]
      exact Nat.lt_succ_self _
  | @frame f frame _ hfound =>
      refine ⟨h.wellLinked, List.forall_mem_cons.mpr ⟨h.wellLinked.scope_lt f frame hfound, hscope⟩, ?_⟩
      refine List.forall_mem_append.mpr ⟨fun g hg => ?_, hframe⟩
      exact h.wellLinked.caller_lt_size hfound g (Option.mem_toList.mp hg)
  | set => exact ⟨h.wellLinked.set, hscope, hframe⟩
  | remove => exact ⟨h.wellLinked.remove, hscope, hframe⟩

theorem Reachable.sound (h : c.Reachable) : c.Sound := by
  induction h with
  | refl => exact ⟨.empty, nofun, nofun⟩
  | tail _ hstep ih => exact ih.step hstep

/-- However an environment has been used, its links are in order, and the handles given out are of scopes and frames
that are there. From a scope the links lead along its chain, which is all that a lookup goes through, and from a frame
along its callers, of which the traceback has one entry each. On either way nothing is missing, each link goes back,
and there is an end. -/
theorem links_go_back (hc : c.Reachable) :
    c.env.WellLinked ∧
      (∀ s ∈ c.scopes, s.index < c.env.scopes.size) ∧
      (∀ f ∈ c.frames, f.index < c.env.frames.size ∧ ∀ name entry, (c.env.enterFrame? name f entry).isSome) ∧
      (∀ s, s.index < c.env.scopes.size →
        Way c.env.enclosing? s (c.env.chain s) ∧ (∀ t ∈ c.env.chain s, t.index < c.env.scopes.size) ∧
          (c.env.chain s).Pairwise fun t outer => outer.index < t.index) ∧
      ∀ f, f.index < c.env.frames.size → ∃ way, Way c.env.caller? f way ∧
        (∀ g ∈ way, g.index < c.env.frames.size) ∧ way.Pairwise (fun g caller => caller.index < g.index) ∧
        ∀ reached, ∃ traceback, c.env.traceback? f reached = some traceback ∧ traceback.length = way.length := by
  have hsound := hc.sound
  have hlinked := hsound.wellLinked
  refine ⟨hlinked, hsound.scope_lt, ?_, ?_, ?_⟩
  · intro f hf
    refine ⟨hsound.frame_lt f hf, fun name entry => ?_⟩
    rw [Env.enterFrame?, Option.isSome_map]
    exact Env.isSome_frame?.mpr (hsound.frame_lt f hf)
  · intro s hs
    have hway := hlinked.way_chain s hs
    refine ⟨hway, fun t ht => Env.isSome_enclosing?.mp (hway.isSome t ht), ?_⟩
    exact hway.pairwise hlinked.enclosing_lt
  · intro f hf
    obtain ⟨way, hway⟩ := hlinked.exists_way_caller f hf
    refine ⟨way, hway, fun g hg => ?_, hway.pairwise hlinked.caller_lt, fun reached => ?_⟩
    · have hcaller := hway.isSome g hg
      rw [Env.caller?, Option.isSome_map] at hcaller
      exact Env.isSome_frame?.mp hcaller
    · obtain ⟨frames, sites, hframes, _, hlength, htraceback⟩ := hlinked.traceback?_eq hway
      have hway := congrArg List.length hframes
      rw [List.length_map, List.length_map, List.length_reverse] at hway
      refine ⟨_, htraceback reached, ?_⟩
      rw [List.length_zipWith, List.length_append, hway, hlength]
      exact Nat.min_self _

/-- Two frames, the second called on line 2 of the first, a block inside the second, and a name bound in the scopes of
the first frame and of the block. -/
def sample : Client :=
  let root := ({} : Env).rootFrame "main"
  let inner := root.2.newFrame "inner" (some ⟨0⟩) (some ⟨0⟩) (some ⟨10, 2, 0⟩)
  let block := inner.2.newScope (some ⟨1⟩)
  { env := (block.2.set ⟨0⟩ "x" { num := .int 5 }).set ⟨2⟩ "x" { num := .int 6 }
    scopes := [⟨2⟩, ⟨1⟩, ⟨0⟩]
    frames := [⟨0⟩, ⟨1⟩, ⟨0⟩] }

theorem reachable_sample : sample.Reachable := by
  have hroot : Reachable _ := .single (@Step.rootFrame {} "main")
  have hmain : Reachable _ := hroot.tail (@Step.frame _ ⟨0⟩ _ List.mem_cons_self rfl)
  have hinner : Reachable _ := hmain.tail (@Step.enterFrame _ "inner" ⟨0⟩ ⟨10, 2, 0⟩ _ _ List.mem_cons_self rfl)
  have hlook : Reachable _ := hinner.tail (@Step.frame _ ⟨1⟩ _ List.mem_cons_self rfl)
  have hblock : Reachable _ := hlook.tail (@Step.newScope _ (some ⟨1⟩) (by rintro _ ⟨⟩; exact List.mem_cons_self))
  have hset : Reachable _ := hblock.tail (@Step.set _ ⟨0⟩ "x" { num := .int 5 } (by decide))
  exact hset.tail (@Step.set _ ⟨2⟩ "x" { num := .int 6 } (by decide))

/-- The block lies in the inner frame's scope, which lies in the first one's, and the calls lead back to the start. -/
theorem links_go_back_sample :
    sample.Reachable ∧ sample.env.WellLinked ∧ Way sample.env.enclosing? ⟨2⟩ [⟨2⟩, ⟨1⟩, ⟨0⟩] ∧
      ∃ way, Way sample.env.caller? ⟨1⟩ way ∧
        ∀ reached, ∃ traceback, sample.env.traceback? ⟨1⟩ reached = some traceback ∧
          traceback.length = way.length := by
  obtain ⟨hlinked, _, _, hchains, hcallers⟩ := links_go_back reachable_sample
  have hchain : sample.env.chain ⟨2⟩ = [⟨2⟩, ⟨1⟩, ⟨0⟩] := by cbv
  obtain ⟨hway, _⟩ := hchains ⟨2⟩ (by decide)
  obtain ⟨way, hcaller, _, _, hlength⟩ := hcallers ⟨1⟩ (by decide)
  rw [hchain] at hway
  exact ⟨reachable_sample, hlinked, hway, way, hcaller, hlength⟩

end Client
end LineCalc
