import LineCalc.Proofs.EnvironmentLinks

/-!
What a traceback tells. It goes through the frames that led to a frame, each called by the one before, and gives for
each the line reached in it: where it called the next one, or for the last frame the place asked about. Frames never
change once they are there, so no later use of the environment makes a difference (`traceback_callers`).
-/

namespace LineCalc

namespace Env

variable {env env' env'' : Env}

theorem Extends.refl (env : Env) : env.Extends env := .of_frames_eq (Nat.le_refl _) rfl

theorem Extends.trans (h : env.Extends env') (h' : env'.Extends env'') : env.Extends env'' where
  scopes_le := Nat.le_trans h.scopes_le h'.scopes_le
  frames_le := Nat.le_trans h.frames_le h'.frames_le
  frame?_eq f hf := by rw [h'.frame?_eq f (Nat.lt_of_lt_of_le hf h.frames_le), h.frame?_eq f hf]

/-- A traceback reads the frame and its callers, all of which were there already. -/
theorem Extends.traceback?_eq (h : env.Extends env') (f : FrameId) (hf : f.index < env.frames.size)
    (reached : Position) : env'.traceback? f reached = env.traceback? f reached := by
  rw [traceback?, traceback?, h.frame?_eq f hf]
  split
  · rfl
  · split
    · next caller entry _ _ =>
      split
      · next hlt => rw [h.traceback?_eq caller (Nat.lt_trans hlt hf) entry]
      · rfl
    · rfl
termination_by f.index

end Env

namespace Client

variable {c c' : Client}

theorem extends_env (h : Relation.ReflTransGen Step c c') : c.env.Extends c'.env := by
  induction h with
  | refl => exact .refl _
  | tail _ hstep ih => exact ih.trans hstep.extends_env

/-- However the environment has been used, a frame comes at the end of a line of frames that begins with one that
nothing called. The traceback has an entry for each of them in this order, with its name and the line of the place
where it called the next one; the last entry has the line of the place asked about. It stays the same whatever is done
with the environment afterwards. -/
theorem traceback_callers (hc : c.Reachable) {f : FrameId} (hf : f.index < c.env.frames.size) :
    (∃ way, Way c.env.caller? f way) ∧
      ∀ way, Way c.env.caller? f way → ∃ frames sites, way.reverse.map c.env.frame? = frames.map some ∧
        frames.tail.map Frame.entry = sites.map some ∧ frames.length = sites.length + 1 ∧
        ∀ reached, c.env.traceback? f reached =
            some (List.zipWith (fun place frame => ⟨place.line, frame.name⟩) (sites ++ [reached]) frames) ∧
          ∀ c', Relation.ReflTransGen Step c c' → c'.env.traceback? f reached = c.env.traceback? f reached := by
  have hlinked := hc.sound.wellLinked
  refine ⟨hlinked.exists_way_caller f hf, ?_⟩
  intro way hway
  obtain ⟨frames, sites, hframes, hsites, hlength, htraceback⟩ := hlinked.traceback?_eq hway
  refine ⟨frames, sites, hframes, hsites, hlength, fun reached => ⟨htraceback reached, ?_⟩⟩
  intro c' hlater
  exact (extends_env hlater).traceback?_eq f hf reached

/-- In the sample, the inner frame was called on line 2 of the outermost one. A frame that is called later on does not
show in its traceback. -/
theorem traceback_callers_sample :
    sample.Reachable ∧ (⟨1⟩ : FrameId).index < sample.env.frames.size ∧
      sample.env.traceback? ⟨1⟩ ⟨3, 7, 3⟩ = some [⟨2, "main"⟩, ⟨7, "inner"⟩] ∧
      ∀ f env, sample.env.enterFrame? "late" ⟨1⟩ ⟨3, 7, 3⟩ = some (f, env) →
        env.traceback? ⟨1⟩ ⟨3, 7, 3⟩ = some [⟨2, "main"⟩, ⟨7, "inner"⟩] := by
  have hinner : (⟨1⟩ : FrameId).index < sample.env.frames.size := by decide
  have hway : Way sample.env.caller? ⟨1⟩ [⟨1⟩, ⟨0⟩] := .step rfl (.last rfl)
  obtain ⟨frames, sites, hframes, hsites, _, htraceback⟩ := (traceback_callers reachable_sample hinner).2 _ hway
  let main : Frame := { name := "main", scope := ⟨0⟩ }
  let inner : Frame := { name := "inner", scope := ⟨1⟩, caller := some ⟨0⟩, entry := some ⟨10, 2, 0⟩ }
  obtain rfl : [main, inner] = frames := (List.map_inj_right fun _ _ => Option.some.inj).mp hframes
  obtain rfl : [⟨10, 2, 0⟩] = sites := (List.map_inj_right fun _ _ => Option.some.inj).mp hsites
  obtain ⟨hlines, hlater⟩ := htraceback ⟨3, 7, 3⟩
  refine ⟨reachable_sample, hinner, hlines, fun f env henter => ?_⟩
  have hstep := Step.enterFrame (c := sample) (by decide) henter
  exact (hlater _ (.single hstep)).trans hlines

end Client
end LineCalc
