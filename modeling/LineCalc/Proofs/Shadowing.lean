import LineCalc.Proofs.EnvironmentLinks

/-!
Which lookups see what a scope binds. Scopes share their outer ones, so a binding can be seen from many scopes; from
each of them it is seen only if no scope before it on the chain binds the same name. Binding or unbinding a name in a
scope changes nothing but that (`Env.SameExcept`), and a lookup along a chain through the scope changes only if it
comes that far (`shadowing`).
-/

namespace LineCalc

namespace Env

variable {env env' : Env} {s t : ScopeId} {x y : String} {v : Value} {before beyond scopes : List ScopeId}

/-- The environments differ in nothing but what the scope itself binds the name to. -/
structure SameExcept (env env' : Env) (s : ScopeId) (x : String) : Prop where
  frames_eq : env'.frames = env.frames
  size_eq : env'.scopes.size = env.scopes.size
  scope_eq : ∀ t, t ≠ s → env'.scopes[t.index]? = env.scopes[t.index]?
  enclosing?_eq : ∀ t, env'.enclosing? t = env.enclosing? t
  local?_eq : ∀ t y, ¬(s = t ∧ x = y) → env'.local? t y = env.local? t y

theorem sameExcept_set (hs : s.index < env.scopes.size) : SameExcept env (env.set s x v) s x where
  frames_eq := rfl
  size_eq := size_scopes_set
  scope_eq t ht := by
    have hindex : s.index ≠ t.index := fun h => ht (congrArg ScopeId.mk h.symm)
    rw [set, Array.getElem?_modify, if_neg hindex]
  enclosing?_eq := enclosing?_set
  local?_eq t y hty := by rw [local?_set hs, if_neg hty]

theorem sameExcept_remove : SameExcept env (env.remove s x).2 s x where
  frames_eq := rfl
  size_eq := size_scopes_remove
  scope_eq t ht := by
    have hindex : s.index ≠ t.index := fun h => ht (congrArg ScopeId.mk h.symm)
    rw [remove, Array.getElem?_modify, if_neg hindex]
  enclosing?_eq := enclosing?_remove
  local?_eq t y hty := by rw [local?_remove, if_neg hty]

namespace SameExcept

theorem findSome?_eq (h : SameExcept env env' s x) (hs : s ∉ scopes ∨ x ≠ y) :
    scopes.findSome? (env'.local? · y) = scopes.findSome? (env.local? · y) := by
  induction scopes with
  | nil => rfl
  | cons t scopes ih =>
      have hfirst : ¬(s = t ∧ x = y) := by
        rintro ⟨rfl, rfl⟩
        obtain hs | hs := hs
        · exact hs List.mem_cons_self
        · exact hs rfl
      rw [List.findSome?_cons, List.findSome?_cons, h.local?_eq t y hfirst,
        ih (hs.imp_left fun hs hmem => hs (List.mem_cons_of_mem t hmem))]

/-- A lookup of another name, or one that does not go through the scope, finds what it found. -/
theorem get?_eq (h : SameExcept env env' s x) (hs : s ∉ env.chain t ∨ x ≠ y) : env'.get? t y = env.get? t y := by
  rw [get?, get?, chain_congr h.enclosing?_eq]
  exact h.findSome?_eq hs

/-- A lookup of the name that goes through the scope: only what that scope answers has changed. -/
theorem get?_of_chain (h : SameExcept env env' s x) (hchain : env.chain t = before ++ s :: beyond)
    (hnodup : (env.chain t).Nodup) :
    env'.get? t x = (before.findSome? (env.local? · x)).or
      ((env'.local? s x).or (beyond.findSome? (env.local? · x))) := by
  rw [hchain, List.nodup_append, List.nodup_cons] at hnodup
  obtain ⟨_, ⟨hbeyond, _⟩, hbefore⟩ := hnodup
  have hnotBefore : s ∉ before := fun hs => hbefore s hs s List.mem_cons_self rfl
  rw [get?, chain_congr h.enclosing?_eq, hchain, List.findSome?_append, List.findSome?_cons,
    h.findSome?_eq (.inl hnotBefore), h.findSome?_eq (.inl hbeyond)]
  cases env'.local? s x <;> rfl

/-- A lookup that ends before it comes to the scope finds what it found. -/
theorem get?_eq_of_shadowed (h : SameExcept env env' s x) (hchain : env.chain t = before ++ s :: beyond)
    (hnodup : (env.chain t).Nodup) (hshadowed : ¬∀ r ∈ before, env.local? r x = none) :
    env'.get? t x = env.get? t x := by
  rw [← List.findSome?_eq_none_iff, ← ne_eq, Option.ne_none_iff_exists'] at hshadowed
  obtain ⟨w, hw⟩ := hshadowed
  rw [h.get?_of_chain hchain hnodup, hw, get?, hchain, List.findSome?_append, hw]
  rfl

end SameExcept

/-- A lookup comes to no scope twice. -/
theorem WellLinked.nodup_chain (h : env.WellLinked) (t : ScopeId) : (env.chain t).Nodup := by
  by_cases ht : t.index < env.scopes.size
  · have hdown := (h.way_chain t ht).pairwise h.enclosing_lt
    refine hdown.imp ?_
    rintro r _ hlt rfl
    exact Nat.lt_irrefl _ hlt
  · rw [← isSome_enclosing?, Option.not_isSome_iff_eq_none] at ht
    rw [chain_eq, ht]
    exact .nil

/-- Seen from `t`, binding the name in the scope changes that name if no scope nearer to `t` binds it. -/
theorem get?_set_of_chain (hs : s.index < env.scopes.size) (hchain : env.chain t = before ++ s :: beyond)
    (hnodup : (env.chain t).Nodup) (y : String) :
    (env.set s x v).get? t y =
      if x = y ∧ ∀ r ∈ before, env.local? r x = none then some v else env.get? t y := by
  have hsame : SameExcept env (env.set s x v) s x := sameExcept_set hs
  by_cases hxy : x = y
  · subst hxy
    by_cases hfirst : ∀ r ∈ before, env.local? r x = none
    · rw [if_pos ⟨rfl, hfirst⟩, hsame.get?_of_chain hchain hnodup, List.findSome?_eq_none_iff.mpr hfirst,
        local?_set hs, if_pos ⟨rfl, rfl⟩]
      rfl
    · rw [if_neg fun h => hfirst h.2, hsame.get?_eq_of_shadowed hchain hnodup hfirst]
  · rw [if_neg fun h => hxy h.1, hsame.get?_eq (.inr hxy)]

/-- Seen from `t`, unbinding the name in the scope uncovers what the scopes beyond it give to the name, if the scope
was the first one to bind it. -/
theorem get?_remove_of_chain (hchain : env.chain t = before ++ s :: beyond) (hnodup : (env.chain t).Nodup)
    (y : String) :
    (env.remove s x).2.get? t y =
      if x = y ∧ (env.local? s x).isSome ∧ ∀ r ∈ before, env.local? r x = none then
        beyond.findSome? (env.local? · x)
      else env.get? t y := by
  have hsame : SameExcept env (env.remove s x).2 s x := sameExcept_remove
  by_cases hxy : x = y
  · subst hxy
    by_cases hfirst : ∀ r ∈ before, env.local? r x = none
    · have hbefore := List.findSome?_eq_none_iff.mpr hfirst
      rw [hsame.get?_of_chain hchain hnodup, hbefore, local?_remove, if_pos ⟨rfl, rfl⟩, Option.none_or, Option.none_or]
      split
      · rfl
      · next hunbound =>
        have hnone : env.local? s x = none :=
          Option.not_isSome_iff_eq_none.mp fun hbound => hunbound ⟨rfl, hbound, hfirst⟩
        rw [get?, hchain, List.findSome?_append, List.findSome?_cons, hbefore, hnone]
        rfl
    · rw [if_neg fun h => hfirst h.2.2, hsame.get?_eq_of_shadowed hchain hnodup hfirst]
  · rw [if_neg fun h => hxy h.1, hsame.get?_eq (.inr hxy)]

end Env

namespace Client

open Env

/-- What binding or unbinding a name in a scope changes, however the environment has been used. No other scope, no
other name and no frame changes, and unbinding a name that the scope does not bind changes nothing. The scope itself
then binds the name to the value, or no longer, after it has returned what it bound it to. A lookup changes only if it
is one of the name and goes through the scope, as the chain tells, and no scope before it binds the name: it then finds
the new value, or what the scopes beyond give to the name if the scope bound it. -/
theorem shadowing {c : Client} (hc : c.Reachable) {s : ScopeId} (hs : s.index < c.env.scopes.size) (x : String)
    (v : Value) :
    let env := c.env
    let bound := env.set s x v
    let old := (env.remove s x).1
    let unbound := (env.remove s x).2
    SameExcept env bound s x ∧ bound.local? s x = some v ∧
      SameExcept env unbound s x ∧ unbound.local? s x = none ∧ old = env.local? s x ∧
      (old = none → ∀ t y, unbound.local? t y = env.local? t y) ∧
      (∀ t, t.index < env.scopes.size → Way env.enclosing? t (env.chain t)) ∧
      (∀ t before beyond, env.chain t = before ++ s :: beyond → ∀ y,
        bound.get? t y = (if x = y ∧ ∀ r ∈ before, env.local? r x = none then some v else env.get? t y) ∧
        unbound.get? t y =
          if x = y ∧ old.isSome ∧ ∀ r ∈ before, env.local? r x = none then beyond.findSome? (env.local? · x)
          else env.get? t y) ∧
      ∀ t, s ∉ env.chain t → ∀ y, bound.get? t y = env.get? t y ∧ unbound.get? t y = env.get? t y := by
  intro env bound old unbound
  have hlinked := hc.sound.wellLinked
  have hbound : SameExcept env bound s x := sameExcept_set hs
  have hunbound : SameExcept env unbound s x := sameExcept_remove
  have hself : bound.local? s x = some v := by rw [local?_set hs, if_pos ⟨rfl, rfl⟩]
  have hself' : unbound.local? s x = none := by rw [local?_remove, if_pos ⟨rfl, rfl⟩]
  refine ⟨hbound, hself, hunbound, hself', rfl, ?_, hlinked.way_chain, ?_, ?_⟩
  · intro hold t y
    by_cases hty : s = t ∧ x = y
    · obtain ⟨rfl, rfl⟩ := hty
      exact hself'.trans hold.symm
    · exact hunbound.local?_eq t y hty
  · intro t before beyond hchain y
    have hnodup := hlinked.nodup_chain t
    exact ⟨get?_set_of_chain hs hchain hnodup y, get?_remove_of_chain hchain hnodup y⟩
  · intro t ht y
    exact ⟨hbound.get?_eq (.inl ht), hunbound.get?_eq (.inl ht)⟩

/-- In the sample the block hides what the outermost scope binds, from itself and from no other scope. -/
theorem shadowing_sample :
    sample.Reachable ∧ (⟨0⟩ : ScopeId).index < sample.env.scopes.size ∧
      (∀ v, (sample.env.set ⟨0⟩ "x" v).get? ⟨2⟩ "x" = some { num := .int 6 }) ∧
      (∀ v, (sample.env.set ⟨0⟩ "x" v).get? ⟨1⟩ "x" = some v) ∧
      (sample.env.remove ⟨2⟩ "x").2.get? ⟨2⟩ "x" = some { num := .int 5 } := by
  have hblock : sample.env.chain ⟨2⟩ = [⟨2⟩, ⟨1⟩] ++ ⟨0⟩ :: [] := by cbv
  have hinner : sample.env.chain ⟨1⟩ = [⟨1⟩] ++ ⟨0⟩ :: [] := by cbv
  have hbound : sample.env.local? ⟨2⟩ "x" = some { num := .int 6 } := by cbv
  have hunbound : sample.env.local? ⟨1⟩ "x" = none := by cbv
  have houter : sample.env.local? ⟨0⟩ "x" = some { num := .int 5 } := by cbv
  have hmain : (⟨0⟩ : ScopeId).index < sample.env.scopes.size := by decide
  have hlast : (⟨2⟩ : ScopeId).index < sample.env.scopes.size := by decide
  refine ⟨reachable_sample, hmain, fun v => ?_, fun v => ?_, ?_⟩
  · obtain ⟨_, _, _, _, _, _, _, hchains, _⟩ := shadowing reachable_sample hmain "x" v
    rw [(hchains _ _ _ hblock "x").1]
    simp [hbound, get?, hblock]
  · obtain ⟨_, _, _, _, _, _, _, hchains, _⟩ := shadowing reachable_sample hmain "x" v
    rw [(hchains _ _ _ hinner "x").1]
    simp [hunbound]
  · obtain ⟨_, _, _, _, hold, _, _, hchains, _⟩ := shadowing reachable_sample hlast "x" { num := .int 7 }
    rw [(hchains _ [] _ hblock "x").2, hold, hbound, if_pos ⟨rfl, rfl, List.forall_mem_nil _⟩]
    simp [hunbound, houter]

end Client
end LineCalc
