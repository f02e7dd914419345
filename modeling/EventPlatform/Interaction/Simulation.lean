import EventPlatform.Interaction.Pool

namespace EventPlatform.Interaction

variable {T W V ε Op α : Type} {Reply : Op → Type}

/-- The call as it shows in a part of the world. -/
def Act.map (f : W → V) (a : Act T W ε Reply) : Act T V ε Reply := ⟨a.who, f a.before, a.op, a.reply, f a.after⟩

namespace Pool

variable [DecidableEq T] {H : Prog.Handler ε Reply W} {env : W → W → Prop} {start : T → Prog ε Reply α} {w₀ w : W}
  {tr : List (Act T W ε Reply)} {rest : T → Prog ε Reply α}

/-- A run in which each call is answered as another handler may answer it is one of that handler. -/
theorem Runs.of_forall {H' : Prog.Handler ε Reply W} (h : Runs H env start w₀ tr rest w)
    (hH : ∀ a ∈ tr, H a.before a.op a.reply a.after → H' a.before a.op a.reply a.after) :
    Runs H' env start w₀ tr rest w := by
  induction h with
  | init => exact .init
  | call _ hc hs ih =>
    rw [List.forall_mem_append] at hH
    exact (ih hH.1).call hc (hH.2 _ (List.mem_singleton_self _) hs)
  | env _ he ih => exact (ih hH).env he

variable {H' : Prog.Handler ε Reply V} {env' : V → V → Prop}

/-- A run shows as a run in a part of the world, where a change of the rest is no step. -/
theorem Runs.project (f : W → V) (hH : ∀ w c r w', H w c r w' → H' (f w) c r (f w'))
    (henv : ∀ w w', env w w' → f w' = f w ∨ env' (f w) (f w')) (h : Runs H env start w₀ tr rest w) :
    Runs H' env' start (f w₀) (tr.map (Act.map f)) rest (f w) := by
  induction h with
  | init => exact .init
  | call _ hc hs ih =>
    rw [List.map_append]
    exact ih.call hc (hH _ _ _ _ hs)
  | env _ he ih =>
    obtain heq | he := henv _ _ he
    · rw [heq]
      exact ih
    · exact ih.env he

/-- Two calls of the same program on the same operation, with related worlds and replies. -/
inductive Mimics (R : W → V → Prop) (Q : ∀ c : Op, Except ε (Reply c) → Except ε (Reply c) → Prop) :
    Act T W ε Reply → Act T V ε Reply → Prop
  | mk {t : T} {c : Op} {r r' : Except ε (Reply c)} {w w' : W} {v v' : V} :
      R w v → R w' v' → Q c r r' → Mimics R Q ⟨t, w, c, r, w'⟩ ⟨t, v, c, r', v'⟩

/-- The programs cannot tell the world from a related one whose replies, where they differ, lead to the same rest. -/
theorem Runs.simulate {R : W → V → Prop} {Q : ∀ c : Op, Except ε (Reply c) → Except ε (Reply c) → Prop} {v₀ : V}
    (hcall : ∀ tr' rest v w t c k r w', Runs H' env' start v₀ tr' rest v → rest t = .call c k → R w v →
      H w c r w' → ∃ r' v', H' v c r' v' ∧ k r' = k r ∧ Q c r r' ∧ R w' v')
    (henv : ∀ w w' v, env w w' → R w v → R w' v ∨ ∃ v', env' v v' ∧ R w' v')
    (h₀ : R w₀ v₀) (h : Runs H env start w₀ tr rest w) :
    ∃ tr' v, Runs H' env' start v₀ tr' rest v ∧ R w v ∧ List.Forall₂ (Mimics R Q) tr tr' := by
  induction h with
  | init => exact ⟨[], v₀, .init, h₀, .nil⟩
  | @call tr rest w w' t c k r _ hc hs ih =>
    obtain ⟨tr', v, hrun, hR, hall⟩ := ih
    obtain ⟨r', v', hs', hk, hQ, hR'⟩ := hcall _ _ _ _ _ _ _ _ _ hrun hc hR hs
    refine ⟨tr' ++ [⟨t, v, c, r', v'⟩], v', ?_, hR', List.rel_append hall (.cons (.mk hR hR' hQ) .nil)⟩
    rw [← hk]
    exact hrun.call hc hs'
  | env _ he ih =>
    obtain ⟨tr', v, hrun, hR, hall⟩ := ih
    obtain hR' | ⟨v', he', hR'⟩ := henv _ _ _ he hR
    · exact ⟨tr', v, hrun, hR', hall⟩
    · exact ⟨tr', v', hrun.env he', hR', hall⟩

end Pool

end EventPlatform.Interaction
