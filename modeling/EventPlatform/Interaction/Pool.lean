import Mathlib.Logic.Function.Basic
import Mathlib.Data.List.Forall2
import EventPlatform.Interaction.Program

namespace EventPlatform.Interaction

/-- A call that one program of a pool made, with the worlds before and after it. -/
structure Act (T W ε : Type) {Op : Type} (Reply : Op → Type) where
  who : T
  before : W
  op : Op
  reply : Except ε (Reply op)
  after : W

namespace Pool

variable {T W V ε Op α : Type} {Reply : Op → Type} [DecidableEq T]

/-- The runs of a family of programs that share one world. Any program of the family
may make its next call at any time, and between calls the world may change by itself.
A program that has made no call yet is one that has not been started. -/
inductive Runs (H : Prog.Handler ε Reply W) (env : W → W → Prop) (start : T → Prog ε Reply α) (w₀ : W) :
    List (Act T W ε Reply) → (T → Prog ε Reply α) → W → Prop
  | init : Runs H env start w₀ [] start w₀
  | call {tr : List (Act T W ε Reply)} {rest : T → Prog ε Reply α} {w w' : W} {t : T} {c : Op}
      {k : Except ε (Reply c) → Prog ε Reply α} {r : Except ε (Reply c)} :
      Runs H env start w₀ tr rest w → rest t = .call c k → H w c r w' →
      Runs H env start w₀ (tr ++ [⟨t, w, c, r, w'⟩]) (Function.update rest t (k r)) w'
  | env {tr : List (Act T W ε Reply)} {rest : T → Prog ε Reply α} {w w' : W} :
      Runs H env start w₀ tr rest w → env w w' → Runs H env start w₀ tr rest w'

variable {H : Prog.Handler ε Reply W} {env : W → W → Prop} {start : T → Prog ε Reply α} {w₀ w : W}
  {tr : List (Act T W ε Reply)} {rest : T → Prog ε Reply α}

def own (t : T) (tr : List (Act T W ε Reply)) : List (Act T W ε Reply) := tr.filter fun a ↦ a.who = t

@[simp] theorem mem_own {t : T} {a : Act T W ε Reply} : a ∈ own t tr ↔ a ∈ tr ∧ a.who = t := by
  simp [own]

theorem mem_of_own {t : T} {l : List (Act T W ε Reply)} (h : own t tr = l) (a : Act T W ε Reply) :
    a ∈ l ↔ a ∈ tr ∧ a.who = t := h ▸ mem_own

theorem own_append_self (t : T) (w : W) (c : Op) (r : Except ε (Reply c)) (w' : W) :
    own t (tr ++ [⟨t, w, c, r, w'⟩]) = own t tr ++ [⟨t, w, c, r, w'⟩] := by
  simp [own]

theorem own_append_of_ne {s t : T} (h : s ≠ t) (w : W) (c : Op) (r : Except ε (Reply c)) (w' : W) :
    own t (tr ++ [⟨s, w, c, r, w'⟩]) = own t tr := by
  simp [own, h]

/-- A property of each program and its own calls, kept by every call that it makes. -/
theorem Runs.own_invariant {I : T → List (Act T W ε Reply) → Prog ε Reply α → Prop}
    (h₀ : ∀ t, I t [] (start t))
    (hI : ∀ t l c k r w w', I t l (.call c k) → H w c r w' → I t (l ++ [⟨t, w, c, r, w'⟩]) (k r))
    (h : Runs H env start w₀ tr rest w) (t : T) : I t (own t tr) (rest t) := by
  induction h with
  | init => exact h₀ t
  | @call tr rest w w' s c k r _ hc hs ih =>
    by_cases hst : s = t
    · subst hst
      rw [own_append_self, Function.update_self]
      exact hI s _ c k r w w' (hc ▸ ih) hs
    · rw [own_append_of_ne hst, Function.update_of_ne (Ne.symm hst)]
      exact ih
  | env _ _ ih => exact ih

/-- Every call of a run was made at the end of a shorter run. -/
theorem Runs.made (h : Runs H env start w₀ tr rest w) {l l' : List (Act T W ε Reply)} {a : Act T W ε Reply}
    (htr : tr = l ++ a :: l') : ∃ rest' k, Runs H env start w₀ l rest' a.before ∧ rest' a.who = .call a.op k ∧
      H a.before a.op a.reply a.after := by
  induction h generalizing l' with
  | init => simp at htr
  | env _ _ ih => exact ih htr
  | @call tr rest w w' t c k r hrun hc hs ih =>
    obtain rfl | ⟨l', b, rfl⟩ := l'.eq_nil_or_concat
    · obtain ⟨rfl, rfl⟩ := List.append_inj' htr rfl |>.imp_right fun h ↦ List.singleton_inj.mp h
      exact ⟨rest, k, hrun, hc, hs⟩
    · rw [List.concat_eq_append, ← List.cons_append, ← List.append_assoc] at htr
      exact ih (List.append_inj' htr rfl).1

section Still

variable {l : List (Act T W ε Reply)} {a : Act T W ε Reply}

/-- Where the world does not change by itself, a run is determined by its calls. -/
theorem Runs.nil_inv (h : Runs H (fun _ _ ↦ False) start w₀ [] rest w) : rest = start ∧ w = w₀ := by
  generalize htr : ([] : List (Act T W ε Reply)) = tr at h
  cases h with
  | init => exact ⟨rfl, rfl⟩
  | call => simp at htr
  | env _ he => exact he.elim

theorem Runs.concat_inv (h : Runs H (fun _ _ ↦ False) start w₀ (l ++ [a]) rest w) :
    ∃ rest' k, Runs H (fun _ _ ↦ False) start w₀ l rest' a.before ∧ rest' a.who = .call a.op k ∧
      H a.before a.op a.reply a.after ∧ rest = Function.update rest' a.who (k a.reply) ∧ w = a.after := by
  generalize htr : l ++ [a] = tr at h
  cases h with
  | init => simp at htr
  | env _ he => exact he.elim
  | @call tr rest' w w' t c k r hrun hc hs =>
    obtain ⟨rfl, rfl⟩ := List.append_inj' htr rfl |>.imp_right fun h ↦ List.singleton_inj.mp h
    exact ⟨rest', k, hrun, hc, hs, rfl, rfl⟩

end Still

/-- Two calls made by the same program, with the same reply, in related worlds. -/
inductive Alike (R : W → V → Prop) : Act T W ε Reply → Act T V ε Reply → Prop
  | mk {t : T} {c : Op} {r : Except ε (Reply c)} {w w' : W} {v v' : V} :
      R w v → R w' v' → Alike R ⟨t, w, c, r, w'⟩ ⟨t, v, c, r, v'⟩

/-- The programs in `P` run as they would alone, if the calls of the others do not show
in a related world that answers those in `P` alike. -/
theorem Runs.restrict {H' : Prog.Handler ε Reply V} {env' : V → V → Prop} {R : W → V → Prop} {v₀ : V}
    (P : T → Prop) [DecidablePred P] (In Out : Op → Prop)
    (hin : ∀ w c r w' v, In c → H w c r w' → R w v → ∃ v', H' v c r v' ∧ R w' v')
    (hout : ∀ w c r w' v, Out c → H w c r w' → R w v → R w' v)
    (henv : ∀ w w' v, env w w' → R w v → ∃ v', env' v v' ∧ R w' v')
    (h₀ : R w₀ v₀) (h : Runs H env start w₀ tr rest w)
    (hP : ∀ a ∈ tr, P a.who → In a.op) (hN : ∀ a ∈ tr, ¬ P a.who → Out a.op) :
    ∃ tr' v, Runs H' env' start v₀ tr' (fun t ↦ if P t then rest t else start t) v ∧ R w v ∧
      List.Forall₂ (Alike R) (tr.filter fun a ↦ P a.who) tr' := by
  induction h with
  | init =>
    refine ⟨[], v₀, ?_, h₀, .nil⟩
    simpa using Runs.init
  | @call tr rest w w' t c k r _ hc hs ih =>
    simp only [List.forall_mem_append, List.forall_mem_singleton] at hP hN
    obtain ⟨tr', v, hrun, hR, hall⟩ := ih hP.1 hN.1
    by_cases ht : P t
    · obtain ⟨v', hv', hR'⟩ := hin _ _ _ _ _ (hP.2 ht) hs hR
      refine ⟨tr' ++ [⟨t, v, c, r, v'⟩], v', ?_, hR', ?_⟩
      · have ht' : (if P t then rest t else start t) = .call c k := by rw [if_pos ht, hc]
        convert hrun.call ht' hv' using 1
        funext s
        by_cases hst : s = t
        · subst hst
          simp [ht]
        · simp [Function.update_of_ne hst]
      · simpa [List.filter_append, ht] using List.rel_append hall (.cons (.mk hR hR') .nil)
    · refine ⟨tr', v, ?_, hout _ _ _ _ _ (hN.2 ht) hs hR, by simpa [List.filter_append, ht] using hall⟩
      convert hrun using 1
      funext s
      by_cases hst : s = t
      · subst hst
        simp [ht]
      · simp [Function.update_of_ne hst]
  | @env tr rest w w' _ he ih =>
    obtain ⟨tr', v, hrun, hR, hall⟩ := ih hP hN
    obtain ⟨v', hv', hR'⟩ := henv _ _ _ he hR
    exact ⟨tr', v', hrun.env hv', hR', hall⟩

end Pool

end EventPlatform.Interaction
