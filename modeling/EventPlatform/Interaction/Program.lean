import Mathlib.Logic.Relation

namespace EventPlatform.Interaction

/-- Code that talks to the outside through operations, each of which may fail.
A failure that the code does not catch ends it, keeping all earlier effects. -/
inductive Prog (ε : Type) {Op : Type} (Reply : Op → Type) (α : Type) : Type
  | ret (a : α) : Prog ε Reply α
  | fail (e : ε) : Prog ε Reply α
  | call (c : Op) (k : Except ε (Reply c) → Prog ε Reply α) : Prog ε Reply α

namespace Prog

variable {ε Op : Type} {Reply : Op → Type} {α β γ W : Type}

def bind : Prog ε Reply α → (α → Prog ε Reply β) → Prog ε Reply β
  | .ret a, f => f a
  | .fail e, _ => .fail e
  | .call c k, f => .call c (fun r ↦ (k r).bind f)

instance : Monad (Prog ε Reply) where
  pure := .ret
  bind := .bind

theorem bind_ret (p : Prog ε Reply α) : p.bind .ret = p := by
  induction p with
  | ret a | fail e => rfl
  | call c k ih => simp only [bind, ih]

theorem bind_bind (p : Prog ε Reply α) (f : α → Prog ε Reply β) (g : β → Prog ε Reply γ) :
    (p.bind f).bind g = p.bind (fun a ↦ (f a).bind g) := by
  induction p with
  | ret a | fail e => rfl
  | call c k ih => simp only [bind, ih]

instance : LawfulMonad (Prog ε Reply) :=
  LawfulMonad.mk' _ bind_ret (fun _ _ ↦ rfl) bind_bind

/-- Make one call and stop with its error if it fails. -/
def perform (c : Op) : Prog ε Reply (Reply c) :=
  .call c fun
    | .ok r => .ret r
    | .error e => .fail e

/-- Run a program to its end and return its outcome as a value. -/
def attempt : Prog ε Reply α → Prog ε Reply (Except ε α)
  | .ret a => .ret (.ok a)
  | .fail e => .ret (.error e)
  | .call c k => .call c (fun r ↦ (k r).attempt)

/-- What the outside may do on a call: the reply it gives and the world it leaves. -/
abbrev Handler (ε : Type) {Op : Type} (Reply : Op → Type) (W : Type) :=
  W → (c : Op) → Except ε (Reply c) → W → Prop

/-- The configurations that a program passes through, call by call. -/
inductive Run (H : Handler ε Reply W) (p : Prog ε Reply α) (w : W) : Prog ε Reply α → W → Prop
  | refl : Run H p w p w
  | step {w₁ w₂ : W} {c : Op} {k : Except ε (Reply c) → Prog ε Reply α} {r : Except ε (Reply c)} :
      Run H p w (.call c k) w₁ → H w₁ c r w₂ → Run H p w (k r) w₂

theorem Run.trans {H : Handler ε Reply W} {p q s : Prog ε Reply α} {w v u : W}
    (h : Run H p w q v) (h' : Run H q v s u) : Run H p w s u := by
  induction h' with
  | refl => exact h
  | step _ hs ih => exact .step ih hs

/-- A run in one world gives a run in its image. -/
theorem Run.map {V : Type} {H : Handler ε Reply W} {H' : Handler ε Reply V} (f : W → V)
    (hH : ∀ w c r w', H w c r w' → H' (f w) c r (f w')) {p q : Prog ε Reply α} {w v : W}
    (h : Run H p w q v) : Run H' p (f w) q (f v) := by
  induction h with
  | refl => exact .refl
  | step _ hs ih => exact .step ih (hH _ _ _ _ hs)

theorem Run.mono {H H' : Handler ε Reply W} (hH : ∀ w c r w', H w c r w' → H' w c r w')
    {p q : Prog ε Reply α} {w v : W} (h : Run H p w q v) : Run H' p w q v := h.map id hH

theorem Run.bind {H : Handler ε Reply W} {p q : Prog ε Reply α} {w v : W}
    (h : Run H p w q v) (f : α → Prog ε Reply β) : Run H (p.bind f) w (q.bind f) v := by
  induction h with
  | refl => exact .refl
  | step _ hs ih => exact .step ih hs

/-- Every call of `p` from `w` meets the guarantee `G`, and every outcome of `p`
meets `Q`, whatever the handler answers. -/
def Safe (H G : Handler ε Reply W) :
    Prog ε Reply α → (Except ε α → W → Prop) → W → Prop
  | .ret a, Q, w => Q (.ok a) w
  | .fail e, Q, w => Q (.error e) w
  | .call c k, Q, w => ∀ r w', H w c r w' → G w c r w' ∧ Safe H G (k r) Q w'

variable {H G : Handler ε Reply W} {Q Q' : Except ε α → W → Prop} {w : W}

theorem Safe.mono {p : Prog ε Reply α} (h : Safe H G p Q w) (hQ : ∀ r v, Q r v → Q' r v) :
    Safe H G p Q' w := by
  induction p generalizing w with
  | ret a => exact hQ _ _ h
  | fail e => exact hQ _ _ h
  | call c k ih => exact fun r v hv ↦ ⟨(h r v hv).1, ih r (h r v hv).2⟩

theorem safe_bind {p : Prog ε Reply α} {f : α → Prog ε Reply β} {R : Except ε β → W → Prop} :
    Safe H G (p >>= f) R w ↔ Safe H G p (fun
      | .ok a, v => Safe H G (f a) R v
      | .error e, v => R (.error e) v) w := by
  change Safe H G (p.bind f) R w ↔ _
  induction p generalizing w with
  | ret a => rfl
  | fail e => rfl
  | call c k ih => simp only [bind, Safe, ih]

theorem safe_perform {c : Op} {R : Except ε (Reply c) → W → Prop} :
    Safe H G (perform c) R w ↔ ∀ r w', H w c r w' → G w c r w' ∧ R r w' := by
  constructor <;> intro h r v hv
  · cases r with
    | ok r => exact h (.ok r) v hv
    | error e => exact h (.error e) v hv
  · cases r with
    | ok r => exact h (.ok r) v hv
    | error e => exact h (.error e) v hv

theorem safe_attempt {p : Prog ε Reply α} {R : Except ε (Except ε α) → W → Prop} :
    Safe H G p.attempt R w ↔ Safe H G p (fun r v ↦ R (.ok r) v) w := by
  induction p generalizing w with
  | ret a => rfl
  | fail e => rfl
  | call c k ih => simp only [attempt, Safe, ih]

/-- A guarantee that holds call by call holds along every run. -/
theorem Safe.run {p q : Prog ε Reply α} {v : W} (h : Safe H G p Q w) (hr : Run H p w q v) :
    Safe H G q Q v ∧ Relation.ReflTransGen (fun a b ↦ ∃ c r, G a c r b) w v := by
  induction hr with
  | refl => exact ⟨h, .refl⟩
  | step _ hs ih =>
    obtain ⟨hk, hg⟩ := ih
    obtain ⟨hG, hk'⟩ := hk _ _ hs
    exact ⟨hk', hg.tail ⟨_, _, hG⟩⟩

theorem Safe.invariant {I : W → Prop} (hI : ∀ w c r w', G w c r w' → I w → I w')
    {p q : Prog ε Reply α} {v : W} (h : Safe H G p Q w) (hr : Run H p w q v) (hw : I w) : I v := by
  have hg := (h.run hr).2
  clear h hr
  induction hg with
  | refl => exact hw
  | tail _ hs ih =>
    obtain ⟨c, r, hG⟩ := hs
    exact hI _ _ _ _ hG ih

/-- A second world that can answer every call of the first one alike is carried
along every run. -/
theorem Safe.simulate {V : Type} {H' : Handler ε Reply V} {R : W → V → Prop}
    (hG : ∀ w c r w', G w c r w' → ∀ v, R w v → ∃ v', H' v c r v' ∧ R w' v')
    {p q : Prog ε Reply α} {w' : W} (h : Safe H G p Q w) (hr : Run H p w q w')
    {v : V} (hv : R w v) : ∃ v', Run H' p v q v' ∧ R w' v' := by
  induction hr with
  | refl => exact ⟨v, .refl, hv⟩
  | step hr hs ih =>
    obtain ⟨v₁, hv₁, hR⟩ := ih
    obtain ⟨hG', _⟩ := (h.run hr).1 _ _ hs
    obtain ⟨v₂, hv₂, hR'⟩ := hG _ _ _ _ hG' _ hR
    exact ⟨v₂, .step hv₁ hv₂, hR'⟩

/-- An outside that leaves no choice. -/
abbrev Responder (ε : Type) {Op : Type} (Reply : Op → Type) (W : Type) :=
  W → (c : Op) → Except ε (Reply c) × W

def Responder.graph (h : Responder ε Reply W) : Handler ε Reply W := fun w c r w' ↦ h w c = (r, w')

def eval (h : Responder ε Reply W) : Prog ε Reply α → W → Except ε α × W
  | .ret a, w => (.ok a, w)
  | .fail e, w => (.error e, w)
  | .call c k, w => (k (h w c).1).eval h (h w c).2

def ofExcept : Except ε α → Prog ε Reply α
  | .ok a => .ret a
  | .error e => .fail e

theorem run_eval (h : Responder ε Reply W) (p : Prog ε Reply α) (w : W) :
    Run h.graph p w (ofExcept (p.eval h w).1) (p.eval h w).2 := by
  induction p generalizing w with
  | ret a => exact .refl
  | fail e => exact .refl
  | call c k ih =>
    have hs : Run h.graph (.call c k) w (k (h w c).1) (h w c).2 := .step (.refl) rfl
    exact hs.trans (ih _ _)

theorem eval_bind (h : Responder ε Reply W) (p : Prog ε Reply α) (f : α → Prog ε Reply β) (w : W) :
    (p >>= f).eval h w = match p.eval h w with
      | (.ok a, v) => (f a).eval h v
      | (.error e, v) => (.error e, v) := by
  change (p.bind f).eval h w = _
  induction p generalizing w with
  | ret a => rfl
  | fail e => rfl
  | call c k ih => exact ih _ _

theorem eval_bind_of_ok {h : Responder ε Reply W} {p : Prog ε Reply α} {w v : W} {a : α} (hp : p.eval h w = (.ok a, v))
    (f : α → Prog ε Reply β) : (p >>= f).eval h w = (f a).eval h v := by
  rw [eval_bind, hp]

theorem eval_perform (h : Responder ε Reply W) (c : Op) (w : W) :
    (perform c : Prog ε Reply _).eval h w = h w c := by
  unfold perform eval
  rcases h w c with ⟨r | r, v⟩ <;> rfl

theorem eval_attempt (h : Responder ε Reply W) (p : Prog ε Reply α) (w : W) :
    p.attempt.eval h w = (.ok (p.eval h w).1, (p.eval h w).2) := by
  induction p generalizing w with
  | ret a => rfl
  | fail e => rfl
  | call c k ih => exact ih _ _

end Prog

end EventPlatform.Interaction
