import EventPlatform.ChainMonitor.World

namespace EventPlatform.ChainMonitor

open Ethereum Interaction Prog

variable [GoEthereum]

/-- The places of `sync` at which a call is made or a loop turns, with the values
that are live there. -/
inductive Point
  | idle
  | head (headNum : UInt64)
  | tip (headNum : UInt64) (last : Block)
  | rollback (number : UInt64)
  | rolled (number : UInt64)
  | reverted
  | loop (headNum n : UInt64)
  | header (headNum n : UInt64) (hd : Header)
  | linked (headNum n : UInt64) (hd : Header)
  | fetched (headNum n : UInt64) (hd : Header) (ts : List Transfer)
  | announce (headNum n : UInt64) (es : List Event)
  | done (headNum : UInt64)
  | failed

/-- The messages for a saved block, in the order of publication. -/
def announcement (b : Block) (ts : List Transfer) (confirmed : Bool) : List Event :=
  blockEvent b ts.length confirmed :: ts.map (transferEvent · b.number confirmed)

/-- The flow of control over a call and its answer. -/
inductive Move (cfg : Config) : Point → (c : Call) → Except Err c.Reply → Point → Prop
  | head (hd : Header) : Move cfg .idle (.headerByNumber none) (.ok hd) (.head hd.number64)
  | empty (h : UInt64) : Move cfg (.head h) .lastBlock (.ok none) (.loop h cfg.startBlock)
  | last (h : UInt64) (b : Block) : Move cfg (.head h) .lastBlock (.ok (some b)) (.tip h b)
  | diverged (h : UInt64) (b : Block) (hd : Header) (hne : GoEthereum.headerHash hd ≠ b.hash) :
      Move cfg (.tip h b) (.headerByNumber (some b.number)) (.ok hd) (.rollback b.number)
  | matched (h : UInt64) (b : Block) (hd : Header) (heq : GoEthereum.headerHash hd = b.hash) :
      Move cfg (.tip h b) (.headerByNumber (some b.number)) (.ok hd) (.loop h (b.number + 1))
  | delete (n : UInt64) : Move cfg (.rollback n) (.deleteFrom n) (.ok ()) (.rolled n)
  | reorg (n : UInt64) (r : Except Err Unit) :
      Move cfg (.rolled n) (.publish (.chainReorg n)) r .reverted
  | header (h n : UInt64) (hd : Header) (hn : n ≤ h) :
      Move cfg (.loop h n) (.headerByNumber (some n)) (.ok hd) (.header h n hd)
  | orphan (h n : UInt64) (hd : Header) (b : Block) (hn : 0 < n) (hne : b.hash ≠ hd.parentHash) :
      Move cfg (.header h n hd) (.blockByNumber (n - 1)) (.ok (some b)) (.rollback (n - 1))
  | parent (h n : UInt64) (hd : Header) (prev : Option Block) (hn : 0 < n)
      (heq : ∀ b, prev = some b → b.hash = hd.parentHash) :
      Move cfg (.header h n hd) (.blockByNumber (n - 1)) (.ok prev) (.linked h n hd)
  | logs (h n : UInt64) (hd : Header) (logs : List Log) :
      Move cfg (.linked h n hd) (.filterLogs (transferQuery cfg n)) (.ok logs)
        (.fetched h n hd (logs.filterMap decode))
  | save (h n : UInt64) (hd : Header) (ts : List Transfer) :
      Move cfg (.fetched h n hd ts)
        (.saveBlock (.ofHeader n hd) ts (decide (h - n ≥ cfg.confirmations))) (.ok ())
        (.announce h n (announcement (.ofHeader n hd) ts (decide (h - n ≥ cfg.confirmations))))
  | announce (h n : UInt64) (e : Event) (es : List Event) (r : Except Err Unit) :
      Move cfg (.announce h n (e :: es)) (.publish e) r (.announce h n es)
  | confirm (h n : UInt64) (hn : ¬ n ≤ h) (hc : h ≥ cfg.confirmations) :
      Move cfg (.loop h n) (.confirmThrough (h - cfg.confirmations)) (.ok ()) (.done h)
  | error {p p' : Point} {c : Call} {r : c.Reply} (hm : Move cfg p c (.ok r) p')
      (hc : c.isPublish = false) (e : Err) : Move cfg p c (.error e) .failed

section Writes

variable {cfg : Config} {p p' : Point}

theorem Move.of_saveBlock {b : Block} {ts : List Transfer} {f : Bool}
    (h : Move cfg p (.saveBlock b ts f) (.ok ()) p') : ∃ head n hd, p = .fetched head n hd ts ∧
      b = .ofHeader n hd ∧ f = decide (head - n ≥ cfg.confirmations) ∧
      p' = .announce head n (announcement b ts f) := by
  cases h with
  | save head n hd ts => exact ⟨head, n, hd, rfl, rfl, rfl, rfl⟩

theorem Move.of_deleteFrom {n : UInt64} (h : Move cfg p (.deleteFrom n) (.ok ()) p') :
    p = .rollback n ∧ p' = .rolled n := by
  cases h with
  | delete => exact ⟨rfl, rfl⟩

theorem Move.of_confirmThrough {n : UInt64} (h : Move cfg p (.confirmThrough n) (.ok ()) p') :
    ∃ head m, p = .loop head m ∧ ¬ m ≤ head ∧ head ≥ cfg.confirmations ∧
      n = head - cfg.confirmations ∧ p' = .done head := by
  cases h with
  | confirm head m hm hc => exact ⟨head, m, rfl, hm, hc, rfl, rfl⟩

end Writes

/-- The flow of control between calls. -/
inductive Silent (cfg : Config) : Point → Point → Prop
  | genesis (h n : UInt64) (hd : Header) (hn : ¬ 0 < n) : Silent cfg (.header h n hd) (.linked h n hd)
  | next (h n : UInt64) : Silent cfg (.announce h n []) (.loop h (n + 1))
  | shallow (h n : UInt64) (hn : ¬ n ≤ h) (hc : ¬ h ≥ cfg.confirmations) :
      Silent cfg (.loop h n) (.done h)
  | cancel (h n : UInt64) (hn : n ≤ h) : Silent cfg (.loop h n) .failed
  | finish (h : UInt64) : Silent cfg (.done h) .idle
  | revert : Silent cfg .reverted .idle
  | fail : Silent cfg .failed .idle

/-- The messages still to be published for the block just saved. -/
def Point.pending : Point → List Event
  | .announce _ _ es => es
  | _ => []

def Event.isReorg : Event → Bool
  | .chainReorg _ => true
  | _ => false

theorem announcement_isReorg {b : Block} {ts : List Transfer} {f : Bool} :
    ∀ e ∈ announcement b ts f, e.isReorg = false := by
  simp [announcement, blockEvent, transferEvent, Event.isReorg]

theorem Move.pending_isReorg {cfg : Config} {p p' : Point} {c : Call} {r : Except Err c.Reply}
    (hm : Move cfg p c r p') (hp : ∀ e ∈ p.pending, e.isReorg = false) :
    ∀ e ∈ p'.pending, e.isReorg = false := by
  cases hm with
  | save => exact announcement_isReorg
  | announce head n e es r => exact fun e' he ↦ hp e' (List.mem_cons_of_mem e he)
  | _ => exact fun e he ↦ absurd he List.not_mem_nil

theorem Move.pending_eq_nil {cfg : Config} {p p' : Point} {c : Call} {r : Except Err c.Reply}
    (hm : Move cfg p c r p') (hc : c.isPublish = false) : p.pending = [] := by
  induction hm with
  | announce => cases hc
  | error _ _ _ ih => exact ih hc
  | _ => rfl

/-- The points inside a sync whose head number has the property `P`. -/
def Point.HeadIs (P : UInt64 → Prop) : Point → Prop
  | .head h | .tip h _ | .loop h _ | .header h _ _ | .linked h _ _ | .fetched h _ _ _
  | .announce h _ _ | .done h => P h
  | .idle | .rollback _ | .rolled _ | .reverted | .failed => True

theorem Move.headIs {cfg : Config} {P : UInt64 → Prop} {p p' : Point} {c : Call}
    {r : Except Err c.Reply} (hm : Move cfg p c r p') (hp : p.HeadIs P)
    (hnew : ∀ hd, (⟨c, r⟩ : Act) = ⟨.headerByNumber none, .ok hd⟩ → P hd.number64) : p'.HeadIs P := by
  cases hm with
  | head hd => exact hnew hd rfl
  | diverged | delete | reorg | orphan | error => trivial
  | _ => exact hp

omit [GoEthereum] in
theorem Silent.headIs {cfg : Config} {P : UInt64 → Prop} {p p' : Point} (hm : Silent cfg p p')
    (hp : p.HeadIs P) : p'.HeadIs P := by
  cases hm with
  | cancel | finish | revert | fail => trivial
  | _ => exact hp

variable {W : Type}

/-- A proof outline of one sync: an assertion for every point, kept by the flow of control, and
a guarantee for every call. -/
structure SyncOutline (cfg : Config) (H G : Handler Err Call.Reply W) where
  inv : Point → W → Prop
  move {p p' : Point} {c : Call} {r : Except Err c.Reply} {w w' : W} :
    Move cfg p c r p' → H w c r w' → inv p w → G w c r w' ∧ inv p' w'
  silent {p p' : Point} {w : W} : Silent cfg p p' → p' ≠ .idle → inv p w → inv p' w

namespace SyncOutline

variable {cfg : Config} {H G : Handler Err Call.Reply W} (o : SyncOutline cfg H G)

/-- What a sync that runs to its end leaves. -/
def Ends (r : Except Err Unit) (w : W) : Prop :=
  match r with
  | .ok _ => (∃ h, o.inv (.done h) w) ∨ o.inv .reverted w
  | .error _ => o.inv .failed w

variable {o} {w : W}

theorem safe_call {p : Point} (c : Call) (next : c.Reply → Point) (r₀ : c.Reply)
    (hm : ∀ r, Move cfg p c (.ok r) (next r)) (hc : c.isPublish = false) (hp : o.inv p w)
    {Q : Except Err c.Reply → W → Prop} (hok : ∀ r v, o.inv (next r) v → Q (.ok r) v)
    (herr : ∀ e v, o.inv .failed v → Q (.error e) v) : Safe H G (perform c) Q w := by
  rw [safe_perform]
  intro r v hv
  cases r with
  | error e =>
    obtain ⟨hg, hi⟩ := o.move (.error (hm r₀) hc e) hv hp
    exact ⟨hg, herr e v hi⟩
  | ok r =>
    obtain ⟨hg, hi⟩ := o.move (hm r) hv hp
    exact ⟨hg, hok r v hi⟩

theorem safe_call_bind {p : Point} (c : Call) (next : c.Reply → Point) (r₀ : c.Reply)
    (hm : ∀ r, Move cfg p c (.ok r) (next r)) (hc : c.isPublish = false) (hp : o.inv p w)
    {β : Type} {f : c.Reply → M β} {R : Except Err β → W → Prop}
    (hok : ∀ r v, o.inv (next r) v → Safe H G (f r) R v)
    (herr : ∀ e v, o.inv .failed v → R (.error e) v) : Safe H G (perform c >>= f) R w := by
  rw [safe_bind]
  exact safe_call c next r₀ hm hc hp hok herr

theorem safe_publish {p p' : Point} {e : Event} (hm : ∀ r, Move cfg p (.publish e) r p')
    (hp : o.inv p w) {β : Type} {f : Unit → M β} {R : Except Err β → W → Prop}
    (hR : ∀ v, o.inv p' v → Safe H G (f ()) R v) : Safe H G (publish e >>= f) R w := by
  unfold publish
  rw [safe_bind, safe_bind, safe_attempt, safe_perform]
  intro r v hv
  obtain ⟨hg, hi⟩ := o.move (hm r) hv hp
  exact ⟨hg, hR v hi⟩

theorem safe_rollback {n : UInt64} (hp : o.inv (.rollback n) w) :
    Safe H G (rollback n) o.Ends w := by
  refine safe_call_bind (.deleteFrom n) (fun _ ↦ .rolled n) () (fun _ ↦ .delete n) rfl hp
    (fun _ v hv ↦ ?_) (fun _ _ h ↦ h)
  rw [← bind_pure (publish _)]
  exact safe_publish (.reorg n) hv fun _ h ↦ .inr h

theorem safe_publishTransfers {h n : UInt64} {f : Bool} {ts : List Transfer}
    (hp : o.inv (.announce h n (ts.map (transferEvent · n f))) w)
    {Q : Except Err Unit → W → Prop} (hQ : ∀ v, o.inv (.announce h n []) v → Q (.ok ()) v) :
    Safe H G (publishTransfers n f ts) Q w := by
  induction ts generalizing w with
  | nil => exact hQ w hp
  | cons t ts ih => exact safe_publish (fun r ↦ .announce h n _ _ r) hp fun v hv ↦ ih hv

theorem safe_promote {h n : UInt64} (hn : ¬ n ≤ h) (hp : o.inv (.loop h n) w) :
    Safe H G (promote cfg h) o.Ends w := by
  unfold promote
  split
  · rename_i hc
    exact safe_call (.confirmThrough _) (fun _ ↦ .done h) () (fun _ ↦ .confirm h n hn hc) rfl hp
      (fun _ _ hv ↦ .inl ⟨h, hv⟩) (fun _ _ hv ↦ hv)
  · rename_i hc
    exact .inl ⟨h, o.silent (.shallow h n hn hc) nofun hp⟩

/-- The parent-linkage check ends at the rollback or at the linked header. -/
theorem safe_diverges {h n : UInt64} {hd : Header} (hp : o.inv (.header h n hd) w)
    {β : Type} {f : Bool → M β} {R : Except Err β → W → Prop}
    (ht : ∀ v, o.inv (.rollback (n - 1)) v → Safe H G (f true) R v)
    (hf : ∀ v, o.inv (.linked h n hd) v → Safe H G (f false) R v)
    (herr : ∀ e v, o.inv .failed v → R (.error e) v) : Safe H G (diverges n hd >>= f) R w := by
  unfold diverges
  split
  · rename_i hn
    rw [bind_assoc]
    refine safe_call_bind (.blockByNumber (n - 1))
      (fun prev ↦ if prev.any fun b ↦ b.hash ≠ hd.parentHash then .rollback (n - 1)
        else .linked h n hd) none (fun prev ↦ ?_) rfl hp (fun prev v hv ↦ ?_) herr
    · split
      · rename_i hb
        obtain ⟨b, rfl, hne⟩ := (Option.any_eq_true _ _).mp hb
        exact .orphan h n hd b hn (by simpa using hne)
      · rename_i hb
        refine .parent h n hd prev hn ?_
        rintro b rfl
        simpa using hb
    · rw [pure_bind]
      split at hv
      · rename_i hb
        rw [hb]
        exact ht v hv
      · rename_i hb
        rw [Bool.not_eq_true] at hb
        rw [hb]
        exact hf v hv
  · rename_i hn
    rw [pure_bind]
    exact hf w (o.silent (.genesis h n hd hn) nofun hp)

theorem safe_indexFrom {h : UInt64} (ctx : ℕ) {n : UInt64} (hp : o.inv (.loop h n) w) :
    Safe H G (indexFrom cfg h ctx n) o.Ends w := by
  induction ctx generalizing n w with
  | zero =>
    unfold indexFrom
    split
    · rename_i hn
      exact o.silent (.cancel h n hn) nofun hp
    · rename_i hn
      exact safe_promote hn hp
  | succ ctx ih =>
    unfold indexFrom
    split
    · rename_i hn
      refine safe_call_bind (.headerByNumber (some n)) (fun hd ↦ .header h n hd) default
        (fun hd ↦ .header h n hd hn) rfl hp (fun hd w₁ h₁ ↦ ?_) (fun _ _ h ↦ h)
      refine safe_diverges h₁ (fun w₂ h₂ ↦ safe_rollback h₂) (fun w₂ h₂ ↦ ?_) (fun _ _ h ↦ h)
      simp only [Bool.false_eq_true, ↓reduceIte, fetchTransfers, bind_assoc, pure_bind]
      refine safe_call_bind (.filterLogs _) (fun lgs ↦ .fetched h n hd (lgs.filterMap decode)) []
        (fun lgs ↦ .logs h n hd lgs) rfl h₂ (fun lgs w₃ h₃ ↦ ?_) (fun _ _ h ↦ h)
      refine safe_call_bind (.saveBlock _ _ _) (fun _ ↦ _) () (fun _ ↦ .save h n hd _) rfl h₃
        (fun _ w₄ h₄ ↦ ?_) (fun _ _ h ↦ h)
      refine safe_publish (fun r ↦ .announce h n _ _ r) h₄ fun w₅ h₅ ↦ ?_
      rw [safe_bind]
      exact safe_publishTransfers h₅ fun w₆ h₆ ↦ ih (o.silent (.next h n) nofun h₆)
    · rename_i hn
      exact safe_promote hn hp

/-- An outline covers every way through a sync. -/
theorem safe_sync (o : SyncOutline cfg H G) (ctx : ℕ) (hp : o.inv .idle w) : Safe H G (sync cfg ctx) o.Ends w := by
  refine safe_call_bind (.headerByNumber none) (fun hd ↦ .head hd.number64) default .head rfl hp
    (fun hd w₁ h₁ ↦ ?_) (fun _ _ h ↦ h)
  refine safe_call_bind .lastBlock
    (fun | none => .loop hd.number64 cfg.startBlock | some b => .tip hd.number64 b) none
    (fun | none => .empty _ | some b => .last _ b) rfl h₁ (fun last w₂ h₂ ↦ ?_) (fun _ _ h ↦ h)
  cases last with
  | none => exact safe_indexFrom ctx h₂
  | some b =>
    replace h₂ : o.inv (.tip hd.number64 b) w₂ := h₂
    refine safe_call_bind (.headerByNumber (some b.number))
      (fun canon ↦ if GoEthereum.headerHash canon ≠ b.hash then .rollback b.number
        else .loop hd.number64 (b.number + 1)) default (fun canon ↦ ?_) rfl h₂
      (fun canon w₃ h₃ ↦ ?_) (fun _ _ h ↦ h)
    · split
      · rename_i hne
        exact .diverged _ b canon hne
      · rename_i heq
        exact .matched _ b canon (not_not.mp heq)
    · split at h₃
      · rename_i hne
        rw [if_pos hne]
        exact safe_rollback h₃
      · rename_i heq
        rw [if_neg heq]
        exact safe_indexFrom ctx h₃

theorem ends_of_run (o : SyncOutline cfg H G) {ctx : ℕ} {v : W} {r : Except Err Unit}
    (hp : o.inv .idle w) (hr : Run H (sync cfg ctx) w (ofExcept r) v) : o.Ends r v := by
  have h := ((o.safe_sync ctx hp).run hr).1
  cases r with
  | ok u => exact h
  | error e => exact h

end SyncOutline

/-- A proof outline of a run: every sync starts again from what the one before left. -/
structure Outline (cfg : Config) (H G : Handler Err Call.Reply W) where
  inv : Point → W → Prop
  move {p p' : Point} {c : Call} {r : Except Err c.Reply} {w w' : W} :
    Move cfg p c r p' → H w c r w' → inv p w → G w c r w' ∧ inv p' w'
  silent {p p' : Point} {w : W} : Silent cfg p p' → inv p w → inv p' w

namespace Outline

variable {cfg : Config} {H G : Handler Err Call.Reply W} {w : W}

def toSync (o : Outline cfg H G) : SyncOutline cfg H G := ⟨o.inv, o.move, fun hm _ ↦ o.silent hm⟩

theorem idle_of_ends (o : Outline cfg H G) {r : Except Err Unit} (h : o.toSync.Ends r w) : o.inv .idle w := by
  cases r with
  | ok u =>
    obtain ⟨head, h⟩ | h := h
    · exact o.silent (.finish head) h
    · exact o.silent .revert h
  | error e => exact o.silent .fail h

theorem safe_run (o : Outline cfg H G) (ticks : List ℕ) (hp : o.inv .idle w) :
    Safe H G (run cfg ticks) (fun _ v ↦ o.inv .idle v) w := by
  induction ticks generalizing w with
  | nil => exact hp
  | cons ctx ticks ih =>
    unfold run
    rw [safe_bind, safe_attempt]
    exact (o.toSync.safe_sync ctx hp).mono fun r v hv ↦ ih (o.idle_of_ends hv)

/-- The same outline with its assertions as part of the guarantee. -/
def tracked (o : Outline cfg H G) :
    Outline cfg H fun w c r w' ↦ G w c r w' ∧ ∃ p, o.inv p w' where
  inv := o.inv
  move hm hs hp := ⟨⟨(o.move hm hs hp).1, _, (o.move hm hs hp).2⟩, (o.move hm hs hp).2⟩
  silent := o.silent

theorem reachable (o : Outline cfg H G) {ticks : List ℕ} {q : M Unit} {v : W} (hp : o.inv .idle w)
    (hr : Run H (run cfg ticks) w q v) : ∃ p, o.inv p v :=
  (o.tracked.safe_run ticks hp).invariant (fun _ _ _ _ h _ ↦ h.2) hr ⟨_, hp⟩

theorem idle_of_run (o : Outline cfg H G) {ticks : List ℕ} {v : W} (hp : o.inv .idle w)
    (hr : Run H (run cfg ticks) w (.ret ()) v) : o.inv .idle v :=
  ((o.safe_run ticks hp).run hr).1

theorem ends_of_run (o : Outline cfg H G) {ctx : ℕ} {v : W} {r : Except Err Unit}
    (hp : o.inv .idle w) (hr : Run H (sync cfg ctx) w (ofExcept r) v) : o.toSync.Ends r v :=
  o.toSync.ends_of_run hp hr

theorem idle_of_sync (o : Outline cfg H G) {ctx : ℕ} {v : W} {r : Except Err Unit} (hp : o.inv .idle w)
    (hr : Run H (sync cfg ctx) w (ofExcept r) v) : o.inv .idle v := o.idle_of_ends (o.ends_of_run hp hr)

end Outline

end EventPlatform.ChainMonitor
