import EventPlatform.ChainMonitor.Interchange
import EventPlatform.Strconv

namespace EventPlatform.ChainMonitor

open Ethereum Interaction Prog Strconv

def envUint (getenv : String → String) (key : String) (default : UInt64) : UInt64 :=
  if getenv key = "" then default else (parseUint (getenv key)).getD default

/-- The number in `START_BLOCK`, unless there is none or it cannot be read. -/
def envStartBlock (getenv : String → String) : Option UInt64 :=
  if getenv "START_BLOCK" = "" then none else parseUint (getenv "START_BLOCK")

/-- Without a number of its own the monitor follows the tip, and starts from 0 if that cannot be read. -/
def resolveStartBlock (getenv : String → String) : M UInt64 :=
  match envStartBlock getenv with
  | some n => return n
  | none => do
    match ← attempt (headerByNumber none) with
    | .ok head => return head.number64
    | .error _ => return 0

variable [GoEthereum]

/-- The binary, from its start on. The tokens are not restricted. -/
def main (getenv : String → String) (ticks : List ℕ) : M Unit := do
  let startBlock ← resolveStartBlock getenv
  run ⟨envUint getenv "CONFIRMATIONS" 5, startBlock, []⟩ ticks

section Outlines

variable {W : Type} {H G : Handler Err Call.Reply W} {o : ∀ c s : UInt64, Outline ⟨c, s, []⟩ H G} {w v : W}
  {c s : UInt64} {q : M Unit}

/-- Outlines of the run for all configurations, between which a start can choose. -/
structure Bootable (o : ∀ c s : UInt64, Outline ⟨c, s, []⟩ H G) : Prop where
  idle : ∀ {c s c' s' w}, (o c s).inv .idle w → (o c' s').inv .idle w
  booted : ∀ {c s h w}, (o c s).inv (.head h) w → (o c s).inv .idle w

theorem Bootable.safe_main (hb : Bootable o) (getenv : String → String) (ticks : List ℕ) (hp : (o c s).inv .idle w) :
    Safe H G (main getenv ticks) (fun _ v ↦ (o c s).inv .idle v) w := by
  have hrun (start : UInt64) {v : W} (hv : (o c s).inv .idle v) :
      Safe H G (run ⟨envUint getenv "CONFIRMATIONS" 5, start, []⟩ ticks) (fun _ v ↦ (o c s).inv .idle v) v :=
    ((o _ start).safe_run ticks (hb.idle hv)).mono fun _ _ h ↦ hb.idle h
  unfold main resolveStartBlock
  cases envStartBlock getenv with
  | some n => exact hrun n hp
  | none =>
    rw [safe_bind, safe_bind, safe_attempt]
    refine safe_perform.mpr fun r v hv ↦ ?_
    cases r with
    | ok head =>
      obtain ⟨hg, hhead⟩ := (o c s).move (.head head) hv hp
      exact ⟨hg, hrun _ (hb.booted hhead)⟩
    | error e =>
      obtain ⟨hg, hfailed⟩ := (o c s).move (.error (.head default) rfl e) hv hp
      exact ⟨hg, hrun _ ((o c s).silent .fail hfailed)⟩

/-- The same outlines with their assertions as part of the guarantee. -/
def trackedAll (o : ∀ c s : UInt64, Outline ⟨c, s, []⟩ H G) (c s : UInt64) :
    Outline ⟨c, s, []⟩ H fun w a r w' ↦ G w a r w' ∧ ∃ c s p, (o c s).inv p w' where
  inv := (o c s).inv
  move hm hs hp := ⟨⟨((o c s).move hm hs hp).1, c, s, _, ((o c s).move hm hs hp).2⟩, ((o c s).move hm hs hp).2⟩
  silent := (o c s).silent

theorem Bootable.reachable (hb : Bootable o) {getenv : String → String} {ticks : List ℕ} (hp : (o c s).inv .idle w)
    (hr : Run H (main getenv ticks) w q v) : ∃ c s p, (o c s).inv p v := by
  have htracked : Bootable (trackedAll o) := ⟨hb.idle, hb.booted⟩
  exact (htracked.safe_main getenv ticks hp).invariant (fun _ _ _ _ h _ ↦ h.2) hr ⟨c, s, _, hp⟩

end Outlines

section Interchange

variable {B S T : Type} {R : S → T → Prop} {st : Store S} {st' : Store T} {be : Backend B} {faults : Prop}
  {G : Handler Err Call.Reply (World B S)} {o : ∀ c s : UInt64, Outline ⟨c, s, []⟩ (Step be st faults) G}
  {admits : T → Call → Prop} {w : World B S} {v v' : World B T} {c s : UInt64} {q : M Unit}

/-- A call that the second store admits is answered alike by the first one. -/
theorem Interchange.answer_back {cfg : Config} {o : Outline cfg (Step be st faults) G} (h : Interchange o st' R admits)
    {a : Call} {r : Except Err a.Reply} (hs : Step be st' faults v a r v' ∧ admits v.store a) (hm : Matched R w v) :
    ∃ w', Step be st faults w a r w' ∧ Matched R w' v' := by
  obtain ⟨w', hs', hw'⟩ := hm.symm.step (h.alike hm.store hs.2).symm hs.1
  exact ⟨w', hs', hw'.symm⟩

/-- Every run of the binary over the second store is one over the first store. -/
theorem Bootable.backward (hb : Bootable o) (hi : ∀ c s, Interchange (o c s) st' R admits)
    {getenv : String → String} {ticks : List ℕ} (hp : (o c s).inv .idle w) (hm : Matched R w v)
    (hr : Run (Step be st' faults) (main getenv ticks) v q v') :
    ∃ w', Run (Step be st faults) (main getenv ticks) w q w' ∧ Matched R w' v' := by
  have hcarried : Bootable fun c s ↦ (hi c s).carried :=
    ⟨fun ⟨w, hp, hw⟩ ↦ ⟨w, hb.idle hp, hw⟩, fun ⟨w, hp, hw⟩ ↦ ⟨w, hb.booted hp, hw⟩⟩
  have hsafe := hcarried.safe_main (c := c) (s := s) getenv ticks ⟨w, hp, hm⟩
  refine hsafe.simulate (R := fun v w ↦ Matched R w v) ?_ hr hm
  intro v a r v' hs w hm
  exact (hi c s).answer_back hs hm

/-- The same for a single sync. -/
theorem Interchange.backward_sync {cfg : Config} {o : Outline cfg (Step be st faults) G}
    (h : Interchange o st' R admits)
    {ctx : ℕ} (hp : o.inv .idle w) (hm : Matched R w v) (hr : Run (Step be st' faults) (sync cfg ctx) v q v') :
    ∃ w', Run (Step be st faults) (sync cfg ctx) w q w' ∧ Matched R w' v' := by
  have hsafe := h.carried.toSync.safe_sync ctx ⟨w, hp, hm⟩
  refine hsafe.simulate (R := fun v w ↦ Matched R w v) ?_ hr hm
  intro v a r v' hs w hm
  exact h.answer_back hs hm

end Interchange

end EventPlatform.ChainMonitor
