import EventPlatform.ChainMonitor.Outline

namespace EventPlatform.ChainMonitor

open Ethereum Interaction Prog

variable {B S T : Type}

/-- Both succeed, with related states, or both fail alike. -/
def Outcomes (R : S → T → Prop) : Except Err S → Except Err T → Prop
  | .ok s, .ok t => R s t
  | .error e, .error e' => e = e'
  | _, _ => False

/-- The stores answer the call alike from these states. -/
def Alike (st : Store S) (st' : Store T) (R : S → T → Prop) (s : S) (t : T) : Call → Prop
  | .saveBlock b ts f => Outcomes R (st.saveBlock b ts f s) (st'.saveBlock b ts f t)
  | .lastBlock => st'.lastBlock t = st.lastBlock s
  | .blockByNumber n => st'.blockByNumber n t = st.blockByNumber n s
  | .deleteFrom n => Outcomes R (st.deleteFrom n s) (st'.deleteFrom n t)
  | .confirmThrough n => Outcomes R (st.confirmThrough n s) (st'.confirmThrough n t)
  | .headerByNumber _ | .filterLogs _ | .publish _ => True

/-- Worlds with the same backend and the same calls and answers so far, over related stores. -/
structure Matched (R : S → T → Prop) (w : World B S) (v : World B T) : Prop where
  backend : v.backend = w.backend
  log : v.log = w.log
  store : R w.store v.store

section Steps

variable {R : S → T → Prop} {st : Store S} {st' : Store T} {be : Backend B} {faults : Prop}
  {w w' : World B S} {v : World B T} {c : Call} {r : Except Err c.Reply}

theorem Outcomes.symm {x : Except Err S} {y : Except Err T} (h : Outcomes R x y) : Outcomes (flip R) y x := by
  cases x with
  | ok s =>
    cases y with
    | ok t => exact h
    | error e => exact h
  | error e =>
    cases y with
    | ok t => exact h
    | error e' => exact Eq.symm h

theorem Outcomes.of_ok {s : S} {y : Except Err T} (h : Outcomes R (.ok s) y) : ∃ t, y = .ok t ∧ R s t := by
  cases y with
  | ok t => exact ⟨t, rfl, h⟩
  | error e => exact h.elim

theorem Outcomes.of_error {e : Err} {y : Except Err T} (h : Outcomes R (.error e) y) : y = .error e := by
  cases y with
  | ok t => exact h.elim
  | error e' => exact congrArg _ (Eq.symm h)

theorem Alike.symm {s : S} {t : T} (h : Alike st st' R s t c) : Alike st' st (flip R) t s c := by
  cases c with
  | saveBlock | deleteFrom | confirmThrough => exact Outcomes.symm h
  | lastBlock | blockByNumber => exact Eq.symm h
  | headerByNumber | filterLogs | publish => trivial

theorem Matched.symm (h : Matched R w v) : Matched (flip R) v w := ⟨h.backend.symm, h.log.symm, h.store⟩

theorem Matched.answer (h : Matched R w v) (b : B) {s : S} {t : T} (hR : R s t) :
    Matched R (w.answer c r b s) (v.answer c r b t) :=
  ⟨rfl, by rw [World.answer, World.answer, h.log], hR⟩

/-- A call on which the stores agree is answered alike in both worlds. -/
theorem Matched.step (h : Matched R w v) (ha : Alike st st' R w.store v.store c)
    (hs : Step be st faults w c r w') : ∃ v', Step be st' faults v c r v' ∧ Matched R w' v' := by
  cases hs with
  | header hb => exact ⟨_, .header (h.backend ▸ hb), h.answer _ h.store⟩
  | logs hb => exact ⟨_, .logs (h.backend ▸ hb), h.answer _ h.store⟩
  | saveBlock hb =>
    rw [Alike, hb] at ha
    obtain ⟨t, ht, hR⟩ := ha.of_ok
    exact ⟨_, .saveBlock ht, h.backend ▸ h.answer _ hR⟩
  | saveBlockErr hb =>
    rw [Alike, hb] at ha
    exact ⟨_, .saveBlockErr ha.of_error, h.backend ▸ h.answer _ h.store⟩
  | lastBlock hb => exact ⟨_, .lastBlock (ha.trans hb), h.backend ▸ h.answer _ h.store⟩
  | blockByNumber hb => exact ⟨_, .blockByNumber (ha.trans hb), h.backend ▸ h.answer _ h.store⟩
  | deleteFrom hb =>
    rw [Alike, hb] at ha
    obtain ⟨t, ht, hR⟩ := ha.of_ok
    exact ⟨_, .deleteFrom ht, h.backend ▸ h.answer _ hR⟩
  | deleteFromErr hb =>
    rw [Alike, hb] at ha
    exact ⟨_, .deleteFromErr ha.of_error, h.backend ▸ h.answer _ h.store⟩
  | confirmThrough hb =>
    rw [Alike, hb] at ha
    obtain ⟨t, ht, hR⟩ := ha.of_ok
    exact ⟨_, .confirmThrough ht, h.backend ▸ h.answer _ hR⟩
  | confirmThroughErr hb =>
    rw [Alike, hb] at ha
    exact ⟨_, .confirmThroughErr ha.of_error, h.backend ▸ h.answer _ h.store⟩
  | fault hf hc => exact ⟨_, .fault hf hc, h.backend ▸ h.answer _ h.store⟩
  | publish => exact ⟨_, .publish, h.backend ▸ h.answer _ h.store⟩

end Steps

section Runs

variable [GoEthereum] {R : S → T → Prop} {st : Store S} {st' : Store T} {be : Backend B} {faults : Prop}
  {cfg : Config} {G : Handler Err Call.Reply (World B S)}

/-- Two stores under the monitor: along an outline for the first one, every call is admitted by the
related states of the second one, and both answer an admitted call alike. -/
structure Interchange (o : Outline cfg (Step be st faults) G) (st' : Store T) (R : S → T → Prop)
    (admits : T → Call → Prop) : Prop where
  admitted : ∀ {p p' c r w t}, Move cfg p c r p' → o.inv p w → R w.store t → admits t c
  alike : ∀ {s t c}, R s t → admits t c → Alike st st' R s t c

variable {o : Outline cfg (Step be st faults) G} {admits : T → Call → Prop} {ticks : List ℕ}
  {w w' : World B S} {v v' : World B T} {q : M Unit}

/-- Every run over the first store is one over the second store. -/
theorem Interchange.forward (h : Interchange o st' R admits) (ho : o.inv .idle w) (hm : Matched R w v)
    (hr : Run (Step be st faults) (run cfg ticks) w q w') :
    ∃ v', Run (Step be st' faults) (run cfg ticks) v q v' ∧ Matched R w' v' := by
  let o' : Outline cfg (Step be st faults)
      fun w c r w' ↦ Step be st faults w c r w' ∧ ∀ t, R w.store t → admits t c :=
    { inv := o.inv
      move := fun hm hs hp ↦ ⟨⟨hs, fun t ht ↦ h.admitted hm hp ht⟩, (o.move hm hs hp).2⟩
      silent := o.silent }
  refine (o'.safe_run ticks ho).simulate ?_ hr hm
  rintro w c r w' ⟨hs, ha⟩ v hm
  exact hm.step (h.alike hm.store (ha _ hm.store)) hs

/-- The outline carried over to the second store. -/
def Interchange.carried (h : Interchange o st' R admits) : Outline cfg (Step be st' faults)
    fun v c r v' ↦ Step be st' faults v c r v' ∧ admits v.store c where
  inv p v := ∃ w, o.inv p w ∧ Matched R w v
  move := by
    rintro p p' c r v v' hm hs ⟨w, hp, hw⟩
    have ha := h.admitted hm hp hw.store
    obtain ⟨w', hs', hw'⟩ := hw.symm.step (h.alike hw.store ha).symm hs
    exact ⟨⟨hs, ha⟩, w', (o.move hm hs' hp).2, hw'.symm⟩
  silent := by
    rintro p p' v hm ⟨w, hp, hw⟩
    exact ⟨w, o.silent hm hp, hw⟩

/-- Every run over the second store is one over the first store. -/
theorem Interchange.backward (h : Interchange o st' R admits) (ho : o.inv .idle w) (hm : Matched R w v)
    (hr : Run (Step be st' faults) (run cfg ticks) v q v') :
    ∃ w', Run (Step be st faults) (run cfg ticks) w q w' ∧ Matched R w' v' := by
  refine (h.carried.safe_run ticks ⟨w, ho, hm⟩).simulate (R := fun v w ↦ Matched R w v) ?_ hr hm
  rintro v c r v' ⟨hs, ha⟩ w hm
  obtain ⟨w', hs', hw'⟩ := hm.symm.step (h.alike hm.store ha).symm hs
  exact ⟨w', hs', hw'.symm⟩

/-- Every call on the second store is admitted. -/
theorem Interchange.admits_call (h : Interchange o st' R admits) (ho : o.inv .idle w) (hm : Matched R w v)
    (hf : faults) {c : Call} (hc : c.isStore = true) {k : Except Err c.Reply → M Unit}
    (hr : Run (Step be st' faults) (run cfg ticks) v (.call c k) v') : admits v'.store c :=
  (((h.carried.safe_run ticks ⟨w, ho, hm⟩).run hr).1 (.error .canceled) _ (.fault hf hc)).1.2

end Runs

end EventPlatform.ChainMonitor
