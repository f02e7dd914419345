import EventPlatform.ChainMonitor.Monitor

namespace EventPlatform.ChainMonitor

open Ethereum Interaction Prog

/-- A call with the answer that it got. -/
abbrev Act := (c : Call) × Except Err c.Reply

/-- What surrounds the monitor: the state of the backend, the store, and every call
made so far, oldest first. -/
structure World (B S : Type) where
  backend : B
  store : S
  log : List Act

/-- The answers that an RPC backend with state `B` may give. -/
structure Backend (B : Type) where
  header : B → Option UInt64 → Except Err Header → B → Prop
  logs : B → FilterQuery → Except Err (List Log) → B → Prop

def Call.isStore : Call → Bool
  | .saveBlock _ _ _ | .lastBlock | .blockByNumber _ | .deleteFrom _ | .confirmThrough _ => true
  | .headerByNumber _ | .filterLogs _ | .publish _ => false

def Call.isWrite : Call → Bool
  | .saveBlock _ _ _ | .deleteFrom _ | .confirmThrough _ => true
  | .headerByNumber _ | .filterLogs _ | .lastBlock | .blockByNumber _ | .publish _ => false

def Call.isPublish : Call → Bool
  | .publish _ => true
  | _ => false

variable {B S : Type}

def World.answer (w : World B S) (c : Call) (r : Except Err c.Reply) (b : B) (s : S) : World B S :=
  ⟨b, s, w.log ++ [⟨c, r⟩]⟩

/-- One call. When `faults` is true, any call on the store may also fail without
effect. The bus takes every message. -/
inductive Step (be : Backend B) (st : Store S) (faults : Prop) : Handler Err Call.Reply (World B S)
  | header {w : World B S} {q : Option UInt64} {r : Except Err Header} {b : B} :
      be.header w.backend q r b →
      Step be st faults w (.headerByNumber q) r (w.answer (.headerByNumber q) r b w.store)
  | logs {w : World B S} {q : FilterQuery} {r : Except Err (List Log)} {b : B} :
      be.logs w.backend q r b →
      Step be st faults w (.filterLogs q) r (w.answer (.filterLogs q) r b w.store)
  | saveBlock {w : World B S} {b : Block} {ts : List Transfer} {f : Bool} {s : S} :
      st.saveBlock b ts f w.store = .ok s →
      Step be st faults w (.saveBlock b ts f) (.ok ())
        (w.answer (.saveBlock b ts f) (.ok ()) w.backend s)
  | saveBlockErr {w : World B S} {b : Block} {ts : List Transfer} {f : Bool} {e : Err} :
      st.saveBlock b ts f w.store = .error e →
      Step be st faults w (.saveBlock b ts f) (.error e)
        (w.answer (.saveBlock b ts f) (.error e) w.backend w.store)
  | lastBlock {w : World B S} {r : Except Err (Option Block)} :
      st.lastBlock w.store = r →
      Step be st faults w .lastBlock r (w.answer .lastBlock r w.backend w.store)
  | blockByNumber {w : World B S} {n : UInt64} {r : Except Err (Option Block)} :
      st.blockByNumber n w.store = r →
      Step be st faults w (.blockByNumber n) r (w.answer (.blockByNumber n) r w.backend w.store)
  | deleteFrom {w : World B S} {n : UInt64} {s : S} :
      st.deleteFrom n w.store = .ok s →
      Step be st faults w (.deleteFrom n) (.ok ()) (w.answer (.deleteFrom n) (.ok ()) w.backend s)
  | deleteFromErr {w : World B S} {n : UInt64} {e : Err} :
      st.deleteFrom n w.store = .error e →
      Step be st faults w (.deleteFrom n) (.error e)
        (w.answer (.deleteFrom n) (.error e) w.backend w.store)
  | confirmThrough {w : World B S} {n : UInt64} {s : S} :
      st.confirmThrough n w.store = .ok s →
      Step be st faults w (.confirmThrough n) (.ok ())
        (w.answer (.confirmThrough n) (.ok ()) w.backend s)
  | confirmThroughErr {w : World B S} {n : UInt64} {e : Err} :
      st.confirmThrough n w.store = .error e →
      Step be st faults w (.confirmThrough n) (.error e)
        (w.answer (.confirmThrough n) (.error e) w.backend w.store)
  | fault {w : World B S} {c : Call} {e : Err} : faults → c.isStore = true →
      Step be st faults w c (.error e) (w.answer c (.error e) w.backend w.store)
  | publish {w : World B S} {e : Event} {r : Except Err Unit} :
      Step be st faults w (.publish e) r (w.answer (.publish e) r w.backend w.store)

variable {be : Backend B} {st : Store S} {faults : Prop} {w w' : World B S}

theorem Step.log {c : Call} {r : Except Err c.Reply} (h : Step be st faults w c r w') :
    w'.log = w.log ++ [⟨c, r⟩] := by
  cases h <;> rfl

theorem Step.mono {faults' : Prop} (hf : faults → faults') {c : Call} {r : Except Err c.Reply}
    (h : Step be st faults w c r w') : Step be st faults' w c r w' := by
  cases h with
  | header h => exact .header h
  | logs h => exact .logs h
  | saveBlock h => exact .saveBlock h
  | saveBlockErr h => exact .saveBlockErr h
  | lastBlock h => exact .lastBlock h
  | blockByNumber h => exact .blockByNumber h
  | deleteFrom h => exact .deleteFrom h
  | deleteFromErr h => exact .deleteFromErr h
  | confirmThrough h => exact .confirmThrough h
  | confirmThroughErr h => exact .confirmThroughErr h
  | fault h hc => exact .fault (hf h) hc
  | publish => exact .publish

/-- A backend that can give the same answers from one fixed state can take the place of another one. -/
theorem Step.rebackend {B' : Type} {be' : Backend B'} {b' : B'}
    (hh : ∀ b q r b₁, be.header b q r b₁ → be'.header b' q r b')
    (hl : ∀ b q r b₁, be.logs b q r b₁ → be'.logs b' q r b')
    {c : Call} {r : Except Err c.Reply} (h : Step be st faults w c r w') :
    Step be' st faults ⟨b', w.store, w.log⟩ c r ⟨b', w'.store, w'.log⟩ := by
  cases h with
  | header h => exact .header (hh _ _ _ _ h)
  | logs h => exact .logs (hl _ _ _ _ h)
  | saveBlock h => exact .saveBlock h
  | saveBlockErr h => exact .saveBlockErr h
  | lastBlock h => exact .lastBlock h
  | blockByNumber h => exact .blockByNumber h
  | deleteFrom h => exact .deleteFrom h
  | deleteFromErr h => exact .deleteFromErr h
  | confirmThrough h => exact .confirmThrough h
  | confirmThroughErr h => exact .confirmThroughErr h
  | fault h hc => exact .fault h hc
  | publish => exact .publish

theorem Step.store_of_error {c : Call} {e : Err} (h : Step be st faults w c (.error e) w') :
    w'.store = w.store := by
  cases h <;> rfl

theorem Step.store_of_not_isWrite {c : Call} {r : Except Err c.Reply} (h : Step be st faults w c r w')
    (hc : c.isWrite = false) : w'.store = w.store := by
  cases h <;> first | rfl | cases hc

theorem Step.backend_of_isStore {c : Call} {r : Except Err c.Reply} (h : Step be st faults w c r w')
    (hc : c.isStore = true) : w'.backend = w.backend := by
  cases h <;> first | rfl | cases hc

theorem Step.header_inv {q : Option UInt64} {r : Except Err Header}
    (h : Step be st faults w (.headerByNumber q) r w') :
    be.header w.backend q r w'.backend ∧ w'.store = w.store := by
  cases h with
  | header h => exact ⟨h, rfl⟩
  | fault _ hc => cases hc

theorem Step.logs_inv {q : FilterQuery} {r : Except Err (List Log)}
    (h : Step be st faults w (.filterLogs q) r w') :
    be.logs w.backend q r w'.backend ∧ w'.store = w.store := by
  cases h with
  | logs h => exact ⟨h, rfl⟩
  | fault _ hc => cases hc

theorem Step.publish_inv {e : Event} {r : Except Err Unit} (h : Step be st faults w (.publish e) r w') :
    w'.backend = w.backend ∧ w'.store = w.store := by
  cases h with
  | publish => exact ⟨rfl, rfl⟩
  | fault _ hc => cases hc

theorem Step.saveBlock_inv {b : Block} {ts : List Transfer} {f : Bool}
    (h : Step be st faults w (.saveBlock b ts f) (.ok ()) w') :
    st.saveBlock b ts f w.store = .ok w'.store ∧ w'.backend = w.backend := by
  cases h with
  | saveBlock h => exact ⟨h, rfl⟩

theorem Step.lastBlock_inv {r : Option Block} (h : Step be st faults w .lastBlock (.ok r) w') :
    st.lastBlock w.store = .ok r ∧ w'.store = w.store ∧ w'.backend = w.backend := by
  cases h with
  | lastBlock h => exact ⟨h, rfl, rfl⟩

theorem Step.blockByNumber_inv {n : UInt64} {r : Option Block}
    (h : Step be st faults w (.blockByNumber n) (.ok r) w') :
    st.blockByNumber n w.store = .ok r ∧ w'.store = w.store ∧ w'.backend = w.backend := by
  cases h with
  | blockByNumber h => exact ⟨h, rfl, rfl⟩

theorem Step.deleteFrom_inv {n : UInt64} (h : Step be st faults w (.deleteFrom n) (.ok ()) w') :
    st.deleteFrom n w.store = .ok w'.store ∧ w'.backend = w.backend := by
  cases h with
  | deleteFrom h => exact ⟨h, rfl⟩

theorem Step.confirmThrough_inv {n : UInt64}
    (h : Step be st faults w (.confirmThrough n) (.ok ()) w') :
    st.confirmThrough n w.store = .ok w'.store ∧ w'.backend = w.backend := by
  cases h with
  | confirmThrough h => exact ⟨h, rfl⟩

/-- The messages that reached the bus, in the order of publication. -/
def published (log : List Act) : List Event :=
  log.filterMap fun
    | ⟨.publish e, _⟩ => some e
    | _ => none

@[simp] theorem published_append (l₁ l₂ : List Act) :
    published (l₁ ++ l₂) = published l₁ ++ published l₂ := List.filterMap_append

@[simp] theorem published_event (e : Event) (r : Except Err Unit) : published [⟨.publish e, r⟩] = [e] := rfl

theorem published_call {c : Call} (hc : c.isPublish = false) (r : Except Err c.Reply) :
    published [⟨c, r⟩] = [] := by
  cases c <;> first | rfl | cases hc

theorem Step.published_eq {c : Call} {r : Except Err c.Reply} (h : Step be st faults w c r w')
    (hc : c.isPublish = false) : published w'.log = published w.log := by
  rw [h.log, published_append, published_call hc, List.append_nil]

theorem Step.published_publish {e : Event} {r : Except Err Unit}
    (h : Step be st faults w (.publish e) r w') :
    published w'.log = published w.log ++ [e] := by
  rw [h.log, published_append, published_event]

end EventPlatform.ChainMonitor
