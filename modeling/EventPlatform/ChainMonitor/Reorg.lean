import EventPlatform.ChainMonitor.Tracking

namespace EventPlatform.ChainMonitor

open Ethereum Interaction Prog

/-- The moment of the latest call on the backend, and of the latest header answer. -/
structure Clock where
  now : ℕ
  asked : ℕ
  le : asked ≤ now

def Clock.start : Clock := ⟨0, 0, le_rfl⟩

/-- The same backend, where any call may also fail. -/
def Backend.lossy {B : Type} (be : Backend B) : Backend B where
  header b q r b' := be.header b q r b' ∨ b' = b ∧ ∃ e, r = .error e
  logs b q r b' := be.logs b q r b' ∨ b' = b ∧ ∃ e, r = .error e

theorem Backend.lossy_header_ok {B : Type} {be : Backend B} {b b' : B} {q : Option UInt64} {hd : Header}
    (h : be.lossy.header b q (.ok hd) b') : be.header b q (.ok hd) b' := by
  obtain h | ⟨-, e, he⟩ := h
  · exact h
  · cases he

theorem Backend.lossy_logs_ok {B : Type} {be : Backend B} {b b' : B} {q : FilterQuery} {lgs : List Log}
    (h : be.lossy.logs b q (.ok lgs) b') : be.logs b q (.ok lgs) b' := by
  obtain h | ⟨-, e, he⟩ := h
  · exact h
  · cases he

variable [GoEthereum]

/-- The headers that are canonical at some moment. -/
def canonHeaders (canon : ℕ → Chain) : Set Header :=
  {hd | ∃ t, ∃ n ≤ (canon t).head, (canon t).header n = hd}

/-- Each call is answered from the chain that is canonical at its moment. Any number of
reorganisations may lie between two calls. -/
def canonicalBackend (canon : ℕ → Chain) : Backend Clock where
  header k q r k' := k.now ≤ k'.now ∧ k'.asked = k'.now ∧ r = (canon k'.now).headerByNumber q
  logs k q r k' := k.now ≤ k'.now ∧ k'.asked = k.asked ∧ r = .ok ((canon k'.now).filterLogs q)

/-- The logs of a number come from a chain with the same block at that number as the chain of
the latest header answer. -/
def pinnedBackend (canon : ℕ → Chain) : Backend Clock where
  header := (canonicalBackend canon).header
  logs k q r k' := (canonicalBackend canon).logs k q r k' ∧ q.fromBlock ≤ (canon k'.now).head ∧
    (canon k'.now).header q.fromBlock = (canon k.asked).header q.fromBlock

/-- Headers are those of the canonical chain of the moment, logs are arbitrary. -/
def headersBackend (canon : ℕ → Chain) : Backend Clock where
  header := (canonicalBackend canon).header
  logs k _ _ k' := k.now ≤ k'.now ∧ k'.asked = k.asked

/-- Every call takes one unit of time. -/
def canonicalOracle (canon : ℕ → Chain) : Oracle Clock where
  header k q := ((canon (k.now + 1)).headerByNumber q, ⟨k.now + 1, k.now + 1, le_rfl⟩)
  logs k q := (.ok ((canon (k.now + 1)).filterLogs q), ⟨k.now + 1, k.asked, k.le.trans (Nat.le_succ _)⟩)

theorem canonicalOracle_conforms (canon : ℕ → Chain) :
    (canonicalOracle canon).Conforms (canonicalBackend canon) :=
  ⟨fun _ _ ↦ ⟨Nat.le_succ _, rfl, rfl⟩, fun _ _ ↦ ⟨Nat.le_succ _, rfl, rfl⟩⟩

theorem canonicalOracle_conforms_headers (canon : ℕ → Chain) :
    (canonicalOracle canon).Conforms (headersBackend canon).lossy :=
  ⟨fun k q ↦ .inl ((canonicalOracle_conforms canon).1 k q),
    fun k q ↦ .inl ⟨((canonicalOracle_conforms canon).2 k q).1, ((canonicalOracle_conforms canon).2 k q).2.1⟩⟩

/-- The same, where a query whose block was replaced since its header was read fails. -/
def pinnedOracle (canon : ℕ → Chain) : Oracle Clock where
  header := (canonicalOracle canon).header
  logs k q :=
    if q.fromBlock ≤ (canon (k.now + 1)).head ∧
      (canon (k.now + 1)).header q.fromBlock = (canon k.asked).header q.fromBlock
    then (canonicalOracle canon).logs k q
    else (.error .notFound, k)

theorem pinnedOracle_conforms (canon : ℕ → Chain) :
    (pinnedOracle canon).Conforms (pinnedBackend canon).lossy := by
  refine ⟨fun k q ↦ .inl ((canonicalOracle_conforms canon).1 k q), fun k q ↦ ?_⟩
  unfold pinnedOracle
  dsimp only
  split
  · rename_i h
    exact .inl ⟨(canonicalOracle_conforms canon).2 k q, h⟩
  · exact .inr ⟨rfl, .notFound, rfl⟩

/-- The header in hand is the one that the chain of the latest header answer has. -/
def Point.Read (canon : ℕ → Chain) (k : Clock) : Point → Prop
  | .header _ n hd | .linked _ n hd | .fetched _ n hd _ =>
    n ≤ (canon k.asked).head ∧ (canon k.asked).header n = hd
  | _ => True

/-- A tip in hand is stored, and a block about to be removed is not on the chain of the latest
header answer. -/
def Point.Stale (canon : ℕ → Chain) (k : Clock) (s : MemStore) : Point → Prop
  | .tip _ b => s.index.head? = some b
  | .rollback n => n ≤ (canon k.asked).head ∧
      ∃ b ∈ s.index, b.number = n ∧ b.hash ≠ (canon k.asked).hashAt n
  | _ => True

/-- What every backend over moving chains does to the clock and to header answers. -/
structure Backend.Follows (be : Backend Clock) (canon : ℕ → Chain) : Prop where
  header : ∀ k q hd k', be.header k q (.ok hd) k' →
    k.now ≤ k'.now ∧ k'.asked = k'.now ∧ .ok hd = (canon k'.now).headerByNumber q
  logs : ∀ k q lgs k', be.logs k q (.ok lgs) k' → k.now ≤ k'.now ∧ k'.asked = k.asked

theorem pinnedBackend_follows (canon : ℕ → Chain) : (pinnedBackend canon).lossy.Follows canon where
  header _ _ _ _ h := Backend.lossy_header_ok h
  logs _ _ _ _ h := ⟨(Backend.lossy_logs_ok h).1.1, (Backend.lossy_logs_ok h).1.2.1⟩

theorem headersBackend_follows (canon : ℕ → Chain) : (headersBackend canon).lossy.Follows canon where
  header _ _ _ _ h := Backend.lossy_header_ok h
  logs _ _ _ _ h := Backend.lossy_logs_ok h

section Moves

variable {canon : ℕ → Chain} {be : Backend Clock} {faults : Prop} {S : Type} {st : Store S}
  {w w' : World Clock S} {cfg : Config} {p p' : Point} {c : Call} {r : Except Err c.Reply}

theorem Point.Read.silent {k : Clock} (h : p.Read canon k) (hm : Silent cfg p p') : p'.Read canon k := by
  cases hm with
  | genesis => exact h
  | _ => trivial

theorem Point.Read.move (hbe : be.Follows canon) (h : p.Read canon w.backend) (hm : Move cfg p c r p')
    (hs : Step be st faults w c r w') : p'.Read canon w'.backend := by
  cases hm with
  | header head n hd hn =>
    obtain ⟨-, hk, ha⟩ := hbe.header _ _ _ _ hs.header_inv.1
    rw [← hk] at ha
    exact Chain.headerByNumber_ok ha
  | parent head n hd prev hn heq =>
    rw [hs.backend_of_isStore rfl]
    exact h
  | logs head n hd lgs =>
    simp only [Read, (hbe.logs _ _ _ _ hs.logs_inv.1).2]
    exact h
  | _ => trivial

/-- Every stored block is made from a canonical header. -/
theorem Point.Read.taken_move {w w' : World Clock MemStore} (hr : p.Read canon w.backend)
    (h : ∀ b ∈ w.store.index, ∃ hd ∈ canonHeaders canon, b = .ofHeader b.number hd) (hm : Move cfg p c r p')
    (hs : Step be MemStore.store faults w c r w') :
    ∀ b ∈ w'.store.index, ∃ hd ∈ canonHeaders canon, b = .ofHeader b.number hd := by
  refine MemStore.forall_index_step hs h fun b ts f he ↦ ?_
  cases hm with
  | save head n hd ts =>
    cases he
    exact ⟨hd, ⟨_, n, hr⟩, rfl⟩
  | _ => cases he

theorem Point.Stale.move {w w' : World Clock MemStore} (hbe : be.Follows canon)
    (h : p.Stale canon w.backend w.store) (hr : p.Read canon w.backend) (hm : Move cfg p c r p')
    (hs : Step be MemStore.store faults w c r w') : p'.Stale canon w'.backend w'.store := by
  cases hm with
  | last head b =>
    obtain ⟨hb, he, -⟩ := hs.lastBlock_inv
    rw [he]
    simp only [Stale, ← MemStore.lastBlock_eq]
    exact Except.ok.inj hb
  | diverged head b hd hne =>
    obtain ⟨-, hk, ha⟩ := hbe.header _ _ _ _ hs.header_inv.1
    rw [← hk] at ha
    obtain ⟨hn, rfl⟩ := Chain.headerByNumber_ok ha
    rw [hs.header_inv.2]
    exact ⟨hn, b, List.mem_of_mem_head? h, rfl, hne.symm⟩
  | orphan head n hd b hn hne =>
    obtain ⟨hb, he, hk⟩ := hs.blockByNumber_inv
    obtain ⟨hle, rfl⟩ := hr
    obtain ⟨hm, hnum⟩ := MemStore.getElem?_eq_some.mp (Except.ok.inj hb)
    rw [he, hk]
    refine ⟨?_, b, hm, hnum, ?_⟩
    · have hpn := toNat_pred hn
      have := UInt64.le_iff_toNat_le.mp hle
      exact UInt64.le_iff_toNat_le.mpr (by omega)
    · rwa [← Chain.parentHash_eq hn hle]
  | _ => trivial

end Moves

end EventPlatform.ChainMonitor
