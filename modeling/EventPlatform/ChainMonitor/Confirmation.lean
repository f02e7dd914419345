import EventPlatform.ChainMonitor.Tracking

namespace EventPlatform.ChainMonitor

open Ethereum Interaction Prog

/-- A backend that may answer anything, except that the head numbers that it reports never
decrease. Its state is the list of these numbers, newest first. -/
def risingBackend : Backend (List UInt64) where
  header heads q r heads' :=
    match q, r with
    | none, .ok hd => (∀ h ∈ heads, h ≤ hd.number64) ∧ heads' = hd.number64 :: heads
    | _, _ => heads' = heads
  logs heads _ _ heads' := heads' = heads

/-- The heads that a backend has reported, newest first, never decrease. -/
structure Backend.Rising {B : Type} (be : Backend B) (heads : B → List UInt64) : Prop where
  head : ∀ b hd b', be.header b none (.ok hd) b' →
    (∀ h ∈ heads b, h ≤ hd.number64) ∧ heads b' = hd.number64 :: heads b
  quiet : ∀ b q r b', be.header b q r b' → (∀ hd, q = none → r ≠ .ok hd) → heads b' = heads b
  logs : ∀ b q r b', be.logs b q r b' → heads b' = heads b

theorem risingBackend_rising : risingBackend.Rising id where
  head _ _ _ h := h
  quiet b q r b' h hq := by
    cases q with
    | none =>
      cases r with
      | ok hd => exact absurd rfl (hq hd rfl)
      | error e => exact h
    | some n => exact h
  logs _ _ _ _ h := h

def StoredTransfer.Deep (cfg : Config) (h : UInt64) (t : StoredTransfer) : Prop :=
  t.block.toNat + cfg.confirmations.toNat ≤ h.toNat

/-- At the end of a sync everything that is deep enough is confirmed. -/
def Point.Promoted (cfg : Config) (s : MemStore) : Point → Prop
  | .done h => ∀ t ∈ s.transfers, t.Deep cfg h → t.confirmed = true
  | _ => True

def Point.RolledBack (log : List Act) : Point → Prop
  | .rolled _ | .reverted => ∃ m, ⟨.deleteFrom m, .ok ()⟩ ∈ log
  | _ => True

/-- The assertion at each point, for the calls made after the log `start`. -/
structure Gated {B : Type} (heads : B → List UInt64) (cfg : Config) (start : List Act) (p : Point)
    (w : World B MemStore) : Prop where
  within : p.Within
  head : p.HeadIs fun h ↦ (heads w.backend).head? = some h
  rising : ∀ h, (heads w.backend).head? = some h → ∀ k ∈ heads w.backend, k ≤ h
  gated : ∀ t ∈ w.store.transfers, t.confirmed = true → ∃ h ∈ heads w.backend, t.Deep cfg h
  promoted : p.Promoted cfg w.store
  since : ∃ δ, w.log = start ++ δ ∧ p.RolledBack δ

section Moves

variable [GoEthereum] {B : Type} {be : Backend B} {heads : B → List UInt64} {cfg : Config} {start : List Act}
  {p p' : Point} {faults : Prop} {w w' : World B MemStore} {c : Call} {r : Except Err c.Reply}

omit [GoEthereum] in
theorem Backend.Rising.step (hbe : be.Rising heads) (hs : Step be MemStore.store faults w c r w') :
    (∃ hd, (⟨c, r⟩ : Act) = ⟨.headerByNumber none, .ok hd⟩ ∧ (∀ h ∈ heads w.backend, h ≤ hd.number64) ∧
      heads w'.backend = hd.number64 :: heads w.backend) ∨
    (∀ hd, (⟨c, r⟩ : Act) ≠ ⟨.headerByNumber none, .ok hd⟩) ∧ heads w'.backend = heads w.backend := by
  cases hs with
  | @header _ q r b h =>
    cases q with
    | none =>
      cases r with
      | ok hd => exact .inl ⟨hd, rfl, hbe.head _ _ _ h⟩
      | error e => exact .inr ⟨by simp, hbe.quiet _ _ _ _ h (by simp)⟩
    | some n => exact .inr ⟨by simp, hbe.quiet _ _ _ _ h (by simp)⟩
  | logs h => exact .inr ⟨by simp, hbe.logs _ _ _ _ h⟩
  | fault hf hc => exact .inr ⟨by rintro hd ⟨⟩, rfl⟩
  | _ => exact .inr ⟨by simp, rfl⟩

omit [GoEthereum] in
theorem Backend.Rising.subset (hbe : be.Rising heads) (hs : Step be MemStore.store faults w c r w') :
    ∀ h ∈ heads w.backend, h ∈ heads w'.backend := by
  obtain ⟨hd, -, -, hb⟩ | ⟨-, hb⟩ := hbe.step hs <;> simp +contextual [hb]

theorem Gated.head_move (hbe : be.Rising heads) (h : Gated heads cfg start p w) (hm : Move cfg p c r p')
    (hs : Step be MemStore.store faults w c r w') :
    (p'.HeadIs fun h ↦ (heads w'.backend).head? = some h) ∧
      ∀ h, (heads w'.backend).head? = some h → ∀ k ∈ heads w'.backend, k ≤ h := by
  obtain ⟨hd, he, hle, hb⟩ | ⟨hne, hb⟩ := hbe.step hs
  · cases he
    constructor
    · cases hm with
      | head => simp [Point.HeadIs, hb]
    · rw [hb]
      rintro _ ⟨⟩ k hk
      rcases List.mem_cons.mp hk with rfl | hk
      · exact UInt64.le_refl _
      · exact hle k hk
  · rw [hb]
    exact ⟨hm.headIs h.head fun hd he ↦ absurd he (hne hd), h.rising⟩

theorem Gated.gated_move (hbe : be.Rising heads) (h : Gated heads cfg start p w) (hm : Move cfg p c r p')
    (hs : Step be MemStore.store faults w c r w') :
    ∀ t ∈ w'.store.transfers, t.confirmed = true → ∃ h ∈ heads w'.backend, t.Deep cfg h := by
  intro t ht htc
  suffices hh : ∃ h ∈ heads w.backend, t.Deep cfg h by
    obtain ⟨k, hk, hd⟩ := hh
    exact ⟨k, hbe.subset hs k hk, hd⟩
  cases hs with
  | saveBlock hb =>
    obtain ⟨head, n, hd, rfl, rfl, rfl, rfl⟩ := hm.of_saveBlock
    cases hb
    rcases List.mem_append.mp ht with ht | ht
    · exact h.gated t ht htc
    · obtain ⟨u, -, rfl⟩ := List.mem_map.mp ht
      have hc := (le_sub_iff h.within).mp (of_decide_eq_true htc)
      refine ⟨head, List.mem_of_mem_head? h.head, ?_⟩
      rw [StoredTransfer.Deep, Nat.add_comm]
      exact hc
  | deleteFrom hb =>
    cases hb
    exact h.gated t (List.mem_filter.mp ht).1 htc
  | confirmThrough hb =>
    obtain ⟨head, m, rfl, -, hc, rfl, -⟩ := hm.of_confirmThrough
    cases hb
    obtain ⟨u, hu, rfl⟩ := MemStore.mem_confirmThrough ht
    by_cases hle : u.block ≤ head - cfg.confirmations
    · refine ⟨head, List.mem_of_mem_head? h.head, ?_⟩
      rw [StoredTransfer.Deep, StoredTransfer.confirmTo_block]
      exact (le_sub_iff hc).mp hle
    · rw [StoredTransfer.confirmTo, if_neg hle] at htc ⊢
      exact h.gated u hu htc
  | _ => exact h.gated t ht htc

theorem Gated.promoted_move (hm : Move cfg p c r p') (hs : Step be MemStore.store faults w c r w') :
    p'.Promoted cfg w'.store := by
  cases hm with
  | confirm head m hm hc =>
    rw [← Except.ok.inj hs.confirmThrough_inv.1]
    intro t ht hd
    obtain ⟨u, -, rfl⟩ := MemStore.mem_confirmThrough ht
    rw [StoredTransfer.Deep, StoredTransfer.confirmTo_block] at hd
    simp [StoredTransfer.confirmTo, (le_sub_iff hc).mpr hd]
  | _ => trivial

theorem Gated.since_move (h : Gated heads cfg start p w) (hm : Move cfg p c r p')
    (hs : Step be MemStore.store faults w c r w') : ∃ δ, w'.log = start ++ δ ∧ p'.RolledBack δ := by
  obtain ⟨δ, hlog, hrb⟩ := h.since
  refine ⟨δ ++ [⟨c, r⟩], by simp [hs.log, hlog], ?_⟩
  cases hm with
  | delete n => exact ⟨n, by simp⟩
  | reorg n r =>
    obtain ⟨m, hm⟩ := hrb
    exact ⟨m, List.mem_append_left _ hm⟩
  | _ => trivial

def gating (hbe : be.Rising heads) (cfg : Config) (start : List Act) (faults : Prop) :
    Outline cfg (Step be MemStore.store faults) fun _ _ _ _ ↦ True where
  inv := Gated heads cfg start
  move hm hs h :=
    ⟨trivial, hm.within h.within, (h.head_move hbe hm hs).1, (h.head_move hbe hm hs).2, h.gated_move hbe hm hs,
      Gated.promoted_move hm hs, h.since_move hm hs⟩
  silent {p p' w} hm h := by
    obtain ⟨δ, hlog, hrb⟩ := h.since
    refine ⟨hm.within h.within, hm.headIs h.head, h.rising, h.gated, ?_, δ, hlog, by cases hm <;> trivial⟩
    cases hm with
    | shallow head n hn hc =>
      intro t _ hd
      rw [ge_iff_le, UInt64.le_iff_toNat_le] at hc
      rw [StoredTransfer.Deep] at hd
      omega
    | _ => trivial

omit [GoEthereum] in
theorem gated_newMemStore {b : B} (hb : heads b = []) : Gated heads cfg [] .idle ⟨b, .newMemStore, []⟩ where
  within := trivial
  head := trivial
  rising := by simp [hb]
  gated := by simp [MemStore.newMemStore]
  promoted := trivial
  since := ⟨[], rfl, trivial⟩

omit [GoEthereum] in
theorem Gated.restart (h : Gated heads cfg start .idle w) : Gated heads cfg w.log .idle w where
  within := trivial
  head := trivial
  rising := h.rising
  gated := h.gated
  promoted := trivial
  since := ⟨[], by simp, trivial⟩

omit [GoEthereum] in
/-- At the end of a sync the flags are exact. -/
theorem Gated.exact {h : UInt64} (hg : Gated heads cfg start (.done h) w) :
    ∀ t ∈ w.store.transfers, (t.confirmed = true ↔ t.Deep cfg h) := by
  intro t ht
  refine ⟨fun hc ↦ ?_, hg.promoted t ht⟩
  obtain ⟨k, hk, hd⟩ := hg.gated t ht hc
  have hle := UInt64.le_iff_toNat_le.mp (hg.rising h hg.head k hk)
  exact Nat.le_trans hd hle

/-- The backend that serves one chain and keeps the record of its head. -/
def Chain.risingOracle (c : Chain) : Oracle (List UInt64) where
  header heads q :=
    if q = none then
      if heads.all (· ≤ c.head) then (c.headerByNumber none, c.head :: heads) else (.error .notFound, heads)
    else (c.headerByNumber q, heads)
  logs heads q := (.ok (c.filterLogs q), heads)

theorem Chain.risingOracle_conforms (c : Chain) : c.risingOracle.Conforms risingBackend := by
  refine ⟨fun heads q ↦ ?_, fun heads q ↦ rfl⟩
  cases q with
  | none =>
    by_cases hle : heads.all (· ≤ c.head) = true
    · have he : c.risingOracle.header heads none = (.ok (c.header c.head), c.head :: heads) := if_pos hle
      rw [he]
      simp only [risingBackend, c.head_number64]
      exact ⟨by simpa using hle, trivial⟩
    · have he : c.risingOracle.header heads none = (.error .notFound, heads) := if_neg hle
      rw [he]
      rfl
  | some n => simp [risingOracle, risingBackend]

/-- In every state of a run a confirmed transfer is deep enough below some reported head, and after
a sync that returns nil without a rollback exactly the transfers deep enough below the head
reported last are confirmed. -/
theorem confirmation_exact (cfg : Config) (ticks : List ℕ) :
    (∀ q w, Run (Step risingBackend MemStore.store True) (run cfg ticks) ⟨[], .newMemStore, []⟩ q w →
      ∀ t ∈ w.store.transfers, t.confirmed = true →
        ∃ h ∈ w.backend, t.block.toNat + cfg.confirmations.toNat ≤ h.toNat) ∧
    ∀ w ctx w' δ, Run (Step risingBackend MemStore.store True) (run cfg ticks) ⟨[], .newMemStore, []⟩ (.ret ()) w →
      Run (Step risingBackend MemStore.store True) (sync cfg ctx) w (.ret ()) w' →
      w'.log = w.log ++ δ → (∀ m, ⟨.deleteFrom m, .ok ()⟩ ∉ δ) →
      ∃ h, w'.backend.head? = some h ∧ ∀ t ∈ w'.store.transfers,
        (t.confirmed = true ↔ t.block.toNat + cfg.confirmations.toNat ≤ h.toNat) := by
  constructor
  · intro q w hr
    obtain ⟨p, hp⟩ := (gating risingBackend_rising cfg [] True).reachable (gated_newMemStore rfl) hr
    exact Gated.gated hp
  · intro w ctx w' δ hr hsync hlog hδ
    have hidle : Gated id cfg [] .idle w :=
      (gating risingBackend_rising cfg [] True).idle_of_run (gated_newMemStore rfl) hr
    have hends := (gating risingBackend_rising cfg w.log True).ends_of_run (r := .ok ()) hidle.restart hsync
    obtain ⟨h, hdone⟩ | hrev := hends
    · exact ⟨h, Gated.head hdone, Gated.exact hdone⟩
    · obtain ⟨δ', hlog', m, hm⟩ := Gated.since hrev
      rw [hlog, List.append_cancel_left_eq] at hlog'
      exact absurd (hlog' ▸ hm) (hδ m)

end Moves

/-- One sync of the empty store against the blocks 0 to 2, one transfer in each. -/
def gatedSync [GoEthereum] : Except Err Unit × World (List UInt64) MemStore :=
  (sync ⟨1, 0, []⟩ 5).eval
    ((buildChain 2 3 0 fun n ↦ [transferLog n.toUInt8]).risingOracle.respond MemStore.store) ⟨[], .newMemStore, []⟩

theorem confirmation_exact_gatedSync :
    letI := testEthereum
    gatedSync.2.store.transfers.map (·.confirmed) = [true, true, false] ∧
      ∃ h, gatedSync.2.backend.head? = some h ∧ ∀ t ∈ gatedSync.2.store.transfers,
        (t.confirmed = true ↔ t.block.toNat + 1 ≤ h.toNat) := by
  let := testEthereum
  have hsync : ∀ g : Except Err Unit × World (List UInt64) MemStore, g.1 = .ok () →
      (∀ a ∈ g.2.log, (match a.1 with | .deleteFrom _ => false | _ => true) = true) →
      Run (Step risingBackend MemStore.store True) (sync ⟨1, 0, []⟩ 5) ⟨[], .newMemStore, []⟩ (ofExcept g.1) g.2 →
      ∃ h, g.2.backend.head? = some h ∧ ∀ t ∈ g.2.store.transfers,
        (t.confirmed = true ↔ t.block.toNat + 1 ≤ h.toNat) := by
    rintro ⟨_, w⟩ rfl hlog hr
    exact (confirmation_exact ⟨1, 0, []⟩ []).2 _ 5 w w.log .refl hr rfl fun m hm ↦ Bool.false_ne_true (hlog _ hm)
  exact ⟨by decide +kernel, hsync gatedSync (by decide +kernel) (by decide +kernel)
    ((Chain.risingOracle_conforms _).run _ _ _)⟩

end EventPlatform.ChainMonitor
