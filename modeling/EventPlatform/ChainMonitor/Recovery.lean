import EventPlatform.ChainMonitor.Incremental
import EventPlatform.ChainMonitor.Restart

namespace EventPlatform.ChainMonitor

open Ethereum Interaction Prog

variable [GoEthereum] {c : Chain} {cfg : Config} {p p' : Point} {faults : Prop} {w : World Growth MemStore} {op : Call}
  {r : Except Err op.Reply} {s : PostgresStore}

section Admission

variable {k : ℕ} {head n : UInt64} {hd : Header} {ts : List Transfer}

theorem Progress.on_chain (h : Progress cfg c p w k) {u : StoredTransfer} (hu : u ∈ w.store.transfers) :
    u.block ∈ span k cfg.startBlock ∧ u.transfer ∈ c.transfers cfg u.block := by
  have hmem : (u.block, u.transfer) ∈ c.pairs cfg (span k cfg.startBlock) := by
    rw [← h.transfers]
    exact List.mem_map_of_mem hu
  obtain ⟨n, hn, hx⟩ := List.mem_flatMap.mp hmem
  obtain ⟨t, ht, heq⟩ := List.mem_map.mp hx
  cases heq
  exact ⟨hn, ht⟩

theorem Grown.exists_progress (hfits : c.Fits) (h : Grown cfg c p w) : ∃ k, Progress cfg c p w k := by
  obtain ⟨m, hm, hmax⟩ | hk := h.progress
  · have hle := UInt64.le_iff_toNat_le.mp (UInt64.le_trans (w.backend.le m hm) h.bound)
    have := hfits.head
    omega
  · exact hk

/-- The blocks stored so far are below the one about to be saved. -/
theorem Progress.span_lt (h : Progress cfg c (.fetched head n hd ts) w k) {m : UInt64}
    (hm : m ∈ span k cfg.startBlock) : m.toNat < n.toNat := by
  have hplace : n.toNat = cfg.startBlock.toNat + k := h.place
  have hlt := n.toNat_lt
  have := ((mem_span (by omega)).mp hm).2
  omega

theorem Grown.admits_save (hfits : c.Fits) (hdist : c.Distinct) (h : Grown cfg c (.fetched head n hd ts) w)
    (hs : Holds w.store s) (f : Bool) : s.Admits (.saveBlock (.ofHeader n hd) ts f) := by
  obtain ⟨k, hk⟩ := h.exists_progress hfits
  obtain ⟨hnow, rfl, rfl⟩ := h.inHand
  have hn : n ≤ c.head := UInt64.le_trans hnow h.bound
  refine ⟨lt_of_le_of_lt (UInt64.le_iff_toNat_le.mp hn) hfits.head, hfits.time n hn, ?_, ?_, ?_⟩
  · intro t ht
    obtain ⟨lg, hlg, he⟩ := List.mem_map.mp ((c.transfers_origin cfg n).subset (List.mem_map_of_mem ht))
    rw [← (Prod.mk.inj he).2]
    exact hfits.index n hn lg hlg
  · change ¬ s.blocks.Taken (n.toNat : ℤ)
    rw [hs.taken_iff]
    intro hmem
    obtain ⟨b, hb, hbn⟩ := MemStore.mem_blocks.mp hmem
    rw [hk.index, List.mem_reverse, List.mem_map] at hb
    obtain ⟨m, hm, rfl⟩ := hb
    have hlt := hk.span_lt hm
    have hmn : m = n := hbn
    rw [hmn] at hlt
    exact lt_irrefl _ hlt
  · rw [List.map_append, List.map_map, List.nodup_append]
    refine ⟨s.transfers.unique, ?_, ?_⟩
    · rw [List.Nodup, List.pairwise_map]
      exact (List.pairwise_map.mp (hdist.nodup cfg hn)).imp fun hne he ↦ hne ((TransferRow.origin_of _ _).mp he)
    · intro _ hold _ hnew he
      obtain ⟨row, hrow, rfl⟩ := List.mem_map.mp hold
      obtain ⟨u, hu, rfl⟩ := List.mem_map.mp (hs.transfers.mem_iff.mp hrow)
      obtain ⟨t, ht, rfl⟩ := List.mem_map.mp hnew
      obtain ⟨hspan, hut⟩ := hk.on_chain hu
      have hlt := hk.span_lt hspan
      have hle : u.block ≤ c.head := UInt64.le_trans (UInt64.le_iff_toNat_le.mpr hlt.le) hn
      have hne : u.block ≠ n := fun heq ↦ absurd (heq ▸ hlt) (lt_irrefl _)
      exact hdist.ne hle hn hne hut ht ((TransferRow.origin_of _ _).mp he)

theorem Grown.admits (hfits : c.Fits) (hdist : c.Distinct) (h : Grown cfg c p w) (hm : Move cfg p op r p')
    (hs : Holds w.store s) : s.Admits op := by
  have hreported (head : UInt64) (hh : w.backend.reported.head? = some head) : head.toNat < 2 ^ 63 := by
    have hle := UInt64.le_trans (w.backend.le head (List.mem_of_mem_head? hh)) h.bound
    exact lt_of_le_of_lt (UInt64.le_iff_toNat_le.mp hle) hfits.head
  induction hm with
  | save head n hd ts => exact h.admits_save hfits hdist hs _
  | orphan head n hd b hn hne | parent head n hd prev hn heq =>
    have hw := UInt64.le_iff_toNat_le.mp h.gated.within
    have hb := hreported head h.gated.head
    have := toNat_pred hn
    change (n - 1).toNat < 2 ^ 63
    omega
  | delete n => exact h.forward.elim
  | confirm head n hn hc =>
    have hb := hreported head h.gated.head
    have := UInt64.toNat_sub_of_le _ _ hc
    change (head - cfg.confirmations).toNat < 2 ^ 63
    omega
  | error _ _ _ ih => exact ih h
  | head | empty | last | diverged | matched | reorg | header | logs | announce => trivial

theorem growing_interchange (hfits : c.Fits) (hdist : c.Distinct) (cfg : Config) (faults : Prop) :
    Interchange (growing c cfg faults) PostgresStore.store Holds PostgresStore.Admits where
  admitted hm h hs := Grown.admits hfits hdist h hm hs
  alike := Holds.alike

end Admission

section Lives

/-- The end of a life leaves what it would have left after its pending messages. -/
theorem Grown.crash (h : Grown cfg c p w) : Grown cfg c .idle ⟨w.backend, w.store, w.log ++ spoken p.pending⟩ := by
  refine ⟨⟨trivial, trivial, h.gated.rising, h.gated.gated, trivial, ⟨_, rfl, trivial⟩⟩, h.bound, h.agrees, trivial,
    trivial, h.progress.imp_right fun ⟨k, hk⟩ ↦ ⟨k, hk.index, hk.transfers, ?_, hk.fits, trivial⟩⟩
  rw [published_append, published_spoken, ← hk.events]
  exact congrArg _ (List.append_nil _)

/-- With a start block of its own the binary makes no call before its first sync. -/
theorem main_eq {getenv : String → String} {start : UInt64} (h : envStartBlock getenv = some start) (ticks : List ℕ) :
    main getenv ticks = run ⟨envUint getenv "CONFIRMATIONS" 5, start, []⟩ ticks := by
  unfold main resolveStartBlock
  rw [h]
  rfl

/-- The environments with this number of confirmations and this start block. -/
def fixedEnv (confirmations start : UInt64) : Set (String → String) :=
  {getenv | envUint getenv "CONFIRMATIONS" 5 = confirmations ∧ envStartBlock getenv = some start}

variable {parts : List (List Event)} {v : World Growth PostgresStore} {confirmations start : UInt64}

/-- The tables, with a log in which no message was lost. -/
theorem exists_grown (hfits : c.Fits) (hdist : c.Distinct)
    (h : Lives (growingBackend c).lossy PostgresStore.store faults (fixedEnv confirmations start)
      ⟨.start, .newPostgresStore, []⟩ parts v) :
    ∃ w, Grown ⟨confirmations, start, []⟩ c .idle w ∧ Matched Holds w ⟨v.backend, v.store, w.log⟩ := by
  induction h with
  | none => exact ⟨_, grown_start c _, rfl, rfl, Holds.empty⟩
  | next ticks _ henv hr _ ih =>
    obtain ⟨w, hgrown, hw⟩ := ih
    obtain ⟨rfl, hstart⟩ := henv
    rw [main_eq hstart] at hr
    obtain ⟨made, -, hrun⟩ := relog_run hr
    obtain ⟨w', hr', hw'⟩ := (growing_interchange hfits hdist _ faults).backward hgrown hw (hrun w.log)
    obtain ⟨p, hp⟩ := (growing c _ faults).reachable hgrown hr'
    exact ⟨_, Grown.crash hp, hw'.backend, rfl, hw'.store⟩

/-- However often the binary has been stopped and started, at whatever calls: when a sync returns at head `h`, the
tables hold the blocks of the chain from the start block to `h`, with all their transfers and nothing twice, and a
transfer is confirmed exactly if it is deep enough. -/
theorem recovered_of_lives (hfits : c.Fits) (hdist : c.Distinct)
    (hlives : Lives (growingBackend c).lossy PostgresStore.store True (fixedEnv confirmations start)
      ⟨.start, .newPostgresStore, []⟩ parts v) {ctx : ℕ} {v' : World Growth PostgresStore} {h : UInt64}
    (hsync : Run (Step (growingBackend c).lossy PostgresStore.store True) (sync ⟨confirmations, start, []⟩ ctx) v
      (.ret ()) v') (hh : v'.backend.reported.head? = some h) :
    ∃ m : MemStore, Holds m v'.store ∧
      m.index = ((span (h.toNat + 1 - start.toNat) start).map c.block).reverse ∧
      m.transfers = (c.pairs ⟨confirmations, start, []⟩ (span (h.toNat + 1 - start.toNat) start)).map fun x ↦
        ⟨x.1, x.2, decide (x.1.toNat + confirmations.toNat ≤ h.toNat)⟩ := by
  obtain ⟨w, hgrown, hw⟩ := exists_grown hfits hdist hlives
  obtain ⟨made, -, hrun⟩ := relog_run hsync
  obtain ⟨w', hsync', hw'⟩ := (growing_interchange hfits hdist _ True).backward_sync hgrown hw (hrun w.log)
  obtain ⟨k, hg⟩ | hg := (growing c _ True).ends_of_run (r := .ok ()) hgrown hsync'
  · change Grown _ c (.done k) w' at hg
    have hk : some k = some h := by
      rw [← hh, ← hg.gated.head, ← hw'.backend]
    cases hk
    exact ⟨w'.store, hw'.store, hg.done.index, hg.transfers_eq⟩
  · exact (Grown.forward hg).elim

end Lives

/-- A life that is stopped after its first block. -/
def stoppedRun : World Growth PostgresStore :=
  ((main firstBlocks [1]).eval ((remined true).growingOracle.respond PostgresStore.store)
    ⟨.start, .newPostgresStore, []⟩).2

/-- The first sync of the next life. -/
def recoveredSync : Except Err Unit × World Growth PostgresStore :=
  (sync ⟨1, 0, []⟩ 5).eval ((remined true).growingOracle.respond PostgresStore.store) stoppedRun

omit [GoEthereum] in
theorem recovered_of_lives_stopped :
    letI := testEthereum
    stoppedRun.store.blocks.rows.length = 1 ∧ ∃ m : MemStore, Holds m recoveredSync.2.store ∧
      m.index = ((span 3 0).map (remined true).block).reverse := by
  have hsync : ∀ [GoEthereum], Run (Step (growingBackend (remined true)).lossy PostgresStore.store True)
      (sync ⟨1, 0, []⟩ 5) stoppedRun (ofExcept recoveredSync.1) recoveredSync.2 :=
    (Chain.growingOracle_conforms _).run _ _ _
  have hstopped : ∀ [GoEthereum], Run (Step (growingBackend (remined true)).lossy PostgresStore.store True)
      (main firstBlocks [1]) ⟨.start, .newPostgresStore, []⟩ _ stoppedRun := (Chain.growingOracle_conforms _).run _ _ _
  have hrecovered : ∀ [GoEthereum], (remined true).Fits → (remined true).Distinct → recoveredSync.1 = .ok () →
      recoveredSync.2.backend.reported.head? = some 2 → ∃ m : MemStore, Holds m recoveredSync.2.store ∧
        m.index = ((span 3 0).map (remined true).block).reverse := by
    intro _ hfits hdist hok hh
    have hs := hsync
    rw [hok] at hs
    have hlives : Lives _ _ _ (fixedEnv 1 0) _ _ stoppedRun :=
      Lives.none.next [1] ⟨by decide, by decide⟩ hstopped (log_eq_append_drop hstopped)
    obtain ⟨m, hm, hindex, -⟩ := recovered_of_lives hfits hdist hlives hs hh
    exact ⟨m, hm, hindex⟩
  exact ⟨by decide +kernel, @hrecovered testEthereum (remined_fits true) (remined_distinct true) (by decide +kernel)
    (by decide +kernel)⟩

end EventPlatform.ChainMonitor
