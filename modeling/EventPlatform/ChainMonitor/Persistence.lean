import EventPlatform.ChainMonitor.Interchange
import EventPlatform.ChainMonitor.PostgresStore
import EventPlatform.ChainMonitor.Provenance

namespace EventPlatform.ChainMonitor

open Ethereum Interaction Prog Relational

/-- Where a log or a transfer comes from: its transaction and its place in the block. -/
def logOrigin (lg : Log) : Hash × UInt64 := (lg.txHash, lg.index)

variable [GoEthereum]

/-- No log of the chain has the origin of another one. -/
def Chain.Distinct (c : Chain) : Prop := (((span (c.head.toNat + 1) 0).flatMap c.logs).map logOrigin).Nodup

/-- What a `BIGINT` column must hold is below `2 ^ 63`. -/
structure Chain.Fits (c : Chain) : Prop where
  head : c.head.toNat < 2 ^ 63
  time : ∀ n ≤ c.head, (c.header n).time.toNat < 2 ^ 63
  index : ∀ n ≤ c.head, ∀ lg ∈ c.logs n, lg.index.toNat < 2 ^ 63

section Origins

variable {c : Chain} {cfg : Config} {n m : UInt64}

omit [GoEthereum] in
theorem filterMap_decode_origin (l : List Log) :
    ((l.filterMap decode).map Transfer.origin).Sublist (l.map logOrigin) := by
  induction l with
  | nil => exact .slnil
  | cons lg l ih =>
    cases hd : decode lg with
    | none =>
      rw [List.filterMap_cons_none hd]
      exact ih.cons _
    | some t =>
      obtain ⟨ht, hi⟩ := decode_origin hd
      rw [List.filterMap_cons_some hd, List.map_cons, List.map_cons, Transfer.origin, ht, hi]
      exact ih.cons_cons _

theorem Chain.transfers_origin (c : Chain) (cfg : Config) (n : UInt64) :
    ((c.transfers cfg n).map Transfer.origin).Sublist ((c.logs n).map logOrigin) :=
  (filterMap_decode_origin _).trans (List.filter_sublist.map _)

theorem Chain.mem_span_head (hn : n ≤ c.head) : n ∈ span (c.head.toNat + 1) 0 := by
  have hle := UInt64.le_iff_toNat_le.mp hn
  have hlt := c.head.toNat_lt
  refine (mem_span ?_).mpr ⟨Nat.zero_le _, ?_⟩
  · rw [UInt64.toNat_zero]
    omega
  · rw [UInt64.toNat_zero]
    omega

theorem Chain.Distinct.nodup (h : c.Distinct) (cfg : Config) (hn : n ≤ c.head) :
    ((c.transfers cfg n).map Transfer.origin).Nodup := by
  rw [Chain.Distinct, List.map_flatMap, List.nodup_flatMap] at h
  exact (h.1 n (mem_span_head hn)).sublist (c.transfers_origin cfg n)

/-- The transfers of different blocks have different origins. -/
theorem Chain.Distinct.ne (h : c.Distinct) (hn : n ≤ c.head) (hm : m ≤ c.head) (hnm : n ≠ m) {t u : Transfer}
    (ht : t ∈ c.transfers cfg n) (hu : u ∈ c.transfers cfg m) : t.origin ≠ u.origin := by
  rw [Chain.Distinct, List.map_flatMap, List.nodup_flatMap] at h
  have hsymm : Std.Symm (Function.onFun List.Disjoint fun a ↦ (c.logs a).map logOrigin) :=
    ⟨fun _ _ hab ↦ List.Disjoint.symm hab⟩
  have hd := h.2.forall (mem_span_head hn) (mem_span_head hm) hnm
  intro he
  refine hd ((c.transfers_origin cfg n).subset (List.mem_map_of_mem ht)) ?_
  rw [he]
  exact (c.transfers_origin cfg m).subset (List.mem_map_of_mem hu)

end Origins

/-- A call that the tables take without a conflict, a failed reference or a value out of range. -/
def PostgresStore.Admits (s : PostgresStore) : Call → Prop
  | .saveBlock b ts f => b.number.toNat < 2 ^ 63 ∧ b.time.toNat < 2 ^ 63 ∧ (∀ t ∈ ts, t.logIndex.toNat < 2 ^ 63) ∧
      ¬ s.blocks.Taken (b.number.toNat : ℤ) ∧
      ((s.transfers.rows ++ ts.map (TransferRow.of ⟨b.number, ·, f⟩)).map TransferRow.origin).Nodup
  | .blockByNumber n | .deleteFrom n | .confirmThrough n => n.toNat < 2 ^ 63
  | .lastBlock | .headerByNumber _ | .filterLogs _ | .publish _ => True

theorem Holds.alike {m : MemStore} {s : PostgresStore} {c : Call} (h : Holds m s) (ha : s.Admits c) :
    Alike MemStore.store PostgresStore.store Holds m s c := by
  cases c with
  | saveBlock b ts f =>
    obtain ⟨hn, ht, hi, hfree, hnew⟩ := ha
    obtain ⟨s', hs, hm⟩ := h.saveBlock hn ht hfree hi hnew
    change Outcomes Holds (.ok _) (s.saveBlock b ts f)
    rw [hs]
    exact hm
  | lastBlock => exact h.lastBlock
  | blockByNumber n => exact h.blockByNumber ha
  | deleteFrom n =>
    obtain ⟨s', hs, hm⟩ := h.deleteFrom ha
    change Outcomes Holds (.ok _) (s.deleteFrom n)
    rw [hs]
    exact hm
  | confirmThrough n =>
    obtain ⟨s', hs, hm⟩ := h.confirmThrough ha
    change Outcomes Holds (.ok _) (s.confirmThrough n)
    rw [hs]
    exact hm
  | headerByNumber | filterLogs | publish => trivial

/-- The assertion at each point, over the in-memory store. -/
structure Persisted (cfg : Config) (logsOf : Hash → List Log) (canon : ℕ → Chain) (p : Point)
    (w : World Clock MemStore) : Prop where
  sourced : Sourced cfg logsOf canon p w
  taken : ∀ b ∈ w.store.index, ∃ hd ∈ canonHeaders canon, b = .ofHeader b.number hd
  head : p.HeadIs fun h ↦ h.toNat < 2 ^ 63
  low : ∀ b ∈ w.store.index, b.number.toNat < 2 ^ 63

section Runs

variable {cfg : Config} {logsOf : Hash → List Log} {canon : ℕ → Chain} {p p' : Point} {w w' : World Clock MemStore}
  {c : Call} {r : Except Err c.Reply} {faults : Prop}

theorem Persisted.move (hmax : ∀ t, (canon t).head.toNat < 2 ^ 63) (hlogs : ∀ t, (canon t).LogsBy logsOf)
    (h : Persisted cfg logsOf canon p w) (hm : Move cfg p c r p')
    (hs : Step (pinnedBackend canon).lossy MemStore.store faults w c r w') : Persisted cfg logsOf canon p' w' where
  sourced := h.sourced.move (fun t ↦ by have := hmax t; omega) hlogs hm hs
  taken := h.sourced.read.taken_move h.taken hm hs
  head := by
    refine hm.headIs h.head fun hd he ↦ ?_
    cases he
    rw [Chain.number64_of_head (Backend.lossy_header_ok hs.header_inv.1).2.2]
    exact hmax _
  low := by
    refine MemStore.forall_index_step hs h.low fun b ts f he ↦ ?_
    obtain ⟨head, hb, hle⟩ := hm.saved_le h.sourced.steady.within h.head he
    omega

/-- The stored blocks and the block about to be saved lie on one chain. -/
theorem Persisted.agrees (hinj : Set.InjOn GoEthereum.headerHash (canonHeaders canon)) {head n : UInt64} {hd : Header}
    {ts : List Transfer} (h : Persisted cfg logsOf canon (.fetched head n hd ts) w) :
    (canon w.backend.asked).Agrees w.store := by
  obtain ⟨hn, hh⟩ := h.sourced.read
  have hl := h.sourced.steady.linked
  have htaken : Taken (canonHeaders canon) (canon w.backend.asked) w.store :=
    ⟨hinj, fun n hn ↦ ⟨_, n, hn, rfl⟩, h.taken⟩
  cases hi : w.store.index.head? with
  | none =>
    intro b hb
    rw [List.head?_eq_none_iff.mp hi] at hb
    cases hb
  | some b =>
    obtain ⟨hnum, hp⟩ := h.sourced.steady.tracks b hi
    have hpos : 0 < n := UInt64.lt_iff_toNat_lt.mpr (by rw [hnum]; exact Nat.succ_pos _)
    have hprev := toNat_pred hpos
    have hb : b.number = n - 1 := UInt64.toNat_inj.mp (by omega)
    refine htaken.agrees_of_head hl hi ?_ ?_
    · have := UInt64.le_iff_toNat_le.mp hn
      exact UInt64.le_iff_toNat_le.mpr (by omega)
    · rw [← hp, ← hh, hb, Chain.parentHash_eq hpos hn]

theorem Persisted.batch (hlogs : ∀ t, (canon t).LogsBy logsOf) {head n : UInt64} {hd : Header} {ts : List Transfer}
    (h : Persisted cfg logsOf canon (.fetched head n hd ts) w) : ts = (canon w.backend.asked).transfers cfg n := by
  obtain ⟨hn, rfl⟩ := h.sourced.read
  exact h.sourced.fetched.trans ((hlogs _).transfers hn).symm

/-- The batch about to be saved has no origin in common with what is stored. -/
theorem Persisted.new_origins (hinj : Set.InjOn GoEthereum.headerHash (canonHeaders canon))
    (hlogs : ∀ t, (canon t).LogsBy logsOf) (hdist : ∀ t, (canon t).Distinct) {head n : UInt64} {hd : Header}
    {ts : List Transfer} (h : Persisted cfg logsOf canon (.fetched head n hd ts) w) {s : PostgresStore}
    (hs : Holds w.store s) (f : Bool) :
    ((s.transfers.rows ++ ts.map (TransferRow.of ⟨n, ·, f⟩)).map TransferRow.origin).Nodup := by
  obtain ⟨hn, rfl⟩ := h.sourced.read
  have hagrees := h.agrees hinj
  have hserves := hagrees.serves (hlogs _) (belongs_of_batches h.sourced.filed h.sourced.batches)
  have hts := h.batch hlogs
  rw [List.map_append, List.map_map, List.nodup_append]
  refine ⟨s.transfers.unique, ?_, ?_⟩
  · have hnodup := (hdist w.backend.asked).nodup cfg hn
    rw [hts, List.Nodup, List.pairwise_map]
    exact (List.pairwise_map.mp hnodup).imp fun hne he ↦ hne ((TransferRow.origin_of _ _).mp he)
  · intro _ hold _ hnew he
    obtain ⟨row, hrow, rfl⟩ := List.mem_map.mp hold
    obtain ⟨u, hu, rfl⟩ := List.mem_map.mp (hs.transfers.mem_iff.mp hrow)
    obtain ⟨t, ht, rfl⟩ := List.mem_map.mp hnew
    have hblock := h.sourced.filed u hu
    obtain ⟨b, hb, hbn⟩ := MemStore.mem_blocks.mp hblock
    have hne : u.block ≠ n := fun hun ↦ h.sourced.steady.tracks.not_mem h.sourced.steady.linked (hun ▸ hblock)
    have hmem : u.transfer ∈ (canon w.backend.asked).transfers cfg u.block := by
      have hof : u.transfer ∈ (w.store.transfersOf u.block).map (·.transfer) :=
        List.mem_map_of_mem (List.mem_filter.mpr ⟨hu, decide_eq_true rfl⟩)
      rwa [hserves, if_pos hblock] at hof
    exact (hdist _).ne (hbn ▸ (hagrees b hb).1) hn hne hmem (hts ▸ ht) ((TransferRow.origin_of _ _).mp he)

theorem Persisted.admits (hfits : ∀ t, (canon t).Fits) (hinj : Set.InjOn GoEthereum.headerHash (canonHeaders canon))
    (hlogs : ∀ t, (canon t).LogsBy logsOf) (hdist : ∀ t, (canon t).Distinct)
    (h : Persisted cfg logsOf canon p w) (hm : Move cfg p c r p') {s : PostgresStore} (hs : Holds w.store s) :
    s.Admits c := by
  induction hm with
  | save head n hd ts =>
    have hw := UInt64.le_iff_toNat_le.mp h.sourced.steady.within
    have hb : head.toNat < 2 ^ 63 := h.head
    obtain ⟨hn, hh⟩ := h.sourced.read
    refine ⟨lt_of_le_of_lt hw hb, ?_, ?_, ?_, h.new_origins hinj hlogs hdist hs _⟩
    · rw [← hh]
      exact (hfits _).time n hn
    · intro t ht
      rw [h.batch hlogs] at ht
      obtain ⟨lg, hlg, he⟩ := List.mem_map.mp
        (((canon w.backend.asked).transfers_origin cfg n).subset (List.mem_map_of_mem ht))
      rw [← (Prod.mk.inj he).2]
      exact (hfits _).index n hn lg hlg
    · rw [hs.taken_iff]
      exact h.sourced.steady.tracks.not_mem h.sourced.steady.linked
  | orphan head n hd b hn hne | parent head n hd prev hn heq =>
    have hw := UInt64.le_iff_toNat_le.mp h.sourced.steady.within
    have hb : head.toNat < 2 ^ 63 := h.head
    have := toNat_pred hn
    change (n - 1).toNat < 2 ^ 63
    omega
  | delete n =>
    obtain ⟨b, hb, rfl⟩ := h.sourced.steady.tracks
    exact h.low b (List.mem_of_mem_head? hb)
  | confirm head n hn hc =>
    have hb : head.toNat < 2 ^ 63 := h.head
    have := UInt64.toNat_sub_of_le _ _ hc
    change (head - cfg.confirmations).toNat < 2 ^ 63
    omega
  | error _ _ _ ih => exact ih h
  | _ => trivial

def persisting (cfg : Config) (faults : Prop) (hmax : ∀ t, (canon t).head.toNat < 2 ^ 63)
    (hlogs : ∀ t, (canon t).LogsBy logsOf) :
    Outline cfg (Step (pinnedBackend canon).lossy MemStore.store faults) fun _ _ _ _ ↦ True where
  inv := Persisted cfg logsOf canon
  move hm hs h := ⟨trivial, h.move hmax hlogs hm hs⟩
  silent hm h := ⟨h.sourced.silent hm, h.taken, hm.headIs h.head, h.low⟩

theorem persisted_start : Persisted cfg logsOf canon .idle ⟨.start, .newMemStore, []⟩ :=
  ⟨sourced_start, by simp, trivial, by simp⟩

theorem persisting_interchange (cfg : Config) (faults : Prop) (hfits : ∀ t, (canon t).Fits)
    (hinj : Set.InjOn GoEthereum.headerHash (canonHeaders canon)) (hlogs : ∀ t, (canon t).LogsBy logsOf)
    (hdist : ∀ t, (canon t).Distinct) : Interchange (persisting cfg faults (fun t ↦ (hfits t).head) hlogs)
      PostgresStore.store Holds PostgresStore.Admits where
  admitted hm h hs := Persisted.admits hfits hinj hlogs hdist h hm hs
  alike := Holds.alike

theorem matched_start {k : Clock} : Matched Holds ⟨k, .newMemStore, []⟩ ⟨k, .newPostgresStore, []⟩ :=
  ⟨rfl, rfl, Holds.empty⟩

/-- Every run over one store is a run over the other one, with the same calls, answers and messages and
the same blocks and transfers; no block row is overwritten and no transfer row dropped. -/
theorem postgres_interchangeable (cfg : Config) (logsOf : Hash → List Log) (canon : ℕ → Chain) (faults : Prop)
    (hfits : ∀ t, (canon t).Fits) (hinj : Set.InjOn GoEthereum.headerHash (canonHeaders canon))
    (hlogs : ∀ t, (canon t).LogsBy logsOf) (hdist : ∀ t, (canon t).Distinct) (ticks : List ℕ) :
    (∀ q w, Run (Step (pinnedBackend canon).lossy MemStore.store faults) (run cfg ticks)
        ⟨.start, .newMemStore, []⟩ q w →
      ∃ v, Run (Step (pinnedBackend canon).lossy PostgresStore.store faults) (run cfg ticks)
        ⟨.start, .newPostgresStore, []⟩ q v ∧ Matched Holds w v) ∧
    (∀ q v, Run (Step (pinnedBackend canon).lossy PostgresStore.store faults) (run cfg ticks)
        ⟨.start, .newPostgresStore, []⟩ q v →
      ∃ w, Run (Step (pinnedBackend canon).lossy MemStore.store faults) (run cfg ticks)
        ⟨.start, .newMemStore, []⟩ q w ∧ Matched Holds w v) ∧
    ∀ b ts f k v, Run (Step (pinnedBackend canon).lossy PostgresStore.store faults) (run cfg ticks)
        ⟨.start, .newPostgresStore, []⟩ (.call (.saveBlock b ts f) k) v →
      (∀ row ∈ v.store.blocks.rows, row.number ≠ b.number.toNat) ∧
      ((v.store.transfers.rows ++ ts.map (TransferRow.of ⟨b.number, ·, f⟩)).map TransferRow.origin).Nodup := by
  refine ⟨fun q w hr ↦ ?_, fun q v hr ↦ ?_, fun b ts f k v hr ↦ ?_⟩
  · exact (persisting_interchange cfg faults hfits hinj hlogs hdist).forward persisted_start matched_start hr
  · exact (persisting_interchange cfg faults hfits hinj hlogs hdist).backward persisted_start matched_start hr
  · have hr' : Run (Step (pinnedBackend canon).lossy PostgresStore.store True) _ _ _ _ :=
      hr.mono fun _ _ _ _ hs ↦ hs.mono fun _ ↦ trivial
    obtain ⟨-, -, -, hfree, hnew⟩ := (persisting_interchange cfg True hfits hinj hlogs hdist).admits_call
      persisted_start matched_start trivial rfl hr'
    exact ⟨fun row hrow he ↦ hfree (he ▸ List.mem_map_of_mem hrow), hnew⟩

end Runs

/-- Two chains with the same transaction, in block 1 of the first one and in block 2 of the second one. -/
def remined (second : Bool) : Chain :=
  if second then buildChain 2 1 1 fun n ↦ if n = 2 then [transferLog 1] else []
  else buildChain 1 3 0 fun n ↦ if n = 1 then [transferLog 1] else []

def reminedLogs (h : Hash) : List Log :=
  if h = (remined false).hashAt 1 ∨ h = (remined true).hashAt 2 then [transferLog 1] else []

/-- Three syncs over Postgres; the chain is replaced after the first one. -/
def reminedRun : World Clock PostgresStore :=
  ((run ⟨1, 0, []⟩ [5, 5, 5]).eval ((pinnedOracle fun t ↦ remined (5 < t)).respond PostgresStore.store)
    ⟨.start, .newPostgresStore, []⟩).2

theorem remined_head (second : Bool) {n : UInt64} (hn : n ≤ (remined second).head) : n.toNat ≤ 2 := by
  have hle := UInt64.le_iff_toNat_le.mp hn
  cases second with
  | false => exact Nat.le_succ_of_le hle
  | true => exact hle

omit [GoEthereum] in
theorem remined_fits (second : Bool) : letI := testEthereum; (remined second).Fits := by
  let := testEthereum
  have htime : ∀ a, ∀ i ≤ 2, ((remined a).header (.ofNat i)).time.toNat < 2 ^ 63 := by decide
  have hindex : ∀ a, ∀ i ≤ 2, ∀ lg ∈ (remined a).logs (.ofNat i), lg.index.toNat < 2 ^ 63 := by decide
  refine ⟨by cases second <;> decide, fun n hn ↦ ?_, fun n hn ↦ ?_⟩
  · have hi := htime second n.toNat (remined_head _ hn)
    rwa [UInt64.ofNat_toNat] at hi
  · have hi := hindex second n.toNat (remined_head _ hn)
    rwa [UInt64.ofNat_toNat] at hi

omit [GoEthereum] in
theorem remined_injOn (second : ℕ → Bool) : letI := testEthereum
    Set.InjOn GoEthereum.headerHash (canonHeaders fun t ↦ remined (second t)) := by
  let := testEthereum
  have hmem : ∀ a, ∀ i ≤ 2, (remined a).header (.ofNat i) ∈ testHashes.map Prod.fst := by decide
  refine testEthereum_injOn.mono ?_
  rintro _ ⟨t, n, hn, rfl⟩
  have hi := hmem (second t) n.toNat (remined_head _ hn)
  rwa [UInt64.ofNat_toNat] at hi

omit [GoEthereum] in
theorem remined_logsBy (second : Bool) : letI := testEthereum; (remined second).LogsBy reminedLogs := by
  let := testEthereum
  have h : ∀ a, ∀ i ≤ 2, (remined a).logs (.ofNat i) = reminedLogs ((remined a).hashAt (.ofNat i)) := by decide
  intro n hn
  have hi := h second n.toNat (remined_head _ hn)
  rwa [UInt64.ofNat_toNat] at hi

omit [GoEthereum] in
theorem remined_distinct (second : Bool) : letI := testEthereum; (remined second).Distinct := by
  unfold Chain.Distinct
  cases second <;> decide

omit [GoEthereum] in
theorem postgres_interchangeable_remined :
    letI := testEthereum
    reminedRun.store.transfers.rows.map (·.blockNumber) = [2] ∧
      ∃ w, Run (Step (pinnedBackend fun t ↦ remined (5 < t)).lossy MemStore.store False) (run ⟨1, 0, []⟩ [5, 5, 5])
        ⟨.start, .newMemStore, []⟩ (.ret ()) w ∧ Matched Holds w reminedRun := by
  have hrun : ∀ [GoEthereum], (∀ a, (remined a).Fits) →
      Set.InjOn GoEthereum.headerHash (canonHeaders fun t ↦ remined (5 < t)) →
      (∀ a, (remined a).LogsBy reminedLogs) → (∀ a, (remined a).Distinct) →
      ∃ w, Run (Step (pinnedBackend fun t ↦ remined (5 < t)).lossy MemStore.store False) (run ⟨1, 0, []⟩ [5, 5, 5])
        ⟨.start, .newMemStore, []⟩ (.ret ()) w ∧ Matched Holds w reminedRun := by
    intro _ hfits hinj hlogs hdist
    exact (postgres_interchangeable _ reminedLogs _ False (fun _ ↦ hfits _) hinj (fun _ ↦ hlogs _) (fun _ ↦ hdist _)
      [5, 5, 5]).2.1 _ _ ((pinnedOracle_conforms _).run_ticks _ _ _ _)
  exact ⟨by decide +kernel, @hrun testEthereum remined_fits (remined_injOn _) remined_logsBy remined_distinct⟩

end EventPlatform.ChainMonitor
