import EventPlatform.ChainMonitor.Tracking

namespace EventPlatform.ChainMonitor

open Ethereum Interaction Prog

/-- A backend that may answer anything and fail at any time. Only the head numbers
that it reports are bounded. -/
def boundedBackend : Backend Unit where
  header _ q r _ := ∀ hd, q = none → r = .ok hd → hd.number64.toNat + 1 < 2 ^ 64
  logs _ _ _ _ := True

/-- The successful calls that write or remove the block at `n`. -/
def Touches (n : UInt64) : Act → Prop
  | ⟨.saveBlock b _ _, .ok _⟩ => b.number = n
  | ⟨.deleteFrom m, .ok _⟩ => m ≤ n
  | _ => False

/-- The transfers `ts` are the batch that was decoded right before `b` was saved, and
nothing has written or removed that number since. -/
def SavedWith (cfg : Config) (log : List Act) (b : Block) (ts : List Transfer) : Prop :=
  ∃ (before after : List Act) (logs : List Log) (f : Bool),
    log = before ++ [⟨.filterLogs (transferQuery cfg b.number), .ok logs⟩,
      ⟨.saveBlock b ts f, .ok ()⟩] ++ after ∧
    ts = logs.filterMap decode ∧ ∀ a ∈ after, ¬ Touches b.number a

/-- What holds of a store and of the calls that led to it. -/
structure WellFormed (cfg : Config) (s : MemStore) (log : List Act) : Prop where
  contiguous : s.Contiguous
  parentLinked : s.ParentLinked
  numbered : ∀ (n : UInt64) (b : Block), s.blocks[n]? = some b → b.number = n
  filed : ∀ t ∈ s.transfers, t.block ∈ s.blocks
  ordered : s.transfers.Pairwise fun t u ↦ t.block ≤ u.block
  batches : ∀ (n : UInt64) (b : Block), s.blocks[n]? = some b →
    SavedWith cfg log b ((s.transfersOf n).map (·.transfer))

variable {cfg : Config} {s : MemStore} {log : List Act}

theorem SavedWith.append {b : Block} {ts : List Transfer} (h : SavedWith cfg log b ts) {a : Act}
    (ha : ¬ Touches b.number a) : SavedWith cfg (log ++ [a]) b ts := by
  obtain ⟨before, after, logs, f, rfl, hts, hafter⟩ := h
  refine ⟨before, after ++ [a], logs, f, by simp, hts, ?_⟩
  intro x hx
  rcases List.mem_append.mp hx with hx | hx
  · exact hafter x hx
  · rwa [List.mem_singleton.mp hx]

theorem not_touches_error {n : UInt64} {c : Call} {e : Err} : ¬ Touches n ⟨c, .error e⟩ := by
  cases c <;> exact id

/-- Between the two calls, the batch to be saved is the one just fetched. -/
def Fresh (cfg : Config) : Point → List Act → Prop
  | .fetched _ n _ ts, log => ∃ (before : List Act) (logs : List Log),
      log = before ++ [⟨.filterLogs (transferQuery cfg n), .ok logs⟩] ∧ ts = logs.filterMap decode
  | _, _ => True

theorem append_batches (h : s.Batches (SavedWith cfg log)) {a : Act} (ha : ∀ n, ¬ Touches n a) :
    s.Batches (SavedWith cfg (log ++ [a])) := h.imp fun _ _ hb ↦ hb.append (ha _)

theorem deleteFrom_batches (h : s.Batches (SavedWith cfg log)) (n : UInt64) :
    (s.deleteFrom n).Batches (SavedWith cfg (log ++ [⟨.deleteFrom n, .ok ()⟩])) :=
  (h.deleteFrom n).imp fun _ _ hb ↦ hb.2.append (UInt64.not_le.mpr hb.1)

section Saving

variable {head n : UInt64} {hd : Header} {ts : List Transfer}

variable [GoEthereum]

theorem saveBlock_batches (h : s.Batches (SavedWith cfg log)) (hl : s.Linked) (hf : s.Filed)
    (ht : Tracks (.fetched head n hd ts) s) (hfresh : Fresh cfg (.fetched head n hd ts) log) (f : Bool) :
    (s.saveBlock (.ofHeader n hd) ts f).Batches
      (SavedWith cfg (log ++ [⟨.saveBlock (.ofHeader n hd) ts f, .ok ()⟩])) := by
  refine (h.saveBlock hf (ht.not_mem hl) ts f).imp ?_
  rintro b us (⟨rfl, rfl⟩ | ⟨hne, hb⟩)
  · obtain ⟨before, logs, rfl, rfl⟩ := hfresh
    exact ⟨before, [], logs, f, by simp [Block.ofHeader], rfl, by simp⟩
  · exact hb.append hne

theorem MemStore.Filed.ordered_saveBlock (hf : s.Filed) (hl : s.Linked)
    (ho : s.transfers.Pairwise fun t u ↦ t.block ≤ u.block)
    (ht : Tracks (.fetched head n hd ts) s) (f : Bool) :
    (s.saveBlock (.ofHeader n hd) ts f).transfers.Pairwise fun t u ↦ t.block ≤ u.block := by
  rw [MemStore.saveBlock, List.pairwise_append]
  refine ⟨ho, ?_, ?_⟩
  · rw [List.pairwise_map]
    exact List.pairwise_of_forall fun _ _ ↦ UInt64.le_refl _
  · intro t htr u hu
    obtain ⟨v, _, rfl⟩ := List.mem_map.mp hu
    obtain ⟨b, hb, hn⟩ := MemStore.mem_blocks.mp (hf t htr)
    rw [← hn]
    exact UInt64.le_iff_toNat_le.mpr (ht.below hl b hb).le

end Saving

/-- The assertion at each point of a run. -/
structure Sound {B : Type} (cfg : Config) (p : Point) (w : World B MemStore) : Prop where
  steady : Steady p w.store
  filed : w.store.Filed
  ordered : w.store.transfers.Pairwise fun t u ↦ t.block ≤ u.block
  batched : w.store.Batches (SavedWith cfg w.log)
  fresh : Fresh cfg p w.log

section Runs

variable [GoEthereum] {B : Type} {be : Backend B} {faults : Prop} {w w' : World B MemStore}
  {p p' : Point} {c : Call} {r : Except Err c.Reply}

theorem Fresh.move (hm : Move cfg p c r p') (hs : Step be MemStore.store faults w c r w') :
    Fresh cfg p' w'.log := by
  cases hm with
  | logs head n hd logs => exact ⟨w.log, logs, hs.log, rfl⟩
  | _ => trivial

theorem Sound.move (h : Sound cfg p w) (hm : Move cfg p c r p')
    (hs : Step be MemStore.store faults w c r w')
    (hnew : ∀ hd, (⟨c, r⟩ : Act) = ⟨.headerByNumber none, .ok hd⟩ → hd.number64.toNat + 1 < 2 ^ 64) :
    Sound cfg p' w' := by
  have hst := h.steady.move hm hs hnew
  have hfl := h.filed.move hs
  have hfr : Fresh cfg p' w'.log := .move hm hs
  cases hs with
  | saveBlock hb =>
    obtain ⟨head, n, hd, rfl, rfl, rfl, rfl⟩ := hm.of_saveBlock
    cases hb
    exact ⟨hst, hfl, h.filed.ordered_saveBlock h.steady.linked h.ordered h.steady.tracks _,
      saveBlock_batches h.batched h.steady.linked h.filed h.steady.tracks h.fresh _, hfr⟩
  | deleteFrom hb =>
    cases hb
    exact ⟨hst, hfl, h.ordered.filter _, deleteFrom_batches h.batched _, hfr⟩
  | confirmThrough hb =>
    cases hb
    exact ⟨hst, hfl, List.pairwise_map.mpr (h.ordered.imp fun ht ↦ by simpa using ht),
      append_batches (h.batched.confirmThrough _) fun _ ↦ id, hfr⟩
  | fault => exact ⟨hst, hfl, h.ordered, append_batches h.batched fun _ ↦ not_touches_error, hfr⟩
  | _ => exact ⟨hst, hfl, h.ordered, append_batches h.batched fun _ ↦ id, hfr⟩

def soundness (cfg : Config) (faults : Prop) :
    Outline cfg (Step boundedBackend MemStore.store faults) fun _ _ _ _ ↦ True where
  inv := Sound cfg
  move {p p' c r w w'} hm hs h := by
    refine ⟨trivial, h.move hm hs ?_⟩
    rintro hd he
    cases he
    exact hs.header_inv.1 hd rfl rfl
  silent hm h := ⟨h.steady.silent hm, h.filed, h.ordered, h.batched, by cases hm <;> trivial⟩

omit [GoEthereum] in
theorem Sound.wellFormed (h : Sound cfg p w) : WellFormed cfg w.store w.log where
  contiguous := ((MemStore.linked_iff _).mp h.steady.linked).1
  parentLinked := ((MemStore.linked_iff _).mp h.steady.linked).2
  numbered := w.store.keyed
  filed := h.filed
  ordered := h.ordered
  batches n b hb := by
    obtain ⟨hm, rfl⟩ := MemStore.getElem?_eq_some.mp hb
    exact h.batched b hm

omit [GoEthereum] in
theorem sound_newMemStore : Sound cfg .idle (⟨(), MemStore.newMemStore, []⟩ : World Unit MemStore) where
  steady := steady_newMemStore
  filed := by simp [MemStore.Filed, MemStore.newMemStore]
  ordered := List.Pairwise.nil
  batched := by simp [MemStore.Batches]
  fresh := trivial

theorem Chain.conforms_boundedBackend (c : Chain) (h : c.head.toNat + 1 < 2 ^ 64) :
    c.oracle.Conforms boundedBackend := by
  refine ⟨?_, fun _ _ ↦ trivial⟩
  rintro _ q hd rfl hq
  cases hq
  rwa [c.head_number64]

/-- Every store that a run from the empty one reaches is well formed, whatever the
backend answers and wherever the syncs of the run are cut short. -/
theorem wellFormed_of_run (cfg : Config) (ticks : List ℕ) (q : M Unit) (w : World Unit MemStore)
    (hr : Run (Step boundedBackend MemStore.store True) (run cfg ticks) ⟨(), MemStore.newMemStore, []⟩ q w) :
    WellFormed cfg w.store w.log := by
  obtain ⟨p, hp⟩ := (soundness cfg True).reachable sound_newMemStore hr
  exact Sound.wellFormed hp

end Runs

theorem wellFormed_of_run_buildChain :
    letI := testEthereum
    let c := buildChain 2 3 0 fun n ↦ [transferLog n.toUInt8]
    let w := ((run ⟨1, 0, []⟩ [5]).eval (c.oracle.respond MemStore.store) ⟨(), .newMemStore, []⟩).2
    w.store.transfers.length = 3 ∧ WellFormed ⟨1, 0, []⟩ w.store w.log := by
  let := testEthereum
  exact ⟨by decide, wellFormed_of_run _ [5] _ _ ((Chain.conforms_boundedBackend _ (by decide)).run _ _ _)⟩

end EventPlatform.ChainMonitor
