import EventPlatform.ChainMonitor.Reorg
import EventPlatform.ChainMonitor.StableChain

namespace EventPlatform.ChainMonitor

open Ethereum Interaction Prog

/-- The transfers in the logs of the block with the hash of `b`. -/
def logTransfers (cfg : Config) (logsOf : Hash → List Log) (b : Block) : List Transfer :=
  ((logsOf b.hash).filter (transferQuery cfg b.number).selects).filterMap decode

/-- The transfers stored under a number are those of the block stored there. -/
def Belongs (cfg : Config) (logsOf : Hash → List Log) (s : MemStore) : Prop :=
  ∀ n : UInt64, (s.transfersOf n).map (·.transfer) = s.blocks[n]?.elim [] (logTransfers cfg logsOf)

variable [GoEthereum]

/-- A block hash determines the logs of the block. -/
def Chain.LogsBy (logsOf : Hash → List Log) (c : Chain) : Prop :=
  ∀ n ≤ c.head, c.logs n = logsOf (c.hashAt n)

/-- The transfers stored under a number are those of the block of the chain there. -/
def Chain.Serves (c : Chain) (cfg : Config) (s : MemStore) : Prop :=
  ∀ n : UInt64, (s.transfersOf n).map (·.transfer) = if n ∈ s.blocks then c.transfers cfg n else []

section Runs

variable {logsOf : Hash → List Log} {canon : ℕ → Chain} {cfg : Config} {p p' : Point}

theorem Chain.LogsBy.transfers {c : Chain} (h : c.LogsBy logsOf) {n : UInt64} (hn : n ≤ c.head) :
    c.transfers cfg n = logTransfers cfg logsOf (c.block n) := by
  simp only [Chain.transfers, h n hn]
  rfl

/-- The batch about to be saved is that of the header in hand. -/
def Point.Fetched (cfg : Config) (logsOf : Hash → List Log) : Point → Prop
  | .fetched _ n hd ts => ts = logTransfers cfg logsOf (.ofHeader n hd)
  | _ => True

structure Sourced (cfg : Config) (logsOf : Hash → List Log) (canon : ℕ → Chain) (p : Point)
    (w : World Clock MemStore) : Prop where
  steady : Steady p w.store
  filed : w.store.Filed
  read : p.Read canon w.backend
  fetched : p.Fetched cfg logsOf
  batches : w.store.Batches fun b ts ↦ ts = logTransfers cfg logsOf b

variable {w w' : World Clock MemStore} {c : Call} {r : Except Err c.Reply} {faults : Prop}

theorem Point.Fetched.move (hlogs : ∀ t, (canon t).LogsBy logsOf) (hr : p.Read canon w.backend)
    (hm : Move cfg p c r p') (hs : Step (pinnedBackend canon).lossy MemStore.store faults w c r w') :
    p'.Fetched cfg logsOf := by
  cases hm with
  | logs head n hd lgs =>
    obtain ⟨⟨-, -, ha⟩, hle, heq⟩ := Backend.lossy_logs_ok hs.logs_inv.1
    cases ha
    simp only [transferQuery] at hle heq
    rw [Point.Fetched, Chain.filterLogs_transferQuery cfg hle, (hlogs _).transfers hle, Chain.block, heq, hr.2]
  | _ => trivial

theorem Sourced.move (hmax : ∀ t, (canon t).head.toNat + 1 < 2 ^ 64) (hlogs : ∀ t, (canon t).LogsBy logsOf)
    (h : Sourced cfg logsOf canon p w) (hm : Move cfg p c r p')
    (hs : Step (pinnedBackend canon).lossy MemStore.store faults w c r w') : Sourced cfg logsOf canon p' w' := by
  refine ⟨h.steady.move hm hs ?_, h.filed.move hs, h.read.move (pinnedBackend_follows canon) hm hs,
    Point.Fetched.move hlogs h.read hm hs, h.batches.move h.steady h.filed hm hs ?_⟩
  · rintro hd he
    cases he
    rw [Chain.number64_of_head (Backend.lossy_header_ok hs.header_inv.1).2.2]
    exact hmax _
  · rintro head n hd ts rfl
    exact h.fetched

theorem Sourced.silent (h : Sourced cfg logsOf canon p w) (hm : Silent cfg p p') : Sourced cfg logsOf canon p' w :=
  ⟨h.steady.silent hm, h.filed, h.read.silent hm, by cases hm <;> trivial, h.batches⟩

def sourcing (hmax : ∀ t, (canon t).head.toNat + 1 < 2 ^ 64) (hlogs : ∀ t, (canon t).LogsBy logsOf) :
    Outline cfg (Step (pinnedBackend canon).lossy MemStore.store faults) fun _ _ _ _ ↦ True where
  inv := Sourced cfg logsOf canon
  move hm hs h := ⟨trivial, h.move hmax hlogs hm hs⟩
  silent hm h := h.silent hm

theorem sourced_start : Sourced cfg logsOf canon .idle ⟨.start, .newMemStore, []⟩ :=
  ⟨steady_newMemStore, by simp [MemStore.Filed, MemStore.newMemStore], trivial, trivial, by simp [MemStore.Batches]⟩

omit [GoEthereum] in
theorem belongs_of_batches {s : MemStore} (hf : s.Filed)
    (hb : s.Batches fun b ts ↦ ts = logTransfers cfg logsOf b) : Belongs cfg logsOf s := by
  intro n
  cases hn : s.blocks[n]? with
  | none =>
    have hmem : n ∉ s.blocks := by simp [Std.ExtTreeMap.mem_iff_isSome_getElem?, hn]
    simp [hf.transfersOf_eq_nil hmem]
  | some b =>
    obtain ⟨hm, rfl⟩ := MemStore.getElem?_eq_some.mp hn
    exact hb b hm

theorem Chain.Agrees.serves {c : Chain} {s : MemStore} (ha : c.Agrees s) (hl : c.LogsBy logsOf)
    (h : Belongs cfg logsOf s) : c.Serves cfg s := by
  intro n
  rw [h n]
  cases hn : s.blocks[n]? with
  | none => simp [Std.ExtTreeMap.mem_iff_isSome_getElem?, hn]
  | some b =>
    obtain ⟨hm, rfl⟩ := MemStore.getElem?_eq_some.mp hn
    obtain ⟨hle, hh⟩ := ha b hm
    have hmem : b.number ∈ s.blocks := by simp [Std.ExtTreeMap.mem_iff_isSome_getElem?, hn]
    rw [if_pos hmem, hl.transfers hle, Option.elim_some]
    simp only [logTransfers, hh]
    rfl

end Runs

theorem belongs_of_run (cfg : Config) (logsOf : Hash → List Log) (canon : ℕ → Chain)
    (hmax : ∀ t, (canon t).head.toNat < 2 ^ 64 - 1) (hlogs : ∀ t, (canon t).LogsBy logsOf)
    (ticks : List ℕ) (q : M Unit) (w : World Clock MemStore)
    (hr : Run (Step (pinnedBackend canon).lossy MemStore.store True) (run cfg ticks)
      ⟨.start, .newMemStore, []⟩ q w) :
    Belongs cfg logsOf w.store ∧ ∀ t, (canon t).Agrees w.store → (canon t).Serves cfg w.store := by
  obtain ⟨p, hp⟩ := (sourcing (fun t ↦ by have := hmax t; omega) hlogs).reachable sourced_start hr
  have hb := belongs_of_batches (Sourced.filed hp) (Sourced.batches hp)
  exact ⟨hb, fun t ha ↦ ha.serves (hlogs t) hb⟩

/-- Two chains with one block after the genesis block, which holds a transfer of one unit on the
first chain and of two units on the second. -/
def forks (second : Bool) : Chain :=
  if second then buildChain 1 1 1 fun n ↦ if n = 1 then [transferLog 2] else []
  else buildChain 1 3 0 fun n ↦ if n = 1 then [transferLog 1] else []

def forkLogs (h : Hash) : List Log :=
  if h = (forks false).hashAt 1 then [transferLog 1] else if h = (forks true).hashAt 1 then [transferLog 2] else []

omit [GoEthereum] in
theorem forks_logsBy (second : Bool) : letI := testEthereum; (forks second).LogsBy forkLogs := by
  let := testEthereum
  have h : ∀ second, ∀ i ≤ 1, (forks second).logs (.ofNat i) = forkLogs ((forks second).hashAt (.ofNat i)) := by
    decide
  have hhead : ∀ second, (forks second).head = 1 := by decide
  intro n hn
  have hle : n.toNat ≤ 1 := UInt64.le_iff_toNat_le.mp (hhead second ▸ hn)
  have hi := h second n.toNat hle
  rwa [UInt64.ofNat_toNat] at hi

omit [GoEthereum] in
theorem belongs_of_run_forks :
    letI := testEthereum
    let w := ((run ⟨1, 0, []⟩ [3, 3, 3]).eval ((pinnedOracle fun t ↦ forks (5 < t)).respond MemStore.store)
      ⟨.start, .newMemStore, []⟩).2
    w.store.transfers.length = 1 ∧ Belongs ⟨1, 0, []⟩ forkLogs w.store := by
  let := testEthereum
  have hhead : ∀ second, (forks second).head.toNat < 2 ^ 64 - 1 := by decide
  refine ⟨by decide +kernel, ?_⟩
  apply And.left
  apply belongs_of_run ⟨1, 0, []⟩ forkLogs (fun t ↦ forks (5 < t)) (fun t ↦ hhead _) fun t ↦ forks_logsBy _
  exact (pinnedOracle_conforms _).run_ticks MemStore.store ⟨1, 0, []⟩ [3, 3, 3] ⟨.start, .newMemStore, []⟩

omit [GoEthereum] in
/-- The chain is replaced between the two calls for block 1 and then comes back: the block of the
first chain stays stored with the transfer of the second. -/
theorem not_belongs_forks :
    letI := testEthereum
    let canon : ℕ → Chain := fun t ↦ forks (t = 5)
    let w := ((run ⟨1, 0, []⟩ [3, 3]).eval ((canonicalOracle canon).respond MemStore.store)
      ⟨.start, .newMemStore, []⟩).2
    (∀ t, (canon t).LogsBy forkLogs) ∧
      Run (Step (canonicalBackend canon) MemStore.store False) (run ⟨1, 0, []⟩ [3, 3])
        ⟨.start, .newMemStore, []⟩ (.ret ()) w ∧
      (∀ t > 5, canon t = forks false) ∧ (forks false).Agrees w.store ∧
      ¬ Belongs ⟨1, 0, []⟩ forkLogs w.store ∧ ¬ (forks false).Serves ⟨1, 0, []⟩ w.store := by
  let := testEthereum
  refine ⟨fun t ↦ forks_logsBy _, ?_, ?_, ?_, ?_, ?_⟩
  · exact (canonicalOracle_conforms _).run_ticks MemStore.store ⟨1, 0, []⟩ [3, 3] ⟨.start, .newMemStore, []⟩
  · intro t ht
    have hne : t ≠ 5 := by omega
    simp [hne]
  · unfold Chain.Agrees
    decide +kernel
  · intro h
    exact absurd (h 1) (by decide +kernel)
  · intro h
    exact absurd (h 1) (by decide +kernel)

end EventPlatform.ChainMonitor
