import EventPlatform.ChainMonitor.Provenance

namespace EventPlatform.ChainMonitor

open Ethereum Interaction Prog

/-- What a `chain.transfer` message tells about a transfer. -/
structure Notice where
  block : UInt64
  token : String
  fromAddr : String
  toAddr : String
  value : String
  txHash : String
  deriving DecidableEq

/-- What a consumer of the messages keeps: the hash of each block, by number, and the transfers. -/
structure Replica where
  blocks : Std.ExtTreeMap UInt64 String
  transfers : Multiset Notice

def Replica.apply (v : Replica) : Event → Replica
  | .chainBlock n hash _ _ => { v with blocks := v.blocks.insert n hash }
  | .chainTransfer n token src dst value tx _ => { v with transfers := ⟨n, token, src, dst, value, tx⟩ ::ₘ v.transfers }
  | .chainReorg n => ⟨v.blocks.filter fun m _ ↦ m < n, v.transfers.filter fun t ↦ t.block < n⟩

def replay (es : List Event) : Replica := es.foldl Replica.apply ⟨∅, 0⟩

theorem replay_append (es fs : List Event) : replay (es ++ fs) = fs.foldl Replica.apply (replay es) :=
  List.foldl_append

/-- The block of a `chain.transfer` message. -/
def Event.transferOf : Event → Option UInt64
  | .chainTransfer n _ _ _ _ _ _ => some n
  | _ => none

/-- The transfer messages right behind a `chain.block` message. -/
def batch (es : List Event) : List Event := es.takeWhile fun e ↦ e.transferOf.isSome

/-- Right behind every `chain.block` message there are as many transfer messages of its block as it says. -/
def Counted (es : List Event) : Prop :=
  ∀ pre n hash k f post, es = pre ++ .chainBlock n hash k f :: post →
    (batch post).map Event.transferOf = .replicate k (some n)

theorem batch_append {es fs : List Event} (h : ∀ e, fs.head? = some e → e.transferOf = none) :
    batch (es ++ fs) = batch es := by
  induction es with
  | nil =>
    cases fs with
    | nil => rfl
    | cons e fs => simp [batch, h e rfl]
  | cons e es ih =>
    simp only [batch, List.cons_append, List.takeWhile_cons] at ih ⊢
    rw [ih]

theorem Counted.append {es fs : List Event} (h : Counted es) (h' : Counted fs)
    (hstop : ∀ e, fs.head? = some e → e.transferOf = none) : Counted (es ++ fs) := by
  intro pre n hash k f post he
  obtain ⟨as, rfl, hfs⟩ | ⟨cs, rfl, hcs⟩ := List.append_eq_append_iff.mp he
  · exact h' as n hash k f post hfs
  · cases cs with
    | nil => exact h' [] n hash k f post hcs.symm
    | cons e cs =>
      rw [List.cons_append] at hcs
      obtain ⟨rfl, rfl⟩ := List.cons.inj hcs
      rw [batch_append hstop]
      exact h pre n hash k f cs rfl

theorem counted_reorg (n : UInt64) : Counted [.chainReorg n] := by
  intro pre m hash k f post he
  have hmem : Event.chainBlock m hash k f ∈ [Event.chainReorg n] := by simp [he]
  simp at hmem

variable [GoEthereum]

theorem counted_announcement (b : Block) (ts : List Transfer) (f : Bool) : Counted (announcement b ts f) := by
  intro pre n hash k g post he
  cases pre with
  | nil =>
    obtain ⟨he, rfl⟩ := List.cons.inj he
    cases he
    have hall : batch (ts.map (transferEvent · b.number f)) = ts.map (transferEvent · b.number f) := by
      refine List.takeWhile_eq_self_iff.mpr fun e he ↦ ?_
      obtain ⟨t, -, rfl⟩ := List.mem_map.mp he
      rfl
    rw [hall, List.map_map, List.eq_replicate_iff]
    refine ⟨by simp, ?_⟩
    simp [transferEvent, Event.transferOf]
  | cons e pre =>
    have hmem : Event.chainBlock n hash k g ∈ ts.map (transferEvent · b.number f) := by
      rw [(List.cons.inj he).2]
      simp
    simp [transferEvent] at hmem

def Notice.of (t : StoredTransfer) : Notice where
  block := t.block
  token := GoEthereum.addressHex t.transfer.token
  fromAddr := GoEthereum.addressHex t.transfer.fromAddr
  toAddr := GoEthereum.addressHex t.transfer.toAddr
  value := toString t.transfer.value
  txHash := hashHex t.transfer.txHash

/-- What the store holds, in the terms of the messages. -/
def MemStore.replica (s : MemStore) : Replica where
  blocks := s.blocks.map fun _ b ↦ hashHex b.hash
  transfers := s.transfers.map Notice.of

theorem Replica.foldl_transferEvent (v : Replica) (n : UInt64) (f : Bool) (ts : List Transfer) :
    (ts.map (transferEvent · n f)).foldl Replica.apply v =
      ⟨v.blocks, v.transfers + ts.map fun t ↦ Notice.of ⟨n, t, f⟩⟩ := by
  induction ts generalizing v with
  | nil => simp
  | cons t ts ih =>
    rw [List.map_cons, List.foldl_cons, ih]
    simp only [apply, transferEvent, List.map_cons, ← Multiset.cons_coe, Multiset.add_cons, Multiset.cons_add]
    rfl

theorem MemStore.replica_saveBlock (s : MemStore) (b : Block) (ts : List Transfer) (f : Bool) :
    (s.saveBlock b ts f).replica = (announcement b ts f).foldl Replica.apply s.replica := by
  have hblocks : (s.blocks.insert b.number b).map (fun _ b ↦ hashHex b.hash) =
      (s.blocks.map fun _ b ↦ hashHex b.hash).insert b.number (hashHex b.hash) := by
    refine Std.ExtTreeMap.ext_getElem? fun n ↦ ?_
    simp only [Std.ExtTreeMap.getElem?_map, Std.ExtTreeMap.getElem?_insert]
    split <;> rfl
  rw [announcement, List.foldl_cons, Replica.foldl_transferEvent]
  simp only [replica, saveBlock, hblocks, Replica.apply, blockEvent, List.map_append, ← Multiset.coe_add, List.map_map]
  rfl

theorem MemStore.replica_deleteFrom (s : MemStore) (n : UInt64) :
    (s.deleteFrom n).replica = s.replica.apply (.chainReorg n) := by
  have hblocks : (s.blocks.filter fun m _ ↦ m < n).map (fun _ b ↦ hashHex b.hash) =
      (s.blocks.map fun _ b ↦ hashHex b.hash).filter fun m _ ↦ m < n := by
    refine Std.ExtTreeMap.ext_getElem? fun m ↦ ?_
    simp only [Std.ExtTreeMap.getElem?_map, Std.ExtTreeMap.getElem?_filter']
    cases s.blocks[m]? <;> simp [Option.filter, apply_ite]
  simp only [replica, deleteFrom, hblocks, Replica.apply, Multiset.filter_coe, List.filter_map]
  rfl

theorem MemStore.replica_confirmThrough (s : MemStore) (n : UInt64) : (s.confirmThrough n).replica = s.replica := by
  have hmap : (s.transfers.map (·.confirmTo n)).map Notice.of = s.transfers.map Notice.of := by
    rw [List.map_map]
    exact List.map_congr_left fun t _ ↦ by simp [Notice.of]
  rw [replica, confirmThrough, hmap]
  rfl

/-- The messages that the store is ahead of. -/
def Point.owed : Point → List Event
  | .rolled n => [.chainReorg n]
  | p => p.pending

/-- The messages, with those still owed, replay to the store. -/
structure Replayed {B : Type} (p : Point) (w : World B MemStore) : Prop where
  replica : w.store.replica = replay (published w.log ++ p.owed)
  counted : Counted (published w.log ++ p.owed)

section Runs

variable {B : Type} {be : Backend B} {faults : Prop} {w w' : World B MemStore} {cfg : Config} {p p' : Point} {c : Call}
  {r : Except Err c.Reply}

/-- A call that leaves the store as it is, and the stream with what is owed. -/
theorem Replayed.keep (h : Replayed p w) (hst : w'.store = w.store)
    (hpub : published w'.log ++ p'.owed = published w.log ++ p.owed) : Replayed p' w' :=
  ⟨by rw [hst, hpub, h.replica], by rw [hpub]; exact h.counted⟩

theorem Move.owed_eq_nil (hm : Move cfg p c r p') (hc : c.isPublish = false) : p.owed = [] := by
  induction hm with
  | reorg | announce => cases hc
  | error _ _ _ ih => exact ih hc
  | _ => rfl

/-- A write puts the store ahead by the messages that it owes. -/
theorem Replayed.write (h : Replayed p w) (hs : Step be MemStore.store faults w c r w') (hc : c.isPublish = false)
    (howed : p.owed = []) (hst : w'.store.replica = p'.owed.foldl Replica.apply w.store.replica)
    (hcount : Counted p'.owed) (hstop : ∀ e, p'.owed.head? = some e → e.transferOf = none) : Replayed p' w' := by
  have hrep := h.replica
  have hold := h.counted
  rw [howed, List.append_nil] at hrep hold
  refine ⟨?_, ?_⟩
  · rw [hs.published_eq hc, replay_append, ← hrep, hst]
  · rw [hs.published_eq hc]
    exact hold.append hcount hstop

theorem Replayed.move (h : Replayed p w) (hm : Move cfg p c r p') (hs : Step be MemStore.store faults w c r w') :
    Replayed p' w' := by
  cases hm with
  | head | diverged | matched | header => exact h.keep hs.header_inv.2 (by rw [hs.published_eq rfl]; rfl)
  | empty | last => exact h.keep hs.lastBlock_inv.2.1 (by rw [hs.published_eq rfl]; rfl)
  | orphan | parent => exact h.keep hs.blockByNumber_inv.2.1 (by rw [hs.published_eq rfl]; rfl)
  | logs => exact h.keep hs.logs_inv.2 (by rw [hs.published_eq rfl]; rfl)
  | error hm hc e => exact h.keep hs.store_of_error (by rw [hs.published_eq hc, hm.owed_eq_nil hc]; rfl)
  | reorg n r => exact h.keep hs.publish_inv.2 (by rw [hs.published_publish]; simp [Point.owed, Point.pending])
  | announce head n e es r =>
    exact h.keep hs.publish_inv.2 (by rw [hs.published_publish]; simp [Point.owed, Point.pending])
  | delete n =>
    refine h.write hs rfl rfl ?_ (counted_reorg n) (by rintro _ ⟨⟩; rfl)
    rw [← Except.ok.inj hs.deleteFrom_inv.1, MemStore.replica_deleteFrom]
    rfl
  | save head n hd ts =>
    refine h.write hs rfl rfl ?_ (counted_announcement _ ts _) (by rintro _ ⟨⟩; rfl)
    rw [← Except.ok.inj hs.saveBlock_inv.1, MemStore.replica_saveBlock]
    rfl
  | confirm head n hn hc =>
    refine h.write hs rfl rfl ?_ (by simp [Counted, Point.owed, Point.pending]) (by rintro _ ⟨⟩)
    rw [← Except.ok.inj hs.confirmThrough_inv.1, MemStore.replica_confirmThrough]
    rfl

theorem Replayed.silent (h : Replayed p w) (hm : Silent cfg p p') : Replayed p' w := by
  cases hm <;> exact h.keep rfl rfl

def replaying (be : Backend B) (cfg : Config) (faults : Prop) :
    Outline cfg (Step be MemStore.store faults) fun _ _ _ _ ↦ True where
  inv := Replayed
  move hm hs h := ⟨trivial, h.move hm hs⟩
  silent hm h := h.silent hm

theorem replayed_newMemStore (b : B) : Replayed .idle ⟨b, .newMemStore, []⟩ where
  replica := by
    have hblocks : (∅ : Std.ExtTreeMap UInt64 Block).map (fun _ b ↦ hashHex b.hash) = ∅ := by
      refine Std.ExtTreeMap.ext_getElem? fun n ↦ ?_
      simp
    simp only [MemStore.replica, MemStore.newMemStore, hblocks]
    rfl
  counted := by simp [Counted, published, Point.owed, Point.pending]

/-- At the end of every sync, however it ends, the messages so far replay to the store. -/
theorem replay_published (be : Backend B) (b : B) (cfg : Config) (ticks : List ℕ) (ctx : ℕ) (r : Except Err Unit)
    (w w' : World B MemStore)
    (hr : Run (Step be MemStore.store True) (run cfg ticks) ⟨b, .newMemStore, []⟩ (.ret ()) w)
    (hsync : Run (Step be MemStore.store True) (sync cfg ctx) w (ofExcept r) w') :
    replay (published w'.log) = w'.store.replica ∧ Counted (published w'.log) := by
  have hidle := (replaying be cfg True).idle_of_run (replayed_newMemStore b) hr
  obtain ⟨hrep, hcount⟩ := (replaying be cfg True).idle_of_sync hidle hsync
  simp only [Point.owed, Point.pending, List.append_nil] at hrep hcount
  exact ⟨hrep.symm, hcount⟩

end Runs

/-- Two syncs, with a reorganisation between them that the second one rolls back. -/
def reorgRun : World Clock MemStore :=
  ((run ⟨1, 0, []⟩ [3, 3]).eval ((canonicalOracle fun t ↦ forks (5 < t)).respond MemStore.store)
    ⟨.start, .newMemStore, []⟩).2

/-- The sync after them. -/
def reorgSync : Except Err Unit × World Clock MemStore :=
  (sync ⟨1, 0, []⟩ 3).eval ((canonicalOracle fun t ↦ forks (5 < t)).respond MemStore.store) reorgRun

omit [GoEthereum] in
theorem replay_published_reorgSync :
    letI := testEthereum
    ((published reorgSync.2.log).filter (·.isReorg)).length = 1 ∧
      replay (published reorgSync.2.log) = reorgSync.2.store.replica := by
  have hrun : ∀ [GoEthereum], replay (published reorgSync.2.log) = reorgSync.2.store.replica := by
    intro _
    have hr : Run (Step (canonicalBackend fun t ↦ forks (5 < t)) MemStore.store True) (run ⟨1, 0, []⟩ [3, 3])
        ⟨.start, .newMemStore, []⟩ (.ret ()) reorgRun := (canonicalOracle_conforms _).run_ticks _ _ _ _
    have hs : Run (Step (canonicalBackend fun t ↦ forks (5 < t)) MemStore.store True) (sync ⟨1, 0, []⟩ 3) reorgRun
        (ofExcept reorgSync.1) reorgSync.2 := (canonicalOracle_conforms _).run _ _ _
    exact (replay_published _ _ ⟨1, 0, []⟩ [3, 3] 3 _ _ _ hr hs).1
  exact ⟨by decide +kernel, @hrun testEthereum⟩

end EventPlatform.ChainMonitor
