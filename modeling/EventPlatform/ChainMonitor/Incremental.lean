import EventPlatform.ChainMonitor.Confirmation
import EventPlatform.ChainMonitor.Reorg
import EventPlatform.ChainMonitor.StableChain

namespace EventPlatform.ChainMonitor

open Ethereum Interaction Prog

/-- The current head of a chain that grows, and the heads reported so far, newest first. -/
structure Growth where
  now : UInt64
  reported : List UInt64
  le : ∀ h ∈ reported, h ≤ now

def Growth.start : Growth := ⟨0, [], by simp⟩

/-- The message without its `confirmed` field. -/
def Event.unflag : Event → Event
  | .chainBlock n hash k _ => .chainBlock n hash k false
  | .chainTransfer n token src dst value tx _ => .chainTransfer n token src dst value tx false
  | .chainReorg n => .chainReorg n

variable [GoEthereum]

/-- The chain while its head was `h`. -/
def Chain.cut (c : Chain) (h : UInt64) (hle : h ≤ c.head) : Chain where
  head := h
  header := c.header
  logs := c.logs
  number_eq n hn := c.number_eq n (UInt64.le_trans hn hle)
  linked n hn := c.linked n (UInt64.lt_of_lt_of_le hn hle)

/-- A backend that serves the chain `c` while it grows, possibly also within a sync. -/
def growingBackend (c : Chain) : Backend Growth where
  header g q r g' := g.now ≤ g'.now ∧ ∃ hle : g'.now ≤ c.head, r = (c.cut g'.now hle).headerByNumber q ∧
    g'.reported = if q = none then g'.now :: g.reported else g.reported
  logs g q r g' := g.now ≤ g'.now ∧ ∃ hle : g'.now ≤ c.head, r = .ok ((c.cut g'.now hle).filterLogs q) ∧
    g'.reported = g.reported

section Single

variable {c : Chain} {cfg : Config} {h : UInt64}

theorem announcement_unflag (b : Block) (ts : List Transfer) (f : Bool) :
    (announcement b ts f).map Event.unflag = announcement b ts false := by
  simp [announcement, blockEvent, transferEvent, Event.unflag, Function.comp_def]

/-- The transfers of the blocks with the given numbers. -/
def Chain.pairs (c : Chain) (cfg : Config) (ns : List UInt64) : List (UInt64 × Transfer) :=
  ns.flatMap fun n ↦ (c.transfers cfg n).map (n, ·)

theorem Chain.saves_index (ns : List UInt64) (hns : ns.Pairwise fun a b ↦ a.toNat < b.toNat) (s : MemStore)
    (hs : ∀ b ∈ s.index, ∀ n ∈ ns, b.number.toNat < n.toNat) :
    (c.saves cfg h ns s).index = (ns.map c.block).reverse ++ s.index := by
  induction ns generalizing s with
  | nil => rfl
  | cons n ns ih =>
    obtain ⟨hn, hns⟩ := List.pairwise_cons.mp hns
    have hi := MemStore.index_saveBlock (b := c.block n) (fun a ha ↦ hs a ha n List.mem_cons_self)
      (c.transfers cfg n) (decide (h - n ≥ cfg.confirmations))
    rw [saves_cons, ih hns, hi]
    · simp
    · intro b hb m hm
      rw [hi, List.mem_cons] at hb
      obtain rfl | hb := hb
      · exact hn m hm
      · exact hs b hb m (List.mem_cons_of_mem _ hm)

theorem Chain.saves_transfers (ns : List UInt64) (s : MemStore) :
    (c.saves cfg h ns s).transfers = s.transfers ++ (c.pairs cfg ns).map fun x ↦
      ⟨x.1, x.2, decide (h - x.1 ≥ cfg.confirmations)⟩ := by
  induction ns generalizing s with
  | nil => simp [saves, pairs]
  | cons n ns ih =>
    rw [saves_cons, ih]
    simp [MemStore.saveBlock, Chain.block, Block.ofHeader, pairs]

omit [GoEthereum] in
theorem MemStore.index_promoted (s : MemStore) : (s.promoted cfg h).index = s.index := by
  unfold promoted
  split <;> rfl

omit [GoEthereum] in
/-- At the end of a sync both ways to confirm agree. -/
theorem MemStore.promoted_transfers {s : MemStore} {ts : List (UInt64 × Transfer)} (hts : ∀ x ∈ ts, x.1 ≤ h)
    (hs : s.transfers = ts.map fun x ↦ ⟨x.1, x.2, decide (h - x.1 ≥ cfg.confirmations)⟩) :
    (s.promoted cfg h).transfers = ts.map fun x ↦
      ⟨x.1, x.2, decide (x.1.toNat + cfg.confirmations.toNat ≤ h.toNat)⟩ := by
  have hflag : ∀ x ∈ ts, decide (h - x.1 ≥ cfg.confirmations) =
      decide (x.1.toNat + cfg.confirmations.toNat ≤ h.toNat) := by
    intro x hx
    rw [decide_eq_decide, ge_iff_le, le_sub_iff (hts x hx), Nat.add_comm]
  unfold promoted
  split
  · rename_i hc
    rw [confirmThrough, hs, List.map_map]
    refine List.map_congr_left fun x hx ↦ ?_
    simp only [Function.comp_apply, StoredTransfer.confirmTo, le_sub_iff hc, hflag x hx]
    split
    · rename_i hle
      simp [hle]
    · rfl
  · rw [hs]
    exact List.map_congr_left fun x hx ↦ by rw [hflag x hx]

end Single

/-- Blocks are never rolled back. -/
def Point.Forward : Point → Prop
  | .rollback _ | .rolled _ | .reverted => False
  | _ => True

def Point.InHand (cfg : Config) (c : Chain) (g : Growth) (s : MemStore) : Point → Prop
  | .tip _ b => s.index.head? = some b
  | .header _ n hd | .linked _ n hd => n ≤ g.now ∧ hd = c.header n
  | .fetched _ n hd ts => n ≤ g.now ∧ hd = c.header n ∧ ts = c.transfers cfg n
  | .done h => h.toNat + 1 < 2 ^ 64
  | _ => True

/-- The number `m` is the next one to index. -/
def Point.At (m : ℕ) : Point → Prop
  | .tip _ b => b.number.toNat + 1 = m
  | .loop _ n | .header _ n _ | .linked _ n _ | .fetched _ n _ _ => n.toNat = m
  | .announce _ n _ => n.toNat + 1 = m
  | .done h => h.toNat < m
  | _ => True

/-- The first `k` blocks are indexed and announced, but for the pending messages. -/
structure Progress (cfg : Config) (c : Chain) (p : Point) (w : World Growth MemStore) (k : ℕ) : Prop where
  index : w.store.index = ((span k cfg.startBlock).map c.block).reverse
  transfers : w.store.transfers.map (fun t ↦ (t.block, t.transfer)) = c.pairs cfg (span k cfg.startBlock)
  events : (published w.log ++ p.pending).map Event.unflag =
    (span k cfg.startBlock).flatMap fun n ↦ announcement (c.block n) (c.transfers cfg n) false
  fits : k = 0 ∨ ∃ h ∈ w.backend.reported, cfg.startBlock.toNat + k ≤ h.toNat + 1
  place : p.At (cfg.startBlock.toNat + k)

/-- The last number of its type was reported as the head. -/
def Growth.Exhausted (g : Growth) : Prop := ∃ h ∈ g.reported, h.toNat + 1 = 2 ^ 64

structure Grown (cfg : Config) (c : Chain) (p : Point) (w : World Growth MemStore) : Prop where
  gated : Gated Growth.reported cfg [] p w
  bound : w.backend.now ≤ c.head
  agrees : c.Agrees w.store
  forward : p.Forward
  inHand : p.InHand cfg c w.backend w.store
  progress : w.backend.Exhausted ∨ ∃ k, Progress cfg c p w k

section Growing

variable {c : Chain} {cfg : Config} {p p' : Point} {faults : Prop} {w w' : World Growth MemStore}
  {op : Call} {r : Except Err op.Reply}

theorem growingBackend_rising (c : Chain) : (growingBackend c).lossy.Rising Growth.reported where
  head g hd g' h := by
    obtain ⟨hnow, hle, ha, hrep⟩ := Backend.lossy_header_ok h
    rw [Chain.number64_of_head ha, hrep, if_pos rfl]
    exact ⟨fun k hk ↦ UInt64.le_trans (g.le k hk) hnow, rfl⟩
  quiet g q r g' h hq := by
    obtain ⟨-, hle, rfl, hrep⟩ | ⟨rfl, -⟩ := h
    · rw [hrep, if_neg fun hn ↦ ?_]
      subst hn
      exact hq _ rfl rfl
    · rfl
  logs g q r g' h := by
    obtain ⟨-, hle, -, hrep⟩ | ⟨rfl, -⟩ := h
    · exact hrep
    · rfl

theorem growing_mono (hs : Step (growingBackend c).lossy MemStore.store faults w op r w') :
    w.backend.now ≤ w'.backend.now ∧ (w.backend.now ≤ c.head → w'.backend.now ≤ c.head) := by
  cases hs with
  | header h =>
    obtain ⟨hnow, hle, -⟩ | ⟨rfl, -⟩ := h
    · exact ⟨hnow, fun _ ↦ hle⟩
    · exact ⟨UInt64.le_refl _, id⟩
  | logs h =>
    obtain ⟨hnow, hle, -⟩ | ⟨rfl, -⟩ := h
    · exact ⟨hnow, fun _ ↦ hle⟩
    · exact ⟨UInt64.le_refl _, id⟩
  | _ => exact ⟨UInt64.le_refl _, id⟩

/-- A header answer is the header of the chain, and within its current part. -/
theorem growing_header {n : UInt64} {hd : Header}
    (hs : Step (growingBackend c).lossy MemStore.store faults w (.headerByNumber (some n)) (.ok hd) w') :
    n ≤ w'.backend.now ∧ n ≤ c.head ∧ hd = c.header n := by
  obtain ⟨-, hle, ha, -⟩ := Backend.lossy_header_ok hs.header_inv.1
  obtain ⟨hn, he⟩ := Chain.headerByNumber_ok ha
  exact ⟨hn, UInt64.le_trans hn hle, he.symm⟩

theorem growing_logs {n : UInt64} {lgs : List Log} (hn : n ≤ w.backend.now)
    (hs : Step (growingBackend c).lossy MemStore.store faults w (.filterLogs (transferQuery cfg n)) (.ok lgs) w') :
    lgs.filterMap decode = c.transfers cfg n := by
  obtain ⟨hnow, hle, ha, -⟩ := Backend.lossy_logs_ok hs.logs_inv.1
  cases ha
  exact Chain.filterLogs_transferQuery (c := c.cut _ hle) cfg (UInt64.le_trans hn hnow)

/-- The chain has every stored block, so neither check finds a divergence. -/
theorem Grown.forward_move (h : Grown cfg c p w) (hm : Move cfg p op r p')
    (hs : Step (growingBackend c).lossy MemStore.store faults w op r w') : p'.Forward := by
  cases hm with
  | diverged head b hd hne =>
    obtain ⟨-, -, rfl⟩ := growing_header hs
    exact hne (h.agrees b (List.mem_of_mem_head? h.inHand)).2.symm
  | orphan head n hd b hn hne =>
    obtain ⟨hle, rfl⟩ := h.inHand
    exact hne (h.agrees.parentHash hn (UInt64.le_trans hle h.bound) (Except.ok.inj hs.blockByNumber_inv.1))
  | delete | reorg => exact h.forward
  | _ => trivial

theorem Grown.agrees_move (h : Grown cfg c p w) (hm : Move cfg p op r p')
    (hs : Step (growingBackend c).lossy MemStore.store faults w op r w') : c.Agrees w'.store := by
  cases hs with
  | saveBlock hb =>
    obtain ⟨head, n, hd, rfl, rfl, -, -⟩ := hm.of_saveBlock
    obtain ⟨hle, rfl, -⟩ := h.inHand
    cases hb
    exact h.agrees.saveBlock (UInt64.le_trans hle h.bound) _ _
  | deleteFrom hb =>
    obtain ⟨rfl, -⟩ := hm.of_deleteFrom
    exact h.forward.elim
  | confirmThrough hb =>
    cases hb
    exact h.agrees
  | _ => exact h.agrees

theorem Grown.inHand_move (h : Grown cfg c p w) (hm : Move cfg p op r p')
    (hs : Step (growingBackend c).lossy MemStore.store faults w op r w') : p'.InHand cfg c w'.backend w'.store := by
  cases hm with
  | last head b =>
    obtain ⟨hb, he, -⟩ := hs.lastBlock_inv
    rw [he]
    simp only [Point.InHand, ← MemStore.lastBlock_eq]
    exact Except.ok.inj hb
  | header head n hd hn => exact ⟨(growing_header hs).1, (growing_header hs).2.2⟩
  | parent head n hd prev hn heq =>
    rw [hs.backend_of_isStore rfl]
    exact h.inHand
  | logs head n hd lgs => exact ⟨UInt64.le_trans h.inHand.1 (growing_mono hs).1, h.inHand.2, growing_logs h.inHand.1 hs⟩
  | confirm head n hn hc =>
    have hlt := UInt64.lt_iff_toNat_lt.mp (UInt64.not_le.mp hn)
    have hmax := n.toNat_lt
    simp only [Point.InHand]
    omega
  | _ => trivial

/-- A call that neither writes nor publishes. -/
theorem Progress.quiet {k : ℕ} (h : Progress cfg c p w k)
    (hs : Step (growingBackend c).lossy MemStore.store faults w op r w') (hst : w'.store = w.store)
    (hpub : op.isPublish = false) (hp : p.pending = []) (hp' : p'.pending = [])
    (hat : p'.At (cfg.startBlock.toNat + k)) : Progress cfg c p' w' k where
  index := by rw [hst, h.index]
  transfers := by rw [hst, h.transfers]
  events := by rw [hs.published_eq hpub, hp', ← hp, h.events]
  fits := h.fits.imp_right fun ⟨m, hm, hle⟩ ↦ ⟨m, (growingBackend_rising c).subset hs m hm, hle⟩
  place := hat

/-- The top of the index is the last of the `k` blocks. -/
theorem Progress.top {k : ℕ} (h : Progress cfg c p w k) {b : Block} (hb : w.store.index.head? = some b) :
    b.number.toNat + 1 = cfg.startBlock.toNat + k := by
  rw [h.index] at hb
  cases k with
  | zero => cases hb
  | succ k =>
    obtain hk | ⟨m, -, hm⟩ := h.fits
    · cases hk
    · have hlt := m.toNat_lt
      have hn : (UInt64.ofNat (cfg.startBlock.toNat + k)).toNat = cfg.startBlock.toNat + k :=
        UInt64.toNat_ofNat_of_lt' (show _ < 2 ^ 64 by omega)
      rw [span_succ hn] at hb
      simp only [List.map_append, List.map_cons, List.map_nil, List.reverse_append, List.reverse_cons,
        List.reverse_nil, List.nil_append, List.cons_append, List.head?_cons, Option.some.injEq] at hb
      subst hb
      change (UInt64.ofNat (cfg.startBlock.toNat + k)).toNat + 1 = _
      omega

theorem Chain.pairs_append (ns ms : List UInt64) : c.pairs cfg (ns ++ ms) = c.pairs cfg ns ++ c.pairs cfg ms :=
  List.flatMap_append

theorem Progress.save {k : ℕ} {head n : UInt64} {f : Bool}
    (h : Progress cfg c (.fetched head n (c.header n) (c.transfers cfg n)) w k)
    (hs : Step (growingBackend c).lossy MemStore.store faults w (.saveBlock (c.block n) (c.transfers cfg n) f)
      (.ok ()) w')
    (hn : n ≤ head) (hh : head ∈ w.backend.reported) :
    Progress cfg c (.announce head n (announcement (c.block n) (c.transfers cfg n) f)) w' (k + 1) := by
  have hat : n.toNat = cfg.startBlock.toNat + k := h.place
  have hle := UInt64.le_iff_toNat_le.mp hn
  have hlt := n.toNat_lt
  have hst := Except.ok.inj hs.saveBlock_inv.1
  have hbelow : ∀ b ∈ w.store.index, b.number.toNat < (c.block n).number.toNat := by
    intro b hb
    rw [h.index, List.mem_reverse, List.mem_map] at hb
    obtain ⟨m, hm, rfl⟩ := hb
    have := ((mem_span (by omega)).mp hm).2
    change m.toNat < n.toNat
    omega
  refine ⟨?_, ?_, ?_, .inr ⟨head, ?_, by omega⟩, ?_⟩
  · rw [← hst, MemStore.index_saveBlock hbelow, h.index, span_succ hat]
    simp
  · rw [← hst, MemStore.saveBlock, List.map_append, h.transfers, span_succ hat, Chain.pairs_append]
    simp [Chain.pairs, Chain.block, Block.ofHeader]
  · have he := h.events
    simp only [Point.pending, List.append_nil] at he
    rw [hs.published_eq rfl, Point.pending, List.map_append, he, announcement_unflag, span_succ hat]
    simp
  · exact hs.saveBlock_inv.2 ▸ hh
  · change n.toNat + 1 = _
    omega

theorem Progress.announce {k : ℕ} {head n : UInt64} {e : Event} {es : List Event} {r : Except Err Unit}
    (h : Progress cfg c (.announce head n (e :: es)) w k)
    (hs : Step (growingBackend c).lossy MemStore.store faults w (.publish e) r w') :
    Progress cfg c (.announce head n es) w' k := by
  obtain ⟨hb, hst⟩ := hs.publish_inv
  refine ⟨by rw [hst, h.index], by rw [hst, h.transfers], ?_, by rw [hb]; exact h.fits, h.place⟩
  rw [hs.published_publish, ← h.events]
  simp [Point.pending]

theorem Progress.confirm {k : ℕ} {head n m : UInt64} (h : Progress cfg c (.loop head n) w k) (hn : ¬ n ≤ head)
    (hs : Step (growingBackend c).lossy MemStore.store faults w (.confirmThrough m) (.ok ()) w') :
    Progress cfg c (.done head) w' k := by
  have hst := Except.ok.inj hs.confirmThrough_inv.1
  have hat : n.toNat = cfg.startBlock.toNat + k := h.place
  have hlt := UInt64.lt_iff_toNat_lt.mp (UInt64.not_le.mp hn)
  refine ⟨?_, ?_, ?_, ?_, ?_⟩
  · rw [← hst, MemStore.index_confirmThrough, h.index]
  · rw [← hst, MemStore.confirmThrough, List.map_map, ← h.transfers]
    simp [Function.comp_def]
  · rw [hs.published_eq rfl]
    exact h.events
  · rw [hs.confirmThrough_inv.2]
    exact h.fits
  · change head.toNat < _
    omega

theorem Grown.progress_move (h : Grown cfg c p w) (hm : Move cfg p op r p')
    (hs : Step (growingBackend c).lossy MemStore.store faults w op r w') :
    w'.backend.Exhausted ∨ ∃ k, Progress cfg c p' w' k := by
  have hsub := (growingBackend_rising c).subset hs
  obtain ⟨m, hm', hmax⟩ | ⟨k, hk⟩ := h.progress
  · exact .inl ⟨m, hsub m hm', hmax⟩
  have hforward := h.forward_move hm hs
  cases hm with
  | head hd => exact .inr ⟨k, hk.quiet hs hs.header_inv.2 rfl rfl rfl trivial⟩
  | empty head =>
    obtain ⟨hb, he, -⟩ := hs.lastBlock_inv
    refine .inr ⟨k, hk.quiet hs he rfl rfl rfl ?_⟩
    have hi : w.store.index = [] := by
      rw [← List.head?_eq_none_iff, ← MemStore.lastBlock_eq]
      exact Except.ok.inj hb
    rw [hk.index, List.reverse_eq_nil_iff, List.map_eq_nil_iff] at hi
    cases k with
    | zero => rfl
    | succ k => cases hi
  | last head b =>
    obtain ⟨hb, he, -⟩ := hs.lastBlock_inv
    exact .inr ⟨k, hk.quiet hs he rfl rfl rfl (hk.top (MemStore.lastBlock_eq _ ▸ Except.ok.inj hb))⟩
  | matched head b hd heq =>
    have hat : b.number.toNat + 1 = cfg.startBlock.toNat + k := hk.place
    by_cases hmax : b.number.toNat + 1 < 2 ^ 64
    · exact .inr ⟨k, hk.quiet hs hs.header_inv.2 rfl rfl rfl ((toNat_succ hmax).trans hat)⟩
    · -- the last number of its type is indexed, so it was reported as the head
      left
      have hlt := cfg.startBlock.toNat_lt
      have hb := b.number.toNat_lt
      obtain rfl | ⟨m, hm, hle⟩ := hk.fits
      · omega
      · have := m.toNat_lt
        exact ⟨m, hsub m hm, by omega⟩
  | header head n hd hn => exact .inr ⟨k, hk.quiet hs hs.header_inv.2 rfl rfl rfl hk.place⟩
  | parent head n hd prev hn heq => exact .inr ⟨k, hk.quiet hs hs.blockByNumber_inv.2.1 rfl rfl rfl hk.place⟩
  | logs head n hd lgs => exact .inr ⟨k, hk.quiet hs hs.logs_inv.2 rfl rfl rfl hk.place⟩
  | save head n hd ts =>
    obtain ⟨-, rfl, rfl⟩ := h.inHand
    exact .inr ⟨k + 1, hk.save hs h.gated.within (List.mem_of_mem_head? h.gated.head)⟩
  | announce head n e es r => exact .inr ⟨k, hk.announce hs⟩
  | confirm head n hn hc => exact .inr ⟨k, hk.confirm hn hs⟩
  | error hm hc e => exact .inr ⟨k, hk.quiet hs hs.store_of_error hc (hm.pending_eq_nil hc) rfl trivial⟩
  | diverged | orphan => exact hforward.elim
  | delete | reorg => exact h.forward.elim

theorem Grown.progress_silent (h : Grown cfg c p w) (hm : Silent cfg p p') :
    w.backend.Exhausted ∨ ∃ k, Progress cfg c p' w k := by
  obtain hx | ⟨k, hk⟩ := h.progress
  · exact .inl hx
  cases hm with
  | genesis head n hd hn => exact .inr ⟨k, hk.index, hk.transfers, hk.events, hk.fits, hk.place⟩
  | next head n =>
    have hat : n.toNat + 1 = cfg.startBlock.toNat + k := hk.place
    have hle := UInt64.le_iff_toNat_le.mp h.gated.within
    by_cases hmax : n.toNat + 1 < 2 ^ 64
    · exact .inr ⟨k, hk.index, hk.transfers, hk.events, hk.fits, (toNat_succ hmax).trans hat⟩
    · have := head.toNat_lt
      exact .inl ⟨head, List.mem_of_mem_head? h.gated.head, by omega⟩
  | shallow head n hn hc =>
    have hat : n.toNat = cfg.startBlock.toNat + k := hk.place
    have hlt := UInt64.lt_iff_toNat_lt.mp (UInt64.not_le.mp hn)
    refine .inr ⟨k, hk.index, hk.transfers, hk.events, hk.fits, ?_⟩
    change head.toNat < _
    omega
  | cancel | finish | revert | fail => exact .inr ⟨k, hk.index, hk.transfers, hk.events, hk.fits, trivial⟩

def growing (c : Chain) (cfg : Config) (faults : Prop) :
    Outline cfg (Step (growingBackend c).lossy MemStore.store faults) fun _ _ _ _ ↦ True where
  inv := Grown cfg c
  move hm hs h := ⟨trivial, ((gating (growingBackend_rising c) cfg [] faults).move hm hs h.gated).2,
    (growing_mono hs).2 h.bound, h.agrees_move hm hs, h.forward_move hm hs, h.inHand_move hm hs, h.progress_move hm hs⟩
  silent {p p' w} hm h := by
    refine ⟨(gating (growingBackend_rising c) cfg [] faults).silent hm h.gated, h.bound, h.agrees,
      by cases hm <;> trivial, ?_, h.progress_silent hm⟩
    cases hm with
    | genesis => exact h.inHand
    | shallow head n hn hc =>
      have hlt := UInt64.lt_iff_toNat_lt.mp (UInt64.not_le.mp hn)
      have hmax := n.toNat_lt
      simp only [Point.InHand]
      omega
    | _ => trivial

theorem grown_start (c : Chain) (cfg : Config) : Grown cfg c .idle ⟨.start, .newMemStore, []⟩ where
  gated := gated_newMemStore rfl
  bound := UInt64.le_iff_toNat_le.mpr (Nat.zero_le _)
  agrees := by simp [Chain.Agrees]
  forward := trivial
  inHand := trivial
  progress := .inr ⟨0, rfl, rfl, rfl, .inl rfl, trivial⟩

/-- A sync that reaches its end leaves the blocks up to its head. -/
theorem Grown.done {h : UInt64} (hg : Grown cfg c (.done h) w) :
    Progress cfg c (.done h) w (h.toNat + 1 - cfg.startBlock.toNat) := by
  have hend : h.toNat + 1 < 2 ^ 64 := hg.inHand
  have hrise : ∀ m ∈ w.backend.reported, m.toNat ≤ h.toNat := fun m hm ↦
    UInt64.le_iff_toNat_le.mp (hg.gated.rising h hg.gated.head m hm)
  obtain ⟨m, hm, hmax⟩ | ⟨k, hk⟩ := hg.progress
  · have := hrise m hm
    omega
  · have hplace : h.toNat < cfg.startBlock.toNat + k := hk.place
    have : h.toNat + 1 - cfg.startBlock.toNat = k := by
      obtain rfl | ⟨m, hm, hle⟩ := hk.fits
      · omega
      · have := hrise m hm
        omega
    rwa [this]

/-- One clean sync at head `h`, from the empty store. -/
theorem Chain.single (c : Chain) (cfg : Config) {h : UInt64} (hle : h ≤ c.head) (hmax : h.toNat + 1 < 2 ^ 64) :
    ∃ v, Returns cfg (c.cut h hle) ⟨(), .newMemStore, []⟩ v ∧
      v.store.index = ((span (h.toNat + 1 - cfg.startBlock.toNat) cfg.startBlock).map c.block).reverse ∧
      v.store.transfers = (c.pairs cfg (span (h.toNat + 1 - cfg.startBlock.toNat) cfg.startBlock)).map (fun x ↦
        ⟨x.1, x.2, decide (x.1.toNat + cfg.confirmations.toNat ≤ h.toNat)⟩) ∧
      (published v.log).map Event.unflag = (span (h.toNat + 1 - cfg.startBlock.toNat) cfg.startBlock).flatMap
        fun n ↦ announcement (c.block n) (c.transfers cfg n) false := by
  have hstart := cfg.startBlock.toNat_lt
  obtain ⟨v, hret, hst, hpub⟩ := Chain.Agrees.returns (c := c.cut h hle) (w := ⟨(), .newMemStore, []⟩) cfg
    (by simp [Chain.Agrees]) hmax rfl
  have hk : cfg.startBlock.toNat + (h.toNat + 1 - cfg.startBlock.toNat) ≤ 2 ^ 64 := by omega
  have hnext : nextNumber cfg MemStore.newMemStore = cfg.startBlock := by
    rw [nextNumber, MemStore.lastBlock_eq]
    rfl
  have hhead : (c.cut h hle).head = h := rfl
  simp only [hnext, hhead] at hst hpub
  refine ⟨v, hret, ?_, ?_, ?_⟩
  · rw [hst, MemStore.index_promoted, Chain.saves_index _ (span_ascending hk) _ (by simp)]
    exact List.append_nil _
  · rw [hst]
    refine MemStore.promoted_transfers (fun x hx ↦ ?_) (Chain.saves_transfers _ _)
    obtain ⟨n, hn, hx⟩ := List.mem_flatMap.mp hx
    obtain ⟨t, -, rfl⟩ := List.mem_map.mp hx
    have hm := (mem_span hk).mp hn
    refine UInt64.le_iff_toNat_le.mpr ?_
    change n.toNat ≤ h.toNat
    omega
  · rw [hpub, List.map_append, Chain.announcements, List.map_flatMap]
    simp only [announcement_unflag]
    rfl

theorem Grown.transfers_eq {h : UInt64} (hg : Grown cfg c (.done h) w) :
    w.store.transfers = (c.pairs cfg (span (h.toNat + 1 - cfg.startBlock.toNat) cfg.startBlock)).map fun x ↦
      ⟨x.1, x.2, decide (x.1.toNat + cfg.confirmations.toNat ≤ h.toNat)⟩ := by
  rw [← hg.done.transfers, List.map_map]
  refine (List.map_id _).symm.trans (List.map_congr_left fun t ht ↦ ?_)
  obtain ⟨n, u, f⟩ := t
  have hf : f = decide (n.toNat + cfg.confirmations.toNat ≤ h.toNat) := by
    rw [Bool.eq_iff_iff, decide_eq_true_iff]
    exact hg.gated.exact _ ht
  rw [hf]
  rfl

/-- However the indexing was split into syncs, and whatever calls failed on the way: when the last sync
returns nil, store and messages are those of one clean sync of the empty store at the same head. -/
theorem incremental_eq_single (c : Chain) (cfg : Config) (ticks : List ℕ) (ctx : ℕ) (h : UInt64)
    (w w' : World Growth MemStore)
    (hr : Run (Step (growingBackend c).lossy MemStore.store True) (run cfg ticks) ⟨.start, .newMemStore, []⟩
      (.ret ()) w)
    (hsync : Run (Step (growingBackend c).lossy MemStore.store True) (sync cfg ctx) w (.ret ()) w')
    (hh : w'.backend.reported.head? = some h) :
    ∃ (hle : h ≤ c.head) (v : World Unit MemStore), Returns cfg (c.cut h hle) ⟨(), .newMemStore, []⟩ v ∧
      w'.store = v.store ∧ (published w'.log).map Event.unflag = (published v.log).map Event.unflag ∧
      (published w'.log).map Event.unflag = (span (h.toNat + 1 - cfg.startBlock.toNat) cfg.startBlock).flatMap
        (fun n ↦ announcement (c.block n) (c.transfers cfg n) false) ∧
      ∀ m, .chainReorg m ∉ published w'.log := by
  have hidle := (growing c cfg True).idle_of_run (grown_start c cfg) hr
  obtain ⟨k, hg⟩ | hg := (growing c cfg True).ends_of_run (r := .ok ()) hidle hsync
  · change Grown cfg c (.done k) w' at hg
    have hk := hg.gated.head
    rw [Point.HeadIs, hh] at hk
    cases hk
    have hle := UInt64.le_trans (w'.backend.le h (List.mem_of_mem_head? hh)) hg.bound
    obtain ⟨v, hret, hi, ht, he⟩ := c.single cfg hle hg.inHand
    have hev := hg.done.events
    simp only [Point.pending, List.append_nil] at hev
    refine ⟨hle, v, hret, MemStore.ext_index (hg.done.index.trans hi.symm) (hg.transfers_eq.trans ht.symm),
      hev.trans he.symm, hev, fun m hm ↦ ?_⟩
    have hmem : Event.chainReorg m ∈ (published w'.log).map Event.unflag := List.mem_map.mpr ⟨_, hm, rfl⟩
    rw [hev] at hmem
    obtain ⟨n, -, hn⟩ := List.mem_flatMap.mp hmem
    cases announcement_isReorg _ hn
  · exact (Grown.forward hg).elim

/-- The chain grows by one block with every query for its head. -/
def Chain.growingOracle (c : Chain) : Oracle Growth where
  header g q :=
    if q = none then
      if h : g.now ≤ g.now + 1 ∧ g.now + 1 ≤ c.head then
        (.ok (c.header (g.now + 1)), ⟨g.now + 1, (g.now + 1) :: g.reported,
          List.forall_mem_cons.mpr ⟨UInt64.le_refl _, fun k hk ↦ UInt64.le_trans (g.le k hk) h.1⟩⟩)
      else (.error .notFound, g)
    else if h : g.now ≤ c.head then ((c.cut g.now h).headerByNumber q, g) else (.error .notFound, g)
  logs g q := if h : g.now ≤ c.head then (.ok ((c.cut g.now h).filterLogs q), g) else (.error .notFound, g)

theorem Chain.growingOracle_conforms (c : Chain) : c.growingOracle.Conforms (growingBackend c).lossy := by
  refine ⟨fun g q ↦ ?_, fun g q ↦ ?_⟩
  · unfold growingOracle
    dsimp only
    split
    · rename_i hq
      subst hq
      split
      · rename_i h
        exact .inl ⟨h.1, h.2, rfl, rfl⟩
      · exact .inr ⟨rfl, _, rfl⟩
    · rename_i hq
      split
      · rename_i h
        exact .inl ⟨UInt64.le_refl _, h, rfl, (if_neg hq).symm⟩
      · exact .inr ⟨rfl, _, rfl⟩
  · unfold growingOracle
    dsimp only
    split
    · rename_i h
      exact .inl ⟨UInt64.le_refl _, h, rfl, rfl⟩
    · exact .inr ⟨rfl, _, rfl⟩

end Growing

/-- The blocks 0 to 2, one transfer in each. -/
def grownChain : Chain := buildChain 2 3 0 fun n ↦ [transferLog n.toUInt8]

/-- A sync at head 1, cancelled after one block. -/
def cancelledSync : Except Err Unit × World Growth MemStore :=
  (sync ⟨1, 0, []⟩ 1).eval (grownChain.growingOracle.respond MemStore.store) ⟨.start, .newMemStore, []⟩

/-- The next one, at head 2. -/
def resumedSync : Except Err Unit × World Growth MemStore :=
  (sync ⟨1, 0, []⟩ 5).eval (grownChain.growingOracle.respond MemStore.store) cancelledSync.2

omit [GoEthereum] in
theorem incremental_eq_single_resumedSync :
    letI := testEthereum
    cancelledSync.1 = .error .canceled ∧ cancelledSync.2.backend.reported = [1] ∧ ∃ hle v,
      Returns ⟨1, 0, []⟩ (grownChain.cut 2 hle) ⟨(), .newMemStore, []⟩ v ∧ resumedSync.2.store = v.store := by
  have hsync : ∀ [GoEthereum], resumedSync.1 = .ok () → resumedSync.2.backend.reported.head? = some 2 → ∃ hle v,
      Returns ⟨1, 0, []⟩ (grownChain.cut 2 hle) ⟨(), .newMemStore, []⟩ v ∧ resumedSync.2.store = v.store := by
    intro _ hok hh
    have hs : Run (Step (growingBackend grownChain).lossy MemStore.store True) (sync ⟨1, 0, []⟩ 5) cancelledSync.2
        (ofExcept resumedSync.1) resumedSync.2 := (Chain.growingOracle_conforms _).run _ _ _
    rw [hok] at hs
    obtain ⟨hle, v, hret, hst, -⟩ := incremental_eq_single grownChain ⟨1, 0, []⟩ [1] 5 2 _ _
      ((Chain.growingOracle_conforms _).run_cons _ _ 1 [] _) hs hh
    exact ⟨hle, v, hret, hst⟩
  exact ⟨by decide +kernel, by decide +kernel, @hsync testEthereum (by decide +kernel) (by decide +kernel)⟩

end EventPlatform.ChainMonitor
