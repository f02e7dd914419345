import EventPlatform.ChainMonitor.Convergence
import EventPlatform.ChainMonitor.Reorg

namespace EventPlatform.ChainMonitor

open Ethereum Interaction Prog

/-- New blocks were put on top. -/
def MemStore.Extends (s s' : MemStore) : Prop := ∃ new, s'.index = new ++ s.index

/-- The same transfer, where only its flag may have been raised. -/
structure StoredTransfer.Raised (t t' : StoredTransfer) : Prop where
  block : t'.block = t.block
  transfer : t'.transfer = t.transfer
  confirmed : t.confirmed = true → t'.confirmed = true

/-- The transfers of the old blocks that are still there are the same, but for raised flags. -/
def MemStore.Raised (s s' : MemStore) : Prop :=
  ∀ b ∈ s.index, b ∈ s'.index → List.Forall₂ StoredTransfer.Raised (s.transfersOf b.number) (s'.transfersOf b.number)

variable [GoEthereum]

/-- New blocks were put on top, and then the top block, which is not on the chain `c`, was removed. -/
def MemStore.Shortened (c : Chain) (s s' : MemStore) : Prop :=
  ∃ new last, new ++ s.index = last :: s'.index ∧ last.number ≤ c.head ∧ last.hash ≠ c.hashAt last.number

/-- Only the top was rewritten, as the chain `c` demanded. -/
def TopRewritten (c : Chain) (s s' : MemStore) : Prop := (s.Extends s' ∨ s.Shortened c s') ∧ s.Raised s'

/-- What became of the blocks at each point. -/
def Point.Shape (c : Chain) (s s' : MemStore) : Point → Prop
  | .rolled _ | .reverted => s.Shortened c s'
  | _ => s.Extends s'

/-- The assertion at each point of a sync that started with the store `s`. -/
structure Framed (canon : ℕ → Chain) (s : MemStore) (p : Point) (w : World Clock MemStore) : Prop where
  within : p.Within
  below : p.HeadIs fun h ↦ h.toNat + 1 < 2 ^ 64
  linked : w.store.Linked
  tracks : Tracks p w.store
  read : p.Read canon w.backend
  stale : p.Stale canon w.backend w.store
  shape : p.Shape (canon w.backend.asked) s w.store
  raised : s.Raised w.store

section Moves

variable {canon : ℕ → Chain} {s : MemStore} {cfg : Config} {p p' : Point} {faults : Prop} {w w' : World Clock MemStore}
  {c : Call} {r : Except Err c.Reply}

omit [GoEthereum] in
theorem MemStore.Raised.refl (s : MemStore) : s.Raised s :=
  fun _ _ _ ↦ List.forall₂_same.mpr fun _ _ ↦ ⟨rfl, rfl, id⟩

omit [GoEthereum] in
theorem StoredTransfer.Raised.confirmTo {t t' : StoredTransfer} (h : t.Raised t') (n : UInt64) :
    t.Raised (t'.confirmTo n) where
  block := by rw [confirmTo_block, h.block]
  transfer := by rw [confirmTo_transfer, h.transfer]
  confirmed ht := by
    unfold StoredTransfer.confirmTo
    split
    · rfl
    · exact h.confirmed ht

/-- Up to a rollback the store has only grown. -/
theorem Framed.extends (h : Framed canon s p w) (hm : Move cfg p c r p') (hc : c.isPublish = false) :
    s.Extends w.store := by
  induction hm with
  | reorg | announce => cases hc
  | error _ _ _ ih => exact ih h hc
  | _ => exact h.shape

theorem Framed.tracks_move (hmax : ∀ t, (canon t).head.toNat + 1 < 2 ^ 64) (h : Framed canon s p w)
    (hm : Move cfg p c r p') (hs : Step (headersBackend canon).lossy MemStore.store faults w c r w') :
    w'.store.Linked ∧ Tracks p' w'.store := by
  refine h.tracks.move hm hs h.linked ?_
  rintro head b rfl rfl
  cases hm with
  | matched _ _ hd heq =>
    obtain ⟨-, -, ha⟩ := Backend.lossy_header_ok hs.header_inv.1
    have hle := UInt64.le_iff_toNat_le.mp (Chain.headerByNumber_ok ha).1
    have := hmax w'.backend.now
    omega

theorem Framed.shape_move (h : Framed canon s p w) (hm : Move cfg p c r p')
    (hs : Step (headersBackend canon).lossy MemStore.store faults w c r w') :
    p'.Shape (canon w'.backend.asked) s w'.store := by
  cases hm with
  | delete n =>
    obtain ⟨hst, hb⟩ := hs.deleteFrom_inv
    rw [← Except.ok.inj hst, hb]
    obtain ⟨new, hnew⟩ : s.Extends w.store := h.shape
    obtain ⟨last, hlast, hn⟩ := h.tracks
    obtain ⟨hle, b, hb, hbn, hne⟩ := h.stale
    have hbl : b = last := Option.some.inj <|
      (MemStore.getElem?_eq_some.mpr ⟨hb, hbn⟩).symm.trans
        (MemStore.getElem?_eq_some.mpr ⟨List.mem_of_mem_head? hlast, hn⟩)
    obtain ⟨rest, hrest⟩ := List.head?_eq_some_iff.mp hlast
    refine ⟨new, last, ?_, hn ▸ hle, ?_⟩
    · rw [Tracks.index_rollback h.linked h.tracks, ← hnew, hrest, List.tail_cons]
    · rw [← hbl, hbn]
      exact hne
  | reorg n r =>
    obtain ⟨hb, hst⟩ := hs.publish_inv
    rw [hb, hst]
    exact h.shape
  | save head n hd ts =>
    obtain ⟨new, hnew⟩ : s.Extends w.store := h.shape
    rw [← Except.ok.inj hs.saveBlock_inv.1]
    refine ⟨.ofHeader n hd :: new, ?_⟩
    rw [h.tracks.index_save h.linked, hnew, List.cons_append]
  | confirm head n hn hc =>
    rw [← Except.ok.inj hs.confirmThrough_inv.1]
    exact h.shape
  | error hm hc e =>
    change s.Extends w'.store
    rw [hs.store_of_error]
    exact h.extends hm hc
  | _ =>
    change s.Extends w'.store
    rw [hs.store_of_not_isWrite rfl]
    exact h.shape

theorem Framed.raised_move (h : Framed canon s p w) (hm : Move cfg p c r p')
    (hs : Step (headersBackend canon).lossy MemStore.store faults w c r w') : s.Raised w'.store := by
  cases hs with
  | saveBlock hb =>
    obtain ⟨head, n, hd, rfl, rfl, -, -⟩ := hm.of_saveBlock
    cases hb
    intro b hb _
    obtain ⟨new, hnew⟩ : s.Extends w.store := h.shape
    have hmem : b ∈ w.store.index := hnew ▸ List.mem_append_right new hb
    have hne : n ≠ b.number := fun he ↦ h.tracks.not_mem h.linked (MemStore.mem_blocks.mpr ⟨b, hmem, he.symm⟩)
    rw [World.answer, MemStore.transfersOf_saveBlock_ne _ hne]
    exact h.raised b hb hmem
  | deleteFrom hb =>
    obtain ⟨rfl, -⟩ := hm.of_deleteFrom
    cases hb
    intro b hb hb'
    rw [World.answer, MemStore.index_deleteFrom, List.mem_filter] at hb'
    rw [World.answer, MemStore.transfersOf_deleteFrom _ (of_decide_eq_true hb'.2)]
    exact h.raised b hb hb'.1
  | confirmThrough hb =>
    cases hb
    intro b hb hb'
    rw [World.answer, MemStore.transfersOf_confirmThrough, List.forall₂_map_right_iff]
    exact (h.raised b hb hb').imp fun _ _ ht ↦ ht.confirmTo _
  | _ => exact h.raised

def framing (hmax : ∀ t, (canon t).head.toNat + 1 < 2 ^ 64) (cfg : Config) (s : MemStore) (faults : Prop) :
    SyncOutline cfg (Step (headersBackend canon).lossy MemStore.store faults) fun _ _ _ _ ↦ True where
  inv := Framed canon s
  move hm hs h := by
    refine ⟨trivial, hm.within h.within, hm.headIs h.below ?_, (h.tracks_move hmax hm hs).1,
      (h.tracks_move hmax hm hs).2, h.read.move (headersBackend_follows canon) hm hs,
      h.stale.move (headersBackend_follows canon) h.read hm hs,
      h.shape_move hm hs, h.raised_move hm hs⟩
    intro hd he
    cases he
    rw [Chain.number64_of_head (Backend.lossy_header_ok hs.header_inv.1).2.2]
    exact hmax _
  silent {p p' w} hm hp h := by
    refine ⟨hm.within h.within, hm.headIs h.below, h.linked, h.tracks.silent hm ?_, h.read.silent hm, ?_, ?_, h.raised⟩
    · rintro head n es rfl
      have hb : head.toNat + 1 < 2 ^ 64 := h.below
      have hn := UInt64.le_iff_toNat_le.mp h.within
      omega
    · cases hm <;> trivial
    · cases hm <;> first | exact h.shape | exact absurd rfl hp

theorem framed_start {k : Clock} (hl : s.Linked) : Framed canon s .idle ⟨k, s, []⟩ where
  within := trivial
  below := trivial
  linked := hl
  tracks := trivial
  read := trivial
  stale := trivial
  shape := ⟨[], rfl⟩
  raised := .refl s

theorem topRewritten_of_run (hmax : ∀ t, (canon t).head.toNat + 1 < 2 ^ 64) {k : Clock} (hl : s.Linked) {ctx : ℕ}
    {r : Except Err Unit} (hr : Run (Step (headersBackend canon).lossy MemStore.store faults) (sync cfg ctx) ⟨k, s, []⟩
      (ofExcept r) w') : TopRewritten (canon w'.backend.asked) s w'.store := by
  have hends := (framing hmax cfg s faults).ends_of_run (framed_start hl) hr
  cases r with
  | ok u =>
    obtain ⟨h, hdone⟩ | hrev := hends
    · exact ⟨.inl (Framed.shape hdone), Framed.raised hdone⟩
    · exact ⟨.inr (Framed.shape hrev), Framed.raised hrev⟩
  | error e => exact ⟨.inl (Framed.shape hends), Framed.raised hends⟩

end Moves

section Wrap

variable {c : Chain} {cfg : Config}

/-- The answers of one chain. -/
def Chain.backend (c : Chain) : Backend Unit where
  header _ q r _ := r = c.headerByNumber q
  logs _ q r _ := r = .ok (c.filterLogs q)

theorem Chain.oracle_conforms (c : Chain) : c.oracle.Conforms c.backend := ⟨fun _ _ ↦ rfl, fun _ _ ↦ rfl⟩

/-- The head of a chain alone. -/
def Chain.tipStore (c : Chain) : MemStore := MemStore.newMemStore.saveBlock (c.block c.head) [] false

theorem Chain.index_tipStore (c : Chain) : c.tipStore.index = [c.block c.head] :=
  MemStore.index_saveBlock (by simp) [] false

theorem Chain.linked_tipStore (c : Chain) : c.tipStore.Linked := by
  rw [MemStore.Linked, index_tipStore]
  exact List.isChain_singleton _

/-- Above the last number of its type the loop goes on with block zero. -/
theorem Chain.eval_sync_wrap (hmax : c.head.toNat + 1 = 2 ^ 64) (cfg : Config) :
    ∃ w', (sync cfg 1).eval c.serve ⟨(), c.tipStore, []⟩ = (.error .canceled, w') ∧ c.block 0 ∈ w'.store.index := by
  have hagrees : c.Agrees c.tipStore := by
    intro b hb
    rw [index_tipStore, List.mem_singleton] at hb
    subst hb
    exact ⟨UInt64.le_refl _, rfl⟩
  obtain ⟨w₁, s₁, -, e₁⟩ := eval_sync_agrees (w := ⟨(), c.tipStore, []⟩) cfg hagrees
  have hle : ∀ n : UInt64, n ≤ c.head := fun n ↦ UInt64.le_iff_toNat_le.mpr (by have := n.toNat_lt; omega)
  have hnext : nextNumber cfg c.tipStore = 0 := by
    rw [nextNumber, MemStore.lastBlock_eq, index_tipStore]
    refine UInt64.toNat_inj.mp ((UInt64.toNat_add c.head 1).trans ?_)
    rw [UInt64.toNat_one, hmax]
    rfl
  obtain ⟨w₂, e₂, s₂, -⟩ := eval_indexFrom_succ (w := w₁) cfg (hle 0) (hle 0) (s₁ ▸ hagrees)
  refine ⟨w₂, ?_, ?_⟩
  · rw [e₁, hnext, e₂, indexFrom, if_pos (hle _)]
    rfl
  · rw [s₂]
    exact MemStore.mem_saveBlock_iff.mpr (.inl rfl)

/-- A stored block zero below the old block is no extension of the old block. -/
theorem Chain.not_topRewritten (hmax : c.head.toNat + 1 = 2 ^ 64) {d : Chain} {s : MemStore} (h : c.block 0 ∈ s.index) :
    ¬ TopRewritten d c.tipStore s := by
  have hno : ∀ new, s.index ≠ new ++ [c.block c.head] := by
    intro new hnew
    have hdesc := s.index_desc
    rw [hnew, List.pairwise_append] at hdesc
    rw [hnew, List.mem_append, List.mem_singleton] at h
    obtain h | h := h
    · exact Nat.not_lt_zero _ (hdesc.2.2 _ h _ List.mem_cons_self)
    · have hzero : 0 = c.head.toNat := congrArg (fun b : Block ↦ b.number.toNat) h
      omega
  rintro ⟨⟨new, hnew⟩ | ⟨new, last, hnew, -⟩, -⟩
  · exact hno new (c.index_tipStore ▸ hnew)
  · rw [index_tipStore] at hnew
    cases new with
    | nil =>
      rw [← (List.cons.inj hnew).2] at h
      cases h
    | cons b new => exact hno new (List.cons.inj hnew).2.symm

end Wrap

/-- One sync only rewrites the top of the index, for all stores with linked blocks and all runs against
these chains, exactly when no chain reaches the last number of its type. -/
theorem topRewritten_iff (canon : ℕ → Chain) :
    (∀ (cfg : Config) (k : Clock) (s : MemStore) (ctx : ℕ) (r : Except Err Unit) (w : World Clock MemStore),
      s.Contiguous → s.ParentLinked → Run (Step (headersBackend canon).lossy MemStore.store True) (sync cfg ctx)
        ⟨k, s, []⟩ (ofExcept r) w → TopRewritten (canon w.backend.asked) s w.store) ↔
    ∀ t, (canon t).head.toNat < 2 ^ 64 - 1 := by
  constructor
  · intro h t
    by_contra hge
    have hmax : (canon t).head.toNat + 1 = 2 ^ 64 := by
      have := (canon t).head.toNat_lt
      omega
    obtain ⟨w, he, hmem⟩ := Chain.eval_sync_wrap hmax ⟨0, 0, []⟩
    obtain ⟨hc, hp⟩ := (MemStore.linked_iff _).mp (canon t).linked_tipStore
    have hr := run_eval (canon t).serve (sync ⟨0, 0, []⟩ 1) ⟨(), (canon t).tipStore, []⟩
    rw [he] at hr
    refine Chain.not_topRewritten hmax hmem (h ⟨0, 0, []⟩ ⟨t, t, le_rfl⟩ _ 1 (.error .canceled)
      ⟨⟨t, t, le_rfl⟩, w.store, w.log⟩ hc hp ?_)
    refine hr.map (fun w ↦ (⟨⟨t, t, le_rfl⟩, w.store, w.log⟩ : World Clock MemStore)) fun w op r w' hs ↦ ?_
    refine ((canon t).oracle_conforms.step hs).rebackend ?_ ?_
    · rintro _ q _ _ rfl
      exact .inl ⟨le_rfl, rfl, rfl⟩
    · rintro _ q _ _ rfl
      exact .inl ⟨le_rfl, rfl⟩
  · intro hmax cfg k s ctx r w hc hp hr
    exact topRewritten_of_run (fun t ↦ by have := hmax t; omega) ((MemStore.linked_iff s).mpr ⟨hc, hp⟩) hr

/-- One sync of the forked store against the canonical chain. -/
def divergedSync : Except Err Unit × World Clock MemStore :=
  (sync ⟨1, 0, []⟩ 5).eval ((canonicalOracle fun _ ↦ buildChain 2 1 1 fun _ ↦ []).respond MemStore.store)
    ⟨.start, forkedStore, []⟩

omit [GoEthereum] in
theorem topRewritten_iff_divergedSync :
    letI := testEthereum
    divergedSync.2.store.index = forkedStore.index.tail ∧
      TopRewritten (buildChain 2 1 1 fun _ ↦ []) forkedStore divergedSync.2.store := by
  have hsync : ∀ [GoEthereum], forkedStore.Linked →
      TopRewritten (buildChain 2 1 1 fun _ ↦ []) forkedStore divergedSync.2.store := by
    intro _ hl
    obtain ⟨hc, hp⟩ := (MemStore.linked_iff _).mp hl
    have hhead : (2 : UInt64).toNat < 2 ^ 64 - 1 := by decide
    exact (topRewritten_iff fun _ ↦ buildChain 2 1 1 fun _ ↦ []).mpr (fun _ ↦ hhead) ⟨1, 0, []⟩ .start forkedStore 5
      divergedSync.1 divergedSync.2 hc hp ((canonicalOracle_conforms_headers _).run _ _ _)
  exact ⟨by decide +kernel, @hsync testEthereum forkedStore_linked⟩

omit [GoEthereum] in
/-- Hashes that spell out the number and the first extra byte of the header. -/
@[reducible] def saltedEthereum : GoEthereum where
  headerHash hd := .ofFn fun i ↦ if i.val = 31 then hd.extra.headD 0 else UInt8.ofNat (hd.number / 256 ^ i.val)
  addressHex _ := ""

/-- Two chains of all numbers of the type. -/
def fullChains (second : Bool) : Chain := buildChain (.ofNat (2 ^ 64 - 1)) 0 (if second then 1 else 0) fun _ ↦ []

/-- The last block of the first chain is stored; the second chain takes over when the sync, having wrapped,
has indexed the blocks 0 and 1. -/
def wrappedSync : Except Err Unit × World Clock MemStore :=
  (sync ⟨0, 0, []⟩ 5).eval ((canonicalOracle fun t ↦ fullChains (6 < t)).respond MemStore.store)
    ⟨.start, (fullChains false).tipStore, []⟩

theorem run_wrappedSync : Run (Step (headersBackend fun t ↦ fullChains (6 < t)).lossy MemStore.store False)
    (sync ⟨0, 0, []⟩ 5) ⟨.start, (fullChains false).tipStore, []⟩ (ofExcept wrappedSync.1) wrappedSync.2 :=
  (canonicalOracle_conforms_headers _).run _ _ _

omit [GoEthereum] in
/-- The rollback to number 1 also takes the old block with the last number, and block 0 stays. -/
theorem not_topRewritten_wrappedSync :
    letI := saltedEthereum
    (fullChains false).tipStore.Contiguous ∧ (fullChains false).tipStore.ParentLinked ∧
      Run (Step (headersBackend fun t ↦ fullChains (6 < t)).lossy MemStore.store False) (sync ⟨0, 0, []⟩ 5)
        ⟨.start, (fullChains false).tipStore, []⟩ (.ret ()) wrappedSync.2 ∧
      wrappedSync.2.store.index = [(fullChains false).block 0] ∧
      ∀ c, ¬ TopRewritten c (fullChains false).tipStore wrappedSync.2.store := by
  have hlinked : ∀ [GoEthereum], (fullChains false).tipStore.Contiguous ∧ (fullChains false).tipStore.ParentLinked := by
    intro _
    exact (MemStore.linked_iff _).mp (Chain.linked_tipStore _)
  have hrun : ∀ [GoEthereum], wrappedSync.1 = .ok () →
      Run (Step (headersBackend fun t ↦ fullChains (6 < t)).lossy MemStore.store False) (sync ⟨0, 0, []⟩ 5)
        ⟨.start, (fullChains false).tipStore, []⟩ (.ret ()) wrappedSync.2 := by
    intro _ hok
    have hr := run_wrappedSync
    rwa [hok] at hr
  have hnot : ∀ [GoEthereum], (fullChains false).block 0 ∈ wrappedSync.2.store.index →
      ∀ c, ¬ TopRewritten c (fullChains false).tipStore wrappedSync.2.store := by
    intro _ hmem c
    refine Chain.not_topRewritten ?_ hmem
    change (UInt64.ofNat (2 ^ 64 - 1)).toNat + 1 = 2 ^ 64
    rw [UInt64.toNat_ofNat_of_lt' (by decide), Nat.sub_add_cancel (by decide)]
  exact ⟨(@hlinked saltedEthereum).1, (@hlinked saltedEthereum).2, @hrun saltedEthereum (by decide +kernel),
    by decide +kernel, @hnot saltedEthereum (by decide +kernel)⟩

end EventPlatform.ChainMonitor
