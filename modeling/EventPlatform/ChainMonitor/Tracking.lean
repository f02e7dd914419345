import EventPlatform.Segment
import EventPlatform.ChainMonitor.MemStore
import EventPlatform.ChainMonitor.Chain
import EventPlatform.ChainMonitor.Outline

namespace EventPlatform.ChainMonitor

open Ethereum Interaction Prog

namespace MemStore

/-- The indexed numbers have no gap. -/
def Contiguous (s : MemStore) : Prop :=
  ∀ i j k : UInt64, i ≤ j → j ≤ k → i ∈ s.blocks → k ∈ s.blocks → j ∈ s.blocks

/-- Every block names the block stored below it as its parent. -/
def ParentLinked (s : MemStore) : Prop :=
  ∀ (n m : UInt64) (b a : Block), s.blocks[n]? = some b → s.blocks[m]? = some a →
    n.toNat = m.toNat + 1 → b.parentHash = a.hash

def Linked (s : MemStore) : Prop :=
  Segment.Linked (fun b : Block ↦ b.number.toNat) (fun b a ↦ b.parentHash = a.hash) s.index

theorem linked_iff (s : MemStore) : s.Linked ↔ s.Contiguous ∧ s.ParentLinked := by
  constructor
  · intro h
    constructor
    · intro i j k hij hjk hi hk
      obtain ⟨a, ha, rfl⟩ := mem_blocks.mp hi
      obtain ⟨b, hb, rfl⟩ := mem_blocks.mp hk
      obtain ⟨c, hc, hn⟩ := h.between hb ha (UInt64.le_iff_toNat_le.mp hij) (UInt64.le_iff_toNat_le.mp hjk)
      exact mem_blocks.mpr ⟨c, hc, UInt64.toNat_inj.mp hn⟩
    · intro n m b a hb ha hn
      obtain ⟨hmb, rfl⟩ := getElem?_eq_some.mp hb
      obtain ⟨hma, rfl⟩ := getElem?_eq_some.mp ha
      exact h.link_of_mem hmb hma hn
  · rintro ⟨hc, hp⟩
    refine .of_desc s.index_desc ?_ ?_
    · intro a ha b hb k hbk hka
      have hk : (UInt64.ofNat k).toNat = k :=
        UInt64.toNat_ofNat_of_lt' (lt_of_le_of_lt hka a.number.toNat_lt)
      have hm := hc b.number (.ofNat k) a.number (UInt64.le_iff_toNat_le.mpr (by omega))
        (UInt64.le_iff_toNat_le.mpr (by omega)) (mem_blocks.mpr ⟨b, hb, rfl⟩)
        (mem_blocks.mpr ⟨a, ha, rfl⟩)
      obtain ⟨c, hc, hn⟩ := mem_blocks.mp hm
      exact ⟨c, hc, by rw [hn, hk]⟩
    · exact fun a ha b hb ↦ hp a.number b.number a b (mem_index.mp ha) (mem_index.mp hb)

theorem linked_newMemStore : newMemStore.Linked := Segment.Linked.nil

end MemStore

/-- Inside the loop the number is at most the head number. -/
def Point.Within : Point → Prop
  | .header h n _ | .linked h n _ | .fetched h n _ _ | .announce h n _ => n ≤ h
  | _ => True

theorem Silent.within {cfg : Config} {p p' : Point} (hm : Silent cfg p p') (hp : p.Within) :
    p'.Within := by
  cases hm <;> trivial

/-- Where the top of the index is at each point of a sync. -/
def Tracks : Point → MemStore → Prop
  | .tip _ last, s => s.index.head? = some last
  | .rollback n, s | .announce _ n _, s => ∃ b, s.index.head? = some b ∧ b.number = n
  | .loop _ n, s | .header _ n _, s => ∀ b, s.index.head? = some b → n.toNat = b.number.toNat + 1
  | .linked _ n hd, s | .fetched _ n hd _, s => ∀ b, s.index.head? = some b →
      n.toNat = b.number.toNat + 1 ∧ hd.parentHash = b.hash
  | _, _ => True

section Effects

variable {s : MemStore} {h n : UInt64} {hd : Header} {ts : List Transfer}

theorem Tracks.below (hl : s.Linked) (ht : Tracks (.fetched h n hd ts) s) :
    ∀ b ∈ s.index, b.number.toNat < n.toNat := by
  intro b hb
  cases hi : s.index with
  | nil => simp [hi] at hb
  | cons a l =>
    have ha : s.index.head? = some a := by rw [hi]; rfl
    have hle := hl.head_max ha hb
    have hn := (ht a ha).1
    omega

theorem Tracks.not_mem (hl : s.Linked) (ht : Tracks (.fetched h n hd ts) s) : n ∉ s.blocks := by
  intro hn
  obtain ⟨b, hb, rfl⟩ := MemStore.mem_blocks.mp hn
  exact lt_irrefl _ (ht.below hl b hb)

theorem Tracks.index_save [GoEthereum] (hl : s.Linked) (ht : Tracks (.fetched h n hd ts) s) (f : Bool) :
    (s.saveBlock (.ofHeader n hd) ts f).index = .ofHeader n hd :: s.index :=
  MemStore.index_saveBlock (ht.below hl) ts f

theorem Tracks.index_rollback (hl : s.Linked) (ht : Tracks (.rollback n) s) :
    (s.deleteFrom n).index = s.index.tail := by
  obtain ⟨b, hb, rfl⟩ := ht
  rw [MemStore.index_deleteFrom]
  unfold MemStore.Linked at hl
  cases hi : s.index with
  | nil => rfl
  | cons a l =>
    rw [hi] at hb hl
    cases hb
    have hlt : ∀ c ∈ l, decide (c.number < b.number) = true := fun c hc ↦
      decide_eq_true (UInt64.lt_iff_toNat_lt.mpr (hl.lt_head c hc))
    rw [List.filter_cons_of_neg (by simp), List.filter_eq_self.mpr hlt, List.tail_cons]

theorem Tracks.linked_save [GoEthereum] (hl : s.Linked) (ht : Tracks (.fetched h n hd ts) s) (f : Bool) :
    (s.saveBlock (.ofHeader n hd) ts f).Linked := by
  unfold MemStore.Linked
  rw [ht.index_save hl f]
  exact hl.cons ht

theorem Tracks.linked_rollback (hl : s.Linked)
    (ht : Tracks (.rollback n) s) : (s.deleteFrom n).Linked := by
  unfold MemStore.Linked
  rw [ht.index_rollback hl]
  exact List.IsChain.tail hl

theorem Tracks.silent {cfg : Config} {p p' : Point} (hm : Silent cfg p p') (ht : Tracks p s)
    (hmax : ∀ h n es, p = .announce h n es → n.toNat + 1 < 2 ^ 64) : Tracks p' s := by
  cases hm with
  | genesis h n hd hn =>
    intro b hb
    have hn' : ¬ 0 < n.toNat := fun h ↦ hn (UInt64.lt_iff_toNat_lt.mpr h)
    have := ht b hb
    omega
  | next h n =>
    obtain ⟨b, hb, rfl⟩ := ht
    intro a ha
    rw [hb] at ha
    cases ha
    exact toNat_succ (hmax h _ _ rfl)
  | shallow | cancel | finish | revert | fail => trivial

end Effects

section Preservation

variable [GoEthereum] {B : Type} {be : Backend B} {faults : Prop} {w w' : World B MemStore} {cfg : Config}
  {p p' : Point} {c : Call} {r : Except Err c.Reply}

theorem Move.within (hm : Move cfg p c r p') (hp : p.Within) : p'.Within := by
  cases hm <;> trivial

/-- One call keeps the index linked and the monitor on its top, as long as the
number above the last block does not wrap. -/
theorem Tracks.move (hm : Move cfg p c r p') (hs : Step be MemStore.store faults w c r w')
    (hl : w.store.Linked) (ht : Tracks p w.store)
    (hmax : ∀ h b, p = .tip h b → p' = .loop h (b.number + 1) → b.number.toNat + 1 < 2 ^ 64) :
    w'.store.Linked ∧ Tracks p' w'.store := by
  cases hm with
  | head hd => exact hs.header_inv.2 ▸ ⟨hl, trivial⟩
  | empty h =>
    obtain ⟨hb, he, -⟩ := hs.lastBlock_inv
    have hn : w.store.index.head? = none := by
      rw [← MemStore.lastBlock_eq]
      exact Except.ok.inj hb
    rw [he]
    exact ⟨hl, fun b hb ↦ by rw [hn] at hb; cases hb⟩
  | last h b =>
    obtain ⟨hb, he, -⟩ := hs.lastBlock_inv
    rw [he]
    refine ⟨hl, ?_⟩
    rw [Tracks, ← MemStore.lastBlock_eq]
    exact Except.ok.inj hb
  | diverged h b hd hne => exact hs.header_inv.2 ▸ ⟨hl, b, ht, rfl⟩
  | matched h b hd heq =>
    rw [hs.header_inv.2]
    refine ⟨hl, fun a ha ↦ ?_⟩
    rw [show w.store.index.head? = some b from ht] at ha
    cases ha
    exact toNat_succ (hmax h b rfl rfl)
  | delete n =>
    have hd := Except.ok.inj hs.deleteFrom_inv.1
    exact hd ▸ ⟨ht.linked_rollback hl, trivial⟩
  | reorg n r => exact hs.publish_inv.2 ▸ ⟨hl, trivial⟩
  | header h n hd hn => exact hs.header_inv.2 ▸ ⟨hl, ht⟩
  | orphan h n hd b hn hne =>
    obtain ⟨hb, he, -⟩ := hs.blockByNumber_inv
    rw [he]
    refine ⟨hl, ?_⟩
    obtain ⟨hm, hbn⟩ := MemStore.getElem?_eq_some.mp (Except.ok.inj hb)
    cases hi : w.store.index with
    | nil => simp [hi] at hm
    | cons a l =>
      have ha : w.store.index.head? = some a := by rw [hi]; rfl
      have hna := ht a ha
      have hpn := toNat_pred hn
      refine ⟨a, ha, UInt64.toNat_inj.mp ?_⟩
      omega
  | parent h n hd prev hn heq =>
    obtain ⟨hb, he, -⟩ := hs.blockByNumber_inv
    rw [he]
    refine ⟨hl, fun a ha ↦ ⟨ht a ha, ?_⟩⟩
    have hna := ht a ha
    have hpn := toNat_pred hn
    have hp : prev = some a := by
      rw [← Except.ok.inj hb]
      exact MemStore.getElem?_eq_some.mpr
        ⟨List.mem_of_mem_head? ha, UInt64.toNat_inj.mp (by omega)⟩
    exact (heq a hp).symm
  | logs h n hd logs => exact hs.logs_inv.2 ▸ ⟨hl, ht⟩
  | save h n hd' ts =>
    have hd := Except.ok.inj hs.saveBlock_inv.1
    rw [← hd]
    refine ⟨ht.linked_save hl _, .ofHeader n hd', ?_, rfl⟩
    rw [ht.index_save hl]
    rfl
  | announce h n e es r => exact hs.publish_inv.2 ▸ ⟨hl, ht⟩
  | confirm h n hn hc =>
    have hd := Except.ok.inj hs.confirmThrough_inv.1
    exact hd ▸ ⟨hl, trivial⟩
  | error hm hc e => exact hs.store_of_error ▸ ⟨hl, trivial⟩

/-- The index is linked with the monitor on its top, and no number is the last one
of its type. -/
structure Steady (p : Point) (s : MemStore) : Prop where
  within : p.Within
  below : p.HeadIs fun h ↦ h.toNat + 1 < 2 ^ 64
  low : ∀ b ∈ s.index, b.number.toNat + 1 < 2 ^ 64
  linked : s.Linked
  tracks : Tracks p s

omit [GoEthereum] in
theorem steady_newMemStore : Steady .idle MemStore.newMemStore where
  within := trivial
  below := trivial
  low := by simp
  linked := MemStore.linked_newMemStore
  tracks := trivial

omit [GoEthereum] in
theorem Steady.silent {s : MemStore} (h : Steady p s) (hm : Silent cfg p p') : Steady p' s where
  within := hm.within h.within
  below := hm.headIs h.below
  low := h.low
  linked := h.linked
  tracks := by
    refine h.tracks.silent hm ?_
    rintro head n es rfl
    have hb : head.toNat + 1 < 2 ^ 64 := h.below
    have hn := UInt64.le_iff_toNat_le.mp h.within
    omega

omit [GoEthereum] in
/-- What holds of every block that is saved holds of every block that is stored. -/
theorem MemStore.forall_index_step {P : Block → Prop} (hs : Step be MemStore.store faults w c r w')
    (h : ∀ b ∈ w.store.index, P b)
    (hnew : ∀ b ts f, (⟨c, r⟩ : Act) = ⟨.saveBlock b ts f, .ok ()⟩ → P b) : ∀ b ∈ w'.store.index, P b := by
  cases hs with
  | saveBlock hb =>
    cases hb
    intro a ha
    obtain rfl | ha := MemStore.mem_index_saveBlock ha
    · exact hnew _ _ _ rfl
    · exact h a ha
  | deleteFrom hb =>
    cases hb
    intro a ha
    rw [World.answer, MemStore.index_deleteFrom] at ha
    exact h a (List.mem_filter.mp ha).1
  | confirmThrough hb =>
    cases hb
    exact h
  | _ => exact h

/-- A saved block has a number at most the head. -/
theorem Move.saved_le (hm : Move cfg p c r p') (hw : p.Within) {P : UInt64 → Prop} (hp : p.HeadIs P) {b : Block}
    {ts : List Transfer} {f : Bool} (he : (⟨c, r⟩ : Act) = ⟨.saveBlock b ts f, .ok ()⟩) :
    ∃ head, P head ∧ b.number.toNat ≤ head.toNat := by
  cases hm with
  | save head n hd ts =>
    cases he
    exact ⟨head, hp, UInt64.le_iff_toNat_le.mp hw⟩
  | _ => cases he

theorem Steady.move (h : Steady p w.store) (hm : Move cfg p c r p')
    (hs : Step be MemStore.store faults w c r w')
    (hnew : ∀ hd, (⟨c, r⟩ : Act) = ⟨.headerByNumber none, .ok hd⟩ → hd.number64.toNat + 1 < 2 ^ 64) :
    Steady p' w'.store := by
  have hmax : ∀ head b, p = .tip head b → p' = .loop head (b.number + 1) → b.number.toNat + 1 < 2 ^ 64 := by
    rintro head b rfl -
    exact h.low b (List.mem_of_mem_head? h.tracks)
  obtain ⟨hl, ht⟩ := h.tracks.move hm hs h.linked hmax
  refine ⟨hm.within h.within, hm.headIs h.below hnew, ?_, hl, ht⟩
  refine MemStore.forall_index_step hs h.low fun b ts f he ↦ ?_
  obtain ⟨head, hb, hle⟩ := hm.saved_le h.within h.below he
  omega

omit [GoEthereum] in
theorem MemStore.Filed.move (h : w.store.Filed) (hs : Step be MemStore.store faults w c r w') :
    w'.store.Filed := by
  cases hs with
  | saveBlock hb =>
    cases hb
    exact h.saveBlock _ _ _
  | deleteFrom hb =>
    cases hb
    exact h.deleteFrom _
  | confirmThrough hb =>
    cases hb
    exact h.confirmThrough _
  | _ => exact h

theorem MemStore.Batches.move {P : Block → List Transfer → Prop} (h : w.store.Batches P)
    (hst : Steady p w.store) (hf : w.store.Filed) (hm : Move cfg p c r p')
    (hs : Step be MemStore.store faults w c r w')
    (hnew : ∀ head n hd ts, p = .fetched head n hd ts → P (.ofHeader n hd) ts) : w'.store.Batches P := by
  cases hs with
  | saveBlock hb =>
    obtain ⟨head, n, hd, rfl, rfl, -, -⟩ := hm.of_saveBlock
    cases hb
    refine (h.saveBlock hf (hst.tracks.not_mem hst.linked) _ _).imp ?_
    rintro b us (⟨rfl, rfl⟩ | ⟨-, hb⟩)
    · exact hnew _ _ _ _ rfl
    · exact hb
  | deleteFrom hb =>
    cases hb
    exact (h.deleteFrom _).imp fun _ _ hb ↦ hb.2
  | confirmThrough hb =>
    cases hb
    exact h.confirmThrough _
  | _ => exact h

end Preservation

end EventPlatform.ChainMonitor
