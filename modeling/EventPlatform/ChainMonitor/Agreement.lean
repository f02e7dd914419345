import EventPlatform.ChainMonitor.Tracking

namespace EventPlatform.ChainMonitor

open Ethereum

variable [GoEthereum]

/-- Every stored block is the one that the chain has at its number. -/
def Chain.Agrees (c : Chain) (s : MemStore) : Prop := ∀ b ∈ s.index, b.number ≤ c.head ∧ b.hash = c.hashAt b.number

/-- The stored blocks were taken from headers, among which a hash determines its header. -/
structure Taken (known : Set Header) (c : Chain) (s : MemStore) : Prop where
  inj : Set.InjOn GoEthereum.headerHash known
  chain : ∀ n ≤ c.head, c.header n ∈ known
  stored : ∀ b ∈ s.index, ∃ hd ∈ known, b = .ofHeader b.number hd

variable {known : Set Header} {c : Chain} {s : MemStore}

theorem Chain.Agrees.parentHash (ha : c.Agrees s) {n : UInt64} (hn : 0 < n) (hc : n ≤ c.head) {b : Block}
    (hb : s.blockByNumber (n - 1) = some b) : b.hash = (c.header n).parentHash := by
  obtain ⟨hm, hnum⟩ := MemStore.getElem?_eq_some.mp hb
  rw [(ha b hm).2, hnum, Chain.parentHash_eq hn hc]

theorem Chain.Agrees.saveBlock (ha : c.Agrees s) {n : UInt64} (hn : n ≤ c.head)
    (ts : List Transfer) (f : Bool) : c.Agrees (s.saveBlock (c.block n) ts f) := by
  intro b hb
  obtain rfl | hb := MemStore.mem_index_saveBlock hb
  · exact ⟨hn, rfl⟩
  · exact ha b hb

theorem Taken.eq_block (h : Taken known c s) {b : Block} (hb : b ∈ s.index) (hn : b.number ≤ c.head)
    (hh : b.hash = c.hashAt b.number) : b = c.block b.number := by
  obtain ⟨hd, hk, he⟩ := h.stored b hb
  have : hd = c.header b.number := by
    apply h.inj hk (h.chain _ hn)
    rw [he] at hh
    exact hh
  rw [he, this]
  rfl

/-- Agreement with the chain passes from a block to its parent. -/
theorem Taken.parent (h : Taken known c s) (hle : ∀ b ∈ s.index, b.number ≤ c.head) :
    ∀ a ∈ s.index, ∀ b ∈ s.index, a.number.toNat = b.number.toNat + 1 → a.parentHash = b.hash →
      a.hash = c.hashAt a.number → b.hash = c.hashAt b.number := by
  intro a ha b hb hn hp hh
  have hlt : b.number < c.head := by
    rw [UInt64.lt_iff_toNat_lt]
    have := UInt64.le_iff_toNat_le.mp (hle a ha)
    omega
  have hab : a.number = b.number + 1 := by
    apply UInt64.toNat_inj.mp
    have := a.number.toNat_lt
    rw [hn, toNat_succ (by omega)]
  rw [← hp, h.eq_block ha (hle a ha) hh, hab]
  exact c.linked _ hlt

/-- A stored tip on the chain puts all that is stored on the chain. -/
theorem Taken.agrees_of_head (h : Taken known c s) (hl : s.Linked) {b : Block} (hb : s.index.head? = some b)
    (hn : b.number ≤ c.head) (hh : b.hash = c.hashAt b.number) : c.Agrees s := by
  have hle : ∀ a ∈ s.index, a.number ≤ c.head := fun a ha ↦
    UInt64.le_trans (UInt64.le_iff_toNat_le.mpr (s.head_max hb ha)) hn
  obtain ⟨l, hi⟩ := List.head?_eq_some_iff.mp hb
  unfold MemStore.Linked at hl
  have hp := h.parent hle
  rw [hi] at hl hp
  intro a ha
  refine ⟨hle a ha, ?_⟩
  rw [hi] at ha
  rcases List.mem_cons.mp ha with rfl | ha
  · exact hh
  · exact hl.downward hp hh a ha

end EventPlatform.ChainMonitor
