import Mathlib
import EventPlatform.ChainMonitor.Store

namespace EventPlatform.ChainMonitor

open Ethereum

structure StoredTransfer where
  block : UInt64
  transfer : Transfer
  confirmed : Bool
  deriving DecidableEq

namespace StoredTransfer

/-- The effect of `confirmThrough` on one transfer. -/
def confirmTo (number : UInt64) (t : StoredTransfer) : StoredTransfer :=
  if t.block ≤ number then { t with confirmed := true } else t

@[simp] theorem confirmTo_block (n : UInt64) (t : StoredTransfer) :
    (t.confirmTo n).block = t.block := by
  unfold confirmTo
  split <;> rfl

@[simp] theorem confirmTo_transfer (n : UInt64) (t : StoredTransfer) :
    (t.confirmTo n).transfer = t.transfer := by
  unfold confirmTo
  split <;> rfl

end StoredTransfer

/-- The in-memory store. A block sits in the map under its own number. -/
structure MemStore where
  blocks : Std.ExtTreeMap UInt64 Block
  transfers : List StoredTransfer
  keyed : ∀ (n : UInt64) (b : Block), blocks[n]? = some b → b.number = n

namespace MemStore

theorem ext {s t : MemStore} (hb : s.blocks = t.blocks) (ht : s.transfers = t.transfers) : s = t := by
  cases s
  cases t
  cases hb
  cases ht
  rfl

def newMemStore : MemStore where
  blocks := ∅
  transfers := []
  keyed n b h := by simp at h

def saveBlock (b : Block) (transfers : List Transfer) (confirmed : Bool) (s : MemStore) : MemStore where
  blocks := s.blocks.insert b.number b
  transfers := s.transfers ++ transfers.map fun t ↦ ⟨b.number, t, confirmed⟩
  keyed n c h := by
    rw [Std.ExtTreeMap.getElem?_insert] at h
    split at h
    · rename_i hn
      cases h
      exact Std.LawfulEqOrd.eq_of_compare hn
    · exact s.keyed n c h

/-- The numbers are sorted in descending order and the first one is looked up. -/
def lastBlock (s : MemStore) : Option Block :=
  match s.blocks.keys.insertionSort (· ≥ ·) with
  | [] => none
  | n :: _ => s.blocks[n]?

def blockByNumber (number : UInt64) (s : MemStore) : Option Block := s.blocks[number]?

def deleteFrom (number : UInt64) (s : MemStore) : MemStore where
  blocks := s.blocks.filter fun n _ ↦ n < number
  transfers := s.transfers.filter fun t ↦ t.block < number
  keyed n b h := by
    rw [Std.ExtTreeMap.getElem?_filter', Option.filter_eq_some_iff] at h
    exact s.keyed n b h.1

def confirmThrough (number : UInt64) (s : MemStore) : MemStore where
  blocks := s.blocks
  transfers := s.transfers.map (·.confirmTo number)
  keyed := s.keyed

def store : Store MemStore where
  saveBlock b ts confirmed s := .ok (s.saveBlock b ts confirmed)
  lastBlock s := .ok s.lastBlock
  blockByNumber n s := .ok (s.blockByNumber n)
  deleteFrom n s := .ok (s.deleteFrom n)
  confirmThrough n s := .ok (s.confirmThrough n)

/-- The stored blocks as a sequence, newest first. -/
def index (s : MemStore) : List Block := (s.blocks.toList.map Prod.snd).reverse

theorem mem_index {s : MemStore} {b : Block} : b ∈ s.index ↔ s.blocks[b.number]? = some b := by
  simp only [index, List.mem_reverse, List.mem_map, Prod.exists, exists_eq_right]
  constructor
  · rintro ⟨n, h⟩
    have hn := Std.ExtTreeMap.mem_toList_iff_getElem?_eq_some.mp h
    rwa [s.keyed n b hn]
  · intro h
    exact ⟨b.number, Std.ExtTreeMap.mem_toList_iff_getElem?_eq_some.mpr h⟩

theorem getElem?_eq_some {s : MemStore} {n : UInt64} {b : Block} :
    s.blocks[n]? = some b ↔ b ∈ s.index ∧ b.number = n := by
  constructor
  · intro h
    have hn := s.keyed n b h
    exact ⟨mem_index.mpr (hn ▸ h), hn⟩
  · rintro ⟨h, rfl⟩
    exact mem_index.mp h

theorem mem_blocks {s : MemStore} {n : UInt64} : n ∈ s.blocks ↔ ∃ b ∈ s.index, b.number = n := by
  rw [Std.ExtTreeMap.mem_iff_isSome_getElem?, Option.isSome_iff_exists]
  simp only [getElem?_eq_some]

theorem ext_index {s t : MemStore} (hi : s.index = t.index) (ht : s.transfers = t.transfers) : s = t := by
  refine ext (Std.ExtTreeMap.ext_getElem? fun n ↦ Option.ext fun b ↦ ?_) ht
  rw [getElem?_eq_some, hi, ← getElem?_eq_some]

theorem index_desc (s : MemStore) : s.index.Pairwise fun a b ↦ b.number.toNat < a.number.toNat := by
  rw [index, List.pairwise_reverse, List.pairwise_map]
  apply List.Pairwise.imp_of_mem _ (Std.ExtTreeMap.ordered_keys_toList (t := s.blocks))
  intro a b ha hb h
  have hka := s.keyed _ _ (Std.ExtTreeMap.mem_toList_iff_getElem?_eq_some.mp ha)
  have hkb := s.keyed _ _ (Std.ExtTreeMap.mem_toList_iff_getElem?_eq_some.mp hb)
  rw [hka, hkb]
  exact UInt64.lt_iff_toNat_lt.mp (Std.compare_eq_lt.mp h)

theorem head_max (s : MemStore) {a b : Block} (hb : s.index.head? = some b) (ha : a ∈ s.index) :
    a.number.toNat ≤ b.number.toNat := by
  obtain ⟨l, hl⟩ := List.head?_eq_some_iff.mp hb
  have hd := s.index_desc
  rw [hl] at ha hd
  rcases List.mem_cons.mp ha with rfl | ha
  · exact le_rfl
  · exact ((List.pairwise_cons.mp hd).1 a ha).le

theorem nodup_of_desc {l : List Block} (hl : l.Pairwise fun a b ↦ b.number.toNat < a.number.toNat) : l.Nodup := by
  refine hl.imp ?_
  rintro a _ h rfl
  exact lt_irrefl _ h

theorem index_nodup (s : MemStore) : s.index.Nodup := nodup_of_desc s.index_desc

/-- A descending sequence with the same members is the index. -/
theorem index_eq {s : MemStore} {l : List Block}
    (hl : l.Pairwise fun a b ↦ b.number.toNat < a.number.toNat) (hm : ∀ b, b ∈ s.index ↔ b ∈ l) : s.index = l := by
  have hp : s.index.Perm l := (List.perm_ext_iff_of_nodup s.index_nodup (nodup_of_desc hl)).mpr hm
  exact hp.eq_of_pairwise (fun a b _ _ h h' ↦ absurd h (lt_asymm h')) s.index_desc hl

@[simp] theorem index_newMemStore : newMemStore.index = [] := rfl

theorem mem_saveBlock_iff {s : MemStore} {a b : Block} {ts : List Transfer} {f : Bool} :
    a ∈ (s.saveBlock b ts f).index ↔ a = b ∨ b.number ≠ a.number ∧ a ∈ s.index := by
  simp only [mem_index, saveBlock, Std.ExtTreeMap.getElem?_insert, Std.compare_eq_iff_eq]
  by_cases hn : b.number = a.number
  · simp [hn, eq_comm]
  · have hne : a ≠ b := fun h ↦ hn (h ▸ rfl)
    simp [hn, hne]

theorem mem_index_saveBlock {s : MemStore} {a b : Block} {ts : List Transfer} {f : Bool}
    (h : a ∈ (s.saveBlock b ts f).index) : a = b ∨ a ∈ s.index := (mem_saveBlock_iff.mp h).imp_right And.right

theorem mem_saveBlock_of_not_mem {s : MemStore} {a b : Block} {ts : List Transfer} {f : Bool}
    (h : b.number ∉ s.blocks) : a ∈ (s.saveBlock b ts f).index ↔ a ∈ b :: s.index := by
  rw [mem_saveBlock_iff, List.mem_cons]
  refine or_congr_right (and_iff_right_of_imp fun ha hn ↦ h ?_)
  exact mem_blocks.mpr ⟨a, ha, hn.symm⟩

theorem index_saveBlock_perm {s : MemStore} {b : Block} (h : b.number ∉ s.blocks) (ts : List Transfer)
    (confirmed : Bool) : (s.saveBlock b ts confirmed).index.Perm (b :: s.index) := by
  have hb : b ∉ s.index := fun hb ↦ h (mem_blocks.mpr ⟨b, hb, rfl⟩)
  exact (List.perm_ext_iff_of_nodup (index_nodup _) (List.nodup_cons.mpr ⟨hb, s.index_nodup⟩)).mpr fun _ ↦
    mem_saveBlock_of_not_mem h

theorem index_saveBlock {s : MemStore} {b : Block} (h : ∀ a ∈ s.index, a.number.toNat < b.number.toNat)
    (ts : List Transfer) (confirmed : Bool) : (s.saveBlock b ts confirmed).index = b :: s.index := by
  refine index_eq (List.pairwise_cons.mpr ⟨h, s.index_desc⟩) fun c ↦ mem_saveBlock_of_not_mem fun hn ↦ ?_
  obtain ⟨a, ha, he⟩ := mem_blocks.mp hn
  exact absurd (h a ha) (he ▸ lt_irrefl _)

theorem index_deleteFrom (s : MemStore) (n : UInt64) :
    (s.deleteFrom n).index = s.index.filter fun b ↦ b.number < n := by
  refine index_eq (s.index_desc.filter _) fun b ↦ ?_
  simp only [deleteFrom, Std.ExtTreeMap.getElem?_filter', List.mem_filter, mem_index,
    Option.filter_eq_some_iff]

@[simp] theorem index_confirmThrough (s : MemStore) (n : UInt64) :
    (s.confirmThrough n).index = s.index := rfl

theorem lastBlock_eq (s : MemStore) : s.lastBlock = s.index.head? := by
  have hk : s.blocks.keys.insertionSort (· ≥ ·) = s.index.map Block.number := by
    have hp : (s.blocks.keys.insertionSort (· ≥ ·)).Perm (s.index.map Block.number) := by
      refine (List.perm_insertionSort _ _).trans ?_
      have hm : s.blocks.toList.map Prod.fst = s.blocks.toList.map (Block.number ∘ Prod.snd) :=
        List.map_congr_left fun p hp ↦
          (s.keyed _ _ (Std.ExtTreeMap.mem_toList_iff_getElem?_eq_some.mp hp)).symm
      rw [← Std.ExtTreeMap.map_fst_toList_eq_keys, hm, index, List.map_reverse, List.map_map]
      exact (List.reverse_perm _).symm
    have hd : (s.index.map Block.number).Pairwise (· ≥ ·) := by
      rw [List.pairwise_map]
      exact s.index_desc.imp fun h ↦ UInt64.le_of_lt (UInt64.lt_iff_toNat_lt.mpr h)
    exact hp.eq_of_pairwise (fun _ _ _ _ h h' ↦ UInt64.le_antisymm h' h)
      (List.pairwise_insertionSort _ _) hd
  unfold lastBlock
  rw [hk]
  cases hi : s.index with
  | nil => rfl
  | cons b l => exact mem_index.mp (hi ▸ List.mem_cons_self)

/-- The transfers stored under one number, in order. -/
def transfersOf (s : MemStore) (n : UInt64) : List StoredTransfer := s.transfers.filter (·.block = n)

theorem transfersOf_saveBlock_self (s : MemStore) (b : Block) (ts : List Transfer) (f : Bool) :
    (s.saveBlock b ts f).transfersOf b.number = s.transfersOf b.number ++ ts.map (⟨b.number, ·, f⟩) := by
  have hs : ∀ t ∈ ts.map (⟨b.number, ·, f⟩ : Transfer → StoredTransfer), decide (t.block = b.number) = true := by
    simp
  rw [transfersOf, saveBlock, List.filter_append, List.filter_eq_self.mpr hs, transfersOf]

theorem transfersOf_saveBlock_ne (s : MemStore) {b : Block} {n : UInt64} (hn : b.number ≠ n)
    (ts : List Transfer) (f : Bool) : (s.saveBlock b ts f).transfersOf n = s.transfersOf n := by
  have hs : ∀ t ∈ ts.map (⟨b.number, ·, f⟩ : Transfer → StoredTransfer), ¬ decide (t.block = n) = true := by
    simp [hn]
  rw [transfersOf, saveBlock, List.filter_append, List.filter_eq_nil_iff.mpr hs, List.append_nil, transfersOf]

theorem transfersOf_deleteFrom (s : MemStore) {m n : UInt64} (hn : n < m) :
    (s.deleteFrom m).transfersOf n = s.transfersOf n := by
  rw [transfersOf, deleteFrom, List.filter_filter, transfersOf]
  refine List.filter_congr fun t _ ↦ ?_
  by_cases ht : t.block = n <;> simp [ht, hn]

theorem transfersOf_confirmThrough (s : MemStore) (m n : UInt64) :
    (s.confirmThrough m).transfersOf n = (s.transfersOf n).map (StoredTransfer.confirmTo m) := by
  rw [transfersOf, confirmThrough, List.filter_map, transfersOf]
  congr 1
  exact List.filter_congr fun t _ ↦ by simp

/-- Every transfer belongs to an indexed block. -/
def Filed (s : MemStore) : Prop := ∀ t ∈ s.transfers, t.block ∈ s.blocks

theorem Filed.saveBlock {s : MemStore} (h : s.Filed) (b : Block) (ts : List Transfer) (f : Bool) :
    (s.saveBlock b ts f).Filed := by
  intro t ht
  rw [MemStore.saveBlock, List.mem_append, List.mem_map] at ht
  rw [MemStore.saveBlock, Std.ExtTreeMap.mem_insert]
  obtain ht | ⟨u, _, rfl⟩ := ht
  · exact .inr (h t ht)
  · exact .inl Std.ReflOrd.compare_self

theorem Filed.deleteFrom {s : MemStore} (h : s.Filed) (n : UInt64) : (s.deleteFrom n).Filed := by
  intro t ht
  rw [MemStore.deleteFrom, List.mem_filter] at ht
  have hb := h t ht.1
  rw [Std.ExtTreeMap.mem_iff_isSome_getElem?, Option.isSome_iff_exists] at hb ⊢
  obtain ⟨b, hb⟩ := hb
  exact ⟨b, by simpa [MemStore.deleteFrom, Option.filter_eq_some_iff, hb] using ht.2⟩

theorem mem_confirmThrough {s : MemStore} {n : UInt64} {t : StoredTransfer}
    (h : t ∈ (s.confirmThrough n).transfers) : ∃ u ∈ s.transfers, u.confirmTo n = t := by
  simpa [confirmThrough] using h

theorem Filed.confirmThrough {s : MemStore} (h : s.Filed) (n : UInt64) : (s.confirmThrough n).Filed := by
  intro t ht
  obtain ⟨u, hu, rfl⟩ := mem_confirmThrough ht
  rw [StoredTransfer.confirmTo_block]
  exact h u hu

theorem Filed.transfersOf_eq_nil {s : MemStore} (h : s.Filed) {n : UInt64} (hn : n ∉ s.blocks) :
    s.transfersOf n = [] := by
  refine List.filter_eq_nil_iff.mpr fun t ht hb ↦ hn ?_
  exact of_decide_eq_true hb ▸ h t ht

/-- Every stored block and the transfers stored under its number are related by `P`. -/
def Batches (P : Block → List Transfer → Prop) (s : MemStore) : Prop :=
  ∀ b ∈ s.index, P b ((s.transfersOf b.number).map (·.transfer))

section Batches

variable {s : MemStore} {P Q : Block → List Transfer → Prop}

theorem Batches.imp (h : s.Batches P) (hPQ : ∀ b ts, P b ts → Q b ts) : s.Batches Q :=
  fun b hb ↦ hPQ _ _ (h b hb)

theorem Batches.confirmThrough (h : s.Batches P) (n : UInt64) : (s.confirmThrough n).Batches P := by
  intro b hb
  rw [transfersOf_confirmThrough, List.map_map]
  simpa [Function.comp_def] using h b hb

theorem Batches.deleteFrom (h : s.Batches P) (n : UInt64) :
    (s.deleteFrom n).Batches fun b ts ↦ b.number < n ∧ P b ts := by
  intro b hb
  rw [index_deleteFrom, List.mem_filter] at hb
  have hlt : b.number < n := of_decide_eq_true hb.2
  rw [s.transfersOf_deleteFrom hlt]
  exact ⟨hlt, h b hb.1⟩

theorem Batches.saveBlock (h : s.Batches P) (hf : s.Filed) {a : Block} (ha : a.number ∉ s.blocks)
    (ts : List Transfer) (f : Bool) : (s.saveBlock a ts f).Batches fun b us ↦
      b = a ∧ us = ts ∨ a.number ≠ b.number ∧ P b us := by
  intro b hb
  obtain rfl | hb := mem_index_saveBlock hb
  · rw [transfersOf_saveBlock_self, hf.transfersOf_eq_nil ha]
    simp [Function.comp_def]
  · have hne : a.number ≠ b.number := by
      intro he
      rw [he, Std.ExtTreeMap.mem_iff_isSome_getElem?, mem_index.mp hb] at ha
      simp at ha
    rw [s.transfersOf_saveBlock_ne hne]
    exact .inr ⟨hne, h b hb⟩

end Batches

end MemStore

end EventPlatform.ChainMonitor
