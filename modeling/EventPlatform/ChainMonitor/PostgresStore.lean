import EventPlatform.Relational.Table
import EventPlatform.ChainMonitor.MemStore

namespace EventPlatform.ChainMonitor

open Ethereum Relational

/-- A row of `blocks`. A `BIGINT` column holds an integer. -/
structure BlockRow where
  number : ℤ
  hash : String
  parentHash : String
  blockTime : ℤ
  deriving DecidableEq

/-- A row of `transfers`, without its serial number, which nothing reads. -/
structure TransferRow where
  blockNumber : ℤ
  token : String
  fromAddr : String
  toAddr : String
  value : ℕ
  txHash : String
  logIndex : ℤ
  confirmed : Bool
  deriving DecidableEq

/-- The columns of the `UNIQUE` constraint. -/
def TransferRow.origin (r : TransferRow) : String × ℤ := (r.txHash, r.logIndex)

/-- The two tables, with the keys and the reference that the schema declares. -/
structure PostgresStore where
  blocks : Table BlockRow.number
  transfers : Table TransferRow.origin
  references : ∀ r ∈ transfers.rows, blocks.Taken r.blockNumber

/-- A `BIGINT` parameter: the driver refuses what an `int64` cannot hold. -/
def bigint (n : UInt64) : Except Err ℤ :=
  if n.toNat < 2 ^ 63 then .ok n.toNat else .error (.failed "value is greater than maximum value for int64")

/-- Scanning a `BIGINT` column into a `uint64`. -/
def scanUint64 (z : ℤ) : Except Err UInt64 :=
  if 0 ≤ z then .ok (.ofNat z.toNat) else .error (.failed "value is less than zero for uint64")

def scanBlock (row : BlockRow) : Except Err Block := do
  let number ← scanUint64 row.number
  let time ← scanUint64 row.blockTime
  return { number, hash := hexToHash row.hash, parentHash := hexToHash row.parentHash, time }

namespace PostgresStore

/-- The tables that `schema` creates. -/
def newPostgresStore : PostgresStore := ⟨.empty, .empty, by simp [Table.empty]⟩

def upsertBlock (b : Block) (s : PostgresStore) : Except Err PostgresStore := do
  let number ← bigint b.number
  let blockTime ← bigint b.time
  return { s with
    blocks := s.blocks.upsert { number, hash := hashHex b.hash, parentHash := hashHex b.parentHash, blockTime }
    references r hr := (s.references r hr).upsert }

/-- The reference is checked only for a row that the conflict clause does not drop. -/
def insertTransfer [GoEthereum] (number : UInt64) (t : Transfer) (confirmed : Bool) (s : PostgresStore) :
    Except Err PostgresStore := do
  let blockNumber ← bigint number
  let logIndex ← bigint t.logIndex
  let row : TransferRow :=
    { blockNumber
      token := GoEthereum.addressHex t.token
      fromAddr := GoEthereum.addressHex t.fromAddr
      toAddr := GoEthereum.addressHex t.toAddr
      value := t.value
      txHash := hashHex t.txHash
      logIndex
      confirmed }
  if h : s.transfers.Taken row.origin ∨ s.blocks.Taken blockNumber then
    return { s with
      transfers := s.transfers.insertOrIgnore row
      references := fun r hr ↦ by
        unfold Table.insertOrIgnore at hr
        split at hr
        · exact s.references r hr
        · rename_i hnew
          obtain hr | hr := List.mem_append.mp hr
          · exact s.references r hr
          · rw [List.mem_singleton.mp hr]
            exact h.resolve_left hnew }
  else
    .error (.failed "violates foreign key constraint")

def insertTransfers [GoEthereum] (number : UInt64) (confirmed : Bool) :
    List Transfer → PostgresStore → Except Err PostgresStore
  | [], s => .ok s
  | t :: ts, s => do
    let s ← (s.insertTransfer number t confirmed).mapError (.wrap "insert transfer")
    insertTransfers number confirmed ts s

/-- The statements run in one transaction, which a failure rolls back. -/
def saveBlock [GoEthereum] (b : Block) (transfers : List Transfer) (confirmed : Bool) (s : PostgresStore) :
    Except Err PostgresStore := do
  let s ← (s.upsertBlock b).mapError (.wrap "upsert block")
  s.insertTransfers b.number confirmed transfers

/-- `ORDER BY number DESC LIMIT 1`. -/
def lastBlock (s : PostgresStore) : Except Err (Option Block) :=
  match (s.blocks.rows.insertionSort fun a b ↦ a.number ≥ b.number).head? with
  | none => .ok none
  | some row => (scanBlock row).map some

def blockByNumber (number : UInt64) (s : PostgresStore) : Except Err (Option Block) := do
  let z ← bigint number
  match (s.blocks.select fun row ↦ row.number = z).head? with
  | none => .ok none
  | some row => (scanBlock row).map some

/-- The deleted blocks take the transfers that refer to them along. -/
def deleteFrom (number : UInt64) (s : PostgresStore) : Except Err PostgresStore := do
  let z ← bigint number
  let gone := s.blocks.select fun row ↦ row.number ≥ z
  return {
    blocks := s.blocks.delete fun row ↦ row.number ≥ z
    transfers := s.transfers.delete fun r ↦ gone.any fun row ↦ row.number = r.blockNumber
    references := fun r hr ↦ by
      obtain ⟨hr, hkeep⟩ := List.mem_filter.mp hr
      obtain ⟨row, hrow, hn⟩ := List.mem_map.mp (s.references r hr)
      refine List.mem_map.mpr ⟨row, List.mem_filter.mpr ⟨hrow, ?_⟩, hn⟩
      simp only [gone, Table.select, Bool.not_eq_true', List.any_eq_false, List.mem_filter, decide_eq_true_eq] at hkeep
      by_contra hz
      exact hkeep row ⟨hrow, by simpa using hz⟩ hn }

def confirmThrough (number : UInt64) (s : PostgresStore) : Except Err PostgresStore := do
  let z ← bigint number
  return { s with
    transfers := s.transfers.update (fun r ↦ r.blockNumber ≤ z && !r.confirmed) ({ · with confirmed := true })
      fun _ ↦ rfl
    references := fun r hr ↦ by
      obtain ⟨x, hx, rfl⟩ := List.mem_map.mp hr
      split <;> exact s.references x hx }

def store [GoEthereum] : Store PostgresStore where
  saveBlock := saveBlock
  lastBlock := lastBlock
  blockByNumber := blockByNumber
  deleteFrom := deleteFrom
  confirmThrough := confirmThrough

end PostgresStore

theorem bigint_eq {n : UInt64} (h : n.toNat < 2 ^ 63) : bigint n = .ok (n.toNat : ℤ) := if_pos h

theorem PostgresStore.blockByNumber_eq {s : PostgresStore} {n : UInt64} (h : n.toNat < 2 ^ 63) :
    s.blockByNumber n = match (s.blocks.select fun row ↦ row.number = (n.toNat : ℤ)).head? with
      | none => .ok none
      | some row => (scanBlock row).map some := by
  rw [blockByNumber, bigint_eq h]
  rfl

theorem scanUint64_toNat (n : UInt64) : scanUint64 n.toNat = .ok n := by
  simp [scanUint64]

/-- The row that holds a block. -/
def BlockRow.of (b : Block) : BlockRow := ⟨b.number.toNat, hashHex b.hash, hashHex b.parentHash, b.time.toNat⟩

/-- The row that holds a transfer. -/
def TransferRow.of [GoEthereum] (t : StoredTransfer) : TransferRow where
  blockNumber := t.block.toNat
  token := GoEthereum.addressHex t.transfer.token
  fromAddr := GoEthereum.addressHex t.transfer.fromAddr
  toAddr := GoEthereum.addressHex t.transfer.toAddr
  value := t.transfer.value
  txHash := hashHex t.transfer.txHash
  logIndex := t.transfer.logIndex.toNat
  confirmed := t.confirmed

theorem TransferRow.origin_of [GoEthereum] (t u : StoredTransfer) :
    (TransferRow.of t).origin = (TransferRow.of u).origin ↔ t.transfer.origin = u.transfer.origin := by
  simp [TransferRow.origin, TransferRow.of, Transfer.origin, hashHex_injective.eq_iff, UInt64.toNat_inj]

theorem scanBlock_of (b : Block) : scanBlock (.of b) = .ok b := by
  simp [scanBlock, BlockRow.of, scanUint64_toNat, hexToHash_hashHex]
  rfl

/-- Both stores hold the same blocks and the same transfers. -/
structure Holds [GoEthereum] (m : MemStore) (s : PostgresStore) : Prop where
  blocks : s.blocks.rows.Perm (m.index.map .of)
  transfers : s.transfers.rows.Perm (m.transfers.map .of)

namespace Holds

variable [GoEthereum] {m : MemStore} {s : PostgresStore}

theorem empty : Holds .newMemStore .newPostgresStore := ⟨.refl _, .refl _⟩

theorem lastBlock (h : Holds m s) : s.lastBlock = .ok m.lastBlock := by
  have hsort : (s.blocks.rows.insertionSort fun a b ↦ a.number ≥ b.number) = m.index.map .of := by
    refine ((List.perm_insertionSort _ _).trans h.blocks).eq_of_pairwise ?_ (List.pairwise_insertionSort _ _) ?_
    · intro a b ha hb hab hba
      exact List.inj_on_of_nodup_map s.blocks.unique ((List.mem_insertionSort _).mp ha) (h.blocks.mem_iff.mpr hb)
        (le_antisymm hba hab)
    · rw [List.pairwise_map]
      exact m.index_desc.imp fun hlt ↦ Int.ofNat_le.mpr hlt.le
  rw [PostgresStore.lastBlock, hsort, MemStore.lastBlock_eq]
  cases m.index with
  | nil => rfl
  | cons b l => simp [scanBlock_of, Except.map]

theorem taken_iff (h : Holds m s) {n : UInt64} : s.blocks.Taken (n.toNat : ℤ) ↔ n ∈ m.blocks := by
  rw [Table.Taken, (h.blocks.map _).mem_iff, MemStore.mem_blocks]
  simp [BlockRow.of, UInt64.toNat_inj]

theorem blockByNumber (h : Holds m s) {n : UInt64} (hn : n.toNat < 2 ^ 63) :
    s.blockByNumber n = .ok (m.blockByNumber n) := by
  rw [PostgresStore.blockByNumber_eq hn]
  cases hb : m.blockByNumber n with
  | none =>
    have hfree : ¬ s.blocks.Taken (n.toNat : ℤ) := by
      rw [h.taken_iff, Std.ExtTreeMap.mem_iff_isSome_getElem?]
      simpa [MemStore.blockByNumber] using hb
    rw [Table.select_key_eq_nil hfree]
    rfl
  | some b =>
    obtain ⟨hm, rfl⟩ := MemStore.getElem?_eq_some.mp hb
    have hrow : BlockRow.of b ∈ s.blocks.rows := h.blocks.mem_iff.mpr (List.mem_map_of_mem hm)
    have hsel : (s.blocks.select fun row ↦ row.number = (b.number.toNat : ℤ)) = [.of b] := Table.select_key hrow
    rw [hsel]
    simp [scanBlock_of, Except.map]

theorem deleteFrom (h : Holds m s) {n : UInt64} (hn : n.toNat < 2 ^ 63) :
    ∃ s', s.deleteFrom n = .ok s' ∧ Holds (m.deleteFrom n) s' := by
  simp only [PostgresStore.deleteFrom, bigint_eq hn]
  refine ⟨_, rfl, ?_, ?_⟩
  · refine (h.blocks.filter _).trans (.of_eq ?_)
    rw [List.filter_map, MemStore.index_deleteFrom]
    congr 1
    refine List.filter_congr fun b _ ↦ ?_
    rw [Bool.eq_iff_iff]
    simp [BlockRow.of, UInt64.lt_iff_toNat_lt]
  · have hcascade : ∀ r ∈ s.transfers.rows, (!(s.blocks.select fun row ↦ row.number ≥ (n.toNat : ℤ)).any
        fun row ↦ row.number = r.blockNumber) = decide (r.blockNumber < (n.toNat : ℤ)) := by
      intro r hr
      obtain ⟨row, hrow, hrn⟩ := List.mem_map.mp (s.references r hr)
      rw [Bool.eq_iff_iff]
      simp only [Table.select, Bool.not_eq_true', List.any_eq_false, List.mem_filter, decide_eq_true_eq]
      constructor
      · intro hkeep
        by_contra hlt
        exact hkeep row ⟨hrow, by omega⟩ hrn
      · rintro hlt row' ⟨-, hge⟩ hn'
        omega
    change (s.transfers.rows.filter _).Perm _
    rw [List.filter_congr hcascade]
    refine (h.transfers.filter _).trans (.of_eq ?_)
    rw [List.filter_map]
    simp only [MemStore.deleteFrom]
    congr 1
    refine List.filter_congr fun t _ ↦ ?_
    simp [TransferRow.of, UInt64.lt_iff_toNat_lt]

theorem confirmThrough (h : Holds m s) {n : UInt64} (hn : n.toNat < 2 ^ 63) :
    ∃ s', s.confirmThrough n = .ok s' ∧ Holds (m.confirmThrough n) s' := by
  simp only [PostgresStore.confirmThrough, bigint_eq hn]
  refine ⟨_, rfl, h.blocks, ?_⟩
  refine (h.transfers.map _).trans (.of_eq ?_)
  simp only [MemStore.confirmThrough, List.map_map]
  refine List.map_congr_left fun t _ ↦ ?_
  by_cases hle : t.block ≤ n
  · have hle' : (t.block.toNat : ℤ) ≤ n.toNat := Int.ofNat_le.mpr (UInt64.le_iff_toNat_le.mp hle)
    cases hc : t.confirmed <;> simp [TransferRow.of, StoredTransfer.confirmTo, hle, hle', hc]
  · have hle' : ¬ (t.block.toNat : ℤ) ≤ n.toNat := fun h ↦ hle (UInt64.le_iff_toNat_le.mpr (Int.ofNat_le.mp h))
    simp [TransferRow.of, StoredTransfer.confirmTo, hle, hle']

end Holds

section Save

variable [GoEthereum] {m : MemStore} {s : PostgresStore} {n : UInt64} {f : Bool}

theorem PostgresStore.insertTransfer_new {t : Transfer} (hn : n.toNat < 2 ^ 63) (ht : t.logIndex.toNat < 2 ^ 63)
    (hb : s.blocks.Taken (n.toNat : ℤ)) (hnew : ¬ s.transfers.Taken (TransferRow.of ⟨n, t, f⟩).origin) :
    ∃ s', s.insertTransfer n t f = .ok s' ∧ s'.blocks = s.blocks ∧
      s'.transfers.rows = s.transfers.rows ++ [.of ⟨n, t, f⟩] := by
  rw [insertTransfer, bigint_eq hn, bigint_eq ht]
  exact ⟨_, dif_pos (.inr hb), rfl, Table.insertOrIgnore_rows hnew⟩

/-- A batch of new origins is added whole. -/
theorem PostgresStore.insertTransfers_new (hn : n.toNat < 2 ^ 63) (ts : List Transfer)
    (hts : ∀ t ∈ ts, t.logIndex.toNat < 2 ^ 63) (s : PostgresStore) (hb : s.blocks.Taken (n.toNat : ℤ))
    (hnew : ((s.transfers.rows ++ ts.map (TransferRow.of ⟨n, ·, f⟩)).map TransferRow.origin).Nodup) :
    ∃ s', s.insertTransfers n f ts = .ok s' ∧ s'.blocks = s.blocks ∧
      s'.transfers.rows = s.transfers.rows ++ ts.map (TransferRow.of ⟨n, ·, f⟩) := by
  induction ts generalizing s with
  | nil => exact ⟨s, rfl, rfl, by simp⟩
  | cons t ts ih =>
    rw [List.forall_mem_cons] at hts
    rw [List.map_cons, List.append_cons] at hnew
    have hfree : ¬ s.transfers.Taken (TransferRow.of ⟨n, t, f⟩).origin := by
      have hpre := hnew.sublist ((List.sublist_append_left _ _).map _)
      rw [List.map_append, List.map_singleton, List.nodup_append] at hpre
      exact fun h ↦ hpre.2.2 _ h _ List.mem_cons_self rfl
    obtain ⟨s₁, e₁, b₁, t₁⟩ := insertTransfer_new hn hts.1 hb hfree
    obtain ⟨s₂, e₂, b₂, t₂⟩ := ih hts.2 s₁ (b₁ ▸ hb) (t₁ ▸ hnew)
    refine ⟨s₂, ?_, b₂.trans b₁, by simp [t₂, t₁]⟩
    rw [insertTransfers, e₁]
    exact e₂

/-- A block whose number is free, with transfers of new origins, is saved alike by both stores. -/
theorem Holds.saveBlock (h : Holds m s) {b : Block} (hb : b.number.toNat < 2 ^ 63) (ht : b.time.toNat < 2 ^ 63)
    (hfree : ¬ s.blocks.Taken (b.number.toNat : ℤ)) {ts : List Transfer} (hts : ∀ t ∈ ts, t.logIndex.toNat < 2 ^ 63)
    (hnew : ((s.transfers.rows ++ ts.map (TransferRow.of ⟨b.number, ·, f⟩)).map TransferRow.origin).Nodup) :
    ∃ s', s.saveBlock b ts f = .ok s' ∧ Holds (m.saveBlock b ts f) s' := by
  have hup : ∃ s₁, s.upsertBlock b = .ok s₁ ∧ s₁.blocks.rows = s.blocks.rows ++ [.of b] ∧
      s₁.transfers = s.transfers := by
    rw [PostgresStore.upsertBlock, bigint_eq hb, bigint_eq ht]
    exact ⟨_, rfl, Table.upsert_rows hfree, rfl⟩
  obtain ⟨s₁, e₁, b₁, t₁⟩ := hup
  have hin : s₁.blocks.Taken (b.number.toNat : ℤ) := by
    rw [Table.Taken, b₁]
    simp [BlockRow.of]
  obtain ⟨s₂, e₂, b₂, t₂⟩ := PostgresStore.insertTransfers_new hb ts hts s₁ hin (t₁.symm ▸ hnew)
  refine ⟨s₂, ?_, ?_, ?_⟩
  · rw [PostgresStore.saveBlock, e₁]
    exact e₂
  · have hindex : (m.saveBlock b ts f).index.Perm (b :: m.index) :=
      MemStore.index_saveBlock_perm (h.taken_iff.not.mp hfree) ts f
    rw [b₂, b₁]
    exact (List.perm_append_singleton _ _).trans ((h.blocks.cons _).trans (hindex.map _).symm)
  · rw [t₂, t₁, MemStore.saveBlock, List.map_append, List.map_map]
    exact h.transfers.append_right _

end Save

end EventPlatform.ChainMonitor
