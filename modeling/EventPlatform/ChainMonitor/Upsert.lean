import EventPlatform.ChainMonitor.PostgresStore

namespace EventPlatform.ChainMonitor

open Ethereum Relational

/-- The states that calls on a store lead to. -/
inductive Reachable {S : Type} (st : Store S) (s₀ : S) : S → Prop
  | init : Reachable st s₀ s₀
  | saveBlock {s s' : S} (b : Block) (ts : List Transfer) (f : Bool) :
      Reachable st s₀ s → st.saveBlock b ts f s = .ok s' → Reachable st s₀ s'
  | deleteFrom {s s' : S} (n : UInt64) : Reachable st s₀ s → st.deleteFrom n s = .ok s' → Reachable st s₀ s'
  | confirmThrough {s s' : S} (n : UInt64) : Reachable st s₀ s → st.confirmThrough n s = .ok s' → Reachable st s₀ s'

/-- A store together with the records in which it keeps transfers. -/
structure Books (S R O : Type) where
  store : Store S
  records : S → List R
  record : StoredTransfer → R
  under : UInt64 → R → Bool
  origin : R → O

namespace Books

variable {S R O : Type} (k : Books S R O)

def transfersOf (s : S) (n : UInt64) : List R := (k.records s).filter (k.under n)

/-- No transfer of the batch is stored under another number. -/
def Apart (s : S) (b : Block) (ts : List Transfer) : Prop :=
  ∀ r ∈ k.records s, k.under b.number r = false → ∀ t ∈ ts, ∀ f, k.origin r ≠ k.origin (k.record ⟨b.number, t, f⟩)

/-- A save that replaces what is stored under its number and touches nothing else. -/
structure Saves (s : S) (b : Block) (ts : List Transfer) (f : Bool) (s' : S) : Prop where
  saved : k.store.saveBlock b ts f s = .ok s'
  block : k.store.blockByNumber b.number s' = .ok (some b)
  transfers : (k.transfersOf s' b.number).Perm (ts.map fun t ↦ k.record ⟨b.number, t, f⟩)
  others : ∀ n ≠ b.number,
    k.store.blockByNumber n s' = k.store.blockByNumber n s ∧ k.transfersOf s' n = k.transfersOf s n

/-- The same save made again changes nothing. -/
def Upserts (s : S) (b : Block) (ts : List Transfer) (f : Bool) : Prop :=
  ∃ s', k.Saves s b ts f s' ∧ k.store.saveBlock b ts f s' = .ok s'

end Books

section Mem

def MemStore.books : Books MemStore StoredTransfer (Hash × UInt64) where
  store := MemStore.store
  records := MemStore.transfers
  record := id
  under n t := t.block = n
  origin t := t.transfer.origin

variable {s : MemStore} {b : Block} {ts : List Transfer} {f : Bool}

theorem MemStore.blockByNumber_saveBlock_self : (s.saveBlock b ts f).blockByNumber b.number = some b := by
  rw [blockByNumber, saveBlock, Std.ExtTreeMap.getElem?_insert_self]

theorem MemStore.blockByNumber_saveBlock_ne {n : UInt64} (h : n ≠ b.number) :
    (s.saveBlock b ts f).blockByNumber n = s.blockByNumber n := by
  rw [blockByNumber, saveBlock, Std.ExtTreeMap.getElem?_insert, if_neg (by simpa using h.symm)]
  rfl

theorem MemStore.saveBlock_saveBlock_iff : (s.saveBlock b ts f).saveBlock b ts f = s.saveBlock b ts f ↔ ts = [] := by
  constructor
  · intro h
    have hrows : (s.saveBlock b ts f).transfers ++ _ = (s.saveBlock b ts f).transfers := congrArg MemStore.transfers h
    simpa using hrows
  · intro h
    subst h
    apply MemStore.ext
    · apply Std.ExtTreeMap.ext_getElem?
      intro n
      simp only [saveBlock, Std.ExtTreeMap.getElem?_insert]
      split <;> rfl
    · simp [saveBlock]

theorem MemStore.saves_iff {s' : MemStore} :
    MemStore.books.Saves s b ts f s' ↔ s' = s.saveBlock b ts f ∧ s.transfersOf b.number = [] := by
  have hstored : MemStore.books.transfersOf (s.saveBlock b ts f) b.number =
      s.transfersOf b.number ++ ts.map (⟨b.number, ·, f⟩) := s.transfersOf_saveBlock_self b ts f
  constructor
  · intro h
    obtain rfl : s.saveBlock b ts f = s' := Except.ok.inj h.saved
    have hlength := h.transfers.length_eq
    rw [hstored, List.length_append, List.length_map, List.length_map] at hlength
    exact ⟨rfl, List.length_eq_zero_iff.mp (by omega)⟩
  · rintro ⟨rfl, hnone⟩
    refine ⟨rfl, congrArg Except.ok blockByNumber_saveBlock_self, ?_, ?_⟩
    · rw [hstored, hnone]
      exact .refl _
    · intro n hn
      exact ⟨congrArg Except.ok (blockByNumber_saveBlock_ne hn), s.transfersOf_saveBlock_ne hn.symm ts f⟩

end Mem

section Postgres

variable [GoEthereum]

def PostgresStore.books : Books PostgresStore TransferRow (String × ℤ) where
  store := PostgresStore.store
  records s := s.transfers.rows
  record := .of
  under n r := r.blockNumber = n.toNat
  origin := TransferRow.origin

/-- The numbers of a batch fit into their columns. -/
def Fits (b : Block) (ts : List Transfer) : Prop :=
  b.number.toNat < 2 ^ 63 ∧ b.time.toNat < 2 ^ 63 ∧ ∀ t ∈ ts, t.logIndex.toNat < 2 ^ 63

variable {s s' : PostgresStore} {b : Block} {n : UInt64} {t t' : Transfer} {ts : List Transfer} {f : Bool}

omit [GoEthereum] in
theorem bigint_eq_error (h : ¬ n.toNat < 2 ^ 63) : ∃ e, bigint n = .error e := ⟨_, if_neg h⟩

namespace PostgresStore

omit [GoEthereum] in
theorem ext {s s' : PostgresStore} (hb : s.blocks = s'.blocks) (ht : s.transfers = s'.transfers) : s = s' := by
  cases s
  cases s'
  cases hb
  cases ht
  rfl

omit [GoEthereum] in
theorem upsertBlock_fits (hn : b.number.toNat < 2 ^ 63) (ht : b.time.toNat < 2 ^ 63) : ∃ s', s.upsertBlock b = .ok s' ∧
    s'.blocks = s.blocks.upsert (.of b) ∧ s'.transfers = s.transfers := by
  rw [upsertBlock, bigint_eq hn, bigint_eq ht]
  exact ⟨_, rfl, rfl, rfl⟩

theorem fits_of_insertTransfer (h : s.insertTransfer n t f = .ok s') : t.logIndex.toNat < 2 ^ 63 := by
  by_contra hbig
  obtain ⟨e, he⟩ := bigint_eq_error hbig
  rw [insertTransfer, he] at h
  cases hn : bigint n <;> simp [hn, bind, Except.bind] at h

theorem fits_of_insertTransfers (h : s.insertTransfers n f ts = .ok s') : ∀ t ∈ ts, t.logIndex.toNat < 2 ^ 63 := by
  induction ts generalizing s with
  | nil => simp
  | cons t ts ih =>
    rw [insertTransfers] at h
    cases hs : s.insertTransfer n t f with
    | error e => simp [hs, Except.mapError, bind, Except.bind] at h
    | ok s₁ =>
      rw [hs] at h
      exact List.forall_mem_cons.mpr ⟨fits_of_insertTransfer hs, ih h⟩

theorem fits_of_saveBlock (h : s.saveBlock b ts f = .ok s') : Fits b ts := by
  rw [saveBlock] at h
  cases hs : s.upsertBlock b with
  | error e => simp [hs, Except.mapError, bind, Except.bind] at h
  | ok s₁ =>
    rw [hs] at h
    refine ⟨?_, ?_, fits_of_insertTransfers h⟩
    · by_contra hbig
      obtain ⟨e, he⟩ := bigint_eq_error hbig
      simp [upsertBlock, he, bind, Except.bind] at hs
    · by_contra hbig
      obtain ⟨e, he⟩ := bigint_eq_error hbig
      cases hn : bigint b.number <;> simp [upsertBlock, he, hn, bind, Except.bind] at hs

/-- An origin that is taken keeps the row that it has. -/
theorem insertTransfer_taken (hn : n.toNat < 2 ^ 63) (ht : t.logIndex.toNat < 2 ^ 63)
    (h : s.transfers.Taken (TransferRow.of ⟨n, t, f⟩).origin) : s.insertTransfer n t f = .ok s := by
  rw [insertTransfer, bigint_eq hn, bigint_eq ht]
  refine (dif_pos (.inl h)).trans (congrArg Except.ok ?_)
  exact ext rfl (Table.insertOrIgnore_of_taken h)

/-- The transfers of a batch whose origin is free, as rows. -/
def added (s : PostgresStore) (n : UInt64) (f : Bool) (ts : List Transfer) : List TransferRow :=
  (ts.map (TransferRow.of ⟨n, ·, f⟩)).filter fun r ↦ ¬ s.transfers.Taken r.origin

theorem insertTransfers_rows (hn : n.toNat < 2 ^ 63) (hts : ∀ t ∈ ts, t.logIndex.toNat < 2 ^ 63)
    (hd : (ts.map Transfer.origin).Nodup) (hb : s.blocks.Taken (n.toNat : ℤ)) :
    ∃ s', s.insertTransfers n f ts = .ok s' ∧ s'.blocks = s.blocks ∧
      s'.transfers.rows = s.transfers.rows ++ s.added n f ts := by
  induction ts generalizing s with
  | nil => exact ⟨s, rfl, rfl, (List.append_nil _).symm⟩
  | cons t ts ih =>
    rw [List.forall_mem_cons] at hts
    rw [List.map_cons, List.nodup_cons] at hd
    rw [insertTransfers]
    by_cases htaken : s.transfers.Taken (TransferRow.of ⟨n, t, f⟩).origin
    · have hadded : s.added n f (t :: ts) = s.added n f ts := by
        simp [added, htaken]
      rw [insertTransfer_taken hn hts.1 htaken, hadded]
      exact ih hts.2 hd.2 hb
    · obtain ⟨s₁, e₁, b₁, t₁⟩ := insertTransfer_new hn hts.1 hb htaken
      obtain ⟨s₂, e₂, b₂, t₂⟩ := ih hts.2 hd.2 (b₁ ▸ hb)
      have hadded : s.added n f (t :: ts) = TransferRow.of ⟨n, t, f⟩ :: s₁.added n f ts := by
        have htail : s₁.added n f ts = s.added n f ts := by
          apply List.filter_congr
          intro r hr
          obtain ⟨u, hu, rfl⟩ := List.mem_map.mp hr
          have hne : (TransferRow.of ⟨n, u, f⟩).origin ≠ (TransferRow.of ⟨n, t, f⟩).origin := by
            rw [ne_eq, TransferRow.origin_of]
            exact fun he ↦ hd.1 (he ▸ List.mem_map_of_mem hu)
          simp [Table.Taken, t₁, hne]
        rw [htail]
        simp [added, htaken]
      rw [e₁]
      refine ⟨s₂, e₂, b₂.trans b₁, ?_⟩
      rw [t₂, t₁, hadded, List.append_assoc]
      rfl

/-- What a save leaves in the two tables. -/
theorem saveBlock_rows (hf : Fits b ts) (hd : (ts.map Transfer.origin).Nodup) : ∃ s', s.saveBlock b ts f = .ok s' ∧
    s'.blocks = s.blocks.upsert (.of b) ∧ s'.transfers.rows = s.transfers.rows ++ s.added b.number f ts := by
  obtain ⟨hn, ht, hts⟩ := hf
  obtain ⟨s₁, e₁, b₁, t₁⟩ := upsertBlock_fits (s := s) hn ht
  have htaken : s₁.blocks.Taken (b.number.toNat : ℤ) := by
    rw [b₁]
    exact List.mem_map_of_mem (f := BlockRow.number) Table.mem_upsert_self
  obtain ⟨s₂, e₂, b₂, t₂⟩ := insertTransfers_rows (f := f) hn hts hd htaken
  refine ⟨s₂, ?_, b₂.trans b₁, ?_⟩
  · rw [saveBlock, e₁]
    exact e₂
  · have hadded : s₁.added b.number f ts = s.added b.number f ts := by rw [added, t₁, added]
    rw [t₂, t₁, hadded]

theorem under_added {r : TransferRow} (hr : r ∈ s.added n f ts) : r.blockNumber = n.toNat := by
  obtain ⟨t, -, rfl⟩ := List.mem_map.mp (List.mem_of_mem_filter hr)
  rfl

theorem transfersOf_self (hrows : s'.transfers.rows = s.transfers.rows ++ s.added n f ts) :
    PostgresStore.books.transfersOf s' n = PostgresStore.books.transfersOf s n ++ s.added n f ts := by
  have hall : (s.added n f ts).filter (PostgresStore.books.under n) = s.added n f ts :=
    List.filter_eq_self.mpr fun r hr ↦ decide_eq_true (under_added hr)
  rw [Books.transfersOf, show PostgresStore.books.records s' = _ from hrows, List.filter_append, hall]
  rfl

theorem transfersOf_of_ne {m : UInt64} (hm : m ≠ n)
    (hrows : s'.transfers.rows = s.transfers.rows ++ s.added n f ts) :
    PostgresStore.books.transfersOf s' m = PostgresStore.books.transfersOf s m := by
  have hnone : (s.added n f ts).filter (PostgresStore.books.under m) = [] := by
    apply List.filter_eq_nil_iff.mpr
    intro r hr
    simpa [PostgresStore.books, under_added hr, UInt64.toNat_inj] using hm.symm
  rw [Books.transfersOf, show PostgresStore.books.records s' = _ from hrows, List.filter_append, hnone, List.append_nil]
  rfl

/-- The rows that a batch leaves under its number are the batch when the rows already there belong to it. -/
theorem added_perm_iff (hd : (ts.map Transfer.origin).Nodup) (hapart : PostgresStore.books.Apart s b ts) :
    (PostgresStore.books.transfersOf s b.number ++ s.added b.number f ts).Perm
      (ts.map fun t ↦ TransferRow.of ⟨b.number, t, f⟩) ↔
    ∀ r ∈ PostgresStore.books.transfersOf s b.number, ∃ t ∈ ts, r = .of ⟨b.number, t, f⟩ := by
  constructor
  · intro hperm r hr
    obtain ⟨t, ht, rfl⟩ := List.mem_map.mp (hperm.mem_iff.mp (List.mem_append_left _ hr))
    exact ⟨t, ht, rfl⟩
  · intro hold
    have hbatch : (ts.map fun t ↦ TransferRow.of ⟨b.number, t, f⟩).Nodup := by
      apply List.Nodup.of_map TransferRow.origin
      rw [List.map_map]
      refine (List.pairwise_map.mp hd).map _ ?_
      intro t u hne
      exact mt (TransferRow.origin_of _ _).mp hne
    have hkept : (PostgresStore.books.transfersOf s b.number ++ s.added b.number f ts).Nodup := by
      rw [List.nodup_append]
      refine ⟨(List.Nodup.of_map _ s.transfers.unique).filter _, hbatch.filter _, ?_⟩
      rintro r hr _ hr' rfl
      have hfree := of_decide_eq_true (List.mem_filter.mp hr').2
      exact hfree (List.mem_map_of_mem (List.mem_of_mem_filter hr))
    rw [List.perm_ext_iff_of_nodup hkept hbatch]
    intro r
    rw [List.mem_append]
    constructor
    · rintro (hr | hr)
      · obtain ⟨t, ht, rfl⟩ := hold r hr
        exact List.mem_map_of_mem ht
      · exact List.mem_of_mem_filter hr
    · intro hr
      by_cases htaken : s.transfers.Taken r.origin
      · -- the row that has the origin is stored under this number, so it is one of the batch
        left
        obtain ⟨t, ht, rfl⟩ := List.mem_map.mp hr
        obtain ⟨x, hx, hxo⟩ := List.mem_map.mp htaken
        have hunder : PostgresStore.books.under b.number x = true := by
          by_contra hno
          exact hapart x hx (by simpa using hno) t ht f hxo
        have hxs : x ∈ PostgresStore.books.transfersOf s b.number := List.mem_filter.mpr ⟨hx, hunder⟩
        obtain ⟨u, hu, rfl⟩ := hold x hxs
        obtain rfl := List.inj_on_of_nodup_map hd hu ht ((TransferRow.origin_of _ _).mp hxo)
        exact hxs
      · exact .inr (List.mem_filter.mpr ⟨hr, decide_eq_true htaken⟩)

omit [GoEthereum] in
theorem blockByNumber_self (hn : b.number.toNat < 2 ^ 63) (hb : s'.blocks = s.blocks.upsert (.of b)) :
    s'.blockByNumber b.number = .ok (some b) := by
  have hmem : BlockRow.of b ∈ s'.blocks.rows := hb ▸ Table.mem_upsert_self
  have hsel : (s'.blocks.select fun row ↦ row.number = (b.number.toNat : ℤ)) = [.of b] := Table.select_key hmem
  rw [blockByNumber_eq hn, hsel]
  simp [scanBlock_of, Except.map]

omit [GoEthereum] in
theorem blockByNumber_of_ne (hn : n ≠ b.number) (hb : s'.blocks = s.blocks.upsert (.of b)) :
    s'.blockByNumber n = s.blockByNumber n := by
  have hsel : (s'.blocks.select fun row ↦ row.number = (n.toNat : ℤ)) =
      s.blocks.select fun row ↦ row.number = (n.toNat : ℤ) := by
    rw [hb]
    apply Table.select_upsert_of_ne
    simpa [BlockRow.of, UInt64.toNat_inj] using hn
  unfold blockByNumber bigint
  split
  · simp only [bind, Except.bind, hsel]
  · rfl

/-- A batch that has been saved has no free origin left. -/
theorem saveBlock_again (hf : Fits b ts) (hd : (ts.map Transfer.origin).Nodup)
    (hb : s'.blocks = s.blocks.upsert (.of b)) (ht : s'.transfers.rows = s.transfers.rows ++ s.added b.number f ts) :
    s'.saveBlock b ts f = .ok s' := by
  obtain ⟨s₂, e₂, b₂, t₂⟩ := saveBlock_rows (s := s') (f := f) hf hd
  have hnone : s'.added b.number f ts = [] := by
    apply List.filter_eq_nil_iff.mpr
    intro r hr
    have htaken : s'.transfers.Taken r.origin := by
      rw [Table.Taken, ht, List.map_append, List.mem_append]
      by_cases hold : s.transfers.Taken r.origin
      · exact .inl hold
      · exact .inr (List.mem_map_of_mem (List.mem_filter.mpr ⟨hr, decide_eq_true hold⟩))
    simpa using htaken
  rw [e₂]
  congr 1
  apply ext
  · rw [b₂, hb]
    exact Table.upsert_of_mem Table.mem_upsert_self
  · apply Table.ext
    rw [t₂, hnone, List.append_nil]

theorem saves_iff (hd : (ts.map Transfer.origin).Nodup) (hapart : PostgresStore.books.Apart s b ts) :
    PostgresStore.books.Saves s b ts f s' ↔ s.saveBlock b ts f = .ok s' ∧
      ∀ r ∈ PostgresStore.books.transfersOf s b.number, ∃ t ∈ ts, r = .of ⟨b.number, t, f⟩ := by
  rw [← added_perm_iff hd hapart]
  constructor
  · intro h
    obtain ⟨s₁, e₁, -, t₁⟩ := saveBlock_rows (s := s) (f := f) (fits_of_saveBlock h.saved) hd
    obtain rfl : s₁ = s' := Except.ok.inj (e₁.symm.trans h.saved)
    refine ⟨h.saved, ?_⟩
    rw [← transfersOf_self t₁]
    exact h.transfers
  · rintro ⟨hs', hperm⟩
    have hf := fits_of_saveBlock hs'
    obtain ⟨s₁, e₁, b₁, t₁⟩ := saveBlock_rows (s := s) (f := f) hf hd
    obtain rfl : s₁ = s' := Except.ok.inj (e₁.symm.trans hs')
    refine ⟨hs', blockByNumber_self hf.1 b₁, ?_, ?_⟩
    · rw [transfersOf_self t₁]
      exact hperm
    · intro n hn
      exact ⟨blockByNumber_of_ne hn b₁, transfersOf_of_ne hn t₁⟩

end PostgresStore

/-- A save replaces what was stored under its number in memory when nothing was, and in the tables when its numbers fit
and every row there is one that it would write. In memory it can be repeated only without transfers. -/
theorem saveBlock_upserts_iff (b : Block) (ts : List Transfer) (f : Bool) (hd : (ts.map Transfer.origin).Nodup) :
    (∀ s : MemStore, ((∃ s', MemStore.books.Saves s b ts f s') ↔ s.transfersOf b.number = []) ∧
      (MemStore.books.Upserts s b ts f ↔ s.transfersOf b.number = [] ∧ ts = [])) ∧
    ∀ s : PostgresStore, PostgresStore.books.Apart s b ts →
      (PostgresStore.books.Upserts s b ts f ↔ Fits b ts ∧
        ∀ r ∈ PostgresStore.books.transfersOf s b.number, ∃ t ∈ ts, r = .of ⟨b.number, t, f⟩) := by
  refine ⟨fun s ↦ ⟨?_, ?_⟩, fun s hapart ↦ ?_⟩
  · simp only [MemStore.saves_iff, exists_eq_left]
  · simp only [Books.Upserts, MemStore.saves_iff, and_assoc, exists_eq_left]
    apply and_congr_right
    intro _
    rw [← MemStore.saveBlock_saveBlock_iff (s := s) (b := b) (f := f)]
    exact ⟨Except.ok.inj, congrArg Except.ok⟩
  · simp only [Books.Upserts, PostgresStore.saves_iff hd hapart]
    constructor
    · rintro ⟨s', ⟨hs', hold⟩, -⟩
      exact ⟨PostgresStore.fits_of_saveBlock hs', hold⟩
    · rintro ⟨hf, hold⟩
      obtain ⟨s', hs', hb, ht⟩ := PostgresStore.saveBlock_rows (s := s) (f := f) hf hd
      exact ⟨s', ⟨hs', hold⟩, PostgresStore.saveBlock_again hf hd hb ht⟩

end Postgres

def firstBlock : Block := ⟨1, .replicate 32 1, .replicate 32 0, 0⟩

def firstTransfer : Transfer := ⟨.replicate 20 1, .replicate 20 2, .replicate 20 3, 5, .replicate 32 4, 0⟩

theorem fits_first : Fits firstBlock [firstTransfer] := ⟨by decide, by decide, by decide⟩

theorem saveBlock_upserts_iff_first : ∃ _ : GoEthereum,
    PostgresStore.books.Upserts .newPostgresStore firstBlock [firstTransfer] false := by
  let : GoEthereum := ⟨fun _ ↦ .replicate 32 0, fun a ↦ Hex.encode a.toList⟩
  refine ⟨this, ?_⟩
  have hempty : PostgresStore.books.records .newPostgresStore = [] := rfl
  apply ((saveBlock_upserts_iff firstBlock [firstTransfer] false (by simp)).2 _ ?_).mpr
  · exact ⟨fits_first, by simp [Books.transfersOf, hempty]⟩
  · simp [Books.Apart, hempty]

/-- Saving a block again with its transfers confirmed doubles them in memory, and leaves them unconfirmed in the
tables. -/
theorem saveBlock_not_upserts : ∃ _ : GoEthereum,
    (∃ s s' : MemStore, Reachable MemStore.store .newMemStore s ∧ MemStore.books.Apart s firstBlock [firstTransfer] ∧
      MemStore.store.saveBlock firstBlock [firstTransfer] true s = .ok s' ∧
      s'.transfersOf 1 = [⟨1, firstTransfer, false⟩, ⟨1, firstTransfer, true⟩]) ∧
    ∃ s s' : PostgresStore, Reachable PostgresStore.store .newPostgresStore s ∧
      PostgresStore.books.Apart s firstBlock [firstTransfer] ∧
      PostgresStore.store.saveBlock firstBlock [firstTransfer] true s = .ok s' ∧
      s'.transfers.rows = [.of ⟨1, firstTransfer, false⟩] := by
  let : GoEthereum := ⟨fun _ ↦ .replicate 32 0, fun a ↦ Hex.encode a.toList⟩
  refine ⟨this, ?_⟩
  constructor
  · refine ⟨_, _, .saveBlock firstBlock [firstTransfer] false .init rfl, ?_, rfl, rfl⟩
    intro r hr hother
    obtain rfl : r = ⟨1, firstTransfer, false⟩ := List.mem_singleton.mp hr
    exact absurd hother (by decide)
  · have hdist : ([firstTransfer].map Transfer.origin).Nodup := by simp
    obtain ⟨s, hs, -, ht⟩ := PostgresStore.saveBlock_rows (s := .newPostgresStore) (f := false) fits_first hdist
    obtain ⟨s', hs', -, ht'⟩ := PostgresStore.saveBlock_rows (s := s) (f := true) fits_first hdist
    have hrows : s.transfers.rows = [.of ⟨1, firstTransfer, false⟩] := ht
    have htaken : s.transfers.Taken (TransferRow.of ⟨1, firstTransfer, true⟩).origin := by
      rw [Table.Taken, hrows]
      exact List.mem_singleton.mpr rfl
    have hadded : s.added 1 true [firstTransfer] = [] := by simp [PostgresStore.added, htaken]
    refine ⟨s, s', .saveBlock firstBlock [firstTransfer] false .init hs, ?_, hs', ?_⟩
    · intro r hr hother
      rw [show PostgresStore.books.records s = _ from hrows, List.mem_singleton] at hr
      subst hr
      simp [PostgresStore.books, TransferRow.of, firstBlock] at hother
    · rw [ht', hrows]
      exact congrArg (_ ++ ·) hadded

end EventPlatform.ChainMonitor
