import EventPlatform.ChainMonitor.StableChain

namespace EventPlatform.ChainMonitor

open Ethereum Interaction Prog

variable [GoEthereum]

/-- The stored blocks are those of the chain from `lo` up to its head. -/
def Chain.Restricted (c : Chain) (lo : UInt64) (s : MemStore) : Prop :=
  ∀ n : UInt64, s.blocks[n]? = if lo ≤ n ∧ n ≤ c.head then some (c.block n) else none

/-- The number of stored blocks that are not on the chain. -/
def Chain.stale (c : Chain) (s : MemStore) : ℕ := s.index.countP fun b ↦ ¬ b.hash = c.hashAt b.number

/-- The lowest number that survives once the stale blocks are gone. -/
def Chain.base (c : Chain) (cfg : Config) (s : MemStore) : UInt64 :=
  match (s.index.drop (c.stale s)).getLast? with
  | some b => b.number
  | none => cfg.startBlock

/-- The stale blocks are the top ones, each of the next syncs removes one of them with one
reorg message, the sync after that indexes up to the head, and then nothing changes. -/
def Converges (cfg : Config) (c : Chain) (s : MemStore) : Prop :=
  (∀ i b, s.index[i]? = some b → (b.hash ≠ c.hashAt b.number ↔ i < c.stale s)) ∧
    ∃ w : ℕ → World Unit MemStore, w 0 = ⟨(), s, []⟩ ∧ (∀ i, Returns cfg c (w i) (w (i + 1))) ∧
      (∀ i < c.stale s, ∃ top, (w i).store.index = top :: (w (i + 1)).store.index ∧
        published (w (i + 1)).log = published (w i).log ++ [.chainReorg top.number]) ∧
      c.Restricted (c.base cfg s) (w (c.stale s + 1)).store ∧
      ∀ i > c.stale s, (w (i + 1)).store.blocks = (w i).store.blocks ∧
        published (w (i + 1)).log = published (w i).log

section Stale

variable {known : Set Header} {c : Chain} {s : MemStore}

theorem Taken.stale_iff (h : Taken known c s) (hl : s.Linked) (hle : ∀ b ∈ s.index, b.number ≤ c.head)
    (i : ℕ) (b : Block) (hb : s.index[i]? = some b) : b.hash ≠ c.hashAt b.number ↔ i < c.stale s :=
  Segment.Linked.not_iff_lt_countP (P := fun b ↦ b.hash = c.hashAt b.number) hl (h.parent hle) hb

theorem Taken.eq_block_of_drop (h : Taken known c s) (hl : s.Linked) (hle : ∀ b ∈ s.index, b.number ≤ c.head)
    {b : Block} (hb : b ∈ s.index.drop (c.stale s)) : b = c.block b.number := by
  have hm := List.mem_of_mem_drop hb
  obtain ⟨i, hi⟩ := List.mem_iff_getElem?.mp hb
  rw [List.getElem?_drop] at hi
  have hs := h.stale_iff hl hle _ b hi
  exact h.eq_block hm (hle b hm) (not_not.mp fun hne ↦ by have := hs.mp hne; omega)

/-- Once the stale blocks are gone, the store is a piece of the chain. -/
theorem Taken.blocks_of_drop (h : Taken known c s) (hl : s.Linked) (hle : ∀ b ∈ s.index, b.number ≤ c.head)
    (hmax : c.head.toNat + 1 < 2 ^ 64) (cfg : Config) {t : MemStore} (ht : t.index = s.index.drop (c.stale s))
    (n : UInt64) : t.blocks[n]? =
      if c.base cfg s ≤ n ∧ n < nextNumber cfg t then some (c.block n) else none := by
  have hlt : t.Linked := by
    unfold MemStore.Linked
    rw [ht]
    exact List.IsChain.drop hl _
  have hmem : ∀ b ∈ t.index, b = c.block b.number := fun b hb ↦ h.eq_block_of_drop hl hle (ht ▸ hb)
  unfold Chain.base nextNumber
  rw [← ht, t.lastBlock_eq]
  cases hi : t.index with
  | nil =>
    have hn : t.blocks[n]? = none := Option.eq_none_iff_forall_ne_some.mpr fun b hb ↦ by
      have hm := (MemStore.getElem?_eq_some.mp hb).1
      simp [hi] at hm
    rw [hn]
    refine (if_neg ?_).symm
    rintro ⟨h₁, h₂⟩
    exact UInt64.not_le.mpr h₂ h₁
  | cons a l =>
    have ha : t.index.head? = some a := by rw [hi]; rfl
    have hac : a.number.toNat ≤ c.head.toNat :=
      UInt64.le_iff_toNat_le.mp (hle a (List.mem_of_mem_drop (ht ▸ List.mem_of_mem_head? ha)))
    have hsucc : (a.number + 1).toNat = a.number.toNat + 1 := toNat_succ (by omega)
    obtain ⟨b, hb⟩ : ∃ b, t.index.getLast? = some b := by
      rw [hi]
      exact ⟨_, List.getLast?_eq_some_getLast (List.cons_ne_nil a l)⟩
    rw [← hi, hb, ha]
    dsimp only
    split
    · rename_i hr
      have h₁ := UInt64.le_iff_toNat_le.mp hr.1
      have h₂ := UInt64.lt_iff_toNat_lt.mp hr.2
      obtain ⟨x, hx, hn⟩ := Segment.Linked.between hlt (List.mem_of_mem_head? ha)
        (List.mem_of_getLast? hb) h₁ (by omega)
      obtain rfl : x.number = n := UInt64.toNat_inj.mp hn
      rw [← hmem x hx]
      exact MemStore.mem_index.mp hx
    · rename_i hr
      refine Option.eq_none_iff_forall_ne_some.mpr fun x hx ↦ hr ?_
      obtain ⟨hm, rfl⟩ := MemStore.getElem?_eq_some.mp hx
      have hmx := t.head_max ha hm
      have hmn := Segment.Linked.last_min hlt hb hm
      exact ⟨UInt64.le_iff_toNat_le.mpr hmn, UInt64.lt_iff_toNat_lt.mpr (by omega)⟩

end Stale

section Saves

variable {c : Chain} {cfg : Config} {h : UInt64}

theorem Chain.saves_blocks (ns : List UInt64) (s : MemStore) (m : UInt64) :
    (c.saves cfg h ns s).blocks[m]? = if m ∈ ns then some (c.block m) else s.blocks[m]? := by
  induction ns generalizing s with
  | nil => simp [saves]
  | cons n ns ih =>
    rw [saves_cons, ih]
    simp only [MemStore.saveBlock, Std.ExtTreeMap.getElem?_insert, Std.compare_eq_iff_eq, List.mem_cons]
    by_cases hm : m ∈ ns
    · simp [hm]
    · by_cases hn : n = m
      · subst hn
        simp [hm, Chain.block, Block.ofHeader]
      · simp [hm, hn, Ne.symm hn, Chain.block, Block.ofHeader]

end Saves

section Settled

variable {c : Chain} {cfg : Config} {lo : UInt64} {s : MemStore}

theorem Chain.Restricted.mem_index (h : c.Restricted lo s) {b : Block} :
    b ∈ s.index ↔ (lo ≤ b.number ∧ b.number ≤ c.head) ∧ b = c.block b.number := by
  rw [MemStore.mem_index, h]
  split
  · rename_i hr
    simp [hr, eq_comm]
  · rename_i hr
    simp [hr]

theorem Chain.Restricted.agrees (h : c.Restricted lo s) : c.Agrees s := by
  intro b hb
  obtain ⟨hr, he⟩ := h.mem_index.mp hb
  exact ⟨hr.2, by rw [he]; rfl⟩

/-- A settled store leaves no number to index. -/
theorem Chain.Restricted.nextNumber (h : c.Restricted lo s) (hmax : c.head.toNat + 1 < 2 ^ 64)
    (hlo : lo ≤ c.head ∨ lo = cfg.startBlock) : c.head.toNat + 1 - (nextNumber cfg s).toNat = 0 := by
  unfold ChainMonitor.nextNumber
  rw [s.lastBlock_eq]
  cases hi : s.index.head? with
  | none =>
    have hlt : ¬ lo ≤ c.head := fun hle ↦ by
      have hm : c.block c.head ∈ s.index := h.mem_index.mpr ⟨⟨hle, UInt64.le_refl _⟩, rfl⟩
      rw [List.head?_eq_none_iff.mp hi] at hm
      cases hm
    obtain rfl := hlo.resolve_left hlt
    have := UInt64.lt_iff_toNat_lt.mp (UInt64.not_le.mp hlt)
    dsimp only
    omega
  | some b =>
    obtain ⟨⟨h₁, h₂⟩, -⟩ := h.mem_index.mp (List.mem_of_mem_head? hi)
    have hle := UInt64.le_iff_toNat_le.mp h₂
    have hm : c.block c.head ∈ s.index :=
      h.mem_index.mpr ⟨⟨UInt64.le_trans h₁ h₂, UInt64.le_refl _⟩, rfl⟩
    have hmx : c.head.toNat ≤ b.number.toNat := s.head_max hi hm
    dsimp only
    rw [toNat_succ (by omega)]
    omega

end Settled

section Syncs

variable {known : Set Header} {c : Chain} {cfg : Config} {s : MemStore} {w : World Unit MemStore}

theorem Taken.rolls (h : Taken known c s) (hl : s.Linked) (hle : ∀ b ∈ s.index, b.number ≤ c.head)
    {i : ℕ} (hi : i < c.stale s) (hw : w.store.index = s.index.drop i) :
    ∃ w' top, Returns cfg c w w' ∧ w.store.index = top :: w'.store.index ∧
      w'.store.index = s.index.drop (i + 1) ∧
      published w'.log = published w.log ++ [.chainReorg top.number] := by
  have hlen : i < s.index.length := lt_of_lt_of_le hi List.countP_le_length
  obtain ⟨top, htop⟩ : ∃ top, s.index[i]? = some top := ⟨_, List.getElem?_eq_getElem hlen⟩
  have hd : s.index.drop i = top :: s.index.drop (i + 1) := by
    rw [List.drop_eq_getElem_cons hlen, ← Option.some.inj ((List.getElem?_eq_getElem hlen).symm.trans htop)]
  have hh : w.store.index.head? = some top := by rw [hw, hd]; rfl
  have hm : top ∈ s.index := List.mem_of_getElem? htop
  obtain ⟨w', e, hs, hp⟩ := eval_sync_diverged cfg (w.store.lastBlock_eq.trans hh) (hle top hm)
    ((h.stale_iff hl hle i top htop).mpr hi)
  have hlw : w.store.Linked := by
    unfold MemStore.Linked
    rw [hw]
    exact List.IsChain.drop hl _
  have hidx : w'.store.index = s.index.drop (i + 1) := by
    rw [hs, Tracks.index_rollback hlw ⟨top, hh, rfl⟩, hw, hd, List.tail_cons]
  exact ⟨w', top, ⟨0, fun ctx _ ↦ e ctx⟩, by rw [hidx, hw, hd], hidx, hp⟩

theorem Taken.agrees_of_drop (h : Taken known c s) (hl : s.Linked) (hle : ∀ b ∈ s.index, b.number ≤ c.head)
    {t : MemStore} (ht : t.index = s.index.drop (c.stale s)) : c.Agrees t := by
  intro b hb
  rw [ht] at hb
  refine ⟨hle b (List.mem_of_mem_drop hb), ?_⟩
  rw [h.eq_block_of_drop hl hle hb]
  rfl

theorem Chain.base_le (hle : ∀ b ∈ s.index, b.number ≤ c.head) (cfg : Config) :
    c.base cfg s ≤ c.head ∨ c.base cfg s = cfg.startBlock := by
  unfold Chain.base
  split
  · rename_i b hb
    exact .inl (hle b (List.mem_of_mem_drop (List.mem_of_getLast? hb)))
  · exact .inr rfl

theorem Chain.base_le_nextNumber (hle : ∀ b ∈ s.index, b.number ≤ c.head) (hmax : c.head.toNat + 1 < 2 ^ 64)
    (cfg : Config) {t : MemStore} (ht : t.index = s.index.drop (c.stale s)) :
    c.base cfg s = nextNumber cfg t ∨ (c.base cfg s).toNat < (nextNumber cfg t).toNat ∧
      (nextNumber cfg t).toNat ≤ c.head.toNat + 1 := by
  unfold Chain.base nextNumber
  rw [← ht, t.lastBlock_eq]
  cases hi : t.index.head? with
  | none =>
    rw [List.head?_eq_none_iff.mp hi, List.getLast?_nil]
    exact .inl rfl
  | some a =>
    have hac := UInt64.le_iff_toNat_le.mp (hle a (List.mem_of_mem_drop (ht ▸ List.mem_of_mem_head? hi)))
    obtain ⟨b, hb⟩ : ∃ b, t.index.getLast? = some b := by
      obtain ⟨l, hl⟩ := List.head?_eq_some_iff.mp hi
      rw [hl]
      exact ⟨_, List.getLast?_eq_some_getLast (List.cons_ne_nil a l)⟩
    have hba := t.head_max hi (List.mem_of_getLast? hb)
    rw [hb]
    dsimp only
    rw [toNat_succ (by omega)]
    exact .inr ⟨by omega, by omega⟩

/-- The sync after the last rollback brings the store up to the head. -/
theorem Taken.settles (h : Taken known c s) (hl : s.Linked) (hle : ∀ b ∈ s.index, b.number ≤ c.head)
    (hmax : c.head.toNat + 1 < 2 ^ 64) (hw : w.store.index = s.index.drop (c.stale s)) :
    ∃ w', Returns cfg c w w' ∧ c.Restricted (c.base cfg s) w'.store := by
  obtain ⟨w', hr, hs, -⟩ := (h.agrees_of_drop hl hle hw).returns cfg hmax rfl
  refine ⟨w', hr, fun n ↦ ?_⟩
  have hlt := (nextNumber cfg w.store).toNat_lt
  have hbase : (c.base cfg s).toNat = (nextNumber cfg w.store).toNat ∨ _ :=
    (c.base_le_nextNumber hle hmax cfg hw).imp_left (congrArg UInt64.toNat)
  rw [hs, MemStore.promoted_blocks, Chain.saves_blocks, h.blocks_of_drop hl hle hmax cfg hw]
  simp only [mem_span (show (nextNumber cfg w.store).toNat +
    (c.head.toNat + 1 - (nextNumber cfg w.store).toNat) ≤ 2 ^ 64 by omega), UInt64.le_iff_toNat_le,
    UInt64.lt_iff_toNat_lt]
  split <;> rename_i h₁
  · rw [if_pos (by omega)]
  · split <;> rename_i h₂
    · rw [if_pos (by omega)]
    · rw [if_neg (by omega)]

end Syncs

section Sequence

variable {known : Set Header} {c : Chain} {cfg : Config} {s : MemStore}

theorem Taken.converges (h : Taken known c s) (hl : s.Linked) (hle : ∀ b ∈ s.index, b.number ≤ c.head)
    (hmax : c.head.toNat + 1 < 2 ^ 64) : Converges cfg c s := by
  refine ⟨h.stale_iff hl hle, ?_⟩
  have step : ∀ (i : ℕ) (w : World Unit MemStore),
      (i ≤ c.stale s → w.store.index = s.index.drop i) ∧ (c.stale s < i → c.Restricted (c.base cfg s) w.store) →
      ∃ w', (Returns cfg c w w' ∧ (i < c.stale s → ∃ top, w.store.index = top :: w'.store.index ∧
          published w'.log = published w.log ++ [.chainReorg top.number]) ∧
        (c.stale s < i → w'.store.blocks = w.store.blocks ∧ published w'.log = published w.log)) ∧
      (i + 1 ≤ c.stale s → w'.store.index = s.index.drop (i + 1)) ∧
        (c.stale s < i + 1 → c.Restricted (c.base cfg s) w'.store) := by
    rintro i w ⟨hdrop, hset⟩
    rcases lt_trichotomy i (c.stale s) with hi | rfl | hi
    · obtain ⟨w', top, hr, ht, hd, hp⟩ := h.rolls hl hle hi (hdrop hi.le)
      exact ⟨w', ⟨hr, fun _ ↦ ⟨top, ht, hp⟩, fun h' ↦ by omega⟩, fun _ ↦ hd, fun h' ↦ by omega⟩
    · obtain ⟨w', hr, hs⟩ := h.settles hl hle hmax (hdrop le_rfl)
      exact ⟨w', ⟨hr, fun h' ↦ by omega, fun h' ↦ by omega⟩, fun h' ↦ by omega, fun _ ↦ hs⟩
    · have hs := hset hi
      obtain ⟨w', hr, hst, hp⟩ := hs.agrees.returns cfg hmax (hs.nextNumber hmax (c.base_le hle cfg))
      have hb : w'.store.blocks = w.store.blocks := by
        rw [hst, MemStore.promoted_blocks]
        rfl
      refine ⟨w', ⟨hr, fun h' ↦ by omega, fun _ ↦ ⟨hb, by rw [hp]; exact List.append_nil _⟩⟩,
        fun h' ↦ by omega, fun _ n ↦ by rw [hb]; exact hs n⟩
  choose! next hT hI using step
  let w : ℕ → World Unit MemStore := fun i ↦ Nat.rec ⟨(), s, []⟩ (fun i w ↦ next i w) i
  have hI' : ∀ i, (i ≤ c.stale s → (w i).store.index = s.index.drop i) ∧
      (c.stale s < i → c.Restricted (c.base cfg s) (w i).store) := by
    intro i
    induction i with
    | zero => exact ⟨fun _ ↦ rfl, fun h' ↦ by omega⟩
    | succ i ih => exact hI i (w i) ih
  have hT' := fun i ↦ hT i (w i) (hI' i)
  exact ⟨w, rfl, fun i ↦ (hT' i).1, fun i ↦ (hT' i).2.1, (hI' _).2 (Nat.lt_succ_self _), fun i ↦ (hT' i).2.2⟩

/-- At the last number of its type the sync that should bring the store up to the head
never returns. -/
theorem Taken.not_converges (h : Taken known c s) (hl : s.Linked) (hle : ∀ b ∈ s.index, b.number ≤ c.head)
    (hmax : c.head.toNat + 1 = 2 ^ 64) : ¬ Converges cfg c s := by
  rintro ⟨-, w, h0, hr, hroll, -⟩
  have hdrop : ∀ i ≤ c.stale s, (w i).store.index = s.index.drop i := by
    intro i
    induction i with
    | zero => exact fun _ ↦ by rw [h0]; rfl
    | succ i ih =>
      intro hi
      obtain ⟨top, ht, -⟩ := hroll i hi
      rw [ih (by omega)] at ht
      rw [← List.tail_drop, ht, List.tail_cons]
  exact (h.agrees_of_drop hl hle (hdrop _ le_rfl)).not_returns cfg hmax _ (hr _)

omit [GoEthereum] in
theorem MemStore.le_of_lastBlock {n : UInt64} (h : ∀ b, s.lastBlock = some b → b.number ≤ n) :
    ∀ b ∈ s.index, b.number ≤ n := by
  intro b hb
  cases hi : s.index.head? with
  | none => rw [List.head?_eq_none_iff.mp hi] at hb; cases hb
  | some a =>
    have ha := h a (s.lastBlock_eq.trans hi)
    exact UInt64.le_trans (UInt64.le_iff_toNat_le.mpr (s.head_max hi hb)) ha

end Sequence

/-- A store of linked blocks converges to a chain that reaches at least as high, with an exact
number of syncs, unless the head of the chain is the last number of its type. -/
theorem converges_iff (cfg : Config) (known : Set Header) (c : Chain) (s : MemStore) (ht : Taken known c s)
    (hc : s.Contiguous) (hp : s.ParentLinked) (hlast : ∀ b, s.lastBlock = some b → b.number ≤ c.head) :
    Converges cfg c s ↔ c.head.toNat < 2 ^ 64 - 1 := by
  have hl := s.linked_iff.mpr ⟨hc, hp⟩
  have hle := MemStore.le_of_lastBlock hlast
  have hlt := c.head.toNat_lt
  constructor
  · intro h
    by_contra hmax
    exact ht.not_converges hl hle (by omega) h
  · exact fun h ↦ ht.converges hl hle (by omega)

/-- The blocks 0, 1 and 2 of `buildChain 2 3 0`. -/
def forkedStore : MemStore :=
  let a := buildChain 2 3 0 fun _ ↦ []
  ((MemStore.newMemStore.saveBlock (a.block 0) [] true).saveBlock (a.block 1) [] true).saveBlock (a.block 2) [] false

omit [GoEthereum] in
theorem forkedStore_linked : letI := testEthereum; forkedStore.Linked := by
  unfold MemStore.Linked Segment.Linked
  decide

omit [GoEthereum] in
theorem forkedStore_taken (h : UInt64) (hh : h ≤ 2) :
    letI := testEthereum
    Taken {hd | hd ∈ testHashes.map Prod.fst} (buildChain h 1 1 fun _ ↦ []) forkedStore := by
  let := testEthereum
  refine ⟨testEthereum_injOn, ?_, ?_⟩
  · intro n hn
    have hi : ∀ i ≤ 2, buildHeader 1 1 i ∈ testHashes.map Prod.fst := by decide
    exact hi n.toNat (UInt64.le_iff_toNat_le.mp (UInt64.le_trans hn hh))
  · have hs : ∀ b ∈ forkedStore.index, ∃ hd ∈ testHashes.map Prod.fst, b = .ofHeader b.number hd := by decide
    exact hs

omit [GoEthereum] in
theorem converges_iff_forkedStore :
    letI := testEthereum
    let c := buildChain 2 1 1 fun _ ↦ []
    c.stale forkedStore = 2 ∧ Converges ⟨1, 0, []⟩ c forkedStore := by
  let := testEthereum
  obtain ⟨hc, hp⟩ := (MemStore.linked_iff _).mp forkedStore_linked
  refine ⟨by decide, (converges_iff _ _ _ _ (forkedStore_taken 2 (by decide)) hc hp ?_).mpr (by decide)⟩
  have hlast : forkedStore.lastBlock = some ((buildChain 2 3 0 fun _ ↦ []).block 2) := by decide
  intro b hb
  cases hlast.symm.trans hb
  decide

omit [GoEthereum] in
/-- Hashes that spell out the number of the header, and so tell all headers of one chain apart. -/
@[reducible] def numberEthereum : GoEthereum where
  headerHash hd := .ofFn fun i ↦ UInt8.ofNat (hd.number / 256 ^ i.val)
  addressHex _ := ""

omit [GoEthereum] in
theorem numberEthereum_byte (hd : Header) (i : ℕ) (h : i < 32) :
    ((numberEthereum.headerHash hd)[i]).toNat = hd.number / 256 ^ i % 256 := by
  change ((Vector.ofFn fun i : Fin 32 ↦ UInt8.ofNat (hd.number / 256 ^ i.val))[i]).toNat = _
  rw [Vector.getElem_ofFn, UInt8.toNat_ofNat']

omit [GoEthereum] in
theorem eq_of_bytes {k n m : ℕ} (hn : n < 256 ^ k) (hm : m < 256 ^ k)
    (h : ∀ i < k, n / 256 ^ i % 256 = m / 256 ^ i % 256) : n = m := by
  induction k generalizing n m with
  | zero => omega
  | succ k ih =>
    have hrest : n / 256 = m / 256 := by
      rw [pow_succ'] at hn hm
      apply ih (Nat.div_lt_of_lt_mul hn) (Nat.div_lt_of_lt_mul hm)
      intro i hi
      have hnext := h (i + 1) (Nat.succ_lt_succ hi)
      rwa [pow_succ', ← Nat.div_div_eq_div_mul, ← Nat.div_div_eq_div_mul] at hnext
    have hlast := h 0 k.succ_pos
    rw [pow_zero, Nat.div_one, Nat.div_one] at hlast
    omega

omit [GoEthereum] in
theorem numberEthereum_injOn (forkAt : ℕ) (forkSalt : UInt8) : letI := numberEthereum
    Set.InjOn GoEthereum.headerHash (Set.range fun n : UInt64 ↦ buildHeader forkAt forkSalt n.toNat) := by
  let := numberEthereum
  rintro _ ⟨n, rfl⟩ _ ⟨m, rfl⟩ h
  have he : n.toNat = m.toNat := by
    have hbound : ∀ x : UInt64, x.toNat < 256 ^ 8 := fun x ↦ x.toNat_lt
    apply eq_of_bytes (hbound n) (hbound m)
    intro i hlt
    have hi := congrArg (fun v : Hash ↦ v[i].toNat) h
    dsimp only at hi
    rwa [numberEthereum_byte, numberEthereum_byte, buildHeader_number, buildHeader_number] at hi
  exact congrArg (buildHeader forkAt forkSalt) he

omit [GoEthereum] in
/-- From the empty store against a chain whose head is the number 2^64 - 1, the first sync
never returns. -/
theorem not_converges_max :
    letI := numberEthereum
    let c := buildChain (.ofNat (2 ^ 64 - 1)) 0 0 fun _ ↦ []
    Taken (Set.range c.header) c .newMemStore ∧ MemStore.newMemStore.Contiguous ∧
      MemStore.newMemStore.ParentLinked ∧ (∀ b, MemStore.newMemStore.lastBlock = some b → b.number ≤ c.head) ∧
      ¬ Converges ⟨12, 0, []⟩ c .newMemStore := by
  let := numberEthereum
  have ht : Taken (Set.range (buildChain (.ofNat (2 ^ 64 - 1)) 0 0 fun _ ↦ []).header)
      (buildChain (.ofNat (2 ^ 64 - 1)) 0 0 fun _ ↦ []) .newMemStore :=
    ⟨numberEthereum_injOn 0 0, fun n _ ↦ ⟨n, rfl⟩, by simp⟩
  have hmax : (UInt64.ofNat (2 ^ 64 - 1)).toNat + 1 = 2 ^ 64 := by
    rw [UInt64.toNat_ofNat_of_lt' (by decide), Nat.sub_add_cancel (by decide)]
  obtain ⟨hc, hp⟩ := (MemStore.linked_iff _).mp MemStore.linked_newMemStore
  refine ⟨ht, hc, hp, ?_, ht.not_converges MemStore.linked_newMemStore (by simp) hmax⟩
  intro b hb
  cases hb

section Shorter

variable {c : Chain} {cfg : Config} {w : World Unit MemStore} {b : Block}

/-- Some number of syncs leaves no stored block above the head or off the chain. -/
def Recovers (cfg : Config) (c : Chain) (s : MemStore) : Prop :=
  ∃ ticks, c.Agrees ((run cfg ticks).eval c.serve ⟨(), s, []⟩).2.store

/-- A tip above the head of the chain fails the sync before it can be rolled back. -/
theorem eval_sync_above (cfg : Config) (hb : w.store.lastBlock = some b) (hn : c.head < b.number) (ctx : ℕ) :
    ∃ w', (sync cfg ctx).eval c.serve w = (.error .notFound, w') ∧ w'.store = w.store := by
  obtain ⟨w₁, s₁, -, e₁⟩ := eval_sync_start c cfg w
  obtain ⟨w₂, e₂, s₂, -⟩ := eval_headerByNumber (c := c) (w := w₁) b.number
  refine ⟨w₂, ?_, s₂.trans s₁⟩
  rw [e₁, hb]
  dsimp only
  rw [eval_bind, e₂, Chain.headerByNumber_of_lt hn]

theorem eval_run_above (cfg : Config) (hb : w.store.lastBlock = some b) (hn : c.head < b.number) (ticks : List ℕ) :
    ((run cfg ticks).eval c.serve w).2.store = w.store := by
  induction ticks generalizing w with
  | nil => rfl
  | cons ctx ticks ih =>
    obtain ⟨w', he, hs⟩ := eval_sync_above cfg hb hn ctx
    rw [run, eval_bind, eval_attempt, he]
    dsimp only
    rw [ih (hs ▸ hb), hs]

theorem not_recovers {s : MemStore} (hb : s.lastBlock = some b) (hn : c.head < b.number) :
    ¬ Recovers cfg c s := by
  rintro ⟨ticks, h⟩
  rw [eval_run_above cfg hb hn ticks] at h
  have hle := (h b (List.mem_of_mem_head? (s.lastBlock_eq ▸ hb))).1
  exact UInt64.not_le.mpr hn hle

end Shorter

/-- No number of syncs recovers from a chain whose head is below the last indexed block:
every one of them leaves the store as it is. -/
theorem not_recovers_of_shorter (cfg : Config) (c : Chain) (s : MemStore) (last : Block)
    (hlast : s.lastBlock = some last) (hshort : c.head < last.number) : ¬ Recovers cfg c s ∧
      ∀ ticks, ((run cfg ticks).eval c.serve ⟨(), s, []⟩).2.store = s :=
  ⟨not_recovers hlast hshort, eval_run_above cfg hlast hshort⟩

omit [GoEthereum] in
theorem not_recovers_of_shorter_forkedStore : letI := testEthereum
    ¬ Recovers ⟨1, 0, []⟩ (buildChain 1 1 1 fun _ ↦ []) forkedStore := by
  let := testEthereum
  exact (not_recovers_of_shorter _ _ _ ((buildChain 2 3 0 fun _ ↦ []).block 2) (by decide) (by decide)).1

omit [GoEthereum] in
/-- Blocks 0 to 2 are stored and the canonical chain is a fork from block 1 on with head 1. -/
theorem not_recovers_forkedStore :
    letI := testEthereum
    let c := buildChain 1 1 1 fun _ ↦ []
    Taken {hd | hd ∈ testHashes.map Prod.fst} c forkedStore ∧ forkedStore.Contiguous ∧
      forkedStore.ParentLinked ∧ 0 ≤ c.head ∧
      (∃ last, forkedStore.lastBlock = some last ∧ c.head < last.number) ∧ ¬ Recovers ⟨1, 0, []⟩ c forkedStore := by
  let := testEthereum
  obtain ⟨hc, hp⟩ := (MemStore.linked_iff _).mp forkedStore_linked
  have hlast : forkedStore.lastBlock = some ((buildChain 2 3 0 fun _ ↦ []).block 2) := by decide
  exact ⟨forkedStore_taken 1 (by decide), hc, hp, by decide, ⟨_, hlast, by decide⟩, not_recovers hlast (by decide)⟩

end EventPlatform.ChainMonitor
