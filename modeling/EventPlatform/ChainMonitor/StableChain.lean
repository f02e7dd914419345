import EventPlatform.ChainMonitor.Agreement

namespace EventPlatform.ChainMonitor

open Ethereum Interaction Prog

variable [GoEthereum]

namespace Chain

variable (c : Chain)

/-- The monitor on an in-memory store against this chain alone. -/
abbrev serve : Responder Err Call.Reply (World Unit MemStore) := c.oracle.respond MemStore.store

/-- The effect of saving the blocks of the chain with the given numbers, with head `h`. -/
def saves (cfg : Config) (h : UInt64) (ns : List UInt64) (s : MemStore) : MemStore :=
  ns.foldl (fun s n ↦ s.saveBlock (c.block n) (c.transfers cfg n) (decide (h - n ≥ cfg.confirmations))) s

theorem saves_cons (cfg : Config) (h n : UInt64) (ns : List UInt64) (s : MemStore) :
    c.saves cfg h (n :: ns) s = c.saves cfg h ns
      (s.saveBlock (c.block n) (c.transfers cfg n) (decide (h - n ≥ cfg.confirmations))) := rfl

def announcements (cfg : Config) (h : UInt64) (ns : List UInt64) : List Event :=
  ns.flatMap fun n ↦ announcement (c.block n) (c.transfers cfg n) (decide (h - n ≥ cfg.confirmations))

end Chain

/-- The effect of the promotion at the end of a sync. -/
def MemStore.promoted (cfg : Config) (h : UInt64) (s : MemStore) : MemStore :=
  if h ≥ cfg.confirmations then s.confirmThrough (h - cfg.confirmations) else s

omit [GoEthereum] in
theorem MemStore.promoted_blocks (cfg : Config) (h : UInt64) (s : MemStore) :
    (s.promoted cfg h).blocks = s.blocks := by
  unfold promoted
  split <;> rfl

section Eval

variable {c : Chain} {cfg : Config} {w : World Unit MemStore}

theorem eval_rollback (n : UInt64) : ∃ w', (rollback n).eval c.serve w = (.ok (), w') ∧
    w'.store = w.store.deleteFrom n ∧ published w'.log = published w.log ++ [.chainReorg n] := by
  refine ⟨_, rfl, rfl, ?_⟩
  change published (w.log ++ [⟨.deleteFrom n, .ok ()⟩] ++ [⟨.publish (.chainReorg n), .ok ()⟩]) = _
  rw [published_append, published_append, published_call rfl, List.append_nil, published_event]

theorem eval_publishTransfers (n : UInt64) (f : Bool) (ts : List Transfer) :
    ∃ w', (publishTransfers n f ts).eval c.serve w = (.ok (), w') ∧ w'.store = w.store ∧
      published w'.log = published w.log ++ ts.map (transferEvent · n f) := by
  induction ts generalizing w with
  | nil => exact ⟨w, rfl, rfl, by simp⟩
  | cons t ts ih =>
    obtain ⟨w', he, hs, hp⟩ := ih (w := w.answer (.publish (transferEvent t n f)) (.ok ()) () w.store)
    refine ⟨w', he, hs, ?_⟩
    simp [hp, World.answer]

theorem eval_promote (cfg : Config) (h : UInt64) : ∃ w', (promote cfg h).eval c.serve w = (.ok (), w') ∧
    w'.store = w.store.promoted cfg h ∧ published w'.log = published w.log := by
  unfold promote MemStore.promoted
  split
  · refine ⟨_, rfl, rfl, ?_⟩
    change published (w.log ++ [⟨.confirmThrough _, .ok ()⟩]) = _
    rw [published_append, published_call rfl, List.append_nil]
  · exact ⟨_, rfl, rfl, rfl⟩

theorem eval_diverges {n : UInt64} (hc : n ≤ c.head) (ha : c.Agrees w.store) :
    ∃ w', (diverges n (c.header n)).eval c.serve w = (.ok false, w') ∧ w'.store = w.store ∧
      published w'.log = published w.log := by
  unfold diverges
  split
  · rename_i hn
    have hp : (w.store.blockByNumber (n - 1)).any (fun b ↦ b.hash ≠ (c.header n).parentHash) = false := by
      rw [Option.any_eq_false]
      intro b hb
      simpa using ha.parentHash hn hc hb
    refine ⟨_, congrArg (fun x ↦ (Except.ok x, _)) hp, rfl, ?_⟩
    change published (w.log ++ [⟨.blockByNumber (n - 1), .ok (w.store.blockByNumber (n - 1))⟩]) = _
    rw [published_append, published_call rfl, List.append_nil]
  · exact ⟨w, rfl, rfl, rfl⟩

theorem eval_headerByNumber (n : UInt64) : ∃ w', (headerByNumber (some n)).eval c.serve w =
    (c.headerByNumber (some n), w') ∧ w'.store = w.store ∧ published w'.log = published w.log := by
  refine ⟨(c.serve w (.headerByNumber (some n))).2, ?_, rfl, ?_⟩
  · rw [headerByNumber, eval_perform]
    rfl
  · change published (w.log ++ [⟨.headerByNumber _, _⟩]) = _
    rw [published_append, published_call rfl, List.append_nil]

theorem eval_fetchTransfers (cfg : Config) {n : UInt64} (hn : n ≤ c.head) :
    ∃ w', (fetchTransfers cfg n).eval c.serve w = (.ok (c.transfers cfg n), w') ∧ w'.store = w.store ∧
      published w'.log = published w.log := by
  refine ⟨_, congrArg (fun x ↦ (Except.ok x, _)) (Chain.filterLogs_transferQuery cfg hn), rfl, ?_⟩
  change published (w.log ++ [⟨.filterLogs _, _⟩]) = _
  rw [published_append, published_call rfl, List.append_nil]

theorem eval_saveAndPublish (b : Block) (ts : List Transfer) (f : Bool) :
    ∃ w', (∀ k : M Unit, (do
        saveBlock b ts f
        publishBlock b ts.length f
        publishTransfers b.number f ts
        k : M Unit).eval c.serve w = k.eval c.serve w') ∧
      w'.store = w.store.saveBlock b ts f ∧ published w'.log = published w.log ++ announcement b ts f := by
  obtain ⟨w', he, hs, hp⟩ := eval_publishTransfers (c := c) b.number f ts
    (w := (c.serve (c.serve w (.saveBlock b ts f)).2 (.publish (blockEvent b ts.length f))).2)
  refine ⟨w', fun k ↦ ?_, hs, ?_⟩
  · change (publishTransfers b.number f ts >>= fun _ ↦ k).eval c.serve _ = _
    rw [eval_bind, he]
  · rw [hp]
    change published (w.log ++ [⟨.saveBlock b ts f, .ok ()⟩] ++ [⟨.publish _, .ok ()⟩]) ++ _ = _
    rw [published_append, published_append, published_call rfl, List.append_nil, published_event,
      List.append_assoc]
    rfl

/-- One turn of the loop on a chain that the store agrees with. -/
theorem eval_indexFrom_succ (cfg : Config) {h n : UInt64} (hn : n ≤ h) (hc : n ≤ c.head) (ha : c.Agrees w.store) :
    ∃ w', (∀ ctx, (indexFrom cfg h (ctx + 1) n).eval c.serve w =
        (indexFrom cfg h ctx (n + 1)).eval c.serve w') ∧
      w'.store = w.store.saveBlock (c.block n) (c.transfers cfg n) (decide (h - n ≥ cfg.confirmations)) ∧
      published w'.log = published w.log ++
        announcement (c.block n) (c.transfers cfg n) (decide (h - n ≥ cfg.confirmations)) := by
  obtain ⟨w₁, e₁, s₁, p₁⟩ := eval_headerByNumber (c := c) (w := w) n
  obtain ⟨w₂, e₂, s₂, p₂⟩ := eval_diverges hc (s₁ ▸ ha)
  obtain ⟨w₃, e₃, s₃, p₃⟩ := eval_fetchTransfers (w := w₂) cfg hc
  obtain ⟨w₄, e₄, s₄, p₄⟩ := eval_saveAndPublish (w := w₃) (c.block n) (c.transfers cfg n)
    (decide (h - n ≥ cfg.confirmations))
  refine ⟨w₄, fun ctx ↦ ?_, by rw [s₄, s₃, s₂, s₁], by rw [p₄, p₃, p₂, p₁]⟩
  rw [indexFrom, if_pos hn, eval_bind, e₁, Chain.headerByNumber_of_le hc]
  dsimp only
  rw [eval_bind, e₂]
  dsimp only
  rw [if_neg Bool.false_ne_true, eval_bind, e₃]
  exact e₄ (indexFrom cfg h ctx (n + 1))

/-- The loop indexes up to the head and then promotes. -/
theorem eval_indexFrom (cfg : Config) {h : UInt64} (hh : h ≤ c.head) (hmax : h.toNat + 1 < 2 ^ 64) {k : ℕ} {n : UInt64}
    (hk : h.toNat + 1 - n.toNat = k) (ha : c.Agrees w.store) :
    ∃ w', (∀ ctx ≥ k, (indexFrom cfg h ctx n).eval c.serve w = (promote cfg h).eval c.serve w') ∧
      w'.store = c.saves cfg h (span k n) w.store ∧
      published w'.log = published w.log ++ c.announcements cfg h (span k n) := by
  induction k generalizing n w with
  | zero =>
    refine ⟨w, fun ctx _ ↦ ?_, rfl, (List.append_nil _).symm⟩
    have hn : ¬ n ≤ h := fun hle ↦ by
      have := UInt64.le_iff_toNat_le.mp hle
      omega
    cases ctx <;> rw [indexFrom, if_neg hn]
  | succ k ih =>
    have hn : n ≤ h := UInt64.le_iff_toNat_le.mpr (by omega)
    have hnc := UInt64.le_trans hn hh
    obtain ⟨w₁, e₁, s₁, p₁⟩ := eval_indexFrom_succ cfg hn hnc ha
    have hsucc := toNat_succ (n := n) (by omega)
    obtain ⟨w₂, e₂, s₂, p₂⟩ := ih (n := n + 1) (w := w₁) (by omega) (s₁ ▸ ha.saveBlock hnc _ _)
    refine ⟨w₂, fun ctx hctx ↦ ?_, ?_, ?_⟩
    · obtain ⟨m, rfl⟩ : ∃ m, ctx = m + 1 := ⟨ctx - 1, by omega⟩
      rw [e₁, e₂ m (by omega)]
    · rw [s₂, s₁]
      rfl
    · rw [p₂, p₁, List.append_assoc]
      rfl

/-- When the head is the last number of its type, the loop only ends with its context. -/
theorem eval_indexFrom_max (cfg : Config) {h : UInt64} (hh : h ≤ c.head) (hmax : h.toNat + 1 = 2 ^ 64) (ctx : ℕ)
    (n : UInt64) (ha : c.Agrees w.store) : ∃ w', (indexFrom cfg h ctx n).eval c.serve w = (.error .canceled, w') := by
  have hle : ∀ n : UInt64, n ≤ h := fun n ↦ UInt64.le_iff_toNat_le.mpr (by have := n.toNat_lt; omega)
  induction ctx generalizing n w with
  | zero => exact ⟨w, by rw [indexFrom, if_pos (hle n)]; rfl⟩
  | succ ctx ih =>
    have hnc := UInt64.le_trans (hle n) hh
    obtain ⟨w₁, e₁, s₁, -⟩ := eval_indexFrom_succ cfg (hle n) hnc ha
    rw [e₁]
    exact ih (n + 1) (s₁ ▸ ha.saveBlock hnc _ _)

theorem eval_sync_start (c : Chain) (cfg : Config) (w : World Unit MemStore) :
    ∃ w', w'.store = w.store ∧ published w'.log = published w.log ∧
    ∀ ctx, (sync cfg ctx).eval c.serve w = (match w.store.lastBlock with
      | some last => headerByNumber (some last.number) >>= fun canon ↦
          if GoEthereum.headerHash canon ≠ last.hash then rollback last.number
          else indexFrom cfg c.head ctx (last.number + 1)
      | none => indexFrom cfg c.head ctx cfg.startBlock).eval c.serve w' := by
  refine ⟨(c.serve (c.serve w (.headerByNumber none)).2 .lastBlock).2, rfl, ?_, fun ctx ↦ ?_⟩
  · change published (w.log ++ [⟨.headerByNumber none, _⟩] ++ [⟨.lastBlock, _⟩]) = _
    rw [published_append, published_append, published_call rfl, published_call rfl, List.append_nil,
      List.append_nil]
  · rw [← c.head_number64]
    rfl

/-- The first number that a sync indexes. -/
def nextNumber (cfg : Config) (s : MemStore) : UInt64 :=
  match s.lastBlock with
  | some last => last.number + 1
  | none => cfg.startBlock

/-- On a store that agrees with the chain, the tip check passes. -/
theorem eval_sync_agrees (cfg : Config) (ha : c.Agrees w.store) : ∃ w', w'.store = w.store ∧
    published w'.log = published w.log ∧ ∀ ctx, (sync cfg ctx).eval c.serve w =
      (indexFrom cfg c.head ctx (nextNumber cfg w.store)).eval c.serve w' := by
  obtain ⟨w₁, s₁, p₁, e₁⟩ := eval_sync_start c cfg w
  unfold nextNumber
  cases hb : w.store.lastBlock with
  | none =>
    rw [hb] at e₁
    exact ⟨w₁, s₁, p₁, e₁⟩
  | some b =>
    rw [hb] at e₁
    rw [MemStore.lastBlock_eq] at hb
    obtain ⟨hn, hh⟩ := ha b (List.mem_of_mem_head? hb)
    obtain ⟨w₂, e₂, s₂, p₂⟩ := eval_headerByNumber (c := c) (w := w₁) b.number
    refine ⟨w₂, s₂.trans s₁, p₂.trans p₁, fun ctx ↦ ?_⟩
    rw [e₁, eval_bind, e₂, Chain.headerByNumber_of_le hn]
    dsimp only
    rw [Chain.hashAt] at hh
    rw [if_neg (not_not.mpr hh.symm)]

/-- A tip that is not on the chain is removed. -/
theorem eval_sync_diverged (cfg : Config) {b : Block} (hb : w.store.lastBlock = some b) (hn : b.number ≤ c.head)
    (hne : b.hash ≠ c.hashAt b.number) : ∃ w', (∀ ctx, (sync cfg ctx).eval c.serve w = (.ok (), w')) ∧
      w'.store = w.store.deleteFrom b.number ∧
      published w'.log = published w.log ++ [.chainReorg b.number] := by
  obtain ⟨w₁, s₁, p₁, e₁⟩ := eval_sync_start c cfg w
  obtain ⟨w₂, e₂, s₂, p₂⟩ := eval_headerByNumber (c := c) (w := w₁) b.number
  obtain ⟨w₃, e₃, s₃, p₃⟩ := eval_rollback (c := c) (w := w₂) b.number
  refine ⟨w₃, fun ctx ↦ ?_, by rw [s₃, s₂, s₁], by rw [p₃, p₂, p₁]⟩
  rw [e₁, hb]
  dsimp only
  rw [eval_bind, e₂, Chain.headerByNumber_of_le hn]
  dsimp only
  rw [Chain.hashAt] at hne
  rw [if_pos hne.symm, e₃]

/-- A sync whose context stays open returns nil and leaves `w'`. -/
def Returns (cfg : Config) (c : Chain) (w w' : World Unit MemStore) : Prop :=
  ∃ N, ∀ ctx ≥ N, (sync cfg ctx).eval c.serve w = (.ok (), w')

/-- A sync of a store that agrees with the chain saves what is missing up to the head. -/
theorem Chain.Agrees.returns (cfg : Config) (ha : c.Agrees w.store) (hmax : c.head.toNat + 1 < 2 ^ 64) {k : ℕ}
    (hk : c.head.toNat + 1 - (nextNumber cfg w.store).toNat = k) : ∃ w', Returns cfg c w w' ∧
      w'.store = (c.saves cfg c.head (span k (nextNumber cfg w.store)) w.store).promoted cfg c.head ∧
      published w'.log = published w.log ++ c.announcements cfg c.head (span k (nextNumber cfg w.store)) := by
  obtain ⟨w₁, s₁, p₁, e₁⟩ := eval_sync_agrees cfg ha
  obtain ⟨w₂, e₂, s₂, p₂⟩ := eval_indexFrom cfg (UInt64.le_refl _) hmax hk (s₁.symm ▸ ha)
  obtain ⟨w₃, e₃, s₃, p₃⟩ := eval_promote (c := c) (w := w₂) cfg c.head
  refine ⟨w₃, ⟨k, fun ctx hctx ↦ by rw [e₁, e₂ ctx hctx, e₃]⟩, by rw [s₃, s₂, s₁], by rw [p₃, p₂, p₁]⟩

/-- With the last number of its type as the head, a sync ends only with its context. -/
theorem Chain.Agrees.not_returns (cfg : Config) (ha : c.Agrees w.store) (hmax : c.head.toNat + 1 = 2 ^ 64)
    (w' : World Unit MemStore) : ¬ Returns cfg c w w' := by
  rintro ⟨N, hN⟩
  obtain ⟨w₁, s₁, -, e₁⟩ := eval_sync_agrees cfg ha
  obtain ⟨w₂, e₂⟩ := eval_indexFrom_max cfg (UInt64.le_refl _) hmax N _ (s₁.symm ▸ ha)
  have h := hN N le_rfl
  rw [e₁, e₂] at h
  cases congrArg Prod.fst h

end Eval

end EventPlatform.ChainMonitor
