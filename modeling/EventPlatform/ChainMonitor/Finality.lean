import EventPlatform.ChainMonitor.Agreement
import EventPlatform.ChainMonitor.Reorg

namespace EventPlatform.ChainMonitor

open Ethereum Interaction Prog

variable [GoEthereum]

def Chain.Deep (cfg : Config) (c : Chain) (n : UInt64) : Prop :=
  n.toNat + cfg.confirmations.toNat ≤ c.head.toNat

/-- A block that is deep enough at some moment is never replaced after it. -/
def DepthBound (cfg : Config) (canon : ℕ → Chain) : Prop :=
  ∀ t t', t ≤ t' → ∀ n, (canon t).Deep cfg n → n ≤ (canon t').head ∧ (canon t').header n = (canon t).header n

/-- The messages that announce block `n` as confirmed. -/
def Event.Confirms (n : UInt64) : Event → Prop
  | .chainBlock m _ _ f | .chainTransfer m _ _ _ _ _ f => m = n ∧ f = true
  | .chainReorg _ => False

/-- Block `n` holds a confirmed transfer or was announced as confirmed. -/
def Confirmed (n : UInt64) (s : MemStore) (log : List Act) : Prop :=
  (∃ t ∈ s.transfers, t.block = n ∧ t.confirmed = true) ∨ ∃ e ∈ published log, e.Confirms n

/-- The successful calls that remove block `n` or announce its removal. -/
def Undoes (n : UInt64) : Act → Prop
  | ⟨.deleteFrom m, .ok _⟩ => m ≤ n
  | ⟨.publish (.chainReorg m), _⟩ => m ≤ n
  | _ => False

/-- Every stored block that is deep on the chain is the one of the chain. -/
def Chain.Settled (cfg : Config) (c : Chain) (s : MemStore) : Prop :=
  ∀ b ∈ s.index, c.Deep cfg b.number → b.hash = c.hashAt b.number

def Sealed (cfg : Config) (canon : ℕ → Chain) (n : UInt64) (w : World Clock MemStore) : Prop :=
  n ∈ w.store.blocks ∧ ∃ t ≤ w.backend.asked, (canon t).Deep cfg n ∧ (canon t).Settled cfg w.store

section Steps

variable {canon : ℕ → Chain} {cfg : Config} {p p' : Point} {faults : Prop} {w w' : World Clock MemStore}
  {c : Call} {r : Except Err c.Reply}

theorem asked_mono (hs : Step (headersBackend canon).lossy MemStore.store faults w c r w') :
    w.backend.asked ≤ w'.backend.asked := by
  cases hs with
  | header h =>
    obtain ⟨hnow, hk, -⟩ | ⟨hk, -⟩ := h
    · have := w.backend.le
      simp only [World.answer]
      omega
    · rw [World.answer, hk]
  | logs h =>
    obtain ⟨-, hk⟩ | ⟨hk, -⟩ := h
    · exact hk.ge
    · rw [World.answer, hk]
  | _ => exact le_rfl

theorem DepthBound.hashAt (hd : DepthBound cfg canon) {t t' : ℕ} (ht : t ≤ t') {n : UInt64}
    (hn : (canon t).Deep cfg n) : (canon t').hashAt n = (canon t).hashAt n := by
  simp only [Chain.hashAt, (hd t t' ht n hn).2]

/-- No step of a run puts a block of another chain below the depth bound. -/
theorem Chain.Settled.move (hd : DepthBound cfg canon) {t : ℕ} (h : (canon t).Settled cfg w.store)
    (ht : t ≤ w.backend.asked) (hr : p.Read canon w.backend) (hm : Move cfg p c r p')
    (hs : Step (headersBackend canon).lossy MemStore.store faults w c r w') :
    (canon t).Settled cfg w'.store := by
  cases hs with
  | saveBlock hb =>
    obtain ⟨head, n, hdr, rfl, rfl, -, -⟩ := hm.of_saveBlock
    cases hb
    obtain ⟨-, rfl⟩ := hr
    intro b hb hdeep
    obtain rfl | hb := MemStore.mem_index_saveBlock hb
    · exact hd.hashAt ht hdeep
    · exact h b hb hdeep
  | deleteFrom hb =>
    cases hb
    intro b hb
    rw [World.answer, MemStore.index_deleteFrom] at hb
    exact h b (List.mem_filter.mp hb).1
  | confirmThrough hb =>
    cases hb
    exact h
  | _ => exact h

/-- A rollback never reaches down to a sealed block. -/
theorem Sealed.lt_rollback (hd : DepthBound cfg canon) {n m : UInt64} (h : Sealed cfg canon n w)
    (hst : (Point.rollback m).Stale canon w.backend w.store) : n < m := by
  obtain ⟨-, t, ht, hdeep, hset⟩ := h
  obtain ⟨-, b, hb, rfl, hne⟩ := hst
  rw [← UInt64.not_le]
  intro hle
  have hdb : (canon t).Deep cfg b.number := by
    have := UInt64.le_iff_toNat_le.mp hle
    unfold Chain.Deep at hdeep ⊢
    omega
  exact hne (by rw [hset b hb hdb, hd.hashAt ht hdb])

theorem Sealed.move (hd : DepthBound cfg canon) {n : UInt64} (h : Sealed cfg canon n w)
    (hst : p.Stale canon w.backend w.store) (hr : p.Read canon w.backend) (hm : Move cfg p c r p')
    (hs : Step (headersBackend canon).lossy MemStore.store faults w c r w') : Sealed cfg canon n w' := by
  refine ⟨?_, ?_⟩
  · cases hs with
    | saveBlock hb =>
      cases hb
      exact Std.ExtTreeMap.mem_insert.mpr (.inr h.1)
    | deleteFrom hb =>
      cases hb
      obtain ⟨rfl, -⟩ := hm.of_deleteFrom
      obtain ⟨b, hb, rfl⟩ := MemStore.mem_blocks.mp h.1
      refine MemStore.mem_blocks.mpr ⟨b, ?_, rfl⟩
      rw [World.answer, MemStore.index_deleteFrom, List.mem_filter]
      exact ⟨hb, decide_eq_true (h.lt_rollback hd hst)⟩
    | confirmThrough hb =>
      cases hb
      exact h.1
    | _ => exact h.1
  · obtain ⟨-, t, ht, hdeep, hset⟩ := h
    exact ⟨t, ht.trans (asked_mono hs), hdeep, hset.move hd ht hr hm hs⟩

/-- The head number was read at some moment, and from the loop on everything stored is settled
with respect to that moment. -/
def Point.Validated (cfg : Config) (canon : ℕ → Chain) (w : World Clock MemStore) : Point → Prop
  | .head h | .tip h _ => ∃ t ≤ w.backend.asked, (canon t).head = h
  | .loop h _ | .header h _ _ | .linked h _ _ | .fetched h _ _ _ | .announce h _ _ | .done h =>
    ∃ t ≤ w.backend.asked, (canon t).head = h ∧ (canon t).Settled cfg w.store
  | .idle | .rollback _ | .rolled _ | .reverted | .failed => True

/-- The last number of its type was the head at a moment that everything stored is settled with
respect to. -/
def Exhausted (cfg : Config) (canon : ℕ → Chain) (w : World Clock MemStore) : Prop :=
  ∃ t ≤ w.backend.asked, (canon t).head.toNat + 1 = 2 ^ 64 ∧ (canon t).Settled cfg w.store

theorem Exhausted.settled (hd : DepthBound cfg canon) (h : Exhausted cfg canon w) (t : ℕ) :
    (canon t).Settled cfg w.store := by
  obtain ⟨t₀, -, hmax, hset⟩ := h
  intro b hb hdeep
  have hlt := (canon t).head.toNat_lt
  have hdeep₀ : (canon t₀).Deep cfg b.number := by
    unfold Chain.Deep at hdeep ⊢
    omega
  rw [hset b hb hdeep₀]
  rcases le_total t₀ t with ht | ht
  · exact (hd.hashAt ht hdeep₀).symm
  · exact hd.hashAt ht hdeep

theorem Exhausted.move (hd : DepthBound cfg canon) (h : Exhausted cfg canon w)
    (hr : p.Read canon w.backend) (hm : Move cfg p c r p')
    (hs : Step (headersBackend canon).lossy MemStore.store faults w c r w') : Exhausted cfg canon w' := by
  obtain ⟨t, ht, hmax, hset⟩ := h
  exact ⟨t, ht.trans (asked_mono hs), hmax, hset.move hd ht hr hm hs⟩

/-- Agreement with a later chain settles a store with respect to every earlier moment. -/
theorem DepthBound.settled (hd : DepthBound cfg canon) {t t' : ℕ} (ht : t ≤ t') {s : MemStore}
    (h : (canon t').Agrees s) : (canon t).Settled cfg s := by
  intro b hb hdeep
  rw [(h b hb).2, hd.hashAt ht hdeep]

end Steps

/-- Once blocks are removed, what is stored lies below them. -/
def Point.Cleared (s : MemStore) : Point → Prop
  | .rolled n => ∀ m ∈ s.blocks, m < n
  | _ => True

structure Final (cfg : Config) (canon : ℕ → Chain) (p : Point) (w : World Clock MemStore) : Prop where
  within : p.Within
  filed : w.store.Filed
  read : p.Read canon w.backend
  stale : p.Stale canon w.backend w.store
  cleared : p.Cleared w.store
  pending : ∀ e ∈ p.pending, e.isReorg = false
  taken : ∀ b ∈ w.store.index, ∃ hd ∈ canonHeaders canon, b = .ofHeader b.number hd
  linked : w.store.Linked ∧ Tracks p w.store ∨ Exhausted cfg canon w
  validated : p.Validated cfg canon w
  confirmed : ∀ n, (Confirmed n w.store w.log ∨ ∃ e ∈ p.pending, e.Confirms n) → Sealed cfg canon n w

section Final

variable {canon : ℕ → Chain} {cfg : Config} {p p' : Point} {faults : Prop} {w w' : World Clock MemStore}
  {c : Call} {r : Except Err c.Reply}

/-- A tip that matches puts the whole store on the chain that answered. -/
theorem Final.agrees_of_matched (hinj : Set.InjOn GoEthereum.headerHash (canonHeaders canon)) {head : UInt64}
    {b : Block} {hd : Header} (h : Final cfg canon (.tip head b) w) (hl : w.store.Linked)
    (heq : GoEthereum.headerHash hd = b.hash)
    (hs : Step (headersBackend canon).lossy MemStore.store faults w (.headerByNumber (some b.number)) (.ok hd) w') :
    b.number ≤ (canon w'.backend.asked).head ∧ (canon w'.backend.asked).Agrees w.store := by
  obtain ⟨-, hk, ha⟩ := (headersBackend_follows canon).header _ _ _ _ hs.header_inv.1
  rw [← hk] at ha
  obtain ⟨hn, rfl⟩ := Chain.headerByNumber_ok ha
  have ht : Taken (canonHeaders canon) (canon w'.backend.asked) w.store :=
    ⟨hinj, fun n hn ↦ ⟨_, n, hn, rfl⟩, h.taken⟩
  exact ⟨hn, ht.agrees_of_head hl h.stale hn heq.symm⟩

theorem Final.linked_move (hd : DepthBound cfg canon) (hinj : Set.InjOn GoEthereum.headerHash (canonHeaders canon))
    (h : Final cfg canon p w) (hm : Move cfg p c r p')
    (hs : Step (headersBackend canon).lossy MemStore.store faults w c r w') :
    w'.store.Linked ∧ Tracks p' w'.store ∨ Exhausted cfg canon w' := by
  obtain ⟨hl, ht⟩ | hx := h.linked
  · by_cases hlast : ∃ head b, p = .tip head b ∧ p' = .loop head (b.number + 1) ∧ ¬ b.number.toNat + 1 < 2 ^ 64
    · obtain ⟨head, b, rfl, rfl, hb⟩ := hlast
      cases hm with
      | matched _ _ hdr heq =>
        obtain ⟨hn, ha⟩ := h.agrees_of_matched hinj hl heq hs
        have hle := UInt64.le_iff_toNat_le.mp hn
        have hlt := (canon w'.backend.asked).head.toNat_lt
        refine .inr ⟨w'.backend.asked, le_rfl, by omega, ?_⟩
        rw [hs.header_inv.2]
        exact hd.settled le_rfl ha
    · refine .inl (ht.move hm hs hl fun head b hp hp' ↦ ?_)
      by_contra hb
      exact hlast ⟨head, b, hp, hp', hb⟩
  · exact .inr (hx.move hd h.read hm hs)

theorem Final.validated_move (hd : DepthBound cfg canon) (hinj : Set.InjOn GoEthereum.headerHash (canonHeaders canon))
    (h : Final cfg canon p w) (hm : Move cfg p c r p')
    (hs : Step (headersBackend canon).lossy MemStore.store faults w c r w') : p'.Validated cfg canon w' := by
  have hask := asked_mono hs
  have hkeep : ∀ t ≤ w.backend.asked, (canon t).Settled cfg w.store → (canon t).Settled cfg w'.store :=
    fun t ht hset ↦ hset.move hd ht h.read hm hs
  have hval := h.validated
  cases hm with
  | head hdr =>
    obtain ⟨-, hk, ha⟩ := (headersBackend_follows canon).header _ _ _ _ hs.header_inv.1
    rw [← hk] at ha
    exact ⟨w'.backend.asked, le_rfl, (Chain.number64_of_head ha).symm⟩
  | empty head =>
    obtain ⟨t, ht, hh⟩ := hval
    obtain ⟨hb, -, -⟩ := hs.lastBlock_inv
    have hnil : w.store.index = [] := by
      rw [← List.head?_eq_none_iff, ← MemStore.lastBlock_eq]
      exact Except.ok.inj hb
    exact ⟨t, ht.trans hask, hh, hkeep t ht (by simp [Chain.Settled, hnil])⟩
  | last head b =>
    obtain ⟨t, ht, hh⟩ := hval
    exact ⟨t, ht.trans hask, hh⟩
  | matched head b hdr heq =>
    obtain ⟨t, ht, hh⟩ := hval
    refine ⟨t, ht.trans hask, hh, hkeep t ht ?_⟩
    obtain ⟨hl, -⟩ | hx := h.linked
    · exact hd.settled (ht.trans hask) (h.agrees_of_matched hinj hl heq hs).2
    · exact hx.settled hd t
  | header | parent | logs | save | announce | confirm =>
    obtain ⟨t, ht, hh, hset⟩ := hval
    exact ⟨t, ht.trans hask, hh, hkeep t ht hset⟩
  | diverged | orphan | delete | reorg | error => trivial

theorem Final.cleared_move (hm : Move cfg p c r p')
    (hs : Step (headersBackend canon).lossy MemStore.store faults w c r w') : p'.Cleared w'.store := by
  cases hm with
  | delete n =>
    rw [← Except.ok.inj hs.deleteFrom_inv.1]
    intro m hm
    obtain ⟨b, hb, rfl⟩ := MemStore.mem_blocks.mp hm
    rw [MemStore.index_deleteFrom, List.mem_filter] at hb
    exact of_decide_eq_true hb.2
  | _ => trivial

theorem announcement_confirms {b : Block} {ts : List Transfer} {f : Bool} {e : Event} {n : UInt64}
    (he : e ∈ announcement b ts f) (hc : e.Confirms n) : b.number = n ∧ f = true := by
  rcases List.mem_cons.mp he with rfl | he
  · exact hc
  · obtain ⟨t, -, rfl⟩ := List.mem_map.mp he
    exact hc

/-- What a call can newly confirm. -/
inductive Confirms (cfg : Config) (w' : World Clock MemStore) (n : UInt64) : Point → Prop
  | save (head : UInt64) (hd : Header) (ts : List Transfer) : head - n ≥ cfg.confirmations →
      n ∈ w'.store.blocks → Confirms cfg w' n (.fetched head n hd ts)
  | promote (head m : UInt64) : head ≥ cfg.confirmations → n ≤ head - cfg.confirmations →
      n ∈ w'.store.blocks → Confirms cfg w' n (.loop head m)

theorem mem_saved {b : Block} {ts : List Transfer} {f : Bool}
    (hs : Step (headersBackend canon).lossy MemStore.store faults w (.saveBlock b ts f) (.ok ()) w') :
    b.number ∈ w'.store.blocks := by
  rw [← Except.ok.inj hs.saveBlock_inv.1]
  exact Std.ExtTreeMap.mem_insert.mpr (.inl Std.ReflOrd.compare_self)

/-- A transfer is confirmed in the store by a save, by a promotion, or from before. -/
theorem Final.stored_of_move (h : Final cfg canon p w) (hm : Move cfg p c r p')
    (hs : Step (headersBackend canon).lossy MemStore.store faults w c r w') {n : UInt64}
    (hn : ∃ t ∈ w'.store.transfers, t.block = n ∧ t.confirmed = true) :
    (∃ t ∈ w.store.transfers, t.block = n ∧ t.confirmed = true) ∨ Confirms cfg w' n p := by
  have hsame : w'.store = w.store →
      (∃ t ∈ w.store.transfers, t.block = n ∧ t.confirmed = true) ∨ Confirms cfg w' n p := by
    intro hst
    rw [hst] at hn
    exact .inl hn
  cases hm with
  | head | diverged | matched | header => exact hsame hs.header_inv.2
  | empty | last => exact hsame hs.lastBlock_inv.2.1
  | orphan | parent => exact hsame hs.blockByNumber_inv.2.1
  | logs => exact hsame hs.logs_inv.2
  | error hm hc e => exact hsame hs.store_of_error
  | reorg | announce => exact hsame hs.publish_inv.2
  | delete m =>
    have hst := Except.ok.inj hs.deleteFrom_inv.1
    obtain ⟨t, ht, htn⟩ := hn
    rw [← hst, MemStore.deleteFrom, List.mem_filter] at ht
    exact .inl ⟨t, ht.1, htn⟩
  | save head m hd ts =>
    have hst := Except.ok.inj hs.saveBlock_inv.1
    obtain ⟨t, ht, htn, htc⟩ := hn
    rw [← hst, MemStore.saveBlock, List.mem_append] at ht
    obtain ht | ht := ht
    · exact .inl ⟨t, ht, htn, htc⟩
    · obtain ⟨u, -, rfl⟩ := List.mem_map.mp ht
      cases htn
      exact .inr (.save head hd ts (of_decide_eq_true htc) (mem_saved hs))
  | confirm head m hm hc =>
    have hst := Except.ok.inj hs.confirmThrough_inv.1
    obtain ⟨t, ht, htn, htc⟩ := hn
    rw [← hst] at ht
    obtain ⟨u, hu, rfl⟩ := MemStore.mem_confirmThrough ht
    rw [StoredTransfer.confirmTo_block] at htn
    subst htn
    by_cases hle : u.block ≤ head - cfg.confirmations
    · refine .inr (.promote head m hc hle ?_)
      rw [← hst]
      exact h.filed u hu
    · rw [StoredTransfer.confirmTo, if_neg hle] at htc
      exact .inl ⟨u, hu, rfl, htc⟩

/-- An event that confirms was published or pending before, or belongs to the block that has just been saved. -/
theorem event_of_move (hm : Move cfg p c r p')
    (hs : Step (headersBackend canon).lossy MemStore.store faults w c r w') {n : UInt64} {e : Event}
    (he : e ∈ published w'.log ∨ e ∈ p'.pending) (hen : e.Confirms n) :
    e ∈ published w.log ∨ e ∈ p.pending ∨ Confirms cfg w' n p := by
  have hquiet : c.isPublish = false → p'.pending = [] → e ∈ published w.log ∨ e ∈ p.pending ∨ Confirms cfg w' n p := by
    intro hc hp
    rw [hs.published_eq hc, hp, or_iff_left List.not_mem_nil] at he
    exact .inl he
  cases hm with
  | head | diverged | matched | header | empty | last | orphan | parent | logs | delete
  | confirm => exact hquiet rfl rfl
  | error hm hc e => exact hquiet hc rfl
  | reorg m r =>
    rw [hs.published_publish, List.mem_append, List.mem_singleton] at he
    obtain (he | rfl) | he := he
    · exact .inl he
    · cases hen
    · cases he
  | announce head m e' es r =>
    rw [hs.published_publish, List.mem_append, List.mem_singleton] at he
    obtain (he | rfl) | he := he
    · exact .inl he
    · exact .inr (.inl List.mem_cons_self)
    · exact .inr (.inl (List.mem_cons_of_mem _ he))
  | save head m hd ts =>
    rw [hs.published_eq rfl] at he
    obtain he | he := he
    · exact .inl he
    · obtain ⟨rfl, hf⟩ := announcement_confirms he hen
      exact .inr (.inr (.save head hd ts (of_decide_eq_true hf) (mem_saved hs)))

theorem Final.confirms_of_move (h : Final cfg canon p w) (hm : Move cfg p c r p')
    (hs : Step (headersBackend canon).lossy MemStore.store faults w c r w') {n : UInt64}
    (hn : Confirmed n w'.store w'.log ∨ ∃ e ∈ p'.pending, e.Confirms n) :
    (Confirmed n w.store w.log ∨ ∃ e ∈ p.pending, e.Confirms n) ∨ Confirms cfg w' n p := by
  have hevent {e : Event} (he : e ∈ published w'.log ∨ e ∈ p'.pending) (hen : e.Confirms n) :
      (Confirmed n w.store w.log ∨ ∃ e ∈ p.pending, e.Confirms n) ∨ Confirms cfg w' n p := by
    obtain he | he | hnew := event_of_move hm hs he hen
    · exact .inl (.inl (.inr ⟨e, he, hen⟩))
    · exact .inl (.inr ⟨e, he, hen⟩)
    · exact .inr hnew
  obtain (ht | ⟨e, he, hen⟩) | ⟨e, he, hen⟩ := hn
  · exact (h.stored_of_move hm hs ht).imp_left fun ht ↦ .inl (.inl ht)
  · exact hevent (.inl he) hen
  · exact hevent (.inr he) hen

theorem Final.confirmed_move (hd : DepthBound cfg canon)
    (h : Final cfg canon p w) (hm : Move cfg p c r p')
    (hs : Step (headersBackend canon).lossy MemStore.store faults w c r w') (n : UInt64)
    (hn : Confirmed n w'.store w'.log ∨ ∃ e ∈ p'.pending, e.Confirms n) : Sealed cfg canon n w' := by
  obtain hold | hnew := h.confirms_of_move hm hs hn
  · exact (h.confirmed n hold).move hd h.stale h.read hm hs
  · cases hnew with
    | save head hdr ts hc hmem =>
      obtain ⟨t, ht, rfl, hset⟩ := h.validated
      refine ⟨hmem, t, ht.trans (asked_mono hs), ?_, hset.move hd ht h.read hm hs⟩
      have := (le_sub_iff h.within).mp hc
      unfold Chain.Deep
      omega
    | promote head m hc hle hmem =>
      obtain ⟨t, ht, rfl, hset⟩ := h.validated
      exact ⟨hmem, t, ht.trans (asked_mono hs), (le_sub_iff hc).mp hle, hset.move hd ht h.read hm hs⟩

theorem Final.not_undoes (hd : DepthBound cfg canon) (h : Final cfg canon p w) (hm : Move cfg p c r p')
    {n : UInt64} (hn : Confirmed n w.store w.log) : ¬ Undoes n ⟨c, r⟩ := by
  have hseal := h.confirmed n (.inl hn)
  cases hm with
  | delete m => exact UInt64.not_le.mpr (hseal.lt_rollback hd h.stale)
  | reorg m r => exact UInt64.not_le.mpr (h.cleared n hseal.1)
  | announce head m e es r =>
    have he := h.pending e List.mem_cons_self
    cases e with
    | chainReorg m => cases he
    | _ => exact id
  | error hm hc e => cases c <;> first | exact id | cases hc
  | _ => exact id

theorem Final.confirmed_stays (hd : DepthBound cfg canon) (h : Final cfg canon p w) (hm : Move cfg p c r p')
    (hs : Step (headersBackend canon).lossy MemStore.store faults w c r w') {n : UInt64}
    (hn : Confirmed n w.store w.log) : Confirmed n w'.store w'.log := by
  have hseal := h.confirmed n (.inl hn)
  obtain ⟨t, ht, rfl, htc⟩ | ⟨e, he, hen⟩ := hn
  · refine .inl ?_
    cases hs with
    | saveBlock hb =>
      cases hb
      exact ⟨t, List.mem_append_left _ ht, rfl, htc⟩
    | deleteFrom hb =>
      cases hb
      obtain ⟨rfl, -⟩ := hm.of_deleteFrom
      exact ⟨t, List.mem_filter.mpr ⟨ht, decide_eq_true (hseal.lt_rollback hd h.stale)⟩, rfl, htc⟩
    | confirmThrough hb =>
      cases hb
      refine ⟨t.confirmTo _, List.mem_map_of_mem ht, t.confirmTo_block _, ?_⟩
      unfold StoredTransfer.confirmTo
      split
      · rfl
      · exact htc
    | _ => exact ⟨t, ht, rfl, htc⟩
  · refine .inr ⟨e, ?_, hen⟩
    rw [hs.log, published_append]
    exact List.mem_append_left _ he

/-- What one call keeps of the confirmed blocks. -/
def Keeps (w : World Clock MemStore) (c : Call) (r : Except Err c.Reply) (w' : World Clock MemStore) : Prop :=
  w'.log = w.log ++ [⟨c, r⟩] ∧
    ∀ n, Confirmed n w.store w.log → ¬ Undoes n ⟨c, r⟩ ∧ Confirmed n w'.store w'.log

theorem Final.silent (h : Final cfg canon p w) (hm : Silent cfg p p') : Final cfg canon p' w where
  within := hm.within h.within
  filed := h.filed
  read := h.read.silent hm
  stale := by cases hm <;> trivial
  cleared := by cases hm <;> trivial
  pending := by cases hm <;> simp [Point.pending]
  taken := h.taken
  linked := by
    obtain ⟨hl, ht⟩ | hx := h.linked
    · by_cases hlast : ∃ head n es, p = .announce head n es ∧ ¬ n.toNat + 1 < 2 ^ 64
      · obtain ⟨head, n, es, rfl, hn⟩ := hlast
        obtain ⟨t, hask, rfl, hset⟩ := h.validated
        have hle := UInt64.le_iff_toNat_le.mp h.within
        have hlt := (canon t).head.toNat_lt
        exact .inr ⟨t, hask, by omega, hset⟩
      · refine .inl ⟨hl, ht.silent hm fun head n es hp ↦ ?_⟩
        by_contra hn
        exact hlast ⟨head, n, es, hp, hn⟩
    · exact .inr hx
  validated := by
    have hval := h.validated
    cases hm with
    | genesis | next | shallow => exact hval
    | cancel | finish | revert | fail => trivial
  confirmed n hn := by
    refine h.confirmed n (hn.imp_right ?_)
    cases hm <;> simp [Point.pending]

def finality (hd : DepthBound cfg canon) (hinj : Set.InjOn GoEthereum.headerHash (canonHeaders canon)) :
    Outline cfg (Step (headersBackend canon).lossy MemStore.store faults) Keeps where
  inv := Final cfg canon
  move hm hs h :=
    ⟨⟨hs.log, fun _ hn ↦ ⟨h.not_undoes hd hm hn, h.confirmed_stays hd hm hs hn⟩⟩,
      { within := hm.within h.within
        filed := h.filed.move hs
        read := h.read.move (headersBackend_follows canon) hm hs
        stale := h.stale.move (headersBackend_follows canon) h.read hm hs
        cleared := Final.cleared_move hm hs
        pending := hm.pending_isReorg h.pending
        taken := h.read.taken_move h.taken hm hs
        linked := h.linked_move hd hinj hm hs
        validated := h.validated_move hd hinj hm hs
        confirmed := h.confirmed_move hd hm hs }⟩
  silent hm h := h.silent hm

theorem final_newMemStore : Final cfg canon .idle ⟨.start, .newMemStore, []⟩ where
  within := trivial
  filed := by simp [MemStore.Filed, MemStore.newMemStore]
  read := trivial
  stale := trivial
  cleared := trivial
  pending := by simp [Point.pending]
  taken := by simp
  linked := .inl ⟨MemStore.linked_newMemStore, trivial⟩
  validated := trivial
  confirmed n hn := by simp [Confirmed, published, MemStore.newMemStore, Point.pending] at hn

omit [GoEthereum] in
/-- A confirmed block keeps its state along any run that keeps it call by call. -/
theorem keeps_of_reflTransGen (h : Relation.ReflTransGen (fun a b ↦ ∃ c r, Keeps a c r b) w w') {n : UInt64}
    (hn : Confirmed n w.store w.log) :
    ∃ δ, w'.log = w.log ++ δ ∧ (∀ a ∈ δ, ¬ Undoes n a) ∧ Confirmed n w'.store w'.log := by
  induction h with
  | refl => exact ⟨[], by simp, by simp, hn⟩
  | tail _ hk ih =>
    obtain ⟨δ, hlog, hδ, hc⟩ := ih
    obtain ⟨c, r, hlog', hkeep⟩ := hk
    obtain ⟨hu, hc'⟩ := hkeep n hc
    refine ⟨δ ++ [⟨c, r⟩], by rw [hlog', hlog, List.append_assoc], ?_, hc'⟩
    intro a ha
    rcases List.mem_append.mp ha with ha | ha
    · exact hδ a ha
    · rwa [List.mem_singleton.mp ha]

theorem Sealed.canonical (hd : DepthBound cfg canon) {n : UInt64} (h : Sealed cfg canon n w) :
    ∃ b, w.store.blocks[n]? = some b ∧
      ∀ t ≥ w.backend.now, n ≤ (canon t).head ∧ b.hash = (canon t).hashAt n := by
  obtain ⟨hmem, t₀, ht₀, hdeep, hset⟩ := h
  obtain ⟨b, hb, rfl⟩ := MemStore.mem_blocks.mp hmem
  refine ⟨b, MemStore.mem_index.mp hb, fun t ht ↦ ?_⟩
  have hle : t₀ ≤ t := (ht₀.trans w.backend.le).trans ht
  exact ⟨(hd t₀ t hle b.number hdeep).1, by rw [hset b hb hdeep, hd.hashAt hle hdeep]⟩

end Final

/-- Reorganisations only touch unconfirmed data: what is confirmed at `w₁` is neither removed nor
announced as removed on the way to `w₂`, and is stored there as the canonical block from then on. -/
theorem confirmed_final (cfg : Config) (canon : ℕ → Chain) (hdepth : DepthBound cfg canon)
    (hinj : Set.InjOn GoEthereum.headerHash (canonHeaders canon)) (ticks : List ℕ) (q₁ q₂ : M Unit)
    (w₁ w₂ : World Clock MemStore)
    (h₁ : Run (Step (headersBackend canon).lossy MemStore.store True) (run cfg ticks)
      ⟨.start, .newMemStore, []⟩ q₁ w₁)
    (h₂ : Run (Step (headersBackend canon).lossy MemStore.store True) q₁ w₁ q₂ w₂)
    (n : UInt64) (hn : Confirmed n w₁.store w₁.log) :
    (∃ δ, w₂.log = w₁.log ++ δ ∧ ∀ m ≤ n, ⟨.deleteFrom m, .ok ()⟩ ∉ δ ∧ ∀ r, ⟨.publish (.chainReorg m), r⟩ ∉ δ) ∧
      ∃ b, w₂.store.blocks[n]? = some b ∧
        ∀ t ≥ w₂.backend.now, n ≤ (canon t).head ∧ b.hash = (canon t).hashAt n := by
  let o : Outline cfg (Step (headersBackend canon).lossy MemStore.store True) Keeps := finality hdepth hinj
  have hsafe := ((o.safe_run ticks final_newMemStore).run h₁).1
  obtain ⟨δ, hlog, hδ, hc⟩ := keeps_of_reflTransGen (hsafe.run h₂).2 hn
  obtain ⟨p, hp⟩ := o.reachable final_newMemStore (h₁.trans h₂)
  refine ⟨⟨δ, hlog, fun m hm ↦ ⟨fun ha ↦ hδ _ ha hm, fun r ha ↦ hδ _ ha hm⟩⟩, ?_⟩
  exact (Final.confirmed hp n (.inl hc)).canonical hdepth

/-- Two chains that differ in their third block. -/
def tips (second : Bool) : Chain :=
  buildChain 2 (if second then 2 else 3) (if second then 1 else 0) fun n ↦ [transferLog n.toUInt8]

omit [GoEthereum] in
theorem tips_depthBound (second : ℕ → Bool) : letI := testEthereum
    DepthBound ⟨1, 0, []⟩ fun t ↦ tips (second t) := by
  let := testEthereum
  have hshare : ∀ a b, ∀ i ≤ 1, (tips a).header (.ofNat i) = (tips b).header (.ofNat i) := by decide
  intro t t' _ n hn
  have hn' : n.toNat + 1 ≤ 2 := hn
  have heq := hshare (second t') (second t) n.toNat (by omega)
  rw [UInt64.ofNat_toNat] at heq
  exact ⟨UInt64.le_iff_toNat_le.mpr (show n.toNat ≤ 2 by omega), heq⟩

omit [GoEthereum] in
theorem tips_injOn (second : ℕ → Bool) : letI := testEthereum
    Set.InjOn GoEthereum.headerHash (canonHeaders fun t ↦ tips (second t)) := by
  let := testEthereum
  have hmem : ∀ a, ∀ i ≤ 2, (tips a).header (.ofNat i) ∈ testHashes.map Prod.fst := by decide
  refine testEthereum_injOn.mono ?_
  rintro _ ⟨t, n, hn, rfl⟩
  have hle : n.toNat ≤ 2 := UInt64.le_iff_toNat_le.mp hn
  have hi := hmem (second t) n.toNat hle
  rwa [UInt64.ofNat_toNat] at hi

/-- One sync while the chain switches to its second form after seven calls. -/
def syncTips (w : World Clock MemStore) : World Clock MemStore :=
  ((sync ⟨1, 0, []⟩ 5).eval ((canonicalOracle fun t ↦ tips (7 < t)).respond MemStore.store) w).2

theorem run_syncTips (ticks : List ℕ) (w : World Clock MemStore) :
    Run (Step (headersBackend fun t ↦ tips (7 < t)).lossy MemStore.store True) (run ⟨1, 0, []⟩ (5 :: ticks)) w
      (run ⟨1, 0, []⟩ ticks) (syncTips w) :=
  (canonicalOracle_conforms_headers fun t ↦ tips (7 < t)).run_cons _ _ 5 ticks w

omit [GoEthereum] in
theorem confirmed_final_tips :
    letI := testEthereum
    let w₁ := syncTips ⟨.start, .newMemStore, []⟩
    let w₂ := syncTips (syncTips w₁)
    Confirmed 1 w₁.store w₁.log ∧ .chainReorg 2 ∈ published w₂.log ∧
      ∃ b, w₂.store.blocks[(1 : UInt64)]? = some b ∧
        ∀ t ≥ w₂.backend.now, 1 ≤ (tips (7 < t)).head ∧ b.hash = (tips (7 < t)).hashAt 1 := by
  intro w₁ w₂
  let := testEthereum
  have hn : Confirmed 1 w₁.store w₁.log := .inl (by decide +kernel)
  have h₂ := (run_syncTips [5] w₁).trans (run_syncTips [] (syncTips w₁))
  have hf := confirmed_final ⟨1, 0, []⟩ (fun t ↦ tips (7 < t)) (tips_depthBound _) (tips_injOn _)
    [5, 5, 5] _ _ w₁ w₂ (run_syncTips [5, 5] _) h₂ 1 hn
  exact ⟨hn, by decide +kernel, hf.2⟩

end EventPlatform.ChainMonitor
