import EventPlatform.ChainMonitor.World

namespace EventPlatform.ChainMonitor

open Ethereum Interaction Prog

theorem toNat_succ {n : UInt64} (h : n.toNat + 1 < 2 ^ 64) : (n + 1).toNat = n.toNat + 1 := by
  rw [UInt64.toNat_add]
  exact Nat.mod_eq_of_lt h

theorem toNat_pred {n : UInt64} (h : 0 < n) : n.toNat = (n - 1).toNat + 1 := by
  have hn : 0 < n.toNat := UInt64.lt_iff_toNat_lt.mp h
  have hle : (1 : UInt64) ≤ n := UInt64.le_iff_toNat_le.mpr hn
  have h1 : (1 : UInt64).toNat = 1 := rfl
  rw [UInt64.toNat_sub_of_le _ _ hle, h1]
  omega

theorem le_sub_iff {a b c : UInt64} (h : c ≤ b) : a ≤ b - c ↔ a.toNat + c.toNat ≤ b.toNat := by
  have hc := UInt64.le_iff_toNat_le.mp h
  rw [UInt64.le_iff_toNat_le, UInt64.toNat_sub_of_le _ _ h]
  omega

/-- The `k` numbers from `n` upwards. -/
def span : ℕ → UInt64 → List UInt64
  | 0, _ => []
  | k + 1, n => n :: span k (n + 1)

theorem mem_span {k : ℕ} {n : UInt64} (hk : n.toNat + k ≤ 2 ^ 64) {m : UInt64} :
    m ∈ span k n ↔ n.toNat ≤ m.toNat ∧ m.toNat < n.toNat + k := by
  induction k generalizing n with
  | zero =>
    simp only [span, List.not_mem_nil, false_iff]
    omega
  | succ k ih =>
    rw [span, List.mem_cons, ← UInt64.toNat_inj]
    rcases Nat.eq_zero_or_pos k with rfl | hpos
    · simp only [span, List.not_mem_nil, or_false]
      omega
    · have hn := toNat_succ (show n.toNat + 1 < 2 ^ 64 by omega)
      rw [ih (by omega)]
      omega

theorem span_ascending {k : ℕ} {n : UInt64} (hk : n.toNat + k ≤ 2 ^ 64) :
    (span k n).Pairwise fun a b ↦ a.toNat < b.toNat := by
  induction k generalizing n with
  | zero => exact List.Pairwise.nil
  | succ k ih =>
    rcases Nat.eq_zero_or_pos k with rfl | hpos
    · exact List.pairwise_singleton _ _
    · have hn := toNat_succ (show n.toNat + 1 < 2 ^ 64 by omega)
      refine List.pairwise_cons.mpr ⟨fun m hm ↦ ?_, ih (by omega)⟩
      have := (mem_span (by omega)).mp hm
      omega

theorem span_succ {k : ℕ} {n m : UInt64} (hm : m.toNat = n.toNat + k) : span (k + 1) n = span k n ++ [m] := by
  induction k generalizing n with
  | zero => rw [span, span, span, UInt64.toNat_inj.mp hm, List.nil_append]
  | succ k ih =>
    have hn := toNat_succ (show n.toNat + 1 < 2 ^ 64 by have := m.toNat_lt; omega)
    rw [span, ih (by omega)]
    rfl

/-- A backend whose answers are a function of its state. -/
structure Oracle (B : Type) where
  header : B → Option UInt64 → Except Err Header × B
  logs : B → FilterQuery → Except Err (List Log) × B

namespace Oracle

variable {B S : Type}

def respond (o : Oracle B) (st : Store S) : Responder Err Call.Reply (World B S) := fun w c ↦
  match c with
  | .headerByNumber q =>
    let a := o.header w.backend q
    (a.1, w.answer (.headerByNumber q) a.1 a.2 w.store)
  | .filterLogs q =>
    let a := o.logs w.backend q
    (a.1, w.answer (.filterLogs q) a.1 a.2 w.store)
  | .saveBlock b ts f =>
    match st.saveBlock b ts f w.store with
    | .ok s => (.ok (), w.answer (.saveBlock b ts f) (.ok ()) w.backend s)
    | .error e => (.error e, w.answer (.saveBlock b ts f) (.error e) w.backend w.store)
  | .lastBlock =>
    (st.lastBlock w.store, w.answer .lastBlock (st.lastBlock w.store) w.backend w.store)
  | .blockByNumber n =>
    (st.blockByNumber n w.store,
      w.answer (.blockByNumber n) (st.blockByNumber n w.store) w.backend w.store)
  | .deleteFrom n =>
    match st.deleteFrom n w.store with
    | .ok s => (.ok (), w.answer (.deleteFrom n) (.ok ()) w.backend s)
    | .error e => (.error e, w.answer (.deleteFrom n) (.error e) w.backend w.store)
  | .confirmThrough n =>
    match st.confirmThrough n w.store with
    | .ok s => (.ok (), w.answer (.confirmThrough n) (.ok ()) w.backend s)
    | .error e => (.error e, w.answer (.confirmThrough n) (.error e) w.backend w.store)
  | .publish e => (.ok (), w.answer (.publish e) (.ok ()) w.backend w.store)

/-- The backend `be` may give every answer of `o`. -/
def Conforms (o : Oracle B) (be : Backend B) : Prop :=
  (∀ b q, be.header b q (o.header b q).1 (o.header b q).2) ∧
    ∀ b q, be.logs b q (o.logs b q).1 (o.logs b q).2

theorem Conforms.step {o : Oracle B} {be : Backend B} (h : o.Conforms be) {st : Store S} {faults : Prop}
    {w w' : World B S} {c : Call} {r : Except Err c.Reply} (hs : (o.respond st).graph w c r w') :
    Step be st faults w c r w' := by
  unfold Responder.graph respond at hs
  cases c with
  | headerByNumber q =>
    cases hs
    exact .header (h.1 _ _)
  | filterLogs q =>
    cases hs
    exact .logs (h.2 _ _)
  | saveBlock b ts f =>
    dsimp only at hs
    split at hs <;> cases hs
    · exact .saveBlock ‹_›
    · exact .saveBlockErr ‹_›
  | lastBlock =>
    cases hs
    exact .lastBlock rfl
  | blockByNumber n =>
    cases hs
    exact .blockByNumber rfl
  | deleteFrom n =>
    dsimp only at hs
    split at hs <;> cases hs
    · exact .deleteFrom ‹_›
    · exact .deleteFromErr ‹_›
  | confirmThrough n =>
    dsimp only at hs
    split at hs <;> cases hs
    · exact .confirmThrough ‹_›
    · exact .confirmThroughErr ‹_›
  | publish e =>
    cases hs
    exact .publish

/-- The run that the oracle determines is one of the runs against the backend. -/
theorem Conforms.run {o : Oracle B} {be : Backend B} (h : o.Conforms be) (st : Store S) {faults : Prop}
    {α : Type} (p : M α) (w : World B S) :
    Run (Step be st faults) p w (ofExcept (p.eval (o.respond st) w).1) (p.eval (o.respond st) w).2 :=
  (run_eval (o.respond st) p w).mono fun _ _ _ _ ↦ h.step

end Oracle

variable [GoEthereum]

theorem Oracle.Conforms.run_cons {B S : Type} {o : Oracle B} {be : Backend B} (h : o.Conforms be) (st : Store S)
    {faults : Prop} (cfg : Config) (ctx : ℕ) (ticks : List ℕ) (w : World B S) :
    Run (Step be st faults) (ChainMonitor.run cfg (ctx :: ticks)) w (ChainMonitor.run cfg ticks)
      ((sync cfg ctx).eval (o.respond st) w).2 := by
  have hr : Run (Step be st faults) (attempt (sync cfg ctx)) w _ _ := h.run st (attempt (sync cfg ctx)) w
  rw [eval_attempt] at hr
  exact hr.bind fun _ ↦ ChainMonitor.run cfg ticks

theorem eval_run {W : Type} (h : Responder Err Call.Reply W) (cfg : Config) (ticks : List ℕ) (w : W) :
    ((run cfg ticks).eval h w).1 = .ok () := by
  induction ticks generalizing w with
  | nil => rfl
  | cons ctx ticks ih =>
    rw [run, eval_bind, eval_attempt]
    exact ih _

theorem Oracle.Conforms.run_ticks {B S : Type} {o : Oracle B} {be : Backend B} (h : o.Conforms be) (st : Store S)
    {faults : Prop} (cfg : Config) (ticks : List ℕ) (w : World B S) :
    Run (Step be st faults) (ChainMonitor.run cfg ticks) w (.ret ())
      ((ChainMonitor.run cfg ticks).eval (o.respond st) w).2 := by
  have hr : Run (Step be st faults) _ w _ _ := h.run st (ChainMonitor.run cfg ticks) w
  rwa [eval_run] at hr

/-- A chain from number zero to its head, each header built on the one below. -/
structure Chain where
  head : UInt64
  header : UInt64 → Header
  logs : UInt64 → List Log
  number_eq : ∀ n ≤ head, (header n).number = n.toNat
  linked : ∀ n < head, (header (n + 1)).parentHash = GoEthereum.headerHash (header n)

namespace Chain

variable (c : Chain)

def headerByNumber : Option UInt64 → Except Err Header
  | none => .ok (c.header c.head)
  | some n => if n ≤ c.head then .ok (c.header n) else .error .notFound

/-- The logs that the filter selects, from the blocks of its range. -/
def filterLogs (q : FilterQuery) : List Log :=
  (List.range' q.fromBlock.toNat (q.toBlock.toNat + 1 - q.fromBlock.toNat)).flatMap fun n ↦
    if n ≤ c.head.toNat then (c.logs (.ofNat n)).filter q.selects else []

/-- The transfers that block `n` holds for the configured tokens. -/
def transfers (cfg : Config) (n : UInt64) : List Transfer :=
  ((c.logs n).filter (transferQuery cfg n).selects).filterMap decode

def block (n : UInt64) : Block := .ofHeader n (c.header n)

def hashAt (n : UInt64) : Hash := GoEthereum.headerHash (c.header n)

def oracle : Oracle Unit where
  header _ q := (c.headerByNumber q, ())
  logs _ q := (.ok (c.filterLogs q), ())

theorem head_number64 : (c.header c.head).number64 = c.head := by
  rw [Header.number64, c.number_eq c.head (UInt64.le_refl _), UInt64.ofNat_toNat]

variable {c} {n : UInt64} {hd : Header}

theorem parentHash_eq (hn : 0 < n) (hc : n ≤ c.head) : (c.header n).parentHash = c.hashAt (n - 1) := by
  have hpn := toNat_pred hn
  have hle := UInt64.le_iff_toNat_le.mp hc
  have hl := c.linked (n - 1) (UInt64.lt_iff_toNat_lt.mpr (by omega))
  rwa [UInt64.sub_add_cancel] at hl

theorem headerByNumber_of_le (hn : n ≤ c.head) : c.headerByNumber (some n) = .ok (c.header n) := if_pos hn

theorem headerByNumber_of_lt (hn : c.head < n) : c.headerByNumber (some n) = .error .notFound :=
  if_neg (UInt64.not_le.mpr hn)

theorem headerByNumber_ok (h : .ok hd = c.headerByNumber (some n)) : n ≤ c.head ∧ c.header n = hd := by
  by_cases hn : n ≤ c.head
  · rw [headerByNumber_of_le hn] at h
    cases h
    exact ⟨hn, rfl⟩
  · rw [headerByNumber_of_lt (UInt64.not_le.mp hn)] at h
    cases h

theorem number64_of_head (h : .ok hd = c.headerByNumber none) : hd.number64 = c.head := by
  cases h
  exact c.head_number64

theorem filterLogs_transferQuery (cfg : Config) (hn : n ≤ c.head) :
    (c.filterLogs (transferQuery cfg n)).filterMap decode = c.transfers cfg n := by
  have hle := UInt64.le_iff_toNat_le.mp hn
  have h1 : n.toNat + 1 - n.toNat = 1 := by omega
  simp only [filterLogs, transferQuery, transfers, h1, List.range'_one, List.flatMap_singleton,
    if_pos hle, UInt64.ofNat_toNat]

end Chain

/-- The header of number `i` in the chains that the tests build: from `forkAt` on they
carry `forkSalt`, so that two chains share their lower part and then diverge. -/
def buildHeader (forkAt : ℕ) (forkSalt : UInt8) : ℕ → Header
  | 0 => ⟨.replicate 32 0, 0, 0, [if 0 ≥ forkAt then forkSalt else 0]⟩
  | i + 1 => ⟨GoEthereum.headerHash (buildHeader forkAt forkSalt i), i + 1, .ofNat (i + 1),
      [if i + 1 ≥ forkAt then forkSalt else 0]⟩

theorem buildHeader_number (forkAt : ℕ) (forkSalt : UInt8) (i : ℕ) :
    (buildHeader forkAt forkSalt i).number = i := by
  cases i <;> rfl

def buildChain (n : UInt64) (forkAt : ℕ) (forkSalt : UInt8) (logs : UInt64 → List Log) : Chain where
  head := n
  header i := buildHeader forkAt forkSalt i.toNat
  logs := logs
  number_eq i _ := buildHeader_number forkAt forkSalt i.toNat
  linked i hi := by
    have hlt := UInt64.lt_iff_toNat_lt.mp hi
    have hn := n.toNat_lt
    rw [toNat_succ (by omega)]
    rfl

/-- `transferLog` of the tests: a transfer of `n` units. -/
def transferLog (n : UInt8) : Log :=
  let addr := hexToAddress "0x000000000000000000000000000000000000dead"
  let topic := setBytes 32 addr.toList
  { address := addr
    topics := [topicID, topic, topic]
    data := List.replicate 31 0 ++ [n]
    txHash := .replicate 32 0
    index := 0 }

omit [GoEthereum] in
/-- The Keccak hashes of the headers of `buildChain 2 3 0`, `buildChain 2 1 1` and
`buildChain 2 2 1`. -/
def testHashes : List (Header × Hash) :=
  let h₀ : Hash := #v[0x07, 0x15, 0x32, 0x9a, 0x35, 0x4f, 0x66, 0xb6, 0x6c, 0xd1, 0xa7, 0xaf, 0xe2, 0x40, 0xc4, 0x85,
    0xc1, 0x11, 0x37, 0x98, 0x43, 0xa0, 0x24, 0x9d, 0x2f, 0xf7, 0xd7, 0x64, 0x64, 0xa5, 0x4f, 0x14]
  let a₁ : Hash := #v[0xbb, 0xea, 0xef, 0xda, 0x92, 0x6a, 0xa8, 0x16, 0xea, 0x12, 0x97, 0x87, 0x40, 0x68, 0xed, 0x79,
    0x8e, 0x01, 0x51, 0x11, 0xff, 0x1c, 0xb4, 0x42, 0x89, 0x57, 0x7b, 0x37, 0x2b, 0xd7, 0x3f, 0x50]
  let a₂ : Hash := #v[0x1e, 0xb6, 0x1f, 0x07, 0xd2, 0x28, 0xca, 0x29, 0xb5, 0xf2, 0x02, 0x9f, 0x4d, 0xc4, 0x85, 0xf7,
    0xf3, 0xea, 0xf1, 0x02, 0x3c, 0xb4, 0x50, 0x68, 0x77, 0xc0, 0xa9, 0x0e, 0x68, 0x91, 0x3b, 0xec]
  let b₁ : Hash := #v[0x43, 0x92, 0x62, 0x19, 0xad, 0x01, 0x23, 0xb7, 0x19, 0xb5, 0x12, 0xa5, 0x5b, 0x97, 0x39, 0x83,
    0x6a, 0x8f, 0x17, 0xee, 0xde, 0x87, 0x7c, 0x6f, 0x54, 0xb2, 0x1c, 0xc7, 0x29, 0xb4, 0x60, 0x8e]
  let b₂ : Hash := #v[0x53, 0x5d, 0x24, 0xea, 0x8b, 0xde, 0x94, 0x19, 0xb5, 0x5f, 0x30, 0x00, 0x02, 0xbb, 0x28, 0x76,
    0x53, 0x69, 0x87, 0x8e, 0x61, 0x8c, 0x55, 0xc9, 0x7f, 0x41, 0xab, 0xea, 0x64, 0x42, 0xe1, 0x01]
  let c₂ : Hash := #v[0xec, 0x1d, 0x66, 0x48, 0x94, 0x68, 0x80, 0xc0, 0x89, 0x01, 0xe5, 0x7e, 0x87, 0xd6, 0xcd, 0x7f,
    0x71, 0x33, 0x84, 0xe9, 0x71, 0x4e, 0x9f, 0x62, 0xa0, 0xb6, 0xf8, 0x5e, 0x91, 0x60, 0x51, 0x89]
  [(⟨.replicate 32 0, 0, 0, [0]⟩, h₀), (⟨h₀, 1, 1, [0]⟩, a₁), (⟨a₁, 2, 2, [0]⟩, a₂),
    (⟨h₀, 1, 1, [1]⟩, b₁), (⟨b₁, 2, 2, [1]⟩, b₂), (⟨a₁, 2, 2, [1]⟩, c₂)]

omit [GoEthereum] in
/-- The hashes and the address text that the real library gives for the data of the tests. -/
@[reducible] def testEthereum : GoEthereum where
  headerHash hd := (testHashes.lookup hd).getD (.replicate 32 0)
  addressHex _ := "0x000000000000000000000000000000000000dEaD"

omit [GoEthereum] in
/-- Among these headers a hash determines its header. -/
theorem testEthereum_injOn : Set.InjOn testEthereum.headerHash {hd | hd ∈ testHashes.map Prod.fst} := by
  have h : ∀ a ∈ testHashes.map Prod.fst, ∀ b ∈ testHashes.map Prod.fst,
      testEthereum.headerHash a = testEthereum.headerHash b → a = b := by decide
  exact fun a ha b hb hab ↦ h a ha b hb hab

end EventPlatform.ChainMonitor
