import EventPlatform.ChainMonitor.Boot
import EventPlatform.ChainMonitor.Persistence
import EventPlatform.ChainMonitor.Replay
import EventPlatform.ChainMonitor.WellFormed

namespace EventPlatform.ChainMonitor

open Ethereum Interaction Prog

variable [GoEthereum] {B S : Type} {be : Backend B} {st : Store S} {faults : Prop} {envs : Set (String → String)}

/-- The lives of the binary over one store, with what was published in each of them. Each has an environment of its own
and ends anywhere: after its last tick, or between any two calls. -/
inductive Lives (be : Backend B) (st : Store S) (faults : Prop) (envs : Set (String → String)) (w₀ : World B S) :
    List (List Event) → World B S → Prop
  | none : Lives be st faults envs w₀ [] w₀
  | next {parts : List (List Event)} {w w' : World B S} {q : M Unit} {getenv : String → String} {made : List Act}
      (ticks : List ℕ) : Lives be st faults envs w₀ parts w → getenv ∈ envs →
      Run (Step be st faults) (main getenv ticks) w q w' → w'.log = w.log ++ made →
      Lives be st faults envs w₀ (parts ++ [published made]) w'

section Log

variable {w w' : World B S} {p q : M Unit}

omit [GoEthereum] in
theorem Step.relog {c : Call} {r : Except Err c.Reply} (h : Step be st faults w c r w') (l : List Act) :
    Step be st faults ⟨w.backend, w.store, l⟩ c r ⟨w'.backend, w'.store, l ++ [⟨c, r⟩]⟩ := by
  cases h with
  | header h => exact .header h
  | logs h => exact .logs h
  | saveBlock h => exact .saveBlock h
  | saveBlockErr h => exact .saveBlockErr h
  | lastBlock h => exact .lastBlock h
  | blockByNumber h => exact .blockByNumber h
  | deleteFrom h => exact .deleteFrom h
  | deleteFromErr h => exact .deleteFromErr h
  | confirmThrough h => exact .confirmThrough h
  | confirmThroughErr h => exact .confirmThroughErr h
  | fault h hc => exact .fault h hc
  | publish => exact .publish

omit [GoEthereum] in
/-- What was called before does not show in a run. -/
theorem relog_run (h : Run (Step be st faults) p w q w') : ∃ made, w'.log = w.log ++ made ∧
    ∀ l, Run (Step be st faults) p ⟨w.backend, w.store, l⟩ q ⟨w'.backend, w'.store, l ++ made⟩ := by
  induction h with
  | refl =>
    refine ⟨[], (List.append_nil _).symm, fun l ↦ ?_⟩
    rw [List.append_nil]
    exact .refl
  | @step w₁ w₂ c k r _ hs ih =>
    obtain ⟨made, hlog, hrun⟩ := ih
    refine ⟨made ++ [⟨c, r⟩], ?_, fun l ↦ ?_⟩
    · rw [hs.log, hlog, List.append_assoc]
    · rw [← List.append_assoc]
      exact (hrun l).step (hs.relog (l ++ made))

/-- Calls that publish the messages of a stream. -/
def spoken (es : List Event) : List Act := es.map fun e ↦ ⟨.publish e, .ok ()⟩

omit [GoEthereum] in
theorem published_spoken (es : List Event) : published (spoken es) = es := by
  rw [published, spoken, List.filterMap_map]
  exact List.filterMap_some

end Log

section Lost

/-- What the end of a life can cut off from what was sent in it: nothing, the message of a rollback, or the rest of the
messages of a block, of which the first ones were sent last. -/
def Cut (sent lost : List Event) : Prop :=
  lost = [] ∨ (∃ n, lost = [.chainReorg n]) ∨ ∃ b ts f done, announcement b ts f = done ++ lost ∧ done <:+ sent

variable {cfg : Config} {p p' : Point} {c : Call} {r : Except Err c.Reply} {sent : List Event}

theorem Cut.move (h : Cut sent p.owed) (hm : Move cfg p c r p') : Cut (sent ++ published [⟨c, r⟩]) p'.owed := by
  cases hm with
  | delete n => exact .inr (.inl ⟨n, rfl⟩)
  | save head n hd ts => exact .inr (.inr ⟨_, _, _, [], rfl, List.nil_suffix⟩)
  | announce head n e es r =>
    obtain hnil | ⟨m, hm⟩ | ⟨b, ts, f, done, hall, hsent⟩ := h
    · cases hnil
    · exact .inl (List.cons.inj hm).2
    · refine .inr (.inr ⟨b, ts, f, done ++ [e], ?_, ?_⟩)
      · rw [hall, List.append_assoc]
        rfl
      · obtain ⟨before, rfl⟩ := hsent
        exact ⟨before, (List.append_assoc ..).symm⟩
  | head | empty | last | diverged | matched | reorg | header | orphan | parent | logs | confirm
  | error => exact .inl rfl

theorem Cut.silent (h : Cut sent p.owed) (hm : Silent cfg p p') : Cut sent p'.owed := by
  cases hm <;> exact .inl rfl

/-- The stream of all messages, as it would be if no end of a life had cut any off: one part for each life, with what
was published in it and what it lost. -/
structure Streamed (w : World B MemStore) (lives : List (List Event × List Event)) : Prop where
  sent : published w.log = lives.flatMap Prod.fst
  cut : ∀ life ∈ lives, Cut life.1 life.2
  replica : w.store.replica = replay (lives.flatMap fun life ↦ life.1 ++ life.2)
  counted : Counted (lives.flatMap fun life ↦ life.1 ++ life.2)

/-- What is owed here is what a life cuts off if it ends here. The calls of `base` were made before it. -/
def CutAfter (base : List Act) (p : Point) (w : World B MemStore) : Prop :=
  ∃ made, w.log = base ++ made ∧ Cut (published made) p.owed

theorem CutAfter.move {base : List Act} {w w' : World B MemStore} (h : CutAfter base p w) (hm : Move cfg p c r p')
    (hs : Step be MemStore.store faults w c r w') : CutAfter base p' w' := by
  obtain ⟨made, hlog, hcut⟩ := h
  refine ⟨made ++ [⟨c, r⟩], ?_, ?_⟩
  · rw [hs.log, hlog, List.append_assoc]
  · rw [published_append]
    exact hcut.move hm

def losing (be : Backend B) (faults : Prop) (base : List Act) (c s : UInt64) :
    Outline ⟨c, s, []⟩ (Step be MemStore.store faults) fun _ _ _ _ ↦ True where
  inv p w := Replayed p w ∧ CutAfter base p w
  move hm hs h := ⟨trivial, h.1.move hm hs, h.2.move hm hs⟩
  silent hm h := ⟨h.1.silent hm, h.2.imp fun _ h ↦ ⟨h.1, h.2.silent hm⟩⟩

theorem losing_bootable (be : Backend B) (faults : Prop) (base : List Act) : Bootable (losing be faults base) where
  idle h := h
  booted h := ⟨h.1.keep rfl rfl, h.2⟩

theorem Streamed.next {w w' : World B MemStore} {q : M Unit} {lives : List (List Event × List Event)}
    {getenv : String → String} {ticks : List ℕ} {made : List Act} (h : Streamed w lives)
    (hr : Run (Step be MemStore.store faults) (main getenv ticks) w q w') (hmade : w'.log = w.log ++ made) :
    ∃ lost, Streamed w' (lives ++ [(published made, lost)]) := by
  obtain ⟨made', hlog, hrun⟩ := relog_run hr
  obtain rfl : made = made' := List.append_cancel_left (hmade.symm.trans hlog)
  -- the life is looked at as if all messages before it had been published
  let es := lives.flatMap fun life ↦ life.1 ++ life.2
  have hes : published (spoken es) ++ Point.idle.owed = es := by
    rw [published_spoken]
    exact List.append_nil es
  have hstart : Replayed .idle (⟨w.backend, w.store, spoken es⟩ : World B MemStore) :=
    ⟨hes.symm ▸ h.replica, hes.symm ▸ h.counted⟩
  obtain ⟨c, s, p, hp, made', hlog', hcut⟩ := (losing_bootable be faults (spoken es)).reachable (c := 0) (s := 0)
    ⟨hstart, [], (List.append_nil _).symm, .inl rfl⟩ (hrun (spoken es))
  obtain rfl : made = made' := List.append_cancel_left hlog'
  refine ⟨p.owed, ?_, ?_, ?_, ?_⟩
  · rw [hlog, published_append, h.sent, List.flatMap_append, List.flatMap_singleton]
  · rw [List.forall_mem_append, List.forall_mem_singleton]
    exact ⟨h.cut, hcut⟩
  · have hreplica := hp.replica
    rw [published_append, published_spoken, List.append_assoc] at hreplica
    rw [List.flatMap_append, List.flatMap_singleton]
    exact hreplica
  · have hcounted := hp.counted
    rw [published_append, published_spoken, List.append_assoc] at hcounted
    rw [List.flatMap_append, List.flatMap_singleton]
    exact hcounted

theorem exists_streamed {parts : List (List Event)} {w : World B MemStore} {b : B}
    (h : Lives be MemStore.store faults envs ⟨b, .newMemStore, []⟩ parts w) :
    ∃ lives, lives.map Prod.fst = parts ∧ Streamed w lives := by
  induction h with
  | none =>
    have hempty := replayed_newMemStore b
    exact ⟨[], rfl, rfl, by simp, hempty.replica, hempty.counted⟩
  | next ticks _ henv hr hmade ih =>
    obtain ⟨lives, rfl, hlives⟩ := ih
    obtain ⟨lost, hnext⟩ := hlives.next hr hmade
    exact ⟨lives ++ [(_, lost)], List.map_append, hnext⟩

end Lost

section Crashes

variable {T : Type} {G : Handler Err Call.Reply (World B S)}
  {o : ∀ c s : UInt64, Outline ⟨c, s, []⟩ (Step be st faults) G}
  {parts : List (List Event)} {w₀ w : World B S} {c s : UInt64}

/-- What survives the end of a life at any point holds after any number of lives. -/
theorem Lives.idle (hb : Bootable o) (hcrash : ∀ {c s p w}, (o c s).inv p w → (o c s).inv .idle w)
    (h₀ : (o c s).inv .idle w₀) (h : Lives be st faults envs w₀ parts w) : (o c s).inv .idle w := by
  induction h with
  | none => exact h₀
  | next ticks _ henv hr _ ih =>
    obtain ⟨c', s', p, hp⟩ := hb.reachable ih hr
    exact hb.idle (hcrash hp)

/-- Lives over the second store are lives over the first one. -/
theorem Lives.backward {st' : Store T} {R : S → T → Prop} {admits : T → Call → Prop} {v₀ v : World B T}
    (hb : Bootable o) (hcrash : ∀ {c s p w}, (o c s).inv p w → (o c s).inv .idle w)
    (hi : ∀ c s, Interchange (o c s) st' R admits) (h₀ : (o c s).inv .idle w₀) (hm : Matched R w₀ v₀)
    (h : Lives be st' faults envs v₀ parts v) : ∃ w, Lives be st faults envs w₀ parts w ∧ Matched R w v := by
  induction h with
  | none => exact ⟨w₀, .none, hm⟩
  | next ticks _ henv hr hmade ih =>
    obtain ⟨w, hlives, hw⟩ := ih
    obtain ⟨w', hr', hw'⟩ := hb.backward hi (hlives.idle hb hcrash h₀) hw hr
    rw [hw.log, hw'.log] at hmade
    exact ⟨w', .next ticks hlives henv hr' hmade, hw'⟩

end Crashes

section Durable

omit [GoEthereum] in
theorem Steady.crash {p : Point} {m : MemStore} (h : Steady p m) : Steady .idle m :=
  ⟨trivial, trivial, h.low, h.linked, trivial⟩

/-- The outlines of well-formed stores, for a backend whose head numbers are bounded. -/
def sounding (be : Backend B) (faults : Prop)
    (hbound : ∀ b hd b', be.header b none (.ok hd) b' → hd.number64.toNat + 1 < 2 ^ 64) (c s : UInt64) :
    Outline ⟨c, s, []⟩ (Step be MemStore.store faults) fun _ _ _ _ ↦ True where
  inv := Sound ⟨c, s, []⟩
  move hm hs h := by
    refine ⟨trivial, h.move hm hs fun hd he ↦ ?_⟩
    cases he
    exact hbound _ _ _ hs.header_inv.1
  silent hm h := ⟨h.steady.silent hm, h.filed, h.ordered, h.batched, by cases hm <;> trivial⟩

omit [GoEthereum] in
theorem Sound.crash {cfg : Config} {p : Point} {w : World B MemStore} (h : Sound cfg p w) : Sound cfg .idle w :=
  ⟨h.steady.crash, h.filed, h.ordered, h.batched, trivial⟩

variable {logsOf : Hash → List Log} {canon : ℕ → Chain}

theorem Persisted.crash {cfg : Config} {p : Point} {w : World Clock MemStore} (h : Persisted cfg logsOf canon p w) :
    Persisted cfg logsOf canon .idle w :=
  ⟨⟨h.sourced.steady.crash, h.sourced.filed, trivial, trivial, h.sourced.batches⟩, h.taken, trivial, h.low⟩

theorem wellFormed_of_lives {parts : List (List Event)} {w : World Clock MemStore} (hfits : ∀ t, (canon t).Fits)
    (h : Lives (pinnedBackend canon).lossy MemStore.store faults envs ⟨.start, .newMemStore, []⟩ parts w) :
    WellFormed ⟨0, 0, []⟩ w.store w.log := by
  have hbound : ∀ b hd b', (pinnedBackend canon).lossy.header b none (.ok hd) b' → hd.number64.toNat + 1 < 2 ^ 64 := by
    intro b hd b' hb
    rw [Chain.number64_of_head (Backend.lossy_header_ok hb).2.2]
    have := (hfits b'.now).head
    omega
  have hboot : Bootable (sounding (pinnedBackend canon).lossy faults hbound) :=
    ⟨fun h ↦ ⟨h.steady, h.filed, h.ordered, h.batched, trivial⟩, Sound.crash⟩
  have hstart : Sound ⟨0, 0, []⟩ .idle (⟨.start, .newMemStore, []⟩ : World Clock MemStore) :=
    ⟨steady_newMemStore, by simp [MemStore.Filed, MemStore.newMemStore], .nil, by simp [MemStore.Batches], trivial⟩
  exact Sound.wellFormed (h.idle hboot Sound.crash hstart)

/-- However often the binary is stopped, at whatever call, and started again over the tables with whatever environment:
the tables hold a well-formed index, and what the lives published is the stream that rebuilds it but for what the end of
each life may have cut off, the last messages of one block or the message of one rollback. -/
theorem streamed_of_lives (hfits : ∀ t, (canon t).Fits) (hinj : Set.InjOn GoEthereum.headerHash (canonHeaders canon))
    (hlogs : ∀ t, (canon t).LogsBy logsOf) (hdist : ∀ t, (canon t).Distinct) {parts : List (List Event)}
    {v : World Clock PostgresStore}
    (h : Lives (pinnedBackend canon).lossy PostgresStore.store True Set.univ ⟨.start, .newPostgresStore, []⟩ parts v) :
    ∃ m : MemStore, Holds m v.store ∧ WellFormed ⟨0, 0, []⟩ m v.log ∧ published v.log = parts.flatten ∧
      ∃ lives : List (List Event × List Event), lives.map Prod.fst = parts ∧ (∀ life ∈ lives, Cut life.1 life.2) ∧
        m.replica = replay (lives.flatMap fun life ↦ life.1 ++ life.2) := by
  let o (c s : UInt64) : Outline ⟨c, s, []⟩ (Step (pinnedBackend canon).lossy MemStore.store True) _ :=
    persisting ⟨c, s, []⟩ True (fun t ↦ (hfits t).head) hlogs
  have hboot : Bootable o :=
    ⟨fun h ↦ ⟨⟨h.sourced.steady, h.sourced.filed, trivial, trivial, h.sourced.batches⟩, h.taken, trivial, h.low⟩,
      Persisted.crash⟩
  have hstart : (o 0 0).inv .idle ⟨.start, .newMemStore, []⟩ := persisted_start
  obtain ⟨w, hlives, hw⟩ := h.backward hboot Persisted.crash
    (fun c s ↦ persisting_interchange ⟨c, s, []⟩ True hfits hinj hlogs hdist) hstart matched_start
  obtain ⟨lives, rfl, hstreamed⟩ := exists_streamed hlives
  refine ⟨w.store, hw.store, ?_, ?_, lives, rfl, hstreamed.cut, hstreamed.replica⟩
  · rw [hw.log]
    exact wellFormed_of_lives hfits hlives
  · rw [hw.log, hstreamed.sent, List.flatMap_def]

end Durable

omit [GoEthereum] in
theorem log_eq_append_drop {p q : M Unit} {w w' : World B S} (h : Run (Step be st faults) p w q w') :
    w'.log = w.log ++ w'.log.drop w.log.length := by
  obtain ⟨made, hlog, -⟩ := relog_run h
  exact (List.prefix_iff_eq_append.mp ⟨made, hlog.symm⟩).symm

def firstBlocks (key : String) : String :=
  if key = "START_BLOCK" then "0" else if key = "CONFIRMATIONS" then "1" else ""

/-- A life over Postgres, of two syncs; the chain is replaced in the second one. -/
def firstLife : World Clock PostgresStore :=
  ((main firstBlocks [5, 5]).eval ((pinnedOracle fun t ↦ remined (5 < t)).respond PostgresStore.store)
    ⟨.start, .newPostgresStore, []⟩).2

/-- The next life, of two more syncs. -/
def secondLife : World Clock PostgresStore :=
  ((main firstBlocks [5, 5]).eval ((pinnedOracle fun t ↦ remined (5 < t)).respond PostgresStore.store) firstLife).2

omit [GoEthereum] in
theorem streamed_of_lives_remined :
    letI := testEthereum
    let parts := [published (firstLife.log.drop 0), published (secondLife.log.drop firstLife.log.length)]
    secondLife.store.transfers.rows.map (·.blockNumber) = [2] ∧ parts.map List.length = [4, 3] ∧
      ∃ m : MemStore, Holds m secondLife.store ∧ WellFormed ⟨0, 0, []⟩ m secondLife.log ∧
        published secondLife.log = parts.flatten ∧
        ∃ lives : List (List Event × List Event), lives.map Prod.fst = parts ∧ (∀ life ∈ lives, Cut life.1 life.2) ∧
          m.replica = replay (lives.flatMap fun life ↦ life.1 ++ life.2) := by
  have hfirst : ∀ [GoEthereum], Run (Step (pinnedBackend fun t ↦ remined (5 < t)).lossy PostgresStore.store True)
      (main firstBlocks [5, 5]) ⟨.start, .newPostgresStore, []⟩ _ firstLife := (pinnedOracle_conforms _).run _ _ _
  have hsecond : ∀ [GoEthereum], Run (Step (pinnedBackend fun t ↦ remined (5 < t)).lossy PostgresStore.store True)
      (main firstBlocks [5, 5]) firstLife _ secondLife := (pinnedOracle_conforms _).run _ _ _
  let := testEthereum
  refine ⟨by decide +kernel, by decide +kernel, ?_⟩
  have hlives := Lives.none.next [5, 5] (Set.mem_univ _) hfirst (log_eq_append_drop hfirst)
  exact streamed_of_lives (fun _ ↦ remined_fits _) (remined_injOn _) (fun _ ↦ remined_logsBy _)
    (fun _ ↦ remined_distinct _) (hlives.next [5, 5] (Set.mem_univ _) hsecond (log_eq_append_drop hsecond))

end EventPlatform.ChainMonitor
