import EventPlatform.Platform.Joint
import EventPlatform.Wallet.Listing

namespace EventPlatform.Wallet

open Ethereum Events Time Interaction Prog Pool PubSub Platform
open scoped List

def announces : Call → Option Payload
  | (_, .publish x) => some (.walletCreated x)
  | (_, .newAccount) | (_, .now) | (_, .insert _ _) | (_, .accounts) | (_, .lookup _) => none

theorem publishes : Publishes Answers (fun w w' ↦ w' = w.restart) announces subjectWalletCreated
    (fun w ↦ w.events.map .walletCreated) where
  subject c x h := by
    obtain ⟨s, o⟩ := c
    cases o with
    | publish =>
      cases h
      rfl
    | newAccount | now | insert | accounts | lookup => cases h
  call w c r w' h := by
    cases h with
    | publish => exact List.map_append
    | dropped => simp [Except.isOk, Except.toBool]
    | newAccount | noAccount | now | insert | accounts | lookup => simp [announces]
  env w w' h := by
    subst h
    rfl

section Announced

variable [GoEthereum] {T : Type} [DecidableEq T] {req : T → ℕ × Request} {tr : List (ServiceAct T)}
  {rest : T → M Outcome} {w : World} {t : T} {s : ℕ}

/-- A wallet is announced with the time that its request has recorded, and by no request twice. -/
theorem recorded_of_publish (h : ServiceRuns req tr rest w) {x : Wallet} {f : Except String Unit → M Outcome}
    (hc : rest t = .call (s, .publish x) f) : (∃ a now, x = entry (a, now) ∧ (t, s, a, now) ∈ recorded tr) ∧
      ∀ v s x r v', (⟨t, v, (s, .publish x), r, v'⟩ : ServiceAct T) ∉ tr := by
  have hst := stage h t
  generalize hl : own t tr = l at hst
  generalize (req t).2 = q at hst
  generalize rest t = p at hst hc
  have hmem := mem_of_own hl
  cases hst with
  | recorded w₀ w₁ w₂ w₃ w₄ a now =>
    cases hc
    refine ⟨⟨a, now, rfl, mem_recorded.mpr ⟨w₃, w₄, ((hmem _).mp (by simp)).1⟩⟩, fun v s x r v' ha ↦ ?_⟩
    have hown := (hmem _).mpr ⟨ha, rfl⟩
    simp at hown
  | looking w₀ accts found todo h => cases todo <;> cases hc
  | creating | refused | drawn | dated | announced | listing => cases hc

/-- What has been announced, with the request and the service that did and the account and the time. -/
structure Announced (tr : List (ServiceAct T)) (w : World) (ws : List (T × ℕ × Address × ℤ)) : Prop where
  events : w.events = ws.map fun r ↦ entry r.2.2
  recorded : ∀ r ∈ ws, r ∈ recorded tr
  made : ∀ r ∈ ws, ∃ v s x y v', (⟨r.1, v, (s, .publish x), y, v'⟩ : ServiceAct T) ∈ tr
  nodup : (ws.map Prod.fst).Nodup

omit [DecidableEq T] in
theorem Announced.append {ws : List (T × ℕ × Address × ℤ)} {v : World} (h : Announced tr w ws) (b : ServiceAct T)
    (hevents : v.events = w.events) : Announced (tr ++ [b]) v ws := by
  refine ⟨hevents.trans h.events, fun r hr ↦ ?_, fun r hr ↦ ?_, h.nodup⟩
  · rw [recorded_append]
    exact List.mem_append_left _ (h.recorded r hr)
  · obtain ⟨v, s, x, y, v', ha⟩ := h.made r hr
    exact ⟨v, s, x, y, v', List.mem_append_left _ ha⟩

theorem exists_announced (h : ServiceRuns req tr rest w) : ∃ ws, Announced tr w ws := by
  induction h with
  | init => exact ⟨[], rfl, by simp, by simp, List.nodup_nil⟩
  | env _ he ih =>
    subst he
    obtain ⟨ws, hws⟩ := ih
    exact ⟨ws, hws.events, hws.recorded, hws.made, hws.nodup⟩
  | @call tr rest w w' t c k r hrun hc hs ih =>
    obtain ⟨ws, hws⟩ := ih
    cases hs with
    | newAccount | noAccount | now | insert | dropped | accounts | lookup => exact ⟨ws, hws.append _ rfl⟩
    | publish _ x =>
      obtain ⟨⟨a, now, rfl, hin⟩, hnone⟩ := recorded_of_publish hrun hc
      have hold := hws.append (v := w) ⟨t, w, (w.running, .publish (entry (a, now))), .ok (),
        { w with events := w.events ++ [entry (a, now)] }⟩ rfl
      refine ⟨ws ++ [(t, w.running, a, now)], ?_, ?_, ?_, ?_⟩
      · rw [List.map_append, ← hws.events]
        rfl
      · rw [List.forall_mem_append, List.forall_mem_singleton]
        refine ⟨hold.recorded, ?_⟩
        rw [recorded_append]
        exact List.mem_append_left _ hin
      · rw [List.forall_mem_append, List.forall_mem_singleton]
        exact ⟨hold.made, _, _, _, _, _, List.mem_append_right _ (List.mem_singleton_self _)⟩
      · rw [List.map_append, List.map_singleton, ← List.concat_eq_append]
        refine hws.nodup.concat fun ht ↦ ?_
        obtain ⟨r, hr, rfl⟩ := List.mem_map.mp ht
        obtain ⟨v, s, x, y, v', ha⟩ := hws.made r hr
        exact hnone _ _ _ _ _ ha

/-- The announced accounts are in the keystore, each announced once and with a time that a service has recorded. -/
theorem Announced.kept {ws : List (T × ℕ × Address × ℤ)} (hws : Announced tr w ws) (h : ServiceRuns req tr rest w) :
    (ws.map (·.2.2.1)).Nodup ∧ ws.map (·.2.2.1) ⊆ w.accounts ∧
      ∀ r ∈ ws, w.created r.2.1 r.2.2.1 = some r.2.2.2 := by
  have hkept := Wallet.kept h
  have hdrawn (r : T × ℕ × Address × ℤ) (hr : r ∈ ws) : (r.1, r.2.2.1) ∈ drawn tr :=
    drawn_of_recorded h (hws.recorded r hr)
  refine ⟨?_, ?_, fun r hr ↦ (hkept.created _ _ _).mpr ⟨r.1, hws.recorded r hr⟩⟩
  · refine (List.nodup_map_iff_inj_on (.of_map _ hws.nodup)).mpr fun r hr r' hr' heq ↦ ?_
    -- an account is drawn by one request, and a request announces one wallet
    have hsame : r.1 = r'.1 := hkept.drawn_unique (hdrawn r hr) (heq ▸ hdrawn r' hr')
    exact List.inj_on_of_nodup_map hws.nodup hr hr' hsame
  · intro a ha
    obtain ⟨r, hr, rfl⟩ := List.mem_map.mp ha
    rw [hkept.accounts]
    exact List.mem_map_of_mem (hdrawn r hr)

end Announced

section Notified

variable [GoEthereum] [GoTime] {P T : Type} [DecidableEq P] [DecidableEq T]
  {tr : List (Act T (Platform.World World P) String Call.Reply)} {rest : T → M Outcome} {w : Platform.World World P}

/-- The line that announces a wallet. -/
def notice (x : Wallet) : String × List Char := (subjectWalletCreated, Notification.text (.walletCreated x))

/-- However creations and listings, restarts of the service at any point of them, failures to publish, the notification
service, the losses of the bus and the other services interleave: one subscription at most is for `wallet.created`,
and what is logged for it are accounts of the keystore, none of them more than once, each with a time that a service has
recorded for it. -/
theorem notified_accounts (lossy : Prop) (req : T → ℕ × Request)
    (h : JointRuns lossy subjectWalletCreated Answers (fun w w' ↦ w' = w.restart) announces
      (fun t ↦ serve (req t).1 (req t).2) .empty tr rest w) :
    w.bus.bus.subs.countP (·.pattern = subjectWalletCreated) ≤ 1 ∧
    ∀ s ∈ w.bus.bus.subs, s.pattern = subjectWalletCreated → ∃ ws : List (ℕ × Address × ℤ),
      notices s ~ ws.map (fun r ↦ notice (entry r.2)) ∧ (ws.map (·.2.1)).Nodup ∧ ws.map (·.2.1) <+~ w.own.accounts ∧
        ∀ r ∈ ws, w.own.created r.1 r.2.1 = some r.2.2 := by
  refine ⟨(good h).countP_le_one _, fun s hs hpattern ↦ ?_⟩
  have hown := own_runs h
  obtain ⟨ws, hws⟩ := exists_announced hown
  obtain ⟨hnodup, haccounts, hcreated⟩ := hws.kept hown
  obtain ⟨l, hperm, hsub⟩ := notices_subperm publishes rfl h hs hpattern
  rw [hws.events, List.map_map, List.map_map] at hsub
  obtain ⟨ws', hws', rfl⟩ := List.sublist_map_iff.mp hsub
  have hnodup' : (ws'.map (·.2.2.1)).Nodup := hnodup.sublist (hws'.map _)
  refine ⟨ws'.map Prod.snd, ?_, ?_, ?_, ?_⟩
  · rw [List.map_map]
    exact hperm.symm
  · rw [List.map_map]
    exact hnodup'
  · rw [List.map_map]
    exact List.subperm_of_subset hnodup' fun a ha ↦ haccounts ((hws'.map _).subset ha)
  · rw [List.forall_mem_map]
    exact fun r hr ↦ hcreated r (hws'.subset hr)

omit [GoEthereum] [GoTime] in
theorem notified_accounts_of_one : ∃ (_ : GoEthereum) (_ : GoTime), ∃ tr rest, ∃ w : Platform.World World Unit,
    JointRuns True subjectWalletCreated Answers (fun w w' ↦ w' = w.restart) announces
      (fun _ : Unit ↦ serve 0 .create) .empty tr rest w ∧
    w.bus.bus.subs.countP (·.pattern = subjectWalletCreated) ≤ 1 ∧
    ∃ s ∈ w.bus.bus.subs, notices s = [notice (entry (firstAccount, -zeroTime))] ∧ ∃ ws : List (ℕ × Address × ℤ),
      notices s ~ ws.map (fun r ↦ notice (entry r.2)) ∧ (ws.map (·.2.1)).Nodup ∧ ws.map (·.2.1) <+~ w.own.accounts ∧
        ∀ r ∈ ws, w.own.created r.1 r.2.1 = some r.2.2 := by
  let : GoEthereum := ⟨fun _ ↦ .replicate 32 0, fun a ↦ Hex.encode a.toList⟩
  let : GoTime := ⟨fun _ ↦ none⟩
  have h₀ : JointRuns True subjectWalletCreated Answers (fun w w' ↦ w' = w.restart) announces
      (fun _ : Unit ↦ serve 0 .create) .empty [] _ ⟨_, upBus, _⟩ :=
    runs_of_moves (P := Unit) (Notification.moves_starting (List.append_nil _))
  have h₁ := h₀.call (t := ()) (serve_create 0)
      (.quiet _ _ _ _ (.newAccount _ firstAccount List.not_mem_nil) (.inl rfl))
  have h₂ := h₁.call (t := ()) (Function.update_self ..) (.quiet _ _ _ _ (.now _ (-zeroTime)) (.inl rfl))
  have h₃ := h₂.call (t := ()) (Function.update_self ..)
    (.quiet _ _ _ _ (.insert _ firstAccount (-zeroTime)) (.inl rfl))
  have hindex : Notification.subjects[1]? = some subjectWalletCreated := rfl
  obtain ⟨v, v', w, h₄, -, -, -, -, s, hs, hpattern, -, -, -, hnotices⟩ := runs_noticed hindex rfl h₃
    (t := ()) (Function.update_self ..) (.publish _ (entry (firstAccount, -zeroTime))) rfl rfl (by decide) ()
  obtain ⟨hone, hall⟩ := notified_accounts True (fun _ ↦ (0, .create)) h₄
  exact ⟨inferInstance, inferInstance, _, _, w, h₄, hone, s, hs, hnotices, hall s hs hpattern⟩

end Notified

end EventPlatform.Wallet
