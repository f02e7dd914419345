import EventPlatform.Wallet.Service

namespace EventPlatform.Wallet

open Ethereum Interaction Prog Pool

variable {T : Type}

/-- The accounts that requests have drawn from the keystore. -/
def drawn (tr : List (ServiceAct T)) : List (T × Address) := tr.filterMap fun
  | ⟨t, _, (_, .newAccount), .ok a, _⟩ => some (t, a)
  | _ => none

/-- The times that requests have recorded, with the service on whose map they did. -/
def recorded (tr : List (ServiceAct T)) : List (T × ℕ × Address × ℤ) := tr.filterMap fun
  | ⟨t, _, (s, .insert a now), .ok _, _⟩ => some (t, s, a, now)
  | _ => none

theorem drawn_append (tr l : List (ServiceAct T)) : drawn (tr ++ l) = drawn tr ++ drawn l := List.filterMap_append

theorem recorded_append (tr l : List (ServiceAct T)) : recorded (tr ++ l) = recorded tr ++ recorded l :=
  List.filterMap_append

theorem mem_drawn {tr : List (ServiceAct T)} {t : T} {a : Address} : (t, a) ∈ drawn tr ↔
    ∃ s w w', (⟨t, w, (s, .newAccount), .ok a, w'⟩ : ServiceAct T) ∈ tr := by
  rw [drawn, List.mem_filterMap]
  constructor
  · rintro ⟨⟨t, w, c, x, w'⟩, ha, hu⟩
    split at hu
    · rename_i heq
      cases hu
      rw [heq] at ha
      exact ⟨_, _, _, ha⟩
    · cases hu
  · rintro ⟨s, w, w', ha⟩
    exact ⟨_, ha, rfl⟩

theorem mem_recorded {tr : List (ServiceAct T)} {t : T} {s : ℕ} {a : Address} {now : ℤ} : (t, s, a, now) ∈ recorded tr ↔
    ∃ w w', (⟨t, w, (s, .insert a now), .ok (), w'⟩ : ServiceAct T) ∈ tr := by
  rw [recorded, List.mem_filterMap]
  constructor
  · rintro ⟨⟨t, w, c, x, w'⟩, ha, hu⟩
    split at hu
    · rename_i heq
      cases hu
      rw [heq] at ha
      exact ⟨_, _, ha⟩
    · cases hu
  · rintro ⟨w, w', ha⟩
    exact ⟨_, ha, rfl⟩

section Runs

variable [GoEthereum] [DecidableEq T] {req : T → ℕ × Request} {tr : List (ServiceAct T)} {rest : T → M Outcome}
  {w : World} {t : T} {s : ℕ} {a : Address} {now : ℤ}

theorem stage (h : ServiceRuns req tr rest w) (t : T) : Stage t (req t).1 (req t).2 (own t tr) (rest t) := by
  refine h.own_invariant (I := fun t l p ↦ Stage t (req t).1 (req t).2 l p) (fun t ↦ .start t _ _) ?_ t
  intro t l c k x w w' hl hs
  exact hl.step hs

omit [GoEthereum] in
theorem mem_drawn_own : (t, a) ∈ drawn (own t tr) ↔ (t, a) ∈ drawn tr := by
  simp only [mem_drawn, mem_own, and_true]

omit [GoEthereum] in
theorem mem_recorded_own : (t, s, a, now) ∈ recorded (own t tr) ↔ (t, s, a, now) ∈ recorded tr := by
  simp only [mem_recorded, mem_own, and_true]

/-- A time is recorded for the account that the request has drawn, and once. -/
theorem drawn_of_insert (h : ServiceRuns req tr rest w) {f : Except String Unit → M Outcome}
    (hc : rest t = .call (s, .insert a now) f) : (t, a) ∈ drawn tr ∧ ∀ s a now, (t, s, a, now) ∉ recorded tr := by
  have hst := stage h t
  suffices hown : (t, a) ∈ drawn (own t tr) ∧ ∀ s a now, (t, s, a, now) ∉ recorded (own t tr) from
    ⟨mem_drawn_own.mp hown.1, fun _ _ _ hin ↦ hown.2 _ _ _ (mem_recorded_own.mpr hin)⟩
  generalize own t tr = l at hst
  generalize (req t).2 = q at hst
  generalize rest t = p at hst hc
  cases hst with
  | dated w₀ w₁ w₂ a' now' =>
    cases hc
    exact ⟨List.mem_singleton_self _, fun _ _ _ ↦ List.not_mem_nil⟩
  | looking w₀ accts found todo h => cases todo <;> cases hc
  | creating | refused | drawn | recorded | announced | listing => cases hc

theorem drawn_of_recorded (h : ServiceRuns req tr rest w) (hin : (t, s, a, now) ∈ recorded tr) : (t, a) ∈ drawn tr := by
  obtain ⟨v, v', ha⟩ := mem_recorded.mp hin
  obtain ⟨l, l', rfl⟩ := List.append_of_mem ha
  obtain ⟨rest', k, hrun, hc, -⟩ := h.made rfl
  rw [drawn_append]
  exact List.mem_append_left _ (drawn_of_insert hrun hc).1

/-- The directory holds what has been drawn, and the maps hold what has been recorded. -/
structure Kept (tr : List (ServiceAct T)) (w : World) : Prop where
  accounts : w.accounts = (drawn tr).map Prod.snd
  nodup : w.accounts.Nodup
  created : ∀ s a now, w.created s a = some now ↔ ∃ t, (t, s, a, now) ∈ recorded tr

omit [GoEthereum] [DecidableEq T] in
theorem Kept.drawn_unique {t' : T} (h : Kept tr w) (ht : (t, a) ∈ drawn tr) (ht' : (t', a) ∈ drawn tr) : t = t' := by
  have hnodup := h.nodup
  rw [h.accounts] at hnodup
  exact congrArg Prod.fst (List.inj_on_of_nodup_map hnodup ht ht' rfl)

omit [GoEthereum] [DecidableEq T] in
theorem Kept.skip {w' : World} {x : ServiceAct T} (h : Kept tr w) (hd : drawn [x] = []) (hr : recorded [x] = [])
    (haccounts : w'.accounts = w.accounts) (hcreated : w'.created = w.created) : Kept (tr ++ [x]) w' := by
  refine ⟨?_, haccounts ▸ h.nodup, ?_⟩
  · rw [drawn_append, hd, List.append_nil, haccounts, h.accounts]
  · rw [recorded_append, hr, List.append_nil, hcreated]
    exact h.created

omit [GoEthereum] [DecidableEq T] in
theorem Kept.draw {w' : World} (h : Kept tr w) (ha : a ∉ w.accounts) : Kept
    (tr ++ [⟨t, w, (s, .newAccount), .ok a, w'⟩]) { w with accounts := w.accounts ++ [a] } := by
  refine ⟨?_, ?_, ?_⟩
  · rw [drawn_append, List.map_append, ← h.accounts]
    rfl
  · rw [← List.concat_eq_append]
    exact h.nodup.concat ha
  · have hnone : recorded [(⟨t, w, (s, .newAccount), .ok a, w'⟩ : ServiceAct T)] = [] := rfl
    rw [recorded_append, hnone, List.append_nil]
    exact h.created

omit [GoEthereum] [DecidableEq T] in
/-- No time has been recorded before for an account whose request records one now. -/
theorem Kept.record {w' : World} (h : Kept tr w) (hnew : ∀ t now, (t, s, a, now) ∉ recorded tr) : Kept
    (tr ++ [⟨t, w, (s, .insert a now), .ok (), w'⟩])
    { w with created := Function.update w.created s (Function.update (w.created s) a (some now)) } := by
  refine ⟨?_, h.nodup, ?_⟩
  · have hnone : drawn [(⟨t, w, (s, .insert a now), .ok (), w'⟩ : ServiceAct T)] = [] := rfl
    rw [drawn_append, hnone, List.append_nil]
    exact h.accounts
  · intro s' a' now'
    have hone : recorded [(⟨t, w, (s, .insert a now), .ok (), w'⟩ : ServiceAct T)] = [(t, s, a, now)] := rfl
    rw [recorded_append, hone]
    simp only [List.mem_append, List.mem_singleton, exists_or, Prod.mk.injEq]
    by_cases hs : s' = s
    · subst hs
      rw [Function.update_self]
      by_cases ha : a' = a
      · subst ha
        rw [Function.update_self, Option.some_inj]
        simp [hnew, eq_comm]
      · rw [Function.update_of_ne ha, h.created]
        simp [ha]
    · rw [Function.update_of_ne hs, h.created]
      simp [hs]

theorem kept (h : ServiceRuns req tr rest w) : Kept tr w := by
  induction h with
  | init =>
    refine ⟨rfl, List.nodup_nil, fun s a now ↦ ⟨nofun, ?_⟩⟩
    rintro ⟨t, ht⟩
    exact absurd ht List.not_mem_nil
  | @call tr rest w w' t c k r hrun hc hs ih =>
    cases hs with
    | newAccount _ a ha => exact ih.draw ha
    | insert _ a now =>
      obtain ⟨hdrawn, hnone⟩ := drawn_of_insert hrun hc
      apply ih.record
      intro t' now' hin
      obtain rfl := ih.drawn_unique (drawn_of_recorded hrun hin) hdrawn
      exact hnone _ _ _ hin
    | noAccount | now | publish | dropped | accounts | lookup => exact ih.skip rfl rfl rfl rfl
  | env _ he ih =>
    subst he
    exact ⟨ih.accounts, ih.nodup, ih.created⟩

/-- A creation that has returned has announced what it returns, and recorded that time for the account that it drew. -/
theorem returned (h : ServiceRuns req tr rest w) {x : Wallet} (hx : rest t = .ret (.wallet x)) :
    ∃ a now, x = entry (a, now) ∧ drawn (own t tr) = [(t, a)] ∧ recorded (own t tr) = [(t, (req t).1, a, now)] ∧
      ∃ v r v', (⟨t, v, ((req t).1, .publish x), r, v'⟩ : ServiceAct T) ∈ tr := by
  have hst := stage h t
  generalize hl : own t tr = l at hst
  generalize (req t).2 = q at hst
  generalize rest t = p at hst hx
  cases hst with
  | announced w₀ w₁ w₂ w₃ w₄ w₅ w₆ a now r =>
    cases hx
    refine ⟨a, now, rfl, rfl, rfl, w₅, r, w₆, ?_⟩
    exact ((mem_of_own hl _).mp (by simp)).1
  | looking w₀ accts found todo h => cases todo <;> cases hx
  | listing => cases hx
  | creating | refused | drawn | dated | recorded => cases hx

/-- A listing has looked up every address of a snapshot of the directory. -/
theorem listed (h : ServiceRuns req tr rest w) {xs : List Wallet} (hx : rest t = .ret (.wallets xs)) :
    ∃ found : List (World × Address × ℤ), xs = found.map (entry ·.2) ∧
      (∃ v, (⟨t, v, ((req t).1, .accounts), .ok (found.map (·.2.1)), v⟩ : ServiceAct T) ∈ tr) ∧
      ∀ p ∈ found, (⟨t, p.1, ((req t).1, .lookup p.2.1), .ok p.2.2, p.1⟩ : ServiceAct T) ∈ tr := by
  have hst := stage h t
  generalize hl : own t tr = l at hst
  generalize (req t).2 = q at hst
  generalize rest t = p at hst hx
  have hmem := mem_of_own hl
  cases hst with
  | looking v accts found todo h =>
    cases todo with
    | nil =>
      cases hx
      rw [List.append_nil] at h
      refine ⟨found, rfl, ⟨v, ?_⟩, fun p hp ↦ ?_⟩
      · exact h ▸ ((hmem _).mp List.mem_cons_self).1
      · exact ((hmem _).mp (List.mem_cons_of_mem _ (List.mem_map_of_mem hp))).1
    | cons a todo => cases hx
  | listing => cases hx
  | creating | refused | drawn | dated | recorded | announced => cases hx

theorem drawn_of_accounts (h : ServiceRuns req tr rest w) {v v' : World} {l : List Address}
    (hact : (⟨t, v, (s, .accounts), .ok l, v'⟩ : ServiceAct T) ∈ tr) (ha : a ∈ l) : ∃ c, (c, a) ∈ drawn tr := by
  obtain ⟨l₁, l₂, rfl⟩ := List.append_of_mem hact
  obtain ⟨rest', k, hrun, -, hs⟩ := h.made rfl
  dsimp only at hrun hs
  cases hs with
  | accounts _ _ hperm =>
    have hin := hperm.mem_iff.mp ha
    rw [(kept hrun).accounts, List.mem_map] at hin
    obtain ⟨⟨c, _⟩, hc, rfl⟩ := hin
    rw [drawn_append]
    exact ⟨c, List.mem_append_left _ hc⟩

/-- A lookup finds the time that was recorded before it on the map of its service, and else the zero time. -/
theorem lookup_eq {l₁ l₂ : List (ServiceAct T)} {v v' : World} {ts : ℤ}
    (h : ServiceRuns req (l₁ ++ ⟨t, v, (s, .lookup a), .ok ts, v'⟩ :: l₂) rest w) :
    (∀ c now, (c, s, a, now) ∈ recorded l₁ → ts = now) ∧ ((∀ c now, (c, s, a, now) ∉ recorded l₁) → ts = 0) := by
  obtain ⟨rest', k, hrun, -, hs⟩ := h.made rfl
  dsimp only at hrun hs
  have hkept := kept hrun
  cases hs
  refine ⟨fun c now hin ↦ ?_, fun hnone ↦ ?_⟩
  · rw [(hkept.created _ _ _).mpr ⟨c, hin⟩, Option.getD_some]
  · cases hcreated : v.created v.running a with
    | none => rfl
    | some now =>
      obtain ⟨c, hin⟩ := (hkept.created _ _ _).mp hcreated
      exact absurd hin (hnone c now)

/-- The time of a listed wallet is the one that its creation returned and announced when that creation had recorded it,
on the map of the same service, before the lookup. Otherwise it is the zero time. -/
theorem listed_createdAt (req : T → ℕ × Request) (tr : List (ServiceAct T)) (rest : T → M Outcome) (w : World)
    (h : ServiceRuns req tr rest w) (t : T) (xs : List Wallet) (hx : rest t = .ret (.wallets xs)) :
    ∃ found : List (Address × ℤ), xs = found.map entry ∧ ∀ a ts, (a, ts) ∈ found → ∃ before after v c,
      tr = before ++ ⟨t, v, ((req t).1, .lookup a), .ok ts, v⟩ :: after ∧ (c, a) ∈ drawn tr ∧
      ∀ x, rest c = .ret (.wallet x) →
        x.address = GoEthereum.addressHex a ∧
        (∃ v r v', (⟨c, v, ((req c).1, .publish x), r, v'⟩ : ServiceAct T) ∈ tr) ∧
        ((∃ now, (c, (req t).1, a, now) ∈ recorded before) → ts = x.createdAt) ∧
        ((∀ now, (c, (req t).1, a, now) ∉ recorded before) → ts = 0) := by
  obtain ⟨found, rfl, ⟨v₀, hsnapshot⟩, hfound⟩ := listed h hx
  refine ⟨found.map Prod.snd, by rw [List.map_map]; rfl, ?_⟩
  intro a ts hin
  obtain ⟨⟨v, p⟩, hp, hpa⟩ := List.mem_map.mp hin
  obtain rfl : p = (a, ts) := hpa
  obtain ⟨c, hc⟩ := drawn_of_accounts h hsnapshot (List.mem_map_of_mem hp)
  obtain ⟨before, after, htr⟩ := List.append_of_mem (hfound _ hp)
  dsimp only at hc htr
  refine ⟨before, after, v, c, htr, hc, fun x hx ↦ ?_⟩
  obtain ⟨a', now, rfl, hdrawn, hrecorded, hpublished⟩ := returned h hx
  have hmono {c' : T} {s : ℕ} {a : Address} {now : ℤ} (hin : (c', s, a, now) ∈ recorded before) :
      (c', s, a, now) ∈ recorded tr := by
    rw [htr, recorded_append]
    exact List.mem_append_left _ hin
  have haddress : a = a' := by
    have hown := mem_drawn_own.mpr hc
    rw [hdrawn, List.mem_singleton] at hown
    exact (Prod.mk.inj hown).2
  subst haddress
  have hlook := lookup_eq (htr ▸ h)
  refine ⟨rfl, hpublished, ?_, ?_⟩
  · rintro ⟨now', hin⟩
    have hown := mem_recorded_own.mpr (hmono hin)
    rw [hrecorded, List.mem_singleton] at hown
    rw [hlook.1 c now' hin]
    exact congrArg (·.2.2.2) hown
  · intro hnone
    apply hlook.2
    intro c' now' hin
    obtain rfl := (kept h).drawn_unique (drawn_of_recorded h (hmono hin)) hc
    exact hnone now' hin

end Runs

def firstAccount : Address := .replicate 20 1

theorem eq_of_concat {α : Type} {l before after : List α} {a x : α} (h : l ++ [a] = before ++ x :: after) (hx : x ∉ l) :
    before = l := by
  obtain rfl | ⟨after, b, rfl⟩ := after.eq_nil_or_concat
  · exact (List.append_inj' h rfl).1.symm
  · rw [List.concat_eq_append, ← List.cons_append, ← List.append_assoc] at h
    rw [(List.append_inj' h rfl).1] at hx
    exact absurd (List.mem_append_right before List.mem_cons_self) hx

theorem listed_createdAt_after : ∃ _ : GoEthereum,
    ∃ (tr : List (ServiceAct Bool)) (rest : Bool → M Outcome) (w : World),
    ServiceRuns (fun t ↦ (0, if t then .list else .create)) tr rest w ∧
    rest false = .ret (.wallet ⟨GoEthereum.addressHex firstAccount, 5⟩) ∧
    ∃ found : List (Address × ℤ), [(⟨GoEthereum.addressHex firstAccount, 5⟩ : Wallet)] = found.map entry ∧
      ∀ a ts, (a, ts) ∈ found → ts = 5 ∧ ∃ c, (c, a) ∈ drawn tr := by
  let : GoEthereum := ⟨fun _ ↦ .replicate 32 0, fun a ↦ Hex.encode a.toList⟩
  refine ⟨this, ?_⟩
  have h₀ : ServiceRuns (fun t : Bool ↦ (0, if t then .list else .create)) [] _ .empty := .init
  have h₁ := h₀.call (t := false) rfl (.newAccount _ firstAccount List.not_mem_nil)
  have h₂ := h₁.call (t := false) rfl (.now _ 5)
  have h₃ := h₂.call (t := false) rfl (.insert _ firstAccount 5)
  have h₄ := h₃.call (t := false) rfl (.publish _ _)
  have h₅ := h₄.call (t := true) rfl (.accounts _ [firstAccount] (.refl _))
  have h₆ := h₅.call (t := true) rfl (.lookup _ firstAccount)
  obtain ⟨found, hxs, hfound⟩ := listed_createdAt _ _ _ _ h₆ true [⟨GoEthereum.addressHex firstAccount, 5⟩] rfl
  refine ⟨_, _, _, h₆, rfl, found, hxs, ?_⟩
  intro a ts hin
  obtain ⟨before, after, v, c, htr, hc, hx⟩ := hfound a ts hin
  refine ⟨?_, c, hc⟩
  obtain ⟨rfl, rfl⟩ : c = false ∧ a = firstAccount := by simpa [drawn] using hc
  refine (hx ⟨GoEthereum.addressHex firstAccount, 5⟩ rfl).2.2.1 ⟨5, ?_⟩
  -- the only lookup is the last call, so the insertion came before it
  rw [eq_of_concat htr (by simp)]
  simp [recorded]

/-- A listing that comes between the two steps of a creation, and one after a restart, show the zero time. -/
theorem listed_zero : ∃ _ : GoEthereum,
    (∃ (tr : List (ServiceAct Bool)) (rest : Bool → M Outcome) (w : World),
      ServiceRuns (fun t ↦ (0, if t then .list else .create)) tr rest w ∧
      rest false = .ret (.wallet ⟨GoEthereum.addressHex firstAccount, 5⟩) ∧
      rest true = .ret (.wallets [⟨GoEthereum.addressHex firstAccount, 0⟩])) ∧
    ∃ (tr : List (ServiceAct Bool)) (rest : Bool → M Outcome) (w : World),
      ServiceRuns (fun t ↦ if t then (1, .list) else (0, .create)) tr rest w ∧
      rest false = .ret (.wallet ⟨GoEthereum.addressHex firstAccount, 5⟩) ∧
      rest true = .ret (.wallets [⟨GoEthereum.addressHex firstAccount, 0⟩]) := by
  let : GoEthereum := ⟨fun _ ↦ .replicate 32 0, fun a ↦ Hex.encode a.toList⟩
  refine ⟨this, ?_⟩
  constructor
  · have h₀ : ServiceRuns (fun t : Bool ↦ (0, if t then .list else .create)) [] _ .empty := .init
    have h₁ := h₀.call (t := false) rfl (.newAccount _ firstAccount List.not_mem_nil)
    have h₂ := h₁.call (t := true) rfl (.accounts _ [firstAccount] (.refl _))
    have h₃ := h₂.call (t := true) rfl (.lookup _ firstAccount)
    have h₄ := h₃.call (t := false) rfl (.now _ 5)
    have h₅ := h₄.call (t := false) rfl (.insert _ firstAccount 5)
    have h₆ := h₅.call (t := false) rfl (.publish _ _)
    exact ⟨_, _, _, h₆, rfl, rfl⟩
  · have h₀ : ServiceRuns (fun t : Bool ↦ if t then (1, .list) else (0, .create)) [] _ .empty := .init
    have h₁ := h₀.call (t := false) rfl (.newAccount _ firstAccount List.not_mem_nil)
    have h₂ := h₁.call (t := false) rfl (.now _ 5)
    have h₃ := h₂.call (t := false) rfl (.insert _ firstAccount 5)
    have h₄ := h₃.call (t := false) rfl (.publish _ _)
    have h₅ := h₄.env rfl
    have h₆ := h₅.call (t := true) rfl (.accounts _ [firstAccount] (.refl _))
    have h₇ := h₆.call (t := true) rfl (.lookup _ firstAccount)
    exact ⟨_, _, _, h₇, rfl, rfl⟩

end EventPlatform.Wallet
