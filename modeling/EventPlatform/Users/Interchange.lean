import EventPlatform.Users.Registration

namespace EventPlatform.Users

open Interaction Prog Pool
open scoped List

/-- The same users in any order, with instants compared to the microsecond. -/
def SameUsers (l l' : List User) : Prop := (l.map User.micro).Perm (l'.map User.micro)

def Outcome.Same : Outcome → Outcome → Prop
  | .user u, .user u' => u.micro = u'.micro
  | .users l, .users l' => SameUsers l l'
  | .user _, .users _ | .users _, .user _ => False

/-- The same reply to a call, as far as clients can tell. -/
def SameReply : (c : Call) → Except Err c.Reply → Except Err c.Reply → Prop
  | .get _, r, r' => r.map User.micro = r'.map User.micro
  | .list, .ok l, .ok l' => SameUsers l l'
  | .list, .error e, .error e' => e = e'
  | .list, .ok _, .error _ | .list, .error _, .ok _ => False
  | .newString, r, r' | .now, r, r' | .create _, r, r' | .publish _, r, r' => r = r'

/-- What is left of a request is the same, or it has been answered alike. -/
def SameRest (p p' : M Outcome) : Prop := p = p' ∨ ∃ o o', p = .ret o ∧ p' = .ret o' ∧ o.Same o'

theorem SameRest.of_call {c : Call} {f : Except Err c.Reply → M Outcome} {p : M Outcome}
    (h : SameRest (.call c f) p) : p = .call c f := by
  obtain h | ⟨o, o', h, -⟩ := h
  · exact h.symm
  · cases h

section Steps

variable {T S S' : Type} {st : Store S} {st' : Store S'} {keep keep' : User → User}

/-- The same call of the same request, answered alike. -/
inductive SameAct : ServiceAct T S → ServiceAct T S' → Prop
  | mk {t : T} {c : Call} {r r' : Except Err c.Reply} {w w₁ : World S} {v v₁ : World S'} :
      SameReply c r r' → SameAct ⟨t, w, c, r, w₁⟩ ⟨t, v, c, r', v₁⟩

def given : ServiceAct T S → Option (String ⊕ ℤ)
  | ⟨_, _, .newString, .ok id, _⟩ => some (.inl id)
  | ⟨_, _, .now, .ok n, _⟩ => some (.inr n)
  | _ => none

/-- The same request is next, and is given the same id or the same instant if it asks for one. -/
def Scheduled (a : ServiceAct T S) (b : ServiceAct T S') : Prop := a.who = b.who ∧ given a = given b

structure Alike (st : Store S) (st' : Store S') (w : World S) (v : World S') : Prop where
  stored : SameUsers (st.stored w.store) (st'.stored v.store)
  events : w.events = v.events

theorem SameUsers.emails {l l' : List User} (h : SameUsers l l') : l.map User.email ~ l'.map User.email := by
  have := h.map User.email
  rwa [List.map_map, List.map_map] at this

theorem SameUsers.ids {l l' : List User} (h : SameUsers l l') : l.map User.id ~ l'.map User.id := by
  have := h.map User.id
  rwa [List.map_map, List.map_map] at this

theorem SameUsers.created (law : st.Lawful keep) (law' : st'.Lawful keep') {l l' : List User} (h : SameUsers l l')
    {m m' : List User} {u : User} (hm : m ~ keep u :: l) (hm' : m' ~ keep' u :: l') : SameUsers m m' := by
  unfold SameUsers at *
  have hu : (keep u).micro = (keep' u).micro := (law.keep_micro u).trans (law'.keep_micro u).symm
  refine (hm.map _).trans (.trans ?_ (hm'.map _).symm)
  rw [List.map_cons, List.map_cons, hu]
  exact h.cons _

/-- Both stores find the same user under an id. -/
theorem SameUsers.get (law : st.Lawful keep) (law' : st'.Lawful keep') {s : S} {s' : S'}
    (h : SameUsers (st.stored s) (st'.stored s')) (id : String) :
    (st.get s id).map User.micro = (st'.get s' id).map User.micro := by
  by_cases hid : id ∈ (st.stored s).map User.id
  · obtain ⟨u, hu, rfl⟩ := List.mem_map.mp hid
    obtain ⟨u', hu', hmicro⟩ := List.mem_map.mp (h.mem_iff.mp (List.mem_map_of_mem hu))
    have hid' : u'.micro.id = u.micro.id := congrArg User.id hmicro
    rw [User.micro_id, User.micro_id] at hid'
    have hget := law'.get_mem _ _ hu'
    rw [hid'] at hget
    rw [law.get_mem _ _ hu, hget]
    exact congrArg Except.ok hmicro.symm
  · rw [law.get_missing _ _ hid, law'.get_missing _ _ (mt h.ids.mem_iff.mpr hid)]

theorem Alike.step (law : st.Lawful keep) (law' : st'.Lawful keep') {w w₁ : World S} {v v₁ : World S'}
    {t : T} {c : Call} {r r' : Except Err c.Reply} (h : Alike st st' w v)
    (hfresh : ∀ u, c = .create u → u.id ∉ (st.stored w.store).map User.id)
    (hs : Serves st w c r w₁) (hs' : Serves st' v c r' v₁)
    (hg : given (⟨t, w, c, r, w₁⟩ : ServiceAct T S) = given (⟨t, v, c, r', v₁⟩ : ServiceAct T S')) :
    SameReply c r r' ∧ Alike st st' w₁ v₁ := by
  cases hs with
  | newString =>
    cases hs'
    cases hg
    exact ⟨rfl, h⟩
  | now =>
    cases hs'
    cases hg
    exact ⟨rfl, h⟩
  | get =>
    cases hs'
    exact ⟨h.stored.get law law' _, h⟩
  | list _ l hl =>
    cases hs' with
    | list _ l' hl' =>
      refine ⟨?_, h⟩
      exact ((law.list_perm _ _ hl).map _).trans (h.stored.trans ((law'.list_perm _ _ hl').map _).symm)
  | publish =>
    cases hs'
    exact ⟨rfl, h.stored, by simp [h.events]⟩
  | create _ u =>
    cases hs'
    by_cases hemail : u.email ∈ (st.stored w.store).map User.email
    · rw [law.create_taken _ _ hemail, law'.create_taken _ _ (h.stored.emails.mem_iff.mp hemail)]
      exact ⟨rfl, h.stored, h.events⟩
    · have hid := hfresh u rfl
      obtain ⟨s, hs, hperm⟩ := law.create_new _ _ hid hemail
      obtain ⟨s', hs', hperm'⟩ := law'.create_new _ _ (mt h.stored.ids.mem_iff.mpr hid)
        (mt h.stored.emails.mem_iff.mpr hemail)
      rw [hs, hs']
      exact ⟨rfl, h.stored.created law law' hperm hperm', h.events⟩

/-- A store can answer every call, and the generator and the clock can answer as they did elsewhere. -/
theorem exists_serves (law' : st'.Lawful keep') {w w₁ : World S} {t : T} {c : Call} {r : Except Err c.Reply}
    (hs : Serves st w c r w₁) (v : World S') : ∃ r' v₁, Serves st' v c r' v₁ ∧
      given (⟨t, w, c, r, w₁⟩ : ServiceAct T S) = given (⟨t, v, c, r', v₁⟩ : ServiceAct T S') := by
  cases hs with
  | newString _ id => exact ⟨.ok id, v, .newString v id, rfl⟩
  | now _ n => exact ⟨.ok n, v, .now v n, rfl⟩
  | create _ u => exact ⟨_, _, .create v u, rfl⟩
  | get _ id => exact ⟨_, _, .get v id, rfl⟩
  | list =>
    obtain ⟨l, hl⟩ := law'.list_total v.store
    exact ⟨_, _, .list v l hl, rfl⟩
  | publish _ u => exact ⟨_, _, .publish v u, rfl⟩

end Steps

theorem forall₂_concat_left {α β : Type} {R : α → β → Prop} {l : List α} {a : α} {m : List β}
    (h : List.Forall₂ R (l ++ [a]) m) : ∃ m' b, List.Forall₂ R l m' ∧ R a b ∧ m = m' ++ [b] := by
  induction l generalizing m with
  | nil =>
    cases h with
    | cons hab hnil =>
      cases hnil
      exact ⟨[], _, .nil, hab, rfl⟩
  | cons x l ih =>
    cases h with
    | cons hxy h =>
      obtain ⟨m', b, hm', hb, rfl⟩ := ih h
      exact ⟨_ :: m', b, .cons hxy hm', hb, rfl⟩

section Runs

variable [GoMail] {T S S' : Type} [DecidableEq T] {st : Store S} {st' : Store S'} {keep keep' : User → User}
  {req : T → Request} {tr : List (ServiceAct T S)} {tr' : List (ServiceAct T S')} {rest rest' : T → M Outcome}
  {w : World S} {w' : World S'} {t : T}

/-- Replies that are alike leave the same to do, or end the request alike. -/
theorem sameRest_reply (h : ServiceRuns st req tr rest w) {c : Call} {f : Except Err c.Reply → M Outcome}
    {r r' : Except Err c.Reply} (hc : rest t = .call c f) (hr : SameReply c r r') : SameRest (f r) (f r') := by
  have hst := stage h t
  generalize req t = q at hst
  generalize own t tr = l at hst
  generalize rest t = p at hst hc
  cases hst with
  | valid | named | dated | created =>
    cases hc
    obtain rfl : r = r' := hr
    exact .inl rfl
  | getting id =>
    cases hc
    cases r with
    | error e =>
      cases r' with
      | error e' =>
        cases hr
        exact .inl rfl
      | ok u' => cases hr
    | ok u =>
      cases r' with
      | error e' => cases hr
      | ok u' => exact .inr ⟨.user u, .user u', rfl, rfl, Except.ok.inj hr⟩
  | listing =>
    cases hc
    cases r with
    | error e =>
      cases r' with
      | error e' =>
        cases hr
        exact .inl rfl
      | ok l' => cases hr
    | ok l =>
      cases r' with
      | error e' => cases hr
      | ok l' => exact .inr ⟨.users l, .users l', rfl, rfl, hr⟩
  | invalid | refused | announced | missed | got | listed => cases hc

/-- Two runs of the same schedule over the two stores go alike. -/
theorem alike (law : st.Lawful keep) (law' : st'.Lawful keep') (h : ServiceRuns st req tr rest w) (hd : Distinct tr)
    (h' : ServiceRuns st' req tr' rest' w') (hsched : List.Forall₂ Scheduled tr tr') :
    Alike st st' w w' ∧ List.Forall₂ SameAct tr tr' ∧ ∀ t, SameRest (rest t) (rest' t) := by
  induction h generalizing tr' rest' w' with
  | init =>
    cases hsched
    obtain ⟨rfl, rfl⟩ := h'.nil_inv
    exact ⟨⟨by simp [SameUsers, law.empty, law'.empty], rfl⟩, .nil, fun t ↦ .inl rfl⟩
  | env _ he => exact he.elim
  | @call tr rest w w₁ t c f r hrun hc hs ih =>
    obtain ⟨l', b, hl', hb, rfl⟩ := forall₂_concat_left hsched
    obtain ⟨rest₁, k, hrun', hc', hs', rfl, rfl⟩ := h'.concat_inv
    obtain ⟨halike, hacts, hrest⟩ := ih hd.of_append hrun' hl'
    obtain ⟨s, v, c', r', v₁⟩ := b
    obtain ⟨hwho, hgiven⟩ := hb
    obtain rfl : t = s := hwho
    have hcall : Prog.call c' k = .call c f := hc' ▸ (hc ▸ hrest t : SameRest (.call c f) (rest₁ t)).of_call
    cases hcall
    have hfresh : ∀ u, c = .create u → u.id ∉ (st.stored w.store).map User.id := by
      rintro u rfl
      exact (holds law hrun hd.of_append).fresh law (fresh_created hrun hd.of_append hc)
    obtain ⟨hreply, hnext⟩ := halike.step law law' hfresh hs hs' hgiven
    refine ⟨hnext, List.rel_append hacts (.cons (.mk hreply) .nil), fun s ↦ ?_⟩
    by_cases hst : s = t
    · subst hst
      simpa using sameRest_reply hrun hc hreply
    · simpa [Function.update_of_ne hst] using hrest s

/-- Every schedule that runs over one store runs over the other. -/
theorem exists_run (law : st.Lawful keep) (law' : st'.Lawful keep') (h : ServiceRuns st req tr rest w)
    (hd : Distinct tr) : ∃ tr' rest' w', ServiceRuns st' req tr' rest' w' ∧ List.Forall₂ Scheduled tr tr' := by
  induction h with
  | init => exact ⟨[], _, _, .init, .nil⟩
  | env _ he => exact he.elim
  | @call tr rest w w₁ t c f r hrun hc hs ih =>
    obtain ⟨tr', rest', w', hrun', hsched⟩ := ih hd.of_append
    obtain ⟨-, -, hrest⟩ := alike law law' hrun hd.of_append hrun' hsched
    have hcall := (hc ▸ hrest t : SameRest (.call c f) (rest' t)).of_call
    obtain ⟨r', v₁, hs', hgiven⟩ := exists_serves (t := t) law' hs w'
    exact ⟨_, _, _, hrun'.call hcall hs', List.rel_append hsched (.cons ⟨rfl, hgiven⟩ .nil)⟩

/-- Whatever clients see over one store they see over the other: the other store can go
through the same schedule, and when it does it answers alike. -/
def Interchangeable (st : Store S) (st' : Store S') (req : T → Request) : Prop :=
  ∀ tr rest w, ServiceRuns st req tr rest w → Distinct tr →
    (∃ tr' rest' w', ServiceRuns st' req tr' rest' w' ∧ List.Forall₂ Scheduled tr tr') ∧
    ∀ tr' rest' w', ServiceRuns st' req tr' rest' w' → List.Forall₂ Scheduled tr tr' →
      Alike st st' w w' ∧ List.Forall₂ SameAct tr tr' ∧ ∀ t, SameRest (rest t) (rest' t)

/-- What holds after every run of registrations and readings. -/
structure Registered (st : Store S) (keep : User → User) (req : T → Request) (tr : List (ServiceAct T S))
    (rest : T → M Outcome) (w : World S) : Prop where
  emails : ((st.stored w.store).map User.email).Nodup
  failed : ∀ t email e, req t = .register email → rest t = .fail e →
    (e = .conflict ∨ e = .invalidEmail ∧ ¬ Valid email) ∧ ∀ a ∈ tr, a.who = t → a.after = a.before
  conflict : ∀ t email, req t = .register email → (rest t = .fail .conflict ↔ Valid email ∧
    ∃ v u x v', (⟨t, v, .create u, x, v'⟩ : ServiceAct T S) ∈ tr ∧ email ∈ (st.stored v.store).map User.email)
  answered : ∀ t email, req t = .register email → Valid email → ((∃ o, rest t = .ret o) ∨ ∃ e, rest t = .fail e) →
    ∃ v u x v', (own t tr).filter isCreate = [⟨t, v, .create u, x, v'⟩] ∧ u.email = email ∧
      (email ∉ (st.stored v.store).map User.email ∧ x = .ok () ∧ rest t = .ret (.user u) ∨
        email ∈ (st.stored v.store).map User.email ∧ x = .error .conflict ∧ rest t = .fail .conflict)
  invalid : ∀ t email, req t = .register email → ¬ Valid email → rest t = .fail .invalidEmail ∧ own t tr = []
  got : ∀ t id, req t = .get id → ((∃ o, rest t = .ret o) ∨ ∃ e, rest t = .fail e) →
    ∃ v, (∃ u, own t tr = [⟨t, v, .get id, .ok u, v⟩] ∧ rest t = .ret (.user u)) ∨
      ∃ e, own t tr = [⟨t, v, .get id, .error e, v⟩] ∧ rest t = .fail e
  listed : ∀ t, req t = .list → ((∃ o, rest t = .ret o) ∨ ∃ e, rest t = .fail e) →
    ∃ v l, own t tr = [⟨t, v, .list, .ok l, v⟩] ∧ rest t = .ret (.users l)
  returned : ∀ tr₁ tr₂ rest₁ w₁ t email u, tr = tr₁ ++ tr₂ → ServiceRuns st req tr₁ rest₁ w₁ →
    req t = .register email → rest₁ t = .ret (.user u) →
    ∀ s v x v', (⟨s, v, .get u.id, x, v'⟩ : ServiceAct T S) ∈ tr₂ → x = .ok (keep u)
  announced : (∀ t email, req t = .register email → Settled (req t) (rest t)) →
    (w.events.map keep).Perm (st.stored w.store)

theorem Store.Lawful.registered (law : st.Lawful keep) (h : ServiceRuns st req tr rest w) (hd : Distinct tr) :
    Registered st keep req tr rest w where
  emails := (holds law h hd).emails
  failed _ _ _ hq hr := Users.failed law h hd hq hr
  conflict _ _ hq := conflict_iff law h hd hq
  answered _ _ hq hv hr := answered_register law h hd hq hv hr
  invalid _ _ hq hv := invalid_register h hq hv
  got _ _ hq hr := answered_get h hq hr
  listed _ hq hr := answered_list h hq hr
  returned tr₁ tr₂ rest₁ w₁ t email u htr hrun hq hr s v x v' ha := by
    subst htr
    exact Users.returned law hrun h hd hq hr ha
  announced := events_perm law h hd

theorem Store.Lawful.interchangeable (law : st.Lawful keep) (law' : st'.Lawful keep') :
    Interchangeable st st' req :=
  fun _ _ _ h hd ↦ ⟨exists_run law law' h hd, fun _ _ _ h' hsched ↦ alike law law' h hd h' hsched⟩

end Runs

/-- The invariants of registration over either store. The memory store returns a user as it was
registered, and the other one to the microsecond. -/
theorem registration [GoMail] {T : Type} [DecidableEq T] (req : T → Request) :
    Interchangeable MemStore.store PostgresStore.store req ∧
    Interchangeable PostgresStore.store MemStore.store req ∧
    (∀ tr rest w, ServiceRuns MemStore.store req tr rest w → Distinct tr →
      Registered MemStore.store id req tr rest w) ∧
    (∀ tr rest w, ServiceRuns PostgresStore.store req tr rest w → Distinct tr →
      Registered PostgresStore.store User.micro req tr rest w) :=
  ⟨MemStore.lawful.interchangeable PostgresStore.lawful, PostgresStore.lawful.interchangeable MemStore.lawful,
    fun _ _ _ ↦ MemStore.lawful.registered, fun _ _ _ ↦ PostgresStore.lawful.registered⟩

end EventPlatform.Users
