import EventPlatform.Platform.Joint
import EventPlatform.Users.Registration

namespace EventPlatform.Users

open Events Time Interaction Prog Pool PubSub Platform
open scoped List

/-- As `Serves`, but the bus may refuse an event. -/
inductive Tries {S : Type} (st : Store S) : Handler Err Call.Reply (World S)
  | serves (w : World S) (c : Call) (r : Except Err c.Reply) (w' : World S) : Serves st w c r w' → Tries st w c r w'
  | refused (w : World S) (u : User) (e : Err) : Tries st w (.publish u) (.error e) w

theorem Tries.served {S : Type} {st : Store S} {w w' : World S} {c : Call} {r : Except Err c.Reply}
    (h : Tries st w c r w') (hok : ∀ u, c = .publish u → r.isOk = true) : Serves st w c r w' := by
  cases h with
  | serves _ _ _ _ h => exact h
  | refused _ u e => cases hok u rfl

def announces : Call → Option Payload
  | .publish u => some (.userCreated u)
  | .newString | .now | .create _ | .get _ | .list => none

theorem publishes {S : Type} (st : Store S) : Publishes (Tries st) (fun _ _ ↦ False) announces subjectUserCreated
    (fun w ↦ w.events.map .userCreated) where
  subject c x h := by
    cases c with
    | publish u =>
      cases h
      rfl
    | newString | now | create | get | list => cases h
  call w c r w' h := by
    cases h with
    | serves _ _ _ _ h =>
      cases h with
      | publish _ u => exact List.map_append
      | newString | now | create | get | list => simp [announces]
    | refused => simp [Except.isOk, Except.toBool]
  env _ _ h := h.elim

section Simulation

variable [GoMail] {T S : Type} [DecidableEq T] {st : Store S} {req : T → Request} {tr : List (ServiceAct T S)}
  {rest : T → M Outcome} {w : World S} {t : T} {u : User}

/-- A registration does not look at how its event was taken. -/
theorem publish_continues (h : ServiceRuns st req tr rest w) {k : Except Err Unit → M Outcome}
    (hc : rest t = .call (.publish u) k) : k = fun _ ↦ .ret (.user u) := by
  have hst := stage h t
  rw [hc] at hst
  generalize own t tr = l at hst
  generalize req t = q at hst
  cases hst with
  | created => rfl

/-- The store is the same, and what was announced would have been announced. -/
def Covers (w v : World S) : Prop := v.store = w.store ∧ w.events <+ v.events

/-- Only events are answered differently. -/
def SameBut (c : Call) (r r' : Except Err c.Reply) : Prop := r' = r ∨ ∃ u, c = .publish u

omit [GoMail] in
theorem Covers.serves {v w' : World S} {c : Call} {r : Except Err c.Reply} (hR : Covers w v)
    (hs : Serves st w c r w') : ∃ v', Serves st v c r v' ∧ Covers w' v' := by
  obtain ⟨store, events⟩ := w
  obtain ⟨store', events'⟩ := v
  obtain ⟨rfl, hevents⟩ : store' = store ∧ events <+ events' := hR
  cases hs with
  | newString _ id => exact ⟨_, .newString _ id, rfl, hevents⟩
  | now _ t => exact ⟨_, .now _ t, rfl, hevents⟩
  | create _ u => exact ⟨_, .create _ u, rfl, hevents⟩
  | get _ id => exact ⟨_, .get _ id, rfl, hevents⟩
  | list _ l hl => exact ⟨_, .list _ l hl, rfl, hevents⟩
  | publish _ u => exact ⟨_, .publish _ u, rfl, hevents.append_right [u]⟩

/-- The requests run as they would if the bus accepted every event. -/
theorem exists_serviceRuns
    (h : Runs (Tries st) (fun _ _ ↦ False) (fun t ↦ serve (req t)) ⟨st.empty, []⟩ tr rest w) :
    ∃ tr' v, ServiceRuns st req tr' rest v ∧ Covers w v ∧ List.Forall₂ (Mimics Covers SameBut) tr tr' := by
  refine h.simulate ?_ (fun _ _ _ he ↦ he.elim) ⟨rfl, .refl _⟩
  intro tr' rest v w t c k r w' hrun hc hR hs
  cases hs with
  | serves _ _ _ _ hs =>
    obtain ⟨v', hs', hR'⟩ := hR.serves hs
    exact ⟨r, v', hs', rfl, .inl rfl, hR'⟩
  | refused _ u e =>
    refine ⟨.ok (), _, .publish v u, ?_, .inr ⟨u, rfl⟩, hR.1, hR.2.trans (List.sublist_append_left _ _)⟩
    rw [publish_continues hrun hc]

omit [GoMail] [DecidableEq T] in
theorem Distinct.mimics {tr' : List (ServiceAct T S)} (hd : Distinct tr)
    (h : List.Forall₂ (Mimics Covers SameBut) tr tr') : Distinct tr' := by
  have hback {t : T} {v v' : World S} {id : String} (hb : (⟨t, v, .newString, .ok id, v'⟩ : ServiceAct T S) ∈ tr') :
      ∃ w w', (⟨t, w, .newString, .ok id, w'⟩ : ServiceAct T S) ∈ tr := by
    induction h with
    | nil => cases hb
    | cons hab _ ih =>
      obtain rfl | hb := List.mem_cons.mp hb
      · cases hab with
        | mk _ _ hQ =>
          obtain rfl | ⟨u, hu⟩ := hQ
          · exact ⟨_, _, List.mem_cons_self⟩
          · cases hu
      · obtain ⟨w, w', hw⟩ := ih (fun t w id w' t' v v' ha hb ↦ hd t w id w' t' v v' (List.mem_cons_of_mem _ ha)
          (List.mem_cons_of_mem _ hb)) hb
        exact ⟨w, w', List.mem_cons_of_mem _ hw⟩
  intro t w id w' t' v v' ha hb
  obtain ⟨_, _, ha⟩ := hback ha
  obtain ⟨_, _, hb⟩ := hback hb
  exact hd _ _ _ _ _ _ _ ha hb

/-- What has been announced is stored, and was announced once. -/
theorem events_subperm {keep : User → User} (law : st.Lawful keep)
    (h : Runs (Tries st) (fun _ _ ↦ False) (fun t ↦ serve (req t)) ⟨st.empty, []⟩ tr rest w) (hd : Distinct tr) :
    w.events.map keep <+~ st.stored w.store ∧ (w.events.map User.email).Nodup := by
  obtain ⟨tr', v, hrun, ⟨hstore, hevents⟩, hmimics⟩ := exists_serviceRuns h
  have hd' := hd.mimics hmimics
  have hholds := holds law hrun hd'
  have hcreated : published tr' <+~ created tr' := by
    refine List.subperm_of_subset (published_nodup hrun hd') fun u hu ↦ ?_
    obtain ⟨t, v, x, v', ha⟩ := mem_published.mp hu
    obtain ⟨v₁, v₂, hc⟩ := created_of_mem hrun ha
    exact mem_created.mpr ⟨t, v₁, v₂, hc⟩
  rw [events_eq hrun] at hevents
  have hsub : w.events.map keep <+~ st.stored w.store := by
    rw [← hstore]
    exact (subperm_map keep (hevents.subperm.trans hcreated)).trans hholds.stored.symm.subperm
  refine ⟨hsub, ?_⟩
  have hemails := subperm_map User.email hsub
  have hkeep : (w.events.map keep).map User.email = w.events.map User.email := by
    rw [List.map_map]
    exact List.map_congr_left fun u _ ↦ law.keep_email u
  rw [hkeep, ← hstore] at hemails
  exact nodup_of_subperm hemails hholds.emails

end Simulation

section Notified

variable [GoMail] [GoTime] {P T S : Type} [DecidableEq P] [DecidableEq T] {st : Store S} {keep : User → User}
  {req : T → Request} {tr : List (Act T (Platform.World (World S) P) Err Call.Reply)} {rest : T → M Outcome}
  {w : Platform.World (World S) P}

/-- The line that announces a user. -/
def notice (u : User) : String × List Char := (subjectUserCreated, Notification.text (.userCreated u))

/-- A run in which the only registration is answered and logged. -/
theorem exists_notified (lossy : Prop) {u : User} (hv : Valid u.email) (hu : InRange u.createdAt) :
    ∃ (tr : List (Act Unit (Platform.World (World MemStore) Unit) Err Call.Reply)) (rest : Unit → M Outcome)
      (w : Platform.World (World MemStore) Unit),
      JointRuns lossy subjectUserCreated (Tries MemStore.store) (fun _ _ ↦ False) announces
        (fun _ ↦ serve (.register u.email)) ⟨MemStore.store.empty, []⟩ tr rest w ∧
      Distinct (tr.map (Act.map Platform.World.own)) ∧ (∀ a ∈ tr, ∀ u, a.op = .publish u → a.reply.isOk = true) ∧
      rest () = .ret (.user u) ∧ (∀ p, w.bus.bus.links p = []) ∧ ∃ s ∈ w.bus.bus.subs, s.pattern = subjectUserCreated ∧
        s.closed = false ∧ s.since = 0 ∧ s.queue = [] ∧ notices s = [notice u] := by
  have hempty : MemStore.store.stored MemStore.store.empty = [] := MemStore.lawful.empty
  obtain ⟨m, hm, -⟩ := MemStore.lawful.create_new MemStore.store.empty u (by simp [hempty]) (by simp [hempty])
  have hcreate : Serves MemStore.store ⟨MemStore.store.empty, []⟩ (.create u) (.ok ()) ⟨m, []⟩ := by
    have hserves : Serves MemStore.store ⟨MemStore.store.empty, []⟩ (.create u) _ _ := .create _ u
    rwa [hm] at hserves
  have h₀ : JointRuns lossy subjectUserCreated (Tries MemStore.store) (fun _ _ ↦ False) announces
      (fun _ : Unit ↦ serve (.register u.email)) ⟨MemStore.store.empty, []⟩ [] _ ⟨_, upBus, _⟩ :=
    runs_of_moves (P := Unit) (Notification.moves_starting (List.append_nil _))
  have h₁ := h₀.call (t := ()) (serve_valid hv) (.quiet _ _ _ _ (.serves _ _ _ _ (.newString _ u.id)) (.inl rfl))
  have h₂ := h₁.call (t := ()) (Function.update_self ..)
    (.quiet _ _ _ _ (.serves _ _ _ _ (.now _ u.createdAt)) (.inl rfl))
  have h₃ := h₂.call (t := ()) (Function.update_self ..) (.quiet _ _ _ _ (.serves _ _ _ _ hcreate) (.inl rfl))
  have htimes : ∀ t ∈ 0 :: (Payload.userCreated u).times, InRange t := by
    simp only [Payload.times, List.forall_mem_cons]
    exact ⟨by decide, hu, by simp⟩
  have hindex : Notification.subjects[0]? = some subjectUserCreated := rfl
  obtain ⟨v, v', w, h₄, -, -, -, hlinks, s, hs, hpattern, hopen, hsince, hqueue, hnotices⟩ := runs_noticed hindex rfl h₃
    (t := ()) (Function.update_self ..) (.serves _ _ _ _ (.publish _ u)) rfl rfl htimes ()
  refine ⟨_, _, w, h₄, ?_, ?_, Function.update_self .., hlinks, s, hs, hpattern, hopen, hsince, hqueue, hnotices⟩
  · intro t w id w' t' v v' _ _
    exact Subsingleton.elim t t'
  · simp [Except.isOk, Except.toBool]

/-- However the requests to the replicas of the service, their failures to publish, the notification service, the losses
of the bus and the other services interleave: one subscription at most is for `user.created`, and what is
logged for it are users that are in the store, and none of them, nor any address, more than once. -/
theorem notified_stored (law : st.Lawful keep) (lossy : Prop)
    (h : JointRuns lossy subjectUserCreated (Tries st) (fun _ _ ↦ False) announces (fun t ↦ serve (req t))
      ⟨st.empty, []⟩ tr rest w) (hd : Distinct (tr.map (Act.map Platform.World.own))) :
    w.bus.bus.subs.countP (·.pattern = subjectUserCreated) ≤ 1 ∧
    ∀ s ∈ w.bus.bus.subs, s.pattern = subjectUserCreated → ∃ us : List User, notices s ~ us.map notice ∧
      us.map keep <+~ st.stored w.own.store ∧ (us.map User.email).Nodup := by
  refine ⟨(good h).countP_le_one _, fun s hs hpattern ↦ ?_⟩
  obtain ⟨hstored, hemails⟩ := events_subperm law (own_runs h) hd
  obtain ⟨l, hperm, hsub⟩ := notices_subperm (publishes st) rfl h hs hpattern
  rw [List.map_map] at hsub
  obtain ⟨us, hus, rfl⟩ := List.sublist_map_iff.mp hsub
  refine ⟨us, hperm.symm, ?_, hemails.sublist (hus.map _)⟩
  exact (hus.map keep).subperm.trans hstored

omit [GoMail] [GoTime] in
theorem notified_stored_of_one : ∃ (_ : GoMail) (_ : GoTime), ∃ tr rest, ∃ w : Platform.World (World MemStore) Unit,
    JointRuns True subjectUserCreated (Tries MemStore.store) (fun _ _ ↦ False) announces
      (fun _ : Unit ↦ serve (.register "a@b")) ⟨MemStore.store.empty, []⟩ tr rest w ∧
    w.bus.bus.subs.countP (·.pattern = subjectUserCreated) ≤ 1 ∧
    ∃ s ∈ w.bus.bus.subs, notices s = [notice ⟨"1", "a@b", 0⟩] ∧ ∃ us : List User, notices s ~ us.map notice ∧
      us.map id <+~ MemStore.store.stored w.own.store ∧ (us.map User.email).Nodup := by
  let _ : GoMail := ⟨fun s ↦ .ok ("", s)⟩
  let _ : GoTime := ⟨fun _ ↦ none⟩
  obtain ⟨tr, rest, w, hrun, hd, -, -, -, s, hs, hpattern, -, -, -, hnotices⟩ :=
    exists_notified (u := ⟨"1", "a@b", 0⟩) True (by decide) (by decide)
  obtain ⟨hone, hall⟩ := notified_stored MemStore.lawful True hrun hd
  exact ⟨inferInstance, inferInstance, tr, rest, w, hrun, hone, s, hs, hnotices, hall s hs hpattern⟩

/-- Once every registration is answered and nothing is on its way, a notification service that was there from the start
has logged each stored user exactly once, if nothing was lost, for the one subscription to the subject. -/
theorem notified_all (law : st.Lawful keep)
    (h : JointRuns False subjectUserCreated (Tries st) (fun _ _ ↦ False) announces (fun t ↦ serve (req t))
      ⟨st.empty, []⟩ tr rest w) (hd : Distinct (tr.map (Act.map Platform.World.own)))
    (hok : ∀ a ∈ tr, ∀ u, a.op = .publish u → a.reply.isOk = true)
    (hsettled : ∀ t email, req t = .register email → Settled (req t) (rest t))
    (hlinks : ∀ p, w.bus.bus.links p = []) :
    w.bus.bus.subs.countP (·.pattern = subjectUserCreated) ≤ 1 ∧
    ∀ s ∈ w.bus.bus.subs, s.pattern = subjectUserCreated → s.closed = false → s.since = 0 → s.queue = [] →
      ∃ us : List User, notices s ~ us.map notice ∧ us.map keep ~ st.stored w.own.store := by
  refine ⟨(good h).countP_le_one _, fun s hs hpattern hopen hsince hqueue ↦ ?_⟩
  have hperm := notices_perm (publishes st) rfl h hs hpattern hopen hsince hqueue hlinks
  rw [List.map_map] at hperm
  refine ⟨w.own.events, hperm, ?_⟩
  have hserved : ServiceRuns st req (tr.map (Act.map Platform.World.own)) rest w.own := by
    refine (own_runs h).of_forall fun a ha hs ↦ ?_
    obtain ⟨b, hb, rfl⟩ := List.mem_map.mp ha
    exact hs.served (hok b hb)
  exact events_perm law hserved hd hsettled

omit [GoMail] [GoTime] in
theorem notified_all_of_one : ∃ (_ : GoMail) (_ : GoTime), ∃ tr rest, ∃ w : Platform.World (World MemStore) Unit,
    JointRuns False subjectUserCreated (Tries MemStore.store) (fun _ _ ↦ False) announces
      (fun _ : Unit ↦ serve (.register "a@b")) ⟨MemStore.store.empty, []⟩ tr rest w ∧
    w.bus.bus.subs.countP (·.pattern = subjectUserCreated) ≤ 1 ∧
    ∃ s ∈ w.bus.bus.subs, notices s = [notice ⟨"1", "a@b", 0⟩] ∧ ∃ us : List User, notices s ~ us.map notice ∧
      us.map id ~ MemStore.store.stored w.own.store := by
  let _ : GoMail := ⟨fun s ↦ .ok ("", s)⟩
  let _ : GoTime := ⟨fun _ ↦ none⟩
  obtain ⟨tr, rest, w, hrun, hd, hok, hret, hlinks, s, hs, hpattern, hopen, hsince, hqueue, hnotices⟩ :=
    exists_notified (u := ⟨"1", "a@b", 0⟩) False (by decide) (by decide)
  have hsettled : ∀ (t : Unit) email, Request.register "a@b" = .register email →
      Settled (.register "a@b") (rest t) := fun _ _ _ ↦ .inr (.inl ⟨_, hret⟩)
  obtain ⟨hone, hall⟩ := notified_all MemStore.lawful hrun hd hok hsettled hlinks
  exact ⟨inferInstance, inferInstance, tr, rest, w, hrun, hone, s, hs, hnotices,
    hall s hs hpattern hopen hsince hqueue⟩

end Notified

end EventPlatform.Users
