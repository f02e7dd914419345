import EventPlatform.Users.Service

namespace EventPlatform.Users

open Interaction Prog Pool
open scoped List

/-- What is left of a registration once the store has answered. -/
def afterCreate (u : User) : Except Err Unit → M Outcome
  | .error e => .fail e
  | .ok _ => .call (.publish u) fun _ ↦ .ret (.user u)

def afterNow (id email : String) : Except Err ℤ → M Outcome
  | .error e => .fail e
  | .ok now => .call (.create ⟨id, email, now⟩) (afterCreate ⟨id, email, now⟩)

def afterNewString (email : String) : Except Err String → M Outcome
  | .error e => .fail e
  | .ok id => .call .now (afterNow id email)

section Stages

variable [GoMail] {T S : Type} {st : Store S} {t : T} {q : Request}

theorem serve_valid {email : String} (h : Valid email) :
    serve (.register email) = .call .newString (afterNewString email) := by
  simp only [serve, register, if_pos h]
  refine congrArg (Prog.call _) (funext fun id ↦ ?_)
  cases id with
  | error e => rfl
  | ok id =>
    refine congrArg (Prog.call _) (funext fun now ↦ ?_)
    cases now with
    | error e => rfl
    | ok now =>
      refine congrArg (Prog.call _) (funext fun x ↦ ?_)
      cases x with
      | error e => rfl
      | ok _ =>
        refine congrArg (Prog.call _) (funext fun x ↦ ?_)
        cases x with
        | error e => rfl
        | ok _ => rfl

theorem serve_invalid {email : String} (h : ¬ Valid email) : serve (.register email) = .fail .invalidEmail := by
  simp only [serve, register, if_neg h]
  rfl

/-- How far a request has come, by the calls that it has made. -/
inductive Stage (t : T) : Request → List (ServiceAct T S) → M Outcome → Prop
  | invalid {email : String} (h : ¬ Valid email) : Stage t (.register email) [] (.fail .invalidEmail)
  | valid {email : String} (h : Valid email) : Stage t (.register email) [] (.call .newString (afterNewString email))
  | named (w : World S) (id : String) {email : String} (h : Valid email) :
      Stage t (.register email) [⟨t, w, .newString, .ok id, w⟩] (.call .now (afterNow id email))
  | dated (w w₁ : World S) (u : User) (h : Valid u.email) :
      Stage t (.register u.email) [⟨t, w, .newString, .ok u.id, w⟩, ⟨t, w₁, .now, .ok u.createdAt, w₁⟩]
        (.call (.create u) (afterCreate u))
  | refused (w w₁ w₂ w₃ : World S) (u : User) (h : Valid u.email) (e : Err) :
      Stage t (.register u.email) [⟨t, w, .newString, .ok u.id, w⟩, ⟨t, w₁, .now, .ok u.createdAt, w₁⟩,
        ⟨t, w₂, .create u, .error e, w₃⟩] (.fail e)
  | created (w w₁ w₂ w₃ : World S) (u : User) (h : Valid u.email) :
      Stage t (.register u.email) [⟨t, w, .newString, .ok u.id, w⟩, ⟨t, w₁, .now, .ok u.createdAt, w₁⟩,
        ⟨t, w₂, .create u, .ok (), w₃⟩] (.call (.publish u) fun _ ↦ .ret (.user u))
  | announced (w w₁ w₂ w₃ w₄ w₅ : World S) (u : User) (h : Valid u.email) :
      Stage t (.register u.email) [⟨t, w, .newString, .ok u.id, w⟩, ⟨t, w₁, .now, .ok u.createdAt, w₁⟩,
        ⟨t, w₂, .create u, .ok (), w₃⟩, ⟨t, w₄, .publish u, .ok (), w₅⟩] (.ret (.user u))
  | getting (id : String) : Stage t (.get id) [] (serve (.get id))
  | missed (w : World S) (id : String) (e : Err) : Stage t (.get id) [⟨t, w, .get id, .error e, w⟩] (.fail e)
  | got (w : World S) (id : String) (u : User) : Stage t (.get id) [⟨t, w, .get id, .ok u, w⟩] (.ret (.user u))
  | listing : Stage t .list [] (serve .list)
  | listed (w : World S) (l : List User) : Stage t .list [⟨t, w, .list, .ok l, w⟩] (.ret (.users l))

theorem Stage.start (t : T) (q : Request) : Stage (S := S) t q [] (serve q) := by
  cases q with
  | register email =>
    by_cases h : Valid email
    · rw [serve_valid h]
      exact .valid h
    · rw [serve_invalid h]
      exact .invalid h
  | get id => exact .getting id
  | list => exact .listing

theorem Stage.step {l : List (ServiceAct T S)} {c : Call} {f : Except Err c.Reply → M Outcome}
    {x : Except Err c.Reply} {w w' : World S} (h : Stage t q l (.call c f)) (hs : Serves st w c x w') :
    Stage t q (l ++ [⟨t, w, c, x, w'⟩]) (f x) := by
  generalize hp : Prog.call c f = p at h
  cases h with
  | valid h =>
    cases hp
    cases hs
    exact .named w _ h
  | named w₀ id h =>
    cases hp
    cases hs
    exact .dated w₀ w ⟨id, _, _⟩ h
  | dated w₀ w₁ u h =>
    cases hp
    cases x with
    | error e => exact .refused w₀ w₁ w w' u h e
    | ok _ => exact .created w₀ w₁ w w' u h
  | created w₀ w₁ w₂ w₃ u h =>
    cases hp
    cases hs
    exact .announced w₀ w₁ w₂ w₃ w _ u h
  | getting id =>
    cases hp
    cases hs
    generalize st.get w.store id = x
    cases x with
    | error e => exact .missed w id e
    | ok u => exact .got w id u
  | listing =>
    cases hp
    cases hs
    exact .listed w _
  | invalid | refused | announced | missed | got | listed => cases hp

end Stages

section Runs

variable [GoMail] {T S : Type} {st : Store S} {keep : User → User} {tr : List (ServiceAct T S)}

/-- No two requests are given the same id. -/
def Distinct (tr : List (ServiceAct T S)) : Prop :=
  ∀ t w id w' t' v v', (⟨t, w, .newString, .ok id, w'⟩ : ServiceAct T S) ∈ tr →
    (⟨t', v, .newString, .ok id, v'⟩ : ServiceAct T S) ∈ tr → t = t'

omit [GoMail] in
theorem Distinct.of_append {l : List (ServiceAct T S)} (h : Distinct (tr ++ l)) : Distinct tr :=
  fun t w id w' t' v v' ha hb ↦ h t w id w' t' v v' (List.mem_append_left _ ha) (List.mem_append_left _ hb)

def created (tr : List (ServiceAct T S)) : List User := tr.filterMap fun
  | ⟨_, _, .create u, .ok _, _⟩ => some u
  | _ => none

def published (tr : List (ServiceAct T S)) : List User := tr.filterMap fun
  | ⟨_, _, .publish u, _, _⟩ => some u
  | _ => none

omit [GoMail] in
theorem created_append (tr l : List (ServiceAct T S)) : created (tr ++ l) = created tr ++ created l :=
  List.filterMap_append

omit [GoMail] in
theorem published_append (tr l : List (ServiceAct T S)) : published (tr ++ l) = published tr ++ published l :=
  List.filterMap_append

omit [GoMail] in
theorem published_skip {a : ServiceAct T S} (ha : published [a] = []) : published (tr ++ [a]) = published tr := by
  rw [published_append, ha, List.append_nil]

omit [GoMail] in
theorem mem_created {u : User} :
    u ∈ created tr ↔ ∃ t w w', (⟨t, w, .create u, .ok (), w'⟩ : ServiceAct T S) ∈ tr := by
  rw [created, List.mem_filterMap]
  constructor
  · rintro ⟨⟨t, w, c, x, w'⟩, ha, hu⟩
    split at hu
    · rename_i t w v _ w' heq
      cases hu
      rw [heq] at ha
      exact ⟨_, _, _, ha⟩
    · cases hu
  · rintro ⟨t, w, w', ha⟩
    exact ⟨_, ha, rfl⟩

omit [GoMail] in
theorem mem_published {u : User} :
    u ∈ published tr ↔ ∃ t w x w', (⟨t, w, .publish u, x, w'⟩ : ServiceAct T S) ∈ tr := by
  rw [published, List.mem_filterMap]
  constructor
  · rintro ⟨⟨t, w, c, x, w'⟩, ha, hu⟩
    split at hu
    · rename_i heq
      cases hu
      rw [heq] at ha
      exact ⟨_, _, _, _, ha⟩
    · cases hu
  · rintro ⟨t, w, x, w', ha⟩
    exact ⟨_, ha, rfl⟩

variable [DecidableEq T] {req : T → Request} {rest : T → M Outcome} {w : World S} {t : T} {u : User}

theorem stage (h : ServiceRuns st req tr rest w) (t : T) : Stage t (req t) (own t tr) (rest t) := by
  refine h.own_invariant (I := fun t l p ↦ Stage t (req t) l p) (fun t ↦ .start t (req t)) ?_ t
  intro t l c k x w w' hl hs
  exact hl.step hs

/-- A request that is about to create a user has been given its id, and has created none. -/
theorem named_of_create (h : ServiceRuns st req tr rest w) {f : Except Err Unit → M Outcome}
    (hc : rest t = .call (.create u) f) : req t = .register u.email ∧
      (∃ v, (⟨t, v, .newString, .ok u.id, v⟩ : ServiceAct T S) ∈ tr) ∧
      ∀ v u' x v', (⟨t, v, .create u', x, v'⟩ : ServiceAct T S) ∉ tr := by
  have hst := stage h t
  generalize hl : own t tr = l at hst
  generalize req t = q at hst
  generalize rest t = p at hst hc
  have hmem := mem_of_own hl
  cases hst with
  | dated w₁ w₂ u' hv =>
    cases hc
    refine ⟨rfl, ⟨w₁, ((hmem _).mp List.mem_cons_self).1⟩, fun v u' x v' ha ↦ ?_⟩
    have := (hmem _).mpr ⟨ha, rfl⟩
    simp at this
  | invalid | valid | named | refused | created | announced | getting | missed | got | listing | listed => cases hc

/-- Every creation was made under the id that its request had been given. -/
theorem named_of_mem (h : ServiceRuns st req tr rest w) {v v' : World S} {x : Except Err Unit}
    (ha : (⟨t, v, .create u, x, v'⟩ : ServiceAct T S) ∈ tr) :
    ∃ v₁, (⟨t, v₁, .newString, .ok u.id, v₁⟩ : ServiceAct T S) ∈ tr := by
  obtain ⟨l, l', rfl⟩ := List.append_of_mem ha
  obtain ⟨rest', k, hrun, hc, -⟩ := h.made rfl
  obtain ⟨-, ⟨v₁, hv₁⟩, -⟩ := named_of_create hrun hc
  exact ⟨v₁, List.mem_append_left _ hv₁⟩

theorem fresh_created (h : ServiceRuns st req tr rest w) (hd : Distinct tr) {f : Except Err Unit → M Outcome}
    (hc : rest t = .call (.create u) f) : u.id ∉ (created tr).map User.id := by
  intro hu
  obtain ⟨u', hu', hid⟩ := List.mem_map.mp hu
  obtain ⟨s, v, v', ha⟩ := mem_created.mp hu'
  obtain ⟨v₁, hs⟩ := named_of_mem h ha
  obtain ⟨-, ⟨v₂, ht⟩, hnone⟩ := named_of_create h hc
  obtain rfl := hd _ _ _ _ _ _ _ (hid ▸ hs) ht
  exact hnone _ _ _ _ ha

/-- The store holds the users that it has accepted, and no two with the same address. -/
structure Holds (st : Store S) (keep : User → User) (tr : List (ServiceAct T S)) (w : World S) : Prop where
  stored : (st.stored w.store).Perm ((created tr).map keep)
  emails : ((st.stored w.store).map User.email).Nodup

omit [GoMail] [DecidableEq T] in
theorem Holds.skip {w' : World S} {a : ServiceAct T S} (hw : Holds st keep tr w) (ha : created [a] = [])
    (hstore : w'.store = w.store) : Holds st keep (tr ++ [a]) w' := by
  refine ⟨?_, ?_⟩
  · rw [created_append, ha, List.append_nil, hstore]
    exact hw.stored
  · rw [hstore]
    exact hw.emails

omit [GoMail] [DecidableEq T] in
theorem Holds.fresh (law : st.Lawful keep) (hw : Holds st keep tr w) (hid : u.id ∉ (created tr).map User.id) :
    u.id ∉ (st.stored w.store).map User.id := by
  have hids : (st.stored w.store).map User.id ~ (created tr).map User.id := by
    refine (hw.stored.map User.id).trans (.of_eq ?_)
    rw [List.map_map]
    exact List.map_congr_left fun v _ ↦ law.keep_id v
  exact mt hids.mem_iff.mp hid

omit [GoMail] [DecidableEq T] in
theorem Holds.create (law : st.Lawful keep) (hw : Holds st keep tr w) (hid : u.id ∉ (created tr).map User.id) :
    u.email ∈ (st.stored w.store).map User.email ∧ st.create w.store u = (.error .conflict, w.store) ∨
    u.email ∉ (st.stored w.store).map User.email ∧ ∃ s, st.create w.store u = (.ok (), s) ∧
      (st.stored s).Perm (keep u :: st.stored w.store) := by
  by_cases hemail : u.email ∈ (st.stored w.store).map User.email
  · exact .inl ⟨hemail, law.create_taken _ _ hemail⟩
  · exact .inr ⟨hemail, law.create_new _ _ (hw.fresh law hid) hemail⟩

theorem holds (law : st.Lawful keep) (h : ServiceRuns st req tr rest w) (hd : Distinct tr) : Holds st keep tr w := by
  induction h with
  | init => exact ⟨by simp [created, law.empty], by simp [law.empty]⟩
  | env _ he => exact he.elim
  | @call tr rest w w' t c f x hrun hc hs ih =>
    have ih := ih hd.of_append
    cases hs with
    | newString | now | get | list | publish => exact ih.skip rfl rfl
    | create u =>
      obtain ⟨hemail, heq⟩ | ⟨hemail, s, heq, hperm⟩ := ih.create law (fresh_created hrun hd.of_append hc)
      · simp only [heq]
        exact ih.skip rfl rfl
      · simp only [heq]
        refine ⟨?_, ?_⟩
        · rw [created_append, List.map_append]
          exact hperm.trans ((ih.stored.cons _).trans (List.perm_append_singleton _ _).symm)
        · rw [(hperm.map User.email).nodup_iff, List.map_cons, law.keep_email, List.nodup_cons]
          exact ⟨hemail, ih.emails⟩

/-- A creation fails when the address is stored at that moment, and then changes nothing. -/
theorem create_act (law : st.Lawful keep) (h : ServiceRuns st req tr rest w) (hd : Distinct tr)
    {v v' : World S} {x : Except Err Unit} (ha : (⟨t, v, .create u, x, v'⟩ : ServiceAct T S) ∈ tr) :
    u.email ∈ (st.stored v.store).map User.email ∧ x = .error .conflict ∧ v' = v ∨
    u.email ∉ (st.stored v.store).map User.email ∧ x = .ok () := by
  obtain ⟨l, l', rfl⟩ := List.append_of_mem ha
  obtain ⟨rest', k, hrun, hc, hs⟩ := h.made rfl
  have hl := hd.of_append
  change Serves st v (.create u) x v' at hs
  cases hs
  refine ((holds law hrun hl).create law (fresh_created hrun hl hc)).imp ?_ ?_
  · rintro ⟨hemail, heq⟩
    exact ⟨hemail, by rw [heq], by rw [heq]⟩
  · rintro ⟨hemail, s, heq, -⟩
    exact ⟨hemail, by rw [heq]⟩

theorem failed (law : st.Lawful keep) (h : ServiceRuns st req tr rest w) (hd : Distinct tr) {email : String} {e : Err}
    (hq : req t = .register email) (hr : rest t = .fail e) :
    (e = .conflict ∨ e = .invalidEmail ∧ ¬ Valid email) ∧ ∀ a ∈ tr, a.who = t → a.after = a.before := by
  have hst := stage h t
  rw [hq, hr] at hst
  generalize hl : own t tr = l at hst
  have hmem := mem_of_own hl
  suffices hgoal : (e = .conflict ∨ e = .invalidEmail ∧ ¬ Valid email) ∧ ∀ a ∈ l, a.after = a.before from
    ⟨hgoal.1, fun a ha ht ↦ hgoal.2 a ((hmem a).mpr ⟨ha, ht⟩)⟩
  cases hst with
  | invalid hv => exact ⟨.inr ⟨rfl, hv⟩, by simp⟩
  | refused w₁ w₂ w₃ w₄ u hv e =>
    have ha := ((hmem _).mp (List.mem_of_getLast? rfl)).1
    obtain ⟨-, hx, hw⟩ | ⟨-, hx⟩ := create_act law h hd ha
    · cases hx
      exact ⟨.inl rfl, by simp [hw]⟩
    · cases hx

theorem conflict_iff (law : st.Lawful keep) (h : ServiceRuns st req tr rest w) (hd : Distinct tr) {email : String}
    (hq : req t = .register email) : rest t = .fail .conflict ↔ Valid email ∧
      ∃ v u x v', (⟨t, v, .create u, x, v'⟩ : ServiceAct T S) ∈ tr ∧ email ∈ (st.stored v.store).map User.email := by
  have hst := stage h t
  generalize hl : own t tr = l at hst
  have hmem := mem_of_own hl
  rw [hq] at hst
  generalize rest t = p at hst
  constructor
  · rintro rfl
    cases hst with
    | refused w₁ w₂ w₃ w₄ u hv e =>
      have ha := ((hmem _).mp (List.mem_of_getLast? rfl)).1
      obtain ⟨hemail, -⟩ | ⟨-, hx⟩ := create_act law h hd ha
      · exact ⟨hv, _, _, _, _, ha, hemail⟩
      · cases hx
  · rintro ⟨hv, v, u, x, v', ha, hemail⟩
    have ha' := (hmem _).mpr ⟨ha, rfl⟩
    have hcase := create_act law h hd ha
    cases hst with
    | invalid | valid => cases ha'
    | named | dated => simp at ha'
    | refused w₁ w₂ w₃ w₄ u' hv' e =>
      obtain ⟨-, rfl, rfl, -⟩ : v = w₃ ∧ u = u' ∧ x = .error e ∧ v' = w₄ := by simpa using ha'
      obtain ⟨-, hx, -⟩ | ⟨hne, -⟩ := hcase
      · cases hx
        rfl
      · exact absurd hemail hne
    | created w₁ w₂ w₃ w₄ u' hv' =>
      obtain ⟨-, rfl, rfl, -⟩ : v = w₃ ∧ u = u' ∧ x = .ok () ∧ v' = w₄ := by simpa using ha'
      obtain ⟨-, hx, -⟩ | ⟨hne, -⟩ := hcase
      · cases hx
      · exact absurd hemail hne
    | announced w₁ w₂ w₃ w₄ w₅ w₆ u' hv' =>
      obtain ⟨-, rfl, rfl, -⟩ : v = w₃ ∧ u = u' ∧ x = .ok () ∧ v' = w₄ := by simpa using ha'
      obtain ⟨-, hx, -⟩ | ⟨hne, -⟩ := hcase
      · cases hx
      · exact absurd hemail hne

def isCreate : ServiceAct T S → Bool
  | ⟨_, _, .create _, _, _⟩ => true
  | _ => false

/-- An answered registration of a valid address made one creation, of a user with that address,
and was answered by what the store said to it. -/
theorem answered_register (law : st.Lawful keep) (h : ServiceRuns st req tr rest w) (hd : Distinct tr) {email : String}
    (hq : req t = .register email) (hv : Valid email) (hr : (∃ o, rest t = .ret o) ∨ ∃ e, rest t = .fail e) :
    ∃ v u x v', (own t tr).filter isCreate = [⟨t, v, .create u, x, v'⟩] ∧ u.email = email ∧
      (email ∉ (st.stored v.store).map User.email ∧ x = .ok () ∧ rest t = .ret (.user u) ∨
        email ∈ (st.stored v.store).map User.email ∧ x = .error .conflict ∧ rest t = .fail .conflict) := by
  have hst := stage h t
  generalize hl : own t tr = l at hst
  have hmem := mem_of_own hl
  rw [hq] at hst
  generalize rest t = p at hst hr
  cases hst with
  | invalid hv' => exact absurd hv hv'
  | valid | named | dated | created => simp at hr
  | refused w₁ w₂ w₃ w₄ u hv' e =>
    have ha := ((hmem _).mp (List.mem_of_getLast? rfl)).1
    refine ⟨w₃, u, _, w₄, rfl, rfl, .inr ?_⟩
    obtain ⟨hemail, hx, -⟩ | ⟨-, hx⟩ := create_act law h hd ha
    · cases hx
      exact ⟨hemail, rfl, rfl⟩
    · cases hx
  | announced w₁ w₂ w₃ w₄ w₅ w₆ u hv' =>
    have ha := ((hmem ⟨t, w₃, .create u, .ok (), w₄⟩).mp (by simp)).1
    refine ⟨w₃, u, _, w₄, rfl, rfl, .inl ?_⟩
    obtain ⟨-, hx, -⟩ | ⟨hemail, -⟩ := create_act law h hd ha
    · cases hx
    · exact ⟨hemail, rfl, rfl⟩

theorem invalid_register (h : ServiceRuns st req tr rest w) {email : String} (hq : req t = .register email)
    (hv : ¬ Valid email) : rest t = .fail .invalidEmail ∧ own t tr = [] := by
  have hst := stage h t
  rw [hq] at hst
  generalize own t tr = l at hst ⊢
  generalize rest t = p at hst ⊢
  cases hst with
  | invalid => exact ⟨rfl, rfl⟩
  | valid hv' | named _ _ hv' | dated _ _ _ hv' | refused _ _ _ _ _ hv' | created _ _ _ _ _ hv'
  | announced _ _ _ _ _ _ _ hv' => exact absurd hv' hv

/-- An answered reading made one call, and was answered by what the store said to it. -/
theorem answered_get (h : ServiceRuns st req tr rest w) {id : String} (hq : req t = .get id)
    (hr : (∃ o, rest t = .ret o) ∨ ∃ e, rest t = .fail e) :
    ∃ v, (∃ u, own t tr = [⟨t, v, .get id, .ok u, v⟩] ∧ rest t = .ret (.user u)) ∨
      ∃ e, own t tr = [⟨t, v, .get id, .error e, v⟩] ∧ rest t = .fail e := by
  have hst := stage h t
  rw [hq] at hst
  generalize own t tr = l at hst ⊢
  generalize rest t = p at hst hr ⊢
  cases hst with
  | getting =>
    obtain ⟨o, hr⟩ | ⟨e, hr⟩ := hr
    · cases hr
    · cases hr
  | missed v _ e => exact ⟨v, .inr ⟨e, rfl, rfl⟩⟩
  | got v _ u => exact ⟨v, .inl ⟨u, rfl, rfl⟩⟩

theorem answered_list (h : ServiceRuns st req tr rest w) (hq : req t = .list)
    (hr : (∃ o, rest t = .ret o) ∨ ∃ e, rest t = .fail e) :
    ∃ v l, own t tr = [⟨t, v, .list, .ok l, v⟩] ∧ rest t = .ret (.users l) := by
  have hst := stage h t
  rw [hq] at hst
  generalize own t tr = l at hst ⊢
  generalize rest t = p at hst hr ⊢
  cases hst with
  | listing =>
    obtain ⟨o, hr⟩ | ⟨e, hr⟩ := hr
    · cases hr
    · cases hr
  | listed v l => exact ⟨v, l, rfl, rfl⟩

/-- A registration that has returned a user has announced it. -/
theorem announced_of_ret (h : ServiceRuns st req tr rest w) {email : String} (hq : req t = .register email)
    (hr : rest t = .ret (.user u)) : ∃ v x v', (⟨t, v, .publish u, x, v'⟩ : ServiceAct T S) ∈ tr := by
  have hst := stage h t
  rw [hq, hr] at hst
  generalize hl : own t tr = l at hst
  have hmem := mem_of_own hl
  cases hst with
  | announced => exact ⟨_, _, _, ((hmem _).mp (List.mem_of_getLast? rfl)).1⟩

/-- Every user was announced by the request that created it, and once. -/
theorem created_of_publish (h : ServiceRuns st req tr rest w) {f : Except Err Unit → M Outcome}
    (hc : rest t = .call (.publish u) f) : (∃ v v', (⟨t, v, .create u, .ok (), v'⟩ : ServiceAct T S) ∈ tr) ∧
      ∀ v u' x v', (⟨t, v, .publish u', x, v'⟩ : ServiceAct T S) ∉ tr := by
  have hst := stage h t
  generalize hl : own t tr = l at hst
  generalize req t = q at hst
  generalize rest t = p at hst hc
  have hmem := mem_of_own hl
  cases hst with
  | created w₁ w₂ w₃ w₄ u' hv =>
    cases hc
    refine ⟨⟨_, _, ((hmem _).mp (List.mem_of_getLast? rfl)).1⟩, fun v u' x v' ha ↦ ?_⟩
    have := (hmem _).mpr ⟨ha, rfl⟩
    simp at this
  | invalid | valid | named | dated | refused | announced | getting | missed | got | listing | listed => cases hc

theorem created_of_mem (h : ServiceRuns st req tr rest w) {v v' : World S} {x : Except Err Unit}
    (ha : (⟨t, v, .publish u, x, v'⟩ : ServiceAct T S) ∈ tr) :
    ∃ v v', (⟨t, v, .create u, .ok (), v'⟩ : ServiceAct T S) ∈ tr := by
  obtain ⟨l, l', rfl⟩ := List.append_of_mem ha
  obtain ⟨rest', k, hrun, hc, -⟩ := h.made rfl
  obtain ⟨⟨v₁, v₂, hv⟩, -⟩ := created_of_publish hrun hc
  exact ⟨v₁, v₂, List.mem_append_left _ hv⟩

theorem returned (law : st.Lawful keep) {l : List (ServiceAct T S)} {rest' : T → M Outcome} {w' : World S}
    (h' : ServiceRuns st req tr rest' w') (h : ServiceRuns st req (tr ++ l) rest w) (hd : Distinct (tr ++ l))
    {email : String} (hq : req t = .register email) (hr : rest' t = .ret (.user u)) {s : T} {v v' : World S}
    {x : Except Err User} (ha : (⟨s, v, .get u.id, x, v'⟩ : ServiceAct T S) ∈ l) : x = .ok (keep u) := by
  obtain ⟨_, _, _, hpub⟩ := announced_of_ret h' hq hr
  obtain ⟨v₁, v₂, hcreate⟩ := created_of_mem h' hpub
  obtain ⟨l₁, l₂, rfl⟩ := List.append_of_mem ha
  rw [← List.append_assoc] at h hd
  obtain ⟨rest₁, k, hrun, -, hs⟩ := h.made rfl
  have hu : u ∈ created (tr ++ l₁) := mem_created.mpr ⟨t, v₁, v₂, List.mem_append_left _ hcreate⟩
  have hstored := (holds law hrun hd.of_append).stored.mem_iff.mpr (List.mem_map_of_mem hu)
  have hget := law.get_mem _ _ hstored
  rw [law.keep_id] at hget
  change Serves st v (.get u.id) x v' at hs
  cases hs
  exact hget

theorem events_eq (h : ServiceRuns st req tr rest w) : w.events = published tr := by
  induction h with
  | init => rfl
  | env _ he => exact he.elim
  | @call tr rest w w' t c f x hrun hc hs ih =>
    cases hs with
    | newString | now | create | get | list =>
      rw [published_skip rfl]
      exact ih
    | publish u =>
      rw [published_append, ← ih]
      rfl

omit [GoMail] [DecidableEq T] in
theorem Holds.created_nodup (law : st.Lawful keep) (hw : Holds st keep tr w) : (created tr).Nodup := by
  have hids := (hw.stored.map User.id).nodup_iff.mp (law.ids w.store)
  rw [List.map_map] at hids
  exact .of_map _ hids

theorem published_nodup (h : ServiceRuns st req tr rest w) (hd : Distinct tr) : (published tr).Nodup := by
  induction h with
  | init => exact List.nodup_nil
  | env _ he => exact he.elim
  | @call tr rest w w' t c f x hrun hc hs ih =>
    have ih := ih hd.of_append
    cases hs with
    | newString | now | create | get | list =>
      rw [published_skip rfl]
      exact ih
    | publish _ u =>
      have hfresh : u ∉ published tr := by
        intro hu
        obtain ⟨s, v, y, v', ha⟩ := mem_published.mp hu
        obtain ⟨_, _, hs⟩ := created_of_mem hrun ha
        obtain ⟨⟨_, _, ht⟩, hnone⟩ := created_of_publish hrun hc
        obtain ⟨_, hs'⟩ := named_of_mem hrun hs
        obtain ⟨_, ht'⟩ := named_of_mem hrun ht
        obtain rfl := hd.of_append _ _ _ _ _ _ _ hs' ht'
        exact hnone _ _ _ _ ha
      rw [published_append]
      exact List.concat_eq_append ▸ ih.concat hfresh

/-- The request has not been started, or has been answered. -/
def Settled (q : Request) (p : M Outcome) : Prop := p = serve q ∨ (∃ o, p = .ret o) ∨ ∃ e, p = .fail e

/-- A settled request that has created a user has announced and returned it. -/
theorem finished_of_created (h : ServiceRuns st req tr rest w) (hs : Settled (req t) (rest t)) {v v' : World S}
    (ha : (⟨t, v, .create u, .ok (), v'⟩ : ServiceAct T S) ∈ tr) :
    u ∈ published tr ∧ Valid u.email ∧ req t = .register u.email ∧ rest t = .ret (.user u) := by
  have hst := stage h t
  generalize hl : own t tr = l at hst
  generalize req t = q at hst hs ⊢
  generalize rest t = p at hst hs ⊢
  have hmem := mem_of_own hl
  have ha' := (hmem _).mpr ⟨ha, rfl⟩
  cases hst with
  | invalid | valid | getting | listing => cases ha'
  | named | dated | refused | missed | got | listed => simp at ha'
  | created w₁ w₂ w₃ w₄ u' hv =>
    -- the event is still to come, so the request is neither new nor answered
    obtain hs | ⟨o, hs⟩ | ⟨e, hs⟩ := hs
    · rw [serve_valid hv] at hs
      cases hs
    · cases hs
    · cases hs
  | announced w₁ w₂ w₃ w₄ w₅ w₆ u' hv =>
    obtain ⟨-, rfl, -⟩ : v = w₃ ∧ u = u' ∧ v' = w₄ := by simpa using ha'
    have hpublish := ((hmem _).mp (List.mem_of_getLast? rfl)).1
    exact ⟨mem_published.mpr ⟨_, _, _, _, hpublish⟩, hv, rfl, rfl⟩

theorem events_perm (law : st.Lawful keep) (h : ServiceRuns st req tr rest w) (hd : Distinct tr)
    (hs : ∀ t email, req t = .register email → Settled (req t) (rest t)) :
    (w.events.map keep).Perm (st.stored w.store) := by
  have hperm : (published tr).Perm (created tr) := by
    refine (List.perm_ext_iff_of_nodup (published_nodup h hd) ((holds law h hd).created_nodup law)).mpr fun u ↦ ?_
    constructor
    · intro hu
      obtain ⟨t, v, x, v', ha⟩ := mem_published.mp hu
      obtain ⟨v₁, v₂, hc⟩ := created_of_mem h ha
      exact mem_created.mpr ⟨t, v₁, v₂, hc⟩
    · intro hu
      obtain ⟨t, v, v', ha⟩ := mem_created.mp hu
      obtain ⟨l, l', rfl⟩ := List.append_of_mem ha
      obtain ⟨_, _, hrun, hc, -⟩ := h.made rfl
      exact (finished_of_created h (hs t _ (named_of_create hrun hc).1) ha).1
  rw [events_eq h]
  exact (hperm.map keep).trans (holds law h hd).stored.symm

end Runs

end EventPlatform.Users
