import EventPlatform.Notification.Consumer

namespace EventPlatform.Notification

open Events Time Interaction Prog Pool PubSub

variable {P : Type} [DecidableEq P] {lossy : Prop} {w w' : World P}

section Stages

/-- What is left of the service when `Start` still has the subjects `todo` to subscribe to. -/
def starting (subs : List ℕ) (todo : List String) : M Unit := do
  let subs ← startFrom subs todo
  perform Call.signal
  stop subs

theorem starting_cons (subs : List ℕ) (subj : String) (todo : List String) :
    starting subs (subj :: todo) = .call (.subscribe subj) fun
      | .ok unsub => starting (subs ++ [unsub]) todo
      | .error e => .fail e := by
  refine congrArg (Prog.call _) (funext fun r ↦ ?_)
  cases r <;> rfl

theorem starting_nil (subs : List ℕ) : starting subs [] = .call .signal fun
      | .ok _ => stop subs
      | .error e => .fail e := by
  refine congrArg (Prog.call _) (funext fun r ↦ ?_)
  cases r <;> rfl

theorem stop_cons (unsub : ℕ) (subs : List ℕ) :
    stop (unsub :: subs) = .call (.unsubscribe unsub) fun _ ↦ stop subs := by
  refine congrArg (Prog.call _) (funext fun r ↦ ?_)
  cases r <;> rfl

/-- How far the service has come, with the subjects of its subscriptions and which of them are closed. -/
inductive Stage (flags : List (String × Bool)) (q : M Unit) : Prop
  | starting (done todo : List String) : done ++ todo = subjects → flags = done.map (·, false) →
      q = starting (List.range done.length) todo → Stage flags q
  | failed (done : List String) (e : String) : done <+: subjects → flags = done.map (·, false) → q = .fail e →
      Stage flags q
  | stopping (subs : List ℕ) : flags.map Prod.fst = subjects → q = stop subs → Stage flags q

theorem Stage.pattern_mem {flags : List (String × Bool)} {q : M Unit} (h : Stage flags q) {subj : String} {c : Bool}
    (hm : (subj, c) ∈ flags) : subj ∈ subjects := by
  cases h with
  | starting done todo hs hf =>
    rw [hf] at hm
    obtain ⟨x, hx, heq⟩ := List.mem_map.mp hm
    cases heq
    exact hs ▸ List.mem_append_left _ hx
  | failed done e hs hf =>
    rw [hf] at hm
    obtain ⟨x, hx, heq⟩ := List.mem_map.mp hm
    cases heq
    exact hs.subset hx
  | stopping subs hs =>
    rw [← hs]
    exact List.mem_map_of_mem hm

/-- The service subscribes to no subject twice. -/
theorem Stage.nodup {flags : List (String × Bool)} {q : M Unit} (h : Stage flags q) : (flags.map Prod.fst).Nodup := by
  have hsubjects : subjects.Nodup := by decide
  have hdone (done : List String) : (done.map (·, false)).map Prod.fst = done := by
    rw [List.map_map]
    exact List.map_id done
  cases h with
  | starting done todo hs hf =>
    rw [hf, hdone]
    exact (hs ▸ hsubjects).of_append_left
  | failed done e hs hf =>
    rw [hf, hdone]
    exact hsubjects.sublist hs.sublist
  | stopping subs hs =>
    rw [hs]
    exact hsubjects

/-- While the service waits for its signal it has one open subscription for each of its subjects. -/
theorem Stage.serving {flags : List (String × Bool)} {k : Except String Unit → M Unit}
    (h : Stage flags (.call .signal k)) : flags = subjects.map (·, false) := by
  cases h with
  | starting done todo hs hf hq =>
    cases todo with
    | nil => rw [hf, ← hs, List.append_nil]
    | cons subj todo =>
      rw [starting_cons] at hq
      cases hq
  | failed done e hs hf hq => cases hq
  | stopping subs hs hq =>
    cases subs with
    | nil => cases hq
    | cons unsub subs =>
      rw [stop_cons] at hq
      cases hq

/-- The service makes its next call. -/
inductive Moves : M Unit × World P → M Unit × World P → Prop
  | call {q : M Unit} {w w' : World P} {c : Call} {k : Except String c.Reply → M Unit} {r : Except String c.Reply} :
      q = .call c k → Answers w c r w' → Moves (q, w) (k r, w')

end Stages

/-- A message that was put on a link is that of a publication. -/
def Carries (a : P × ℤ × Payload) (x : P × Msg) : Prop :=
  x.1 = a.1 ∧ x.2.subject = a.2.2.subject ∧ message a.2.1 a.2.2.subject a.2.2.marshal = .ok x.2.data

structure Good (lossy : Prop) (q : M Unit) (w : World P) : Prop where
  sound : Sound accepts lossy w.bus
  carried : List.Forall₂ Carries w.announced w.bus.sent
  stage : Stage w.bus.flags q

section Steps

variable {q : M Unit}

theorem Good.empty : Good lossy main (World.empty : World P) where
  sound := .empty
  carried := .nil
  stage := .starting [] subjects rfl rfl rfl

theorem Good.env (h : Good lossy q w) (he : Env lossy w w') : Good lossy q w' := by
  cases he with
  | publish p now payload raw hraw =>
    exact ⟨h.sound.send p _, List.rel_append h.carried (.cons ⟨rfl, rfl, hraw⟩ .nil), h.stage⟩
  | bus b hb =>
    refine ⟨h.sound.step hb, ?_, ?_⟩
    · cases hb <;> exact h.carried
    · exact hb.flags ▸ h.stage

theorem Good.call {c : Call} {k : Except String c.Reply → M Unit} {r : Except String c.Reply}
    (h : Good lossy (.call c k) w) (ha : Answers w c r w') : Good lossy (k r) w' := by
  cases h.stage with
  | starting done todo hs hf hq =>
    have hlength : w.bus.subs.length = done.length := by
      simpa [Broker.flags] using congrArg List.length hf
    cases todo with
    | nil =>
      rw [starting_nil] at hq
      cases hq
      cases ha with
      | signal =>
        refine ⟨h.sound, h.carried, .stopping _ ?_ rfl⟩
        rw [hf, ← hs, List.append_nil, List.map_map]
        exact List.map_id _
    | cons subj todo =>
      rw [starting_cons] at hq
      cases hq
      cases ha with
      | subscribe =>
        refine ⟨h.sound.subscribe subj, h.carried, .starting (done ++ [subj]) todo ?_ ?_ ?_⟩
        · rw [List.append_assoc, List.singleton_append, hs]
        · rw [Broker.flags_subscribe, hf, List.map_append, List.map_singleton]
        · dsimp only
          rw [hlength, List.length_append, List.length_singleton, List.range_succ]
      | refused => exact ⟨h.sound, h.carried, .failed done _ ⟨_, hs⟩ hf rfl⟩
  | failed done e hs hf hq => cases hq
  | stopping subs hs hq =>
    cases subs with
    | nil => cases hq
    | cons unsub subs =>
      rw [stop_cons] at hq
      cases hq
      cases ha with
      | unsubscribe =>
        refine ⟨h.sound.unsubscribe unsub, h.carried, .stopping subs ?_ rfl⟩
        rw [Broker.flags_unsubscribe, hs]
      | kept => exact ⟨h.sound, h.carried, .stopping subs hs rfl⟩

theorem Good.of_runs {tr : List (Act Unit (World P) String Call.Reply)} {rest : Unit → M Unit}
    (h : ServiceRuns lossy tr rest w) : Good lossy (rest ()) w := by
  induction h with
  | init => exact .empty
  | call _ hc ha ih =>
    rw [hc] at ih
    rw [Function.update_self]
    exact ih.call ha
  | env _ he ih => exact ih.env he

/-- No subject has two subscriptions. -/
theorem Good.countP_le_one (h : Good lossy q w) (subj : String) : w.bus.subs.countP (·.pattern = subj) ≤ 1 := by
  have hcount := List.nodup_iff_count_le_one.mp h.stage.nodup subj
  rw [Broker.flags, List.map_map, List.count, List.countP_map] at hcount
  exact hcount

end Steps

section Lines

variable [GoTime]

/-- The text of a payload that was published. -/
def text (p : Payload) : List Char :=
  match p.marshal with
  | .ok data => data
  | .error _ => []

/-- The line that the service is to log for a publication. -/
def line (a : P × ℤ × Payload) : Event := ⟨a.2.2.subject, a.2.1, text a.2.2⟩

/-- The publications of a publisher on a subject. -/
def onSubject (p : P) (subj : String) (l : List (P × ℤ × Payload)) : List (P × ℤ × Payload) :=
  l.filter fun a ↦ a.1 = p ∧ a.2.2.subject = subj

omit [DecidableEq P] in
theorem Carries.unmarshal {a : P × ℤ × Payload} {x : P × Msg} (h : Carries a x) :
    Event.unmarshal x.2.data = some (line a) := by
  obtain ⟨data, hdata, hevent⟩ := unmarshal_of_message h.2.2
  rw [hevent, line, text, hdata]

omit [DecidableEq P] in
/-- The messages on a subject of some publishers give the lines of their publications on it. -/
theorem lines_carried {l : List (P × ℤ × Payload)} {xs : List (P × Msg)} (h : List.Forall₂ Carries l xs) (g : P → Bool)
    {subj : String} (hsubj : subj ∈ subjects) :
    lines ((xs.filter fun x ↦ g x.1 && accepts subj x.2).map Prod.snd) =
      (l.filter fun a ↦ g a.1 && decide (a.2.2.subject = subj)).map line := by
  induction h with
  | nil => rfl
  | @cons a x l xs hx _ ih =>
    have haccepts : accepts subj x.2 = decide (a.2.2.subject = subj) := by
      rw [Bool.eq_iff_iff, accepts_iff hsubj, hx.2.1, decide_eq_true_eq]
    rw [List.filter_cons, List.filter_cons, hx.1, haccepts]
    split
    · rw [List.map_cons, List.map_cons, ← ih, lines, List.filterMap_cons, hx.unmarshal]
      rfl
    · exact ih

theorem lines_ofPublisher {l : List (P × ℤ × Payload)} {xs : List (P × Msg)} (h : List.Forall₂ Carries l xs) (p : P)
    {subj : String} (hsubj : subj ∈ subjects) :
    lines ((ofPublisher p xs).filter (accepts subj)) = (onSubject p subj l).map line := by
  have hlines := lines_carried h (fun q ↦ decide (q = p)) hsubj
  rw [← List.filter_filter, List.filter_congr fun a _ ↦ (Bool.decide_and _ _).symm] at hlines
  rw [← ofPublisher_filter, ofPublisher, hlines]
  rfl

omit [GoTime] [DecidableEq P] in
/-- The start of the service, without anything else going on. -/
theorem moves_starting {done todo : List String} (h : done ++ todo = subjects) :
    Relation.ReflTransGen Moves (main, (World.empty : World P)) (starting (List.range done.length) todo,
      ⟨⟨[], fun _ ↦ [], [], done.map (⟨·, 0, [], [], false⟩)⟩, []⟩) := by
  induction done using List.reverseRecOn generalizing todo with
  | nil =>
    obtain rfl : todo = subjects := h
    exact .refl
  | append_singleton done subj ih =>
    have hdone : done ++ subj :: todo = subjects := by rw [← h, List.append_assoc, List.singleton_append]
    refine (ih hdone).tail ?_
    have hmove := Moves.call (starting_cons (List.range done.length) subj todo) (Answers.subscribe (P := P)
      ⟨⟨[], fun _ ↦ [], [], done.map (⟨·, 0, [], [], false⟩)⟩, []⟩ subj)
    simp only [Broker.subscribe, List.length_map] at hmove
    rw [List.map_append, List.length_append, List.length_singleton, List.range_succ]
    exact hmove

omit [GoTime] in
theorem runs_of_moves (lossy : Prop) {q : M Unit}
    (h : Relation.ReflTransGen Moves (main, (World.empty : World P)) (q, w)) :
    ∃ tr, ServiceRuns lossy tr (fun _ ↦ q) w := by
  generalize hx : (q, w) = x at h
  induction h generalizing q w with
  | refl =>
    cases hx
    exact ⟨[], .init⟩
  | tail _ hmove ih =>
    cases hmove with
    | call hq ha =>
      cases hx
      obtain ⟨tr, hrun⟩ := ih rfl
      have hcall := hrun.call (t := ()) hq ha
      rw [Function.update_eq_const_of_subsingleton] at hcall
      exact ⟨_, hcall⟩

/-- A run in which the first publication is logged while the service is up. -/
theorem exists_logged (lossy : Prop) (p : P) (u : Users.User) (h : InRange u.createdAt) :
    ∃ tr rest, ∃ w : World P, ServiceRuns lossy tr rest w ∧ (∃ k, rest () = .call .signal k) ∧ ∃ s ∈ w.bus.subs,
      s.closed = false ∧ lines (ofPublisher p s.handled) = [line (p, u.createdAt, .userCreated u)] := by
  obtain ⟨tr, h₀⟩ := runs_of_moves lossy (moves_starting (P := P) (List.append_nil subjects))
  obtain ⟨raw, hraw⟩ := (exists_message u.createdAt (.userCreated u)).mpr (by simp [Payload.times, h])
  have haccepts : accepts subjectUserCreated ⟨subjectUserCreated, raw⟩ = true := (accepts_iff (by decide) _).mpr rfl
  have h₁ := h₀.env (.publish _ p u.createdAt (.userCreated u) raw hraw)
  have h₂ := h₁.env (.bus _ _ (.route _ p (⟨subjectUserCreated, raw⟩ : Msg) [] (fun _ ↦ true)
    (by simp [World.publish, Broker.send, Payload.subject]) fun _ _ ↦ rfl))
  let s : Sub P Msg String := ⟨subjectUserCreated, 0, [], [(p, ⟨subjectUserCreated, raw⟩)], false⟩
  have h₃ := h₂.env (.bus _ _ (.handle _ 0 s _ _
      (by simp [subjects, World.publish, Broker.send, Sub.offer, haccepts, s]) rfl))
  have hline : Event.unmarshal raw = some (line (p, u.createdAt, .userCreated u)) :=
    Carries.unmarshal (x := (p, ⟨subjectUserCreated, raw⟩)) ⟨rfl, rfl, hraw⟩
  refine ⟨_, _, _, h₃, ⟨_, starting_nil _⟩, _, List.mem_of_getElem? (List.getElem?_set_self ?_), rfl, ?_⟩
  · simp [subjects, World.publish, Broker.send]
  · simp [lines, ofPublisher, hline, s]

/-- However the messages of any number of publishers, the losses on their way, and the start and the stop of the service
interleave: the service only subscribes to its subjects, and what it logs for one of them are the publications of each
publisher on it, with their subject, time and data, in their order and none of them twice. -/
theorem logged_sublist {tr : List (Act Unit (World P) String Call.Reply)} {rest : Unit → M Unit}
    (h : ServiceRuns lossy tr rest w) : ∀ s ∈ w.bus.subs, s.pattern ∈ subjects ∧
      ∀ p, (lines (ofPublisher p s.handled)).Sublist ((onSubject p s.pattern w.announced).map line) := by
  intro s hs
  have hgood := Good.of_runs h
  have hsubj : s.pattern ∈ subjects := hgood.stage.pattern_mem (c := s.closed) (List.mem_map_of_mem hs)
  refine ⟨hsubj, fun p ↦ ?_⟩
  rw [← lines_ofPublisher hgood.carried p hsubj]
  exact (hgood.sound.handled_sublist hs p).filterMap _

omit [GoTime] in
theorem logged_sublist_of_one : ∃ _ : GoTime, ∃ tr rest, ∃ w : World Unit, ServiceRuns True tr rest w ∧
    (∃ s ∈ w.bus.subs, lines (ofPublisher () s.handled) = [line ((), 0, .userCreated ⟨"1", "a@b", 0⟩)]) ∧
    ∀ s ∈ w.bus.subs, s.pattern ∈ subjects ∧
      ∀ p, (lines (ofPublisher p s.handled)).Sublist ((onSubject p s.pattern w.announced).map line) := by
  let _ : GoTime := ⟨fun _ ↦ none⟩
  obtain ⟨tr, rest, w, hrun, -, s, hs, -, hlines⟩ := exists_logged True () ⟨"1", "a@b", 0⟩ (by decide)
  exact ⟨inferInstance, tr, rest, w, hrun, ⟨s, hs, hlines⟩, logged_sublist hrun⟩

/-- If nothing is lost, then every publication on the subject of an open subscription is in one place: it was routed
before the subscription was made, it has been logged, it waits to be logged, or it is still on its way to the broker. -/
theorem logged_exactly_once {tr : List (Act Unit (World P) String Call.Reply)} {rest : Unit → M Unit}
    (h : ServiceRuns False tr rest w) :
    ((∃ k, rest () = .call .signal k) → w.bus.flags = subjects.map (·, false)) ∧
    ∀ s ∈ w.bus.subs, s.closed = false → ∀ p,
      lines ((ofPublisher p (w.bus.routed.take s.since)).filter (accepts s.pattern)) ++
      lines (ofPublisher p s.handled) ++
        lines (ofPublisher p s.queue) ++ lines ((w.bus.links p).filter (accepts s.pattern)) =
          (onSubject p s.pattern w.announced).map line := by
  have hgood := Good.of_runs h
  constructor
  · rintro ⟨k, hk⟩
    have hstage := hgood.stage
    rw [hk] at hstage
    exact hstage.serving
  · intro s hs hopen p
    have hsubj : s.pattern ∈ subjects := hgood.stage.pattern_mem (c := s.closed) (List.mem_map_of_mem hs)
    rw [← lines_ofPublisher hgood.carried p hsubj, ← hgood.sound.accounts not_false hs hopen p]
    simp only [lines, List.filterMap_append]

omit [GoTime] in
theorem logged_exactly_once_of_one : ∃ _ : GoTime, ∃ tr rest, ∃ w : World Unit, ServiceRuns False tr rest w ∧
    w.bus.flags = subjects.map (·, false) ∧ ∃ s ∈ w.bus.subs, s.closed = false ∧
      lines (ofPublisher () s.handled) = [line ((), 0, .userCreated ⟨"1", "a@b", 0⟩)] ∧
      lines ((ofPublisher () (w.bus.routed.take s.since)).filter (accepts s.pattern)) ++
        lines (ofPublisher () s.handled) ++ lines (ofPublisher () s.queue) ++
          lines ((w.bus.links ()).filter (accepts s.pattern)) = (onSubject () s.pattern w.announced).map line := by
  let _ : GoTime := ⟨fun _ ↦ none⟩
  obtain ⟨tr, rest, w, hrun, hserving, s, hs, hopen, hlines⟩ := exists_logged False () ⟨"1", "a@b", 0⟩ (by decide)
  obtain ⟨hflags, hall⟩ := logged_exactly_once hrun
  exact ⟨inferInstance, tr, rest, w, hrun, hflags hserving, s, hs, hopen, hlines, hall s hs hopen ()⟩

end Lines

end EventPlatform.Notification
