import EventPlatform.Interaction.Simulation
import EventPlatform.Notification.Delivery

namespace EventPlatform.Platform

open Events Time Interaction Prog Pool PubSub
open scoped List

variable {P W ε Op T α : Type} {Reply : Op → Type}

/-- The world of a service, with the bus and the notification service beside it. -/
structure World (W P : Type) where
  own : W
  bus : Notification.World P
  consumer : Notification.M Unit

/-- What a service has published on its subject, by its own account. -/
structure Publishes (H : Handler ε Reply W) (env : W → W → Prop) (announces : Op → Option Payload) (subj : String)
    (events : W → List Payload) : Prop where
  subject : ∀ c x, announces c = some x → x.subject = subj
  call : ∀ w c r w', H w c r w' → events w' = events w ++ if r.isOk then (announces c).toList else []
  env : ∀ w w', env w w' → events w' = events w

theorem subperm_map {β γ : Type} (f : β → γ) {l l' : List β} (h : l <+~ l') : l.map f <+~ l'.map f := by
  obtain ⟨l₁, hperm, hsub⟩ := h
  exact ⟨l₁.map f, hperm.map f, hsub.map f⟩

theorem nodup_of_subperm {β : Type} {l l' : List β} (h : l <+~ l') (hl : l'.Nodup) : l.Nodup := by
  obtain ⟨l₁, hperm, hsub⟩ := h
  exact hperm.nodup_iff.mp (hl.sublist hsub)

variable [DecidableEq P]

/-- A publication that the service takes as made has put an envelope on a link of the bus. -/
inductive Answers (H : Handler ε Reply W) (announces : Op → Option Payload) : Handler ε Reply (World W P)
  | quiet (w : World W P) (c : Op) (r : Except ε (Reply c)) (own : W) : H w.own c r own →
      announces c = none ∨ r.isOk = false → Answers H announces w c r { w with own }
  | published (w : World W P) (c : Op) (r : Except ε (Reply c)) (own : W) (p : P) (now : ℤ) (x : Payload)
      (raw : List Char) : H w.own c r own → announces c = some x → r.isOk = true →
      message now x.subject x.marshal = .ok raw →
      Answers H announces w c r { w with own, bus := w.bus.publish p now x raw }

/-- Meanwhile the notification service makes its calls, the bus moves messages, and the other services publish on
subjects of their own. -/
inductive Env (lossy : Prop) (subj : String) (env : W → W → Prop) : World W P → World W P → Prop
  | own (w : World W P) (own : W) : env w.own own → Env lossy subj env w { w with own }
  | consumer (w : World W P) (q : Notification.M Unit) (v : Notification.World P) :
      Notification.Moves (w.consumer, w.bus) (q, v) → Env lossy subj env w { w with bus := v, consumer := q }
  | publish (w : World W P) (p : P) (now : ℤ) (x : Payload) (raw : List Char) : x.subject ≠ subj →
      message now x.subject x.marshal = .ok raw → Env lossy subj env w { w with bus := w.bus.publish p now x raw }
  | bus (w : World W P) (b : Broker P Notification.Msg String) : Step Notification.accepts lossy w.bus.bus b →
      Env lossy subj env w { w with bus := { w.bus with bus := b } }

variable [DecidableEq T]

/-- The runs of a service together with the bus, the notification service and the rest of the platform. -/
abbrev JointRuns (lossy : Prop) (subj : String) (H : Handler ε Reply W) (env : W → W → Prop)
    (announces : Op → Option Payload) (start : T → Prog ε Reply α) (w₀ : W) :=
  Runs (Answers (P := P) H announces) (Env lossy subj env) start ⟨w₀, .empty, Notification.main⟩

section Projections

variable {lossy : Prop} {subj : String} {H : Handler ε Reply W} {env : W → W → Prop} {announces : Op → Option Payload}
  {start : T → Prog ε Reply α} {w₀ : W} {tr : List (Act T (World W P) ε Reply)} {rest : T → Prog ε Reply α}
  {w : World W P}

/-- The service runs as it does by itself. -/
theorem own_runs (h : JointRuns lossy subj H env announces start w₀ tr rest w) :
    Runs H env start w₀ (tr.map (Act.map World.own)) rest w.own := by
  refine h.project World.own (fun w c r w' hs ↦ ?_) fun w w' he ↦ ?_
  · cases hs <;> assumption
  · cases he with
    | own _ he => exact .inr he
    | consumer | publish | bus => exact .inl rfl

/-- The bus and the notification service run as they do among any publishers. -/
theorem good (h : JointRuns lossy subj H env announces start w₀ tr rest w) :
    Notification.Good lossy w.consumer w.bus := by
  induction h with
  | init => exact .empty
  | call _ _ hs ih =>
    cases hs with
    | quiet => exact ih
    | published _ _ _ _ p now x raw _ _ _ hraw => exact ih.env (.publish _ p now x raw hraw)
  | env _ he ih =>
    cases he with
    | own => exact ih
    | consumer q v hmove =>
      cases hmove with
      | call hq ha => exact Notification.Good.call (hq ▸ ih) ha
    | publish p now x raw _ hraw => exact ih.env (.publish _ p now x raw hraw)
    | bus b hb => exact ih.env (.bus _ b hb)

variable {events : W → List Payload}

/-- What is on the bus under the subject of the service is what the service has published. -/
theorem announced_eq (hp : Publishes H env announces subj events) (h₀ : events w₀ = [])
    (h : JointRuns lossy subj H env announces start w₀ tr rest w) :
    (w.bus.announced.filter fun a ↦ a.2.2.subject = subj).map (·.2.2) = events w.own := by
  induction h with
  | init => exact h₀.symm
  | @call tr rest w w' t c k r _ _ hs ih =>
    cases hs with
    | quiet _ _ _ own hown hquiet =>
      have hevents := hp.call _ _ _ _ hown
      obtain hnone | herr := hquiet
      · rw [hnone, Option.toList_none, ite_self, List.append_nil] at hevents
        exact ih.trans hevents.symm
      · rw [herr, if_neg Bool.false_ne_true, List.append_nil] at hevents
        exact ih.trans hevents.symm
    | published _ _ _ own p now x raw hown hx hok hraw =>
      have hevents := hp.call _ _ _ _ hown
      rw [if_pos hok, hx, ← ih] at hevents
      rw [hevents]
      simp [Notification.World.publish, hp.subject c x hx]
  | env _ he ih =>
    cases he with
    | own _ he => exact ih.trans (hp.env _ _ he).symm
    | consumer q v hmove =>
      cases hmove with
      | call hq ha => cases ha <;> exact ih
    | publish p now x raw hne hraw => simpa [Notification.World.publish, hne] using ih
    | bus => exact ih

end Projections

section Notices

variable [GoTime]

/-- The subject and the data of each line that has been logged for a subscription. -/
def notices (s : Sub P Notification.Msg String) : List (String × List Char) :=
  (Notification.lines (s.handled.map Prod.snd)).map fun e ↦ (e.subject, e.data)

variable {lossy : Prop} {subj : String} {H : Handler ε Reply W} {env : W → W → Prop} {announces : Op → Option Payload}
  {start : T → Prog ε Reply α} {w₀ : W} {tr : List (Act T (World W P) ε Reply)} {rest : T → Prog ε Reply α}
  {w : World W P} {events : W → List Payload} {s : Sub P Notification.Msg String}

theorem notices_sent (hp : Publishes H env announces subj events) (h₀ : events w₀ = [])
    (h : JointRuns lossy subj H env announces start w₀ tr rest w) (hsubj : subj ∈ Notification.subjects) :
    (Notification.lines ((w.bus.bus.sent.filter fun x ↦ Notification.accepts subj x.2).map Prod.snd)).map
      (fun e ↦ (e.subject, e.data)) = (events w.own).map fun x ↦ (subj, Notification.text x) := by
  have hlines := Notification.lines_carried (good h).carried (fun _ ↦ true) hsubj
  simp only [Bool.true_and] at hlines
  rw [hlines, ← announced_eq hp h₀ h, List.map_map, List.map_map]
  refine List.map_congr_left fun a ha ↦ ?_
  have hsubject : a.2.2.subject = subj := by simpa using (List.mem_filter.mp ha).2
  simp [Notification.line, hsubject]

/-- What is logged for the subject of the service has been published by it, and nothing is logged more often. -/
theorem notices_subperm (hp : Publishes H env announces subj events) (h₀ : events w₀ = [])
    (h : JointRuns lossy subj H env announces start w₀ tr rest w) (hs : s ∈ w.bus.bus.subs)
    (hpattern : s.pattern = subj) :
    notices s <+~ (events w.own).map fun x ↦ (subj, Notification.text x) := by
  have hgood := good h
  have hsubj : subj ∈ Notification.subjects := by
    rw [← hpattern]
    exact hgood.stage.pattern_mem (c := s.closed) (List.mem_map_of_mem hs)
  rw [← notices_sent hp h₀ h hsubj]
  have hhandled := hgood.sound.handled_subperm hs
  rw [hpattern] at hhandled
  obtain ⟨l, hperm, hsub⟩ := hhandled
  exact subperm_map _ ⟨_, (hperm.map Prod.snd).filterMap _, (hsub.map Prod.snd).filterMap _⟩

/-- If nothing is lost or on its way, then all that the service has published since the subscription was made is
logged. -/
theorem notices_perm (hp : Publishes H env announces subj events) (h₀ : events w₀ = [])
    (h : JointRuns False subj H env announces start w₀ tr rest w) (hs : s ∈ w.bus.bus.subs)
    (hpattern : s.pattern = subj)
    (hopen : s.closed = false) (hsince : s.since = 0) (hqueue : s.queue = []) (hlinks : ∀ p, w.bus.bus.links p = []) :
    notices s ~ (events w.own).map fun x ↦ (subj, Notification.text x) := by
  have hgood := good h
  have hsubj : subj ∈ Notification.subjects := by
    rw [← hpattern]
    exact hgood.stage.pattern_mem (c := s.closed) (List.mem_map_of_mem hs)
  rw [← notices_sent hp h₀ h hsubj]
  have hhandled := hgood.sound.handled_perm not_false hs hopen hsince hqueue hlinks
  rw [hpattern] at hhandled
  exact ((hhandled.map Prod.snd).filterMap _).map _

omit [GoTime] in
/-- The notification service starts before anything else happens. -/
theorem runs_of_moves {q : Notification.M Unit} {v : Notification.World P}
    (h : Relation.ReflTransGen Notification.Moves (Notification.main, .empty) (q, v)) :
    JointRuns lossy subj H env announces start w₀ [] start ⟨w₀, v, q⟩ := by
  generalize hx : (q, v) = x at h
  induction h generalizing q v with
  | refl =>
    cases hx
    exact .init
  | tail _ hmove ih =>
    subst hx
    exact (ih rfl).env (.consumer _ q v hmove)

/-- The bus with the subscriptions of the notification service, before anything is published. -/
def upBus : Notification.World P :=
  ⟨⟨[], fun _ ↦ [], [], Notification.subjects.map (⟨·, 0, [], [], false⟩)⟩, []⟩

/-- A publication is logged, and nothing else happens until then. -/
theorem runs_noticed {own own' : W} {q : Notification.M Unit} {t : T} {c : Op} {k : Except ε (Reply c) → Prog ε Reply α}
    {r : Except ε (Reply c)} {x : Payload} {i : ℕ} (hi : Notification.subjects[i]? = some subj)
    (hsubj : x.subject = subj)
    (h : JointRuns lossy subj H env announces start w₀ tr rest ⟨own, upBus, q⟩)
    (hc : rest t = .call c k) (hH : H own c r own') (hx : announces c = some x) (hok : r.isOk = true)
    (htimes : ∀ t ∈ 0 :: x.times, InRange t) (p : P) :
    ∃ v v' w : World W P, JointRuns lossy subj H env announces start w₀ (tr ++ [⟨t, v, c, r, v'⟩])
        (Function.update rest t (k r)) w ∧ v.own = own ∧ v'.own = own' ∧ w.own = own' ∧
      (∀ p, w.bus.bus.links p = []) ∧ ∃ s ∈ w.bus.bus.subs, s.pattern = subj ∧ s.closed = false ∧ s.since = 0 ∧
        s.queue = [] ∧ notices s = [(subj, Notification.text x)] := by
  obtain ⟨raw, hraw⟩ := (exists_message 0 x).mpr htimes
  have haccepts : Notification.accepts subj ⟨subj, raw⟩ = true :=
    (Notification.accepts_iff (List.mem_of_getElem? hi) _).mpr rfl
  have h₁ := h.call hc (.published _ c r own' p 0 x raw hH hx hok hraw)
  have h₂ := h₁.env (.bus _ _ (.route _ p (⟨subj, raw⟩ : Notification.Msg) [] (fun _ ↦ true)
    (by simp [upBus, Notification.World.publish, Broker.send, hsubj]) fun _ _ ↦ rfl))
  let s : Sub P Notification.Msg String := ⟨subj, 0, [], [(p, ⟨subj, raw⟩)], false⟩
  have h₃ := h₂.env (.bus _ _ (.handle _ i s _ _
    (by simp [upBus, Notification.World.publish, Broker.send, Sub.offer, hi, haccepts, s]) rfl))
  have hline : Event.unmarshal raw = some (Notification.line (p, 0, x)) :=
    Notification.Carries.unmarshal (x := (p, ⟨x.subject, raw⟩)) ⟨rfl, rfl, hraw⟩
  refine ⟨_, _, _, h₃, rfl, rfl, rfl, fun p' ↦ ?_, _, List.mem_of_getElem? (List.getElem?_set_self ?_), rfl, rfl, rfl,
    rfl, ?_⟩
  · by_cases hp : p' = p
    · subst hp
      simp
    · simp [upBus, Notification.World.publish, Broker.send, hp]
  · simpa [upBus, Notification.World.publish, Broker.send] using (List.getElem?_eq_some_iff.mp hi).1
  · simp [notices, Notification.lines, Notification.line, hline, hsubj, s]

end Notices

end EventPlatform.Platform
