import Mathlib.Data.List.Basic
import Mathlib.Data.List.Perm.Subperm
import Mathlib.Logic.Function.Basic
import Mathlib.Order.Basic

namespace EventPlatform.PubSub

/-- A subscription: its pattern, how many messages had been routed when it was made, the messages that its handler has
been called with and those that wait for it. -/
structure Sub (P M Q : Type) where
  pattern : Q
  since : ℕ
  handled : List (P × M)
  queue : List (P × M)
  closed : Bool

/-- A broker between publishers `P` and subscriptions. Each publisher has a link of its own, on which messages wait to
be routed; `sent` and `routed` record what was put on a link and what was taken from one. -/
structure Broker (P M Q : Type) where
  sent : List (P × M)
  links : P → List M
  routed : List (P × M)
  subs : List (Sub P M Q)

variable {P M Q : Type} [DecidableEq P]

def ofPublisher (p : P) (l : List (P × M)) : List M := (l.filter fun x ↦ x.1 = p).map Prod.snd

/-- A message joins the queue of an open subscription with a pattern that accepts it, unless it is lost on the way. -/
def Sub.offer (accepts : Q → M → Bool) (x : P × M) (kept : Bool) (s : Sub P M Q) : Sub P M Q :=
  if kept && !s.closed && accepts s.pattern x.2 then { s with queue := s.queue ++ [x] } else s

namespace Broker

def empty : Broker P M Q := ⟨[], fun _ ↦ [], [], []⟩

def send (b : Broker P M Q) (p : P) (m : M) : Broker P M Q :=
  { b with sent := b.sent ++ [(p, m)], links := Function.update b.links p (b.links p ++ [m]) }

def subscribe (b : Broker P M Q) (pattern : Q) : Broker P M Q :=
  { b with subs := b.subs ++ [⟨pattern, b.routed.length, [], [], false⟩] }

/-- What waits for a subscription when it is closed is dropped. -/
def unsubscribe (b : Broker P M Q) (i : ℕ) : Broker P M Q :=
  { b with subs := b.subs.modify i fun s ↦ { s with queue := [], closed := true } }

/-- The pattern of every subscription, and whether it is closed. -/
def flags (b : Broker P M Q) : List (Q × Bool) := b.subs.map fun s ↦ (s.pattern, s.closed)

end Broker

/-- What happens between the publishers and the handlers. A message is lost only if `lossy` holds. -/
inductive Step (accepts : Q → M → Bool) (lossy : Prop) : Broker P M Q → Broker P M Q → Prop
  | lose (b : Broker P M Q) (p : P) (m : M) (rest : List M) : lossy → b.links p = m :: rest →
      Step accepts lossy b { b with links := Function.update b.links p rest }
  | route (b : Broker P M Q) (p : P) (m : M) (rest : List M) (kept : ℕ → Bool) : b.links p = m :: rest →
      (¬ lossy → ∀ i, kept i = true) →
      Step accepts lossy b { b with
        links := Function.update b.links p rest
        routed := b.routed ++ [(p, m)]
        subs := b.subs.mapIdx fun i s ↦ s.offer accepts (p, m) (kept i) }
  | handle (b : Broker P M Q) (i : ℕ) (s : Sub P M Q) (x : P × M) (xs : List (P × M)) : b.subs[i]? = some s →
      s.queue = x :: xs →
      Step accepts lossy b { b with subs := b.subs.set i { s with handled := s.handled ++ [x], queue := xs } }

section Flags

variable {accepts : Q → M → Bool} {lossy : Prop} {b b' : Broker P M Q}

omit [DecidableEq P] in
theorem Broker.flags_subscribe (pattern : Q) : (b.subscribe pattern).flags = b.flags ++ [(pattern, false)] :=
  List.map_append

omit [DecidableEq P] in
theorem Broker.flags_unsubscribe (i : ℕ) : (b.unsubscribe i).flags.map Prod.fst = b.flags.map Prod.fst := by
  refine List.ext_getElem? fun j ↦ ?_
  simp only [flags, unsubscribe, List.getElem?_map, List.getElem?_modify, Option.map_map]
  cases b.subs[j]? with
  | none => rfl
  | some s => by_cases hij : i = j <;> simp [hij]

theorem Step.flags (h : Step accepts lossy b b') : b'.flags = b.flags := by
  cases h with
  | lose => rfl
  | route p m rest kept hp hkept =>
    refine List.ext_getElem? fun j ↦ ?_
    simp only [Broker.flags, List.getElem?_map, List.getElem?_mapIdx]
    cases b.subs[j]? with
    | none => rfl
    | some s =>
      simp only [Option.map_some, Sub.offer]
      split <;> rfl
  | handle i s x xs hi hq =>
    refine List.ext_getElem? fun j ↦ ?_
    simp only [Broker.flags, List.getElem?_map, List.getElem?_set]
    by_cases hij : i = j
    · subst hij
      obtain ⟨hlt, -⟩ := List.getElem?_eq_some_iff.mp hi
      rw [if_pos rfl, if_pos hlt, hi, Option.map_some, Option.map_some]
    · rw [if_neg hij]

end Flags

section Invariant

variable {accepts : Q → M → Bool} {lossy : Prop} {b b' : Broker P M Q} {s : Sub P M Q} {routed : List (P × M)}

/-- What was routed to a subscription since it was made. -/
def Sub.due (accepts : Q → M → Bool) (routed : List (P × M)) (s : Sub P M Q) : List (P × M) :=
  (routed.drop s.since).filter fun x ↦ accepts s.pattern x.2

/-- A subscription gets what is due to it at most once and in order, and without loss it misses nothing until it is
closed. -/
structure Sub.Fits (accepts : Q → M → Bool) (lossy : Prop) (routed : List (P × M)) (s : Sub P M Q) : Prop where
  since_le : s.since ≤ routed.length
  sublist : (s.handled ++ s.queue).Sublist (s.due accepts routed)
  lossless : ¬ lossy → s.handled ++ s.queue <+: s.due accepts routed
  exact : ¬ lossy → s.closed = false → s.handled ++ s.queue = s.due accepts routed

/-- The links keep the order of each publisher, and the subscriptions that of the broker. -/
structure Sound (accepts : Q → M → Bool) (lossy : Prop) (b : Broker P M Q) : Prop where
  links : ∀ p, (ofPublisher p b.routed ++ b.links p).Sublist (ofPublisher p b.sent)
  exact : ¬ lossy → ∀ p, ofPublisher p b.routed ++ b.links p = ofPublisher p b.sent
  subs : ∀ s ∈ b.subs, s.Fits accepts lossy b.routed

omit [DecidableEq P] in
theorem Sub.due_append (x : P × M) (h : s.since ≤ routed.length) :
    s.due accepts (routed ++ [x]) = s.due accepts routed ++ if accepts s.pattern x.2 then [x] else [] := by
  rw [due, List.drop_append_of_le_length h, List.filter_append, due]
  cases hx : accepts s.pattern x.2 <;> simp [hx]

omit [DecidableEq P] in
theorem Sub.Fits.offer (h : s.Fits accepts lossy routed) (x : P × M) {kept : Bool} (hkept : ¬ lossy → kept = true) :
    (s.offer accepts x kept).Fits accepts lossy (routed ++ [x]) := by
  have hdue : s.due accepts (routed ++ [x]) = _ := s.due_append x h.since_le
  have hlength : s.since ≤ (routed ++ [x]).length := by
    rw [List.length_append]
    exact Nat.le_add_right_of_le h.since_le
  unfold Sub.offer
  by_cases hjoin : (kept && !s.closed && accepts s.pattern x.2) = true
  · -- the message is at the end of both lists
    rw [if_pos hjoin]
    simp only [Bool.and_eq_true, Bool.not_eq_true'] at hjoin
    rw [if_pos hjoin.2] at hdue
    have hequal (hl : ¬ lossy) : s.handled ++ (s.queue ++ [x]) = s.due accepts (routed ++ [x]) := by
      rw [← List.append_assoc, h.exact hl hjoin.1.2, hdue]
    refine ⟨hlength, ?_, fun hl ↦ ?_, fun hl _ ↦ hequal hl⟩
    · change (s.handled ++ (s.queue ++ [x])).Sublist (s.due accepts (routed ++ [x]))
      rw [← List.append_assoc, hdue]
      exact h.sublist.append_right [x]
    · refine ⟨[], ?_⟩
      rw [List.append_nil]
      exact hequal hl
  · rw [if_neg hjoin]
    refine ⟨hlength, ?_, fun hl ↦ ?_, fun hl hopen ↦ ?_⟩
    · rw [hdue]
      exact h.sublist.trans (List.sublist_append_left _ _)
    · rw [hdue]
      exact (h.lossless hl).trans (List.prefix_append _ _)
    · have hnot : accepts s.pattern x.2 = false := by simpa [hkept hl, hopen] using hjoin
      rw [hdue, hnot, h.exact hl hopen]
      simp

omit [DecidableEq P] in
theorem Sub.Fits.handle (h : s.Fits accepts lossy routed) {x : P × M} {xs : List (P × M)} (hq : s.queue = x :: xs) :
    Sub.Fits accepts lossy routed { s with handled := s.handled ++ [x], queue := xs } := by
  have hsame : (s.handled ++ [x]) ++ xs = s.handled ++ s.queue := by rw [hq, List.append_assoc, List.singleton_append]
  exact ⟨h.since_le, hsame ▸ h.sublist, fun hl ↦ hsame ▸ h.lossless hl, fun hl hc ↦ hsame ▸ h.exact hl hc⟩

omit [DecidableEq P] in
theorem Sub.Fits.close (h : s.Fits accepts lossy routed) :
    Sub.Fits accepts lossy routed { s with queue := [], closed := true } := by
  refine ⟨h.since_le, ?_, fun hl ↦ ?_, nofun⟩
  · rw [List.append_nil]
    exact (List.sublist_append_left _ _).trans h.sublist
  · rw [List.append_nil]
    exact (List.prefix_append _ _).trans (h.lossless hl)

@[simp] theorem ofPublisher_append (p : P) (l l' : List (P × M)) :
    ofPublisher p (l ++ l') = ofPublisher p l ++ ofPublisher p l' := by
  simp [ofPublisher]

theorem ofPublisher_filter (p : P) (f : M → Bool) (l : List (P × M)) :
    ofPublisher p (l.filter fun x ↦ f x.2) = (ofPublisher p l).filter f := by
  rw [ofPublisher, ofPublisher, List.filter_map, List.filter_filter, List.filter_filter]
  simp [Bool.and_comm]

theorem ofPublisher_self (p : P) (m : M) : ofPublisher p [(p, m)] = [m] := by simp [ofPublisher]

theorem ofPublisher_of_ne {p q : P} (h : q ≠ p) (m : M) : ofPublisher p [(q, m)] = [] := by simp [ofPublisher, h]

/-- What is in order for each publisher is a selection over all of them. -/
theorem subperm_of_ofPublisher {l l' : List (P × M)} (h : ∀ p, (ofPublisher p l).Sublist (ofPublisher p l')) :
    l.Subperm l' := by
  classical
  have hcount (l : List (P × M)) (x : P × M) : l.count x = (ofPublisher x.1 l).count x.2 := by
    rw [List.count, List.count, ofPublisher, List.countP_map, List.countP_filter]
    refine List.countP_congr fun y _ ↦ ?_
    simp only [beq_iff_eq, Function.comp_apply, Bool.and_eq_true, decide_eq_true_eq, Prod.ext_iff, and_comm]
  refine List.subperm_ext_iff.mpr fun x _ ↦ ?_
  rw [hcount, hcount]
  exact (h x.1).count_le x.2

theorem perm_of_ofPublisher {l l' : List (P × M)} (h : ∀ p, ofPublisher p l = ofPublisher p l') : l.Perm l' :=
  List.Subperm.antisymm (subperm_of_ofPublisher fun p ↦ h p ▸ .refl _) (subperm_of_ofPublisher fun p ↦ h p ▸ .refl _)

namespace Sound

theorem empty : Sound accepts lossy (Broker.empty : Broker P M Q) := by
  constructor <;> simp [Broker.empty, ofPublisher]

theorem send (h : Sound accepts lossy b) (p : P) (m : M) : Sound accepts lossy (b.send p m) := by
  refine ⟨fun q ↦ ?_, fun hl q ↦ ?_, h.subs⟩
  · dsimp only [Broker.send]
    by_cases hq : q = p
    · subst hq
      rw [ofPublisher_append, ofPublisher_self, Function.update_self, ← List.append_assoc]
      exact (h.links q).append_right [m]
    · rw [ofPublisher_append, ofPublisher_of_ne (Ne.symm hq), Function.update_of_ne hq, List.append_nil]
      exact h.links q
  · dsimp only [Broker.send]
    by_cases hq : q = p
    · subst hq
      rw [ofPublisher_append, ofPublisher_self, Function.update_self, ← List.append_assoc, h.exact hl]
    · rw [ofPublisher_append, ofPublisher_of_ne (Ne.symm hq), Function.update_of_ne hq, List.append_nil, h.exact hl]

theorem subscribe (h : Sound accepts lossy b) (q : Q) : Sound accepts lossy (b.subscribe q) := by
  refine ⟨h.links, h.exact, fun s hs ↦ ?_⟩
  obtain hs | hs := List.mem_append.mp hs
  · exact h.subs s hs
  · rw [List.mem_singleton.mp hs]
    constructor <;> simp [Sub.due, Broker.subscribe]

theorem unsubscribe (h : Sound accepts lossy b) (i : ℕ) : Sound accepts lossy (b.unsubscribe i) := by
  refine ⟨h.links, h.exact, fun s hs ↦ ?_⟩
  obtain ⟨j, hj⟩ := List.mem_iff_getElem?.mp hs
  rw [Broker.unsubscribe, List.getElem?_modify] at hj
  obtain ⟨t, ht, rfl⟩ := Option.map_eq_some_iff.mp hj
  have hfits := h.subs t (List.mem_of_getElem? ht)
  split
  · exact hfits.close
  · exact hfits

/-- Taking a message from a link leaves the rest of the link to its publisher. -/
theorem route_links {p : P} {m : M} {rest : List M} (hp : b.links p = m :: rest) (q : P) :
    ofPublisher q (b.routed ++ [(p, m)]) ++ Function.update b.links p rest q = ofPublisher q b.routed ++ b.links q := by
  by_cases hq : q = p
  · subst hq
    rw [ofPublisher_append, ofPublisher_self, Function.update_self, List.append_assoc, hp, List.singleton_append]
  · rw [ofPublisher_append, ofPublisher_of_ne (Ne.symm hq), Function.update_of_ne hq, List.append_nil]

theorem step (h : Sound accepts lossy b) (hs : Step accepts lossy b b') : Sound accepts lossy b' := by
  cases hs with
  | lose p m rest hl hp =>
    refine ⟨fun q ↦ ?_, fun hn ↦ absurd hl hn, h.subs⟩
    refine List.Sublist.trans ?_ (h.links q)
    dsimp only
    by_cases hq : q = p
    · subst hq
      rw [Function.update_self, hp]
      exact (List.sublist_cons_self m rest).append_left _
    · rw [Function.update_of_ne hq]
  | route p m rest kept hp hkept =>
    refine ⟨fun q ↦ ?_, fun hl q ↦ ?_, fun s hs ↦ ?_⟩
    · exact route_links hp q ▸ h.links q
    · exact (route_links hp q).trans (h.exact hl q)
    · obtain ⟨i, hi, rfl⟩ := List.mem_mapIdx.mp hs
      exact (h.subs _ (List.getElem_mem hi)).offer (p, m) fun hl ↦ hkept hl i
  | handle i s x xs hi hq =>
    refine ⟨h.links, h.exact, fun t ht ↦ ?_⟩
    obtain ht | rfl := List.mem_or_eq_of_mem_set ht
    · exact h.subs t ht
    · exact (h.subs s (List.mem_of_getElem? hi)).handle hq

/-- The handler of a subscription sees the messages of a publisher in the order in which they were sent, and none of
them twice. -/
theorem handled_sublist (h : Sound accepts lossy b) (hs : s ∈ b.subs) (p : P) :
    (ofPublisher p s.handled).Sublist ((ofPublisher p b.sent).filter (accepts s.pattern)) := by
  have hdue : (ofPublisher p (s.due accepts b.routed)).Sublist
      ((ofPublisher p b.routed).filter (accepts s.pattern)) := by
    rw [← ofPublisher_filter]
    exact (((List.drop_sublist _ _).filter _).filter _).map _
  have hhandled : (ofPublisher p s.handled).Sublist (ofPublisher p (s.due accepts b.routed)) :=
    (((List.sublist_append_left _ _).trans (h.subs s hs).sublist).filter _).map _
  have hsent : (ofPublisher p b.routed).Sublist (ofPublisher p b.sent) :=
    (List.sublist_append_left _ _).trans (h.links p)
  exact hhandled.trans (hdue.trans (hsent.filter _))

/-- Without loss every message of a publisher is in one place: it was routed before the subscription was made, its
handler has seen it, it waits for the handler, or it is still on the link. -/
theorem accounts (h : Sound accepts lossy b) (hl : ¬ lossy) (hs : s ∈ b.subs) (hopen : s.closed = false) (p : P) :
    (ofPublisher p (b.routed.take s.since)).filter (accepts s.pattern) ++ ofPublisher p s.handled ++
      ofPublisher p s.queue ++ (b.links p).filter (accepts s.pattern) =
        (ofPublisher p b.sent).filter (accepts s.pattern) := by
  have hdue := congrArg (ofPublisher p) ((h.subs s hs).exact hl hopen)
  rw [ofPublisher_append, Sub.due, ofPublisher_filter] at hdue
  have hrouted : ofPublisher p (b.routed.take s.since) ++ ofPublisher p (b.routed.drop s.since) =
      ofPublisher p b.routed := by
    rw [← ofPublisher_append, List.take_append_drop]
  rw [← h.exact hl p, List.filter_append, ← hrouted, List.filter_append, ← hdue]
  simp only [List.append_assoc]

/-- Over all publishers the handler of a subscription sees a selection of what was sent. -/
theorem handled_subperm (h : Sound accepts lossy b) (hs : s ∈ b.subs) :
    s.handled.Subperm (b.sent.filter fun x ↦ accepts s.pattern x.2) := by
  refine subperm_of_ofPublisher fun p ↦ ?_
  rw [ofPublisher_filter]
  exact h.handled_sublist hs p

/-- Without loss the handler of a subscription that was there from the start has seen everything once nothing is left on
the way. -/
theorem handled_perm (h : Sound accepts lossy b) (hl : ¬ lossy) (hs : s ∈ b.subs) (hopen : s.closed = false)
    (hsince : s.since = 0) (hqueue : s.queue = []) (hlinks : ∀ p, b.links p = []) :
    s.handled.Perm (b.sent.filter fun x ↦ accepts s.pattern x.2) := by
  refine perm_of_ofPublisher fun p ↦ ?_
  have haccounts := h.accounts hl hs hopen p
  rw [hsince, hqueue, hlinks] at haccounts
  rw [ofPublisher_filter, ← haccounts]
  simp [ofPublisher]

end Sound

end Invariant

end EventPlatform.PubSub
