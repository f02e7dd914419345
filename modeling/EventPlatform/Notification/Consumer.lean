import EventPlatform.Events.Payload
import EventPlatform.Interaction.Pool
import EventPlatform.PubSub

namespace EventPlatform.Notification

open Events Time Interaction Prog Pool PubSub

/-- A message on the wire. -/
structure Msg where
  subject : String
  data : List Char

def tokens (subject : String) : List (List Char) := subject.toList.splitOn '.'

/-- Subjects are compared token by token. A star takes any token, and a `>` at the end all that are left. -/
def matchTokens : List (List Char) → List (List Char) → Bool
  | [], [] => true
  | p :: ps, t :: ts => (p = ['>'] && ps.isEmpty) || ((p = ['*'] || p = t) && matchTokens ps ts)
  | _, _ => false

def accepts (pattern : String) (m : Msg) : Bool := matchTokens (tokens pattern) (tokens m.subject)

/-- The calls of the service on its bus, and the wait for the signal that ends `server.Run`. -/
inductive Call
  | subscribe (subject : String)
  | unsubscribe (sub : ℕ)
  | signal

@[reducible] def Call.Reply : Call → Type
  | .subscribe _ => ℕ
  | .unsubscribe _ | .signal => Unit

abbrev M := Prog String Call.Reply

def subjects : List String :=
  [subjectUserCreated, subjectWalletCreated, subjectTxSubmitted, subjectPaymentMade, subjectChainTransfer,
    subjectChainReorg]

/-- The loop of `Consumer.Start`, with the subscriptions that it has made. -/
def startFrom (subs : List ℕ) : List String → M (List ℕ)
  | [] => return subs
  | subj :: rest => do
    let unsub ← perform (Call.subscribe subj)
    startFrom (subs ++ [unsub]) rest

def start : M (List ℕ) := startFrom [] subjects

def stop : List ℕ → M Unit
  | [] => return
  | unsub :: subs => do
    let _ ← attempt (perform (Call.unsubscribe unsub))
    stop subs

def main : M Unit := do
  let subs ← start
  perform Call.signal
  stop subs

variable {P : Type} [DecidableEq P]

/-- The bus, and what has been published on it: by whom, when and with which payload. -/
structure World (P : Type) where
  bus : Broker P Msg String
  announced : List (P × ℤ × Payload)

def World.empty : World P := ⟨.empty, []⟩

/-- The bus puts the envelope of a payload on the link of a publisher. -/
def World.publish (w : World P) (p : P) (now : ℤ) (payload : Payload) (raw : List Char) : World P :=
  ⟨w.bus.send p ⟨payload.subject, raw⟩, w.announced ++ [(p, now, payload)]⟩

inductive Answers : Handler String Call.Reply (World P)
  | subscribe (w : World P) (subj : String) :
      Answers w (.subscribe subj) (.ok w.bus.subs.length) { w with bus := w.bus.subscribe subj }
  | refused (w : World P) (subj e : String) : Answers w (.subscribe subj) (.error e) w
  | unsubscribe (w : World P) (sub : ℕ) :
      Answers w (.unsubscribe sub) (.ok ()) { w with bus := w.bus.unsubscribe sub }
  | kept (w : World P) (sub : ℕ) (e : String) : Answers w (.unsubscribe sub) (.error e) w
  | signal (w : World P) : Answers w .signal (.ok ()) w

/-- What the other services and the bus do meanwhile. -/
inductive Env (lossy : Prop) : World P → World P → Prop
  | publish (w : World P) (p : P) (now : ℤ) (payload : Payload) (raw : List Char) :
      message now payload.subject payload.marshal = .ok raw →
      Env lossy w (w.publish p now payload raw)
  | bus (w : World P) (b : Broker P Msg String) : Step accepts lossy w.bus b → Env lossy w { w with bus := b }

/-- The runs of the service among any number of publishers. -/
abbrev ServiceRuns (lossy : Prop) :=
  Runs (Answers (P := P)) (Env lossy) (fun _ : Unit ↦ main) .empty

/-- What `Consumer.handle` has logged for the messages of a list: the subject, the time and the data of the envelope of
each. What cannot be read is dropped. -/
def lines [GoTime] (ms : List Msg) : List Event := ms.filterMap fun m ↦ Event.unmarshal m.data

section Matching

theorem matchTokens_literal {ps : List (List Char)} (h : ['>'] ∉ ps ∧ ['*'] ∉ ps) (ts : List (List Char)) :
    matchTokens ps ts = true ↔ ts = ps := by
  induction ps generalizing ts with
  | nil => cases ts <;> simp [matchTokens]
  | cons p ps ih =>
    simp only [List.mem_cons, not_or] at h
    cases ts with
    | nil => simp [matchTokens]
    | cons t ts =>
      have hp : p ≠ ['>'] ∧ p ≠ ['*'] := ⟨Ne.symm h.1.1, Ne.symm h.2.1⟩
      simp only [matchTokens, hp.1, hp.2, ih ⟨h.1.2, h.2.2⟩, decide_false, Bool.false_and, Bool.false_or,
        Bool.and_eq_true, decide_eq_true_eq, List.cons.injEq]
      constructor <;> exact fun h ↦ ⟨h.1.symm, h.2⟩

theorem tokens_injective {s t : String} (h : tokens s = tokens t) : s = t := by
  have hjoin := congrArg ([ '.' ].intercalate ·) h
  simp only [tokens, List.intercalate_splitOn] at hjoin
  exact String.toList_inj.mp hjoin

/-- The subjects of the service are no patterns. -/
theorem accepts_iff {subj : String} (h : subj ∈ subjects) (m : Msg) : accepts subj m = true ↔ m.subject = subj := by
  have hliteral : ['>'] ∉ tokens subj ∧ ['*'] ∉ tokens subj := by
    revert subj
    decide
  rw [accepts, matchTokens_literal hliteral]
  exact ⟨tokens_injective, fun h ↦ h ▸ rfl⟩

end Matching

end EventPlatform.Notification
