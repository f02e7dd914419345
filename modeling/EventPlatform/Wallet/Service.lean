import EventPlatform.Ethereum.Types
import EventPlatform.Interaction.Pool
import EventPlatform.Wallet.Routes

namespace EventPlatform.Wallet

open Ethereum Interaction Prog Pool

set_option linter.dupNamespace false in
/-- A time is counted from the zero value of `time.Time`. -/
structure Wallet where
  address : String
  createdAt : ℤ
  deriving DecidableEq

/-- What a service does on its keystore, the clock, its map `created` and its bus. Each access to the map is one step,
since it is made under the lock. -/
inductive Op
  | newAccount
  | now
  | insert (a : Address) (t : ℤ)
  | publish (x : Wallet)
  | accounts
  | lookup (a : Address)

@[reducible] def Op.Reply : Op → Type
  | .newAccount => Address
  | .now | .lookup _ => ℤ
  | .insert _ _ | .publish _ => Unit
  | .accounts => List Address

/-- A call, with the number of the service that makes it. -/
abbrev Call := ℕ × Op

abbrev Call.Reply (c : Call) : Type := c.2.Reply

abbrev M := Prog String Call.Reply

def ask (s : ℕ) (o : Op) : M o.Reply := perform (s, o)

section Service

variable [GoEthereum]

def create (s : ℕ) : M Wallet := do
  let acct ← ask s .newAccount
  let now ← ask s .now
  ask s (.insert acct now)
  let x : Wallet := ⟨GoEthereum.addressHex acct, now⟩
  let _ ← attempt (ask s (.publish x))
  return x

/-- The loop of `List`, with what it has appended so far. -/
def listFrom (s : ℕ) (out : List Wallet) : List Address → M (List Wallet)
  | [] => return out
  | a :: accts => do
    let ts ← ask s (.lookup a)
    listFrom s (out ++ [⟨GoEthereum.addressHex a, ts⟩]) accts

def list (s : ℕ) : M (List Wallet) := do
  let accts ← ask s .accounts
  listFrom s [] accts

inductive Outcome
  | wallet (x : Wallet)
  | wallets (xs : List Wallet)

def serve (s : ℕ) : Request → M Outcome
  | .create => do return .wallet (← create s)
  | .list => do return .wallets (← list s)

end Service

/-- The keystore directory, the number of the running service, the maps of all services, and the wallets announced on
`wallet.created`. -/
structure World where
  accounts : List Address
  running : ℕ
  created : ℕ → Address → Option ℤ
  events : List Wallet

def World.empty : World := ⟨[], 0, fun _ _ ↦ none, []⟩

/-- The next service opens the same directory. Its map is empty, as that of every service that has not run. -/
def World.restart (w : World) : World := { w with running := w.running + 1 }

/-- Only the running service is answered: the calls of an earlier one have ended with it. -/
inductive Answers : Handler String Call.Reply World
  | newAccount (w : World) (a : Address) (h : a ∉ w.accounts) :
      Answers w (w.running, .newAccount) (.ok a) { w with accounts := w.accounts ++ [a] }
  | noAccount (w : World) (e : String) : Answers w (w.running, .newAccount) (.error e) w
  | now (w : World) (t : ℤ) : Answers w (w.running, .now) (.ok t) w
  | insert (w : World) (a : Address) (t : ℤ) : Answers w (w.running, .insert a t) (.ok ())
      { w with created := Function.update w.created w.running (Function.update (w.created w.running) a (some t)) }
  | publish (w : World) (x : Wallet) :
      Answers w (w.running, .publish x) (.ok ()) { w with events := w.events ++ [x] }
  | dropped (w : World) (x : Wallet) (e : String) : Answers w (w.running, .publish x) (.error e) w
  | accounts (w : World) (l : List Address) (h : l.Perm w.accounts) : Answers w (w.running, .accounts) (.ok l) w
  | lookup (w : World) (a : Address) :
      Answers w (w.running, .lookup a) (.ok ((w.created w.running a).getD 0)) w

abbrev ServiceAct (T : Type) := Act T World String Call.Reply

/-- The runs of any number of requests, each to one of the services that follow one another on a keystore. -/
abbrev ServiceRuns [GoEthereum] {T : Type} [DecidableEq T] (req : T → ℕ × Request) :=
  Runs Answers (fun w w' ↦ w' = w.restart) (fun t ↦ serve (req t).1 (req t).2) .empty

section Stages

variable [GoEthereum] {T : Type} {t : T} {s : ℕ} {q : Request}

/-- What is left of a creation once the time has been recorded. -/
def announce (s : ℕ) (x : Wallet) : M Outcome := .call (s, .publish x) fun _ ↦ .ret (.wallet x)

def afterNow (s : ℕ) (a : Address) : Except String ℤ → M Outcome
  | .error e => .fail e
  | .ok now => .call (s, .insert a now) fun
    | .error e => .fail e
    | .ok _ => announce s ⟨GoEthereum.addressHex a, now⟩

def afterAccount (s : ℕ) : Except String Address → M Outcome
  | .error e => .fail e
  | .ok a => .call (s, .now) (afterNow s a)

theorem serve_create (s : ℕ) : serve s .create = .call (s, .newAccount) (afterAccount s) := by
  refine congrArg (Prog.call _) (funext fun a ↦ ?_)
  cases a with
  | error e => rfl
  | ok a =>
    refine congrArg (Prog.call _) (funext fun now ↦ ?_)
    cases now with
    | error e => rfl
    | ok now =>
      refine congrArg (Prog.call _) (funext fun x ↦ ?_)
      cases x with
      | error e => rfl
      | ok _ =>
        refine congrArg (Prog.call _) (funext fun x ↦ ?_)
        cases x with
        | error e => rfl
        | ok _ => rfl

/-- What is left of a listing, with the addresses that are still to be looked up. -/
def looking (s : ℕ) (out : List Wallet) : List Address → M Outcome
  | [] => .ret (.wallets out)
  | a :: accts => .call (s, .lookup a) fun
    | .error e => .fail e
    | .ok ts => looking s (out ++ [⟨GoEthereum.addressHex a, ts⟩]) accts

theorem listFrom_eq (s : ℕ) (out : List Wallet) (accts : List Address) :
    (listFrom s out accts).bind (fun xs ↦ .ret (.wallets xs)) = looking s out accts := by
  induction accts generalizing out with
  | nil => rfl
  | cons a accts ih =>
    refine congrArg (Prog.call _) (funext fun ts ↦ ?_)
    cases ts with
    | error e => rfl
    | ok ts => exact ih _

theorem serve_list (s : ℕ) : serve s .list = .call (s, .accounts) fun
    | .error e => .fail e
    | .ok accts => looking s [] accts := by
  refine congrArg (Prog.call _) (funext fun accts ↦ ?_)
  cases accts with
  | error e => rfl
  | ok accts => exact listFrom_eq s [] accts

def entry (p : Address × ℤ) : Wallet := ⟨GoEthereum.addressHex p.1, p.2⟩

/-- How far a request has come, by the calls that it has made. -/
inductive Stage (t : T) (s : ℕ) : Request → List (ServiceAct T) → M Outcome → Prop
  | creating : Stage t s .create [] (.call (s, .newAccount) (afterAccount s))
  | refused (w : World) (e : String) : Stage t s .create [⟨t, w, (s, .newAccount), .error e, w⟩] (.fail e)
  | drawn (w w₁ : World) (a : Address) :
      Stage t s .create [⟨t, w, (s, .newAccount), .ok a, w₁⟩] (.call (s, .now) (afterNow s a))
  | dated (w w₁ w₂ : World) (a : Address) (now : ℤ) :
      Stage t s .create [⟨t, w, (s, .newAccount), .ok a, w₁⟩, ⟨t, w₂, (s, .now), .ok now, w₂⟩]
        (afterNow s a (.ok now))
  | recorded (w w₁ w₂ w₃ w₄ : World) (a : Address) (now : ℤ) :
      Stage t s .create [⟨t, w, (s, .newAccount), .ok a, w₁⟩, ⟨t, w₂, (s, .now), .ok now, w₂⟩,
        ⟨t, w₃, (s, .insert a now), .ok (), w₄⟩] (announce s (entry (a, now)))
  | announced (w w₁ w₂ w₃ w₄ w₅ w₆ : World) (a : Address) (now : ℤ) (r : Except String Unit) :
      Stage t s .create [⟨t, w, (s, .newAccount), .ok a, w₁⟩, ⟨t, w₂, (s, .now), .ok now, w₂⟩,
        ⟨t, w₃, (s, .insert a now), .ok (), w₄⟩, ⟨t, w₅, (s, .publish (entry (a, now))), r, w₆⟩]
        (.ret (.wallet (entry (a, now))))
  | listing : Stage t s .list [] (serve s .list)
  | looking (w : World) (accts : List Address) (found : List (World × Address × ℤ)) (todo : List Address)
      (h : accts = found.map (·.2.1) ++ todo) :
      Stage t s .list (⟨t, w, (s, .accounts), .ok accts, w⟩ ::
        found.map fun p ↦ ⟨t, p.1, (s, .lookup p.2.1), .ok p.2.2, p.1⟩) (looking s (found.map (entry ·.2)) todo)

theorem Stage.start (t : T) (s : ℕ) (q : Request) : Stage t s q [] (serve s q) := by
  cases q with
  | create =>
    rw [serve_create]
    exact .creating
  | list => exact .listing

theorem Stage.step {l : List (ServiceAct T)} {c : Call} {f : Except String c.Reply → M Outcome}
    {x : Except String c.Reply} {w w' : World} (h : Stage t s q l (.call c f)) (hs : Answers w c x w') :
    Stage t s q (l ++ [⟨t, w, c, x, w'⟩]) (f x) := by
  generalize hp : Prog.call c f = p at h
  cases h with
  | creating =>
    cases hp
    cases hs with
    | newAccount _ a ha => exact .drawn w _ a
    | noAccount _ e => exact .refused _ e
  | drawn w₀ w₁ a =>
    cases hp
    cases hs
    exact .dated w₀ w₁ _ a _
  | dated w₀ w₁ w₂ a now =>
    cases hp
    cases hs
    exact .recorded w₀ w₁ w₂ _ _ a now
  | recorded w₀ w₁ w₂ w₃ w₄ a now =>
    cases hp
    exact .announced w₀ w₁ w₂ w₃ w₄ w w' a now x
  | listing =>
    rw [serve_list] at hp
    cases hp
    cases hs
    exact .looking _ _ [] _ rfl
  | looking w₀ accts found todo h =>
    cases todo with
    | nil => cases hp
    | cons a todo =>
      cases hp
      cases hs
      have hnext := Stage.looking (t := t) (s := w.running) w₀ accts
        (found ++ [(w, a, (w.created w.running a).getD 0)]) todo (by simp [h])
      rw [List.map_append, List.map_append] at hnext
      exact hnext
  | refused | announced => cases hp

end Stages

end EventPlatform.Wallet
