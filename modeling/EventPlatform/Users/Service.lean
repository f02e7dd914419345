import EventPlatform.Interaction.Pool
import EventPlatform.Users.Store

namespace EventPlatform.Users

open Interaction Prog Pool

/-- `mail.ParseAddress`: the name and the address, or an error. -/
class GoMail where
  parseAddress : String → Except String (String × String)

/-- Every call of the service on the id generator, the clock, its store and its bus. -/
inductive Call
  | newString
  | now
  | create (u : User)
  | get (id : String)
  | list
  | publish (u : User)

@[reducible] def Call.Reply : Call → Type
  | .newString => String
  | .now => ℤ
  | .get _ => User
  | .list => List User
  | .create _ | .publish _ => Unit

abbrev M := Prog Err Call.Reply

section Service

variable [GoMail]

def Valid (email : String) : Prop := (GoMail.parseAddress email).isOk = true

instance (email : String) : Decidable (Valid email) := inferInstanceAs (Decidable (_ = true))

/-- An event that cannot be published is dropped. -/
def register (email : String) : M User := do
  if Valid email then
    let id ← perform Call.newString
    let now ← perform Call.now
    let u : User := ⟨id, email, now⟩
    perform (Call.create u)
    let _ ← attempt (perform (Call.publish u))
    return u
  else .fail .invalidEmail

inductive Request
  | register (email : String)
  | get (id : String)
  | list
  deriving DecidableEq

inductive Outcome
  | user (u : User)
  | users (us : List User)

def serve : Request → M Outcome
  | .register email => do return .user (← register email)
  | .get id => do return .user (← perform (Call.get id))
  | .list => do return .users (← perform Call.list)

end Service

/-- The store and the users announced on `user.created` so far. -/
structure World (S : Type) where
  store : S
  events : List User

/-- The store answers as it does, and the bus accepts every event. -/
inductive Serves {S : Type} (st : Store S) : Handler Err Call.Reply (World S)
  | newString (w : World S) (id : String) : Serves st w .newString (.ok id) w
  | now (w : World S) (t : ℤ) : Serves st w .now (.ok t) w
  | create (w : World S) (u : User) :
      Serves st w (.create u) (st.create w.store u).1 { w with store := (st.create w.store u).2 }
  | get (w : World S) (id : String) : Serves st w (.get id) (st.get w.store id) w
  | list (w : World S) (l : List User) : st.list w.store l → Serves st w .list (.ok l) w
  | publish (w : World S) (u : User) : Serves st w (.publish u) (.ok ()) { w with events := w.events ++ [u] }

abbrev ServiceAct (T S : Type) := Act T (World S) Err Call.Reply

/-- The runs of any number of requests, one for each member of `T`, on any number of replicas
that share a store. Each call on the store is made as a whole. -/
abbrev ServiceRuns [GoMail] {T S : Type} [DecidableEq T] (st : Store S) (req : T → Request) :=
  Runs (Serves st) (fun _ _ ↦ False) (fun t ↦ serve (req t)) ⟨st.empty, []⟩

end EventPlatform.Users
