import EventPlatform.Httpx
import EventPlatform.Users.Service

namespace EventPlatform.Users

open Httpx Http

inductive Route
  | healthz
  | register
  | get
  | list
  deriving DecidableEq

def mux : ServeMux Route :=
  [(⟨some "GET", [.lit (ascii "healthz")]⟩, .healthz),
    (⟨some "POST", [.lit (ascii "users")]⟩, .register),
    (⟨some "GET", [.lit (ascii "users"), .wild]⟩, .get),
    (⟨some "GET", [.lit (ascii "users")]⟩, .list)]

structure RegisterRequest where
  email : String
  deriving DecidableEq

def RegisterRequest.fields : List (Json.Field RegisterRequest) := [Json.stringField "email" fun x _ ↦ ⟨x⟩]

/-- The work that a request asks for. No user has an id that is not a text. -/
def handler (r : Http.Request) : Route → List (List UInt8) → Handled Request
  | .healthz, _ => .respond 200 (.status "ok")
  | .register, _ =>
    match decodeJSON RegisterRequest.fields ⟨""⟩ r.body with
    | none => error 400 "invalid request body"
    | some req => .run (.register req.email)
  | .get, wildcards =>
    match String.fromUTF8? ⟨wildcards.flatten.toArray⟩ with
    | none => error 404 "user not found"
    | some id => .run (.get id)
  | .list, _ => requireRole "admin" r (.run .list)

def routes (r : Http.Request) : Handled Request := dispatch mux handler (received r)

/-- The users are listed for the role `admin` alone. -/
theorem role_of_list {r : Http.Request} (h : routes r = .run .list) : r.header.get Auth.headerRole = "admin" := by
  obtain ⟨r', route, wildcards, hr, hrun⟩ := dispatch_eq_run h
  rw [← header_received hr]
  cases route with
  | healthz => cases hrun
  | register =>
    dsimp only [handler] at hrun
    split at hrun <;> cases hrun
  | get =>
    dsimp only [handler] at hrun
    split at hrun <;> cases hrun
  | list => exact (requireRole_eq_run hrun).1

theorem list_of_role {r r' : Http.Request} {wildcards : List (List UInt8)} (hr : received r = some r')
    (hroute : mux.route r'.method r'.url = .handler .list wildcards) (hrole : r.header.get Auth.headerRole = "admin") :
    routes r = .run .list := by
  rw [← header_received hr] at hrole
  rw [routes, hr, dispatch_of_route hroute]
  exact if_neg (not_not.mpr hrole)

end EventPlatform.Users
