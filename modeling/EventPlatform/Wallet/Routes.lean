import EventPlatform.Httpx

namespace EventPlatform.Wallet

open Httpx Http

inductive Route
  | healthz
  | create
  | list

def mux : ServeMux Route :=
  [(⟨some "GET", [.lit (ascii "healthz")]⟩, .healthz),
    (⟨some "POST", [.lit (ascii "wallets")]⟩, .create),
    (⟨some "GET", [.lit (ascii "wallets")]⟩, .list)]

inductive Request
  | create
  | list
  deriving DecidableEq

def handler (r : Http.Request) : Route → List (List UInt8) → Handled Request
  | .healthz, _ => .respond 200 (.status "ok")
  | .create, _ => .run .create
  | .list, _ => requireRole "admin" r (.run .list)

def routes (r : Http.Request) : Handled Request := dispatch mux handler (received r)

/-- The wallets are listed for the role `admin` alone. -/
theorem role_of_list {r : Http.Request} (h : routes r = .run .list) : r.header.get Auth.headerRole = "admin" := by
  obtain ⟨r', route, wildcards, hr, hrun⟩ := dispatch_eq_run h
  rw [← header_received hr]
  cases route with
  | healthz => cases hrun
  | create => cases hrun
  | list => exact (requireRole_eq_run hrun).1

end EventPlatform.Wallet
