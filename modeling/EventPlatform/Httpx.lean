import EventPlatform.Auth
import EventPlatform.Json
import EventPlatform.Http.Mux
import EventPlatform.Http.Proxy

namespace EventPlatform.Httpx

open Auth Http

/-- The bodies that are written before a service does any work. -/
inductive Body
  | status (s : String)
  | error (msg : String)
  | token (t : Token)
  deriving DecidableEq

/-- What becomes of a request: the server or its router answers it, a handler answers it by itself, or the work `a` of
the service is done. -/
inductive Handled (α : Type)
  | badRequest
  | redirect
  | methodNotAllowed
  | notFound
  | respond (status : ℕ) (body : Body)
  | run (a : α)
  deriving DecidableEq

variable {α ρ σ : Type}

def error (status : ℕ) (msg : String) : Handled α := .respond status (.error msg)

/-- A request goes to the handler of its route. What the server cannot read is no request. -/
def dispatch (mux : ServeMux ρ) (handler : Request → ρ → List (List UInt8) → Handled α) : Option Request → Handled α
  | none => .badRequest
  | some r =>
    match mux.route r.method r.url with
    | .redirect => .redirect
    | .methodNotAllowed => .methodNotAllowed
    | .notFound => .notFound
    | .handler route wildcards => handler r route wildcards

/-- The longest part of a text that has at most `n` bytes. -/
def takeBytes : ℕ → List Char → List Char
  | _, [] => []
  | n, c :: cs => if c.utf8Size ≤ n then c :: takeBytes (n - c.utf8Size) cs else []

/-- The first value of the body, within its first mebibyte and without unknown fields. -/
def decodeJSON (fields : List (Json.Field σ)) (zero : σ) (body : String) : Option σ :=
  (Json.first (String.ofList (takeBytes (2 ^ 20) body.toList))).bind fun v ↦ Json.decode fields true zero v.1

def requireRole (role : String) (r : Request) (next : Handled α) : Handled α :=
  if r.header.get headerRole ≠ role then error 403 "insufficient role" else next

/-- The request that arrives at the other end: its path is sent in its escaped form. -/
def received (r : Request) : Option Request :=
  (Url.setPath r.url.requestPath r.url.rawQuery).map fun url ↦ { r with url }

variable {r : Request} {role : String} {next : Handled α} {a : α}

theorem requireRole_eq_run (h : requireRole role r next = .run a) : r.header.get headerRole = role ∧ next = .run a := by
  unfold requireRole at h
  split at h
  · cases h
  · rename_i hrole
    exact ⟨not_not.mp hrole, h⟩

section Dispatch

variable {mux : ServeMux ρ} {handler : Request → ρ → List (List UInt8) → Handled α} {x : Option Request}

theorem dispatch_of_route {route : ρ} {wildcards : List (List UInt8)}
    (h : mux.route r.method r.url = .handler route wildcards) :
    dispatch mux handler (some r) = handler r route wildcards := by
  dsimp only [dispatch]
  rw [h]

variable (mux handler x) in
theorem dispatch_cases : (∃ r route wildcards, x = some r ∧ dispatch mux handler x = handler r route wildcards) ∨
    dispatch mux handler x ∈ [.badRequest, .redirect, .methodNotAllowed, .notFound] := by
  cases x with
  | none => exact .inr (by simp [dispatch])
  | some r =>
    cases hroute : mux.route r.method r.url with
    | handler route wildcards => exact .inl ⟨r, route, wildcards, rfl, dispatch_of_route hroute⟩
    | redirect => exact .inr (by simp [dispatch, hroute])
    | methodNotAllowed => exact .inr (by simp [dispatch, hroute])
    | notFound => exact .inr (by simp [dispatch, hroute])

theorem dispatch_eq_run (h : dispatch mux handler x = .run a) :
    ∃ r route wildcards, x = some r ∧ handler r route wildcards = .run a := by
  obtain ⟨r, route, wildcards, hx, hd⟩ | hd := dispatch_cases mux handler x
  · exact ⟨r, route, wildcards, hx, hd.symm.trans h⟩
  · simp [h] at hd

theorem dispatch_eq_respond {status : ℕ} {body : Body} (h : dispatch mux handler x = .respond status body) :
    ∃ r route wildcards, x = some r ∧ handler r route wildcards = .respond status body := by
  obtain ⟨r, route, wildcards, hx, hd⟩ | hd := dispatch_cases mux handler x
  · exact ⟨r, route, wildcards, hx, hd.symm.trans h⟩
  · simp [h] at hd

end Dispatch

theorem header_received {r' : Request} (h : received r = some r') : r'.header = r.header := by
  obtain ⟨url, -, rfl⟩ := Option.map_eq_some_iff.mp h
  rfl

end EventPlatform.Httpx
