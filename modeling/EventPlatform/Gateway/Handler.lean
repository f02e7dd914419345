import EventPlatform.Httpx
import EventPlatform.Gateway.RateLimit

namespace EventPlatform.Gateway

open Auth Http Httpx

/-- A request as it arrives: its path as it was sent, its header line by line, and the instants at which the limiter
and the authenticator read the clock for it. -/
structure Arrival where
  method : String
  path : List UInt8
  rawQuery : String
  host : String
  lines : List (String × String)
  body : String
  remoteAddr : String
  allowAt : ℚ
  now : ℤ

/-- A path is empty or rooted, and has no control bytes. -/
def wellFormed (path : List UInt8) : Bool :=
  (path = [] || path.head? = some slash) && path.all fun c ↦ 0x20 ≤ c && c ≠ 0x7f

def Arrival.request (a : Arrival) : Option Request :=
  if wellFormed a.path then
    (Url.setPath a.path a.rawQuery).map fun url ↦
      { method := a.method, url, host := a.host, header := .ofLines a.lines,
        body := a.body, remoteAddr := a.remoteAddr }
  else none

inductive Upstream
  | user
  | wallet
  | margin
  deriving DecidableEq

structure Client where
  secret : String
  role : String
  deriving DecidableEq

structure Config (L : Type) where
  auth : Authenticator
  clients : Std.ExtTreeMap String Client
  userURL : Target
  walletURL : Target
  marginURL : Target
  rateLimit : Option (Limiter L)

/-- The gateway with the settings that it has by default. -/
def deployed : Config RateLimiter where
  auth := ⟨"dev-insecure-secret-change-me", "web3-event-platform", 3600 * Auth.second⟩
  clients := (∅ : Std.ExtTreeMap String Client).insert "admin-client" ⟨"admin-secret", roleAdmin⟩
    |>.insert "user-client" ⟨"user-secret", roleUser⟩
  userURL := ⟨"localhost:8081", ⟨[], [], ""⟩⟩
  walletURL := ⟨"localhost:8082", ⟨[], [], ""⟩⟩
  marginURL := ⟨"localhost:8085", ⟨[], [], ""⟩⟩
  rateLimit := some RateLimiter.limiter

abbrev Decision := Handled (Upstream × Request)

def trimPrefix (s p : List UInt8) : List UInt8 := if p <+: s then s.drop p.length else s

/-- The director of `newProxy`: the public part of the path is cut off after it has been joined to the target's. -/
def director (target : Target) (r : Request) : Request :=
  let url := rewriteRequestURL target r.url
  { r with url := { url with path := trimPrefix url.path (ascii "/api/v1") }, host := target.host }

def cutPrefix (s p : String) : Option String :=
  if p.toList <+: s.toList then some (String.ofList (s.toList.drop p.toList.length)) else none

/-- The text before the first colon. -/
def clientIP (remoteAddr : String) : String := String.ofList (remoteAddr.toList.takeWhile (· ≠ ':'))

structure TokenRequest where
  clientID : String
  clientSecret : String
  deriving DecidableEq

def TokenRequest.fields : List (Json.Field TokenRequest) :=
  [Json.stringField "client_id" fun x r ↦ { r with clientID := x },
    Json.stringField "client_secret" fun x r ↦ { r with clientSecret := x }]

inductive Route
  | healthz
  | issueToken
  | authed (up : Upstream)
  deriving DecidableEq

def lits (segments : List String) : List Segment := segments.map fun s ↦ .lit (ascii s)

/-- The segments of a pattern that ends in a slash. -/
def subtree (segments : List String) : List Segment := lits segments ++ [.multi]

def mux : ServeMux Route :=
  [(⟨some "GET", lits ["healthz"]⟩, .healthz),
    (⟨some "POST", lits ["api", "v1", "auth", "token"]⟩, .issueToken),
    (⟨none, lits ["api", "v1", "users"]⟩, .authed .user),
    (⟨none, subtree ["api", "v1", "users"]⟩, .authed .user),
    (⟨none, lits ["api", "v1", "wallets"]⟩, .authed .wallet),
    (⟨none, subtree ["api", "v1", "wallets"]⟩, .authed .wallet),
    (⟨none, subtree ["api", "v1", "margin"]⟩, .authed .margin)]

def bearer (h : Header) : Option String := cutPrefix (h.get "Authorization") "Bearer "

/-- The verified identity replaces whatever the client has sent. -/
def identify (c : Claims) (r : Request) : Request :=
  { r with header := (r.header.set headerSubject c.subject).set headerRole c.role }

section Handler

variable [GoJwt] {L : Type} (g : Config L)

def Config.target : Upstream → Target
  | .user => g.userURL
  | .wallet => g.walletURL
  | .margin => g.marginURL

def issueToken (now : ℤ) (r : Request) : Decision :=
  match decodeJSON TokenRequest.fields ⟨"", ""⟩ r.body with
  | none => error 400 "invalid request body"
  | some req =>
    match g.clients[req.clientID]? with
    | none => error 401 "invalid client credentials"
    | some client =>
      if client.secret ≠ req.clientSecret then error 401 "invalid client credentials"
      else .respond 200 (.token (g.auth.issue now req.clientID client.role))

/-- Where no limiter is configured, every request is allowed. -/
def allowed (a : Arrival) (s : L) : Bool × L :=
  match g.rateLimit with
  | none => (true, s)
  | some limiter => limiter.allow s ⟨clientIP a.remoteAddr, a.allowAt⟩

/-- What `authed` does with a request that the limiter allows. -/
def authed (up : Upstream) (now : ℤ) (r : Request) : Decision :=
  match bearer r.header with
  | none => error 401 "missing bearer token"
  | some raw =>
    match g.auth.verify now raw with
    | none => error 401 "invalid or expired token"
    | some claims => .run (up, forwarded (director (g.target up)) (identify claims r))

/-- The handler of a route, given the answer of the limiter. -/
def handler (now : ℤ) (ok : Bool) (r : Request) : Route → List (List UInt8) → Decision
  | .healthz, _ => .respond 200 (.status "ok")
  | .issueToken, _ => issueToken g now r
  | .authed up, _ => if ok then authed g up now r else error 429 "rate limit exceeded"

def decision (a : Arrival) (ok : Bool) : Decision := dispatch mux (handler g a.now ok) a.request

/-- The request is on a route to an upstream. The limiter is asked on these alone. -/
def Arrival.limited (a : Arrival) : Bool :=
  match a.request with
  | none => false
  | some r =>
    match mux.route r.method r.url with
    | .handler (.authed _) _ => true
    | _ => false

def serve (a : Arrival) (s : L) : Decision × L :=
  if a.limited then (decision g a (allowed g a s).1, (allowed g a s).2) else (decision g a true, s)

/-- The requests of a sequence with what the gateway did with them. -/
def history : L → List Arrival → List (Arrival × Decision)
  | _, [] => []
  | s, a :: as => (a, (serve g a s).1) :: history (serve g a s).2 as

variable {g} {a : Arrival} {r out : Request} {up : Upstream}

theorem issueToken_ne_run {now : ℤ} {x : Upstream × Request} : issueToken g now r ≠ .run x := by
  intro h
  unfold issueToken at h
  split at h
  · cases h
  · split at h
    · cases h
    · split at h <;> cases h

/-- A token is issued to a client that gives its secret, and carries the role of the client. -/
theorem issueToken_eq_token {now : ℤ} {t : Token} (h : issueToken g now r = .respond 200 (.token t)) :
    ∃ req client, decodeJSON TokenRequest.fields ⟨"", ""⟩ r.body = some req ∧ g.clients[req.clientID]? = some client ∧
      client.secret = req.clientSecret ∧ t = g.auth.issue now req.clientID client.role := by
  unfold issueToken at h
  split at h
  · cases h
  · rename_i req hreq
    split at h
    · cases h
    · rename_i client hclient
      split at h
      · cases h
      · rename_i hsecret
        cases h
        exact ⟨req, client, hreq, hclient, not_not.mp hsecret, rfl⟩

theorem authed_ne_token {now : ℤ} {t : Token} : authed g up now r ≠ .respond 200 (.token t) := by
  intro h
  unfold authed at h
  split at h
  · cases h
  · split at h <;> cases h

theorem authed_eq_run {now : ℤ} {x : Upstream × Request} (h : authed g up now r = .run x) :
    ∃ raw c, bearer r.header = some raw ∧ g.auth.verify now raw = some c ∧
      x = (up, forwarded (director (g.target up)) (identify c r)) := by
  unfold authed at h
  split at h
  · cases h
  · rename_i raw hraw
    split at h
    · cases h
    · rename_i c hc
      cases h
      exact ⟨raw, c, hraw, hc, rfl⟩

theorem authed_of_verify {now : ℤ} {raw : String} {c : Claims} (hraw : bearer r.header = some raw)
    (hc : g.auth.verify now raw = some c) :
    authed g up now r = .run (up, forwarded (director (g.target up)) (identify c r)) := by
  unfold authed
  rw [hraw]
  dsimp only
  rw [hc]

def Asks (a : Arrival) (up : Upstream) (r : Request) : Prop :=
  a.request = some r ∧ ∃ wildcards, mux.route r.method r.url = .handler (.authed up) wildcards

theorem serve_of_asks (h : Asks a up r) (s : L) : serve g a s =
    (if (allowed g a s).1 then authed g up a.now r else error 429 "rate limit exceeded", (allowed g a s).2) := by
  obtain ⟨hr, wildcards, hroute⟩ := h
  have hlimited : a.limited = true := by
    rw [Arrival.limited, hr]
    dsimp only
    rw [hroute]
  rw [serve, if_pos hlimited, decision, hr, dispatch_of_route hroute]
  rfl

/-- Whether the limiter is asked or not, the answer comes from the handlers. -/
theorem exists_decision (s : L) : ∃ ok, (serve g a s).1 = decision g a ok := by
  unfold serve
  split
  · exact ⟨_, rfl⟩
  · exact ⟨_, rfl⟩

/-- A request is passed on with the identity of its bearer token. -/
theorem serve_eq_run {s : L} (h : (serve g a s).1 = .run (up, out)) :
    ∃ r raw c, a.request = some r ∧ bearer r.header = some raw ∧ g.auth.verify a.now raw = some c ∧
      out = forwarded (director (g.target up)) (identify c r) := by
  obtain ⟨ok, hok⟩ := exists_decision s
  rw [hok] at h
  obtain ⟨r, route, wildcards, hr, hrun⟩ := dispatch_eq_run h
  cases route with
  | healthz => cases hrun
  | issueToken =>
    dsimp only [handler] at hrun
    exact absurd hrun issueToken_ne_run
  | authed up' =>
    dsimp only [handler] at hrun
    split at hrun
    · obtain ⟨raw, c, hraw, hc, hx⟩ := authed_eq_run hrun
      cases hx
      exact ⟨r, raw, c, hr, hraw, hc, rfl⟩
    · cases hrun

theorem serve_eq_token {s : L} {t : Token} (h : (serve g a s).1 = .respond 200 (.token t)) :
    ∃ r req client, a.request = some r ∧ decodeJSON TokenRequest.fields ⟨"", ""⟩ r.body = some req ∧
      g.clients[req.clientID]? = some client ∧ client.secret = req.clientSecret ∧
      t = g.auth.issue a.now req.clientID client.role := by
  obtain ⟨ok, hok⟩ := exists_decision s
  rw [hok] at h
  obtain ⟨r, route, wildcards, hr, hrespond⟩ := dispatch_eq_respond h
  cases route with
  | healthz => cases hrespond
  | issueToken =>
    dsimp only [handler] at hrespond
    obtain ⟨req, client, hreq, hclient, hsecret, ht⟩ := issueToken_eq_token hrespond
    exact ⟨r, req, client, hr, hreq, hclient, hsecret, ht⟩
  | authed up =>
    dsimp only [handler] at hrespond
    split at hrespond
    · exact absurd hrespond authed_ne_token
    · cases hrespond

theorem mem_history {as : List Arrival} {s : L} {d : Decision} (h : (a, d) ∈ history g s as) :
    ∃ s', d = (serve g a s').1 := by
  induction as generalizing s with
  | nil => cases h
  | cons b as ih =>
    obtain h | h := List.mem_cons.mp h
    · cases h
      exact ⟨s, rfl⟩
    · exact ih h

end Handler

end EventPlatform.Gateway
