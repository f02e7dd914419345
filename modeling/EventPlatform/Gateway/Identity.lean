import EventPlatform.Gateway.Handler
import EventPlatform.Users.Routes
import EventPlatform.Wallet.Routes

namespace EventPlatform.Gateway

open Auth Http Httpx

theorem canonical_headerSubject : canonicalMIMEHeaderKey headerSubject = headerSubject := by decide

theorem canonical_headerRole : canonicalMIMEHeaderKey headerRole = headerRole := by decide

/-- The address that the director gives to a request. -/
def directed (target : Target) (u : Url) : Url :=
  { rewriteRequestURL target u with path := trimPrefix (rewriteRequestURL target u).path (ascii "/api/v1") }

theorem received_forwarded (target : Target) (c : Claims) (r : Request) :
    received (forwarded (director target) (identify c r)) =
      (Url.setPath (directed target r.url).requestPath (directed target r.url).rawQuery).map fun url ↦
        { forwarded (director target) (identify c r) with url } := rfl

section Forwarded

variable (c : Claims) (r : Request) (target : Target)

theorem getElem?_identify (k : String) : (identify c r).header[k]? =
    if headerRole = k then some [c.role] else if headerSubject = k then some [c.subject] else r.header[k]? := by
  rw [identify, Header.getElem?_set, Header.getElem?_set, canonical_headerRole, canonical_headerSubject]

theorem named_identify (k : String) : Named (identify c r).header k ↔ Named r.header k := by
  have hconnection : (identify c r).header["Connection"]? = r.header["Connection"]? := by
    rw [getElem?_identify, if_neg (by decide), if_neg (by decide)]
  rw [Named, Named, Header.values, Header.values, hconnection]

/-- What a value of `Connection` names does not arrive, whoever has set it. -/
theorem getElem?_forwarded (k : String) : (forwarded (director target) (identify c r)).header[k]? =
    if Named r.header k ∨ k ∈ hopHeaders then none else (identify c r).header[k]? := by
  have hheader : (forwarded (director target) (identify c r)).header =
      removeHopByHopHeaders (identify c r).header := rfl
  rw [hheader, getElem?_removeHopByHopHeaders]
  exact if_congr (by rw [named_identify]) rfl rfl

variable {c r} in
theorem values_forwarded {k v : String} (hhop : k ∉ hopHeaders) (hk : (identify c r).header[k]? = some [v]) :
    (forwarded (director target) (identify c r)).header.values k = if Named r.header k then [] else [v] := by
  rw [Header.values, getElem?_forwarded, hk]
  by_cases hnamed : Named r.header k
  · rw [if_pos hnamed, if_pos (.inl hnamed)]
    rfl
  · rw [if_neg hnamed, if_neg (not_or.mpr ⟨hnamed, hhop⟩)]
    rfl

theorem values_headerSubject : (forwarded (director target) (identify c r)).header.values headerSubject =
    if Named r.header headerSubject then [] else [c.subject] := by
  apply values_forwarded _ (by decide)
  have hne : headerRole ≠ headerSubject := by decide
  rw [getElem?_identify, if_neg hne, if_pos rfl]

theorem values_headerRole : (forwarded (director target) (identify c r)).header.values headerRole =
    if Named r.header headerRole then [] else [c.role] := by
  apply values_forwarded _ (by decide)
  rw [getElem?_identify, if_pos rfl]

/-- A role other than the empty one comes from the claims. -/
theorem role_of_get {role : String} (hne : role ≠ "")
    (h : (forwarded (director target) (identify c r)).header.get headerRole = role) : c.role = role := by
  rw [Header.get, canonical_headerRole, values_headerRole] at h
  split at h
  · exact absurd h.symm hne
  · exact h

end Forwarded

section Arrives

variable [GoJwt] {L : Type} (g : Config L)

/-- A verified request is passed on, and its identity arrives unless a value of `Connection` names one of the two
fields: the proxy deletes what these values name after the gateway has set it. -/
theorem identity_arrives_iff {a : Arrival} {up : Upstream} {r : Request} {s : L} {raw : String} {c : Claims}
    (hask : Asks a up r) (hallowed : (allowed g a s).1 = true) (hraw : bearer r.header = some raw)
    (hc : g.auth.verify a.now raw = some c) : ∃ out, (serve g a s).1 = .run (up, out) ∧
    (out.header.values headerSubject = [c.subject] ∧ out.header.values headerRole = [c.role] ↔
      ¬ Named r.header headerSubject ∧ ¬ Named r.header headerRole) := by
  refine ⟨forwarded (director (g.target up)) (identify c r), ?_, ?_⟩
  · rw [serve_of_asks hask, if_pos hallowed]
    exact authed_of_verify hraw hc
  · rw [values_headerSubject, values_headerRole]
    apply and_congr
    · rw [ite_eq_right_iff]
      simp
    · rw [ite_eq_right_iff]
      simp

end Arrives

theorem bearer_ofLines {raw : String} {lines : List (String × String)}
    (h : ∀ l ∈ lines, canonicalMIMEHeaderKey l.1 ≠ "Authorization") :
    bearer (.ofLines (("Authorization", "Bearer " ++ raw) :: lines)) = some raw := by
  have hname : canonicalMIMEHeaderKey "Authorization" = "Authorization" := by decide
  have hself :
      (Header.ofLines (("Authorization", "Bearer " ++ raw) :: lines))[canonicalMIMEHeaderKey "Authorization"]? =
      some ["Bearer " ++ raw] := Header.getElem?_ofLines_cons_self (by rwa [hname])
  have hget :
      (Header.ofLines (("Authorization", "Bearer " ++ raw) :: lines)).get "Authorization" = "Bearer " ++ raw := by
    rw [Header.get, Header.values, hself]
    rfl
  rw [bearer, hget]
  simp [cutPrefix]

section Visit

variable [GoJwt] {lines : List (String × String)}

variable (lines) in
/-- A request of the client `user-client` with a fresh token and these other lines in its header. -/
def visit : Arrival where
  method := "GET"
  path := ascii "/api/v1/users/7"
  rawQuery := ""
  host := "localhost:8080"
  lines := ("Authorization", "Bearer " ++ (deployed.auth.issue 0 "user-client" "user").accessToken) :: lines
  body := ""
  remoteAddr := "192.0.2.1:51000"
  allowAt := 0
  now := Auth.second

variable (lines) in
def visitRequest : Request :=
  ⟨"GET", ⟨ascii "/api/v1/users/7", [], ""⟩, "localhost:8080", .ofLines (visit lines).lines, "", "192.0.2.1:51000"⟩

omit [GoJwt] in
theorem setPath_visit : Url.setPath (ascii "/api/v1/users/7") "" = some ⟨ascii "/api/v1/users/7", [], ""⟩ := by
  decide +kernel

omit [GoJwt] in
theorem route_visit : mux.route "GET" ⟨ascii "/api/v1/users/7", [], ""⟩ = .handler (.authed .user) [] := by
  decide +kernel

theorem asks_visit : Asks (visit lines) .user (visitRequest lines) := by
  have hpath : wellFormed (ascii "/api/v1/users/7") = true := by decide
  refine ⟨?_, [], route_visit⟩
  unfold Arrival.request visit
  rw [if_pos hpath, setPath_visit]
  rfl

theorem allowed_visit : (allowed deployed (visit lines) (.newRateLimiter 20 40)).1 = true := by
  simp [allowed, deployed, RateLimiter.limiter, RateLimiter.allow, RateLimiter.newRateLimiter]

theorem bearer_visit (h : ∀ l ∈ lines, canonicalMIMEHeaderKey l.1 ≠ "Authorization") :
    bearer (visitRequest lines).header = some (deployed.auth.issue 0 "user-client" "user").accessToken :=
  bearer_ofLines h

theorem verify_visit : deployed.auth.verify (visit lines).now (deployed.auth.issue 0 "user-client" "user").accessToken =
    some (deployed.auth.claims 0 "user-client" "user") := by
  have hfresh : Auth.second < (0 + deployed.auth.expiry) / Auth.second * Auth.second := by decide
  exact Authenticator.verify_issue hfresh _ _

theorem serve_visit (h : ∀ l ∈ lines, canonicalMIMEHeaderKey l.1 ≠ "Authorization") :
    (serve deployed (visit lines) (.newRateLimiter 20 40)).1 = .run (.user, forwarded (director deployed.userURL)
      (identify (deployed.auth.claims 0 "user-client" "user") (visitRequest lines))) := by
  rw [serve_of_asks asks_visit, if_pos allowed_visit]
  exact authed_of_verify (bearer_visit h) verify_visit

theorem named_visit (k : String) : Named (visitRequest lines).header k ↔ Named (.ofLines lines) k := by
  have hname : canonicalMIMEHeaderKey "Authorization" ≠ "Connection" := by decide
  have hlookup : (visitRequest lines).header["Connection"]? = (Header.ofLines lines)["Connection"]? :=
    Header.getElem?_ofLines_cons_of_ne hname lines
  rw [Named, Named, Header.values, Header.values, hlookup]

end Visit

/-- The role of the token is lost on the way. -/
theorem identity_lost : ∃ _ : GoJwt, ∃ out,
    (serve deployed (visit [("Connection", "X-Auth-Role")]) (.newRateLimiter 20 40)).1 = .run (.user, out) ∧
      out.header.values headerSubject = ["user-client"] ∧ out.header.values headerRole = [] := by
  have hothers : ∀ l ∈ [("Connection", "X-Auth-Role")], canonicalMIMEHeaderKey l.1 ≠ "Authorization" := by decide
  have hsubject : ¬ Named (.ofLines [("Connection", "X-Auth-Role")]) headerSubject := by decide
  have hrole : Named (.ofLines [("Connection", "X-Auth-Role")]) headerRole := by decide
  let := GoJwt.coded
  rw [← named_visit] at hsubject hrole
  refine ⟨this, _, serve_visit hothers, ?_, ?_⟩
  · rw [values_headerSubject, if_neg hsubject]
    rfl
  · rw [values_headerRole, if_pos hrole]

theorem identity_arrives_plain : ∃ _ : GoJwt, ∃ out,
    (serve deployed (visit [("X-Auth-Role", "admin")]) (.newRateLimiter 20 40)).1 = .run (.user, out) ∧
      out.header.values headerSubject = ["user-client"] ∧ out.header.values headerRole = ["user"] := by
  have hothers : ∀ l ∈ [("X-Auth-Role", "admin")], canonicalMIMEHeaderKey l.1 ≠ "Authorization" := by decide
  have hsubject : ¬ Named (.ofLines [("X-Auth-Role", "admin")]) headerSubject := by decide
  have hrole : ¬ Named (.ofLines [("X-Auth-Role", "admin")]) headerRole := by decide
  let := GoJwt.coded
  rw [← named_visit] at hsubject hrole
  obtain ⟨out, hserve, harrives⟩ :=
    identity_arrives_iff deployed asks_visit allowed_visit (bearer_visit hothers) verify_visit
  exact ⟨this, out, hserve, harrives.mpr ⟨hsubject, hrole⟩⟩

/-- The request without the identity that its client claims. -/
def Arrival.anonymous (a : Arrival) : Arrival :=
  { a with lines := a.lines.filter fun l ↦ canonicalMIMEHeaderKey l.1 ∉ [headerSubject, headerRole] }

section Anonymous

variable {a : Arrival} {r : Request}

variable (a) in
theorem request_anonymous : a.anonymous.request =
    a.request.map fun r ↦ { r with header := .ofLines a.anonymous.lines } := by
  unfold Arrival.request
  split
  · rw [if_pos (by assumption), Option.map_map]
    rfl
  · rw [if_neg (by assumption)]
    rfl

theorem getElem?_anonymous (hr : a.request = some r) {k : String} (hk : k ∉ [headerSubject, headerRole]) :
    (Header.ofLines a.anonymous.lines)[k]? = r.header[k]? := by
  have hheader : r.header = .ofLines a.lines := by
    unfold Arrival.request at hr
    split at hr
    · obtain ⟨url, -, rfl⟩ := Option.map_eq_some_iff.mp hr
      rfl
    · cases hr
  rw [hheader]
  exact (Header.getElem?_ofLines_filter (fun k ↦ k ∉ [headerSubject, headerRole]) (by simpa using hk) _).symm

theorem identify_anonymous (hr : a.request = some r) (c : Claims) :
    identify c { r with header := .ofLines a.anonymous.lines } = identify c r := by
  have hheader : (identify c { r with header := .ofLines a.anonymous.lines }).header = (identify c r).header := by
    ext k v
    rw [getElem?_identify, getElem?_identify]
    split
    · rfl
    · split
      · rfl
      · rw [getElem?_anonymous hr (by simp_all [eq_comm])]
  exact congrArg (fun h ↦ { r with header := h }) hheader

variable [GoJwt] {L : Type} (g : Config L)

theorem authed_anonymous (hr : a.request = some r) (up : Upstream) (now : ℤ) :
    authed g up now { r with header := .ofLines a.anonymous.lines } = authed g up now r := by
  have hbearer : bearer (.ofLines a.anonymous.lines) = bearer r.header := by
    unfold bearer Header.get Header.values
    rw [getElem?_anonymous hr (by decide)]
  unfold authed
  simp only [hbearer, identify_anonymous hr]

variable (a) in
theorem decision_anonymous (ok : Bool) : decision g a.anonymous ok = decision g a ok := by
  unfold decision
  rw [request_anonymous]
  cases hr : a.request with
  | none => rfl
  | some r =>
    have hhandler : ∀ route wildcards,
        handler g a.now ok { r with header := .ofLines a.anonymous.lines } route wildcards =
        handler g a.now ok r route wildcards := by
      intro route wildcards
      cases route with
      | healthz => rfl
      | issueToken => dsimp only [handler, issueToken]
      | authed up =>
        dsimp only [handler]
        rw [authed_anonymous g hr]
    dsimp only [Option.map_some, dispatch]
    cases mux.route r.method r.url with
    | redirect => rfl
    | methodNotAllowed => rfl
    | notFound => rfl
    | handler route wildcards => exact hhandler route wildcards

variable (a) in
theorem serve_anonymous (s : L) : serve g a.anonymous s = serve g a s := by
  have hlimited : a.anonymous.limited = a.limited := by
    unfold Arrival.limited
    rw [request_anonymous]
    cases a.request with
    | none => rfl
    | some r => rfl
  have hallowed : allowed g a.anonymous s = allowed g a s := rfl
  unfold serve
  simp only [hlimited, hallowed, decision_anonymous]

theorem history_anonymous (as : List Arrival) (s : L) :
    (history g s (as.map Arrival.anonymous)).map Prod.snd = (history g s as).map Prod.snd := by
  induction as generalizing s with
  | nil => rfl
  | cons a as ih =>
    simp only [List.map_cons, history, serve_anonymous]
    rw [ih]

end Anonymous

def Lists (r : Request) : Prop := Users.routes r = .run .list ∨ Wallet.routes r = .run .list

theorem Lists.role {r : Request} (h : Lists r) : r.header.get headerRole = "admin" := by
  obtain h | h := h
  · exact Users.role_of_list h
  · exact Wallet.role_of_list h

section Escalation

variable [GoJwt] {L : Type} (g : Config L)

def Bears (a : Arrival) (raw : String) : Prop := ∃ r, a.request = some r ∧ bearer r.header = some raw

/-- The two tokens state the same claims under the same signature. Nothing else of a token is looked at. -/
def SameToken (raw raw' : String) : Prop :=
  ∃ text sig, GoJwt.split raw = some (text, sig) ∧ GoJwt.split raw' = some (text, sig)

/-- Without the secret no one signs a text: a bearer token with a good signature has been issued before. -/
def Unforgeable (hist : List (Arrival × Decision)) : Prop :=
  ∀ (before after : List (Arrival × Decision)) (a : Arrival) (d : Decision), hist = before ++ (a, d) :: after →
    ∀ raw text, Bears a raw → GoJwt.split raw = some (text, GoJwt.hmac g.auth.secret text) →
    ∃ (a' : Arrival) (t : Token), (a', .respond 200 (.token t)) ∈ before ∧ SameToken raw t.accessToken

/-- The token was issued to a client that is configured with the role and that gave its secret. -/
def MintedFor (role : String) (a : Arrival) (t : Token) : Prop :=
  ∃ r req, a.request = some r ∧ decodeJSON TokenRequest.fields ⟨"", ""⟩ r.body = some req ∧
    g.clients[req.clientID]? = some ⟨req.clientSecret, role⟩ ∧ t = g.auth.issue a.now req.clientID role

variable {g}

theorem mintedFor_of_mem {s : L} {as : List Arrival} {a : Arrival} {t : Token}
    (h : (a, Handled.respond 200 (.token t)) ∈ history g s as) : ∃ role, MintedFor g role a t := by
  obtain ⟨s', hserve⟩ := mem_history h
  obtain ⟨r, req, client, hr, hreq, hclient, hsecret, ht⟩ := serve_eq_token hserve.symm
  exact ⟨client.role, r, req, hr, hreq, by rw [hclient, ← hsecret], ht⟩

/-- A token that the gateway has issued carries the role that it was issued for. -/
theorem MintedFor.role_eq {role raw : String} {a : Arrival} {t : Token} {now : ℤ} {c : Claims}
    (h : MintedFor g role a t) (hsame : SameToken raw t.accessToken) (hc : g.auth.verify now raw = some c) :
    c.role = role := by
  obtain ⟨-, req, -, -, -, rfl⟩ := h
  obtain ⟨text, sig, hraw, ht⟩ := hsame
  obtain ⟨text', hraw', hparse, -⟩ := Authenticator.verify_eq_some.mp hc
  rw [Authenticator.split_issue] at ht
  cases ht
  cases hraw.symm.trans hraw'
  rw [GoJwt.parse_signingString] at hparse
  cases hparse
  rfl

end Escalation

section Listing

/-- The administrator asks for a token. -/
def mint : Arrival where
  method := "POST"
  path := ascii "/api/v1/auth/token"
  rawQuery := ""
  host := "localhost:8080"
  lines := []
  body := "\x7b\"client_id\": \"admin-client\", \"client_secret\": \"admin-secret\"\x7d"
  remoteAddr := "192.0.2.1:51000"
  allowAt := 0
  now := 0

def mintRequest : Request :=
  ⟨"POST", ⟨ascii "/api/v1/auth/token", [], ""⟩, "localhost:8080", ∅, mint.body, "192.0.2.1:51000"⟩

theorem request_mint : mint.request = some mintRequest := by
  have hpath : wellFormed (ascii "/api/v1/auth/token") = true := by decide
  have hurl : Url.setPath (ascii "/api/v1/auth/token") "" = some ⟨ascii "/api/v1/auth/token", [], ""⟩ := by
    decide +kernel
  unfold Arrival.request mint
  rw [if_pos hpath, hurl]
  rfl

theorem route_mint : mux.route "POST" ⟨ascii "/api/v1/auth/token", [], ""⟩ = .handler .issueToken [] := by
  decide +kernel

variable [GoJwt]

theorem serve_mint (s : RateLimiter) :
    serve deployed mint s = (.respond 200 (.token (deployed.auth.issue 0 "admin-client" "admin")), s) := by
  have hlimited : mint.limited = false := by
    rw [Arrival.limited, request_mint]
    dsimp only [mintRequest]
    rw [route_mint]
  have hbody : decodeJSON TokenRequest.fields ⟨"", ""⟩ mintRequest.body = some ⟨"admin-client", "admin-secret"⟩ := by
    decide +kernel
  have hclient : deployed.clients["admin-client"]? = some ⟨"admin-secret", "admin"⟩ := by decide +kernel
  rw [serve, hlimited, if_neg Bool.false_ne_true, decision, request_mint,
    dispatch_of_route (r := mintRequest) route_mint]
  dsimp only [handler, issueToken]
  rw [hbody]
  dsimp only
  rw [hclient]
  exact congrArg (·, s) (if_neg (not_not.mpr rfl))

/-- A second later the administrator lists the users. -/
def listing : Arrival where
  method := "GET"
  path := ascii "/api/v1/users"
  rawQuery := ""
  host := "localhost:8080"
  lines := [("Authorization", "Bearer " ++ (deployed.auth.issue 0 "admin-client" "admin").accessToken)]
  body := ""
  remoteAddr := "192.0.2.1:51000"
  allowAt := 1
  now := Auth.second

def listingRequest : Request :=
  ⟨"GET", ⟨ascii "/api/v1/users", [], ""⟩, "localhost:8080", .ofLines listing.lines, "", "192.0.2.1:51000"⟩

/-- The listing as it leaves the gateway. -/
def listingOut : Request :=
  forwarded (director deployed.userURL) (identify (deployed.auth.claims 0 "admin-client" "admin") listingRequest)

theorem asks_listing : Asks listing .user listingRequest := by
  have hpath : wellFormed (ascii "/api/v1/users") = true := by decide
  have hurl : Url.setPath (ascii "/api/v1/users") "" = some ⟨ascii "/api/v1/users", [], ""⟩ := by decide +kernel
  have hroute : mux.route "GET" ⟨ascii "/api/v1/users", [], ""⟩ = .handler (.authed .user) [] := by decide +kernel
  refine ⟨?_, [], hroute⟩
  unfold Arrival.request listing
  rw [if_pos hpath, hurl]
  rfl

theorem bearer_listing :
    bearer listingRequest.header = some (deployed.auth.issue 0 "admin-client" "admin").accessToken :=
  bearer_ofLines (by simp)

theorem serve_listing : (serve deployed listing (.newRateLimiter 20 40)).1 = .run (.user, listingOut) := by
  have hallowed : (allowed deployed listing (.newRateLimiter 20 40)).1 = true := by
    simp [allowed, deployed, RateLimiter.limiter, RateLimiter.allow, RateLimiter.newRateLimiter]
  have hfresh : Auth.second < (0 + deployed.auth.expiry) / Auth.second * Auth.second := by decide
  have hverify : deployed.auth.verify listing.now (deployed.auth.issue 0 "admin-client" "admin").accessToken =
      some (deployed.auth.claims 0 "admin-client" "admin") := Authenticator.verify_issue hfresh _ _
  have hrun : authed deployed .user listing.now listingRequest =
      .run (.user, forwarded (director (deployed.target .user))
      (identify (deployed.auth.claims 0 "admin-client" "admin") listingRequest)) :=
    authed_of_verify bearer_listing hverify
  rw [serve_of_asks asks_listing, if_pos hallowed, hrun]
  rfl

theorem lists_listingOut : Lists listingOut := by
  have hnamed : ¬ Named listingRequest.header headerRole := by
    have hname : canonicalMIMEHeaderKey "Authorization" ≠ "Connection" := by decide
    have hlookup : listingRequest.header["Connection"]? = (Header.ofLines [])["Connection"]? :=
      Header.getElem?_ofLines_cons_of_ne hname []
    rw [Named, Header.values, hlookup]
    decide
  have hurl : Url.setPath (directed deployed.userURL ⟨ascii "/api/v1/users", [], ""⟩).requestPath
      (directed deployed.userURL ⟨ascii "/api/v1/users", [], ""⟩).rawQuery = some ⟨ascii "/users", [], ""⟩ := by
    decide +kernel
  have hroute : Users.mux.route "GET" ⟨ascii "/users", [], ""⟩ = .handler .list [] := by decide +kernel
  have hreceived := received_forwarded deployed.userURL (deployed.auth.claims 0 "admin-client" "admin") listingRequest
  rw [show listingRequest.url = ⟨ascii "/api/v1/users", [], ""⟩ from rfl, hurl, Option.map_some] at hreceived
  refine .inl (Users.list_of_role hreceived hroute ?_)
  rw [Header.get, canonical_headerRole, listingOut, values_headerRole, if_neg hnamed]
  rfl

theorem history_listing : history deployed (.newRateLimiter 20 40) [mint, listing] =
    [(mint, .respond 200 (.token (deployed.auth.issue 0 "admin-client" "admin")))] ++
    [(listing, .run (.user, listingOut))] := by
  simp only [history, serve_mint, serve_listing]
  rfl

/-- The only bearer token in these two requests is the one that the first of them was answered with. -/
theorem unforgeable_listing :
    Unforgeable deployed (history deployed (.newRateLimiter 20 40) [mint, listing]) := by
  rw [history_listing]
  intro before after a d hhist raw text hbears hraw
  obtain ⟨r, hr, hbearer⟩ := hbears
  obtain _ | ⟨x, _ | ⟨y, before⟩⟩ := before
  · obtain ⟨hfirst, -⟩ := List.cons.inj hhist
    cases hfirst
    rw [request_mint] at hr
    cases hr
    have hnone : bearer mintRequest.header = none := by decide +kernel
    rw [hnone] at hbearer
    cases hbearer
  · obtain ⟨rfl, hrest⟩ := List.cons.inj hhist
    obtain ⟨hsecond, -⟩ := List.cons.inj hrest
    cases hsecond
    rw [asks_listing.1] at hr
    cases hr
    rw [bearer_listing] at hbearer
    cases hbearer
    exact ⟨mint, _, List.mem_singleton_self _, _, _, hraw, hraw⟩
  · simp at hhist

end Listing

variable [GoJwt] {L : Type} (g : Config L) in
/-- Over any sequence of requests: a listing behind the gateway runs only for a token that was issued to a client with
the role `admin` against its secret; a request that is passed on carries no identity but that of its verified token;
and the identity that clients claim for themselves changes nothing. -/
theorem no_escalation (s : L) (as : List Arrival) :
    (Unforgeable g (history g s as) → ∀ (before after : List (Arrival × Decision)) (a : Arrival) (up : Upstream)
      (r : Request), history g s as = before ++ (a, .run (up, r)) :: after → Lists r →
      ∃ (raw : String) (a' : Arrival) (t : Token), Bears a raw ∧ (a', .respond 200 (.token t)) ∈ before ∧
        SameToken raw t.accessToken ∧ MintedFor g "admin" a' t) ∧
    (∀ (a : Arrival) (up : Upstream) (r : Request), (a, .run (up, r)) ∈ history g s as →
      ∃ (raw : String) (c : Claims), Bears a raw ∧ g.auth.verify a.now raw = some c ∧
        (r.header.values headerSubject = [] ∨ r.header.values headerSubject = [c.subject]) ∧
        (r.header.values headerRole = [] ∨ r.header.values headerRole = [c.role])) ∧
    ∀ as' : List Arrival, as.map Arrival.anonymous = as'.map Arrival.anonymous →
      (history g s as).map Prod.snd = (history g s as').map Prod.snd := by
  refine ⟨?_, ?_, ?_⟩
  · intro hforge before after a up out hhist hlists
    have hmem : (a, Handled.run (up, out)) ∈ history g s as := by
      rw [hhist]
      exact List.mem_append_right _ List.mem_cons_self
    obtain ⟨s', hserve⟩ := mem_history hmem
    obtain ⟨r, raw, c, hr, hraw, hc, rfl⟩ := serve_eq_run hserve.symm
    have hbears : Bears a raw := ⟨r, hr, hraw⟩
    obtain ⟨text, hsplit, -⟩ := Authenticator.verify_eq_some.mp hc
    obtain ⟨a', t, hissued, hsame⟩ := hforge before after a _ hhist raw text hbears hsplit
    have hadmin : c.role = "admin" := role_of_get c r _ (by decide) hlists.role
    obtain ⟨role, hminted⟩ : ∃ role, MintedFor g role a' t := by
      apply mintedFor_of_mem
      rw [hhist]
      exact List.mem_append_left _ hissued
    rw [← hadmin, hminted.role_eq hsame hc]
    exact ⟨raw, a', t, hbears, hissued, hsame, hminted⟩
  · intro a up out hmem
    obtain ⟨s', hserve⟩ := mem_history hmem
    obtain ⟨r, raw, c, hr, hraw, hc, rfl⟩ := serve_eq_run hserve.symm
    refine ⟨raw, c, ⟨r, hr, hraw⟩, hc, ?_, ?_⟩
    · rw [values_headerSubject]
      exact ite_eq_or_eq _ _ _
    · rw [values_headerRole]
      exact ite_eq_or_eq _ _ _
  · intro as' h
    rw [← history_anonymous, h, history_anonymous]

theorem no_escalation_listing : ∃ _ : GoJwt, ∃ out before,
    Unforgeable deployed (history deployed (.newRateLimiter 20 40) [mint, listing]) ∧
    history deployed (.newRateLimiter 20 40) [mint, listing] = before ++ [(listing, .run (.user, out))] ∧ Lists out ∧
    ∃ (raw : String) (a' : Arrival) (t : Token), Bears listing raw ∧ (a', .respond 200 (.token t)) ∈ before ∧
      SameToken raw t.accessToken ∧ MintedFor deployed "admin" a' t := by
  let := GoJwt.coded
  refine ⟨this, listingOut, _, unforgeable_listing, history_listing, lists_listingOut, ?_⟩
  exact (no_escalation deployed (.newRateLimiter 20 40) [mint, listing]).1 unforgeable_listing _ _ _ _ _ history_listing
    lists_listingOut

end EventPlatform.Gateway
