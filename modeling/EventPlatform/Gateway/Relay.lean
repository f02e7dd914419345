import EventPlatform.Gateway.Identity
import EventPlatform.Http.Relay
import EventPlatform.Httpx.Middleware

namespace EventPlatform.Gateway

open Auth Http Httpx Interaction
open Httpx.Middleware (Line service json jsonBody jsonHeader requestIDOf fresh entered internalError)

def bodyValue : Body → Json.Value
  | .status s => .object [("status", .string s)]
  | .error msg => .object [("error", .string msg)]
  | .token t => .object [("access_token", .string t.accessToken), ("token_type", .string t.tokenType),
      ("expires_in", .number (toString t.expiresIn)), ("role", .string t.role)]

/-- What the gateway writes, given what its transport gets and what its router answers where there is no route. -/
def answer (transport : Upstream × Request → Reply) (router : Handling Line Unit) : Decision → Handling Line Unit
  | .respond status body => json status (bodyValue body)
  | .run x => relay (transport x)
  | .badRequest | .redirect | .methodNotAllowed | .notFound => router

/-- How a response travels: the server frames it and may announce its length or the end of the connection. -/
structure Framed (h : Header) (length : ℕ) (lines : List (String × String)) : Prop where
  fields : ∀ k, k ∉ ["Connection", "Content-Length", "Date", "Transfer-Encoding"] →
    (Header.ofLines lines).values k = h.values k
  connection : ∀ v ∈ (Header.ofLines lines).values "Connection", v = "close"
  length : ∀ n, declared (.ofLines lines) = some n → n = length

/-- What can arrive of a response at the transport of the gateway. -/
inductive Arrives (status : ℕ) (h : Header) (body : List UInt8) : Reply → Prop
  | failed : Arrives status h body .failed
  | whole {lines : List (String × String)} {chunks : List (List UInt8)} : Framed h body.length lines →
      chunks.flatten = body → Arrives status h body (.response status lines chunks false)
  | cut {lines : List (String × String)} {chunks : List (List UInt8)} : Framed h body.length lines →
      chunks.flatten <+: body → (∀ n, declared (.ofLines lines) = some n → chunks.flatten.length < n) →
      Arrives status h body (.response status lines chunks true)

section Exchange

variable [GoJwt] {L : Type} (g : Config L)

/-- The gateway as its `main` serves it. -/
def exchange (transport : Upstream × Request → Reply) (router : Handling Line Unit) (b : List UInt8)
    (a : Arrival) (s : L) (r : Request) : Handling Line Unit :=
  service b (fun _ _ ↦ answer transport router (serve g a s).1) r none

end Exchange

section Framed

variable {h : Header} {length : ℕ} {lines : List (String × String)} (hf : Framed h length lines)
include hf

theorem Framed.not_named {k : String} (hk : k ≠ "Close") : ¬ Named (.ofLines lines) k := by
  intro hnamed
  obtain ⟨name, hname, rfl⟩ := List.mem_map.mp hnamed
  obtain ⟨v, hv, hlisted⟩ := List.mem_flatMap.mp hname
  rw [hf.connection v hv] at hlisted
  have hclose : listed "close" = ["close"] := by decide
  rw [hclose, List.mem_singleton] at hlisted
  rw [hlisted] at hk
  exact hk (by decide)

theorem Framed.values_relayed (h₀ : Header) {k : String} (hk : k ≠ "Close") (hhop : k ∉ hopHeaders) :
    (relayed h₀ lines).values k = h₀.values k ++ (Header.ofLines lines).values k := by
  rw [Http.values_relayed, if_neg (not_or.mpr ⟨hf.not_named hk, hhop⟩)]

theorem Framed.declared_relayed (b : List UInt8) (r : Request) :
    declared (relayed (entered b r).response.header lines) = declared (.ofLines lines) := by
  have hkey : canonicalMIMEHeaderKey "Content-Length" = "Content-Length" := by decide
  have hnone : (entered b r).response.header.values "Content-Length" = [] := by
    change ((∅ : Header).set "X-Request-ID" (requestIDOf b r)).values "Content-Length" = []
    rw [Header.values, Header.getElem?_set, if_neg (by decide)]
    rfl
  rw [declared, declared, Header.get, Header.get, hkey, hf.values_relayed _ (by decide) (by decide), hnone,
    List.nil_append]

end Framed

section Ids

theorem values_requestID (id : String) : ((∅ : Header).set "X-Request-ID" id).values "X-Request-Id" = [id] := by
  rw [Header.values, Header.getElem?_set, if_pos (by decide)]
  rfl

variable {b b' : List UInt8} {r r' : Request} {c : Claims} {target : Target}

theorem get_requestID_forwarded (hr' : received (forwarded (director target) (identify c r)) = some r') :
    r'.header.get "X-Request-ID" = if Named r.header "X-Request-Id" then "" else r.header.get "X-Request-ID" := by
  have hkey : canonicalMIMEHeaderKey "X-Request-ID" = "X-Request-Id" := by decide
  have hhop : "X-Request-Id" ∉ hopHeaders := by decide
  rw [header_received hr', Header.get, Header.get, Header.values, Header.values, hkey, getElem?_forwarded,
    getElem?_identify, if_neg (show headerRole ≠ "X-Request-Id" by decide),
    if_neg (show headerSubject ≠ "X-Request-Id" by decide)]
  by_cases hnamed : Named r.header "X-Request-Id"
  · rw [if_pos (.inl hnamed), if_pos hnamed]
    rfl
  · rw [if_neg (not_or.mpr ⟨hnamed, hhop⟩), if_neg hnamed]

/-- The upstream goes on with the id of the gateway only if the client has given one that the proxy does not delete:
an id that the gateway has drawn is not passed on. -/
theorem requestIDOf_eq_iff (hr' : received (forwarded (director target) (identify c r)) = some r') (hb : b ≠ b')
    (hguess : r.header.get "X-Request-ID" ≠ String.ofList (Ethereum.Hex.encodeToString b')) :
    requestIDOf b' r' = requestIDOf b r ↔
      r.header.get "X-Request-ID" ≠ "" ∧ ¬ Named r.header "X-Request-Id" := by
  have hhex : String.ofList (Ethereum.Hex.encodeToString b') ≠ String.ofList (Ethereum.Hex.encodeToString b) := by
    intro h
    have htext := String.ofList_injective h
    have hbytes := congrArg Ethereum.Hex.hex2Bytes htext
    rw [Ethereum.Hex.hex2Bytes_encodeToString, Ethereum.Hex.hex2Bytes_encodeToString] at hbytes
    exact hb hbytes.symm
  rw [requestIDOf, requestIDOf, get_requestID_forwarded hr']
  by_cases hnamed : Named r.header "X-Request-Id"
  · by_cases hx : r.header.get "X-Request-ID" = ""
    · simp [hnamed, hx, hhex]
    · simp [hnamed, hx, Ne.symm hguess]
  · by_cases hx : r.header.get "X-Request-ID" = ""
    · simp [hx, hhex]
    · simp [hnamed, hx]

end Ids

theorem values_jsonHeader (id : String) : (jsonHeader id).values "X-Request-Id" = [id] := by
  rw [jsonHeader, Header.values, Header.getElem?_set, if_neg (by decide)]
  exact values_requestID id

theorem eval_service_json {b : List UInt8} {r : Request} {status : ℕ} (hlow : 200 ≤ status) (hhigh : status ≤ 999)
    (hallowed : bodyAllowed status = true) (hmethod : r.method ≠ "HEAD") (value : Json.Value) :
    ∃ w, (service b (fun _ _ ↦ json status value) r none).eval respond (fresh r) = (.ok (), w) ∧
      w.response.finish = .response status (jsonHeader (requestIDOf b r)) (jsonBody value) true ∧
      w.log = [.request r.method r.url.path status (requestIDOf b r)] := by
  have hanswer : json status value = Middleware.answering [] status value := rfl
  obtain ⟨w, hw, hfinish, hlog⟩ := Middleware.eval_service_answering (h := fun _ _ ↦ json status value)
    (b := b) (r := r) hlow hhigh hallowed hanswer
  rw [if_neg hmethod] at hfinish
  exact ⟨w, hw, hfinish, hlog⟩

section Relayed

variable {b : List UInt8} {r : Request} {status : ℕ} {header : Header} {body : List UInt8}
  {lines : List (String × String)} {chunks : List (List UInt8)} (hlow : 200 ≤ status) (hhigh : status ≤ 999)
  (hallowed : bodyAllowed status = true)
include hlow hhigh

theorem orderly_relay_entered (cut : Bool) : Orderly (relay (.response status lines chunks cut)) (entered b r) := by
  apply orderly_relay rfl
  intro _ _ _ _ h
  cases h
  exact ⟨hlow, hhigh⟩

include hallowed

/-- What the gateway has of a reply when its proxy is done with it, one way or the other. -/
theorem eval_relay_entered {cut : Bool} (h : Arrives status header body (.response status lines chunks cut)) :
    (relay (.response status lines chunks cut)).eval respond (entered b r) =
      (if cut then .error .abortHandler else .ok (), { entered b r with response :=
        ((entered b r).response.commit status (relayed (entered b r).response.header lines)).put chunks.flatten }) := by
  apply eval_relay rfl hlow hhigh hallowed
  rw [within, show (entered b r).response.written + chunks.flatten.length = chunks.flatten.length from Nat.zero_add _]
  cases h with
  | whole hf hbody =>
    rw [hf.declared_relayed]
    split
    · rfl
    · rename_i n hn
      rw [hf.length n hn, hbody]
      exact decide_eq_true le_rfl
  | cut hf _ hless =>
    rw [hf.declared_relayed]
    split
    · rfl
    · rename_i n hn
      exact decide_eq_true (hless n hn).le

/-- A reply that arrives whole is passed on as it is. -/
theorem relay_whole (hmethod : r.method ≠ "HEAD")
    (h : Arrives status header body (.response status lines chunks false)) :
    ∃ w, (service b (fun _ _ ↦ relay (.response status lines chunks false)) r none).eval respond (fresh r) =
        (.ok (), w) ∧
      w.response.finish = .response status (relayed (entered b r).response.header lines) body true ∧
      w.log = [.request r.method r.url.path status (requestIDOf b r)] := by
  have hhead : (entered b r).response.head = false := decide_eq_false hmethod
  have heval := eval_relay_entered (b := b) (r := r) hlow hhigh hallowed h
  refine ⟨_, Middleware.eval_service_of_ok (orderly_relay_entered hlow hhigh false) heval, ?_, rfl⟩
  cases h with
  | whole hf hbody =>
    rw [Response.finish_put hhead rfl hallowed, hbody, ends, hf.declared_relayed]
    split
    · rfl
    · rename_i n hn
      rw [hf.length n hn, decide_eq_true rfl]

/-- A reply that is cut off goes on as if it had not been: the abort of the proxy is recovered, and the error is added
to the body. The client notices unless no length is announced or the error makes up for the missing bytes. -/
theorem relay_cut (hmethod : r.method ≠ "HEAD") (h : Arrives status header body (.response status lines chunks true)) :
    ∃ w body' whole, (service b (fun _ _ ↦ relay (.response status lines chunks true)) r none).eval respond (fresh r) =
        (.ok (), w) ∧
      w.response.finish = .response status (relayed (entered b r).response.header lines) body' whole ∧
      (whole = true ↔ declared (.ofLines lines) = none ∨ body.length = chunks.flatten.length + internalError.length) ∧
      (whole = true → body' = chunks.flatten ++ internalError) ∧
      w.log =
        [.panicRecovered .abortHandler (requestIDOf b r), .request r.method r.url.path 500 (requestIDOf b r)] := by
  have hhead : (entered b r).response.head = false := decide_eq_false hmethod
  have heval := eval_relay_entered (b := b) (r := r) hlow hhigh hallowed h
  rw [if_pos rfl] at heval
  have hservice := Middleware.eval_service_of_panic (h := fun _ _ ↦ relay (.response status lines chunks true))
    (orderly_relay_entered hlow hhigh true) heval
  have hfinish := Middleware.finish_failed_put hhead rfl rfl hallowed (relayed (entered b r).response.header lines)
    chunks.flatten
  have hpositive : 0 < internalError.length := by decide
  cases h with
  | cut hf hprefix hless =>
    rw [within, ends, ends, hf.declared_relayed] at hfinish
    cases hd : declared (.ofLines lines) with
    | none =>
      rw [hd] at hfinish
      exact ⟨_, _, _, hservice, hfinish, by simp, fun _ ↦ rfl, rfl⟩
    | some n =>
      rw [hd] at hfinish
      have hn := hf.length n hd
      have hn' := hless n hd
      by_cases hfit : chunks.flatten.length + internalError.length ≤ n
      · refine ⟨_, _, _, hservice, hfinish.trans (if_pos (decide_eq_true hfit)), ?_, fun _ ↦ rfl, rfl⟩
        simp [hn, eq_comm]
      · refine ⟨_, _, _, hservice, hfinish.trans (if_neg (by simpa using hfit)), ?_, ?_, rfl⟩
        · refine iff_of_false (fun hwhole ↦ ?_) (not_or.mpr ⟨by simp, by omega⟩)
          have hlength := of_decide_eq_true hwhole
          omega
        · intro hwhole
          have hlength := of_decide_eq_true hwhole
          omega

end Relayed

section Forwarded

variable [GoJwt] {L : Type} {g : Config L} {transport : Upstream × Request → Reply} {router : Handling Line Unit}
  {b b' : List UInt8} {a : Arrival} {s : L} {r r' out : Request} {up : Upstream} {status : ℕ}

theorem method_received (hr : a.request = some r) (hrun : (serve g a s).1 = .run (up, out))
    (hr' : received out = some r') :
    r'.method = r.method := by
  obtain ⟨r₀, raw, c, hr₀, -, -, rfl⟩ := serve_eq_run hrun
  cases hr.symm.trans hr₀
  obtain ⟨url, -, rfl⟩ := Option.map_eq_some_iff.mp hr'
  rfl

theorem exchange_of_run (hrun : (serve g a s).1 = .run (up, out)) : exchange g transport router b a s r =
    service b (fun _ _ ↦ relay (transport (up, out))) r none := by
  rw [exchange, hrun]
  rfl

section Answer

variable {value : Json.Value} {lines : List (String × String)} {chunks : List (List UInt8)} (hr : a.request = some r)
  (hrun : (serve g a s).1 = .run (up, out)) (hr' : received out = some r') (hmethod : r.method ≠ "HEAD")
  (hlow : 200 ≤ status) (hhigh : status ≤ 999) (hallowed : bodyAllowed status = true)
include hr hrun hr' hmethod hlow hhigh hallowed

/-- An answer that is cut off on its way from the upstream. -/
theorem forwarded_cut
    (harrives : Arrives status (jsonHeader (requestIDOf b' r')) (jsonBody value) (.response status lines chunks true))
    (hreply : transport (up, out) = .response status lines chunks true) :
    ∃ u w header body whole, (service b' (fun _ _ ↦ json status value) r' none).eval respond (fresh r') = (.ok (), u) ∧
      u.response.finish = .response status (jsonHeader (requestIDOf b' r')) (jsonBody value) true ∧
      (exchange g transport router b a s r).eval respond (fresh r) = (.ok (), w) ∧
      w.response.finish = .response status header body whole ∧
      (whole = true ↔ declared (.ofLines lines) = none ∨
        (jsonBody value).length = chunks.flatten.length + internalError.length) ∧
      (whole = true → body = chunks.flatten ++ internalError) ∧
      w.log =
        [.panicRecovered .abortHandler (requestIDOf b r), .request r.method r.url.path 500 (requestIDOf b r)] := by
  have hmethod' : r'.method ≠ "HEAD" := by rwa [method_received hr hrun hr']
  obtain ⟨u, hu, hsent, -⟩ := eval_service_json (b := b') hlow hhigh hallowed hmethod' value
  obtain ⟨w, body, whole, hw⟩ := relay_cut (b := b) hlow hhigh hallowed hmethod harrives
  rw [exchange_of_run hrun, hreply]
  exact ⟨u, w, _, body, whole, hu, hsent, hw⟩

end Answer

end Forwarded

section Visit

/-- The fields of a service's own answer on their way, without a length. -/
def jsonLines (id : String) : List (String × String) := [("X-Request-Id", id), ("Content-Type", "application/json")]

theorem ofLines_jsonLines (id : String) : Header.ofLines (jsonLines id) = jsonHeader id := by
  have hcanonical : canonicalMIMEHeaderKey "X-Request-Id" = canonicalMIMEHeaderKey "X-Request-ID" := by decide
  have htype : canonicalMIMEHeaderKey "X-Request-ID" ≠ canonicalMIMEHeaderKey "Content-Type" := by decide
  simp [jsonLines, jsonHeader, Header.ofLines, Header.add, Header.set, Header.values, hcanonical, htype]

theorem framed_jsonLines (id : String) (length : ℕ) : Framed (jsonHeader id) length (jsonLines id) := by
  have hd : declared (jsonHeader id) = none := by
    rw [jsonHeader, declared_set (by decide), declared_set (by decide)]
    decide
  have hconnection : (jsonHeader id).values "Connection" = [] := by
    rw [jsonHeader, Header.values, Header.getElem?_set, if_neg (by decide), Header.getElem?_set, if_neg (by decide)]
    rfl
  constructor
  · intro k _
    rw [ofLines_jsonLines]
  · rw [ofLines_jsonLines, hconnection]
    simp
  · rw [ofLines_jsonLines, hd]
    simp

variable [GoJwt] {lines : List (String × String)}

variable (lines) in
/-- The visit as the user service gets it. -/
def visited : Request :=
  { forwarded (director deployed.userURL)
      (identify (deployed.auth.claims 0 "user-client" "user") (visitRequest lines)) with
    url := ⟨ascii "/users/7", [], ""⟩ }

theorem received_visit : received (forwarded (director deployed.userURL)
    (identify (deployed.auth.claims 0 "user-client" "user") (visitRequest lines))) = some (visited lines) := by
  have hurl : Url.setPath (directed deployed.userURL ⟨ascii "/api/v1/users/7", [], ""⟩).requestPath
      (directed deployed.userURL ⟨ascii "/api/v1/users/7", [], ""⟩).rawQuery = some ⟨ascii "/users/7", [], ""⟩ := by
    decide +kernel
  rw [received_forwarded]
  change Option.map _ (Url.setPath (directed deployed.userURL ⟨ascii "/api/v1/users/7", [], ""⟩).requestPath
      (directed deployed.userURL ⟨ascii "/api/v1/users/7", [], ""⟩).rawQuery) = _
  rw [hurl]
  rfl

theorem get_requestID_visit : (visitRequest []).header.get "X-Request-ID" = "" := by
  have hname : canonicalMIMEHeaderKey "Authorization" ≠ canonicalMIMEHeaderKey "X-Request-ID" := by decide
  have hlookup : (visitRequest []).header[canonicalMIMEHeaderKey "X-Request-ID"]? =
      (Header.ofLines [])[canonicalMIMEHeaderKey "X-Request-ID"]? := Header.getElem?_ofLines_cons_of_ne hname []
  rw [Header.get, Header.values, hlookup]
  rfl

/-- An upstream that always answers the same. -/
def constantly (reply : Reply) : Upstream × Request → Reply := fun _ ↦ reply

end Visit

/-- An answer of which nothing arrives but its header: the client takes the error for the whole body of a success. -/
theorem forwarded_cut_visit : ∃ _ : GoJwt, ∃ w header,
    (exchange deployed (constantly (.response 200 (jsonLines (requestIDOf [2] (visited []))) [] true))
      (pure ()) [1] (visit []) (.newRateLimiter 20 40) (visitRequest [])).eval respond (fresh (visitRequest [])) =
        (.ok (), w) ∧
    w.response.finish = .response 200 header internalError true := by
  let := GoJwt.coded
  have hframed := framed_jsonLines (requestIDOf [2] (visited [])) (jsonBody .null).length
  have hd : declared (.ofLines (jsonLines (requestIDOf [2] (visited [])))) = none := by
    rw [ofLines_jsonLines, jsonHeader, declared_set (by decide), declared_set (by decide)]
    decide
  have harrives : Arrives 200 (jsonHeader (requestIDOf [2] (visited []))) (jsonBody .null)
      (.response 200 (jsonLines (requestIDOf [2] (visited []))) [] true) :=
    .cut hframed List.nil_prefix (by simp [hd])
  have hreply : constantly (.response 200 (jsonLines (requestIDOf [2] (visited []))) [] true)
      (.user, forwarded (director deployed.userURL)
        (identify (deployed.auth.claims 0 "user-client" "user") (visitRequest []))) =
      .response 200 (jsonLines (requestIDOf [2] (visited []))) [] true := rfl
  obtain ⟨u, w, header, body, whole, -, -, hw, hfinish, hwhole, hbody, -⟩ := forwarded_cut (b := [1]) asks_visit.1
    (serve_visit (by simp)) received_visit (by decide) (by decide) (by decide) (by decide) harrives hreply
  obtain rfl := hwhole.mpr (.inl hd)
  obtain rfl := hbody rfl
  exact ⟨this, w, header, hw, hfinish⟩

end EventPlatform.Gateway
