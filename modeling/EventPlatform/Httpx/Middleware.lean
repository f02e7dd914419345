import EventPlatform.Ethereum.Hex
import EventPlatform.Http.Proxy
import EventPlatform.Http.Response
import EventPlatform.Json.Encode

namespace EventPlatform.Httpx.Middleware

open Http Interaction

inductive Line
  | panicRecovered (reason : Panic) (requestID : String)
  | request (method : String) (path : List UInt8) (status : ℕ) (requestID : String)
  | warn (msg error : String)
  deriving DecidableEq

/-- A handler is given a request and the request id of its context. -/
abbrev Handler := Request → Option String → Handling Line Unit

def bytes (cs : List Char) : List UInt8 := cs.flatMap String.utf8EncodeChar

/-- What `json.Encoder` writes. -/
def jsonBody (v : Json.Value) : List UInt8 := bytes (Json.encode v ++ ['\n'])

def json (status : ℕ) (v : Json.Value) : Handling Line Unit := do
  setHeader "Content-Type" "application/json"
  writeHeader status
  let _ ← write (jsonBody v)

def error (status : ℕ) (msg : String) : Handling Line Unit := json status (.object [("error", .string msg)])

/-- Some lines of the log, and then an answer. -/
def answering (lines : List Line) (status : ℕ) (v : Json.Value) : Handling Line Unit :=
  lines.foldr (fun line next ↦ log line >>= fun _ ↦ next) (json status v)

/-- The id of a request: its own, or eight random bytes. -/
def requestIDOf (b : List UInt8) (r : Request) : String :=
  if r.header.get "X-Request-ID" = "" then String.ofList (Ethereum.Hex.encodeToString b)
  else r.header.get "X-Request-ID"

def requestID (b : List UInt8) (next : Handler) : Handler := fun r _ ↦ do
  setHeader "X-Request-ID" (requestIDOf b r)
  next r (some (requestIDOf b r))

def requestIDFrom (ctx : Option String) : String := ctx.getD ""

def recovery (next : Handler) : Handler := fun r ctx ↦ do
  match ← (next r ctx).attempt with
  | .ok () => pure ()
  | .error reason =>
    log (.panicRecovered reason (requestIDFrom ctx))
    error 500 "internal error"

/-- What a handler does through a `statusWriter`, with the status that it has recorded at the end. -/
def statusWriter {α : Type} : Handling Line α → ℕ → Handling Line (α × ℕ)
  | .ret a, status => .ret (a, status)
  | .fail e, _ => .fail e
  | .call (.writeHeader code) k, _ => .call (.writeHeader code) fun x ↦ statusWriter (k x) code
  | .call c k, status => .call c fun x ↦ statusWriter (k x) status

def logger (next : Handler) : Handler := fun r ctx ↦ do
  let (_, status) ← statusWriter (next r ctx) 200
  log (.request r.method r.url.path status (requestIDFrom ctx))

def chain (h : Handler) (mw : List (Handler → Handler)) : Handler := mw.foldr (fun m next ↦ m next) h

/-- The handler of a service as its `main` sets it up. -/
def service (b : List UInt8) (h : Handler) : Handler := chain h [requestID b, logger, recovery]

/-- The response before any handler has run. -/
def fresh (r : Request) : Writing Line := ⟨.start (r.method = "HEAD"), []⟩

/-- The response when the handler of the service is called. -/
def entered (b : List UInt8) (r : Request) : Writing Line :=
  ⟨{ Response.start (r.method = "HEAD") with header := (∅ : Header).set "X-Request-ID" (requestIDOf b r) }, []⟩

/-- The header of a service's own answers. -/
def jsonHeader (id : String) : Header := ((∅ : Header).set "X-Request-ID" id).set "Content-Type" "application/json"

def internalError : List UInt8 := jsonBody (.object [("error", .string "internal error")])

example : internalError = ascii "\x7b\"error\":\"internal error\"\x7d\n" := by decide

variable {α : Type} {w v : Writing Line}

/-- The recorded status is the one of the response, as long as the handler is orderly, even if it panics. -/
theorem eval_statusWriter {p : Handling Line α} (hp : Orderly p w) :
    (statusWriter p.attempt w.response.status).eval respond w =
      (.ok ((p.eval respond w).1, (p.eval respond w).2.response.status), (p.eval respond w).2) := by
  induction p generalizing w with
  | ret a => rfl
  | fail e => rfl
  | call c k ih =>
    obtain ⟨hc, hk⟩ := hp (respond w c).1 (respond w c).2 rfl
    specialize ih _ hk
    cases c with
    | writeHeader code =>
      obtain ⟨hsent, hlow, hhigh⟩ := hc code rfl
      have hstatus : (respond w (.writeHeader code)).2.response.status = code := by
        dsimp only [respond]
        rw [Response.writeHeader_of_fresh hsent hlow hhigh]
        rfl
      rw [hstatus] at ih
      exact ih
    | setHeader name value | addHeader name value | delHeader name | write p | log line =>
      rw [status_respond (by simp)] at ih
      exact ih

theorem statusWriter_bind {β : Type} (p : Handling Line α) (f : α → Handling Line β) (status : ℕ) :
    statusWriter (p >>= f) status = statusWriter p status >>= fun x ↦ statusWriter (f x.1) x.2 := by
  change statusWriter (p.bind f) status = (statusWriter p status).bind fun x ↦ statusWriter (f x.1) x.2
  induction p generalizing status with
  | ret a => rfl
  | fail e => rfl
  | call c k ih => cases c <;> exact congrArg (Prog.call _) (funext fun x ↦ ih x _)

def asJSON (w : Response) : Response := { w with header := w.header.set "Content-Type" "application/json" }

/-- The response after the error of `recovery`, which comes too late where the header is sent. -/
def failed (w : Response) : Response := (((asJSON w).writeHeader 500).2.write internalError).2

theorem ok_writeHeader (w : Response) : (w.writeHeader 500).1 = .ok () := by
  cases h : w.sent with
  | none => rw [Response.writeHeader_of_fresh h (by decide) (by decide)]
  | some x => rw [Response.writeHeader_of_sent h]

theorem failed_of_unsent {w : Response} (h : w.sent = none) :
    failed w = ({ asJSON w with sent := some (500, (asJSON w).header) }.write internalError).2 := by
  have hsent : (asJSON w).sent = none := h
  rw [failed, Response.writeHeader_of_fresh hsent (by decide) (by decide)]

theorem failed_of_sent {w : Response} {x : ℕ × Header} (h : w.sent = some x) :
    failed w = ((asJSON w).write internalError).2 := by
  have hsent : (asJSON w).sent = some x := h
  rw [failed, Response.writeHeader_of_sent hsent]

theorem line_of_sent {w : Response} {x : ℕ × Header} (h : w.sent = some x) : w.line = x := by
  rw [Response.line, h]
  rfl

theorem status_failed_of_unsent {w : Response} (h : w.sent = none) : (failed w).status = 500 := by
  rw [failed_of_unsent h, Response.status_write]
  rfl

theorem status_failed_of_sent {w : Response} {x : ℕ × Header} (h : w.sent = some x) : (failed w).status = x.1 := by
  have hsent : (asJSON w).sent = some x := h
  rw [failed_of_sent h, Response.status_write, Response.status, line_of_sent hsent]

/-- The answer to a panic that comes before the handler has sent anything. -/
theorem finish_failed {w : Response} (h : w.sent = none) (ht : w.Tidy) (hd : declared w.header = none) :
    (failed w).finish = .response 500 (w.header.set "Content-Type" "application/json")
      (if w.head then [] else internalError) true := by
  obtain ⟨hwritten, hbody⟩ := ht h
  have hd' : declared (w.header.set "Content-Type" "application/json") = none := by
    rw [declared_set (by decide), hd]
  have hne : internalError ≠ [] := by decide
  have hallowed : bodyAllowed 500 = true := by decide
  rw [failed_of_unsent h]
  simp [asJSON, Response.write, Response.finish, Response.status, Response.line, within, ends, hd', hne, hallowed,
    hbody]

/-- The answer to a panic that comes when a part of the body is out: the error is added to it if the announced length
allows it. -/
theorem finish_failed_put {w : Response} (hhead : w.head = false) (hbody : w.body = []) (hwritten : w.written = 0)
    {status : ℕ} (hallowed : bodyAllowed status = true) (h : Header) (p : List UInt8) :
    (failed ((w.commit status h).put p)).finish =
      if within h (p.length + internalError.length) then
        .response status h (p ++ internalError) (ends h (p ++ internalError).length)
      else .response status h p (ends h p.length) := by
  have hsent : (asJSON ((w.commit status h).put p)).sent = some (status, h) := rfl
  have hlength : (asJSON ((w.commit status h).put p)).written = p.length := by
    change w.written + p.length = p.length
    rw [hwritten, Nat.zero_add]
  have hput (q : List UInt8) : ((asJSON ((w.commit status h).put p)).put q).finish =
      .response status h (p ++ q) (ends h (p ++ q).length) := by
    rw [← Response.finish_put hhead hbody hallowed, ← Response.put_put]
    rfl
  rw [failed_of_sent (x := (status, h)) rfl]
  split_ifs with hfit
  · rw [← hlength] at hfit
    rw [Response.write_of_sent hsent hallowed hfit, hput]
  · rw [← hlength, Bool.not_eq_true] at hfit
    rw [Response.write_of_exceeding hsent (by decide) hfit, ← Response.finish_put hhead hbody hallowed]
    rfl

theorem eval_error (w : Writing Line) (status : ℕ) : (statusWriter (error 500 "internal error") status).eval respond w =
    (.ok ((), 500), { w with response := failed w.response }) := by
  have hheader : (statusWriter (setHeader "Content-Type" "application/json") status).eval respond w =
      (.ok ((), status), w.onHeader (·.set "Content-Type" "application/json")) := rfl
  -- The status is recorded whether or not the server still takes it.
  have hcode (v : Writing Line) : (statusWriter (writeHeader 500) status).eval respond v =
      (.ok ((), 500), { v with response := (v.response.writeHeader 500).2 }) := by
    change Prog.eval respond (statusWriter (Prog.perform (WriterOp.writeHeader 500)) status) v = _
    simp only [Prog.perform, statusWriter, Prog.eval, respond]
    rw [ok_writeHeader]
    rfl
  rw [error, json, statusWriter_bind, Prog.eval_bind_of_ok hheader, statusWriter_bind, Prog.eval_bind_of_ok (hcode _)]
  rfl

section Json

variable {status : ℕ} (hsent : w.response.sent = none) (hlow : 200 ≤ status) (hhigh : status ≤ 999)
include hsent hlow hhigh

theorem orderly_json (value : Json.Value) : Orderly (json status value) w := by
  refine (orderly_perform (by simp)).bind fun _ u hu ↦ ?_
  cases hu
  have hcode : Orderly (writeHeader status) (w.onHeader (·.set "Content-Type" "application/json")) :=
    orderly_writeHeader hsent hlow hhigh
  exact hcode.bind fun _ _ _ ↦ (orderly_perform (by simp)).bind fun _ _ _ ↦ trivial

theorem eval_json (hallowed : bodyAllowed status = true) (hd : declared w.response.header = none) (value : Json.Value) :
    (json status value).eval respond w = (.ok (), { w with response :=
      (w.response.commit status (asJSON w.response).header).put (jsonBody value) }) := by
  have hheader : (setHeader "Content-Type" "application/json").eval respond w =
      (.ok (), w.onHeader (·.set "Content-Type" "application/json")) := rfl
  have hcode := eval_writeHeader hsent hlow hhigh (·.set "Content-Type" "application/json")
  have hfit (n : ℕ) : within (w.response.header.set "Content-Type" "application/json") n = true := by
    rw [within, declared_set (by decide), hd]
  have hwrite := @eval_write Line { w with response := w.response.commit status (asJSON w.response).header }
    (status, (asJSON w.response).header) rfl hallowed (jsonBody value) (hfit _)
  rw [json, Prog.eval_bind_of_ok hheader, Prog.eval_bind_of_ok hcode]
  exact Prog.eval_bind_of_ok hwrite _

theorem orderly_answering (lines : List Line) (value : Json.Value) : Orderly (answering lines status value) w := by
  induction lines generalizing w with
  | nil => exact orderly_json hsent hlow hhigh value
  | cons line lines ih =>
    refine (orderly_perform (by simp)).bind fun _ u hu ↦ ?_
    cases hu
    exact ih hsent

end Json

theorem eval_answering (lines : List Line) (status : ℕ) (value : Json.Value) (w : Writing Line) :
    (answering lines status value).eval respond w =
      (json status value).eval respond { w with log := w.log ++ lines } := by
  induction lines generalizing w with
  | nil =>
    rw [List.append_nil]
    rfl
  | cons line lines ih =>
    have hline : (log line).eval respond w = (.ok (), { w with log := w.log ++ [line] }) := rfl
    have hnext := Prog.eval_bind_of_ok hline fun _ ↦ answering lines status value
    rw [ih, List.append_assoc] at hnext
    exact hnext

section Service

variable {h : Handler} {b : List UInt8} {r : Request}

theorem eval_service {status : ℕ}
    (hw : (statusWriter (recovery h r (some (requestIDOf b r))) 200).eval respond (entered b r) =
    (.ok ((), status), v)) : (service b h r none).eval respond (fresh r) =
      (.ok (), { v with log := v.log ++ [.request r.method r.url.path status (requestIDOf b r)] }) := by
  change (logger (recovery h) r (some (requestIDOf b r))).eval respond (entered b r) = _
  rw [logger, Prog.eval_bind_of_ok hw]
  rfl

theorem eval_attempt {x : Except Panic Unit} (hp : Orderly (h r (some (requestIDOf b r))) (entered b r))
    (hv : (h r (some (requestIDOf b r))).eval respond (entered b r) = (x, v)) :
    (statusWriter (h r (some (requestIDOf b r))).attempt 200).eval respond (entered b r) =
    (.ok (x, v.response.status), v) := by
  have hstatus := eval_statusWriter hp
  rw [hv] at hstatus
  exact hstatus

theorem eval_service_of_ok (hp : Orderly (h r (some (requestIDOf b r))) (entered b r))
    (hv : (h r (some (requestIDOf b r))).eval respond (entered b r) = (.ok (), v)) :
    (service b h r none).eval respond (fresh r) = (.ok (),
      { v with log := v.log ++ [.request r.method r.url.path v.response.status (requestIDOf b r)] }) := by
  apply eval_service
  rw [recovery, statusWriter_bind, Prog.eval_bind_of_ok (eval_attempt hp hv)]
  rfl

/-- A service whose handler answers by itself. -/
theorem eval_service_answering {lines : List Line} {status : ℕ} {value : Json.Value} (hlow : 200 ≤ status)
    (hhigh : status ≤ 999) (hallowed : bodyAllowed status = true)
    (hh : h r (some (requestIDOf b r)) = answering lines status value) :
    ∃ w, (service b h r none).eval respond (fresh r) = (.ok (), w) ∧
      w.response.finish = .response status (jsonHeader (requestIDOf b r))
        (if r.method = "HEAD" then [] else jsonBody value) true ∧
      w.log = lines ++ [.request r.method r.url.path status (requestIDOf b r)] := by
  have hd : declared (entered b r).response.header = none := by
    change declared ((∅ : Header).set "X-Request-ID" (requestIDOf b r)) = none
    rw [declared_set (by decide)]
    decide
  have hd' : declared (asJSON (entered b r).response).header = none := by
    rw [asJSON, declared_set (by decide), hd]
  have hv : (h r (some (requestIDOf b r))).eval respond (entered b r) = (.ok (),
      ⟨((entered b r).response.commit status (asJSON (entered b r).response).header).put (jsonBody value), lines⟩) := by
    rw [hh, eval_answering]
    exact eval_json (w := ⟨(entered b r).response, lines⟩) rfl hlow hhigh hallowed hd value
  refine ⟨_, eval_service_of_ok ?_ hv, ?_, rfl⟩
  · rw [hh]
    exact orderly_answering rfl hlow hhigh lines value
  · by_cases hmethod : r.method = "HEAD"
    · have hhead : (entered b r).response.head = true := decide_eq_true hmethod
      rw [if_pos hmethod]
      simp only [Response.finish, Response.put, Response.commit, hhead]
      rfl
    · have hhead : (entered b r).response.head = false := decide_eq_false hmethod
      rw [if_neg hmethod, Response.finish_put hhead rfl hallowed, ends, hd']
      rfl

theorem eval_service_of_panic {e : Panic} (hp : Orderly (h r (some (requestIDOf b r))) (entered b r))
    (hv : (h r (some (requestIDOf b r))).eval respond (entered b r) = (.error e, v)) :
    (service b h r none).eval respond (fresh r) = (.ok (), ⟨failed v.response, v.log ++
      [.panicRecovered e (requestIDOf b r), .request r.method r.url.path 500 (requestIDOf b r)]⟩) := by
  have hw : (statusWriter (recovery h r (some (requestIDOf b r))) 200).eval respond (entered b r) =
      (.ok ((), 500), ⟨failed v.response, v.log ++ [.panicRecovered e (requestIDOf b r)]⟩) := by
    rw [recovery, statusWriter_bind, Prog.eval_bind_of_ok (eval_attempt hp hv)]
    dsimp only
    rw [statusWriter_bind]
    exact eval_error _ v.response.status
  rw [eval_service hw, List.append_assoc]
  rfl

def panicLines : Except Panic Unit → String → List Line
  | .ok _, _ => []
  | .error e, id => [.panicRecovered e id]

/-- A panic when another status than 500 is already sent. -/
def Late (x : Except Panic Unit) (w : Response) : Prop :=
  ∃ e y, x = .error e ∧ w.sent = some y ∧ y.1 ≠ 500

/-- A service answers whatever its handler does, and logs one line for it, the status of which is the one that the
client gets unless a panic comes late. A panic that comes before anything is sent is answered as an error. -/
theorem answered_and_logged (hp : Orderly (h r (some (requestIDOf b r))) (entered b r)) {x : Except Panic Unit}
    (hv : (h r (some (requestIDOf b r))).eval respond (entered b r) = (x, v)) :
    ∃ w status, (service b h r none).eval respond (fresh r) = (.ok (), w) ∧
      w.log = v.log ++ panicLines x (requestIDOf b r) ++ [.request r.method r.url.path status (requestIDOf b r)] ∧
      (status = w.response.status ↔ ¬ Late x v.response) ∧
      (∀ e, x = .error e → v.response.sent = none → declared v.response.header = none →
        w.response.finish = .response 500 (v.response.header.set "Content-Type" "application/json")
          (if v.response.head then [] else internalError) true) := by
  cases x with
  | ok u =>
    refine ⟨_, v.response.status, eval_service_of_ok hp hv, by simp [panicLines], ?_, by simp⟩
    simp [Late]
  | error e =>
    refine ⟨_, 500, eval_service_of_panic hp hv, by simp [panicLines], ?_, ?_⟩
    · cases hsent : v.response.sent with
      | none => simp [Late, hsent, status_failed_of_unsent hsent]
      | some y =>
        rw [status_failed_of_sent hsent]
        simp [Late, hsent, eq_comm]
    · intro _ _ hsent hd
      have htidy := tidy_eval (w := entered b r) (h r (some (requestIDOf b r))) fun _ ↦ ⟨rfl, rfl⟩
      rw [hv] at htidy
      exact finish_failed hsent htidy hd

end Service

/-- A handler that panics after its answer. -/
def late : Handler := fun _ _ ↦ do
  json 200 (.object [("status", .string "ok")])
  Prog.fail (.value "late")

theorem answered_and_logged_late : ∃ w status,
    (service [1] late ⟨"GET", ⟨ascii "/healthz", [], ""⟩, "localhost:8080", ∅, "", "192.0.2.1:51000"⟩ none).eval respond
      (fresh ⟨"GET", ⟨ascii "/healthz", [], ""⟩, "localhost:8080", ∅, "", "192.0.2.1:51000"⟩) = (.ok (), w) ∧
    w.log = [.panicRecovered (.value "late") "01", .request "GET" (ascii "/healthz") status "01"] ∧
    status ≠ w.response.status := by
  let r : Request := ⟨"GET", ⟨ascii "/healthz", [], ""⟩, "localhost:8080", ∅, "", "192.0.2.1:51000"⟩
  have hp : Orderly (late r (some (requestIDOf [1] r))) (entered [1] r) :=
    (orderly_json rfl (by decide) (by decide) _).bind fun _ _ _ ↦ trivial
  have hd : declared (entered [1] r).response.header = none := by decide
  have hjson := eval_json (w := entered [1] r) rfl (by decide : 200 ≤ 200) (by decide) (by decide) hd
    (.object [("status", .string "ok")])
  have hv := Prog.eval_bind_of_ok hjson fun _ ↦ (Prog.fail (.value "late") : Handling Line Unit)
  obtain ⟨w, status, hw, hlog, hstatus, -⟩ := answered_and_logged hp hv
  refine ⟨w, status, hw, hlog, fun heq ↦ hstatus.mp heq ⟨_, _, rfl, rfl, by decide⟩⟩

end EventPlatform.Httpx.Middleware
