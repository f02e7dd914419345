import EventPlatform.Http.Header
import EventPlatform.Interaction.Program
import EventPlatform.Strconv

namespace EventPlatform.Http

open Interaction

/-- What handlers of `net/http` panic with. -/
inductive Panic
  | abortHandler
  | invalidCode (code : ℕ)
  | value (v : String)
  deriving DecidableEq

def bodyAllowed (status : ℕ) : Bool := !decide (100 ≤ status ∧ status ≤ 199) && status ≠ 204 && status ≠ 304

/-- The length that a header announces for the body. -/
def declared (h : Header) : Option ℕ :=
  (Strconv.parseInt (h.get "Content-Length")).bind fun n ↦ if 0 ≤ n then some n.toNat else none

def within (h : Header) (n : ℕ) : Bool :=
  match declared h with
  | none => true
  | some m => n ≤ m

/-- A body of this length ends where its header says. -/
def ends (h : Header) (n : ℕ) : Bool :=
  match declared h with
  | none => true
  | some m => n = m

/-- A response while its handler runs: whether it answers a `HEAD`, the header of the handler, the status and header
that are already fixed, the number of bytes the handler has given, and those of them that go out. -/
structure Response where
  head : Bool
  header : Header
  sent : Option (ℕ × Header)
  written : ℕ
  body : List UInt8

/-- What the other end makes of a response. The body of a `whole` one has the length that its framing promises. -/
inductive Seen
  | aborted
  | response (status : ℕ) (header : Header) (body : List UInt8) (whole : Bool)

namespace Response

def start (head : Bool) : Response := ⟨head, ∅, none, 0, []⟩

/-- The status and header of the response, as they stand once the handler needs them. -/
def line (w : Response) : ℕ × Header := w.sent.getD (200, w.header)

def status (w : Response) : ℕ := w.line.1

-- Only the first status that is not informational counts. A code is not looked at once the header is sent.
def writeHeader (w : Response) (code : ℕ) : Except Panic Unit × Response :=
  if w.sent.isSome then (.ok (), w)
  else if code < 100 ∨ 999 < code then (.error (.invalidCode code), w)
  else if code ≤ 199 ∧ code ≠ 101 then (.ok (), w)
  else (.ok (), { w with sent := some (code, w.header) })

-- Bytes that are refused for exceeding the announced length are counted as if they had been written.
def write (w : Response) (p : List UInt8) : Bool × Response :=
  let out := { w with sent := some w.line }
  if p = [] then (true, out)
  else if bodyAllowed w.status then
    if within w.line.2 (w.written + p.length) then
      (true, { out with written := w.written + p.length, body := if w.head then w.body else w.body ++ p })
    else (false, { out with written := w.written + p.length })
  else (false, out)

/-- What goes out when the handler has returned. -/
def finish (w : Response) : Seen :=
  .response w.status w.line.2 w.body (w.head || !bodyAllowed w.status || ends w.line.2 w.body.length)

end Response

/-- What a handler does to its `http.ResponseWriter`, and the lines it logs. -/
inductive WriterOp (Line : Type)
  | setHeader (name value : String)
  | addHeader (name value : String)
  | delHeader (name : String)
  | writeHeader (code : ℕ)
  | write (p : List UInt8)
  | log (line : Line)

abbrev WriterOp.Reply {Line : Type} : WriterOp Line → Type
  | .write _ => Bool
  | _ => Unit

structure Writing (Line : Type) where
  response : Response
  log : List Line

abbrev Handling (Line : Type) := Prog Panic (@WriterOp.Reply Line)

section Handling

variable {Line : Type}

def Writing.onHeader (w : Writing Line) (f : Header → Header) : Writing Line :=
  { w with response := { w.response with header := f w.response.header } }

/-- A step of `net/http`'s own writer. -/
def respond (w : Writing Line) : (c : WriterOp Line) → Except Panic c.Reply × Writing Line
  | .setHeader name value => (.ok (), w.onHeader (·.set name value))
  | .addHeader name value => (.ok (), w.onHeader (·.add name value))
  | .delHeader name => (.ok (), w.onHeader (·.del name))
  | .writeHeader code => ((w.response.writeHeader code).1, { w with response := (w.response.writeHeader code).2 })
  | .write p => (.ok (w.response.write p).1, { w with response := (w.response.write p).2 })
  | .log line => (.ok (), { w with log := w.log ++ [line] })

def setHeader (name value : String) : Handling Line Unit := Prog.perform (WriterOp.setHeader name value)

def addHeader (name value : String) : Handling Line Unit := Prog.perform (WriterOp.addHeader name value)

def writeHeader (code : ℕ) : Handling Line Unit := Prog.perform (WriterOp.writeHeader code)

def write (p : List UInt8) : Handling Line Bool := Prog.perform (WriterOp.write p)

def log (line : Line) : Handling Line Unit := Prog.perform (WriterOp.log line)

/-- What the other end sees of a handler. Where a panic gets through to the server, it closes the connection. -/
def seen (p : Handling Line Unit) (w : Writing Line) : Seen :=
  match p.eval respond w with
  | (.ok _, v) => v.response.finish
  | (.error _, _) => .aborted

/-- The handler gives one status at most, before its first byte, and not an informational one. -/
def Orderly {α : Type} (p : Handling Line α) (w : Writing Line) : Prop :=
  Prog.Safe (Prog.Responder.graph respond)
    (fun v c _ _ ↦ ∀ code, c = .writeHeader code → v.response.sent = none ∧ 200 ≤ code ∧ code ≤ 999)
    p (fun _ _ ↦ True) w

theorem Orderly.bind {α β : Type} {p : Handling Line α} {f : α → Handling Line β} {w : Writing Line} (hp : Orderly p w)
    (hf : ∀ a v, p.eval respond w = (.ok a, v) → Orderly (f a) v) : Orderly (p >>= f) w := by
  change Orderly (p.bind f) w
  induction p generalizing w with
  | ret a => exact hf a w rfl
  | fail e => trivial
  | call c k ih =>
    intro x v hv
    obtain ⟨hc, hk⟩ := hp x v hv
    refine ⟨hc, ih x hk fun a u hu ↦ hf a u ?_⟩
    obtain ⟨rfl, rfl⟩ := Prod.mk.inj hv
    exact hu

theorem orderly_perform {c : WriterOp Line} {w : Writing Line} (h : ∀ code, c ≠ .writeHeader code) :
    Orderly (Prog.perform c) w :=
  Prog.safe_perform.mpr fun _ _ _ ↦ ⟨fun code hc ↦ absurd hc (h code), trivial⟩

theorem orderly_writeHeader {w : Writing Line} {code : ℕ} (h : w.response.sent = none) (hlow : 200 ≤ code)
    (hhigh : code ≤ 999) : Orderly (writeHeader code) w := by
  refine Prog.safe_perform.mpr fun _ _ _ ↦ ⟨fun code' hc ↦ ?_, trivial⟩
  cases hc
  exact ⟨h, hlow, hhigh⟩

theorem declared_set {h : Header} {name value : String} (hname : canonicalMIMEHeaderKey name ≠ "Content-Length") :
    declared (h.set name value) = declared h := by
  have hget : (h.set name value).get "Content-Length" = h.get "Content-Length" := by
    have hkey : canonicalMIMEHeaderKey "Content-Length" = "Content-Length" := by decide
    rw [Header.get, Header.get, Header.values, Header.values, hkey, Header.getElem?_set, if_neg hname]
  rw [declared, declared, hget]

theorem Response.writeHeader_of_sent {w : Response} {code : ℕ} {x : ℕ × Header} (h : w.sent = some x) :
    w.writeHeader code = (.ok (), w) := by
  simp [writeHeader, h]

theorem Response.writeHeader_of_fresh {w : Response} {code : ℕ} (h : w.sent = none) (hlow : 200 ≤ code)
    (hhigh : code ≤ 999) : w.writeHeader code = (.ok (), { w with sent := some (code, w.header) }) := by
  rw [writeHeader, if_neg (by simp [h]), if_neg (by omega), if_neg (by omega)]

theorem Response.status_write (w : Response) (p : List UInt8) : (w.write p).2.status = w.status := by
  unfold write
  split_ifs <;> rfl

theorem Writing.status_onHeader (w : Writing Line) (f : Header → Header) :
    (w.onHeader f).response.status = w.response.status := by
  dsimp only [onHeader, Response.status, Response.line]
  cases w.response.sent <;> rfl

theorem status_respond {w : Writing Line} {c : WriterOp Line} (h : ∀ code, c ≠ .writeHeader code) :
    (respond w c).2.response.status = w.response.status := by
  cases c with
  | setHeader name value | addHeader name value | delHeader name => exact w.status_onHeader _
  | writeHeader code => exact absurd rfl (h code)
  | write p => exact w.response.status_write p
  | log line => rfl

def Response.commit (w : Response) (status : ℕ) (h : Header) : Response :=
  { w with header := h, sent := some (status, h) }

/-- The response with some bytes more. -/
def Response.put (w : Response) (p : List UInt8) : Response :=
  { w with written := w.written + p.length, body := if w.head then w.body else w.body ++ p }

theorem Response.put_put (w : Response) (p q : List UInt8) : (w.put p).put q = w.put (p ++ q) := by
  unfold put
  cases w.head <;> simp [Nat.add_assoc]

theorem within_mono {h : Header} {m n : ℕ} (hmn : m ≤ n) (hn : within h n = true) : within h m = true := by
  unfold within at hn ⊢
  split at hn
  · rfl
  · exact decide_eq_true (hmn.trans (of_decide_eq_true hn))

theorem Response.write_of_sent {w : Response} {x : ℕ × Header} (hsent : w.sent = some x)
    (hallowed : bodyAllowed x.1 = true) {p : List UInt8} (hfit : within x.2 (w.written + p.length) = true) :
    w.write p = (true, w.put p) := by
  have hline : w.line = x := by
    rw [line, hsent]
    rfl
  have hout : { w with sent := some w.line } = w := by
    rw [hline, ← hsent]
  by_cases hp : p = []
  · subst hp
    rw [write, if_pos rfl, hout, put, List.append_nil, List.length_nil, Nat.add_zero, ite_self]
  · rw [write, if_neg hp, status, hline, if_pos hallowed, if_pos hfit, ← hsent]
    rfl

theorem Response.write_of_exceeding {w : Response} {x : ℕ × Header} (hsent : w.sent = some x) {p : List UInt8}
    (hp : p ≠ []) (hexceed : within x.2 (w.written + p.length) = false) :
    (w.write p).2.finish = w.finish := by
  have hline : w.line = x := by
    rw [line, hsent]
    rfl
  have hfinish (n : ℕ) : { w with sent := some x, written := n }.finish = w.finish := by
    rw [finish, finish, Response.status, Response.status, hline]
    rfl
  rw [write, if_neg hp, status, hline, hexceed, if_neg Bool.false_ne_true]
  split_ifs
  · exact hfinish _
  · exact hfinish _

theorem Response.finish_put {w : Response} (hhead : w.head = false) (hbody : w.body = []) {status : ℕ}
    (hallowed : bodyAllowed status = true) (h : Header) (p : List UInt8) :
    ((w.commit status h).put p).finish = .response status h p (ends h p.length) := by
  simp [commit, put, finish, Response.status, line, hhead, hbody, hallowed]

theorem eval_write {w : Writing Line} {x : ℕ × Header} (hsent : w.response.sent = some x)
    (hallowed : bodyAllowed x.1 = true) {p : List UInt8}
    (hfit : within x.2 (w.response.written + p.length) = true) :
    (write p).eval respond w = (.ok true, { w with response := w.response.put p }) := by
  rw [write, Prog.eval_perform]
  dsimp only [respond]
  rw [Response.write_of_sent hsent hallowed hfit]

theorem eval_writeHeader {w : Writing Line} (hsent : w.response.sent = none) {status : ℕ}
    (hlow : 200 ≤ status) (hhigh : status ≤ 999)
    (f : Header → Header) : (writeHeader status).eval respond (w.onHeader f) =
      (.ok (), { w with response := w.response.commit status (f w.response.header) }) := by
  have hfresh : (w.onHeader f).response.sent = none := hsent
  rw [writeHeader, Prog.eval_perform]
  dsimp only [respond]
  rw [Response.writeHeader_of_fresh hfresh hlow hhigh]
  rfl

/-- As long as no header is sent, no byte is. -/
def Response.Tidy (w : Response) : Prop := w.sent = none → w.written = 0 ∧ w.body = []

theorem Response.tidy_of_sent {w : Response} (h : w.sent ≠ none) : w.Tidy := fun hsent ↦ absurd hsent h

theorem Response.Tidy.writeHeader {w : Response} (h : w.Tidy) (code : ℕ) : (w.writeHeader code).2.Tidy := by
  unfold Response.writeHeader
  split_ifs
  · exact h
  · exact h
  · exact h
  · exact tidy_of_sent (by simp)

theorem Response.tidy_write (w : Response) (p : List UInt8) : (w.write p).2.Tidy := by
  apply tidy_of_sent
  unfold write
  split_ifs <;> simp

theorem tidy_respond {w : Writing Line} (h : w.response.Tidy) (c : WriterOp Line) : (respond w c).2.response.Tidy := by
  cases c with
  | setHeader name value | addHeader name value | delHeader name | log line => exact h
  | writeHeader code => exact h.writeHeader code
  | write p => exact w.response.tidy_write p

theorem tidy_eval {α : Type} {w : Writing Line} (p : Handling Line α) (h : w.response.Tidy) :
    (p.eval respond w).2.response.Tidy := by
  induction p generalizing w with
  | ret a => exact h
  | fail e => exact h
  | call c k ih => exact ih _ (tidy_respond h c)

end Handling

end EventPlatform.Http
