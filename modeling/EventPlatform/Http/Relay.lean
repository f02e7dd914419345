import EventPlatform.Http.Proxy
import EventPlatform.Http.Response

namespace EventPlatform.Http

open Interaction

/-- What the transport of a proxy gets from the other side: nothing, or a response with the pieces of its body as they
are read, which may be cut off. -/
inductive Reply
  | failed
  | response (status : ℕ) (lines : List (String × String)) (chunks : List (List UInt8)) (cut : Bool)

section Relay

variable {Line : Type}

def copyHeader : List (String × String) → Handling Line Unit
  | [] => pure ()
  | l :: lines => do
    addHeader l.1 l.2
    copyHeader lines

-- A body that cannot be read or passed on to its end aborts the handler.
def copyResponse : List (List UInt8) → Bool → Handling Line Unit
  | [], true => .fail .abortHandler
  | [], false => pure ()
  | p :: chunks, cut => do
    if ← write p then copyResponse chunks cut else .fail .abortHandler

/-- The part of `httputil.ReverseProxy` that answers. -/
def relay : Reply → Handling Line Unit
  | .failed => writeHeader 502
  | .response status lines chunks cut => do
    copyHeader (removeHopByHopHeaders (.ofLines lines)).lines
    writeHeader status
    copyResponse chunks cut

variable {w : Writing Line}

theorem eval_copyHeader (lines : List (String × String)) :
    (copyHeader lines).eval respond w = (.ok (), w.onHeader (·.addAll lines)) := by
  induction lines generalizing w with
  | nil => rfl
  | cons l lines ih =>
    have hadd : (addHeader l.1 l.2).eval respond w = (.ok (), w.onHeader (·.add l.1 l.2)) := rfl
    rw [copyHeader, Prog.eval_bind_of_ok hadd, ih]
    rfl

theorem orderly_copyHeader (lines : List (String × String)) : Orderly (copyHeader lines) w := by
  induction lines generalizing w with
  | nil => trivial
  | cons l lines ih => exact (orderly_perform (by simp)).bind fun _ _ _ ↦ ih

theorem orderly_copyResponse (chunks : List (List UInt8)) (cut : Bool) : Orderly (copyResponse chunks cut) w := by
  induction chunks generalizing w with
  | nil => cases cut <;> trivial
  | cons p chunks ih =>
    refine (orderly_perform (by simp)).bind fun ok _ _ ↦ ?_
    cases ok with
    | true => exact ih
    | false => trivial

theorem eval_copyResponse {x : ℕ × Header} {chunks : List (List UInt8)} (hsent : w.response.sent = some x)
    (hallowed : bodyAllowed x.1 = true) (hfit : within x.2 (w.response.written + chunks.flatten.length) = true)
    (cut : Bool) :
    (copyResponse chunks cut).eval respond w =
      (if cut then .error .abortHandler else .ok (), { w with response := w.response.put chunks.flatten }) := by
  induction chunks generalizing w with
  | nil =>
    have hput : w.response.put [] = w.response := by simp [Response.put]
    rw [List.flatten_nil, hput]
    cases cut <;> rfl
  | cons p chunks ih =>
    rw [List.flatten_cons, List.length_append, ← Nat.add_assoc] at hfit
    have hwrite := eval_write hsent hallowed (within_mono (Nat.le_add_right _ _) hfit)
    have hrest := @ih { w with response := w.response.put p } hsent hfit
    rw [copyResponse, Prog.eval_bind_of_ok hwrite, if_pos rfl, hrest, Response.put_put, List.flatten_cons]

/-- The header of a response that is relayed on top of one that is already there. -/
def relayed (h : Header) (lines : List (String × String)) : Header :=
  h.addAll (removeHopByHopHeaders (.ofLines lines)).lines

theorem canonical_removeHopByHopHeaders {h : Header} (hh : h.Canonical) : (removeHopByHopHeaders h).Canonical := by
  intro k hk
  rw [Std.ExtTreeMap.mem_iff_isSome_getElem?, getElem?_removeHopByHopHeaders] at hk
  split_ifs at hk
  · cases hk
  · exact hh k (Std.ExtTreeMap.mem_iff_isSome_getElem?.mpr hk)

theorem values_relayed (h : Header) (lines : List (String × String)) (k : String) : (relayed h lines).values k =
    h.values k ++ if Named (.ofLines lines) k ∨ k ∈ hopHeaders then [] else (Header.ofLines lines).values k := by
  have hcanonical := canonical_removeHopByHopHeaders (Header.canonical_ofLines lines)
  rw [relayed, Header.values_addAll, Header.values_lines hcanonical, Header.values, Header.values,
    getElem?_removeHopByHopHeaders]
  split_ifs <;> rfl

theorem orderly_relay (hsent : w.response.sent = none) {reply : Reply}
    (hstatus : ∀ status lines chunks cut, reply = .response status lines chunks cut → 200 ≤ status ∧ status ≤ 999) :
    Orderly (relay reply) w := by
  cases reply with
  | failed => exact orderly_writeHeader hsent (by decide) (by decide)
  | response status lines chunks cut =>
    obtain ⟨hlow, hhigh⟩ := hstatus _ _ _ _ rfl
    refine (orderly_copyHeader _).bind fun _ v hv ↦ ?_
    rw [eval_copyHeader] at hv
    cases hv
    have hcode : Orderly (writeHeader status) (w.onHeader (·.addAll (removeHopByHopHeaders (.ofLines lines)).lines)) :=
      orderly_writeHeader hsent hlow hhigh
    exact hcode.bind fun _ _ _ ↦ orderly_copyResponse chunks cut

theorem eval_relay (hsent : w.response.sent = none) {status : ℕ} {lines : List (String × String)}
    {chunks : List (List UInt8)} (hlow : 200 ≤ status) (hhigh : status ≤ 999) (hallowed : bodyAllowed status = true)
    (hfit : within (relayed w.response.header lines) (w.response.written + chunks.flatten.length) = true) (cut : Bool) :
    (relay (.response status lines chunks cut)).eval respond w = (if cut then .error .abortHandler else .ok (),
      { w with response := (w.response.commit status (relayed w.response.header lines)).put chunks.flatten }) := by
  have hcode := eval_writeHeader hsent hlow hhigh (·.addAll (removeHopByHopHeaders (.ofLines lines)).lines)
  rw [relay, Prog.eval_bind_of_ok (eval_copyHeader _), Prog.eval_bind_of_ok hcode]
  exact @eval_copyResponse Line { w with response := w.response.commit status _ }
    (status, _) chunks rfl hallowed hfit cut

end Relay

end EventPlatform.Http
