import EventPlatform.Net
import EventPlatform.Gateway.Handler

namespace EventPlatform.Gateway

open Auth Http Httpx Net

theorem takeWhile_append_of_mem {α : Type} {p : α → Bool} {x : α} {l : List α} (hx : x ∈ l) (hp : p x = false)
    (r : List α) : (l ++ r).takeWhile p = l.takeWhile p := by
  induction l with
  | nil => cases hx
  | cons y l ih =>
    rw [List.cons_append, List.takeWhile_cons, List.takeWhile_cons]
    split
    · obtain rfl | hx := List.mem_cons.mp hx
      · simp_all
      · rw [ih hx]
    · rfl

/-- The key under which the requests of a host are counted: an IPv6 address is cut at its first colon, together with
the bracket before it. -/
theorem clientIP_remoteAddr (ip : IP) (port : UInt16) : (clientIP (remoteAddr ip port)).toList = match ip with
    | .v4 .. => ip.text
    | .v6 x => '[' :: (IPv6.text x.groups).takeWhile (· ≠ ':') := by
  unfold clientIP remoteAddr joinHostPort
  cases ip with
  | v4 a b c d =>
    have hcolon : ':' ∉ (IP.v4 a b c d).text := not_mem_v4 (by decide) (by decide) a b c d
    simp only [String.toList_ofList, if_neg hcolon]
    rw [List.takeWhile_append_of_pos]
    · simp
    · intro x hx
      simpa using ne_of_mem_of_not_mem hx hcolon
  | v6 ip =>
    have hcolon := colon_mem_v6 ip
    have hmem : ':' ∈ (IP.v6 ip).text := List.mem_append_left _ hcolon
    simp only [String.toList_ofList, if_pos hmem]
    rw [List.cons_append, List.takeWhile_cons_of_pos (by decide), takeWhile_append_of_mem hmem (by decide)]
    exact congrArg (List.cons '[') (takeWhile_append_of_mem hcolon (by decide) _)

/-- Two hosts share a key exactly when they are the same or agree up to the first colon. -/
theorem clientIP_eq_iff (h h' : IP) (p p' : UInt16) :
    clientIP (remoteAddr h p) = clientIP (remoteAddr h' p') ↔ h = h' ∨ SameHead h h' := by
  have hbracket : ∀ (x y z w : UInt8) (l : List Char), (IP.v4 x y z w).text ≠ '[' :: l := by
    intro x y z w l heq
    have hmem : '[' ∈ (IP.v4 x y z w).text := heq ▸ List.mem_cons_self
    exact not_mem_v4 (by decide) (by decide) x y z w hmem
  rw [← String.toList_inj, clientIP_remoteAddr, clientIP_remoteAddr]
  cases h with
  | v4 a b c d =>
    cases h' with
    | v4 a' b' c' d' =>
      constructor
      · exact fun h ↦ .inl (v4_text_injective h)
      · exact fun h ↦ h.elim (congrArg IP.text) False.elim
    | v6 y => simp [SameHead, hbracket]
  | v6 x =>
    cases h' with
    | v4 a' b' c' d' => simp [SameHead, (hbracket _ _ _ _ _).symm]
    | v6 y =>
      have hself : IP.v6 x = IP.v6 y → SameHead (.v6 x) (.v6 y) := by
        rintro ⟨⟩
        rfl
      rw [or_iff_right_of_imp hself, List.cons.injEq]
      exact and_iff_right rfl

structure Visit where
  ip : IP
  port : UInt16
  request : Arrival

def Visit.arrival (v : Visit) : Arrival := { v.request with remoteAddr := remoteAddr v.ip v.port }

def Visit.key (v : Visit) : String := clientIP v.arrival.remoteAddr

theorem allowed_eq {g : Config RateLimiter} (hg : g.rateLimit = some RateLimiter.limiter) (v : Visit)
    (rl : RateLimiter) : allowed g v.arrival rl = rl.allow ⟨v.key, v.request.allowAt⟩ := by
  unfold allowed
  rw [hg]
  rfl

section Isolation

variable [GoJwt] (g : Config RateLimiter)

def visits : RateLimiter → List Visit → List (Visit × Decision)
  | _, [] => []
  | rl, v :: vs => (v, (serve g v.arrival rl).1) :: visits (serve g v.arrival rl).2 vs

/-- What the gateway does with the visits of `h` is the same when the visits of `h'` are left out. -/
def Isolated (rl : RateLimiter) (h h' : IP) : Prop :=
  ∀ vs : List Visit, (visits g rl vs).filter (fun v ↦ v.1.ip = h) =
    (visits g rl (vs.filter fun v ↦ v.ip ≠ h')).filter fun v ↦ v.1.ip = h

variable {g} (hg : g.rateLimit = some RateLimiter.limiter)

/-- The gateway keeps one bucket for each key, as its limiter does. -/
def bank : Bank Visit.key RateLimiter (ℚ × ℚ × Option Bucket) Decision where
  step rl v := serve g v.arrival rl
  cell := RateLimiter.bank.cell
  answer x v :=
    if v.arrival.limited then
      let ans := RateLimiter.bank.answer x ⟨v.key, v.request.allowAt⟩
      (decision g v.arrival ans.1, ans.2)
    else (decision g v.arrival true, x)
  step_eq rl v := by
    unfold serve
    split
    · rw [allowed_eq hg]
      exact congrArg (decision g v.arrival) (RateLimiter.bank.step_eq rl ⟨v.key, v.request.allowAt⟩)
    · rfl
  cell_step rl v := by
    unfold serve
    split
    · rw [allowed_eq hg]
      exact RateLimiter.bank.cell_step rl ⟨v.key, v.request.allowAt⟩
    · rfl
  cell_step_of_ne rl v k hk := by
    unfold serve
    split
    · rw [allowed_eq hg]
      exact RateLimiter.bank.cell_step_of_ne rl ⟨v.key, v.request.allowAt⟩ k hk
    · rfl

include hg in
/-- The visits under a key are dealt with as if there were no others. -/
theorem visits_filter (rl : RateLimiter) (k : String) (vs : List Visit) :
    (visits g rl vs).filter (fun v ↦ v.1.key = k) = visits g rl (vs.filter fun v ↦ v.key = k) := by
  have hserved : ∀ rl vs, (bank hg).served rl vs = visits g rl vs := by
    intro rl vs
    induction vs generalizing rl with
    | nil => rfl
    | cons v vs ih => exact congrArg (List.cons _) (ih _)
  rw [← hserved, ← hserved]
  exact (bank hg).served_filter (fun key ↦ key = k) vs fun _ _ ↦ rfl

include hg in
theorem isolated_of_not_sameHead {h h' : IP} (hne : h ≠ h') (hhead : ¬ SameHead h h') (rl : RateLimiter) :
    Isolated g rl h h' := by
  intro vs
  -- all visits of `h` have the key `k`, and none of `h'` has it
  obtain ⟨k, hk⟩ : ∃ k, ∀ port, clientIP (remoteAddr h port) = k :=
    ⟨_, fun port ↦ (clientIP_eq_iff h h port 0).mpr (.inl rfl)⟩
  have hkey : ∀ v : Visit, v.ip = h → v.key = k := by
    rintro v rfl
    exact hk v.port
  have hkey' : ∀ v : Visit, v.key = k → v.ip ≠ h' := by
    rintro v hv rfl
    have heq := (clientIP_eq_iff h v.ip v.port v.port).mp ((hk v.port).trans hv.symm)
    exact heq.elim hne hhead
  have hthrough : ∀ vs, (visits g rl vs).filter (fun v ↦ v.1.ip = h) =
      (visits g rl (vs.filter fun v ↦ v.key = k)).filter fun v ↦ v.1.ip = h := by
    intro vs
    rw [← visits_filter hg, List.filter_filter]
    apply List.filter_congr
    intro v _
    simpa using hkey v.1
  have hsame : (vs.filter fun v ↦ v.ip ≠ h').filter (fun v ↦ v.key = k) = vs.filter fun v ↦ v.key = k := by
    rw [List.filter_filter]
    apply List.filter_congr
    intro v _
    simpa using hkey' v
  rw [hthrough, hthrough (vs.filter fun v ↦ v.ip ≠ h'), hsame]

/-- A request without a token, from the first port of the host. -/
def call (h : IP) : Visit := ⟨h, 0, ⟨"GET", ascii "/api/v1/users", "", "localhost:8080", [], "", "", 0, 0⟩⟩

theorem serve_call (h : IP) (rl : RateLimiter) : serve g (call h).arrival rl =
    (if (allowed g (call h).arrival rl).1 then error 401 "missing bearer token" else error 429 "rate limit exceeded",
      (allowed g (call h).arrival rl).2) := by
  have hpath : wellFormed (ascii "/api/v1/users") = true := by decide +kernel
  have hurl : Url.setPath (ascii "/api/v1/users") "" = some ⟨ascii "/api/v1/users", [], ""⟩ := by decide +kernel
  have hroute : mux.route "GET" ⟨ascii "/api/v1/users", [], ""⟩ = .handler (.authed .user) [] := by decide +kernel
  have hbearer : bearer (.ofLines []) = none := by decide +kernel
  have hrequest : (call h).arrival.request = some ⟨"GET", ⟨ascii "/api/v1/users", [], ""⟩, "localhost:8080",
      .ofLines [], "", remoteAddr h 0⟩ := by
    unfold Arrival.request Visit.arrival call
    rw [if_pos hpath, hurl]
    rfl
  rw [serve_of_asks ⟨hrequest, [], hroute⟩]
  dsimp only [authed]
  rw [hbearer]

include hg in
/-- Two hosts with one key share a bucket, so the first can take the token of the second. -/
theorem not_isolated_of_sameHead {h h' : IP} (hne : h ≠ h') (hhead : SameHead h h') :
    ¬ Isolated g (.newRateLimiter 20 1) h h' := by
  have hkey : (call h').key = (call h).key := ((clientIP_eq_iff h h' 0 0).mpr (.inr hhead)).symm
  have hserve : ∀ (h : IP) (rl : RateLimiter), serve g (call h).arrival rl =
      (if (rl.allow ⟨(call h).key, 0⟩).1 then error 401 "missing bearer token" else error 429 "rate limit exceeded",
        (rl.allow ⟨(call h).key, 0⟩).2) := by
    intro h rl
    rw [serve_call, allowed_eq hg]
    rfl
  have hfirst : ∀ k, (RateLimiter.newRateLimiter 20 1).allow ⟨k, 0⟩ = (true, ⟨20, 1, .insert ∅ k ⟨1 - 1, 0⟩⟩) := by
    intro k
    simp [RateLimiter.allow, RateLimiter.newRateLimiter]
  have hsecond : ∀ k, (RateLimiter.allow ⟨20, 1, .insert ∅ k ⟨1 - 1, 0⟩⟩ ⟨k, 0⟩).1 = false := by
    intro k
    simp [RateLimiter.allow]
  have hwith : visits g (.newRateLimiter 20 1) [call h', call h] =
      [(call h', error 401 "missing bearer token"), (call h, error 429 "rate limit exceeded")] := by
    simp only [visits, hserve, hkey, hfirst, hsecond]
    rfl
  have hwithout : visits g (.newRateLimiter 20 1) [call h] = [(call h, error 401 "missing bearer token")] := by
    simp only [visits, hserve, hfirst]
    rfl
  intro hiso
  have hboth := hiso [call h', call h]
  have hleft : [call h', call h].filter (fun v ↦ v.ip ≠ h') = [call h] := by simp [call, hne]
  rw [hwith, hleft, hwithout] at hboth
  simp [call, hne.symm, error] at hboth

/-- The key of a host is the same for all its ports. Two hosts have different keys, and the one has no influence on
what the gateway does with the other, unless both are IPv6 addresses whose texts agree up to the first colon. -/
theorem client_keys :
    (∀ (h : IP) (p p' : UInt16), clientIP (remoteAddr h p) = clientIP (remoteAddr h p')) ∧
    (∀ (h h' : IP) (p p' : UInt16), h ≠ h' →
      (clientIP (remoteAddr h p) ≠ clientIP (remoteAddr h' p') ↔ ¬ SameHead h h')) ∧
    ∀ g : Config RateLimiter, g.rateLimit = some RateLimiter.limiter → ∀ h h' : IP, h ≠ h' →
      ((∀ rl, Isolated g rl h h') ↔ ¬ SameHead h h') := by
  refine ⟨?_, ?_, ?_⟩
  · exact fun h p p' ↦ (clientIP_eq_iff h h p p').mpr (.inl rfl)
  · intro h h' p p' hne
    rw [ne_eq, clientIP_eq_iff, or_iff_right hne]
  · intro g hg h h' hne
    constructor
    · exact fun hiso hhead ↦ not_isolated_of_sameHead hg hne hhead (hiso _)
    · exact isolated_of_not_sameHead hg hne

end Isolation

/-- The addresses `2001:db8::1` and `2001:db8::2` are one client, with the key `[2001`. -/
theorem client_keys_merged : ∃ (_ : GoJwt) (h h' : IP), h.text = "2001:db8::1".toList ∧ h'.text = "2001:db8::2".toList ∧
    clientIP (remoteAddr h 51000) = "[2001" ∧ clientIP (remoteAddr h' 51000) = "[2001" ∧
    ¬ Isolated deployed (.newRateLimiter 20 1) h h' := by
  refine ⟨GoJwt.coded, .v6 ⟨[0x2001, 0xdb8, 0, 0, 0, 0, 0, 1], "", by decide, by decide⟩,
    .v6 ⟨[0x2001, 0xdb8, 0, 0, 0, 0, 0, 2], "", by decide, by decide⟩, by decide +kernel, by decide +kernel,
    by decide +kernel, by decide +kernel, ?_⟩
  let := GoJwt.coded
  refine not_isolated_of_sameHead rfl (by decide) ?_
  have hhead : (IPv6.text [0x2001, 0xdb8, 0, 0, 0, 0, 0, 1]).takeWhile (· ≠ ':') =
      (IPv6.text [0x2001, 0xdb8, 0, 0, 0, 0, 0, 2]).takeWhile (· ≠ ':') := by decide +kernel
  exact hhead

end EventPlatform.Gateway
