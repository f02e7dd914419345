import EventPlatform.Gateway.Identity
import EventPlatform.Http.Escape

namespace EventPlatform.Gateway

open Auth Http Httpx

/-- Words that commute with one that is no proper rotation of itself are its powers. -/
theorem eq_flatten_of_append_comm {α : Type} {w b : List α} (hw : 0 < w.length)
    (hprim : ∀ n, 0 < n → n < w.length → w.take n ++ w ≠ w ++ w.take n) (h : b ++ w = w ++ b) :
    ∃ k, b = (List.replicate k w).flatten := by
  induction hn : b.length using Nat.strong_induction_on generalizing b with
  | _ n ih =>
    obtain hlen | hlen := le_or_gt w.length b.length
    · have hpre : w <+: b ++ w := by
        rw [h]
        exact List.prefix_append w b
      obtain ⟨b', rfl⟩ := List.prefix_of_prefix_length_le hpre (List.prefix_append b w) hlen
      have hshort : b'.length < n := by
        rw [← hn, List.length_append]
        omega
      rw [List.append_assoc] at h
      obtain ⟨k, hk⟩ := ih b'.length hshort (List.append_cancel_left h) rfl
      exact ⟨k + 1, by rw [List.replicate_succ, List.flatten_cons, ← hk]⟩
    · have hpre : b <+: w ++ b := by
        rw [← h]
        exact List.prefix_append b w
      have hb : b = w.take b.length :=
        List.prefix_iff_eq_take.mp (List.prefix_of_prefix_length_le hpre (List.prefix_append w b) hlen.le)
      obtain rfl | hne := b.eq_nil_or_concat
      · exact ⟨0, rfl⟩
      · refine absurd ?_ (hprim b.length ?_ hlen)
        · rwa [← hb]
        · obtain ⟨_, _, rfl⟩ := hne
          simp

section Route

variable {a : Arrival} {up : Upstream} {r : Request} {rest : List UInt8}

theorem firstSegment_api (rest : List UInt8) :
    firstSegment (ascii "/api/v1" ++ rest) = (ascii "api", ascii "/v1" ++ rest) := rfl

theorem firstSegment_v1 (rest : List UInt8) : firstSegment (ascii "/v1" ++ rest) =
    ((unescape (ascii "v1" ++ rest.takeWhile (· ≠ slash))).getD (ascii "v1" ++ rest.takeWhile (· ≠ slash)),
      rest.dropWhile (· ≠ slash)) := by
  have hv1 : ascii "/v1" = [slash, 0x76, 0x31] := by decide
  have hne : ascii "/v1" ++ rest ≠ [slash] := by
    rw [hv1]
    simp
  rw [firstSegment, if_neg hne, List.span_eq_takeWhile_dropWhile]
  rfl

theorem decodes_v1 : Decodes (ascii "v1") (ascii "v1") := unescape_eq_some_iff.mp (by decide)

theorem rooted_of_matchPath {segment : Segment} {segments : List Segment} {ws : List (List UInt8)}
    (h : matchPath (.lit (ascii "api") :: .lit (ascii "v1") :: segment :: segments) (ascii "/api/v1" ++ rest) =
      some ws) : rest.head? = some slash := by
  have hne (s : String) (hs : ascii s ≠ []) : ascii s ++ rest ≠ [] := List.append_ne_nil_of_left_ne_nil hs rest
  rw [matchPath_lit (hne _ (by decide)), firstSegment_api, if_pos rfl,
    matchPath_lit (hne _ (by decide)), firstSegment_v1] at h
  dsimp only at h
  split at h
  · rename_i hseg
    have hnil : rest.takeWhile (· ≠ slash) = [] := by
      cases hun : unescape (ascii "v1" ++ rest.takeWhile (· ≠ slash)) with
      | none =>
        rw [hun] at hseg
        exact List.append_right_eq_self.mp hseg
      | some x =>
        rw [hun] at hseg
        obtain ⟨y, hy, rfl⟩ := decodes_v1.append_iff.mp (unescape_eq_some_iff.mp hun)
        rw [List.append_right_eq_self.mp hseg] at hy
        generalize rest.takeWhile (· ≠ slash) = t at hy
        cases hy
        rfl
    cases rest with
    | nil => cases h
    | cons c rest =>
      simpa using hnil
  · cases h

theorem segments_of_authed {p : Pattern} (h : (p, Route.authed up) ∈ mux) :
    ∃ segment segments, p.segments = .lit (ascii "api") :: .lit (ascii "v1") :: segment :: segments := by
  simp only [mux, subtree, lits, List.map_cons, List.map_nil, List.cons_append, List.nil_append, List.mem_cons,
    Prod.mk.injEq, List.not_mem_nil, reduceCtorEq, and_false, false_or, or_false] at h
  rcases h with ⟨rfl, -⟩ | ⟨rfl, -⟩ | ⟨rfl, -⟩ | ⟨rfl, -⟩ | ⟨rfl, -⟩ <;> exact ⟨_, _, rfl⟩

theorem rooted_of_asks (h : Asks a up r) (hpath : r.url.escapedPath = ascii "/api/v1" ++ rest) :
    rest.head? = some slash := by
  obtain ⟨-, ws, hroute⟩ := h
  obtain ⟨p, hp, hmatch⟩ := ServeMux.mem_of_route hroute
  obtain ⟨segment, segments, hsegments⟩ := segments_of_authed hp
  rw [hsegments, hpath] at hmatch
  exact rooted_of_matchPath hmatch

end Route

section Director

variable {target : Target} {r : Request} {rest x y : List UInt8}

theorem escape_apiV1 : escape (ascii "/api/v1") = ascii "/api/v1" := by decide

theorem decodes_apiV1 : Decodes (ascii "/api/v1") (ascii "/api/v1") := by
  have h := decodes_escape (ascii "/api/v1")
  rwa [escape_apiV1] at h

theorem escape_flatten_replicate (k : ℕ) : escape (List.replicate k (ascii "/api/v1")).flatten =
    (List.replicate k (ascii "/api/v1")).flatten := by
  induction k with
  | zero => rfl
  | succ k ih => rw [List.replicate_succ, List.flatten_cons, escape_append, ih, escape_apiV1]

theorem flatten_replicate_append_comm {α : Type} (k : ℕ) (w : List α) :
    (List.replicate k w).flatten ++ w = w ++ (List.replicate k w).flatten := by
  rw [← List.flatten_cons, ← List.replicate_succ, List.replicate_succ', List.flatten_append, List.flatten_singleton]

theorem trimPrefix_append (p s : List UInt8) : trimPrefix (p ++ s) p = s := by
  rw [trimPrefix, if_pos (List.prefix_append p s), List.drop_left]

variable (target) in
/-- The director cuts the decoded path, while the encoding that it keeps is still that of the whole. -/
theorem director_url (hpath : r.url.escapedPath = ascii "/api/v1" ++ rest) :
    ∃ x y, Decodes (trimSlash target.url.escapedPath) x ∧ Decodes rest y ∧
      (director target r).url.path = trimPrefix (x ++ (ascii "/api/v1" ++ y)) (ascii "/api/v1") ∧
      ((director target r).url.rawPath = [] ∨
        Decodes (director target r).url.rawPath (x ++ (ascii "/api/v1" ++ y))) := by
  have hrooted : r.url.escapedPath.head? = some slash := by
    rw [hpath]
    rfl
  have hwhole := r.url.decodes_escapedPath
  rw [hpath, decodes_apiV1.append_iff] at hwhole
  obtain ⟨y, hy, hry⟩ := hwhole
  obtain ⟨x, hx, hjoin, hraw⟩ := exists_joinURLPath target.url r.url hrooted
  rw [← hry] at hjoin
  refine ⟨x, y, hx, hy, congrArg (trimPrefix · (ascii "/api/v1")) hjoin, hraw.imp_right fun hraw ↦ ?_⟩
  have hdecodes := hx.append (decodes_apiV1.append hy)
  rwa [← hpath, ← hraw] at hdecodes

/-- Where something was cut off, the kept encoding is not one of the path any more, and the default one is sent. -/
theorem escapedPath_of_cut {u : Url} {w z : List UInt8} (hraw : u.rawPath = [] ∨ Decodes u.rawPath z)
    (hcut : z = w ++ u.path) (hw : w ≠ []) (hslash : slash ∈ u.path) : u.escapedPath = escape u.path := by
  have hkept : ¬ (u.rawPath ≠ [] ∧ validEncoded u.rawPath ∧ unescape u.rawPath = some u.path) := by
    intro ⟨hne, _, hun⟩
    have hz := (hraw.resolve_left hne).unique (unescape_eq_some_iff.mp hun)
    rw [hcut] at hz
    exact hw (List.append_left_eq_self.mp hz)
  have hstar : u.path ≠ ascii "*" := by
    intro h
    rw [h] at hslash
    revert hslash
    decide
  rw [Url.escapedPath, if_neg hkept, if_neg hstar]

theorem prim_apiV1 : ∀ n, 0 < n → n < (ascii "/api/v1").length →
    (ascii "/api/v1").take n ++ ascii "/api/v1" ≠ ascii "/api/v1" ++ (ascii "/api/v1").take n := by
  have h : ∀ n < (ascii "/api/v1").length, 0 < n →
    (ascii "/api/v1").take n ++ ascii "/api/v1" ≠ ascii "/api/v1" ++ (ascii "/api/v1").take n := by decide
  exact fun n hpos hlt ↦ h n hlt hpos

/-- A path with the public part at its front is sent in the default encoding of what is left. -/
theorem escapedPath_of_front {u : Url} (hcut : u.path = trimPrefix (x ++ (ascii "/api/v1" ++ y)) (ascii "/api/v1"))
    (hraw : u.rawPath = [] ∨ Decodes u.rawPath (x ++ (ascii "/api/v1" ++ y))) (hy : y.head? = some slash)
    (hfront : x ++ (ascii "/api/v1" ++ y) = ascii "/api/v1" ++ (x ++ y)) : u.escapedPath = escape x ++ escape y := by
  rw [hfront, trimPrefix_append] at hcut
  have hslash : slash ∈ u.path := by
    rw [hcut]
    exact List.mem_append_right x (List.mem_of_mem_head? hy)
  rw [← hcut] at hfront
  rw [escapedPath_of_cut hraw hfront (by decide) hslash, hcut, escape_append]

variable (target) in
theorem escapedPath_director_iff (hpath : r.url.escapedPath = ascii "/api/v1" ++ rest)
    (hrest : rest.head? = some slash) :
    (director target r).url.escapedPath = trimSlash target.url.escapedPath ++ rest ↔
      (∃ k, trimSlash target.url.escapedPath = (List.replicate k (ascii "/api/v1")).flatten) ∧
        (unescape rest).map escape = some rest := by
  obtain ⟨x, y, hx, hy, hcut, hraw⟩ := director_url target hpath
  have hyslash := hy.rooted hrest
  have hsent := (director target r).url.decodes_escapedPath
  generalize (director target r).url = u at hcut hraw hsent ⊢
  generalize trimSlash target.url.escapedPath = base at hx ⊢
  rw [unescape_eq_some_iff.mpr hy, Option.map_some, Option.some_inj]
  constructor
  · intro h
    rw [h] at hsent
    have hboth : u.path = x ++ y := hsent.unique (hx.append hy)
    by_cases hpre : ascii "/api/v1" <+: x ++ (ascii "/api/v1" ++ y)
    · -- what was cut off at the front is what stands in the middle, so the path of the target commutes with it
      obtain ⟨z, hz⟩ := hpre
      have hleft := hcut
      rw [← hz, trimPrefix_append] at hleft
      rw [← hleft, hboth] at hz
      have hcomm : x ++ ascii "/api/v1" = ascii "/api/v1" ++ x := by
        rw [← List.append_assoc, ← List.append_assoc] at hz
        exact (List.append_cancel_right hz).symm
      obtain ⟨k, rfl⟩ := eq_flatten_of_append_comm (by decide) prim_apiV1 hcomm
      rw [escapedPath_of_front hcut hraw hyslash hz.symm] at h
      obtain ⟨hbase, hrest⟩ := hx.eq_escape h.symm
      exact ⟨⟨k, by rw [hbase, escape_flatten_replicate]⟩, hrest.symm⟩
    · -- nothing was cut off, and the path sent is too long
      rw [trimPrefix, if_neg hpre, hboth] at hcut
      have hnil : ascii "/api/v1" = [] := List.append_left_eq_self.mp (List.append_cancel_left hcut).symm
      exact absurd hnil (by decide)
  · rintro ⟨⟨k, rfl⟩, hyrest⟩
    have hxk := hx.unique (escape_flatten_replicate k ▸ decodes_escape _)
    subst hxk
    have hfront : (List.replicate k (ascii "/api/v1")).flatten ++ (ascii "/api/v1" ++ y) =
        ascii "/api/v1" ++ ((List.replicate k (ascii "/api/v1")).flatten ++ y) := by
      rw [← List.append_assoc, flatten_replicate_append_comm, List.append_assoc]
    rw [escapedPath_of_front hcut hraw hyslash hfront, escape_flatten_replicate, hyrest]

variable (target) in
theorem escapedPath_director_ne_nil (hpath : r.url.escapedPath = ascii "/api/v1" ++ rest)
    (hrest : rest.head? = some slash) : (director target r).url.escapedPath ≠ [] := by
  intro hnil
  obtain ⟨x, y, -, hy, hcut, -⟩ := director_url target hpath
  have hsent := (director target r).url.decodes_escapedPath
  rw [hnil, hcut] at hsent
  obtain ⟨z, rfl⟩ := List.head?_eq_some_iff.mp (hy.rooted hrest)
  have hlong := congrArg List.length (hsent.unique .nil)
  unfold trimPrefix at hlong
  split at hlong
  · simp only [List.length_drop, List.length_append, List.length_cons, List.length_nil] at hlong
    omega
  · simp at hlong

end Director

section Sent

variable [GoJwt] {L : Type} (g : Config L)

/-- The path that is sent to an upstream is what follows the public part, behind the path of the target, exactly where
the latter is empty or itself made of public parts and the former is in the default encoding. -/
theorem sent_path_iff {a : Arrival} {up : Upstream} {r out : Request} {s : L} {rest : List UInt8} (hask : Asks a up r)
    (hpath : r.url.escapedPath = ascii "/api/v1" ++ rest) (hrun : (serve g a s).1 = .run (up, out)) :
    out.url.requestPath = singleJoiningSlash (g.target up).url.escapedPath rest ↔
      (∃ k, trimSlash (g.target up).url.escapedPath = (List.replicate k (ascii "/api/v1")).flatten) ∧
        (unescape rest).map escape = some rest := by
  have hrest := rooted_of_asks hask hpath
  rw [serve_of_asks hask] at hrun
  dsimp only at hrun
  split at hrun
  · obtain ⟨_, c, -, -, hout⟩ := authed_eq_run hrun
    have hurl : out.url = (director (g.target up) r).url := congrArg (·.2.url) hout
    rw [singleJoiningSlash_of_rooted _ hrest, ← escapedPath_director_iff (g.target up) hpath hrest, hurl]
    rw [Url.requestPath, if_neg (escapedPath_director_ne_nil (g.target up) hpath hrest)]
  · cases hrun

end Sent

section VisitTo

variable [GoJwt]

/-- `visit` on another path. -/
def visitTo (path : List UInt8) : Arrival := { visit [] with path := path }

theorem now_visitTo (path : List UInt8) : (visitTo path).now = (visit []).now := rfl

variable {g : Config RateLimiter} {path : List UInt8} {up : Upstream} {u : Url}

/-- A gateway that differs from the deployed one in its targets passes such a request on. -/
theorem serve_visitTo (hauth : g.auth = deployed.auth) (hlimit : g.rateLimit = deployed.rateLimit)
    (hpath : wellFormed path = true) (hu : Url.setPath path "" = some u)
    (hroute : mux.route "GET" u = .handler (.authed up) []) :
    ∃ out, (serve g (visitTo path) (.newRateLimiter 20 40)).1 = .run (up, out) ∧
      out.url = (director (g.target up) { visitRequest [] with url := u }).url := by
  have hask : Asks (visitTo path) up { visitRequest [] with url := u } := by
    refine ⟨?_, [], hroute⟩
    unfold Arrival.request
    rw [visitTo, if_pos hpath]
    dsimp only [visit]
    rw [hu]
    rfl
  have hallowed : (allowed g (visitTo path) (.newRateLimiter 20 40)).1 = true := by
    rw [allowed, hlimit]
    have hfirst : (allowed deployed (visit []) (.newRateLimiter 20 40)).1 = true := allowed_visit
    exact hfirst
  have hverify : g.auth.verify (visit []).now (deployed.auth.issue 0 "user-client" "user").accessToken =
      some (deployed.auth.claims 0 "user-client" "user") := by
    rw [hauth]
    exact verify_visit
  have hbearer : bearer (visitRequest []).header =
      some (deployed.auth.issue 0 "user-client" "user").accessToken := bearer_visit (by simp)
  have hrun : authed g up (visit []).now { visitRequest [] with url := u } = .run (up, forwarded
      (director (g.target up)) (identify (deployed.auth.claims 0 "user-client" "user")
        { visitRequest [] with url := u })) := authed_of_verify hbearer hverify
  have hserve : (serve g (visitTo path) (.newRateLimiter 20 40)).1 =
      authed g up (visit []).now { visitRequest [] with url := u } := by
    rw [serve_of_asks hask, if_pos hallowed, now_visitTo]
  exact ⟨_, hserve.trans hrun, rfl⟩

end VisitTo

theorem sent_path_deployed : ∃ _ : GoJwt, ∃ out,
    (serve deployed (visit []) (.newRateLimiter 20 40)).1 = .run (.user, out) ∧
      out.url.requestPath = ascii "/users/7" := by
  let := GoJwt.coded
  have hserve : (serve deployed (visit []) (.newRateLimiter 20 40)).1 = .run (.user, forwarded
      (director deployed.userURL) (identify (deployed.auth.claims 0 "user-client" "user") (visitRequest []))) :=
    serve_visit (by simp)
  have hpath : (visitRequest []).url.escapedPath = ascii "/api/v1" ++ ascii "/users/7" := by decide
  have hbase : ∃ k, trimSlash (deployed.target .user).url.escapedPath =
      (List.replicate k (ascii "/api/v1")).flatten := ⟨0, by decide⟩
  have hjoin : singleJoiningSlash (deployed.target .user).url.escapedPath (ascii "/users/7") = ascii "/users/7" := by
    decide
  have hsent := sent_path_iff deployed asks_visit hpath hserve
  refine ⟨this, _, hserve, ?_⟩
  rw [← hjoin]
  exact hsent.mpr ⟨hbase, by decide +kernel⟩

/-- The encoded slash of `a%2Fb` arrives as a plain one, and behind a target with a path nothing is cut off. -/
theorem sent_path_changed : ∃ _ : GoJwt,
    (∃ out, (serve deployed (visitTo (ascii "/api/v1/users/a%2Fb")) (.newRateLimiter 20 40)).1 = .run (.user, out) ∧
      out.url.requestPath = ascii "/users/a/b") ∧
    ∃ out, (serve { deployed with userURL := ⟨"localhost:8081", ⟨ascii "/base", [], ""⟩⟩ }
      (visitTo (ascii "/api/v1/users/7")) (.newRateLimiter 20 40)).1 = .run (.user, out) ∧
      out.url.requestPath = ascii "/base/api/v1/users/7" := by
  let := GoJwt.coded
  refine ⟨this, ?_, ?_⟩
  · have hu : Url.setPath (ascii "/api/v1/users/a%2Fb") "" =
        some ⟨ascii "/api/v1/users/a/b", ascii "/api/v1/users/a%2Fb", ""⟩ := by decide +kernel
    have hroute : mux.route "GET" ⟨ascii "/api/v1/users/a/b", ascii "/api/v1/users/a%2Fb", ""⟩ =
        .handler (.authed .user) [] := by decide +kernel
    obtain ⟨out, hrun, hurl⟩ := serve_visitTo (g := deployed) rfl rfl (by decide) hu hroute
    refine ⟨out, hrun, ?_⟩
    rw [hurl]
    decide +kernel
  · obtain ⟨out, hrun, hurl⟩ := serve_visitTo
      (g := { deployed with userURL := ⟨"localhost:8081", ⟨ascii "/base", [], ""⟩⟩ }) rfl rfl (by decide)
      setPath_visit route_visit
    refine ⟨out, hrun, ?_⟩
    rw [hurl]
    decide +kernel

end EventPlatform.Gateway
