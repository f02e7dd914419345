import EventPlatform.Http.Url

namespace EventPlatform.Http

/-- The segments of a rooted path without the empty ones and the dots, where two dots drop the segment before. -/
def cleanSegments (segments : List (List UInt8)) : List (List UInt8) :=
  (segments.foldl (fun out s ↦
    if s = [] ∨ s = ascii "." then out
    else if s = ascii ".." then out.tail
    else s :: out) []).reverse

/-- `cleanPath` of the router: the canonical path, with its trailing slash. -/
def cleanPath (p : List UInt8) : List UInt8 :=
  let p := if p.head? = some slash then p else slash :: p
  let np := (cleanSegments (p.splitOn slash)).flatMap (slash :: ·)
  if np = [] then [slash] else if p.getLast? = some slash then np ++ [slash] else np

/-- A segment of a pattern: a literal, a wildcard, or the wildcard for the rest that a trailing slash stands for. -/
inductive Segment
  | lit (s : List UInt8)
  | wild
  | multi
  deriving DecidableEq

structure Pattern where
  method : Option String
  segments : List Segment

def firstSegment (path : List UInt8) : List UInt8 × List UInt8 :=
  if path = [slash] then ([slash], [])
  else
    let (seg, rest) := path.tail.span (· ≠ slash)
    ((unescape seg).getD seg, rest)

def matchPath : List Segment → List UInt8 → Option (List (List UInt8))
  | [], [] => some []
  | [], _ :: _ => none
  | _ :: _, [] => none
  | .multi :: _, _ :: _ => some []
  | .lit s :: segments, c :: cs =>
    let (seg, rest) := firstSegment (c :: cs)
    if seg = s then matchPath segments rest else none
  | .wild :: segments, c :: cs =>
    let (seg, rest) := firstSegment (c :: cs)
    if seg = [slash] then none else (matchPath segments rest).map (seg :: ·)

theorem matchPath_lit {s path : List UInt8} {segments : List Segment} (h : path ≠ []) :
    matchPath (.lit s :: segments) path =
      if (firstSegment path).1 = s then matchPath segments (firstSegment path).2 else none := by
  cases path with
  | nil => exact absurd rfl h
  | cons c cs => rfl

/-- A pattern for `GET` also takes `HEAD`. -/
def Pattern.takes (p : Pattern) (method : String) : Bool :=
  match p.method with
  | none => true
  | some m => m = method || (m = "GET" && method = "HEAD")

/-- `http.ServeMux`. The patterns of a table here do not overlap, so their order does not matter. -/
abbrev ServeMux (α : Type) := List (Pattern × α)

/-- What becomes of a request: a redirection to the canonical path, a handler with its wildcards, or an error. -/
inductive Routed (α : Type)
  | redirect
  | handler (a : α) (wildcards : List (List UInt8))
  | methodNotAllowed
  | notFound
  deriving DecidableEq

namespace ServeMux

variable {α : Type}

def find (mux : ServeMux α) (method : String) (path : List UInt8) : Option (Pattern × α × List (List UInt8)) :=
  mux.findSome? fun (p, a) ↦ if p.takes method then (matchPath p.segments path).map fun ws ↦ (p, a, ws) else none

/-- The path is matched in full: nothing is left for a trailing wildcard. -/
def exact (p : Pattern) (path : List UInt8) : Bool :=
  if p.segments.getLast? = some .multi then
    path.getLast? = some slash && p.segments.length = path.count slash
  else true

/-- The path lacks only a slash at its end. -/
def lacksSlash (mux : ServeMux α) (method : String) (path : List UInt8) : Bool :=
  !((mux.find method path).any fun m ↦ exact m.1 path) && path ≠ [] && path.getLast? ≠ some slash &&
    (mux.find method (path ++ [slash])).any fun m ↦ exact m.1 (path ++ [slash])

/-- Another method would have matched, maybe with a slash at the end. -/
def otherMethod (mux : ServeMux α) (path : List UInt8) : Bool :=
  mux.any fun m ↦ (matchPath m.1.segments path).isSome ||
    (path.getLast? ≠ some slash && (matchPath m.1.segments (path ++ [slash])).isSome)

/-- The route of a request. The path of `CONNECT` is taken as it is. -/
def route (mux : ServeMux α) (method : String) (u : Url) : Routed α :=
  let path := if method = "CONNECT" then u.escapedPath else cleanPath u.escapedPath
  if mux.lacksSlash method path || path ≠ u.escapedPath then .redirect
  else
    match mux.find method path with
    | some (_, a, ws) => .handler a ws
    | none => if mux.otherMethod path then .methodNotAllowed else .notFound

theorem mem_of_find {mux : ServeMux α} {method : String} {path : List UInt8} {p : Pattern} {a : α}
    {ws : List (List UInt8)} (h : mux.find method path = some (p, a, ws)) :
    (p, a) ∈ mux ∧ matchPath p.segments path = some ws := by
  obtain ⟨⟨q, b⟩, hmem, hq⟩ := List.exists_of_findSome?_eq_some h
  dsimp only at hq
  split at hq
  · obtain ⟨ws', hws, heq⟩ := Option.map_eq_some_iff.mp hq
    cases heq
    exact ⟨hmem, hws⟩
  · cases hq

/-- A handler is reached on the path as it was sent. -/
theorem mem_of_route {mux : ServeMux α} {method : String} {u : Url} {a : α} {ws : List (List UInt8)}
    (h : mux.route method u = .handler a ws) : ∃ p, (p, a) ∈ mux ∧ matchPath p.segments u.escapedPath = some ws := by
  unfold route at h
  generalize (if method = "CONNECT" then u.escapedPath else cleanPath u.escapedPath) = path at h
  dsimp only at h
  split at h
  · cases h
  · rename_i hsame
    split at h
    · rename_i p b ws' hfind
      cases h
      have hpath : path = u.escapedPath := by
        by_contra hne
        exact hsame (by simp [hne])
      rw [← hpath]
      exact ⟨p, mem_of_find hfind⟩
    · split at h <;> cases h

end ServeMux

end EventPlatform.Http
