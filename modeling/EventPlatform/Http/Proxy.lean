import EventPlatform.Http.Header
import EventPlatform.Http.Url

namespace EventPlatform.Http

structure Request where
  method : String
  url : Url
  host : String
  header : Header
  body : String
  remoteAddr : String

structure Target where
  host : String
  url : Url

def singleJoiningSlash (a b : List UInt8) : List UInt8 :=
  match decide (a.getLast? = some slash), decide (b.head? = some slash) with
  | true, true => a ++ b.tail
  | false, false => a ++ slash :: b
  | _, _ => a ++ b

/-- `joinURLPath`. The raw paths decide about the slash where there are any. -/
def joinURLPath (a b : Url) : List UInt8 × List UInt8 :=
  if a.rawPath = [] ∧ b.rawPath = [] then (singleJoiningSlash a.path b.path, [])
  else
    let apath := a.escapedPath
    let bpath := b.escapedPath
    match decide (apath.getLast? = some slash), decide (bpath.head? = some slash) with
    | true, true => (a.path ++ b.path.tail, apath ++ bpath.tail)
    | false, false => (a.path ++ slash :: b.path, apath ++ slash :: bpath)
    | _, _ => (a.path ++ b.path, apath ++ bpath)

/-- The director of `NewSingleHostReverseProxy`. -/
def rewriteRequestURL (target : Target) (u : Url) : Url where
  path := (joinURLPath target.url u).1
  rawPath := (joinURLPath target.url u).2
  rawQuery :=
    if target.url.rawQuery = "" ∨ u.rawQuery = "" then target.url.rawQuery ++ u.rawQuery
    else target.url.rawQuery ++ "&" ++ u.rawQuery

def trimString (s : String) : String :=
  let space : Char → Bool := fun c ↦ c = ' ' || c = '\t' || c = '\n' || c = '\r'
  String.ofList (((s.toList.dropWhile space).reverse.dropWhile space).reverse)

/-- The names that a value of the field `Connection` lists. -/
def listed (value : String) : List String :=
  (((value.toList.splitOn ',').map fun cs ↦ trimString (String.ofList cs))).filter (· ≠ "")

def hopHeaders : List String :=
  ["Connection", "Proxy-Connection", "Keep-Alive", "Proxy-Authenticate", "Proxy-Authorization", "Te", "Trailer",
    "Transfer-Encoding", "Upgrade"]

/-- `removeHopByHopHeaders`: the fields that `Connection` names, and those that are always meant for one hop. -/
def removeHopByHopHeaders (h : Header) : Header :=
  (((h.values "Connection").flatMap listed) ++ hopHeaders).foldl Header.del h

/-- A request that `httputil.ReverseProxy` passes on, after its director has run. -/
def forwarded (director : Request → Request) (r : Request) : Request :=
  let out := director r
  { out with header := removeHopByHopHeaders out.header }

def Named (h : Header) (key : String) : Prop :=
  key ∈ ((h.values "Connection").flatMap listed).map canonicalMIMEHeaderKey

instance (h : Header) (key : String) : Decidable (Named h key) := inferInstanceAs (Decidable (key ∈ List.map _ _))

theorem getElem?_foldl_del (names : List String) (h : Header) (k : String) :
    (names.foldl Header.del h)[k]? = if k ∈ names.map canonicalMIMEHeaderKey then none else h[k]? := by
  induction names generalizing h with
  | nil => simp
  | cons name names ih =>
    rw [List.foldl_cons, ih, Header.getElem?_del]
    by_cases hk : canonicalMIMEHeaderKey name = k
    · simp [hk]
    · simp [hk, Ne.symm hk]

theorem getElem?_removeHopByHopHeaders (h : Header) (k : String) :
    (removeHopByHopHeaders h)[k]? = if Named h k ∨ k ∈ hopHeaders then none else h[k]? := by
  have hhop : hopHeaders.map canonicalMIMEHeaderKey = hopHeaders := by decide +kernel
  rw [removeHopByHopHeaders, getElem?_foldl_del]
  exact if_congr (by rw [List.map_append, hhop, List.mem_append, Named]) rfl rfl

end EventPlatform.Http
