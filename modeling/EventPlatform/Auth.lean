import Mathlib

namespace EventPlatform.Auth

def roleUser : String := "user"

def roleAdmin : String := "admin"

def headerSubject : String := "X-Auth-Subject"

def headerRole : String := "X-Auth-Role"

/-- The claims of a token. Its dates are in seconds from the Unix epoch. -/
structure Claims where
  role : String
  issuer : String
  subject : String
  issuedAt : Option ℤ
  expiresAt : Option ℤ
  notBefore : Option ℤ
  deriving DecidableEq

/-- What `golang-jwt` does with the texts of tokens: the text that is signed for claims under HS256, the algorithm
and the claims that such a text states, the signature of a text under a secret, and the text of a whole token. -/
class GoJwt where
  signingString : Claims → String
  parse : String → Option (String × Claims)
  hmac : String → String → List UInt8
  join : String → List UInt8 → String
  split : String → Option (String × List UInt8)
  parse_signingString : ∀ c, parse (signingString c) = some ("HS256", c)
  split_join : ∀ c sig, split (join (signingString c) sig) = some (signingString c, sig)

structure Token where
  accessToken : String
  tokenType : String
  expiresIn : ℤ
  role : String
  deriving DecidableEq

/-- The expiry is in nanoseconds. -/
structure Authenticator where
  secret : String
  issuer : String
  expiry : ℤ

def second : ℤ := 10 ^ 9

namespace Authenticator

variable [GoJwt]

def claims (a : Authenticator) (now : ℤ) (subject role : String) : Claims where
  role
  issuer := a.issuer
  subject
  issuedAt := some (now / second)
  expiresAt := some ((now + a.expiry) / second)
  notBefore := none

def signed (a : Authenticator) (text : String) : String := GoJwt.join text (GoJwt.hmac a.secret text)

def issue (a : Authenticator) (now : ℤ) (subject role : String) : Token where
  accessToken := a.signed (GoJwt.signingString (a.claims now subject role))
  tokenType := "Bearer"
  expiresIn := a.expiry.tdiv second
  role

/-- The dates and the issuer of the claims. An issuer that is not configured is not asked for. -/
def valid (a : Authenticator) (now : ℤ) (c : Claims) : Bool :=
  (c.expiresAt.all fun t ↦ now < t * second) && (c.notBefore.all fun t ↦ t * second ≤ now) &&
    (a.issuer = "" || c.issuer = a.issuer)

/-- The claims of a token, unless it is invalid or expired. The algorithm is pinned to HS256. -/
def verify (a : Authenticator) (now : ℤ) (tokenString : String) : Option Claims :=
  match GoJwt.split tokenString with
  | none => none
  | some (text, sig) =>
    match GoJwt.parse text with
    | none => none
    | some (alg, c) => if alg = "HS256" ∧ sig = GoJwt.hmac a.secret text ∧ a.valid now c then some c else none

variable {a : Authenticator} {now : ℤ}

theorem verify_eq_some {tokenString : String} {c : Claims} :
    a.verify now tokenString = some c ↔ ∃ text, GoJwt.split tokenString = some (text, GoJwt.hmac a.secret text) ∧
      GoJwt.parse text = some ("HS256", c) ∧ a.valid now c = true := by
  unfold verify
  constructor
  · intro h
    split at h
    · cases h
    · rename_i text sig hsplit
      split at h
      · cases h
      · rename_i alg c' hparse
        rw [Option.ite_none_right_eq_some] at h
        obtain ⟨⟨rfl, rfl, hvalid⟩, hc⟩ := h
        cases hc
        exact ⟨text, hsplit, hparse, hvalid⟩
  · rintro ⟨text, hsplit, hparse, hvalid⟩
    rw [hsplit]
    dsimp only
    rw [hparse]
    exact if_pos ⟨rfl, rfl, hvalid⟩

theorem split_issue (subject role : String) : GoJwt.split (a.issue now subject role).accessToken =
    some (GoJwt.signingString (a.claims now subject role),
      GoJwt.hmac a.secret (GoJwt.signingString (a.claims now subject role))) :=
  GoJwt.split_join _ _

/-- A token is accepted until the second in which it expires. -/
theorem verify_issue {later : ℤ} (h : later < (now + a.expiry) / second * second) (subject role : String) :
    a.verify later (a.issue now subject role).accessToken = some (a.claims now subject role) :=
  verify_eq_some.mpr ⟨_, split_issue subject role, GoJwt.parse_signingString _, by simp [valid, claims, h]⟩

end Authenticator

instance countableString : Countable String := by
  have hchar : Function.Injective Char.toNat := fun a b h ↦ Char.ext (UInt32.toNat_inj.mp h)
  have htext : Function.Injective fun s : String ↦ s.toList.map Char.toNat :=
    hchar.list_map.comp fun a b h ↦ String.toList_inj.mp h
  exact htext.countable

instance countableClaims : Countable Claims := by
  have hfields : Function.Injective fun c : Claims ↦
      (c.role, c.issuer, c.subject, c.issuedAt, c.expiresAt, c.notBefore) := by
    rintro ⟨⟩ ⟨⟩ h
    simpa using h
  exact hfields.countable

theorem exists_injective_text (α : Type) [Countable α] : ∃ f : α → String, f.Injective := by
  obtain ⟨f, hf⟩ := exists_injective_nat α
  exact ⟨fun x ↦ (f x).repr, fun x y h ↦ hf (Nat.repr_injective h)⟩

/-- Tokens with these laws exist. The texts here are numbers, and the signature of a text shows the secret. -/
@[reducible] noncomputable def GoJwt.coded : GoJwt :=
  let code := (exists_injective_text Claims).choose
  let pair := (exists_injective_text (String × List UInt8)).choose
  { signingString := code
    parse text := (Function.partialInv code text).map fun c ↦ ("HS256", c)
    hmac secret text := (secret ++ text).toUTF8.toList
    join text sig := pair (text, sig)
    split := Function.partialInv pair
    parse_signingString c := by
      rw [Function.partialInv_left (exists_injective_text Claims).choose_spec]
      rfl
    split_join c sig := Function.partialInv_left (exists_injective_text (String × List UInt8)).choose_spec _ }

end EventPlatform.Auth
