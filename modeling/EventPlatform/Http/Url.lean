import Mathlib.Data.List.Basic
import Mathlib.Data.Nat.Notation

namespace EventPlatform.Http

def ascii (s : String) : List UInt8 := s.toList.map fun c ↦ .ofNat c.toNat

def slash : UInt8 := 0x2f

def percent : UInt8 := 0x25

def unhex (c : UInt8) : Option UInt8 :=
  if 0x30 ≤ c ∧ c ≤ 0x39 then some (c - 0x30)
  else if 0x61 ≤ c ∧ c ≤ 0x66 then some (c - 0x61 + 10)
  else if 0x41 ≤ c ∧ c ≤ 0x46 then some (c - 0x41 + 10)
  else none

def upperhex (n : UInt8) : UInt8 := if n < 10 then n + 0x30 else n - 10 + 0x41

/-- `unescape` of a path or of one of its segments. A percent sign without two digits is an error. -/
def unescape : List UInt8 → Option (List UInt8)
  | [] => some []
  | c :: cs =>
    if c = percent then
      match cs with
      | a :: b :: cs => do
        let a ← unhex a
        let b ← unhex b
        return (a * 16 + b) :: (← unescape cs)
      | _ => none
    else (unescape cs).map (c :: ·)

def isAlnum (c : UInt8) : Bool :=
  (0x30 ≤ c && c ≤ 0x39) || (0x41 ≤ c && c ≤ 0x5a) || (0x61 ≤ c && c ≤ 0x7a)

/-- `shouldEscape` in the mode `encodePath`. -/
def shouldEscape (c : UInt8) : Bool := !(isAlnum c || (ascii "-_.~$&+,/:;=@").contains c)

def escape : List UInt8 → List UInt8
  | [] => []
  | c :: cs => if shouldEscape c then percent :: upperhex (c / 16) :: upperhex (c % 16) :: escape cs else c :: escape cs

/-- `validEncoded` in the mode `encodePath`. -/
def validEncoded (s : List UInt8) : Bool := s.all fun c ↦ (ascii "!$&'()*+,;=:@[]%").contains c || !shouldEscape c

/-- The part of `url.URL` that a proxy works on. -/
structure Url where
  path : List UInt8
  rawPath : List UInt8
  rawQuery : String
  deriving DecidableEq

/-- `URL.setPath`: the raw path is kept only where it is not the default encoding. -/
def Url.setPath (p : List UInt8) (rawQuery : String) : Option Url :=
  (unescape p).map fun path ↦ ⟨path, if p = escape path then [] else p, rawQuery⟩

/-- `URL.EscapedPath`: the raw path, where it is a valid encoding of the path. -/
def Url.escapedPath (u : Url) : List UInt8 :=
  if u.rawPath ≠ [] ∧ validEncoded u.rawPath ∧ unescape u.rawPath = some u.path then u.rawPath
  else if u.path = ascii "*" then ascii "*"
  else escape u.path

/-- The path of `URL.RequestURI`. -/
def Url.requestPath (u : Url) : List UInt8 := if u.escapedPath = [] then [slash] else u.escapedPath

end EventPlatform.Http
