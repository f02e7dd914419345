import Mathlib.Data.Rat.Lemmas
import Mathlib.Data.List.Basic

namespace EventPlatform.BigRat

/-- `Rat.FloatString`: `prec` digits after the point, the last one rounded to nearest with halves away from zero. -/
def floatString (prec : ℕ) (x : ℚ) : String :=
  let point (digits : String) := if prec = 0 then "" else "." ++ digits
  if x.den = 1 then
    toString x.num ++ point (String.ofList (List.replicate prec '0'))
  else
    let q := x.num.natAbs / x.den
    let p := 10 ^ prec
    let r := x.num.natAbs % x.den * p
    let up := x.den ≤ 2 * (r % x.den)
    let d := if up then r / x.den + 1 else r / x.den
    let (q, d) := if up ∧ p ≤ d then (q + 1, d - p) else (q, d)
    let ds := toString d
    (if x.num < 0 then "-" else "") ++ toString q ++ point (String.ofList (List.replicate (prec - ds.length) '0') ++ ds)

/-- The character that the scanner saw last: a separator, a digit or anything else. -/
inductive Prev
  | sep
  | digit
  | other
  deriving DecidableEq

/-- The state of `nat.scan`: the digits so far, how many of them stand before the point, and whether a separator
was out of place. -/
structure Scan where
  value : ℕ
  count : ℕ
  point : Option ℕ
  prev : Prev
  invalSep : Bool

def digitValue (c : Char) : Option ℕ :=
  if '0' ≤ c ∧ c ≤ '9' then some (c.toNat - '0'.toNat)
  else if 'a' ≤ c ∧ c ≤ 'z' then some (c.toNat - 'a'.toNat + 10)
  else if 'A' ≤ c ∧ c ≤ 'Z' then some (c.toNat - 'A'.toNat + 10)
  else none

def scanDigits (base : ℕ) (fracOk : Bool) : Scan → List Char → Scan × List Char
  | st, [] => (st, [])
  | st, c :: cs =>
    if c = '.' ∧ fracOk ∧ st.point = none then
      scanDigits base fracOk
        { st with point := some st.count, prev := .other, invalSep := st.invalSep || st.prev = .sep } cs
    else if c = '_' then
      scanDigits base fracOk { st with prev := .sep, invalSep := st.invalSep || st.prev ≠ .digit } cs
    else
      match digitValue c with
      | some d =>
        if d < base then
          scanDigits base fracOk { st with value := st.value * base + d, count := st.count + 1, prev := .digit } cs
        else (st, c :: cs)
      | none => (st, c :: cs)

/-- The base that a prefix announces, whether it is the bare `0` of an octal number, and the state to scan from. -/
def scanPrefix (fracOk : Bool) : List Char → ℕ × Bool × Scan × List Char
  | '0' :: c :: cs =>
    let after : Scan := ⟨0, 0, none, .digit, false⟩
    if c = 'b' ∨ c = 'B' then (2, false, after, cs)
    else if c = 'o' ∨ c = 'O' then (8, false, after, cs)
    else if c = 'x' ∨ c = 'X' then (16, false, after, cs)
    else if fracOk then (10, false, { after with count := 1 }, c :: cs)
    else (8, true, after, c :: cs)
  | cs => (10, false, ⟨0, 0, none, .other, false⟩, cs)

/-- A number that `nat.scan` has read, with the digits after its point. -/
structure Scanned where
  value : ℕ
  base : ℕ
  fraction : ℕ

/-- `nat.scan` in base 0. -/
def scan (fracOk : Bool) (s : List Char) : Option (Scanned × List Char) :=
  let (base, octal, st, cs) := scanPrefix fracOk s
  let (st, rest) := scanDigits base fracOk st cs
  if st.invalSep ∨ st.prev = .sep then none
  else if st.count = 0 then
    if octal then some (⟨0, 10, 0⟩, rest) else none
  else some (⟨st.value, base, st.point.elim 0 (st.count - ·)⟩, rest)

def scanSign : List Char → Bool × List Char
  | '-' :: cs => (true, cs)
  | '+' :: cs => (false, cs)
  | cs => (false, cs)

/-- `strconv.ParseInt` of a decimal number within an `int64`. -/
def parseInt64 (neg : Bool) (n : ℕ) : Option ℤ :=
  let z : ℤ := if neg then -n else n
  if -2 ^ 63 ≤ z ∧ z < 2 ^ 63 then some z else none

/-- `scanExponent`: the exponent with its base. -/
def scanExponent : List Char → Option (ℤ × ℕ × List Char)
  | [] => some (0, 10, [])
  | c :: cs =>
    let read (base : ℕ) : Option (ℤ × ℕ × List Char) :=
      let (neg, cs) := scanSign cs
      let (st, rest) := scanDigits 10 false ⟨0, 0, none, .other, false⟩ cs
      if st.count = 0 ∨ st.invalSep ∨ st.prev = .sep then none
      else (parseInt64 neg st.value).map (·, base, rest)
    if c = 'e' ∨ c = 'E' then read 10
    else if c = 'p' ∨ c = 'P' then read 2
    else some (0, 10, c :: cs)

/-- The exponents of 5 and of 2 by which a mantissa is to be scaled. -/
def scale (base fraction : ℕ) (exp : ℤ) (ebase : ℕ) : ℤ × ℤ :=
  let exp5 : ℤ := if base = 10 then -fraction else 0
  let exp2 : ℤ := if base = 8 then -(3 * fraction) else if base = 16 then -(4 * fraction) else -fraction
  (if ebase = 10 then exp5 + exp else exp5, exp2 + exp)

/-- `Rat.SetString` of a fraction `a/b`. -/
def parseFraction (a b : List Char) : Option ℚ := do
  let (neg, cs) := scanSign a
  let (num, rest) ← scan false cs
  if rest ≠ [] then none
  let (den, rest) ← scan false b
  if rest ≠ [] ∨ den.value = 0 then none
  return (if neg then -(num.value : ℚ) else num.value) / den.value

/-- `Rat.SetString` of a number with an optional point and exponent. -/
def parseFloat (s : List Char) : Option ℚ := do
  let (neg, cs) := scanSign s
  let (m, rest) ← scan true cs
  let (exp, ebase, rest) ← scanExponent rest
  if rest ≠ [] then none
  if m.value = 0 then return 0
  let (exp5, exp2) := scale m.base m.fraction exp ebase
  if exp5.natAbs > 1000000 ∨ exp2.natAbs > 10000000 then none
  let z : ℚ := m.value * 5 ^ exp5 * 2 ^ exp2
  return if neg then -z else z

def setString (s : String) : Option ℚ :=
  match s.toList.span (· ≠ '/') with
  | ([], []) => none
  | (a, _ :: b) => parseFraction a b
  | (a, []) => parseFloat a

example : setString "0.8" = some (4 / 5) := by decide +kernel

example : [setString "1.", setString "-3/0x10", setString "1_000e-3", setString "1__0", setString "5/-2"] =
    [some 1, some (-3 / 16), some 1, none, none] := by decide +kernel

example : [floatString 2 (2 / 3), floatString 2 (-1 / 200), floatString 4 (23 / 20), floatString 2 (1999 / 2000)] =
    ["0.67", "-0.01", "1.1500", "1.00"] := by decide +kernel

end EventPlatform.BigRat
