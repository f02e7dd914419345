import Mathlib.Data.Nat.Digits.Defs

namespace EventPlatform.Strconv

/-- `strconv.ParseUint(s, 10, 64)`. -/
def parseUint (s : String) : Option UInt64 :=
  if s.toList ≠ [] ∧ s.toList.all Char.isDigit then
    let n := Nat.ofDigitChars 10 s.toList 0
    if n < 2 ^ 64 then some (UInt64.ofNat n) else none
  else none

/-- `strconv.ParseInt(s, 10, 64)`. -/
def parseInt (s : String) : Option ℤ :=
  match s.toList with
  | '-' :: cs => (parseUint (String.ofList cs)).bind fun n ↦ if n.toNat ≤ 2 ^ 63 then some (-n.toNat) else none
  | '+' :: cs => (parseUint (String.ofList cs)).bind fun n ↦ if n.toNat < 2 ^ 63 then some n.toNat else none
  | _ => (parseUint s).bind fun n ↦ if n.toNat < 2 ^ 63 then some n.toNat else none

end EventPlatform.Strconv
