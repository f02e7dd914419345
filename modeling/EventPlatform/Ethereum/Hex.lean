import Mathlib.Tactic.IntervalCases
import Mathlib.Data.List.Basic

namespace EventPlatform.Ethereum.Hex

/-- The text `encoding/hex` writes for a byte string: two lower-case digits a byte. -/
def encodeToString (b : List UInt8) : List Char :=
  b.flatMap fun x ↦ [(x.toNat / 16).digitChar, (x.toNat % 16).digitChar]

def fromHexChar (c : Char) : Option ℕ :=
  if '0' ≤ c ∧ c ≤ '9' then some (c.toNat - '0'.toNat)
  else if 'a' ≤ c ∧ c ≤ 'f' then some (c.toNat - 'a'.toNat + 10)
  else if 'A' ≤ c ∧ c ≤ 'F' then some (c.toNat - 'A'.toNat + 10)
  else none

/-- `hex.DecodeString` with its error dropped, as `common.Hex2Bytes` calls it:
the bytes before the first malformed pair. -/
def hex2Bytes : List Char → List UInt8
  | hi :: lo :: rest =>
    match fromHexChar hi, fromHexChar lo with
    | some a, some b => UInt8.ofNat (16 * a + b) :: hex2Bytes rest
    | _, _ => []
  | _ => []

def has0xPrefix : List Char → Bool
  | '0' :: c :: _ => c = 'x' ∨ c = 'X'
  | _ => false

def fromHex (s : String) : List UInt8 :=
  let digits := if has0xPrefix s.toList then s.toList.drop 2 else s.toList
  hex2Bytes (if digits.length % 2 = 1 then '0' :: digits else digits)

/-- `hexutil.Encode`: the digits behind a `0x`. -/
def encode (b : List UInt8) : String := String.ofList ('0' :: 'x' :: encodeToString b)

theorem fromHexChar_digitChar {n : ℕ} (h : n < 16) : fromHexChar n.digitChar = some n := by
  interval_cases n <;> rfl

theorem hex2Bytes_encodeToString (b : List UInt8) : hex2Bytes (encodeToString b) = b := by
  induction b with
  | nil => rfl
  | cons x b ih =>
    have hx := x.toNat_lt
    have hi := fromHexChar_digitChar (n := x.toNat / 16) (by omega)
    have lo := fromHexChar_digitChar (n := x.toNat % 16) (by omega)
    have ht : hex2Bytes (b.flatMap fun x ↦ [(x.toNat / 16).digitChar, (x.toNat % 16).digitChar]) = b := ih
    simp only [encodeToString, List.flatMap_cons, List.cons_append, List.nil_append, hex2Bytes,
      hi, lo, ht, Nat.div_add_mod, UInt8.ofNat_toNat]

theorem encodeToString_length (b : List UInt8) : (encodeToString b).length = 2 * b.length := by
  induction b with
  | nil => rfl
  | cons x b ih =>
    simp only [encodeToString, List.flatMap_cons, List.length_append, List.length_cons] at ih ⊢
    simp only [List.length_nil]
    omega

theorem fromHex_encode (b : List UInt8) : fromHex (encode b) = b := by
  have hl := encodeToString_length b
  have hp : has0xPrefix ('0' :: 'x' :: encodeToString b) = true := rfl
  simp only [fromHex, encode, String.toList_ofList, hp, if_true, List.drop_succ_cons, List.drop_zero]
  rw [if_neg (by omega), hex2Bytes_encodeToString]

end EventPlatform.Ethereum.Hex
