import Mathlib

namespace EventPlatform.Net

/-- An IPv6 address that is not an IPv4 address in disguise, in groups of sixteen bits. -/
structure IPv6 where
  groups : List UInt16
  zone : String
  length_groups : groups.length = 8
  not_mapped : groups.take 6 ≠ [0, 0, 0, 0, 0, 0xffff]
  deriving DecidableEq

inductive IP
  | v4 (a b c d : UInt8)
  | v6 (ip : IPv6)
  deriving DecidableEq

def decimal (n : ℕ) : List Char := Nat.toDigits 10 n

def hex (n : ℕ) : List Char := Nat.toDigits 16 n

namespace IPv6

/-- The first of the longest runs of zero groups, where a run has at least two of them. -/
def zeros (groups : List UInt16) : Option (ℕ × ℕ) :=
  (List.range 8).foldl (fun best i ↦
    let l := ((groups.drop i).takeWhile (· = 0)).length
    if 2 ≤ l ∧ best.elim 0 (fun b ↦ b.2 - b.1) < l then some (i, i + l) else best) none

def colons (groups : List UInt16) : List Char := [':'].intercalate (groups.map fun g ↦ hex g.toNat)

/-- The text of the groups, with two colons in place of the run of zeros. -/
def text (groups : List UInt16) : List Char :=
  match zeros groups with
  | none => colons groups
  | some (s, e) => colons (groups.take s) ++ ':' :: ':' :: colons (groups.drop e)

end IPv6

/-- The text of an address as `net.TCPAddr` gives it. -/
def IP.text : IP → List Char
  | .v4 a b c d => ['.'].intercalate ([a, b, c, d].map fun x ↦ decimal x.toNat)
  | .v6 ip => IPv6.text ip.groups ++ if ip.zone = "" then [] else '%' :: ip.zone.toList

def joinHostPort (host port : List Char) : List Char :=
  if ':' ∈ host then '[' :: host ++ ']' :: ':' :: port else host ++ ':' :: port

def remoteAddr (ip : IP) (port : UInt16) : String := String.ofList (joinHostPort ip.text (decimal port.toNat))

/-- Both are IPv6 addresses, and their texts agree up to the first colon. -/
def SameHead : IP → IP → Prop
  | .v6 x, .v6 y => (IPv6.text x.groups).takeWhile (· ≠ ':') = (IPv6.text y.groups).takeWhile (· ≠ ':')
  | _, _ => False

theorem not_mem_decimal {c : Char} (hc : c.isDigit = false) (n : ℕ) : c ∉ decimal n := by
  intro h
  have hdigit := Nat.isDigit_of_mem_toDigits (by decide) (by decide) h
  simp [hc] at hdigit

theorem decimal_injective : Function.Injective decimal := by
  intro m n h
  simpa [decimal] using congrArg (fun ds ↦ Nat.ofDigitChars 10 ds 0) h

theorem not_mem_v4 {c : Char} (hdigit : c.isDigit = false) (hdot : c ≠ '.') (x y z w : UInt8) :
    c ∉ (IP.v4 x y z w).text := by
  have h : ∀ x : UInt8, c ∉ decimal x.toNat := fun x ↦ not_mem_decimal hdigit _
  simp [IP.text, List.intercalate, h, hdot]

theorem v4_text_injective {a b c d a' b' c' d' : UInt8} (h : (IP.v4 a b c d).text = (IP.v4 a' b' c' d').text) :
    IP.v4 a b c d = IP.v4 a' b' c' d' := by
  have hdot : ∀ xs : List UInt8, ∀ l ∈ xs.map (fun x ↦ decimal x.toNat), '.' ∉ l := by
    intro xs l hl
    obtain ⟨x, -, rfl⟩ := List.mem_map.mp hl
    exact not_mem_decimal (by decide) _
  have hsplit := congrArg (List.splitOn '.') h
  unfold IP.text at hsplit
  rw [List.splitOn_intercalate _ (hdot _) (by simp), List.splitOn_intercalate _ (hdot _) (by simp)] at hsplit
  have hinj : Function.Injective fun x : UInt8 ↦ decimal x.toNat :=
    fun x y hxy ↦ UInt8.toNat_inj.mp (decimal_injective hxy)
  have heq := hinj.list_map hsplit
  simp_all

theorem colon_mem_colons {groups : List UInt16} (h : 2 ≤ groups.length) : ':' ∈ IPv6.colons groups := by
  match groups, h with
  | g :: g' :: groups, _ => simp [IPv6.colons, List.intercalate]

theorem colon_mem_v6 (ip : IPv6) : ':' ∈ IPv6.text ip.groups := by
  unfold IPv6.text
  split
  · exact colon_mem_colons (by rw [ip.length_groups]; decide)
  · simp

end EventPlatform.Net
