import Mathlib.Data.List.Induction
import EventPlatform.Ethereum.Types

namespace EventPlatform.Ethereum

/-- The last `k` bytes of a number, the most significant one first. -/
def wordBytes : ℕ → ℕ → List UInt8
  | 0, _ => []
  | k + 1, n => wordBytes k (n / 256) ++ [UInt8.ofNat n]

def wordValue (b : List UInt8) : ℕ := b.foldl (fun acc x ↦ 256 * acc + x.toNat) 0

theorem wordBytes_length (k n : ℕ) : (wordBytes k n).length = k := by
  induction k generalizing n with
  | zero => rfl
  | succ k ih => rw [wordBytes, List.length_append, ih, List.length_singleton]

theorem wordValue_concat (b : List UInt8) (x : UInt8) : wordValue (b ++ [x]) = 256 * wordValue b + x.toNat := by
  rw [wordValue, List.foldl_append]
  rfl

theorem wordValue_wordBytes {k n : ℕ} (h : n < 256 ^ k) : wordValue (wordBytes k n) = n := by
  induction k generalizing n with
  | zero =>
    rw [pow_zero, Nat.lt_one_iff] at h
    rw [h]
    rfl
  | succ k ih =>
    rw [pow_succ'] at h
    rw [wordBytes, wordValue_concat, ih (Nat.div_lt_of_lt_mul h), UInt8.toNat_ofNat']
    exact Nat.div_add_mod n 256

theorem wordValue_lt (b : List UInt8) : wordValue b < 256 ^ b.length := by
  induction b using List.reverseRecOn with
  | nil => decide
  | append_singleton b x ih =>
    have hx := x.toNat_lt
    rw [wordValue_concat, List.length_append, List.length_singleton, pow_succ']
    omega

theorem wordBytes_wordValue (b : List UInt8) : wordBytes b.length (wordValue b) = b := by
  induction b using List.reverseRecOn with
  | nil => rfl
  | append_singleton b x ih =>
    have hx := x.toNat_lt
    have hdiv : (256 * wordValue b + x.toNat) / 256 = wordValue b := by omega
    have hlast : UInt8.ofNat (256 * wordValue b + x.toNat) = x := by
      apply UInt8.toNat_inj.mp
      rw [UInt8.toNat_ofNat']
      omega
    rw [List.length_append, List.length_singleton, wordValue_concat, wordBytes, hdiv, hlast, ih]

section Padding

variable {n m : ℕ}

theorem setBytes_toList_le (b : List UInt8) (h : b.length ≤ n) :
    (setBytes n b).toList = List.replicate (n - b.length) 0 ++ b := by
  simp [setBytes, Vector.toList, Nat.sub_eq_zero_of_le h]

theorem setBytes_toList_ge (b : List UInt8) (h : n ≤ b.length) : (setBytes n b).toList = b.drop (b.length - n) := by
  simp [setBytes, Vector.toList, Nat.sub_eq_zero_of_le h]

/-- Cropping what was padded gives it back. -/
theorem setBytes_setBytes (h : n ≤ m) (v : Vector UInt8 n) : setBytes n (setBytes m v.toList).toList = v := by
  apply Vector.toList_inj.mp
  rw [setBytes_toList_ge _ (by simpa using h), setBytes_toList_le v.toList (by simpa using h)]
  simp

/-- Padding what was cropped gives it back when only zeros were lost. -/
theorem setBytes_setBytes_iff (h : n ≤ m) (v : Vector UInt8 m) :
    setBytes m (setBytes n v.toList).toList = v ↔ v.toList.take (m - n) = List.replicate (m - n) 0 := by
  have hl : v.toList.length = m := v.length_toList
  rw [← Vector.toList_inj, setBytes_toList_le _ (by simpa using h), Vector.length_toList,
    setBytes_toList_ge _ (by omega), hl]
  nth_rewrite 2 [← List.take_append_drop (m - n) v.toList]
  rw [List.append_left_inj, eq_comm]

end Padding

theorem hexToAddress_hashHex (h : Hash) : hexToAddress (hashHex h) = setBytes 20 h.toList := by
  rw [hexToAddress, hashHex, Hex.fromHex_encode]

end EventPlatform.Ethereum
