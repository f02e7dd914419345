import Mathlib
import EventPlatform.BigRat

namespace EventPlatform.BigRat

/-- The nearest number with `prec` decimals, halves away from zero. -/
def roundTo (prec : ℕ) (x : ℚ) : ℚ :=
  (if x < 0 then -1 else 1) * (⌊|x| * 10 ^ prec + 1 / 2⌋₊ : ℚ) / 10 ^ prec

section Round

variable (prec : ℕ) {x y : ℚ}

theorem roundTo_of_nonneg (h : 0 ≤ x) : roundTo prec x = (⌊x * 10 ^ prec + 1 / 2⌋₊ : ℚ) / 10 ^ prec := by
  rw [roundTo, if_neg (not_lt.mpr h), abs_of_nonneg h, one_mul]

theorem roundTo_of_neg (h : x < 0) : roundTo prec x = -roundTo prec (-x) := by
  rw [roundTo_of_nonneg prec (neg_nonneg.mpr h.le), roundTo, if_pos h, abs_of_neg h, neg_one_mul, neg_div]

theorem roundTo_nonneg (h : 0 ≤ x) : 0 ≤ roundTo prec x := by
  rw [roundTo_of_nonneg prec h]
  positivity

/-- A number is off by at most half of the last digit. -/
theorem abs_roundTo_sub_le (x : ℚ) : |roundTo prec x - x| ≤ 1 / (2 * 10 ^ prec) := by
  have hp : (0 : ℚ) < 10 ^ prec := by positivity
  have hpos : ∀ y : ℚ, 0 ≤ y → |roundTo prec y - y| ≤ 1 / (2 * 10 ^ prec) := by
    intro y hy
    have hle : (⌊y * 10 ^ prec + 1 / 2⌋₊ : ℚ) ≤ y * 10 ^ prec + 1 / 2 := Nat.floor_le (by positivity)
    have hlt : y * 10 ^ prec + 1 / 2 < (⌊y * 10 ^ prec + 1 / 2⌋₊ : ℚ) + 1 := Nat.lt_floor_add_one _
    have hsub : roundTo prec y - y = ((⌊y * 10 ^ prec + 1 / 2⌋₊ : ℚ) - y * 10 ^ prec) / 10 ^ prec := by
      rw [roundTo_of_nonneg prec hy]
      field_simp
    have hhalf : (1 : ℚ) / (2 * 10 ^ prec) = 1 / 2 / 10 ^ prec := by rw [div_div]
    rw [hsub, abs_div, abs_of_pos hp, hhalf]
    gcongr
    rw [abs_le]
    constructor <;> linarith
  rcases lt_or_ge x 0 with h | h
  · have hneg := hpos (-x) (neg_nonneg.mpr h.le)
    rw [sub_neg_eq_add] at hneg
    rwa [roundTo_of_neg prec h, ← neg_add', abs_neg]
  · exact hpos x h

/-- What stays below a number with `prec` decimals when it is rounded. -/
theorem roundTo_lt_iff {m : ℕ} (hm : 0 < m) :
    roundTo prec x < m / 10 ^ prec ↔ x < m / 10 ^ prec - 1 / (2 * 10 ^ prec) := by
  have hp : (0 : ℚ) < 10 ^ prec := by positivity
  have hm' : (1 : ℚ) ≤ m := by exact_mod_cast hm
  rcases lt_or_ge x 0 with h | h
  · have hround : roundTo prec x < m / 10 ^ prec := by
      rw [roundTo_of_neg prec h]
      have hnonneg := roundTo_nonneg prec (neg_nonneg.mpr h.le)
      have hpos : (0 : ℚ) < m / 10 ^ prec := by positivity
      linarith
    have hlow : (0 : ℚ) ≤ m / 10 ^ prec - 1 / (2 * 10 ^ prec) := by
      rw [← div_div, div_sub_div_same]
      exact div_nonneg (by linarith) hp.le
    exact iff_of_true hround (h.trans_le hlow)
  · rw [roundTo_of_nonneg prec h, div_lt_div_iff_of_pos_right hp, Nat.cast_lt, Nat.floor_lt (by positivity),
      ← lt_sub_iff_add_lt, ← div_div, div_sub_div_same, lt_div_iff₀ hp]

theorem abs_sum_roundTo_sub_le (l : List ℚ) :
    |(l.map (roundTo prec)).sum - l.sum| ≤ l.length / (2 * 10 ^ prec) := by
  induction l with
  | nil => simp
  | cons x l ih =>
    have hx := abs_roundTo_sub_le prec x
    calc |((x :: l).map (roundTo prec)).sum - (x :: l).sum|
        = |(roundTo prec x - x) + ((l.map (roundTo prec)).sum - l.sum)| := by
          rw [List.map_cons, List.sum_cons, List.sum_cons]
          ring_nf
      _ ≤ |roundTo prec x - x| + |(l.map (roundTo prec)).sum - l.sum| := abs_add_le _ _
      _ ≤ 1 / (2 * 10 ^ prec) + l.length / (2 * 10 ^ prec) := add_le_add hx ih
      _ = ((x :: l).length : ℚ) / (2 * 10 ^ prec) := by
          rw [List.length_cons]
          push_cast
          ring

/-- A rounded total and the sum of the rounded parts. -/
theorem abs_roundTo_sum_sub_le (l : List ℚ) :
    |roundTo prec l.sum - (l.map (roundTo prec)).sum| ≤ (l.length + 1) / (2 * 10 ^ prec) := by
  have htotal := abs_roundTo_sub_le prec l.sum
  have hparts := abs_sum_roundTo_sub_le prec l
  calc |roundTo prec l.sum - (l.map (roundTo prec)).sum|
      = |(roundTo prec l.sum - l.sum) - ((l.map (roundTo prec)).sum - l.sum)| := by rw [sub_sub_sub_cancel_right]
    _ ≤ |roundTo prec l.sum - l.sum| + |(l.map (roundTo prec)).sum - l.sum| := abs_sub _ _
    _ ≤ 1 / (2 * 10 ^ prec) + l.length / (2 * 10 ^ prec) := add_le_add htotal hparts
    _ = (l.length + 1) / (2 * 10 ^ prec) := by ring

end Round

/-- The number of units of the last digit. -/
def units (prec : ℕ) (x : ℚ) : ℕ := (2 * x.num.natAbs * 10 ^ prec + x.den) / (2 * x.den)

theorem floor_eq_units (prec : ℕ) (x : ℚ) : ⌊|x| * 10 ^ prec + 1 / 2⌋₊ = units prec x := by
  have hden : (x.den : ℚ) ≠ 0 := by exact_mod_cast x.den_nz
  have habs : |x| = x.num.natAbs / x.den := by
    rw [Nat.cast_natAbs, Int.cast_abs]
    nth_rewrite 1 [← x.num_div_den]
    rw [abs_div, Nat.abs_cast]
  have hfrac : |x| * 10 ^ prec + 1 / 2 =
      ((2 * x.num.natAbs * 10 ^ prec + x.den : ℕ) : ℚ) / ((2 * x.den : ℕ) : ℚ) := by
    rw [habs]
    push_cast
    field_simp
  rw [hfrac, Nat.floor_div_eq_div, units]

/-- The digits of a number below `10 ^ prec`, with leading zeros. -/
def padded (prec d : ℕ) : List Char := List.replicate (prec - (Nat.toDigits 10 d).length) '0' ++ Nat.toDigits 10 d

/-- A number of units, written with a point before the last `prec` digits. -/
def decimals (prec n : ℕ) : List Char :=
  Nat.toDigits 10 (n / 10 ^ prec) ++ if prec = 0 then [] else '.' :: padded prec (n % 10 ^ prec)

theorem decimals_eq {prec q d n : ℕ} (hd : d < 10 ^ prec) (hn : q * 10 ^ prec + d = n) :
    decimals prec n = Nat.toDigits 10 q ++ if prec = 0 then [] else '.' :: padded prec d := by
  have hp : 0 < 10 ^ prec := by positivity
  have hdiv : n / 10 ^ prec = q := by
    rw [← hn, mul_comm, Nat.mul_add_div hp, Nat.div_eq_of_lt hd, add_zero]
  have hmod : n % 10 ^ prec = d := by
    rw [← hn, mul_comm, Nat.mul_add_mod, Nat.mod_eq_of_lt hd]
  rw [decimals, hdiv, hmod]

theorem padded_zero {prec : ℕ} (h : prec ≠ 0) : padded prec 0 = List.replicate prec '0' := by
  rw [padded, Nat.toDigits_zero, List.length_singleton, ← List.replicate_succ', Nat.sub_add_cancel (by omega)]

/-- The quotient and the rounded remainder make up the units. The remainder may fill up, but only by rounding. -/
theorem div_add_round (num : ℕ) {den p d : ℕ} (hden : 0 < den) (hp : 0 < p)
    (hd : d = if den ≤ 2 * (num % den * p % den) then num % den * p / den + 1 else num % den * p / den) :
    num / den * p + d = (2 * num * p + den) / (2 * den) ∧ d ≤ p ∧ (p ≤ d → den ≤ 2 * (num % den * p % den)) := by
  have hrem : num % den * p / den < p := by
    apply Nat.div_lt_of_lt_mul
    exact Nat.mul_lt_mul_of_pos_right (Nat.mod_lt _ hden) hp
  have hlast : num % den * p % den < den := Nat.mod_lt _ hden
  have hnum : 2 * num * p + den =
      2 * den * (num / den * p + num % den * p / den) + (2 * (num % den * p % den) + den) := by
    calc 2 * num * p + den = 2 * (den * (num / den) + num % den) * p + den := by rw [Nat.div_add_mod]
      _ = 2 * den * (num / den * p) + 2 * (num % den * p) + den := by ring
      _ = 2 * den * (num / den * p) + 2 * (den * (num % den * p / den) + num % den * p % den) + den := by
        rw [Nat.div_add_mod]
      _ = _ := by ring
  rw [hnum, Nat.mul_add_div (by omega)]
  split at hd
  · rename_i hup
    have hone : (2 * (num % den * p % den) + den) / (2 * den) = 1 := Nat.div_eq_of_lt_le (by omega) (by omega)
    exact ⟨by omega, by omega, fun _ ↦ hup⟩
  · rename_i hup
    have hzero : (2 * (num % den * p % den) + den) / (2 * den) = 0 := Nat.div_eq_of_lt (by omega)
    exact ⟨by omega, by omega, fun h ↦ by omega⟩

theorem toString_nat_toList (n : ℕ) : (toString n).toList = Nat.toDigits 10 n := String.toList_ofList

theorem toString_int_toList (z : ℤ) :
    (toString z).toList = (if z < 0 then ['-'] else []) ++ Nat.toDigits 10 z.natAbs := by
  cases z with
  | ofNat n => exact toString_nat_toList n
  | negSucc n =>
    rw [if_pos (Int.negSucc_lt_zero n), Int.natAbs_negSucc, ← toString_nat_toList, ← String.toList_singleton,
      ← String.toList_append]
    rfl

theorem floatString_toList (prec : ℕ) (x : ℚ) :
    (floatString prec x).toList = (if x < 0 then ['-'] else []) ++ decimals prec (units prec x) := by
  have hp : 0 < 10 ^ prec := by positivity
  have hpoint (ds : String) :
      (if prec = 0 then "" else "." ++ ds).toList = if prec = 0 then [] else '.' :: ds.toList := by
    split <;> simp
  have hsign : (if x.num < 0 then ['-'] else []) = if x < 0 then ['-'] else [] := by
    simp only [Rat.num_neg]
  unfold floatString
  by_cases hden : x.den = 1
  · have hunits : x.num.natAbs * 10 ^ prec + 0 = units prec x := by
      rw [units, hden, mul_assoc, mul_one, Nat.mul_add_div (by decide)]
    dsimp only
    rw [if_pos hden, decimals_eq hp hunits, String.toList_append, toString_int_toList, hpoint, String.toList_ofList,
      hsign, List.append_assoc]
    by_cases h0 : prec = 0
    · simp [h0]
    · rw [padded_zero h0]
  · obtain ⟨hunits, hle, hup⟩ := div_add_round x.num.natAbs x.den_pos hp rfl
    rw [← units] at hunits
    dsimp only
    rw [if_neg hden]
    generalize (if x.den ≤ 2 * (x.num.natAbs % x.den * 10 ^ prec % x.den) then
      x.num.natAbs % x.den * 10 ^ prec / x.den + 1 else x.num.natAbs % x.den * 10 ^ prec / x.den) = d at *
    have hcarry : ∀ q e : ℕ, e < 10 ^ prec → q * 10 ^ prec + e = units prec x →
        ((if x.num < 0 then "-" else "") ++ toString q ++ if prec = 0 then "" else
          "." ++ (String.ofList (List.replicate (prec - (toString e).length) '0') ++ toString e)).toList =
        (if x < 0 then ['-'] else []) ++ decimals prec (units prec x) := by
      intro q e he hq
      rw [decimals_eq he hq, String.toList_append, String.toList_append, toString_nat_toList, hpoint,
        String.toList_append, String.toList_ofList, toString_nat_toList, padded, ← hsign, List.append_assoc,
        ← String.length_toList,
        toString_nat_toList]
      split <;> simp
    by_cases hfull : 10 ^ prec ≤ d
    · have hcond : x.den ≤ 2 * (x.num.natAbs % x.den * 10 ^ prec % x.den) ∧ 10 ^ prec ≤ d := ⟨hup hfull, hfull⟩
      rw [if_pos hcond]
      refine hcarry _ _ (by omega) ?_
      rw [← hunits, Nat.add_one_mul]
      omega
    · have hcond : ¬ (x.den ≤ 2 * (x.num.natAbs % x.den * 10 ^ prec % x.den) ∧ 10 ^ prec ≤ d) := fun h ↦ hfull h.2
      rw [if_neg hcond]
      exact hcarry _ _ (not_le.mp hfull) hunits

/-- The scanner after a digit. -/
def Scan.push (st : Scan) (c : Char) : Scan :=
  { st with value := st.value * 10 + (c.toNat - '0'.toNat), count := st.count + 1, prev := .digit }

section Read

variable {ds es rest : List Char}

theorem isDigit_bounds {c : Char} (h : c.isDigit) : '0' ≤ c ∧ c ≤ '9' := by
  rw [Char.isDigit, Bool.and_eq_true, decide_eq_true_eq, decide_eq_true_eq] at h
  exact h

theorem digitValue_of_isDigit {c : Char} (h : c.isDigit) : digitValue c = some (c.toNat - '0'.toNat) :=
  if_pos (isDigit_bounds h)

theorem scanDigits_digit (fracOk : Bool) {c : Char} (h : c.isDigit) (st : Scan) (cs : List Char) :
    scanDigits 10 fracOk st (c :: cs) = scanDigits 10 fracOk (st.push c) cs := by
  have hdot : c ≠ '.' := by
    rintro rfl
    cases h
  have hsep : c ≠ '_' := by
    rintro rfl
    cases h
  have hlt : c.toNat - '0'.toNat < 10 := by
    have hle : c.toNat ≤ '9'.toNat := (isDigit_bounds h).2
    have h9 : '9'.toNat = 57 := rfl
    have h0 : '0'.toNat = 48 := rfl
    omega
  rw [scanDigits, if_neg fun h ↦ hdot h.1, if_neg hsep, digitValue_of_isDigit h]
  exact if_pos hlt

theorem scanDigits_digits (fracOk : Bool) (hds : ∀ c ∈ ds, c.isDigit) (st : Scan) :
    scanDigits 10 fracOk st (ds ++ rest) = scanDigits 10 fracOk (ds.foldl Scan.push st) rest := by
  induction ds generalizing st with
  | nil => rfl
  | cons c ds ih =>
    rw [List.forall_mem_cons] at hds
    rw [List.cons_append, scanDigits_digit fracOk hds.1, List.foldl_cons]
    exact ih hds.2 _

theorem foldl_push (ds : List Char) (st : Scan) : ds.foldl Scan.push st =
    ⟨Nat.ofDigitChars 10 ds st.value, st.count + ds.length, st.point,
      if ds = [] then st.prev else .digit, st.invalSep⟩ := by
  induction ds generalizing st with
  | nil => rfl
  | cons c ds ih =>
    rw [List.foldl_cons, ih, Nat.ofDigitChars_cons, List.length_cons]
    simp [Scan.push, mul_comm]
    omega

/-- Digits, a point and more digits are read to the end. -/
theorem scanDigits_point (hds : ∀ c ∈ ds, c.isDigit) (hes : ∀ c ∈ es, c.isDigit) (hd : ds ≠ []) :
    scanDigits 10 true ⟨0, 0, none, .other, false⟩ (ds ++ '.' :: es) =
      (⟨Nat.ofDigitChars 10 (ds ++ es) 0, ds.length + es.length, some ds.length, if es = [] then .other else .digit,
        false⟩, []) := by
  rw [scanDigits_digits true hds, foldl_push, scanDigits, if_pos ⟨rfl, rfl, rfl⟩]
  nth_rewrite 1 [← List.append_nil es]
  rw [scanDigits_digits true hes, foldl_push, Nat.ofDigitChars_append]
  simp [scanDigits, hd]

/-- A leading zero before a digit or a point is a digit like the others. -/
theorem scanPrefix_eq {cs : List Char} (h : ∀ c ∈ cs, c.isDigit ∨ c = '.') : ∃ st rest,
    scanPrefix true cs = (10, false, st, rest) ∧
      scanDigits 10 true st rest = scanDigits 10 true ⟨0, 0, none, .other, false⟩ cs := by
  unfold scanPrefix
  split
  · rename_i c cs
    have hc : c.isDigit ∨ c = '.' := h c (by simp)
    have hno : ∀ d : Char, d.isDigit = false → d ≠ '.' → c ≠ d := by
      rintro d hd hdot rfl
      simp [hd, hdot] at hc
    dsimp only
    rw [if_neg (not_or_intro (hno _ rfl (by decide)) (hno _ rfl (by decide))),
      if_neg (not_or_intro (hno _ rfl (by decide)) (hno _ rfl (by decide))),
      if_neg (not_or_intro (hno _ rfl (by decide)) (hno _ rfl (by decide))), if_pos rfl]
    have hzero : ('0' : Char).isDigit := rfl
    exact ⟨_, _, rfl, (scanDigits_digit true hzero ⟨0, 0, none, .other, false⟩ (c :: cs)).symm⟩
  · exact ⟨_, _, rfl, rfl⟩

theorem isDigit_of_mem_padded {prec d : ℕ} {c : Char} (h : c ∈ padded prec d) : c.isDigit := by
  obtain hc | hc := List.mem_append.mp h
  · rw [(List.mem_replicate.mp hc).2]
    rfl
  · exact Nat.isDigit_of_mem_toDigits (by decide) (by decide) hc

theorem padded_length {prec d : ℕ} (h : prec ≠ 0) (hd : d < 10 ^ prec) : (padded prec d).length = prec := by
  have hle := (Nat.length_toDigits_le_iff (b := 10) (by decide) (Nat.pos_of_ne_zero h)).mpr hd
  rw [padded, List.length_append, List.length_replicate, Nat.sub_add_cancel hle]

theorem ofDigitChars_padded (prec d : ℕ) : Nat.ofDigitChars 10 (padded prec d) 0 = d := by
  rw [padded, Nat.ofDigitChars_append, Nat.ofDigitChars_replicate_zero, mul_zero, Nat.ofDigitChars_ten_toDigits]

theorem mem_decimals {prec n : ℕ} {c : Char} (h : c ∈ decimals prec n) : c.isDigit ∨ c = '.' := by
  obtain hc | hc := List.mem_append.mp h
  · exact .inl (Nat.isDigit_of_mem_toDigits (by decide) (by decide) hc)
  · split at hc
    · cases hc
    · obtain rfl | hc := List.mem_cons.mp hc
      · exact .inr rfl
      · exact .inl (isDigit_of_mem_padded hc)

theorem scan_decimals (prec n : ℕ) : scan true (decimals prec n) = some (⟨n, 10, prec⟩, []) := by
  have hdigits : ∀ c ∈ Nat.toDigits 10 (n / 10 ^ prec), c.isDigit :=
    fun c hc ↦ Nat.isDigit_of_mem_toDigits (by decide) (by decide) hc
  have hpos := Nat.length_toDigits_pos (b := 10) (n := n / 10 ^ prec)
  obtain ⟨st, rest, hprefix, hscan⟩ := scanPrefix_eq fun c (hc : c ∈ decimals prec n) ↦ mem_decimals hc
  rw [scan, hprefix]
  dsimp only
  rw [hscan, decimals]
  by_cases h0 : prec = 0
  · subst h0
    rw [pow_zero, Nat.div_one] at hdigits hpos ⊢
    rw [if_pos rfl, scanDigits_digits true hdigits, foldl_push, scanDigits, Nat.ofDigitChars_ten_toDigits]
    simp [hpos.ne']
  · have hlength : (padded prec (n % 10 ^ prec)).length = prec := padded_length h0 (Nat.mod_lt _ (by positivity))
    have hprev : (if padded prec (n % 10 ^ prec) = [] then Prev.other else .digit) ≠ .sep := by split <;> decide
    have hvalue : Nat.ofDigitChars 10 (Nat.toDigits 10 (n / 10 ^ prec) ++ padded prec (n % 10 ^ prec)) 0 = n := by
      rw [Nat.ofDigitChars_append, Nat.ofDigitChars_ten_toDigits, Nat.ofDigitChars_eq_ofDigitChars_zero, hlength,
        ofDigitChars_padded, Nat.div_add_mod]
    rw [if_neg h0, scanDigits_point hdigits (fun c hc ↦ isDigit_of_mem_padded hc) (List.length_pos_iff.mp hpos), hvalue]
    simp [hprev, hpos.ne', hlength]

theorem decimals_head (prec n : ℕ) : ∃ c cs, decimals prec n = c :: cs ∧ c.isDigit := by
  have hne : Nat.toDigits 10 (n / 10 ^ prec) ≠ [] := List.length_pos_iff.mp Nat.length_toDigits_pos
  obtain ⟨c, cs, hcs⟩ := List.exists_cons_of_ne_nil hne
  rw [decimals, hcs]
  exact ⟨c, _, List.cons_append, Nat.isDigit_of_mem_toDigits (by decide) (by decide) (hcs ▸ List.mem_cons_self)⟩

theorem scanSign_decimals (neg : Bool) (prec n : ℕ) :
    scanSign ((if neg then ['-'] else []) ++ decimals prec n) = (neg, decimals prec n) := by
  cases neg with
  | true => rfl
  | false =>
    obtain ⟨c, cs, hcs, hc⟩ := decimals_head prec n
    rw [hcs]
    unfold scanSign
    split
    · rename_i heq
      cases heq
      cases hc
    · rename_i heq
      cases heq
      cases hc
    · rfl

theorem parseFloat_decimals (neg : Bool) {prec : ℕ} (hprec : prec ≤ 1000000) (n : ℕ) :
    parseFloat ((if neg then ['-'] else []) ++ decimals prec n) =
      some (if neg then -(n / 10 ^ prec : ℚ) else n / 10 ^ prec) := by
  have hscale : scale 10 prec 0 10 = (-(prec : ℤ), -(prec : ℤ)) := by simp [scale]
  have hpow : (n : ℚ) * 5 ^ (-(prec : ℤ)) * 2 ^ (-(prec : ℤ)) = n / 10 ^ prec := by
    rw [zpow_neg, zpow_neg, zpow_natCast, zpow_natCast, mul_assoc, ← mul_inv, ← mul_pow, div_eq_mul_inv]
    norm_num
  have hlimit : ¬ ((-(prec : ℤ)).natAbs > 1000000 ∨ (-(prec : ℤ)).natAbs > 10000000) := by omega
  simp only [parseFloat, scanSign_decimals, scan_decimals, Option.bind_eq_bind, Option.bind_some, scanExponent, hscale,
    hpow, hlimit, ne_eq, not_true, if_false, Option.pure_def]
  by_cases hn : n = 0
  · simp [hn]
  · rw [if_neg hn]

end Read

/-- What is printed reads as the rounded number. -/
theorem setString_floatString {prec : ℕ} (hprec : prec ≤ 1000000) (x : ℚ) :
    setString (floatString prec x) = some (roundTo prec x) := by
  have htext : (floatString prec x).toList =
      (if decide (x < 0) then ['-'] else []) ++ decimals prec (units prec x) := by
    rw [floatString_toList]
    simp
  have hslash : ∀ c ∈ (floatString prec x).toList, decide (c ≠ '/') = true := by
    intro c hc
    rw [htext, List.mem_append] at hc
    rw [decide_eq_true_eq]
    rintro rfl
    obtain hc | hc := hc
    · split at hc <;> simp at hc
    · exact absurd (mem_decimals hc) (by decide)
  have hparse := parseFloat_decimals (decide (x < 0)) hprec (units prec x)
  rw [← htext] at hparse
  have hround : (if decide (x < 0) = true then -(units prec x / 10 ^ prec : ℚ) else units prec x / 10 ^ prec) =
      roundTo prec x := by
    rw [roundTo, floor_eq_units]
    by_cases h : x < 0
    · simp only [h, decide_true, if_true, neg_one_mul, neg_div]
    · simp only [h, decide_false, Bool.false_eq_true, if_false, one_mul]
  rw [hround] at hparse
  rw [setString, List.span_eq_takeWhile_dropWhile, List.takeWhile_eq_self_iff.mpr hslash,
    List.dropWhile_eq_nil_iff.mpr hslash]
  split
  · rename_i hnil
    rw [(Prod.mk.inj hnil).1] at hparse
    exact absurd hparse (by simp [parseFloat, scanSign, scan, scanPrefix, scanDigits])
  · rename_i hcons
    cases (Prod.mk.inj hcons).2
  · rename_i hrest
    rw [← (Prod.mk.inj hrest).1]
    exact hparse

end EventPlatform.BigRat
