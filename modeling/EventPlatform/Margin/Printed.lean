import EventPlatform.BigRat.Rounding
import EventPlatform.Margin.Status

namespace EventPlatform.Margin

open Ethereum BigRat

namespace Engine

variable {e : Engine} {account : Address} {x : ℚ}

theorem roundTo_four_lt_one : roundTo 4 x < 1 ↔ x < 1 - 5 / 100000 := by
  have h := roundTo_lt_iff 4 (x := x) (m := 10000) (by decide)
  norm_num at h ⊢
  exact h

theorem roundTo_four_lt_marginCall : roundTo 4 x < 115 / 100 ↔ x < 115 / 100 - 5 / 100000 := by
  have h := roundTo_lt_iff 4 (x := x) (m := 11500) (by decide)
  norm_num at h ⊢
  exact h

/-- Rounding lifts a health factor over a threshold only from the last half digit below it. -/
theorem status_roundTo (hl : e.cfg.liquidationHF = 1) (hm : e.cfg.marginCallHF = 115 / 100) :
    (e.status (roundTo 4 x)).severity ≤ (e.status x).severity ∧
    (e.status (roundTo 4 x) ≠ e.status x ↔
      1 - 5 / 100000 ≤ x ∧ x < 1 ∨ 115 / 100 - 5 / 100000 ≤ x ∧ x < 115 / 100) := by
  simp only [status, hl, hm, roundTo_four_lt_one, roundTo_four_lt_marginCall]
  rcases lt_or_ge x (1 - 5 / 100000) with h₁ | h₁
  · rw [if_pos h₁, if_pos (show x < 1 by linarith)]
    refine ⟨le_rfl, fun h ↦ absurd rfl h, ?_⟩
    rintro (⟨h, -⟩ | ⟨h, -⟩) <;> linarith
  · rw [if_neg (not_lt.mpr h₁)]
    rcases lt_or_ge x 1 with h₂ | h₂
    · rw [if_pos h₂, if_pos (show x < 115 / 100 - 5 / 100000 by linarith)]
      exact ⟨by decide, fun _ ↦ .inl ⟨h₁, h₂⟩, fun _ ↦ by decide⟩
    · rw [if_neg (not_lt.mpr h₂)]
      rcases lt_or_ge x (115 / 100 - 5 / 100000) with h₃ | h₃
      · rw [if_pos h₃, if_pos (show x < 115 / 100 by linarith)]
        refine ⟨le_rfl, fun h ↦ absurd rfl h, ?_⟩
        rintro (⟨-, h⟩ | ⟨h, -⟩) <;> linarith
      · rw [if_neg (not_lt.mpr h₃)]
        rcases lt_or_ge x (115 / 100) with h₄ | h₄
        · rw [if_pos h₄]
          exact ⟨by decide, fun _ ↦ .inr ⟨h₃, h₄⟩, fun _ ↦ by decide⟩
        · rw [if_neg (not_lt.mpr h₄)]
          refine ⟨le_rfl, fun h ↦ absurd rfl h, ?_⟩
          rintro (⟨-, h⟩ | ⟨-, h⟩) <;> linarith

/-- The health factor as printed never classifies more severely than the status, and differently only in the last half
digit below a threshold. -/
theorem printed_healthFactor [GoEthereum] (e : Engine) (account : Address) (debtUSD : ℚ) (hd : 0 < debtUSD)
    (hl : e.cfg.liquidationHF = 1) (hm : e.cfg.marginCallHF = 115 / 100) (r : Report)
    (hr : e.evaluate account debtUSD = (r, none)) :
    ∃ v printed, e.totals account = .ok v ∧
      setString r.healthFactor = some printed ∧ printed = roundTo 4 (v.weighted / debtUSD) ∧
      r.status = some (e.status (v.weighted / debtUSD)) ∧
      (e.status printed).severity ≤ (e.status (v.weighted / debtUSD)).severity ∧
      (e.status printed ≠ e.status (v.weighted / debtUSD) ↔
        1 - 5 / 100000 ≤ v.weighted / debtUSD ∧ v.weighted / debtUSD < 1 ∨
        115 / 100 - 5 / 100000 ≤ v.weighted / debtUSD ∧ v.weighted / debtUSD < 115 / 100) := by
  obtain ⟨v, hv, rfl⟩ := evaluate_ok_iff.mp hr
  obtain ⟨hsevere, hdiffer⟩ := status_roundTo (x := v.weighted / debtUSD) hl hm
  refine ⟨v, _, hv, ?_, rfl, ?_, hsevere, hdiffer⟩
  · rw [report, if_neg (not_le.mpr hd)]
    exact setString_floatString (by decide) _
  · exact congrArg some (if_neg (not_le.mpr hd))

/-- The lines of a report and the exact values that they print. -/
theorem position_parts (e : Engine) (account : Address) (assets : List Asset) : ∃ parts : List (ℚ × ℚ),
    (assets.filterMap (e.position account)).map (fun p ↦ (p.valueUSD, p.weightedUSD)) =
      parts.map (fun q ↦ (floatString 2 q.1, floatString 2 q.2)) ∧
    (assets.map (e.worth account)).sum = (parts.map Prod.fst).sum ∧
    (assets.map fun a ↦ e.worth account a * a.collateralFactor).sum = (parts.map Prod.snd).sum := by
  induction assets with
  | nil => exact ⟨[], rfl, rfl, rfl⟩
  | cons a assets ih =>
    obtain ⟨parts, hlines, hgross, hweighted⟩ := ih
    cases hc : e.counted account a with
    | none =>
      have hposition : e.position account a = none := by rw [position, hc, Option.map_none]
      have hworth : e.worth account a = 0 := by rw [worth, hc, Option.elim_none]
      refine ⟨parts, ?_, ?_, ?_⟩
      · rw [List.filterMap_cons_none hposition, hlines]
      · rw [List.map_cons, List.sum_cons, hworth, zero_add, hgross]
      · rw [List.map_cons, List.sum_cons, hworth, zero_mul, zero_add, hweighted]
    | some h =>
      have hposition : e.position account a = some (a.position h.1 h.2) := by rw [position, hc, Option.map_some]
      have hworth : e.worth account a = a.worth h.1 h.2 := by rw [worth, hc, Option.elim_some]
      refine ⟨(a.worth h.1 h.2, a.worth h.1 h.2 * a.collateralFactor) :: parts, ?_, ?_, ?_⟩
      · rw [List.filterMap_cons_some hposition, List.map_cons, hlines]
        rfl
      · rw [List.map_cons, List.sum_cons, hworth, hgross, List.map_cons, List.sum_cons]
      · rw [List.map_cons, List.sum_cons, hworth, hweighted, List.map_cons, List.sum_cons]

/-- A report adds up: the totals are the exact sums over all configured assets, rounded once, and the lines sum up to
them within half a cent for each line and one more for the total. -/
theorem printed_adds_up [GoEthereum] (e : Engine) (account : Address) (debtUSD : ℚ) (bal : Address → ℤ)
    (price : Address → Price) (hbal : ∀ t b, e.reader t account = .ok b → bal t = b)
    (hprice : ∀ f p, e.oracle f = .ok p → price f = p) (r : Report) (hr : e.evaluate account debtUSD = (r, none)) :
    ∃ v gross weighted values weights, e.totals account = .ok v ∧
      v.gross = (e.cfg.assets.map fun a ↦ (bal a.token * (price a.priceFeed).value : ℚ) /
        10 ^ (a.decimals.toNat + (price a.priceFeed).decimals.toNat)).sum ∧
      v.weighted = (e.cfg.assets.map fun a ↦ (bal a.token * (price a.priceFeed).value * a.collateralFactor : ℚ) /
        10 ^ (a.decimals.toNat + (price a.priceFeed).decimals.toNat)).sum ∧
      setString r.grossCollateralUSD = some gross ∧ setString r.weightedCollateralUSD = some weighted ∧
      r.positions.map (fun p ↦ setString p.valueUSD) = List.map some values ∧
      r.positions.map (fun p ↦ setString p.weightedUSD) = List.map some weights ∧
      |gross - values.sum| ≤ (r.positions.length + 1) / 2 / 100 ∧
      |weighted - weights.sum| ≤ (r.positions.length + 1) / 2 / 100 ∧
      |gross - v.gross| ≤ 1 / 2 / 100 ∧ |weighted - v.weighted| ≤ 1 / 2 / 100 := by
  obtain ⟨v, hv, rfl⟩ := evaluate_ok_iff.mp hr
  obtain ⟨hexact, hexact'⟩ := totals_exact hv hbal hprice
  obtain ⟨-, rfl⟩ := totals_eq_ok_iff.mp hv
  obtain ⟨parts, hlines, hgross, hweighted⟩ := position_parts e account e.cfg.assets
  have hread (y : ℚ) : setString (floatString 2 y) = some (roundTo 2 y) := setString_floatString (by decide) y
  have hpositions : (e.report account debtUSD (e.valuation account e.cfg.assets ⟨0, 0, []⟩)).positions =
      e.cfg.assets.filterMap (e.position account) := rfl
  have htotals : (e.valuation account e.cfg.assets ⟨0, 0, []⟩).gross = (parts.map Prod.fst).sum ∧
      (e.valuation account e.cfg.assets ⟨0, 0, []⟩).weighted = (parts.map Prod.snd).sum := by
    simp only [valuation, zero_add]
    exact ⟨hgross, hweighted⟩
  have hlength : (e.cfg.assets.filterMap (e.position account)).length = parts.length := by
    simpa using congrArg List.length hlines
  have hsum (l : List ℚ) (hl : l.length = parts.length) :
      |roundTo 2 l.sum - (l.map (roundTo 2)).sum| ≤ (parts.length + 1) / 2 / 100 := by
    have h := abs_roundTo_sum_sub_le 2 l
    rw [hl, ← div_div] at h
    norm_num at h ⊢
    exact h
  have hclose (y : ℚ) : |roundTo 2 y - y| ≤ 1 / 2 / 100 := by
    have h := abs_roundTo_sub_le 2 y
    norm_num at h ⊢
    exact h
  refine ⟨_, _, _, (parts.map Prod.fst).map (roundTo 2), (parts.map Prod.snd).map (roundTo 2), hv, hexact, hexact',
    hread _, hread _, ?_, ?_, ?_, ?_, hclose _, hclose _⟩
  · have h := congrArg (List.map fun t ↦ setString t.1) hlines
    rw [hpositions]
    simpa [Function.comp_def, hread] using h
  · have h := congrArg (List.map fun t ↦ setString t.2) hlines
    rw [hpositions]
    simpa [Function.comp_def, hread] using h
  · rw [hpositions, hlength, htotals.1]
    exact hsum _ (List.length_map _)
  · rw [hpositions, hlength, htotals.2]
    exact hsum _ (List.length_map _)

end Engine

section TestEngine

/-- A debt just above the collateral: the report reads 1.0000 and is liquidatable. -/
theorem printed_healthFactor_band :
    letI := plainEthereum
    let e := testEngine twoBalances (8 / 10) (9 / 10)
    let r := (e.evaluate acct (62500000 / 24999)).1
    (r.healthFactor, r.status) = ("1.0000", some .liquidatable) ∧
    ∃ v printed, e.totals acct = .ok v ∧ setString r.healthFactor = some printed ∧
      (e.status printed).severity ≤ (e.status (v.weighted / (62500000 / 24999))).severity := by
  let := plainEthereum
  let e := testEngine twoBalances (8 / 10) (9 / 10)
  have hr : e.evaluate acct (62500000 / 24999) = ((e.evaluate acct (62500000 / 24999)).1, none) :=
    Prod.ext rfl (by decide +kernel)
  obtain ⟨v, printed, hv, hprinted, -, -, hsevere, -⟩ :=
    e.printed_healthFactor acct (62500000 / 24999) (by norm_num) rfl rfl _ hr
  exact ⟨by decide +kernel, v, printed, hv, hprinted, hsevere⟩

theorem printed_adds_up_testEngine :
    letI := plainEthereum
    let e := testEngine twoBalances (8 / 10) (9 / 10)
    let r := (e.evaluate acct 2000).1
    (r.grossCollateralUSD, r.positions.map Position.valueUSD) = ("3000.00", ["2000.00", "1000.00"]) ∧
    (r.weightedCollateralUSD, r.positions.map Position.weightedUSD) = ("2500.00", ["1600.00", "900.00"]) ∧
    ∃ v gross weighted values weights, e.totals acct = .ok v ∧ v.gross = 3000 ∧ v.weighted = 2500 ∧
      setString r.grossCollateralUSD = some gross ∧ setString r.weightedCollateralUSD = some weighted ∧
      r.positions.map (fun p ↦ setString p.valueUSD) = List.map some values ∧
      r.positions.map (fun p ↦ setString p.weightedUSD) = List.map some weights ∧
      |gross - values.sum| ≤ (r.positions.length + 1) / 2 / 100 ∧
      |weighted - weights.sum| ≤ (r.positions.length + 1) / 2 / 100 ∧
      |gross - 3000| ≤ 1 / 2 / 100 ∧ |weighted - 2500| ≤ 1 / 2 / 100 := by
  let := plainEthereum
  let e := testEngine twoBalances (8 / 10) (9 / 10)
  have hr : e.evaluate acct 2000 = ((e.evaluate acct 2000).1, none) := Prod.ext rfl (by decide +kernel)
  obtain ⟨v, gross, weighted, values, weights, hv, hg, hw, hgross, hweighted, hvalues, hweights, hsum, hsum', hclose,
    hclose'⟩ := e.printed_adds_up acct 2000 twoBalances testPrice (fun t b h ↦ by cases h; rfl) testEngine_oracle _ hr
  have hg : v.gross = 3000 := hg.trans (by decide +kernel)
  have hw : v.weighted = 2500 := hw.trans (by decide +kernel)
  rw [hg] at hclose
  rw [hw] at hclose'
  exact ⟨by decide +kernel, by decide +kernel, v, gross, weighted, values, weights, hv, hg, hw, hgross, hweighted,
    hvalues, hweights, hsum, hsum', hclose, hclose'⟩

end TestEngine

end EventPlatform.Margin
