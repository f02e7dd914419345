import EventPlatform.Margin.Valuation

namespace EventPlatform.Margin

open Ethereum BigRat

theorem pow10_pos (n : UInt8) : (0 : ℚ) < pow10 n := by
  rw [pow10]
  positivity

theorem Asset.worth_eq (a : Asset) (bal : ℤ) (p : Price) :
    a.worth bal p = bal * p.value / 10 ^ (a.decimals.toNat + p.decimals.toNat) := by
  rw [worth, Price.rat, pow10, pow10, pow_add]
  push_cast
  rw [div_mul_div_comm]

theorem Price.rat_pos {p : Price} (h : 0 < p.value) : 0 < p.rat :=
  div_pos (by exact_mod_cast h) (pow10_pos _)

theorem Asset.worth_nonneg (a : Asset) {b : ℤ} {p : Price} (hb : 0 ≤ b) (hp : 0 < p.value) : 0 ≤ a.worth b p :=
  mul_nonneg (div_nonneg (by exact_mod_cast hb) (pow10_pos _).le) (Price.rat_pos hp).le

def Status.severity : Status → ℕ
  | .healthy => 0
  | .marginCall => 1
  | .liquidatable => 2

namespace Engine

variable {e : Engine} {account : Address}

theorem worth_eq {a : Asset} (h : ∃ r, e.read account a = .ok r) {bal : Address → ℤ} {price : Address → Price}
    (hbal : ∀ t b, e.reader t account = .ok b → bal t = b) (hprice : ∀ f p, e.oracle f = .ok p → price f = p) :
    e.worth account a = bal a.token * (price a.priceFeed).value /
      10 ^ (a.decimals.toNat + (price a.priceFeed).decimals.toNat) := by
  obtain ⟨hb, hc⟩ | ⟨b, p, hb, -, hp, hc⟩ := read_cases h
  · simp [worth, hc, hbal _ _ hb]
  · rw [worth, hc, hbal _ _ hb, hprice _ _ hp]
    exact a.worth_eq b p

/-- The totals are the exact sums over all configured assets. -/
theorem totals_exact {v : Valuation} (hv : e.totals account = .ok v) {bal : Address → ℤ} {price : Address → Price}
    (hbal : ∀ t b, e.reader t account = .ok b → bal t = b) (hprice : ∀ f p, e.oracle f = .ok p → price f = p) :
    v.gross = (e.cfg.assets.map fun a ↦ (bal a.token * (price a.priceFeed).value : ℚ) /
      10 ^ (a.decimals.toNat + (price a.priceFeed).decimals.toNat)).sum ∧
    v.weighted = (e.cfg.assets.map fun a ↦ (bal a.token * (price a.priceFeed).value * a.collateralFactor : ℚ) /
      10 ^ (a.decimals.toNat + (price a.priceFeed).decimals.toNat)).sum := by
  obtain ⟨hreads, rfl⟩ := totals_eq_ok_iff.mp hv
  simp only [valuation, zero_add]
  refine ⟨congrArg List.sum (List.map_congr_left fun a ha ↦ ?_), congrArg List.sum (List.map_congr_left fun a ha ↦ ?_)⟩
  · exact worth_eq (hreads a ha) hbal hprice
  · rw [worth_eq (hreads a ha) hbal hprice, div_mul_eq_mul_div]

/-- The two thresholds, as comparisons of the collateral with multiples of the debt. -/
theorem status_div {w debt : ℚ} (hd : 0 < debt) : e.status (w / debt) =
    if w < e.cfg.liquidationHF * debt then .liquidatable
    else if w < e.cfg.marginCallHF * debt then .marginCall else .healthy := by
  simp only [status, div_lt_iff₀ hd]

theorem status_iff {w debt : ℚ} (hd : 0 < debt) (hhf : e.cfg.liquidationHF ≤ e.cfg.marginCallHF) :
    (e.status (w / debt) = .liquidatable ↔ w < e.cfg.liquidationHF * debt) ∧
    (e.status (w / debt) = .marginCall ↔ e.cfg.liquidationHF * debt ≤ w ∧ w < e.cfg.marginCallHF * debt) ∧
    (e.status (w / debt) = .healthy ↔ e.cfg.marginCallHF * debt ≤ w) := by
  have hle := mul_le_mul_of_nonneg_right hhf hd.le
  rw [status_div hd]
  split
  · rename_i hl
    refine ⟨by simpa using hl, by simpa using fun h ↦ absurd hl (not_lt.mpr h), ?_⟩
    simpa using hl.trans_le hle
  · rename_i hl
    split
    · rename_i hm
      exact ⟨by simpa using hl, by simpa using ⟨not_lt.mp hl, hm⟩, by simpa using hm⟩
    · rename_i hm
      exact ⟨by simpa using hl, by simpa using fun _ ↦ not_lt.mp hm, by simpa using hm⟩

/-- The totals of a successful evaluation are the exact sums over all configured assets, and the status compares them
with the thresholds exactly: over any common denominator it is decided by comparing integers. -/
theorem status_exact [GoEthereum] (e : Engine) (account : Address) (debtUSD : ℚ) (hd : 0 < debtUSD)
    (hhf : e.cfg.liquidationHF ≤ e.cfg.marginCallHF) (bal : Address → ℤ) (price : Address → Price)
    (hbal : ∀ t b, e.reader t account = .ok b → bal t = b) (hprice : ∀ f p, e.oracle f = .ok p → price f = p)
    (r : Report) (hr : e.evaluate account debtUSD = (r, none)) :
    ∃ v, e.totals account = .ok v ∧
      v.gross = (e.cfg.assets.map fun a ↦ (bal a.token * (price a.priceFeed).value : ℚ) /
        10 ^ (a.decimals.toNat + (price a.priceFeed).decimals.toNat)).sum ∧
      v.weighted = (e.cfg.assets.map fun a ↦ (bal a.token * (price a.priceFeed).value * a.collateralFactor : ℚ) /
        10 ^ (a.decimals.toNat + (price a.priceFeed).decimals.toNat)).sum ∧
      r.grossCollateralUSD = floatString 2 v.gross ∧ r.weightedCollateralUSD = floatString 2 v.weighted ∧
      (r.status = some .liquidatable ↔ v.weighted < e.cfg.liquidationHF * debtUSD) ∧
      (r.status = some .marginCall ↔
        e.cfg.liquidationHF * debtUSD ≤ v.weighted ∧ v.weighted < e.cfg.marginCallHF * debtUSD) ∧
      (r.status = some .healthy ↔ e.cfg.marginCallHF * debtUSD ≤ v.weighted) ∧
      ∀ d w l m : ℤ, 0 < d → v.weighted = w / d → e.cfg.liquidationHF * debtUSD = l / d →
        e.cfg.marginCallHF * debtUSD = m / d →
        (r.status = some .liquidatable ↔ w < l) ∧ (r.status = some .marginCall ↔ l ≤ w ∧ w < m) ∧
        (r.status = some .healthy ↔ m ≤ w) := by
  obtain ⟨v, hv, rfl⟩ := evaluate_ok_iff.mp hr
  obtain ⟨hl, hm, hh⟩ := status_iff (e := e) (w := v.weighted) hd hhf
  have hst (s : Status) : (e.report account debtUSD v).status = some s ↔ e.status (v.weighted / debtUSD) = s := by
    simp [report, not_le.mpr hd]
  obtain ⟨hgross, hweighted⟩ := totals_exact hv hbal hprice
  refine ⟨_, hv, hgross, hweighted, rfl, rfl, (hst _).trans hl, (hst _).trans hm, (hst _).trans hh, ?_⟩
  intro d w l m hd0 hw hl' hm'
  have hd1 : (0 : ℚ) < d := by exact_mod_cast hd0
  have hlt (x y : ℤ) : (x / d : ℚ) < y / d ↔ x < y := by rw [div_lt_div_iff_of_pos_right hd1, Int.cast_lt]
  have hle (x y : ℤ) : (x / d : ℚ) ≤ y / d ↔ x ≤ y := by rw [div_le_div_iff_of_pos_right hd1, Int.cast_le]
  rw [hst, hst, hst, hl, hm, hh, hw, hl', hm', hlt, hlt, hle, hle]
  exact ⟨.rfl, .rfl, .rfl⟩

section Monotone

variable {e₁ e₂ : Engine} {account₁ account₂ : Address}

theorem status_antitone {x y : ℚ} (h : x ≤ y) : (e.status y).severity ≤ (e.status x).severity := by
  unfold status
  by_cases hl : y < e.cfg.liquidationHF
  · rw [if_pos hl, if_pos (h.trans_lt hl)]
  · rw [if_neg hl]
    by_cases hm : y < e.cfg.marginCallHF
    · rw [if_pos hm, if_pos (h.trans_lt hm)]
      split <;> decide
    · rw [if_neg hm]
      exact Nat.zero_le _

/-- Balances that are not negative, at positive prices. -/
def Priced (e : Engine) (account : Address) : Prop :=
  ∀ a ∈ e.cfg.assets, (∀ b, e.reader a.token account = .ok b → 0 ≤ b) ∧
    ∀ p, e.oracle a.priceFeed = .ok p → 0 < p.value

/-- Balances and prices that are read from the chain are of this kind. -/
theorem priced_chain [GoAbi] (caller : ContractCaller) (decimals : UInt8) (cfg : Config) (account : Address) :
    (⟨chainBalanceReader caller, chainlinkOracle caller decimals, cfg⟩ : Engine).Priced account := by
  refine fun a _ ↦ ⟨fun b hb ↦ ?_, fun p hp ↦ ?_⟩
  · obtain ⟨-, -, -, -, n, -, rfl⟩ := chainBalanceReader_eq_ok_iff.mp hb
    exact Int.natCast_nonneg n
  · obtain ⟨-, -, round, -, -, -, hpos, rfl⟩ := chainlinkOracle_eq_ok_iff.mp hp
    exact hpos

theorem worth_nonneg (hp : e.Priced account) {a : Asset} (ha : a ∈ e.cfg.assets) (h : ∃ r, e.read account a = .ok r) :
    0 ≤ e.worth account a := by
  obtain ⟨-, hc⟩ | ⟨b, p, hb, -, hpr, hc⟩ := read_cases h
  · simp [worth, hc]
  · rw [worth, hc]
    exact a.worth_nonneg ((hp a ha).1 b hb) ((hp a ha).2 p hpr)

theorem worth_mono (hcfg : e₂.cfg = e₁.cfg) (hp₁ : e₁.Priced account₁) (hp₂ : e₂.Priced account₂) {a : Asset}
    (ha : a ∈ e₁.cfg.assets)
    (hbal : ∀ b₁ b₂, e₁.reader a.token account₁ = .ok b₁ → e₂.reader a.token account₂ = .ok b₂ → b₁ ≤ b₂)
    (hprice : ∀ p₁ p₂, e₁.oracle a.priceFeed = .ok p₁ → e₂.oracle a.priceFeed = .ok p₂ → p₁.rat ≤ p₂.rat)
    (h₁ : ∃ r, e₁.read account₁ a = .ok r) (h₂ : ∃ r, e₂.read account₂ a = .ok r) :
    e₁.worth account₁ a ≤ e₂.worth account₂ a := by
  have ha' : a ∈ e₂.cfg.assets := hcfg ▸ ha
  obtain ⟨-, hc₁⟩ | ⟨b₁, p₁, hb₁, hne₁, hpr₁, hc₁⟩ := read_cases h₁
  · simpa [worth, hc₁] using worth_nonneg hp₂ ha' h₂
  · have hpos₁ := (hp₁ a ha).1 b₁ hb₁
    obtain ⟨hb₂, -⟩ | ⟨b₂, p₂, hb₂, -, hpr₂, hc₂⟩ := read_cases h₂
    · -- a holding of the first account cannot be empty in the second one
      have hle := hbal b₁ 0 hb₁ hb₂
      exact absurd (le_antisymm hle hpos₁) hne₁
    · rw [worth, worth, hc₁, hc₂]
      have hb : (b₁ : ℚ) ≤ b₂ := by exact_mod_cast hbal b₁ b₂ hb₁ hb₂
      have hb0 : (0 : ℚ) ≤ b₂ := by exact_mod_cast (hp₂ a ha').1 b₂ hb₂
      have hq : (b₁ : ℚ) / pow10 a.decimals ≤ b₂ / pow10 a.decimals := div_le_div_of_nonneg_right hb (pow10_pos _).le
      exact mul_le_mul hq (hprice p₁ p₂ hpr₁ hpr₂) (Price.rat_pos ((hp₁ a ha).2 p₁ hpr₁)).le
        (div_nonneg hb0 (pow10_pos _).le)

/-- More collateral, at no lower prices, against no more debt is worth no less and never ranks more severe. -/
theorem status_monotone [GoEthereum] (e₁ e₂ : Engine) (hcfg : e₂.cfg = e₁.cfg) (account₁ account₂ : Address)
    (hfactor : ∀ a ∈ e₁.cfg.assets, 0 ≤ a.collateralFactor) (hp₁ : e₁.Priced account₁) (hp₂ : e₂.Priced account₂)
    (hbal : ∀ a ∈ e₁.cfg.assets, ∀ b₁ b₂, e₁.reader a.token account₁ = .ok b₁ → e₂.reader a.token account₂ = .ok b₂ →
      b₁ ≤ b₂)
    (hprice : ∀ a ∈ e₁.cfg.assets, ∀ p₁ p₂, e₁.oracle a.priceFeed = .ok p₁ → e₂.oracle a.priceFeed = .ok p₂ →
      p₁.rat ≤ p₂.rat)
    (debt₁ debt₂ : ℚ) (hdebt : debt₂ ≤ debt₁) (r₁ r₂ : Report) (hr₁ : e₁.evaluate account₁ debt₁ = (r₁, none))
    (hr₂ : e₂.evaluate account₂ debt₂ = (r₂, none)) :
    ∃ v₁ v₂ s₁ s₂, e₁.totals account₁ = .ok v₁ ∧ e₂.totals account₂ = .ok v₂ ∧ v₁.gross ≤ v₂.gross ∧
      v₁.weighted ≤ v₂.weighted ∧ r₁.status = some s₁ ∧ r₂.status = some s₂ ∧ s₂.severity ≤ s₁.severity := by
  obtain ⟨v₁, hv₁, rfl⟩ := evaluate_ok_iff.mp hr₁
  obtain ⟨v₂, hv₂, rfl⟩ := evaluate_ok_iff.mp hr₂
  obtain ⟨hreads₁, rfl⟩ := totals_eq_ok_iff.mp hv₁
  obtain ⟨hreads₂, rfl⟩ := totals_eq_ok_iff.mp hv₂
  rw [hcfg] at hreads₂
  have hworth : ∀ a ∈ e₁.cfg.assets, e₁.worth account₁ a ≤ e₂.worth account₂ a := fun a ha ↦
    worth_mono hcfg hp₁ hp₂ ha (hbal a ha) (hprice a ha) (hreads₁ a ha) (hreads₂ a ha)
  have hgross : (e₁.cfg.assets.map (e₁.worth account₁)).sum ≤ (e₁.cfg.assets.map (e₂.worth account₂)).sum :=
    List.sum_le_sum hworth
  have hweighted : (e₁.cfg.assets.map fun a ↦ e₁.worth account₁ a * a.collateralFactor).sum ≤
      (e₁.cfg.assets.map fun a ↦ e₂.worth account₂ a * a.collateralFactor).sum :=
    List.sum_le_sum fun a ha ↦ mul_le_mul_of_nonneg_right (hworth a ha) (hfactor a ha)
  have hpos : 0 ≤ (e₁.cfg.assets.map fun a ↦ e₁.worth account₁ a * a.collateralFactor).sum := by
    refine List.sum_nonneg fun x hx ↦ ?_
    obtain ⟨a, ha, rfl⟩ := List.mem_map.mp hx
    exact mul_nonneg (worth_nonneg hp₁ ha (hreads₁ a ha)) (hfactor a ha)
  refine ⟨_, _, _, _, hv₁, hv₂, ?_, ?_, rfl, rfl, ?_⟩
  · simpa [valuation, hcfg] using hgross
  · simpa [valuation, hcfg] using hweighted
  · by_cases hd₂ : debt₂ ≤ 0
    · rw [if_pos hd₂]
      exact Nat.zero_le _
    · rw [not_le] at hd₂
      have hd₁ := hd₂.trans_le hdebt
      rw [if_neg (not_le.mpr hd₂), if_neg (not_le.mpr hd₁),
        show e₂.status = e₁.status by funext hf; simp [status, hcfg]]
      apply status_antitone
      simp only [valuation, hcfg, zero_add]
      exact div_le_div₀ (hpos.trans hweighted) hweighted hd₂ hdebt

end Monotone

end Engine

section TestEngine

def weth : Address := setBytes 20 [0x01]

def wethFeed : Address := setBytes 20 [0xf1]

def usdc : Address := setBytes 20 [0x02]

def usdcFeed : Address := setBytes 20 [0xf2]

def acct : Address := setBytes 20 [0xaa]

def usdPrice (dollars : ℤ) : Price := ⟨dollars * pow10 8, 8⟩

/-- The engine of the tests: two assets, of 18 and 6 decimals. -/
def testEngine (balances : Address → ℤ) (factorWETH factorUSDC : ℚ) : Engine where
  reader token _ := .ok (balances token)
  oracle feed :=
    if feed = wethFeed then .ok (usdPrice 2000)
    else if feed = usdcFeed then .ok (usdPrice 1)
    else .error "no price for feed"
  cfg :=
    { assets := [⟨"WETH", weth, 18, factorWETH, wethFeed⟩, ⟨"USDC", usdc, 6, factorUSDC, usdcFeed⟩]
      marginCallHF := 115 / 100
      liquidationHF := 1 }

def oneWETH : Address → ℤ := fun token ↦ if token = weth then 10 ^ 18 else 0

def twoBalances : Address → ℤ := fun token ↦ if token = weth then 10 ^ 18 else if token = usdc then 1000 * 10 ^ 6 else 0

/-- Addresses in plain digits, without the checksum in their case. -/
@[reducible] def plainEthereum : GoEthereum := ⟨fun _ ↦ .replicate 32 0, fun a ↦ Hex.encode a.toList⟩

def testPrice (feed : Address) : Price := if feed = wethFeed then usdPrice 2000 else usdPrice 1

variable {balances : Address → ℤ} {x y : ℚ}

theorem testEngine_oracle (f : Address) (p : Price) (h : (testEngine balances x y).oracle f = .ok p) :
    testPrice f = p := by
  simp only [testEngine] at h
  by_cases hf : f = wethFeed
  · rw [if_pos hf] at h
    cases h
    exact if_pos hf
  · rw [if_neg hf] at h
    split at h
    · cases h
      exact if_neg hf
    · cases h

theorem testEngine_priced (h : ∀ t, 0 ≤ balances t) : (testEngine balances x y).Priced acct := by
  intro a _
  refine ⟨fun b hb ↦ ?_, fun p hp ↦ ?_⟩
  · cases hb
    exact h a.token
  · rw [← testEngine_oracle _ p hp, testPrice]
    split <;> decide

theorem status_exact_testEngine :
    letI := plainEthereum
    let e := testEngine twoBalances (8 / 10) (9 / 10)
    ((e.evaluate acct 2000).1.healthFactor, (e.evaluate acct 2000).1.status) = ("1.2500", some .healthy) ∧
    ∃ v, e.totals acct = .ok v ∧ v.gross = 3000 ∧ v.weighted = 2500 := by
  let := plainEthereum
  let e := testEngine twoBalances (8 / 10) (9 / 10)
  have hr : e.evaluate acct 2000 = ((e.evaluate acct 2000).1, none) := Prod.ext rfl (by decide +kernel)
  obtain ⟨v, hv, hg, hw, -⟩ := e.status_exact acct 2000 (by norm_num) (by decide +kernel) twoBalances testPrice
    (fun t b h ↦ by cases h; rfl) testEngine_oracle _ hr
  exact ⟨by decide +kernel, v, hv, hg.trans (by decide +kernel), hw.trans (by decide +kernel)⟩

/-- One WETH alone, and then with a thousand USDC against less debt. -/
theorem status_monotone_testEngine :
    letI := plainEthereum
    let e₁ := testEngine oneWETH (8 / 10) (9 / 10)
    let e₂ := testEngine twoBalances (8 / 10) (9 / 10)
    (e₁.evaluate acct 2000).1.status = some .liquidatable ∧ (e₂.evaluate acct 1900).1.status = some .healthy ∧
    ∃ v₁ v₂, e₁.totals acct = .ok v₁ ∧ e₂.totals acct = .ok v₂ ∧ v₁.weighted ≤ v₂.weighted := by
  let := plainEthereum
  let e₁ := testEngine oneWETH (8 / 10) (9 / 10)
  let e₂ := testEngine twoBalances (8 / 10) (9 / 10)
  have hr₁ : e₁.evaluate acct 2000 = ((e₁.evaluate acct 2000).1, none) := Prod.ext rfl (by decide +kernel)
  have hr₂ : e₂.evaluate acct 1900 = ((e₂.evaluate acct 1900).1, none) := Prod.ext rfl (by decide +kernel)
  have hone (t : Address) : 0 ≤ oneWETH t := by
    unfold oneWETH
    split <;> decide
  have hle (t : Address) : oneWETH t ≤ twoBalances t := by
    unfold oneWETH twoBalances
    by_cases ht : t = weth
    · rw [if_pos ht, if_pos ht]
    · rw [if_neg ht, if_neg ht]
      split <;> decide
  obtain ⟨v₁, v₂, -, -, hv₁, hv₂, -, hw, -⟩ := e₁.status_monotone e₂ rfl acct acct (by decide +kernel)
    (testEngine_priced hone) (testEngine_priced fun t ↦ (hone t).trans (hle t))
    (fun a _ b₁ b₂ h₁ h₂ ↦ by
      cases h₁
      cases h₂
      exact hle a.token)
    (fun a _ p₁ p₂ h₁ h₂ ↦ by rw [← testEngine_oracle _ p₁ h₁, ← testEngine_oracle _ p₂ h₂])
    2000 1900 (by norm_num) _ _ hr₁ hr₂
  exact ⟨by decide +kernel, by decide +kernel, v₁, v₂, hv₁, hv₂, hw⟩

end TestEngine

end EventPlatform.Margin
