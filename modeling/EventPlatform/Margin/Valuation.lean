import EventPlatform.Margin.Engine

namespace EventPlatform.Margin

open Ethereum BigRat

def Asset.worth (a : Asset) (bal : ℤ) (price : Price) : ℚ := bal / pow10 a.decimals * price.rat

def Asset.position (a : Asset) (bal : ℤ) (price : Price) : Position where
  symbol := a.symbol
  balanceRaw := toString bal
  priceUSD := floatString 2 price.rat
  valueUSD := floatString 2 (a.worth bal price)
  collateralFactor := floatString 2 a.collateralFactor
  weightedUSD := floatString 2 (a.worth bal price * a.collateralFactor)

namespace Engine

variable (e : Engine) (account : Address)

/-- The reads that the loop makes for one asset. An empty holding has no price. -/
def read (a : Asset) : Except String (Option (ℤ × Price)) := do
  let bal ← (e.reader a.token account).mapError ("balance " ++ a.symbol ++ ": " ++ ·)
  if bal = 0 then
    return none
  else
    let price ← (e.oracle a.priceFeed).mapError ("price " ++ a.symbol ++ ": " ++ ·)
    return some (bal, price)

/-- The balance and the price with which an asset enters the totals. -/
def counted (a : Asset) : Option (ℤ × Price) := (e.read account a).toOption.join

def worth (a : Asset) : ℚ := (e.counted account a).elim 0 fun h ↦ a.worth h.1 h.2

def position (a : Asset) : Option Position := (e.counted account a).map fun h ↦ a.position h.1 h.2

/-- The valuation of a list of assets, added to `v`. -/
def valuation (assets : List Asset) (v : Valuation) : Valuation where
  gross := v.gross + (assets.map (e.worth account)).sum
  weighted := v.weighted + (assets.map fun a ↦ e.worth account a * a.collateralFactor).sum
  positions := v.positions ++ assets.filterMap (e.position account)

variable {e account}

/-- What an asset can do to the loop: stop it at a failed read, pass unseen, or be added. -/
theorem value_cons (a : Asset) (assets : List Asset) (v : Valuation) :
    e.value account (a :: assets) v = match e.read account a with
      | .error err => .error err
      | .ok none => e.value account assets v
      | .ok (some (bal, p)) => e.value account assets
          ⟨v.gross + a.worth bal p, v.weighted + a.worth bal p * a.collateralFactor,
            v.positions ++ [a.position bal p]⟩ := by
  rw [value, read]
  cases e.reader a.token account with
  | error err => rfl
  | ok bal =>
    by_cases h0 : bal = 0
    · simp [Except.mapError, bind, Except.bind, h0, pure, Except.pure]
    · cases e.oracle a.priceFeed with
      | error err => simp [Except.mapError, bind, Except.bind, h0]
      | ok p => simp [Except.mapError, bind, Except.bind, h0, pure, Except.pure, Asset.worth, Asset.position]

theorem read_ok_iff {a : Asset} : (∃ r, e.read account a = .ok r) ↔
    ∃ bal, e.reader a.token account = .ok bal ∧ (bal ≠ 0 → ∃ p, e.oracle a.priceFeed = .ok p) := by
  unfold read
  cases e.reader a.token account with
  | error err => simp [Except.mapError, bind, Except.bind]
  | ok bal =>
    by_cases h0 : bal = 0
    · simp [Except.mapError, bind, Except.bind, h0, pure, Except.pure]
    · cases e.oracle a.priceFeed with
      | error err => simp [Except.mapError, bind, Except.bind, h0]
      | ok p => simp [Except.mapError, bind, Except.bind, h0, pure, Except.pure]

/-- What the error of a read says, and of which asset. -/
theorem read_error_cases {a : Asset} {err : String} (h : e.read account a = .error err) :
    (∃ text, e.reader a.token account = .error text ∧ err = "balance " ++ a.symbol ++ ": " ++ text) ∨
    ∃ bal text, e.reader a.token account = .ok bal ∧ bal ≠ 0 ∧ e.oracle a.priceFeed = .error text ∧
      err = "price " ++ a.symbol ++ ": " ++ text := by
  unfold read at h
  cases hb : e.reader a.token account with
  | error text =>
    rw [hb] at h
    cases h
    exact .inl ⟨text, rfl, rfl⟩
  | ok bal =>
    rw [hb] at h
    by_cases h0 : bal = 0
    · simp [Except.mapError, bind, Except.bind, h0, pure, Except.pure] at h
    · cases hp : e.oracle a.priceFeed with
      | error text =>
        simp only [Except.mapError, bind, Except.bind, h0, hp, if_false, Except.error.injEq] at h
        exact .inr ⟨bal, text, rfl, h0, rfl, h.symm⟩
      | ok p => simp [Except.mapError, bind, Except.bind, h0, hp, pure, Except.pure] at h

theorem read_of_empty {a : Asset} (h : e.reader a.token account = .ok 0) : e.read account a = .ok none := by
  rw [read, h]
  rfl

/-- The reads of an asset that did not stop the loop. -/
theorem read_cases {a : Asset} (h : ∃ r, e.read account a = .ok r) :
    (e.reader a.token account = .ok 0 ∧ e.counted account a = none) ∨
    ∃ bal p, e.reader a.token account = .ok bal ∧ bal ≠ 0 ∧ e.oracle a.priceFeed = .ok p ∧
      e.counted account a = some (bal, p) := by
  obtain ⟨bal, hb, hp⟩ := read_ok_iff.mp h
  by_cases h0 : bal = 0
  · subst h0
    exact .inl ⟨hb, by simp [counted, read_of_empty hb, Except.toOption]⟩
  · obtain ⟨p, hp⟩ := hp h0
    refine .inr ⟨bal, p, hb, h0, hp, ?_⟩
    simp [counted, read, hb, hp, h0, Except.mapError, bind, Except.bind, pure, Except.pure, Except.toOption]

/-- The loop succeeds when all its reads do, and then adds up every asset. -/
theorem value_eq_ok_iff {assets : List Asset} {v v' : Valuation} : e.value account assets v = .ok v' ↔
    (∀ a ∈ assets, ∃ r, e.read account a = .ok r) ∧ v' = e.valuation account assets v := by
  induction assets generalizing v with
  | nil => simp [value, valuation, eq_comm]
  | cons a assets ih =>
    rw [value_cons, List.forall_mem_cons]
    cases hr : e.read account a with
    | error err => simp
    | ok r =>
      have hc : e.counted account a = r := by simp [counted, hr, Except.toOption]
      cases r with
      | none => simp [ih, valuation, worth, position, hc]
      | some h => simp [ih, valuation, worth, position, hc, add_assoc]

/-- The loop fails at the first read that does. -/
theorem read_of_value_error {assets : List Asset} {v : Valuation} {err : String}
    (h : e.value account assets v = .error err) : ∃ l₁ a l₂, assets = l₁ ++ a :: l₂ ∧
      (∀ x ∈ l₁, ∃ r, e.read account x = .ok r) ∧ e.read account a = .error err := by
  induction assets generalizing v with
  | nil => cases h
  | cons a assets ih =>
    rw [value_cons] at h
    cases hr : e.read account a with
    | error err' =>
      rw [hr] at h
      cases h
      exact ⟨[], a, assets, rfl, by simp, hr⟩
    | ok x =>
      have hrest : ∃ u, e.value account assets u = .error err := by
        rw [hr] at h
        cases x with
        | none => exact ⟨_, h⟩
        | some y => exact ⟨_, h⟩
      obtain ⟨u, hu⟩ := hrest
      obtain ⟨l₁, c, l₂, rfl, hl₁, hc⟩ := ih hu
      exact ⟨a :: l₁, c, l₂, rfl, List.forall_mem_cons.mpr ⟨⟨x, hr⟩, hl₁⟩, hc⟩

theorem value_insert {l₁ l₂ : List Asset} {a : Asset} (h : e.reader a.token account = .ok 0) (v : Valuation) :
    e.value account (l₁ ++ a :: l₂) v = e.value account (l₁ ++ l₂) v := by
  induction l₁ generalizing v with
  | nil => rw [List.nil_append, List.nil_append, value_cons, read_of_empty h]
  | cons b l₁ ih =>
    rw [List.cons_append, List.cons_append, value_cons, value_cons]
    cases e.read account b with
    | error err => rfl
    | ok r =>
      cases r with
      | none => exact ih v
      | some x => exact ih _

theorem valuation_perm {assets assets' : List Asset} (h : assets.Perm assets') (v : Valuation) :
    (e.valuation account assets v).gross = (e.valuation account assets' v).gross ∧
    (e.valuation account assets v).weighted = (e.valuation account assets' v).weighted := by
  simp only [valuation]
  exact ⟨by rw [(h.map _).sum_eq], by rw [(h.map _).sum_eq]⟩

def report [GoEthereum] (e : Engine) (account : Address) (debtUSD : ℚ) (v : Valuation) : Report where
  account := GoEthereum.addressHex account
  grossCollateralUSD := floatString 2 v.gross
  weightedCollateralUSD := floatString 2 v.weighted
  debtUSD := floatString 2 debtUSD
  healthFactor := if debtUSD ≤ 0 then "n/a" else floatString 4 (v.weighted / debtUSD)
  status := some (if debtUSD ≤ 0 then .healthy else e.status (v.weighted / debtUSD))
  positions := v.positions

def withAssets (e : Engine) (assets : List Asset) : Engine := { e with cfg := { e.cfg with assets } }

theorem value_withAssets (l assets : List Asset) (v : Valuation) :
    (e.withAssets l).value account assets v = e.value account assets v := by
  induction assets generalizing v with
  | nil => rfl
  | cons a assets ih =>
    rw [value_cons, value_cons, show (e.withAssets l).read account a = e.read account a from rfl]
    cases e.read account a with
    | error err => rfl
    | ok r =>
      cases r with
      | none => exact ih v
      | some x => exact ih _

theorem totals_eq_ok_iff {v : Valuation} : e.totals account = .ok v ↔
    (∀ a ∈ e.cfg.assets, ∃ r, e.read account a = .ok r) ∧ v = e.valuation account e.cfg.assets ⟨0, 0, []⟩ :=
  value_eq_ok_iff

theorem totals_withAssets (l : List Asset) : (e.withAssets l).totals account = e.value account l ⟨0, 0, []⟩ :=
  value_withAssets l l _

section Evaluate

variable [GoEthereum] {debtUSD : ℚ}

theorem evaluate_of_ok {v : Valuation} (h : e.totals account = .ok v) :
    e.evaluate account debtUSD = (e.report account debtUSD v, none) := by
  rw [evaluate, h]
  dsimp only
  split
  · rename_i hd
    simp [report, hd]
  · rename_i hd
    simp [report, hd]

theorem evaluate_of_error {err : String} (h : e.totals account = .error err) :
    e.evaluate account debtUSD = (.zero, some err) := by
  rw [evaluate, h]

theorem evaluate_eq_none_iff : (e.evaluate account debtUSD).2 = none ↔ ∃ v, e.totals account = .ok v := by
  cases ht : e.totals account with
  | error err => simp [evaluate_of_error ht]
  | ok v => simp [evaluate_of_ok ht]

theorem evaluate_ok_iff {r : Report} : e.evaluate account debtUSD = (r, none) ↔
    ∃ v, e.totals account = .ok v ∧ r = e.report account debtUSD v := by
  cases ht : e.totals account with
  | error err => simp [evaluate_of_error ht]
  | ok v => simp [evaluate_of_ok ht, eq_comm]

/-- A report is returned exactly when every read that the assets call for succeeds; it does not depend on their order,
and an asset that the account does not hold leaves it as it is. -/
theorem evaluate_reads (e : Engine) (account : Address) (debtUSD : ℚ) :
    ((e.evaluate account debtUSD).2 = none ↔ ∀ a ∈ e.cfg.assets, ∃ bal, e.reader a.token account = .ok bal ∧
      (bal ≠ 0 → ∃ p, e.oracle a.priceFeed = .ok p)) ∧
    ((e.evaluate account debtUSD).2 ≠ none → (e.evaluate account debtUSD).1 = .zero) ∧
    (∀ assets, e.cfg.assets.Perm assets →
      ((e.evaluate account debtUSD).2 = none ↔ ((e.withAssets assets).evaluate account debtUSD).2 = none) ∧
      ((e.evaluate account debtUSD).2 = none →
        let r := (e.evaluate account debtUSD).1
        let r' := ((e.withAssets assets).evaluate account debtUSD).1
        r'.account = r.account ∧ r'.grossCollateralUSD = r.grossCollateralUSD ∧
        r'.weightedCollateralUSD = r.weightedCollateralUSD ∧ r'.debtUSD = r.debtUSD ∧
        r'.healthFactor = r.healthFactor ∧ r'.status = r.status ∧
        r.positions = e.cfg.assets.filterMap (e.position account) ∧
        r'.positions = assets.filterMap (e.position account))) ∧
    (∀ l₁ l₂ a, e.cfg.assets = l₁ ++ l₂ → e.reader a.token account = .ok 0 →
      (e.withAssets (l₁ ++ a :: l₂)).evaluate account debtUSD = e.evaluate account debtUSD) := by
  have hok (assets : List Asset) : ((e.withAssets assets).evaluate account debtUSD).2 = none ↔
      ∀ a ∈ assets, ∃ r, e.read account a = .ok r := by
    simp only [evaluate_eq_none_iff, totals_withAssets, value_eq_ok_iff, exists_and_left, exists_eq, and_true]
  refine ⟨?_, ?_, ?_, ?_⟩
  · simp only [← read_ok_iff]
    exact hok e.cfg.assets
  · intro h
    cases ht : e.totals account with
    | error err => rw [evaluate_of_error ht]
    | ok v => simp [evaluate_of_ok ht] at h
  · intro assets hperm
    have hsame : (∀ a ∈ e.cfg.assets, ∃ r, e.read account a = .ok r) ↔ ∀ a ∈ assets, ∃ r, e.read account a = .ok r := by
      simp only [hperm.mem_iff]
    refine ⟨(hok _).trans (hsame.trans (hok _).symm), fun h ↦ ?_⟩
    have hreads := (hok e.cfg.assets).mp h
    have hgross : (e.valuation account assets ⟨0, 0, []⟩).gross = (e.valuation account e.cfg.assets ⟨0, 0, []⟩).gross :=
      (valuation_perm hperm.symm _).1
    have hweighted : (e.valuation account assets ⟨0, 0, []⟩).weighted =
        (e.valuation account e.cfg.assets ⟨0, 0, []⟩).weighted := (valuation_perm hperm.symm _).2
    rw [evaluate_of_ok (totals_eq_ok_iff.mpr ⟨hreads, rfl⟩),
      evaluate_of_ok ((totals_withAssets assets).trans (value_eq_ok_iff.mpr ⟨hsame.mp hreads, rfl⟩))]
    refine ⟨rfl, congrArg (floatString 2) hgross, congrArg (floatString 2) hweighted, rfl, ?_, ?_, rfl, rfl⟩
    · simp only [report, hweighted]
    · simp only [report, hweighted]
      rfl
  · rintro l₁ l₂ a hassets hempty
    have ht : (e.withAssets (l₁ ++ a :: l₂)).totals account = e.totals account := by
      rw [totals_withAssets, value_insert hempty, ← hassets]
      rfl
    cases hv : e.totals account with
    | error err => rw [evaluate_of_error hv, evaluate_of_error (ht.trans hv)]
    | ok v =>
      rw [evaluate_of_ok hv, evaluate_of_ok (ht.trans hv)]
      rfl

end Evaluate

end Engine

end EventPlatform.Margin
