import EventPlatform.Relational.Table
import EventPlatform.Margin.Assets
import EventPlatform.Margin.Status

namespace EventPlatform.Margin

open Ethereum BigRat Relational

/-- No evaluation over these assets weighs the collateral of an account below nothing or above its gross value. -/
def CreatesNothing [GoEthereum] (assets : List Asset) : Prop :=
  ∀ (e : Engine) (account : Address) (debtUSD : ℚ) (r : Report), e.cfg.assets = assets → e.Priced account →
    e.evaluate account debtUSD = (r, none) →
    ∃ v, e.totals account = .ok v ∧ 0 ≤ v.weighted ∧ v.weighted ≤ v.gross

/-- The sum of `g` over the assets that pair a token with a price feed. -/
def netOf (assets : List Asset) (g : Asset → ℚ) (token feed : Address) : ℚ :=
  ((assets.filter fun a ↦ (a.token, a.priceFeed) = (token, feed)).map g).sum

/-- What the assets of a token and a feed count together, per base unit and dollar, lies between nothing and their
gross. -/
def NetBounded (assets : List Asset) : Prop :=
  ∀ token feed : Address, 0 ≤ netOf assets (fun a ↦ a.collateralFactor / pow10 a.decimals) token feed ∧
    netOf assets (fun a ↦ a.collateralFactor / pow10 a.decimals) token feed ≤
      netOf assets (fun a ↦ 1 / pow10 a.decimals) token feed

section Grouped

variable {α κ : Type} [DecidableEq κ] {key : α → κ} {b : κ → ℚ} {g : α → ℚ}

theorem sum_filter_add_sum_filter_not (p : α → Bool) (f : α → ℚ) (l : List α) :
    ((l.filter p).map f).sum + ((l.filter fun a ↦ !p a).map f).sum = (l.map f).sum := by
  rw [← List.sum_append, ← List.map_append]
  exact ((List.filter_append_perm p l).map f).sum_eq

/-- A sum that is weighted by groups is not negative when no group is. -/
theorem sum_mul_nonneg (l : List α) (hb : ∀ a ∈ l, 0 ≤ b (key a))
    (hg : ∀ k, 0 ≤ ((l.filter fun a ↦ key a = k).map g).sum) : 0 ≤ (l.map fun a ↦ b (key a) * g a).sum := by
  -- by induction on the length, taking out one whole group at a time
  induction hn : l.length using Nat.strong_induction_on generalizing l with
  | _ n ih =>
    cases l with
    | nil => simp
    | cons a l =>
      have hgroup : 0 ≤ (((a :: l).filter fun x ↦ key x = key a).map fun x ↦ b (key x) * g x).sum := by
        have hconst : ((a :: l).filter fun x ↦ key x = key a).map (fun x ↦ b (key x) * g x) =
            ((a :: l).filter fun x ↦ key x = key a).map fun x ↦ b (key a) * g x := by
          refine List.map_congr_left fun x hx ↦ ?_
          rw [of_decide_eq_true (List.mem_filter.mp hx).2]
        rw [hconst, List.sum_map_mul_left]
        exact mul_nonneg (hb a List.mem_cons_self) (hg _)
      have hrest : 0 ≤ (((a :: l).filter fun x ↦ !decide (key x = key a)).map fun x ↦ b (key x) * g x).sum := by
        refine ih _ ?_ _ (fun x hx ↦ hb x (List.mem_filter.mp hx).1) (fun k ↦ ?_) rfl
        · rw [← hn]
          simpa using Nat.lt_succ_of_le (List.length_filter_le _ l)
        · rw [List.filter_filter]
          by_cases hk : k = key a
          · simp [hk]
          · have hsame : (a :: l).filter (fun x ↦ decide (key x = k) && !decide (key x = key a)) =
                (a :: l).filter fun x ↦ key x = k := by
              refine List.filter_congr fun x _ ↦ ?_
              by_cases hx : key x = k
              · simp [hx, hk]
              · simp [hx]
            rw [hsame]
            exact hg k
      rw [← sum_filter_add_sum_filter_not fun x ↦ decide (key x = key a)]
      exact add_nonneg hgroup hrest

end Grouped

namespace Engine

variable {e : Engine} {account : Address}

/-- The price of one base unit of a token times its balance, before the decimals of the asset. -/
def stake (e : Engine) (account : Address) (k : Address × Address) : ℚ :=
  match e.reader k.1 account, e.oracle k.2 with
  | .ok b, .ok p => b * p.rat
  | _, _ => 0

theorem worth_eq_stake {a : Asset} (h : ∃ r, e.read account a = .ok r) :
    e.worth account a = e.stake account (a.token, a.priceFeed) * (1 / pow10 a.decimals) := by
  obtain ⟨hb, hc⟩ | ⟨b, p, hb, -, hp, hc⟩ := read_cases h
  · simp only [worth, hc, stake, hb]
    cases e.oracle a.priceFeed <;> simp
  · simp only [worth, hc, stake, hb, hp, Option.elim, Asset.worth]
    ring

theorem stake_nonneg (hp : e.Priced account) {a : Asset} (ha : a ∈ e.cfg.assets) :
    0 ≤ e.stake account (a.token, a.priceFeed) := by
  unfold stake
  split
  · rename_i b p hb hpr
    exact mul_nonneg (by exact_mod_cast (hp a ha).1 b hb) (Price.rat_pos ((hp a ha).2 p hpr)).le
  · exact le_rfl

/-- The totals weighed by `g` in place of the collateral factor. -/
theorem sum_worth_mul (g : Asset → ℚ) (h : ∀ a ∈ e.cfg.assets, ∃ r, e.read account a = .ok r) :
    (e.cfg.assets.map fun a ↦ e.worth account a * g a).sum =
      (e.cfg.assets.map fun a ↦ e.stake account (a.token, a.priceFeed) * (g a / pow10 a.decimals)).sum := by
  refine congrArg List.sum (List.map_congr_left fun a ha ↦ ?_)
  rw [worth_eq_stake (h a ha)]
  ring

/-- One base unit of a token, at the price `n + 1` on one feed and `1` on all others. -/
def probe (assets : List Asset) (token feed : Address) (n : ℕ) : Engine where
  reader t _ := .ok (if t = token then 1 else 0)
  oracle f := .ok ⟨if f = feed then n + 1 else 1, 0⟩
  cfg := ⟨assets, 0, 0⟩

theorem probe_priced (assets : List Asset) (token feed : Address) (n : ℕ) :
    (probe assets token feed n).Priced account := by
  intro a _
  refine ⟨fun b hb ↦ ?_, fun p hp ↦ ?_⟩
  · cases hb
    split <;> decide
  · cases hp
    dsimp only
    split <;> omega

theorem probe_read (assets : List Asset) (token feed : Address) (n : ℕ) (a : Asset) :
    ∃ r, (probe assets token feed n).read account a = .ok r :=
  read_ok_iff.mpr ⟨_, rfl, fun _ ↦ ⟨_, rfl⟩⟩

theorem probe_totals (assets : List Asset) (token feed : Address) (n : ℕ) (account : Address) :
    (probe assets token feed n).totals account =
    .ok ((probe assets token feed n).valuation account assets ⟨0, 0, []⟩) :=
  totals_eq_ok_iff.mpr ⟨fun a _ ↦ probe_read assets token feed n a, rfl⟩

theorem probe_sum (assets : List Asset) (token feed : Address) (n : ℕ) (g : Asset → ℚ) :
    (assets.map fun a ↦ (probe assets token feed n).worth account a * g a).sum =
      (n + 1) * netOf assets (fun a ↦ g a / pow10 a.decimals) token feed +
      ((assets.filter fun a ↦ a.token = token ∧ a.priceFeed ≠ feed).map fun a ↦ g a / pow10 a.decimals).sum := by
  have hworth (a : Asset) : (probe assets token feed n).worth account a * g a =
      if a.token = token then
        (if a.priceFeed = feed then (n + 1) * (g a / pow10 a.decimals) else g a / pow10 a.decimals)
      else 0 := by
    rw [worth_eq_stake (probe_read assets token feed n a)]
    simp only [stake, probe, Price.rat, pow10]
    split_ifs <;> simp <;> ring
  simp only [hworth, netOf]
  generalize assets = l
  induction l with
  | nil => simp
  | cons a l ih =>
    rw [List.map_cons, List.sum_cons, ih]
    by_cases ht : a.token = token <;> by_cases hf : a.priceFeed = feed <;> simp [ht, hf] <;> ring

end Engine

/-- A sum that stays non-negative however much one part of it is scaled up. -/
theorem nonneg_of_scaled {x y : ℚ} (h : ∀ n : ℕ, 0 ≤ (n + 1) * x + y) : 0 ≤ x := by
  by_contra hx
  rw [not_le] at hx
  obtain ⟨n, hn⟩ := exists_nat_gt (y / -x)
  have hy : y < n * -x := (div_lt_iff₀ (neg_pos.mpr hx)).mp hn
  have hn' := h n
  linarith

/-- The gross total is the weighted one and what the haircuts take off. -/
theorem Engine.sum_worth (e : Engine) (account : Address) (assets : List Asset) : (assets.map (e.worth account)).sum =
    (assets.map fun a ↦ e.worth account a * a.collateralFactor).sum +
    (assets.map fun a ↦ e.worth account a * (1 - a.collateralFactor)).sum := by
  rw [← List.sum_map_add]
  refine congrArg List.sum (List.map_congr_left fun a _ ↦ ?_)
  ring

theorem netOf_one (assets : List Asset) (token feed : Address) :
    netOf assets (fun a ↦ 1 / pow10 a.decimals) token feed =
    netOf assets (fun a ↦ a.collateralFactor / pow10 a.decimals) token feed +
    netOf assets (fun a ↦ (1 - a.collateralFactor) / pow10 a.decimals) token feed := by
  rw [netOf, netOf, netOf, ← List.sum_map_add]
  refine congrArg List.sum (List.map_congr_left fun a _ ↦ ?_)
  ring

theorem netBounded_iff {assets : List Asset} : NetBounded assets ↔ ∀ token feed : Address,
    0 ≤ netOf assets (fun a ↦ a.collateralFactor / pow10 a.decimals) token feed ∧
    0 ≤ netOf assets (fun a ↦ (1 - a.collateralFactor) / pow10 a.decimals) token feed := by
  simp only [NetBounded, netOf_one, le_add_iff_nonneg_right]

theorem createsNothing_iff [GoEthereum] {assets : List Asset} : CreatesNothing assets ↔ NetBounded assets := by
  rw [netBounded_iff]
  constructor
  · intro h token feed
    have hprobe (n : ℕ) :
        0 ≤ (assets.map fun a ↦ (Engine.probe assets token feed n).worth token a * a.collateralFactor).sum ∧
        0 ≤ (assets.map fun a ↦ (Engine.probe assets token feed n).worth token a * (1 - a.collateralFactor)).sum := by
      have hv := Engine.probe_totals assets token feed n token
      obtain ⟨v, hv', h₀, h₁⟩ := h (.probe assets token feed n) token 0 _ rfl (Engine.probe_priced assets token feed n)
        (Engine.evaluate_of_ok hv)
      obtain rfl := Except.ok.inj (hv.symm.trans hv')
      simp only [Engine.valuation, zero_add, Engine.sum_worth, le_add_iff_nonneg_right] at h₀ h₁
      exact ⟨h₀, h₁⟩
    simp only [Engine.probe_sum] at hprobe
    exact ⟨nonneg_of_scaled fun n ↦ (hprobe n).1, nonneg_of_scaled fun n ↦ (hprobe n).2⟩
  · rintro h e account debtUSD r rfl hp hr
    obtain ⟨v, hv, rfl⟩ := Engine.evaluate_ok_iff.mp hr
    obtain ⟨hreads, rfl⟩ := Engine.totals_eq_ok_iff.mp hv
    have hstake : ∀ a ∈ e.cfg.assets, 0 ≤ e.stake account (a.token, a.priceFeed) := fun a ha ↦ Engine.stake_nonneg hp ha
    refine ⟨_, hv, ?_⟩
    simp only [Engine.valuation, zero_add, Engine.sum_worth, le_add_iff_nonneg_right, Engine.sum_worth_mul _ hreads]
    exact ⟨sum_mul_nonneg _ hstake fun k ↦ (h k.1 k.2).1, sum_mul_nonneg _ hstake fun k ↦ (h k.1 k.2).2⟩

/-- Factors in the documented range are enough. -/
theorem netBounded_of_factors {assets : List Asset}
    (h : ∀ a ∈ assets, 0 ≤ a.collateralFactor ∧ a.collateralFactor ≤ 1) : NetBounded assets := by
  refine netBounded_iff.mpr fun token feed ↦ ⟨List.sum_nonneg fun x hx ↦ ?_, List.sum_nonneg fun x hx ↦ ?_⟩
  · obtain ⟨a, ha, rfl⟩ := List.mem_map.mp hx
    exact div_nonneg (h a (List.mem_filter.mp ha).1).1 (pow10_pos _).le
  · obtain ⟨a, ha, rfl⟩ := List.mem_map.mp hx
    exact div_nonneg (sub_nonneg.mpr (h a (List.mem_filter.mp ha).1).2) (pow10_pos _).le

/-- They are also needed when no two assets share a token and a feed. -/
theorem factors_of_netBounded {assets : List Asset} (hu : (assets.map fun a ↦ (a.token, a.priceFeed)).Nodup)
    (h : NetBounded assets) : ∀ a ∈ assets, 0 ≤ a.collateralFactor ∧ a.collateralFactor ≤ 1 := by
  intro a ha
  let t : Table fun a : Asset ↦ (a.token, a.priceFeed) := ⟨assets, hu⟩
  have hnet (g : Asset → ℚ) : netOf assets g a.token a.priceFeed = g a := by
    have hsel : t.rows.filter (fun x ↦ (x.token, x.priceFeed) = (a.token, a.priceFeed)) = [a] := t.select_key ha
    rw [netOf, hsel, List.map_singleton, List.sum_singleton]
  obtain ⟨h₀, h₁⟩ := h a.token a.priceFeed
  rw [hnet] at h₀ h₁
  rw [hnet] at h₁
  exact ⟨by simpa using (le_div_iff₀ (pow10_pos _)).mp h₀, (div_le_div_iff_of_pos_right (pow10_pos _)).mp h₁⟩

/-- A configuration that counts WETH at one and a half times its value. -/
def overweight : String :=
  "[\x7b\"symbol\":\"WETH\",\"token\":\"0x01\",\"decimals\":18," ++
    "\"collateral_factor\":\"1.5\",\"price_feed\":\"0xf1\"\x7d]"

end EventPlatform.Margin
