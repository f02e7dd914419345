import EventPlatform.Ethereum.Word
import EventPlatform.Http.Mux
import EventPlatform.Httpx.Middleware
import EventPlatform.Margin.Haircut

namespace EventPlatform.Margin

open Ethereum BigRat Http Httpx.Middleware

/-- The query of a URL as `net/url` reads it: the first value of a key, which is empty where there is none. -/
class GoQuery where
  get (rawQuery key : String) : List UInt8

def Status.text : Status → String
  | .healthy => "healthy"
  | .marginCall => "margin_call"
  | .liquidatable => "liquidatable"

def Position.value (p : Position) : Json.Value :=
  .object [("symbol", .string p.symbol), ("balance_raw", .string p.balanceRaw), ("price_usd", .string p.priceUSD),
    ("value_usd", .string p.valueUSD), ("collateral_factor", .string p.collateralFactor),
    ("weighted_usd", .string p.weightedUSD)]

def Report.value (r : Report) : Json.Value :=
  .object [("account", .string r.account), ("gross_collateral_usd", .string r.grossCollateralUSD),
    ("weighted_collateral_usd", .string r.weightedCollateralUSD), ("debt_usd", .string r.debtUSD),
    ("health_factor", .string r.healthFactor), ("status", .string (r.status.elim "" Status.text)),
    ("positions", .array (r.positions.map Position.value))]

/-- The account that a path names. What is not a text has a byte that is no digit. -/
def accountOf (address : List UInt8) : Option Address :=
  (String.fromUTF8? ⟨address.toArray⟩).bind fun s ↦ if isHexAddress s then some (hexToAddress s) else none

/-- The debt that a query states; none is a debt of zero. -/
def debtOf (d : List UInt8) : Option ℚ := if d = [] then some 0 else (String.fromUTF8? ⟨d.toArray⟩).bind setString

section Service

variable [GoEthereum] [GoQuery]

def marginHandler (e : Engine) (address : List UInt8) : Handler := fun r _ ↦
  match accountOf address with
  | none => error 400 "invalid address"
  | some account =>
    match debtOf (GoQuery.get r.url.rawQuery "debt_usd") with
    | none => error 400 "invalid debt_usd"
    | some debt =>
      match e.evaluate account debt with
      | (_, some err) => do
        log (.warn "evaluate failed" err)
        error 502 "could not evaluate margin (chain read failed)"
      | (report, none) => json 200 report.value

inductive Route
  | healthz
  | margin
  deriving DecidableEq

def mux : ServeMux Route :=
  [(⟨some "GET", [.lit (ascii "healthz")]⟩, .healthz), (⟨some "GET", [.lit (ascii "margin"), .wild]⟩, .margin)]

/-- The handler of the service, given what its router answers where there is no route. -/
def handler (e : Engine) (router : Handler) : Handler := fun r ctx ↦
  match mux.route r.method r.url with
  | .handler .healthz _ => json 200 (.object [("status", .string "ok")])
  | .handler .margin wildcards => marginHandler e wildcards.flatten r ctx
  | _ => router r ctx

end Service

def chainEngine [GoAbi] (caller : ContractCaller) (assets : List Asset) : Engine where
  reader := chainBalanceReader caller
  oracle := chainlinkOracle caller 8
  cfg :=
    { assets
      marginCallHF := 115 / 100
      liquidationHF := 100 / 100 }

/-- What the chain says of an account and an asset: the balance, and the last answer of the price feed. The feed of an
empty holding is not asked. -/
structure OnChain [GoAbi] (caller : ContractCaller) (account : Address) (a : Asset) (bal : ℕ) (answer : ℤ) : Prop where
  balance : ∃ data out, GoAbi.packBalanceOf account = .ok data ∧ caller a.token data = .ok out ∧
    GoAbi.unpackBalanceOf out = .ok bal
  price : bal ≠ 0 → 0 < answer ∧ ∃ data out round, GoAbi.packLatestRoundData = .ok data ∧
    caller a.priceFeed data = .ok out ∧ GoAbi.unpackLatestRoundData out = .ok round ∧ round.2.1 = answer

/-- The holdings in dollars. An amount has the decimals of its token, and a price has eight. -/
def gross (assets : List Asset) (bal : Asset → ℕ) (price : Asset → ℤ) : ℚ :=
  (assets.map fun a ↦ (bal a * price a : ℚ) / 10 ^ (a.decimals.toNat + 8)).sum

def weighted (assets : List Asset) (bal : Asset → ℕ) (price : Asset → ℤ) : ℚ :=
  (assets.map fun a ↦ (bal a * price a : ℚ) / 10 ^ (a.decimals.toNat + 8) * a.collateralFactor).sum

/-- Where an account stands: it is safe while its collateral covers its debt by 15 percent, and it can be liquidated
once the collateral does not cover the debt. -/
def standing (debt collateral : ℚ) : Status :=
  if debt ≤ 0 ∨ 115 * debt ≤ 100 * collateral then .healthy
  else if debt ≤ collateral then .marginCall
  else .liquidatable

def statement [GoEthereum] (assets : List Asset) (account : Address) (debt : ℚ) (bal : Asset → ℕ)
    (price : Asset → ℤ) : Report where
  account := GoEthereum.addressHex account
  grossCollateralUSD := floatString 2 (gross assets bal price)
  weightedCollateralUSD := floatString 2 (weighted assets bal price)
  debtUSD := floatString 2 debt
  healthFactor := if debt ≤ 0 then "n/a" else floatString 4 (weighted assets bal price / debt)
  status := some (standing debt (weighted assets bal price))
  positions := (assets.filter fun a ↦ bal a ≠ 0).map fun a ↦ a.position (bal a) ⟨price a, 8⟩

/-- The text of an error in reading an asset. -/
inductive Unread [GoAbi] (caller : ContractCaller) (account : Address) (a : Asset) : String → Prop
  | balance {text : String} : chainBalanceReader caller a.token account = .error text →
      Unread caller account a ("balance " ++ a.symbol ++ ": " ++ text)
  | price {bal : ℤ} {text : String} : chainBalanceReader caller a.token account = .ok bal → bal ≠ 0 →
      chainlinkOracle caller 8 a.priceFeed = .error text →
      Unread caller account a ("price " ++ a.symbol ++ ": " ++ text)

/-- What a client is told of an account, and which lines the service logs before its access line. -/
inductive Answer [GoEthereum] [GoAbi] (caller : ContractCaller) (assets : List Asset) (address d : List UInt8) :
    ℕ → Json.Value → List Line → Prop
  | invalidAddress : accountOf address = none →
      Answer caller assets address d 400 (.object [("error", .string "invalid address")]) []
  | invalidDebt {account : Address} : accountOf address = some account → debtOf d = none →
      Answer caller assets address d 400 (.object [("error", .string "invalid debt_usd")]) []
  | unread {account : Address} {debt : ℚ} {l₁ l₂ : List Asset} {a : Asset} {err : String} :
      accountOf address = some account → debtOf d = some debt → assets = l₁ ++ a :: l₂ →
      (∀ x ∈ l₁, ∃ bal answer, OnChain caller account x bal answer) →
      (¬ ∃ bal answer, OnChain caller account a bal answer) → Unread caller account a err →
      Answer caller assets address d 502
        (.object [("error", .string "could not evaluate margin (chain read failed)")]) [.warn "evaluate failed" err]
  | report {account : Address} {debt : ℚ} {bal : Asset → ℕ} {price : Asset → ℤ} :
      accountOf address = some account → debtOf d = some debt →
      (∀ a ∈ assets, OnChain caller account a (bal a) (price a)) →
      Answer caller assets address d 200 (statement assets account debt bal price).value []

section OnChain

variable [GoAbi] {caller : ContractCaller} {account : Address} {assets : List Asset} {a : Asset}

theorem onChain_iff {bal : ℕ} {answer : ℤ} : OnChain caller account a bal answer ↔
    chainBalanceReader caller a.token account = .ok (bal : ℤ) ∧
    (bal ≠ 0 → chainlinkOracle caller 8 a.priceFeed = .ok ⟨answer, 8⟩) := by
  rw [chainBalanceReader_eq_ok_iff, chainlinkOracle_eq_ok_iff]
  constructor
  · rintro ⟨⟨data, out, hdata, hout, hbal⟩, hprice⟩
    refine ⟨⟨data, out, hdata, hout, bal, hbal, rfl⟩, fun h0 ↦ ?_⟩
    obtain ⟨hpos, data, out, round, hdata, hout, hround, rfl⟩ := hprice h0
    exact ⟨data, out, round, hdata, hout, hround, hpos, rfl⟩
  · rintro ⟨⟨data, out, hdata, hout, n, hn, heq⟩, hprice⟩
    rw [Nat.cast_inj] at heq
    subst heq
    refine ⟨⟨data, out, hdata, hout, hn⟩, fun h0 ↦ ?_⟩
    obtain ⟨data, out, round, hdata, hout, hround, hpos, heq⟩ := hprice h0
    cases heq
    exact ⟨hpos, data, out, round, hdata, hout, hround, rfl⟩

theorem read_chain_iff : (∃ x, (chainEngine caller assets).read account a = .ok x) ↔
    ∃ bal answer, OnChain caller account a bal answer := by
  rw [Engine.read_ok_iff]
  simp only [onChain_iff]
  constructor
  · rintro ⟨bal, hbal, hprice⟩
    obtain ⟨-, -, -, -, n, -, rfl⟩ := chainBalanceReader_eq_ok_iff.mp hbal
    by_cases h0 : n = 0
    · exact ⟨n, 0, hbal, fun h ↦ absurd h0 h⟩
    · obtain ⟨p, hp⟩ := hprice (by exact_mod_cast h0)
      obtain ⟨-, -, round, -, -, -, -, rfl⟩ := chainlinkOracle_eq_ok_iff.mp hp
      exact ⟨n, round.2.1, hbal, fun _ ↦ hp⟩
  · rintro ⟨n, answer, hbal, hprice⟩
    exact ⟨n, hbal, fun h0 ↦ ⟨_, hprice (by exact_mod_cast h0)⟩⟩

theorem counted_chain {bal : ℕ} {answer : ℤ} (h : OnChain caller account a bal answer) :
    (chainEngine caller assets).counted account a = if bal = 0 then none else some ((bal : ℤ), ⟨answer, 8⟩) := by
  obtain ⟨hbal, hprice⟩ := onChain_iff.mp h
  have hread : ∃ x, (chainEngine caller assets).read account a = .ok x := read_chain_iff.mpr ⟨bal, answer, h⟩
  obtain ⟨hb, hc⟩ | ⟨b, p, hb, h0, hp, hc⟩ := Engine.read_cases hread
  · have heq : (bal : ℤ) = 0 := Except.ok.inj (hbal.symm.trans hb)
    rw [hc, if_pos (by exact_mod_cast heq)]
  · have heq : (bal : ℤ) = b := Except.ok.inj (hbal.symm.trans hb)
    subst heq
    have hne : bal ≠ 0 := by exact_mod_cast h0
    rw [hc, if_neg hne, Except.ok.inj ((hprice hne).symm.trans hp)]

theorem worth_chain {bal : ℕ} {answer : ℤ} (h : OnChain caller account a bal answer) :
    (chainEngine caller assets).worth account a = (bal * answer : ℚ) / 10 ^ (a.decimals.toNat + 8) := by
  rw [Engine.worth, counted_chain h]
  by_cases h0 : bal = 0
  · simp [h0]
  · rw [if_neg h0, Option.elim_some, Asset.worth_eq]
    rfl

theorem position_chain {bal : ℕ} {answer : ℤ} (h : OnChain caller account a bal answer) :
    (chainEngine caller assets).position account a =
      if bal = 0 then none else some (a.position bal ⟨answer, 8⟩) := by
  rw [Engine.position, counted_chain h]
  split <;> rfl

theorem positions_chain {bal : Asset → ℕ} {price : Asset → ℤ} (l : List Asset)
    (h : ∀ a ∈ l, OnChain caller account a (bal a) (price a)) :
    l.filterMap ((chainEngine caller assets).position account) =
      (l.filter fun a ↦ bal a ≠ 0).map fun a ↦ a.position (bal a) ⟨price a, 8⟩ := by
  induction l with
  | nil => rfl
  | cons a l ih =>
    obtain ⟨ha, hl⟩ := List.forall_mem_cons.mp h
    have hposition : (chainEngine caller assets).position account a =
        if bal a = 0 then none else some (a.position (bal a) ⟨price a, 8⟩) := position_chain ha
    by_cases h0 : bal a = 0
    · rw [if_pos h0] at hposition
      rw [List.filterMap_cons_none hposition, ih hl, List.filter_cons_of_neg (by simp [h0])]
    · rw [if_neg h0] at hposition
      rw [List.filterMap_cons_some hposition, ih hl, List.filter_cons_of_pos (by simp [h0]), List.map_cons]

theorem totals_chain {bal : Asset → ℕ} {price : Asset → ℤ}
    (h : ∀ a ∈ assets, OnChain caller account a (bal a) (price a)) :
    (chainEngine caller assets).totals account = .ok ⟨gross assets bal price, weighted assets bal price,
      (assets.filter fun a ↦ bal a ≠ 0).map fun a ↦ a.position (bal a) ⟨price a, 8⟩⟩ := by
  refine Engine.totals_eq_ok_iff.mpr ⟨fun a ha ↦ read_chain_iff.mpr ⟨_, _, h a ha⟩, ?_⟩
  have hgross : (assets.map ((chainEngine caller assets).worth account)).sum = gross assets bal price :=
    congrArg List.sum (List.map_congr_left fun a ha ↦ worth_chain (h a ha))
  have hweighted : (assets.map fun a ↦ (chainEngine caller assets).worth account a * a.collateralFactor).sum =
      weighted assets bal price := by
    refine congrArg List.sum (List.map_congr_left fun a ha ↦ ?_)
    rw [worth_chain (h a ha)]
  change _ = (chainEngine caller assets).valuation account assets ⟨0, 0, []⟩
  rw [Engine.valuation, hgross, hweighted, positions_chain assets h, zero_add, zero_add, List.nil_append]

theorem standing_of_pos {debt collateral : ℚ} (hd : 0 < debt) :
    (chainEngine caller assets).status (collateral / debt) = standing debt collateral := by
  have hl : (chainEngine caller assets).cfg.liquidationHF * debt = debt := by norm_num [chainEngine]
  have hm : (chainEngine caller assets).cfg.marginCallHF * debt = 115 / 100 * debt := rfl
  rw [Engine.status_div hd, hl, hm, standing]
  rcases lt_or_ge collateral debt with hless | hcovered
  · rw [if_pos hless, if_neg (by rintro (h | h) <;> linarith), if_neg (not_le.mpr hless)]
  · rw [if_neg (not_lt.mpr hcovered)]
    rcases lt_or_ge collateral (115 / 100 * debt) with hthin | hsafe
    · rw [if_pos hthin, if_neg (by rintro (h | h) <;> linarith), if_pos hcovered]
    · rw [if_neg (not_lt.mpr hsafe), if_pos (.inr (by linarith))]

variable [GoEthereum]

theorem evaluate_chain {bal : Asset → ℕ} {price : Asset → ℤ} (debt : ℚ)
    (h : ∀ a ∈ assets, OnChain caller account a (bal a) (price a)) :
    (chainEngine caller assets).evaluate account debt = (statement assets account debt bal price, none) := by
  rw [Engine.evaluate_of_ok (totals_chain h), Engine.report, statement]
  by_cases hd : debt ≤ 0
  · rw [if_pos hd, if_pos hd, standing, if_pos (.inl hd)]
  · rw [if_neg hd, if_neg hd, standing_of_pos (not_le.mp hd)]

theorem weighted_le_gross {bal : Asset → ℕ} {price : Asset → ℤ} (hassets : CreatesNothing assets)
    (h : ∀ a ∈ assets, OnChain caller account a (bal a) (price a)) :
    0 ≤ weighted assets bal price ∧ weighted assets bal price ≤ gross assets bal price := by
  have hpriced : (chainEngine caller assets).Priced account := Engine.priced_chain caller 8 _ account
  obtain ⟨v, hv, hnonneg, hle⟩ := hassets _ account 0 _ rfl hpriced (evaluate_chain 0 h)
  rw [totals_chain h] at hv
  cases hv
  exact ⟨hnonneg, hle⟩

/-- The chain is read for every asset, or the evaluation stops at the first one for which it cannot be. -/
theorem evaluate_chain_cases (caller : ContractCaller) (assets : List Asset) (account : Address) (debt : ℚ) :
    (∃ bal price, (∀ a ∈ assets, OnChain caller account a (bal a) (price a)) ∧
      (chainEngine caller assets).evaluate account debt = (statement assets account debt bal price, none)) ∨
    ∃ l₁ a l₂ err, assets = l₁ ++ a :: l₂ ∧ (∀ x ∈ l₁, ∃ bal answer, OnChain caller account x bal answer) ∧
      (¬ ∃ bal answer, OnChain caller account a bal answer) ∧ Unread caller account a err ∧
      (chainEngine caller assets).evaluate account debt = (.zero, some err) := by
  cases ht : (chainEngine caller assets).totals account with
  | ok v =>
    left
    -- the holdings are read asset by asset, and chosen as two functions for the whole list
    have hreads (a : Asset) (ha : a ∈ assets) : ∃ bal answer, OnChain caller account a bal answer :=
      read_chain_iff.mp ((Engine.totals_eq_ok_iff.mp ht).1 a ha)
    choose! bal price h using hreads
    exact ⟨bal, price, h, evaluate_chain debt h⟩
  | error err =>
    right
    obtain ⟨l₁, a, l₂, hassets, hl₁, ha⟩ := Engine.read_of_value_error ht
    refine ⟨l₁, a, l₂, err, hassets, fun x hx ↦ read_chain_iff.mp (hl₁ x hx), fun h ↦ ?_, ?_,
      Engine.evaluate_of_error ht⟩
    · obtain ⟨x, hx⟩ := read_chain_iff.mpr h
      cases ha.symm.trans hx
    · obtain ⟨text, hb, rfl⟩ | ⟨bal, text, hb, h0, hp, rfl⟩ := Engine.read_error_cases ha
      · exact .balance hb
      · exact .price hb h0 hp

end OnChain

section Served

variable [GoEthereum] [GoQuery] [GoAbi]

theorem marginHandler_answers (caller : ContractCaller) (assets : List Asset) (address : List UInt8) (r : Request)
    (ctx : Option String) : ∃ status ∈ [200, 400, 502], ∃ value lines,
      marginHandler (chainEngine caller assets) address r ctx = answering lines status value ∧
      Answer caller assets address (GoQuery.get r.url.rawQuery "debt_usd") status value lines := by
  unfold marginHandler
  cases haccount : accountOf address with
  | none => exact ⟨400, by simp, _, [], rfl, .invalidAddress haccount⟩
  | some account =>
    cases hdebt : debtOf (GoQuery.get r.url.rawQuery "debt_usd") with
    | none => exact ⟨400, by simp, _, [], rfl, .invalidDebt haccount hdebt⟩
    | some debt =>
      dsimp only
      obtain ⟨bal, price, h, heval⟩ | ⟨l₁, a, l₂, err, hassets, hl₁, ha, herr, heval⟩ :=
        evaluate_chain_cases caller assets account debt
      · rw [heval]
        exact ⟨200, by simp, _, [], rfl, .report haccount hdebt h⟩
      · rw [heval]
        exact ⟨502, by simp, _, [.warn "evaluate failed" err], rfl, .unread haccount hdebt hassets hl₁ ha herr⟩

/-- The margin service answers every request for an account: it says which part of the request is invalid, or that the
chain could not be read and logs for which asset, or reports on what the account holds on the chain, valued exactly. -/
theorem margin_served (caller : ContractCaller) (assets : List Asset) (router : Handler) (b : List UInt8) (r : Request)
    (wildcards : List (List UInt8)) (hroute : mux.route r.method r.url = .handler .margin wildcards) :
    (∃ w status value lines,
      (service b (handler (chainEngine caller assets) router) r none).eval respond (fresh r) = (.ok (), w) ∧
      w.response.finish = .response status (jsonHeader (requestIDOf b r))
        (if r.method = "HEAD" then [] else jsonBody value) true ∧
      w.log = lines ++ [.request r.method r.url.path status (requestIDOf b r)] ∧
      Answer caller assets wildcards.flatten (GoQuery.get r.url.rawQuery "debt_usd") status value lines) ∧
    (CreatesNothing assets → ∀ account bal price, (∀ a ∈ assets, OnChain caller account a (bal a) (price a)) →
      0 ≤ weighted assets bal price ∧ weighted assets bal price ≤ gross assets bal price) := by
  refine ⟨?_, fun hassets account bal price h ↦ weighted_le_gross hassets h⟩
  obtain ⟨status, hstatus, value, lines, hh, hanswer⟩ :=
    marginHandler_answers caller assets wildcards.flatten r (some (requestIDOf b r))
  have hhandler : handler (chainEngine caller assets) router r (some (requestIDOf b r)) =
      answering lines status value := by
    rw [handler, hroute]
    exact hh
  have hcode : ∀ status ∈ [200, 400, 502], 200 ≤ status ∧ status ≤ 999 ∧ bodyAllowed status = true := by decide
  obtain ⟨hlow, hhigh, hallowed⟩ := hcode status hstatus
  obtain ⟨w, hw, hfinish, hlog⟩ := eval_service_answering hlow hhigh hallowed hhandler
  exact ⟨w, status, value, lines, hw, hfinish, hlog, hanswer⟩

end Served

section TestChain

@[reducible] def testQuery : GoQuery := ⟨fun rawQuery key ↦ if rawQuery = key ++ "=2000" then ascii "2000" else []⟩

/-- A codec without padding. -/
@[reducible] def testAbi : GoAbi where
  packBalanceOf account := .ok account.toList
  unpackBalanceOf out := .ok (wordValue out)
  packLatestRoundData := .ok []
  unpackLatestRoundData out := .ok (0, wordValue out, 0, 0, 0)

/-- 2500 USDC of the account, at one dollar each. -/
def testChain : ContractCaller := fun contract data ↦
  if contract = usdc ∧ data = acct.toList then .ok [0x95, 0x02, 0xf9, 0x00]
  else if contract = usdcFeed ∧ data = [] then .ok [0x05, 0xf5, 0xe1, 0x00]
  else .error "execution reverted"

def usdcAsset : Asset := ⟨"USDC", usdc, 6, 9 / 10, usdcFeed⟩

def testPath : List UInt8 := ascii "/margin/0x00000000000000000000000000000000000000aa"

def testRequest : Request := ⟨"GET", ⟨testPath, [], "debt_usd=2000"⟩, "localhost:8085", ∅, "", "192.0.2.1:51000"⟩

def testReport : Report where
  account := "0x00000000000000000000000000000000000000aa"
  grossCollateralUSD := "2500.00"
  weightedCollateralUSD := "2250.00"
  debtUSD := "2000.00"
  healthFactor := "1.1250"
  status := some .marginCall
  positions := [⟨"USDC", "2500000000", "1.00", "2500.00", "0.90", "2250.00"⟩]

theorem margin_served_testChain :
    letI := plainEthereum
    letI := testQuery
    letI := testAbi
    ∃ w, (service [1] (handler (chainEngine testChain [usdcAsset]) fun _ _ ↦ pure ()) testRequest none).eval respond
        (fresh testRequest) = (.ok (), w) ∧
      w.response.finish = .response 200 (jsonHeader "01") (jsonBody testReport.value) true ∧
      w.log = [.request "GET" testPath 200 "01"] ∧
      0 ≤ weighted [usdcAsset] (fun _ ↦ 2500000000) (fun _ ↦ 100000000) ∧
      weighted [usdcAsset] (fun _ ↦ 2500000000) (fun _ ↦ 100000000) ≤
        gross [usdcAsset] (fun _ ↦ 2500000000) (fun _ ↦ 100000000) := by
  let := plainEthereum
  let := testQuery
  let := testAbi
  have hroute : mux.route testRequest.method testRequest.url =
      .handler .margin [ascii "0x00000000000000000000000000000000000000aa"] := by decide +kernel
  obtain ⟨⟨w, status, value, lines, hw, hfinish, hlog, hanswer⟩, hbound⟩ :=
    margin_served testChain [usdcAsset] (fun _ _ ↦ pure ()) [1] testRequest _ hroute
  have haccount : accountOf [ascii "0x00000000000000000000000000000000000000aa"].flatten = some acct := by
    decide +kernel
  have hdebt : debtOf (GoQuery.get testRequest.url.rawQuery "debt_usd") = some 2000 := by decide +kernel
  have honchain : OnChain testChain acct usdcAsset 2500000000 100000000 :=
    onChain_iff.mpr ⟨rfl, fun _ ↦ rfl⟩
  obtain ⟨hbalance, hanswered⟩ := onChain_iff.mp honchain
  have hcreates : CreatesNothing [usdcAsset] := createsNothing_iff.mpr (netBounded_of_factors (by decide +kernel))
  specialize hbound hcreates acct (fun _ ↦ 2500000000) (fun _ ↦ 100000000) fun a ha ↦
    (List.mem_singleton.mp ha).symm ▸ honchain
  cases hanswer with
  | invalidAddress h => cases haccount.symm.trans h
  | invalidDebt _ h => cases hdebt.symm.trans h
  | @unread _ _ _ _ a _ h _ hassets _ hunread =>
    cases haccount.symm.trans h
    have ha : a ∈ [usdcAsset] := by simp [hassets]
    rw [List.mem_singleton.mp ha] at hunread
    exact absurd ⟨_, _, honchain⟩ hunread
  | @report _ _ bal price h h' hchain =>
    cases haccount.symm.trans h
    cases hdebt.symm.trans h'
    obtain ⟨hb, hp⟩ := onChain_iff.mp (hchain usdcAsset List.mem_cons_self)
    have hbal : bal usdcAsset = 2500000000 := by exact_mod_cast Except.ok.inj (hb.symm.trans hbalance)
    have hprice : price usdcAsset = 100000000 := by
      have hsame := (hp (by simp [hbal])).symm.trans (hanswered (by decide))
      exact congrArg Price.value (Except.ok.inj hsame)
    have hstatement : statement [usdcAsset] acct 2000 bal price =
        statement [usdcAsset] acct 2000 (fun _ ↦ 2500000000) fun _ ↦ 100000000 := by
      simp [statement, gross, weighted, hbal, hprice]
    have hreport : statement [usdcAsset] acct 2000 (fun _ ↦ 2500000000) (fun _ ↦ 100000000) = testReport := by
      decide +kernel
    rw [hstatement, hreport] at hfinish
    exact ⟨w, hw, hfinish, hlog, hbound⟩

end TestChain

end EventPlatform.Margin
