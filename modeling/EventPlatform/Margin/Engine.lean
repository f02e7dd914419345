import Mathlib
import EventPlatform.BigRat
import EventPlatform.Ethereum.Types

namespace EventPlatform.Margin

open Ethereum BigRat

inductive Status
  | healthy
  | marginCall
  | liquidatable
  deriving DecidableEq

structure Asset where
  symbol : String
  token : Address
  decimals : UInt8
  collateralFactor : ℚ
  priceFeed : Address
  deriving DecidableEq

structure Config where
  assets : List Asset
  marginCallHF : ℚ
  liquidationHF : ℚ

def pow10 (n : UInt8) : ℤ := 10 ^ n.toNat

structure Price where
  value : ℤ
  decimals : UInt8
  deriving DecidableEq

def Price.rat (p : Price) : ℚ := p.value / pow10 p.decimals

/-- `BalanceReader`: the balance of a token that an account holds. -/
abbrev BalanceReader := Address → Address → Except String ℤ

/-- `PriceOracle`: the price that a feed reports. -/
abbrev PriceOracle := Address → Except String Price

structure Engine where
  reader : BalanceReader
  oracle : PriceOracle
  cfg : Config

structure Position where
  symbol : String
  balanceRaw : String
  priceUSD : String
  valueUSD : String
  collateralFactor : String
  weightedUSD : String
  deriving DecidableEq

/-- The report of an evaluation. The status of the zero report is the empty text. -/
structure Report where
  account : String
  grossCollateralUSD : String
  weightedCollateralUSD : String
  debtUSD : String
  healthFactor : String
  status : Option Status
  positions : List Position
  deriving DecidableEq

def Report.zero : Report := ⟨"", "", "", "", "", none, []⟩

/-- What the valuation loop has accumulated. -/
structure Valuation where
  gross : ℚ
  weighted : ℚ
  positions : List Position

namespace Engine

def value (e : Engine) (account : Address) : List Asset → Valuation → Except String Valuation
  | [], v => .ok v
  | a :: assets, v => do
    let bal ← (e.reader a.token account).mapError ("balance " ++ a.symbol ++ ": " ++ ·)
    if bal = 0 then
      e.value account assets v
    else
      let price ← (e.oracle a.priceFeed).mapError ("price " ++ a.symbol ++ ": " ++ ·)
      let balRat : ℚ := bal / pow10 a.decimals
      let value := balRat * price.rat
      let w := value * a.collateralFactor
      e.value account assets
        { gross := v.gross + value
          weighted := v.weighted + w
          positions := v.positions ++ [
            { symbol := a.symbol
              balanceRaw := toString bal
              priceUSD := floatString 2 price.rat
              valueUSD := floatString 2 value
              collateralFactor := floatString 2 a.collateralFactor
              weightedUSD := floatString 2 w }] }

def status (e : Engine) (hf : ℚ) : Status :=
  if hf < e.cfg.liquidationHF then .liquidatable
  else if hf < e.cfg.marginCallHF then .marginCall
  else .healthy

def totals (e : Engine) (account : Address) : Except String Valuation :=
  e.value account e.cfg.assets ⟨0, 0, []⟩

/-- `Engine.Evaluate`: the report, and the error if there is one. -/
def evaluate [GoEthereum] (e : Engine) (account : Address) (debtUSD : ℚ) : Report × Option String :=
  match e.totals account with
  | .error err => (.zero, some err)
  | .ok v =>
    let report : Report :=
      { account := GoEthereum.addressHex account
        grossCollateralUSD := floatString 2 v.gross
        weightedCollateralUSD := floatString 2 v.weighted
        debtUSD := floatString 2 debtUSD
        healthFactor := ""
        status := none
        positions := v.positions }
    if debtUSD ≤ 0 then
      ({ report with healthFactor := "n/a", status := some .healthy }, none)
    else
      let hf := v.weighted / debtUSD
      ({ report with healthFactor := floatString 4 hf, status := some (e.status hf) }, none)

end Engine

/-- The ABI codec of go-ethereum, for the methods that the readers name. An error of `Pack` or `Unpack` is its text, a
`uint256` is a natural number and an `int256` an integer. -/
class GoAbi where
  packBalanceOf (account : Address) : Except String (List UInt8)
  unpackBalanceOf (out : List UInt8) : Except String ℕ
  packLatestRoundData : Except String (List UInt8)
  /-- `roundId`, `answer`, `startedAt`, `updatedAt` and `answeredInRound`. -/
  unpackLatestRoundData (out : List UInt8) : Except String (ℕ × ℤ × ℕ × ℕ × ℕ)

/-- `ContractCaller`: the result of a read-only call with its calldata on a contract. -/
abbrev ContractCaller := Address → List UInt8 → Except String (List UInt8)

/-- `ChainBalanceReader.BalanceOf`. -/
def chainBalanceReader [GoAbi] (caller : ContractCaller) : BalanceReader := fun token account ↦ do
  let data ← GoAbi.packBalanceOf account
  let out ← (caller token data).mapError ("call balanceOf: " ++ ·)
  let bal ← (GoAbi.unpackBalanceOf out).mapError ("decode balanceOf: " ++ ·)
  return bal

/-- `ChainlinkOracle.Price`. -/
def chainlinkOracle [GoAbi] (caller : ContractCaller) (decimals : UInt8) : PriceOracle := fun feed ↦ do
  let data ← GoAbi.packLatestRoundData
  let out ← (caller feed data).mapError ("call latestRoundData: " ++ ·)
  let (_, answer, _) ← (GoAbi.unpackLatestRoundData out).mapError ("decode latestRoundData: " ++ ·)
  if answer ≤ 0 then .error "non-positive oracle price"
  else return ⟨answer, decimals⟩

section Reads

variable {ε ε' α β : Type}

theorem bind_eq_ok {x : Except ε α} {f : α → Except ε β} {b : β} :
    (x >>= f) = .ok b ↔ ∃ a, x = .ok a ∧ f a = .ok b := by
  cases x <;> simp [bind, Except.bind]

theorem mapError_eq_ok {x : Except ε α} {f : ε → ε'} {a : α} : x.mapError f = .ok a ↔ x = .ok a := by
  cases x <;> simp [Except.mapError]

variable [GoAbi] {caller : ContractCaller}

/-- A balance is the number that the token's `balanceOf` returned. -/
theorem chainBalanceReader_eq_ok_iff {token account : Address} {bal : ℤ} :
    chainBalanceReader caller token account = .ok bal ↔ ∃ data out, GoAbi.packBalanceOf account = .ok data ∧
      caller token data = .ok out ∧ ∃ n : ℕ, GoAbi.unpackBalanceOf out = .ok n ∧ bal = n := by
  simp only [chainBalanceReader, bind_eq_ok, mapError_eq_ok]
  constructor
  · rintro ⟨data, hdata, out, hout, n, hn, h⟩
    cases h
    exact ⟨data, out, hdata, hout, n, hn, rfl⟩
  · rintro ⟨data, out, hdata, hout, n, hn, rfl⟩
    exact ⟨data, hdata, out, hout, n, hn, rfl⟩

/-- A price is the answer of the feed's last round, if that is positive. -/
theorem chainlinkOracle_eq_ok_iff {decimals : UInt8} {feed : Address} {p : Price} :
    chainlinkOracle caller decimals feed = .ok p ↔ ∃ data out round, GoAbi.packLatestRoundData = .ok data ∧
      caller feed data = .ok out ∧ GoAbi.unpackLatestRoundData out = .ok round ∧ 0 < round.2.1 ∧
      p = ⟨round.2.1, decimals⟩ := by
  simp only [chainlinkOracle, bind_eq_ok, mapError_eq_ok]
  constructor
  · rintro ⟨data, hdata, out, hout, round, hround, h⟩
    by_cases hle : round.2.1 ≤ 0
    · rw [if_pos hle] at h
      cases h
    · rw [if_neg hle] at h
      cases h
      exact ⟨data, out, round, hdata, hout, hround, not_le.mp hle, rfl⟩
  · rintro ⟨data, out, round, hdata, hout, hround, hpos, rfl⟩
    exact ⟨data, hdata, out, hout, round, hround, if_neg (not_le.mpr hpos)⟩

end Reads

end EventPlatform.Margin
