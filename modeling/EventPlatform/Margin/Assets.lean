import EventPlatform.Json
import EventPlatform.Margin.Valuation

namespace EventPlatform.Margin

open Ethereum BigRat

/-- `assetJSON`, the wire form of a configured asset. -/
structure AssetJSON where
  symbol : String
  token : String
  decimals : UInt8
  collateralFactor : String
  priceFeed : String

def AssetJSON.fields : List (Json.Field AssetJSON) :=
  [Json.stringField "symbol" fun x a ↦ { a with symbol := x },
    Json.stringField "token" fun x a ↦ { a with token := x },
    Json.uintField "decimals" 8 fun n a ↦ { a with decimals := .ofNat n },
    Json.stringField "collateral_factor" fun x a ↦ { a with collateralFactor := x },
    Json.stringField "price_feed" fun x a ↦ { a with priceFeed := x }]

/-- The errors of `loadAssets`: one of the JSON decoder, or a `parseError`. -/
inductive LoadError
  | json
  | parse (field value : String)
  deriving DecidableEq

def loadAsset (a : AssetJSON) : Except LoadError Asset :=
  match setString a.collateralFactor with
  | none => .error (.parse "collateral_factor" a.collateralFactor)
  | some factor => .ok
    { symbol := a.symbol
      token := hexToAddress a.token
      decimals := a.decimals
      collateralFactor := factor
      priceFeed := hexToAddress a.priceFeed }

def loadAssets (raw : String) : Except LoadError (List Asset) :=
  if raw = "" then .ok []
  else
    match (Json.parse raw).bind (Json.decodeList AssetJSON.fields false ⟨"", "", 0, "", ""⟩) with
    | none => .error .json
    | some assets => assets.mapM loadAsset

example : (loadAssets ("[\x7b\"symbol\": \"WETH\", \"token\": \"0x01\", \"Decimals\": 18, " ++
    "\"collateral_factor\": \"4/5\", \"price_feed\": \"0xf1\", \"note\": [1.5e3, null]\x7d]")).toOption =
    some [⟨"WETH", hexToAddress "0x01", 18, 4 / 5, hexToAddress "0xf1"⟩] := by decide +kernel

end EventPlatform.Margin
