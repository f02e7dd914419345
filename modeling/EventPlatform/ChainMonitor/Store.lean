import EventPlatform.ChainMonitor.Erc20

namespace EventPlatform.ChainMonitor

open Ethereum

inductive Err
  | notFound
  | canceled
  | failed (msg : String)
  | wrap (msg : String) (e : Err)
  deriving DecidableEq

/-- An indexed block header. -/
structure Block where
  number : UInt64
  hash : Hash
  parentHash : Hash
  time : UInt64
  deriving DecidableEq

/-- The store interface over a state `S`. A method that fails leaves the state
as it was. -/
structure Store (S : Type) where
  saveBlock : Block → List Transfer → Bool → S → Except Err S
  lastBlock : S → Except Err (Option Block)
  blockByNumber : UInt64 → S → Except Err (Option Block)
  deleteFrom : UInt64 → S → Except Err S
  confirmThrough : UInt64 → S → Except Err S

end EventPlatform.ChainMonitor
