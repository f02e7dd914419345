import EventPlatform.Ethereum.Types

namespace EventPlatform.ChainMonitor

open Ethereum

/-- A decoded ERC-20 Transfer log. -/
structure Transfer where
  token : Address
  fromAddr : Address
  toAddr : Address
  value : ℕ
  txHash : Hash
  logIndex : UInt64
  deriving DecidableEq

def Transfer.origin (t : Transfer) : Hash × UInt64 := (t.txHash, t.logIndex)

/-- The ID of `Transfer(address,address,uint256)` in the parsed ABI. -/
def topicID : Hash :=
  #v[0xdd, 0xf2, 0x52, 0xad, 0x1b, 0xe2, 0xc8, 0x9b, 0x69, 0xc2, 0xb0, 0x68, 0xfc, 0x37, 0x8d, 0xaa,
    0x95, 0x2b, 0xa7, 0xf1, 0x63, 0xc4, 0xa1, 0x16, 0x28, 0xf5, 0x5a, 0x4d, 0xf5, 0x23, 0xb3, 0xef]

/-- `abi.UnpackIntoInterface` for the one non-indexed `uint256` of the event. -/
def unpackValue (data : List UInt8) : Option ℕ :=
  if data.length < 32 then none
  else some ((data.take 32).foldl (fun acc b ↦ 256 * acc + b.toNat) 0)

/-- `transferDecoder.decode`. -/
def decode (log : Log) : Option Transfer :=
  match log.topics with
  | [signature, sender, recipient] =>
    if signature ≠ topicID then none
    else (unpackValue log.data).map fun value ↦
      { token := log.address
        fromAddr := hexToAddress (hashHex sender)
        toAddr := hexToAddress (hashHex recipient)
        value := value
        txHash := log.txHash
        logIndex := log.index }
  | _ => none

theorem decode_origin {log : Log} {t : Transfer} (h : decode log = some t) :
    t.txHash = log.txHash ∧ t.logIndex = log.index := by
  unfold decode at h
  split at h
  · split at h
    · cases h
    · obtain ⟨v, _, rfl⟩ := Option.map_eq_some_iff.mp h
      exact ⟨rfl, rfl⟩
  · cases h

end EventPlatform.ChainMonitor
