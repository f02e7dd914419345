import EventPlatform.Ethereum.Hex
import Mathlib.Data.Nat.Notation

namespace EventPlatform.Ethereum

abbrev Hash := Vector UInt8 32

abbrev Address := Vector UInt8 20

/-- `common.Hash.SetBytes` and `common.Address.SetBytes`: crop from the left, else
pad with zeros on the left. -/
def setBytes (n : ℕ) (b : List UInt8) : Vector UInt8 n :=
  ⟨(List.replicate (n - b.length) 0 ++ b.drop (b.length - n)).toArray, by simp; omega⟩

def hexToHash (s : String) : Hash := setBytes 32 (Hex.fromHex s)

def hexToAddress (s : String) : Address := setBytes 20 (Hex.fromHex s)

/-- `common.IsHexAddress`: forty digits, behind a `0x` or not. -/
def isHexAddress (s : String) : Bool :=
  let digits := if Hex.has0xPrefix s.toList then s.toList.drop 2 else s.toList
  digits.length = 40 && digits.all fun c ↦ (Hex.fromHexChar c).isSome

/-- `common.Hash.Hex`. -/
def hashHex (h : Hash) : String := Hex.encode h.toList

theorem setBytes_toList {n : ℕ} (v : Vector UInt8 n) : setBytes n v.toList = v := by
  apply Vector.toArray_inj.mp
  simp [setBytes, Vector.toList]

theorem hexToHash_hashHex (h : Hash) : hexToHash (hashHex h) = h := by
  rw [hexToHash, hashHex, Hex.fromHex_encode, setBytes_toList]

theorem hashHex_injective : Function.Injective hashHex := by
  intro a b h
  rw [← hexToHash_hashHex a, ← hexToHash_hashHex b, h]

/-- `types.Header`, with the fields that only the header hash reads kept as one
byte string. `number` is a `big.Int`. -/
structure Header where
  parentHash : Hash
  number : ℕ
  time : UInt64
  extra : List UInt8
  deriving DecidableEq, Inhabited

structure Log where
  address : Address
  topics : List Hash
  data : List UInt8
  txHash : Hash
  index : UInt64
  deriving DecidableEq

/-- What the code takes from go-ethereum as given: the Keccak hash of a header and
the checksummed text of an address. -/
class GoEthereum where
  headerHash : Header → Hash
  addressHex : Address → String

/-- `head.Number.Uint64()`, the low 64 bits. -/
def Header.number64 (h : Header) : UInt64 := UInt64.ofNat h.number

structure FilterQuery where
  fromBlock : UInt64
  toBlock : UInt64
  addresses : List Address
  topics : List (List Hash)
  deriving DecidableEq

/-- Whether a log passes the address and topic filters of `eth_getLogs`; an empty
list at a position matches anything. -/
def FilterQuery.selects (q : FilterQuery) (lg : Log) : Bool :=
  (q.addresses.isEmpty || q.addresses.contains lg.address) &&
    q.topics.length ≤ lg.topics.length &&
      (q.topics.zip lg.topics).all fun p ↦ p.1.isEmpty || p.1.contains p.2

end EventPlatform.Ethereum
