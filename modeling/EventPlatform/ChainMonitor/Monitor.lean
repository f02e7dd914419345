import EventPlatform.Interaction.Program
import EventPlatform.ChainMonitor.Store

namespace EventPlatform.ChainMonitor

open Ethereum Interaction Prog

structure Config where
  confirmations : UInt64
  startBlock : UInt64
  tokens : List Address

/-- The messages of the monitor, by subject, with the texts that they carry. -/
inductive Event
  | chainBlock (number : UInt64) (hash : String) (transfers : ℕ) (confirmed : Bool)
  | chainTransfer (block : UInt64) (token fromAddr toAddr value txHash : String) (confirmed : Bool)
  | chainReorg (fromBlock : UInt64)
  deriving DecidableEq

/-- Every call that the monitor makes on its backend, its store and its bus. -/
inductive Call
  | headerByNumber (number : Option UInt64)
  | filterLogs (q : FilterQuery)
  | saveBlock (b : Block) (transfers : List Transfer) (confirmed : Bool)
  | lastBlock
  | blockByNumber (number : UInt64)
  | deleteFrom (number : UInt64)
  | confirmThrough (number : UInt64)
  | publish (e : Event)

@[reducible] def Call.Reply : Call → Type
  | .headerByNumber _ => Header
  | .filterLogs _ => List Log
  | .lastBlock | .blockByNumber _ => Option Block
  | .saveBlock _ _ _ | .deleteFrom _ | .confirmThrough _ | .publish _ => Unit

abbrev M := Prog Err Call.Reply

def headerByNumber (number : Option UInt64) : M Header := perform (Call.headerByNumber number)

def filterLogs (q : FilterQuery) : M (List Log) := perform (Call.filterLogs q)

def saveBlock (b : Block) (transfers : List Transfer) (confirmed : Bool) : M Unit :=
  perform (Call.saveBlock b transfers confirmed)

def lastBlock : M (Option Block) := perform Call.lastBlock

def blockByNumber (number : UInt64) : M (Option Block) := perform (Call.blockByNumber number)

def deleteFrom (number : UInt64) : M Unit := perform (Call.deleteFrom number)

def confirmThrough (number : UInt64) : M Unit := perform (Call.confirmThrough number)

/-- A message that cannot be published is dropped. -/
def publish (e : Event) : M Unit := do
  let _ ← attempt (perform (Call.publish e))

variable [GoEthereum]

def Block.ofHeader (n : UInt64) (header : Header) : Block :=
  { number := n
    hash := GoEthereum.headerHash header
    parentHash := header.parentHash
    time := header.time }

def blockEvent (b : Block) (txfers : ℕ) (confirmed : Bool) : Event :=
  .chainBlock b.number (hashHex b.hash) txfers confirmed

def transferEvent (t : Transfer) (block : UInt64) (confirmed : Bool) : Event :=
  .chainTransfer block (GoEthereum.addressHex t.token) (GoEthereum.addressHex t.fromAddr)
    (GoEthereum.addressHex t.toAddr) (toString t.value) (hashHex t.txHash) confirmed

def publishBlock (b : Block) (txfers : ℕ) (confirmed : Bool) : M Unit :=
  publish (blockEvent b txfers confirmed)

def publishTransfer (t : Transfer) (block : UInt64) (confirmed : Bool) : M Unit :=
  publish (transferEvent t block confirmed)

def publishTransfers (block : UInt64) (confirmed : Bool) : List Transfer → M Unit
  | [] => return
  | t :: ts => do
    publishTransfer t block confirmed
    publishTransfers block confirmed ts

def rollback (number : UInt64) : M Unit := do
  deleteFrom number
  publish (.chainReorg number)

def transferQuery (cfg : Config) (n : UInt64) : FilterQuery :=
  { fromBlock := n
    toBlock := n
    addresses := cfg.tokens
    topics := [[topicID]] }

def fetchTransfers (cfg : Config) (n : UInt64) : M (List Transfer) := do
  let logs ← filterLogs (transferQuery cfg n)
  return logs.filterMap decode

/-- The parent-linkage check: whether the block indexed at `n - 1` is not the one
that the new header builds on. -/
def diverges (n : UInt64) (header : Header) : M Bool := do
  if n > 0 then
    let prev ← blockByNumber (n - 1)
    return prev.any fun b ↦ b.hash ≠ header.parentHash
  else
    return false

/-- The end of a sync: promote the blocks that are now deep enough. -/
def promote (cfg : Config) (headNum : UInt64) : M Unit := do
  if headNum ≥ cfg.confirmations then
    confirmThrough (headNum - cfg.confirmations)

/-- The indexing loop from `n` on. The context is the number of times that the loop
still finds it open: the loop ends with its error at the next poll after that. -/
def indexFrom (cfg : Config) (headNum : UInt64) : ℕ → UInt64 → M Unit
  | 0, n => if n ≤ headNum then .fail .canceled else promote cfg headNum
  | ctx + 1, n =>
    if n ≤ headNum then do
      let header ← headerByNumber (some n)
      if ← diverges n header then
        rollback (n - 1)
      else
        let transfers ← fetchTransfers cfg n
        let block := Block.ofHeader n header
        let confirmed := decide (headNum - n ≥ cfg.confirmations)
        saveBlock block transfers confirmed
        publishBlock block transfers.length confirmed
        publishTransfers n confirmed transfers
        indexFrom cfg headNum ctx (n + 1)
    else promote cfg headNum

/-- `Monitor.Sync`. -/
def sync (cfg : Config) (ctx : ℕ) : M Unit := do
  let head ← headerByNumber none
  let headNum := head.number64
  match ← lastBlock with
  | some last =>
    let canon ← headerByNumber (some last.number)
    if GoEthereum.headerHash canon ≠ last.hash then
      rollback last.number
    else
      indexFrom cfg headNum ctx (last.number + 1)
  | none => indexFrom cfg headNum ctx cfg.startBlock

/-- `Monitor.Run`: one sync a tick. A failed sync is only logged. -/
def run (cfg : Config) : List ℕ → M Unit
  | [] => return
  | ctx :: ticks => do
    let _ ← attempt (sync cfg ctx)
    run cfg ticks

end EventPlatform.ChainMonitor
