import Zponder.Fetch

/-!
# Fetching through the log cache

With the log cache on, a range is fetched only where the cache has holes: the
addresses of a chunk are grouped by their holes, and each group is walked through
from the start of the range to its end, replaying stored logs before, between and
after the holes and fetching, storing and processing the holes themselves.
-/

namespace Zponder

open Imperative

/-- A row of `chainLogsFromRpc`. -/
def chainLogOf (lg : Log) : ChainLog where
  address := lg.address
  blockNumber := lg.blockNumber
  txHash := lg.transactionHash
  logIndex := lg.logIndex
  topics := Text.joinTopics lg.topics
  data := lg.data

/-- `chainLogsFromRpc` -/
def chainLogsFromRpc (logs : List Log) : List ChainLog := logs.map chainLogOf

/-- The log a stored row is replayed as. -/
def cachedLog (row : ChainLog) : Log where
  address := row.address
  topics := Text.splitTopics row.topics
  data := row.data
  blockNumber := row.blockNumber
  transactionHash := row.txHash
  logIndex := row.logIndex

/-- The order stored rows are replayed in. -/
def ChainLog.le (a b : ChainLog) : Prop :=
  a.blockNumber < b.blockNumber ∨ (a.blockNumber = b.blockNumber ∧ a.logIndex ≤ b.logIndex)

instance : DecidableRel ChainLog.le := fun _ _ => inferInstanceAs (Decidable (_ ∨ _))

/-- The logs that are replayed out of the stored rows: in order, and only those of a
wanted topic. -/
def replayedLogs (topics : Option (List Text)) (rows : List ChainLog) : List Log :=
  ((rows.insertionSort ChainLog.le).map cachedLog).filter fun lg => topic0Allowed topics lg.topics

/-- Addresses with the same holes. -/
structure HoleGroup where
  holes : List BlockSpan
  addrs : List Text
  deriving DecidableEq, Repr

/-- Put an address into the first group with its holes, or into a new one. -/
def placeAddress (address : Text) (holes : List BlockSpan) : List HoleGroup → List HoleGroup
  | [] => [⟨holes, [address]⟩]
  | g :: groups =>
    if g.holes = holes then { g with addrs := g.addrs ++ [address] } :: groups
    else g :: placeAddress address holes groups

section CacheSync

variable (env : Env) (cfg : Config)

/-- `storeReceiptBlock` -/
def storeReceiptBlock (addresses : List Text) (topics : Option (List Text)) (topicsKey : Text)
    (block : Nat) : M Unit := do
  let via ← loadBlockReceipts env addresses topics block
  storeLogCacheBatch env cfg cfg.chain addresses topicsKey block block (chainLogsFromRpc via)
  processFetchedLogs env cfg via

/-- `replayCachedAddresses` -/
def replayCachedAddresses (addresses : List Text) (topicsFilter : Option (List Text))
    (fromBlock toBlock : Nat) : M Unit := do
  let all ← Prog.gather addresses fun address =>
    loadChainLogs env cfg cfg.chain address fromBlock toBlock
  Prog.each (replayedLogs topicsFilter all) (deliver env cfg)

/-- `fetchStoreProcess` -/
def fetchStoreProcess (addresses : List Text) (topics : Option (List Text)) (topicsKey : Text)
    (fromBlock toBlock : Nat) : M Unit :=
  match makeLogFilter addresses topics fromBlock toBlock with
  | none => pure ()
  | some filter => do
    let answer ← Prog.attempt (getLogs env filter)
    match answer with
    | .error e =>
      if e = .rpcLimitExceeded ∧ fromBlock = toBlock then
        storeReceiptBlock env cfg addresses topics topicsKey fromBlock
      else Prog.throw e
    | .ok logs =>
      let page := cutLogPage logs fromBlock toBlock
      if page.truncated = true ∧ page.kept = [] then
        match _h : splitAddressCount addresses.length fromBlock toBlock with
        | some mid => do
          fetchStoreProcess (addresses.take mid) topics topicsKey fromBlock toBlock
          fetchStoreProcess (addresses.drop mid) topics topicsKey fromBlock toBlock
        | none =>
          match splitTopicList topics fromBlock toBlock with
          | some (list₁, list₂) => do
            let first ← appendBlockLogs env addresses (some list₁) fromBlock toBlock
            let second ← appendBlockLogs env addresses (some list₂) fromBlock toBlock
            storeLogCacheBatch env cfg cfg.chain addresses topicsKey fromBlock toBlock
              (chainLogsFromRpc (first ++ second))
            processFetchedLogs env cfg (first ++ second)
          | none =>
            if fromBlock = toBlock then
              storeReceiptBlock env cfg addresses topics topicsKey fromBlock
            else Prog.throw .rpcLimitExceeded
      else do
        storeLogCacheBatch env cfg cfg.chain addresses topicsKey fromBlock page.endBlock
          (chainLogsFromRpc page.kept)
        processFetchedLogs env cfg page.kept
        Prog.when (page.truncated = true) (Prog.throw .rpcLimitExceeded)
termination_by addresses.length
decreasing_by
  · exact length_take_lt _h
  · exact length_drop_lt _h

/-- The loop of `syncHoleGroup`, with its cursor. -/
def syncHoles (addresses : List Text) (topics : Option (List Text)) (topicsKey : Text)
    (toBlock : Nat) : List BlockSpan → Nat → M Unit
  | [], cursor =>
    Prog.when (cursor ≤ toBlock) (replayCachedAddresses env cfg addresses topics cursor toBlock)
  | hole :: holes, cursor => do
    Prog.when (hole.fromBlock > cursor)
      (replayCachedAddresses env cfg addresses topics cursor (hole.fromBlock - 1))
    fetchStoreProcess env cfg addresses topics topicsKey hole.fromBlock hole.toBlock
    Prog.when (hole.toBlock ≠ u64Max)
      (syncHoles addresses topics topicsKey toBlock holes (hole.toBlock + 1))

/-- `syncHoleGroup` -/
def syncHoleGroup (addresses : List Text) (holes : List BlockSpan) (topics : Option (List Text))
    (topicsKey : Text) (fromBlock toBlock : Nat) : M Unit :=
  syncHoles env cfg addresses topics topicsKey toBlock holes fromBlock

/-- The first loop of `syncRangeChunkCached`: the holes of every address. -/
def groupByHoles (topicsKey : Text) (fromBlock toBlock : Nat) :
    List Text → List HoleGroup → M (List HoleGroup)
  | [], groups => pure groups
  | address :: addresses, groups => do
    let holes ← uncoveredLogRanges env cfg cfg.chain address topicsKey fromBlock toBlock
    groupByHoles topicsKey fromBlock toBlock addresses (placeAddress address holes groups)

/-- `syncRangeChunkCached` -/
def syncRangeChunkCached (addresses : List Text) (topics : Option (List Text)) (topicsKey : Text)
    (fromBlock toBlock : Nat) : M Unit := do
  let groups ← groupByHoles env cfg topicsKey fromBlock toBlock addresses []
  Prog.each groups fun g =>
    syncHoleGroup env cfg g.addrs g.holes topics topicsKey fromBlock toBlock

/-! ### Scanning a range -/

/-- `syncRangeChunk` -/
def syncRangeChunk (addresses : List Text) (topics : Option (List Text)) (topicsKey : Text)
    (fromBlock toBlock : Nat) : M Unit :=
  if cfg.logCacheEnabled = true then
    syncRangeChunkCached env cfg addresses topics topicsKey fromBlock toBlock
  else pullUncached env cfg addresses topics fromBlock toBlock

/-- The topics a request is filtered by. No configured event means no filter. -/
def topicsOpt : Option (List Text) :=
  if buildEventTopics cfg = [] then none else some (buildEventTopics cfg)

/-- `syncRangeWithAddresses` -/
def syncRangeWithAddresses (addresses : List Text) (fromBlock toBlock : Nat) : M Unit :=
  if addresses = [] then pure ()
  else
    let key := Text.topicsKey (buildEventTopics cfg)
    Prog.each (addressChunksFrom addresses.length cfg.maxAddressesPerRequest 0) fun b =>
      syncRangeChunk env cfg ((addresses.drop b.1).take (b.2 - b.1)) (topicsOpt cfg) key
        fromBlock toBlock

/-- The addresses the main scan watches. -/
def watchedAddresses (m : Mem) : List Text :=
  if cfg.templateMode = true then m.templateSet.live.map (·.1) else [cfg.contract.address]

/-- `syncRange` -/
def syncRange (fromBlock toBlock : Nat) : M Unit := do
  let addresses ← getMem (watchedAddresses cfg)
  syncRangeWithAddresses env cfg addresses fromBlock toBlock

/-- `rememberLiveLog` -/
def rememberLiveLog (lg : Log) : M Unit :=
  Prog.when (cfg.logCacheEnabled = true)
    (ignoring (insertChainLog env cfg cfg.chain (chainLogOf lg)))

end CacheSync

end Zponder
