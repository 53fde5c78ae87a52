import Zponder.World
import Zponder.Spans

/-!
# The database client

The functions of `db.Client` that the indexer calls. Each takes the write lock for
as long as it runs, sends its statements in the order of the source, and passes the
first failure on, unless the source swallows it. The three backends share one body
where they do the same; where they do not, the difference is a branch here as it is
there.
-/

namespace Zponder

open Imperative

namespace Tables

/-! ### The log cache -/

/-- `INSERT … ON CONFLICT(chain, tx_hash, log_index) DO NOTHING` -/
def insertChainLog (chain : Text) (lg : ChainLog) (t : Tables) : Tables :=
  if t.chainLogs.any (fun r => r.1 == chain && r.2.txHash == lg.txHash && r.2.logIndex == lg.logIndex)
  then t
  else { t with chainLogs := t.chainLogs ++ [(chain, lg)] }

/-- `SELECT … FROM chain_logs WHERE … ORDER BY block_number, log_index` -/
def selectChainLogs (chain address : Text) (fromBlock toBlock : Nat) (t : Tables) :
    List ChainLog :=
  ((t.chainLogs.filter fun r => r.1 == chain && r.2.address == address &&
      decide (fromBlock ≤ r.2.blockNumber) && decide (r.2.blockNumber ≤ toBlock)).map
    (·.2)).insertionSort
      fun a b => a.blockNumber < b.blockNumber ∨
        (a.blockNumber = b.blockNumber ∧ a.logIndex ≤ b.logIndex)

/-- `SELECT … FROM chain_log_ranges … ORDER BY from_block`, all of one key. -/
def selectRanges (chain address key : Text) (t : Tables) : List BlockSpan :=
  (t.chainLogRanges chain address key).insertionSort fun a b => a.fromBlock ≤ b.fromBlock

def putRanges (chain address key : Text) (spans : List BlockSpan) (t : Tables) : Tables :=
  let ofAddress := Function.update (t.chainLogRanges chain address) key spans
  let ofChain := Function.update (t.chainLogRanges chain) address ofAddress
  { t with chainLogRanges := Function.update t.chainLogRanges chain ofChain }

def deleteChainLogs (chain : Text) (fromBlock : Nat) (t : Tables) : Tables :=
  { t with chainLogs := t.chainLogs.filter fun r =>
      !(r.1 == chain && decide (r.2.blockNumber ≥ fromBlock)) }

/-- Change the ranges of every key of a chain. -/
def mapRanges (chain : Text) (f : List BlockSpan → List BlockSpan) (t : Tables) : Tables :=
  let row := fun address key => f (t.chainLogRanges chain address key)
  { t with chainLogRanges := Function.update t.chainLogRanges chain row }

end Tables

section Client

variable (env : Env) (cfg : Config)

/-! ### Events and dead letters -/

/-- `insertEventLog`: whether a row was inserted. -/
def insertEventLog (contractName eventName : Text) (fields : List DecodedField)
    (blockNumber : Nat) (txHash : Text) (logIndex : Nat) (contractAddress : Text) : M Bool :=
  guarded do
    let now ← Prog.read (·.now)
    let table := eventTable contractName eventName
    match cfg.backend with
    | .rocksdb =>
      exec env cfg .insertEventLog
        (Tables.putEvent ⟨⟨table, [], txHash, logIndex⟩, fields, blockNumber, now⟩)
    | _ =>
      exec env cfg .insertEventLog
        (Tables.insertEvent ⟨⟨table, contractAddress, txHash, logIndex⟩, fields, blockNumber, now⟩)

/-- `insertRawLog` -/
def insertRawLog (contractAddress : Text) (blockNumber : Nat) (txHash : Text) (logIndex : Nat)
    (topics data reason logAddress : Text) : M Unit :=
  let row : RawLogRow :=
    ⟨0, contractAddress, blockNumber, txHash, logIndex, topics, data, reason, logAddress, 0, 0⟩
  guarded <|
    match cfg.backend with
    | .rocksdb => execWrite env cfg .insertRawLog fun t =>
      { t with rawLogs := t.rawLogs.filter (fun r => !(r.contractAddress == contractAddress &&
          r.blockNumber == blockNumber && r.txHash == txHash && r.logIndex == logIndex)) ++ [row] }
    | _ => execWrite env cfg .insertRawLog (Tables.insertRawLog row)

/-- `listRawLogs` -/
def listRawLogs (contractKey : Text) (limit now : Nat) : M (List RawLogRow) :=
  guarded <|
    match cfg.backend with
    | .rocksdb => pure []
    | _ => execScan env cfg .listRawLogs (Tables.dueRawLogs contractKey limit now)

/-- `deleteRawLog` -/
def deleteRawLog (id : Nat) : M Unit :=
  guarded <|
    match cfg.backend with
    | .rocksdb => pure ()
    | _ => execWrite env cfg .deleteRawLog (Tables.deleteRawLog id)

/-- `bumpRawLogAttempt` -/
def bumpRawLogAttempt (id retryAfter : Nat) : M Unit :=
  guarded <|
    match cfg.backend with
    | .rocksdb => pure ()
    | _ => execWrite env cfg .bumpRawLogAttempt (Tables.bumpRawLog id retryAfter)

/-! ### Cursors, hashes, blocks, snapshots -/

/-- `getSyncState` -/
def getSyncState (key : Text) : M (Option SyncState) :=
  guarded (execFind env cfg .getSyncState fun t => t.syncState key)

/-- `upsertSyncState` -/
def upsertSyncState (key : Text) (lastSyncedBlock : Nat) (status : Text) : M Unit :=
  guarded (execWrite env cfg .upsertSyncState (Tables.putSyncState key ⟨lastSyncedBlock, status⟩))

/-- `deleteSyncState` -/
def deleteSyncState (key : Text) : M Unit :=
  guarded (execWrite env cfg .deleteSyncState (Tables.dropSyncState key))

/-- `db.Client.getBlockHash` -/
def getBlockHash (key : Text) (b : Nat) : M (Option Text) :=
  guarded (execFind env cfg .getBlockHash fun t => t.blockHashes key b)

/-- `upsertBlockHash` -/
def upsertBlockHash (key : Text) (b : Nat) (h : Text) : M Unit :=
  guarded (execWrite env cfg .upsertBlockHash (Tables.putBlockHash key b h))

/-- `getBlockTimestamp` -/
def getBlockTimestamp (chain : Text) (b : Nat) : M (Option Nat) :=
  guarded (execFind env cfg .getBlockTimestamp fun t => (t.blocks chain b).map (·.timestamp))

/-- `upsertBlock` -/
def upsertBlock (chain : Text) (d : BlockData) : M Unit :=
  guarded (execWrite env cfg .upsertBlock (Tables.putBlock chain d))

/-- `createSnapshot` -/
def createSnapshot (r : SnapshotRow) : M Unit :=
  guarded (execWrite env cfg .createSnapshot (Tables.addSnapshot r))

/-! ### Balances -/

/-- `getAccountBalance`: on SQLite through the second connection, if there is one. -/
def getAccountBalance (incoming : Bool) (contract account : Text) : M (Option Nat) :=
  let call := DbCall.getAccountBalance incoming
  let g : Tables → Option Nat := fun t => (t.accounts contract account).map (·.balance)
  guarded do
    let now ← Prog.read (·.now)
    if cfg.backend = .sqlite ∧ cfg.readDb = true then do
      let row ← onConn (Conn.side (env.faultAt now call) g)
      pure (cutRows env cfg now call row.toList).head?
    else execFind env cfg call g

/-- `upsertAccountState` -/
def upsertAccountState (incoming : Bool) (contract account : Text) (s : AccountState) : M Unit :=
  guarded (execWrite env cfg (.upsertAccountState incoming) (Tables.putAccount contract account s))

/-! ### Clones of a template -/

/-- `addTemplateAddress`, the `i`-th of one moment. -/
def addTemplateAddress (i : Nat) (template address : Text) (fromBlock : Nat) : M Unit :=
  guarded <|
    match cfg.backend with
    | .rocksdb => Prog.throw .unsupportedOperation
    | _ => execWrite env cfg (.addTemplateAddress i)
      (Tables.addTemplateAddress ⟨template, address, fromBlock, false⟩)

/-- `listTemplateAddresses` -/
def listTemplateAddresses (template : Text) : M (List TemplateAddress) :=
  guarded <|
    match cfg.backend with
    | .rocksdb => Prog.throw .unsupportedOperation
    | _ => execScan env cfg .listTemplateAddresses fun t =>
      (t.templateAddresses.filter (·.template == template)).insertionSort fun a b =>
        a.fromBlock < b.fromBlock ∨
          (a.fromBlock = b.fromBlock ∧ Text.le a.address b.address = true)

/-- `markTemplateAddressBackfilled` -/
def markTemplateAddressBackfilled (template address : Text) : M Unit :=
  guarded <|
    match cfg.backend with
    | .rocksdb => Prog.throw .unsupportedOperation
    | _ => execWrite env cfg .markTemplateAddressBackfilled (Tables.markBackfilled template address)

/-- `deleteTemplateAddressesFromBlock` -/
def deleteTemplateAddressesFromBlock (template : Text) (fromBlock : Nat) : M Unit :=
  guarded <|
    match cfg.backend with
    | .rocksdb => Prog.throw .unsupportedOperation
    | _ => execWrite env cfg .deleteTemplateAddresses
      (Tables.deleteTemplateAddresses template fromBlock)

/-! ### Deleting by block -/

/-- `deleteEventLogsInRange` -/
def deleteEventLogsInRange (contractName eventName : Text) (fromBlock toBlock : Nat) : M Unit :=
  guarded (execWrite env cfg (.deleteEventLogs eventName)
    (Tables.deleteEvents (eventTable contractName eventName) fromBlock toBlock))

/-- `deleteRawLogsFrom` -/
def deleteRawLogsFrom (contractKey : Text) (fromBlock toBlock : Nat) : M Unit :=
  match cfg.backend with
  | .rocksdb => pure ()
  | _ => execWrite env cfg .deleteRawLogs (Tables.deleteRawLogs contractKey fromBlock toBlock)

/-- A projection table whose name would break out of the quotes is left alone on
PostgreSQL. -/
def cascades (table : Text) : Bool := !(cfg.backend == .postgresql && table.contains '"')

/-- One `DELETE` of the cascade. Its failure is skipped over. -/
def deleteProjection (fromBlock toBlock : Nat) (table : Text) : M Unit :=
  if cascades cfg table then
    ignoring (execWrite env cfg (.deleteProjections table)
      (Tables.deleteProjRows table fromBlock toBlock))
  else pure ()

/-- `deleteProjectionsFromBlock`: every projection table, whoever wrote its rows. -/
def deleteProjectionsFromBlock (fromBlock toBlock : Nat) : M Unit :=
  guarded <|
    if fromBlock > toBlock then pure ()
    else
      match cfg.backend with
      | .rocksdb => pure ()
      | _ => do
        let names ← execScan env cfg .listProjections (·.projTables)
        Prog.each names (deleteProjection env cfg fromBlock toBlock)

/-- The projection tables a rollback knows of. Where the list cannot be read, SQLite
goes on without it. -/
def listProjections : M (List Text) :=
  let names := execScan env cfg .listProjections (·.projTables)
  match cfg.backend with
  | .sqlite => Prog.catching names fun _ => pure []
  | _ => names

/-- The cascade of a rollback. -/
def cascadeProjections (fromBlock : Nat) : M Unit := do
  let names ← listProjections env cfg
  Prog.each names (deleteProjection env cfg fromBlock u64Max)

/-- `trimLogCacheUnlocked` -/
def trimLogCacheUnlocked (chain : Text) (fromBlock : Nat) : M Unit :=
  if cfg.logCacheEnabled then do
    execWrite env cfg .trimChainLogs (Tables.deleteChainLogs chain fromBlock)
    execWrite env cfg .trimChainLogRanges
      (Tables.mapRanges chain fun spans => spans.filter fun s => !decide (s.fromBlock ≥ fromBlock))
    if fromBlock = 0 then pure ()
    else
      execWrite env cfg .cutChainLogRanges
        (Tables.mapRanges chain fun spans => spans.map fun s =>
          if s.fromBlock < fromBlock ∧ s.toBlock ≥ fromBlock
          then { s with toBlock := fromBlock - 1 } else s)
  else pure ()

/-- A transaction: whatever fails inside rolls it back. It takes one moment. -/
def inTransaction (body : M Unit) : M Unit :=
  let bracket : M Unit := do
    beginWrite env cfg
    Prog.onErr (do body; commitWrite env cfg) (rollbackWrite env)
  Prog.after bracket World.ticked

/-- `rollbackFromBlockRocks`: one batch, then the cursor, which is put whether or
not there was one. -/
def rollbackFromBlockRocks (key contractName : Text) (eventNames : List Text) (fromBlock : Nat)
    (chain : Text) : M Unit := do
  execWrite env cfg .commitWrite fun t =>
    let t := eventNames.foldl
      (fun t e => t.deleteEvents (eventTable contractName e) fromBlock u64Max) t
    ((t.deleteSnapshots key fromBlock).deleteBlockHashes key fromBlock).deleteBlocks chain fromBlock
  execWrite env cfg .rewindSyncState
    (Tables.putSyncState key ⟨fromBlock, "reorg_rollback".toList⟩)

/-- The cursor and the projections of a rollback. Which of them comes first is all
that SQLite and PostgreSQL differ in. -/
def rewindAndCascade (key : Text) (fromBlock : Nat) : M Unit :=
  let rewind := execWrite env cfg .rewindSyncState (Tables.rewindSyncState key fromBlock)
  if cfg.backend = .sqlite then do
    rewind
    cascadeProjections env cfg fromBlock
  else do
    cascadeProjections env cfg fromBlock
    rewind

/-- The statements of `rollbackFromBlock` on SQLite and PostgreSQL. -/
def rollbackStatements (key contractName : Text) (eventNames : List Text) (fromBlock : Nat)
    (chain : Text) : M Unit := do
  Prog.each eventNames fun e => execWrite env cfg (.deleteEventLogs e)
    (Tables.deleteEvents (eventTable contractName e) fromBlock u64Max)
  execWrite env cfg .deleteSnapshots (Tables.deleteSnapshots key fromBlock)
  execWrite env cfg .deleteBlockHashes (Tables.deleteBlockHashes key fromBlock)
  rewindAndCascade env cfg key fromBlock
  Prog.when (cfg.logCache = true ∧ chain ≠ []) (trimLogCacheUnlocked env cfg chain fromBlock)
  execWrite env cfg .deleteBlocks (Tables.deleteBlocks chain fromBlock)
  deleteRawLogsFrom env cfg key fromBlock u64Max

/-- `rollbackFromBlock`: everything of one indexer from a block on, and the
projection rows of everybody. -/
def rollbackFromBlock (key contractName : Text) (eventNames : List Text) (fromBlock : Nat)
    (chain : Text) : M Unit :=
  guarded <|
    match cfg.backend with
    | .rocksdb => rollbackFromBlockRocks env cfg key contractName eventNames fromBlock chain
    | _ => inTransaction env cfg
      (rollbackStatements env cfg key contractName eventNames fromBlock chain)

/-- The statements of `resetForReplay`. -/
def resetStatements (stateKey contractName : Text) (eventNames : List Text)
    (fromBlock toBlock : Nat) : M Unit := do
  Prog.each eventNames fun e => deleteEventLogsInRange env cfg contractName e fromBlock toBlock
  deleteProjectionsFromBlock env cfg fromBlock toBlock
  deleteRawLogsFrom env cfg stateKey fromBlock toBlock
  upsertSyncState env cfg stateKey fromBlock "replaying".toList

/-- `resetForReplay` -/
def resetForReplay (stateKey contractName : Text) (eventNames : List Text)
    (fromBlock toBlock : Nat) : M Unit :=
  match cfg.backend with
  | .rocksdb => resetStatements env cfg stateKey contractName eventNames fromBlock toBlock
  | _ => inTransaction env cfg (resetStatements env cfg stateKey contractName eventNames fromBlock toBlock)

/-! ### The log cache -/

/-- `insertChainLogTx`, the `i`-th of one moment. -/
def insertChainLogTx (i : Nat) (chain address : Text) (lg : ChainLog) : M Unit :=
  execWrite env cfg (.insertChainLog i) (Tables.insertChainLog chain { lg with address := address })

/-- `listLogRanges` -/
def listLogRanges (chain address key : Text) (fromBlock toBlock : Nat) : M (List BlockSpan) :=
  if cfg.logCacheEnabled then
    execScan env cfg (.listLogRanges address) fun t =>
      (t.selectRanges chain (Text.cacheAddress address) key).filter fun s =>
        decide (s.fromBlock ≤ toBlock) && decide (s.toBlock ≥ fromBlock)
  else pure []

/-- `uncoveredLogRanges` -/
def uncoveredLogRanges (chain address key : Text) (fromBlock toBlock : Nat) :
    M (List BlockSpan) :=
  guarded do
    let covered ← listLogRanges env cfg chain address key fromBlock toBlock
    pure (uncovered covered fromBlock toBlock (covered.length + 1))

/-- `markLogRangeTx`, the `i`-th of one moment: the ranges of the key are read,
merged with the new one, deleted and written back. -/
def markLogRangeTx (i : Nat) (chain address key : Text) (fromBlock toBlock : Nat) : M Unit := do
  let spans ← execScan env cfg (.listLogRanges address) (Tables.selectRanges chain address key)
  let merged := mergeSpans (spans ++ [⟨fromBlock, toBlock⟩])
  execWrite env cfg (.markLogRange (2 * i)) (Tables.putRanges chain address key [])
  execWrite env cfg (.markLogRange (2 * i + 1)) (Tables.putRanges chain address key merged)

/-- `loadChainLogs` -/
def loadChainLogs (chain address : Text) (fromBlock toBlock : Nat) : M (List ChainLog) :=
  guarded <|
    if cfg.logCacheEnabled then
      execScan env cfg (.loadChainLogs address)
        (Tables.selectChainLogs chain (Text.cacheAddress address) fromBlock toBlock)
    else pure []

/-- `storeLogCacheBatch`: the rows of the range, then the range of every address. -/
def storeLogCacheBatch (chain : Text) (addresses : List Text) (key : Text)
    (fromBlock toBlock : Nat) (logs : List ChainLog) : M Unit :=
  if cfg.logCacheEnabled then
    if fromBlock > toBlock then pure ()
    else
      inTransaction env cfg do
        Prog.each logs.zipIdx fun (lg, i) =>
          if lg.blockNumber < fromBlock ∨ lg.blockNumber > toBlock then pure ()
          else insertChainLogTx env cfg i chain (Text.cacheAddress lg.address) lg
        Prog.each addresses.zipIdx fun (a, i) =>
          markLogRangeTx env cfg i chain (Text.cacheAddress a) key fromBlock toBlock
  else pure ()

/-- `insertChainLog` -/
def insertChainLog (chain : Text) (lg : ChainLog) : M Unit :=
  guarded <|
    if cfg.logCacheEnabled then insertChainLogTx env cfg 0 chain (Text.cacheAddress lg.address) lg
    else pure ()

end Client

end Zponder
