import Zponder.Lib.Calls
import Zponder.Coverage
import Zponder.EventTables
import Zponder.AbiText
import Zponder.Responses

/-!
# The numbers of statements

The calls of the database client that take a block number or a log index, and the call of a
handler, as the casts they make on the way. A number from outside is a `u64`, every value of
which the readers of numbers accept; SQLite and the engine of the handlers take an `i64`, and
PostgreSQL and RocksDB take text. A call is a program of `Calls` here: what the
database answers to a statement is not known, and what it returns besides is left out.

The open end of a range is guarded, and nothing else is: every other number is cast as it is. So
a call returns whatever the database answers exactly if the numbers it casts fit
(`Zponder.Binds.call_returns_iff`).
-/

namespace Zponder.Binds

open Imperative Calls Text

open EventTables (tableName eventColumnName)

/-- The errors of the client. -/
inductive DbError where
  | prepareFailed
  | bindFailed
  | execFailed
  | noSpaceLeft
  | tooManyParams
  | unsupportedOperation
  | invalidData
  | rocksdb
  deriving DecidableEq, Repr

/-- A call of the client. -/
abbrev Db := Prog Replies DbError

/-- The largest `c_int`. -/
def maxCInt : Nat := 2 ^ 31 - 1

/-! ### Statements -/

/-- A value of a statement. -/
inductive Bind where
  | text (s : Text)
  | int64 (n : UInt64)

/-- What is cast of a value fits: the length of a text, and a number, unless it is printed. -/
def Bind.Fits (backend : Backend) : Bind → Prop
  | .text s => s.length ≤ maxCInt
  | .int64 n => backend = .postgresql ∨ n.toNat ≤ Coverage.maxBigint

/-- A value as PostgreSQL takes it. A `u64` fits its buffer of 21 bytes. -/
def Bind.param : Bind → Text
  | .text s => s
  | .int64 n => decimal n.toNat

/-- `sqlite3_prepare_v2` of a text that is put together. -/
def prepare (sql : Text) : Db Unit := do
  narrow maxCInt sql.length
  call .prepareFailed

/-- `sqlite3_bind_text` and `sqlite3_bind_int64` -/
def bindValue : Bind → Db Unit
  | .text s => do
    narrow maxCInt s.length
    call .bindFailed
  | .int64 n => do
    narrow Coverage.maxBigint n.toNat
    call .bindFailed

/-- The values of a statement, and its run. -/
def runWith (binds : List Bind) : Db Unit := do
  Prog.each binds bindValue
  call .execFailed

/-- `pg_impl.execParams` -/
def execParams (params : List Text) : Db Unit := do
  ensure (params.length ≤ 32) .tooManyParams
  Prog.each params fun p => narrow maxCInt p.length
  call .execFailed

/-- A statement whose text is known when the program is built, or stands in a buffer on the
stack: its length is never too large. -/
def execute (backend : Backend) (binds : List Bind) : Db Unit :=
  match backend with
  | .postgresql => execParams (binds.map Bind.param)
  | _ => do
    call .prepareFailed
    runWith binds

/-- `std.fmt.bufPrint`, into a buffer of so many bytes. -/
def bufPrint (capacity : Nat) (s : Text) : Db Unit := ensure (s.length ≤ capacity) .noSpaceLeft

/-- `{d:0>20}` -/
def padded (n : UInt64) : Text := (decimal n.toNat).leftpad 20 '0'

/-- What the calls find: the backend, whether the log cache is on, the tables of projections, and
the events that have a handler, if there is an engine. -/
structure Process where
  backend : Backend
  logCache : Bool := false
  projections : List Text := []
  handlers : Option (List Text) := none

namespace Process

variable (w : Process)

def logCacheEnabled : Bool := w.logCache && w.backend != .rocksdb

/-! ### Events and dead letters -/

/-- The statement of `insertEventLog`. -/
def insertSql (contractName eventName : Text) (fields : List DecodedField) : Text :=
  "INSERT OR IGNORE INTO ".toList ++ tableName contractName eventName ++ " (".toList ++
    List.intercalate ",".toList (fields.map fun f => eventColumnName f.name) ++
    ",block_number,tx_hash,log_index,contract_address) VALUES (".toList ++
    List.intercalate ",".toList (fields.map fun _ => "?".toList) ++ ",?,?,?,?);".toList

/-- The values of `insertEventLog`. -/
def eventBinds (fields : List DecodedField) (blockNumber : UInt64) (txHash : Text)
    (logIndex : UInt64) (contractAddress : Text) : List Bind :=
  (fields.map fun f => .text f.value) ++
    [.int64 blockNumber, .text txHash, .int64 logIndex, .text contractAddress]

/-- `insertEventLog` -/
def insertEventLog (contractName eventName : Text) (fields : List DecodedField)
    (blockNumber : UInt64) (txHash : Text) (logIndex : UInt64) (contractAddress : Text) :
    Db Unit :=
  match w.backend with
  | .rocksdb => do
    bufPrint 512 ("e:".toList ++ contractName ++ ":".toList ++ eventName ++ ":".toList ++
      padded blockNumber ++ ":".toList ++ txHash ++ ":".toList ++ padded logIndex)
    call .rocksdb
  | .postgresql =>
    execParams ((eventBinds fields blockNumber txHash logIndex contractAddress).map Bind.param)
  | .sqlite => do
    prepare (insertSql contractName eventName fields)
    runWith (eventBinds fields blockNumber txHash logIndex contractAddress)

/-- The values of `insertRawLog`. -/
def rawLogBinds (contractAddress : Text) (blockNumber : UInt64) (txHash : Text)
    (logIndex : UInt64) (topics data reason logAddress : Text) : List Bind :=
  [.text contractAddress, .int64 blockNumber, .text txHash, .int64 logIndex, .text topics,
    .text data, .text reason, .text logAddress, .text contractAddress, .text txHash,
    .int64 logIndex]

/-- `insertRawLog` -/
def insertRawLog (contractAddress : Text) (blockNumber : UInt64) (txHash : Text)
    (logIndex : UInt64) (topics data reason logAddress : Text) : Db Unit :=
  match w.backend with
  | .rocksdb => do
    bufPrint 256 ("r:".toList ++ contractAddress ++ ":".toList ++ padded blockNumber ++
      ":".toList ++ txHash ++ ":".toList ++ padded logIndex)
    call .rocksdb
  | backend => execute backend
      (rawLogBinds contractAddress blockNumber txHash logIndex topics data reason logAddress)

/-! ### The cursor -/

/-- The values of `upsertSyncState`. -/
def syncStateBinds (contractAddress : Text) (lastSyncedBlock : UInt64) (status : Text) :
    List Bind :=
  [.text contractAddress, .int64 lastSyncedBlock, .text status]

/-- `upsertSyncState` -/
def upsertSyncState (contractAddress : Text) (lastSyncedBlock : UInt64) (status : Text) :
    Db Unit :=
  match w.backend with
  | .rocksdb => do
    bufPrint 128 ("s:".toList ++ contractAddress)
    bufPrint 256 ("\x7b\"last_synced_block\":".toList ++ decimal lastSyncedBlock.toNat ++
      ",\"status\":\"".toList ++ status ++ "\"\x7d".toList)
    call .rocksdb
  | backend => execute backend (syncStateBinds contractAddress lastSyncedBlock status)

/-! ### Queries -/

/-- The statement of `queryEventLogs`. -/
def selectSql (contractName eventName : Text) (blockFrom blockTo : Option UInt64)
    (txHash address : Option Text) (orderDesc : Bool) : Text :=
  "SELECT * FROM ".toList ++ tableName contractName eventName ++ " WHERE 1=1".toList ++
    (if blockFrom.isSome then " AND block_number >= ?".toList else []) ++
    (if blockTo.isSome then " AND block_number <= ?".toList else []) ++
    (if txHash.isSome then " AND tx_hash = ?".toList else []) ++
    (if address.isSome then " AND contract_address = ?".toList else []) ++
    (if orderDesc then " ORDER BY block_number DESC" else " ORDER BY block_number ASC").toList ++
    " LIMIT ? OFFSET ?;".toList

/-- The values of `queryEventLogs`. -/
def queryBinds (blockFrom blockTo : Option UInt64) (txHash address : Option Text)
    (limit offset : UInt32) : List Bind :=
  (blockFrom.toList.map .int64 ++ blockTo.toList.map .int64) ++
    (txHash.toList.map .text ++ address.toList.map .text) ++
    [.int64 limit.toUInt64, .int64 offset.toUInt64]

/-- `queryEventLogs`: a step that fails ends the rows. -/
def queryEventLogs (contractName eventName : Text) (blockFrom blockTo : Option UInt64)
    (txHash address : Option Text) (limit offset : UInt32) (orderDesc : Bool) : Db Unit :=
  match w.backend with
  | .rocksdb => do
    ensure (address = none) .unsupportedOperation
    let name := "e:".toList ++ contractName ++ ":".toList ++ eventName ++ ":".toList
    bufPrint 256 name
    Prog.each blockFrom.toList fun b => bufPrint 256 (name ++ padded b ++ ":".toList)
    match blockTo with
    | some b => bufPrint 256 (name ++ padded b ++ ":\xff".toList)
    | none => bufPrint 256 (name ++ "\xff".toList)
  | .postgresql =>
    execParams ((queryBinds blockFrom blockTo txHash address limit offset).map Bind.param)
  | .sqlite => do
    prepare (selectSql contractName eventName blockFrom blockTo txHash address orderDesc)
    Prog.each (queryBinds blockFrom blockTo txHash address limit offset) bindValue
    ignored

/-! ### The log cache -/

/-- The values of `insertChainLogTx`. -/
def chainLogBinds (chain address : Text) (blockNumber : UInt64) (txHash : Text)
    (logIndex : UInt64) (topics data : Text) : List Bind :=
  [.text chain, .text address, .int64 blockNumber, .text txHash, .int64 logIndex, .text topics,
    .text data]

/-- `insertChainLogTx` -/
def insertChainLogTx (chain address : Text) (blockNumber : UInt64) (txHash : Text)
    (logIndex : UInt64) (topics data : Text) : Db Unit :=
  execute w.backend (chainLogBinds chain address blockNumber txHash logIndex topics data)

/-- The values of `loadChainLogs`. -/
def rangeBinds (chain address : Text) (fromBlock toBlock : UInt64) : List Bind :=
  [.text chain, .text (cacheAddress address), .int64 fromBlock, .int64 toBlock]

/-- `loadChainLogs`: the rows of PostgreSQL are numbers again if it has kept them. -/
def loadChainLogs (chain address : Text) (fromBlock toBlock : UInt64) : Db Unit :=
  if w.logCacheEnabled = false then pure ()
  else
    match w.backend with
    | .postgresql => do
      execParams ((rangeBinds chain address fromBlock toBlock).map Bind.param)
      call .invalidData
    | _ => do
      call .prepareFailed
      Prog.each (rangeBinds chain address fromBlock toBlock) bindValue
      ignored

/-- `execBind2` -/
def execBind2 (sql chain : Text) (block : UInt64) : Db Unit := do
  prepare sql
  runWith [.text chain, .int64 block]

/-- `del_logs` -/
def deleteChainLogsSql : Text :=
  "DELETE FROM sync.chain_logs WHERE chain = ? AND block_number >= ?;".toList

/-- `del_ranges` -/
def deleteChainLogRangesSql : Text :=
  "DELETE FROM sync.chain_log_ranges WHERE chain = ? AND from_block >= ?;".toList

/-- `trimLogCacheUnlocked` -/
def trimLogCacheUnlocked (chain : Text) (fromBlock : UInt64) : Db Unit :=
  if w.logCacheEnabled = false then pure ()
  else
    match w.backend with
    | .postgresql => do
      execParams [chain, decimal fromBlock.toNat]
      execParams [chain, decimal fromBlock.toNat]
      Prog.when (fromBlock ≠ 0)
        (execParams [decimal (fromBlock - 1).toNat, chain, decimal fromBlock.toNat])
    | _ => do
      execBind2 deleteChainLogsSql chain fromBlock
      execBind2 deleteChainLogRangesSql chain fromBlock
      Prog.when (fromBlock ≠ 0) do
        call .prepareFailed
        runWith [.int64 (fromBlock - 1), .text chain, .int64 fromBlock, .int64 fromBlock]

/-! ### Deleting a range -/

/-- A range without an upper end, as far as a column can tell. -/
def openEnd (toBlock : UInt64) : Bool := decide (Coverage.maxBigint < toBlock.toNat)

/-- The place of a value in a statement. -/
def place (i : Text) : Text := if w.backend = .postgresql then '$' :: i else "?".toList

/-- The statement that deletes the blocks of a range from a table. -/
def deleteSql (table : Text) (toBlock : UInt64) : Text :=
  "DELETE FROM ".toList ++ table ++ " WHERE block_number >= ".toList ++ w.place "1".toList ++
    (if openEnd toBlock then ";".toList
      else " AND block_number <= ".toList ++ w.place "2".toList ++ ";".toList)

/-- The values of that statement. -/
def deleteBinds (fromBlock toBlock : UInt64) : List Bind :=
  .int64 fromBlock :: if openEnd toBlock then [] else [.int64 toBlock]

/-- The statement for an event has room in its buffer. -/
def HasRoom (contractName : Text) (toBlock : UInt64) (eventName : Text) : Prop :=
  (w.deleteSql (tableName contractName eventName) toBlock).length ≤ 256

/-- `deleteEventLogsInRange` -/
def deleteEventLogsInRange (contractName eventName : Text) (fromBlock toBlock : UInt64) :
    Db Unit :=
  match w.backend with
  | .rocksdb => do
    let name := "e:".toList ++ contractName ++ ":".toList ++ eventName ++ ":".toList
    bufPrint 128 name
    bufPrint 256 (name ++ padded fromBlock ++ ":".toList)
    bufPrint 256 (name ++ padded toBlock ++ ":\xff".toList)
    call .rocksdb
  | backend => do
    bufPrint 256 (w.deleteSql (tableName contractName eventName) toBlock)
    execute backend (deleteBinds fromBlock toBlock)

/-- A name between quotation marks. -/
def quoted (table : Text) : Text := '"' :: (table ++ ['"'])

/-- One table of projections: an error goes on with the next one. -/
def deleteProjection (fromBlock toBlock : UInt64) (table : Text) : Db Unit :=
  Prog.catching (do
    bufPrint 512 (w.deleteSql (quoted table) toBlock)
    execute w.backend (deleteBinds fromBlock toBlock)) fun _ => pure ()

/-- The tables of projections that are looked at: PostgreSQL leaves out a name with a quotation
mark. -/
def projectionTables : List Text :=
  if w.backend = .postgresql then w.projections.filter fun table => decide ('"' ∉ table)
  else w.projections

/-- `deleteProjectionsFromBlock` -/
def deleteProjectionsFromBlock (fromBlock toBlock : UInt64) : Db Unit :=
  if toBlock < fromBlock then pure ()
  else
    match w.backend with
    | .rocksdb => pure ()
    | backend => do
      call (if backend = .postgresql then .execFailed else .prepareFailed)
      Prog.each w.projectionTables (w.deleteProjection fromBlock toBlock)

/-- `deleteRawLogsFrom` -/
def deleteRawLogsFrom (contractKey : Text) (fromBlock toBlock : UInt64) : Db Unit :=
  match w.backend with
  | .rocksdb => pure ()
  | backend => execute backend (.text contractKey :: deleteBinds fromBlock toBlock)

/-! ### Replays and rollbacks -/

/-- `resetForReplay` -/
def resetForReplay (stateKey contractName : Text) (eventNames : List Text)
    (fromBlock toBlock : UInt64) : Db Unit := do
  let body : Db Unit := do
    Prog.each eventNames fun name =>
      w.deleteEventLogsInRange contractName name fromBlock toBlock
    w.deleteProjectionsFromBlock fromBlock toBlock
    w.deleteRawLogsFrom stateKey fromBlock toBlock
    w.upsertSyncState stateKey fromBlock "replaying".toList
  if w.backend = .rocksdb then body
  else do
    call .execFailed
    Prog.onErr (do body; call .execFailed) ignored

/-- The largest `u64`. -/
def maxU64 : UInt64 := -1

/-- The end of a replay: without one, or with one that lies before the beginning, the last block
there can be. -/
def replayTo (fromBlock toBlock : UInt64) : UInt64 :=
  if toBlock = 0 ∨ toBlock < fromBlock then maxU64 else toBlock

/-- `Indexer.setReplay`, as far as it deletes. -/
def setReplay (stateKey contractName : Text) (eventNames : List Text)
    (fromBlock toBlock : UInt64) : Db Unit :=
  w.resetForReplay stateKey contractName eventNames fromBlock (replayTo fromBlock toBlock)

/-- What RocksDB looks for in front of and at a block. -/
def seek (capacity capacity' : Nat) (name : Text) (fromBlock : UInt64) (rest : Text) :
    Db Unit := do
  bufPrint capacity name
  bufPrint capacity' (name ++ padded fromBlock ++ rest)

/-- The events of one table, from a block on. -/
def deleteEvents (contractName : Text) (fromBlock : UInt64) (name : Text) : Db Unit := do
  bufPrint 256 (w.deleteSql (tableName contractName name) maxU64)
  execute w.backend [.int64 fromBlock]

/-- `rollbackFromBlock` -/
def rollbackFromBlock (contractAddress contractName : Text) (eventNames : List Text)
    (fromBlock : UInt64) (chain : Text) : Db Unit :=
  match w.backend with
  | .rocksdb => do
    Prog.each eventNames fun name => seek 128 256
      ("e:".toList ++ contractName ++ ":".toList ++ name ++ ":".toList) fromBlock ":".toList
    seek 128 256 ("p:".toList ++ contractAddress ++ ":".toList) fromBlock []
    seek 128 256 ("h:".toList ++ contractAddress ++ ":".toList) fromBlock []
    seek 192 192 ("b:".toList ++ chain ++ ":".toList) fromBlock []
    call .rocksdb
    bufPrint 128 ("s:".toList ++ contractAddress)
    bufPrint 128 ("\x7b\"last_synced_block\":".toList ++ decimal fromBlock.toNat ++
      ",\"status\":\"reorg_rollback\"\x7d".toList)
    call .rocksdb
  | .postgresql => do
    call .execFailed
    Prog.onErr (do
      Prog.each eventNames (w.deleteEvents contractName fromBlock)
      execute .postgresql [.text contractAddress, .int64 fromBlock]
      execute .postgresql [.text contractAddress, .int64 fromBlock]
      call .execFailed
      Prog.each w.projectionTables (w.deleteProjection fromBlock maxU64)
      execute .postgresql [.int64 fromBlock, .text contractAddress]
      Prog.when (w.logCache = true ∧ chain ≠ []) (w.trimLogCacheUnlocked chain fromBlock)
      execute .postgresql [.text chain, .int64 fromBlock]
      w.deleteRawLogsFrom contractAddress fromBlock maxU64
      call .execFailed) ignored
  | .sqlite => do
    call .execFailed
    Prog.onErr (do
      Prog.each eventNames (w.deleteEvents contractName fromBlock)
      execute .sqlite [.text contractAddress, .int64 fromBlock]
      execute .sqlite [.text contractAddress, .int64 fromBlock]
      execute .sqlite [.int64 fromBlock, .text contractAddress]
      -- a list of tables that cannot be read is an empty one
      Prog.catching (do
        call .prepareFailed
        Prog.each w.projectionTables (w.deleteProjection fromBlock maxU64)) fun _ => pure ()
      Prog.when (w.logCache = true ∧ chain ≠ []) (w.trimLogCacheUnlocked chain fromBlock)
      execute .sqlite [.text chain, .int64 fromBlock]
      w.deleteRawLogsFrom contractAddress fromBlock maxU64
      call .execFailed) ignored

/-! ### Handlers -/

/-- There is an engine, and a handler for the event. -/
def Handles (contractName eventName : Text) : Prop := ∃ handlers ∈ w.handlers,
  contractName ++ ':' :: eventName ∈ handlers ∨ eventName ∈ handlers

instance (contractName eventName : Text) : Decidable (w.Handles contractName eventName) :=
  inferInstanceAs (Decidable (∃ handlers ∈ w.handlers,
    contractName ++ ':' :: eventName ∈ handlers ∨ eventName ∈ handlers))

/-- `handleEvent`, up to what the handler answers. -/
def handleEvent (contractName eventName : Text)
    (blockNumber blockTimestamp logIndex : UInt64) : Db Unit :=
  if w.Handles contractName eventName then do
    narrow Coverage.maxBigint logIndex.toNat
    narrow Coverage.maxBigint logIndex.toNat
    narrow Coverage.maxBigint blockNumber.toNat
    narrow Coverage.maxBigint blockTimestamp.toNat
    ignored
  else pure ()

end Process

/-! ### Calls -/

/-- A call with numbers from outside. -/
inductive Call where
  | insertEventLog (contractName eventName : Text) (fields : List DecodedField)
      (blockNumber : UInt64) (txHash : Text) (logIndex : UInt64) (contractAddress : Text)
  | insertRawLog (contractAddress : Text) (blockNumber : UInt64) (txHash : Text)
      (logIndex : UInt64) (topics data reason logAddress : Text)
  | upsertSyncState (contractAddress : Text) (lastSyncedBlock : UInt64) (status : Text)
  | queryEventLogs (contractName eventName : Text) (blockFrom blockTo : Option UInt64)
      (txHash address : Option Text) (limit offset : UInt32) (orderDesc : Bool)
  | insertChainLogTx (chain address : Text) (blockNumber : UInt64) (txHash : Text)
      (logIndex : UInt64) (topics data : Text)
  | loadChainLogs (chain address : Text) (fromBlock toBlock : UInt64)
  | execBind2 (sql chain : Text) (block : UInt64)
  | deleteEventLogsInRange (contractName eventName : Text) (fromBlock toBlock : UInt64)
  | setReplay (stateKey contractName : Text) (eventNames : List Text)
      (fromBlock toBlock : UInt64)
  | rollbackFromBlock (contractAddress contractName : Text) (eventNames : List Text)
      (fromBlock : UInt64) (chain : Text)
  | handleEvent (contractName eventName : Text) (blockNumber blockTimestamp logIndex : UInt64)

namespace Call

/-- What a call does. -/
def run (w : Process) : Call → Db Unit
  | .insertEventLog contractName eventName fields blockNumber txHash logIndex contractAddress =>
    w.insertEventLog contractName eventName fields blockNumber txHash logIndex contractAddress
  | .insertRawLog contractAddress blockNumber txHash logIndex topics data reason logAddress =>
    w.insertRawLog contractAddress blockNumber txHash logIndex topics data reason logAddress
  | .upsertSyncState contractAddress lastSyncedBlock status =>
    w.upsertSyncState contractAddress lastSyncedBlock status
  | .queryEventLogs contractName eventName blockFrom blockTo txHash address limit offset desc =>
    w.queryEventLogs contractName eventName blockFrom blockTo txHash address limit offset desc
  | .insertChainLogTx chain address blockNumber txHash logIndex topics data =>
    w.insertChainLogTx chain address blockNumber txHash logIndex topics data
  | .loadChainLogs chain address fromBlock toBlock =>
    w.loadChainLogs chain address fromBlock toBlock
  | .execBind2 sql chain block => Process.execBind2 sql chain block
  | .deleteEventLogsInRange contractName eventName fromBlock toBlock =>
    w.deleteEventLogsInRange contractName eventName fromBlock toBlock
  | .setReplay stateKey contractName eventNames fromBlock toBlock =>
    w.setReplay stateKey contractName eventNames fromBlock toBlock
  | .rollbackFromBlock contractAddress contractName eventNames fromBlock chain =>
    w.rollbackFromBlock contractAddress contractName eventNames fromBlock chain
  | .handleEvent contractName eventName blockNumber blockTimestamp logIndex =>
    w.handleEvent contractName eventName blockNumber blockTimestamp logIndex

/-- What is cast in a call fits, as far as the call comes. RocksDB casts nothing; a statement that
is printed into a buffer and has no room there is an error before its values are looked at, as is
one with too many values for PostgreSQL. -/
def Fits (w : Process) : Call → Prop
  | .insertEventLog contractName eventName fields blockNumber txHash logIndex contractAddress =>
    (w.backend = .sqlite → (Process.insertSql contractName eventName fields).length ≤ maxCInt) ∧
      (w.backend ≠ .rocksdb → (w.backend = .postgresql → fields.length + 4 ≤ 32) →
        ∀ b ∈ Process.eventBinds fields blockNumber txHash logIndex contractAddress,
          b.Fits w.backend)
  | .insertRawLog contractAddress blockNumber txHash logIndex topics data reason logAddress =>
    w.backend ≠ .rocksdb → ∀ b ∈ Process.rawLogBinds contractAddress blockNumber txHash logIndex
      topics data reason logAddress, b.Fits w.backend
  | .upsertSyncState contractAddress lastSyncedBlock status =>
    w.backend ≠ .rocksdb →
      ∀ b ∈ Process.syncStateBinds contractAddress lastSyncedBlock status, b.Fits w.backend
  | .queryEventLogs contractName eventName blockFrom blockTo txHash address limit offset desc =>
    (w.backend = .sqlite → (Process.selectSql contractName eventName blockFrom blockTo txHash
      address desc).length ≤ maxCInt) ∧
      (w.backend ≠ .rocksdb → ∀ b ∈ Process.queryBinds blockFrom blockTo txHash address limit
        offset, b.Fits w.backend)
  | .insertChainLogTx chain address blockNumber txHash logIndex topics data =>
    ∀ b ∈ Process.chainLogBinds chain address blockNumber txHash logIndex topics data,
      b.Fits w.backend
  | .loadChainLogs chain address fromBlock toBlock =>
    w.logCacheEnabled = true →
      ∀ b ∈ Process.rangeBinds chain address fromBlock toBlock, b.Fits w.backend
  | .execBind2 sql chain block => sql.length ≤ maxCInt ∧ (Bind.text chain).Fits .sqlite ∧
      (Bind.int64 block).Fits .sqlite
  | .deleteEventLogsInRange contractName eventName fromBlock toBlock =>
    w.backend ≠ .rocksdb → w.HasRoom contractName toBlock eventName →
      (Bind.int64 fromBlock).Fits w.backend
  | .setReplay stateKey contractName eventNames fromBlock toBlock =>
    w.backend ≠ .rocksdb →
      ((∀ name ∈ eventNames.head?, w.HasRoom contractName (Process.replayTo fromBlock toBlock)
        name) → (Bind.int64 fromBlock).Fits w.backend) ∧
      ((∀ name ∈ eventNames, w.HasRoom contractName (Process.replayTo fromBlock toBlock) name) →
        (Bind.text stateKey).Fits w.backend)
  | .rollbackFromBlock contractAddress contractName eventNames fromBlock chain =>
    w.backend ≠ .rocksdb →
      ((∀ name ∈ eventNames.head?, w.HasRoom contractName Process.maxU64 name) →
        (Bind.int64 fromBlock).Fits w.backend) ∧
      ((∀ name ∈ eventNames, w.HasRoom contractName Process.maxU64 name) →
        (Bind.text contractAddress).Fits w.backend ∧ (Bind.text chain).Fits w.backend)
  | .handleEvent contractName eventName blockNumber blockTimestamp logIndex =>
    w.Handles contractName eventName →
      ∀ n ∈ [logIndex, blockNumber, blockTimestamp], n.toNat ≤ Coverage.maxBigint

/-- A call that returns a value or an error, whatever the database answers. -/
def Returns (w : Process) (call : Call) : Prop := Calls.Returns (call.run w)

end Call

/-! ### What statements need -/

theorem length_decimal_le (n : UInt64) : (decimal n.toNat).length ≤ 20 := by
  refine (Nat.length_toDigits_le_iff (by decide) (by decide)).2 (n.toNat_lt.trans_le (by decide))

theorem length_param_le {b : Bind} : b.param.length ≤ maxCInt ↔ b.Fits .postgresql := by
  cases b with
  | text s => exact Iff.rfl
  | int64 n =>
    have hlength := length_decimal_le n
    exact iff_of_true (hlength.trans (by decide)) (.inl rfl)

theorem spec_bufPrint (capacity : Nat) (s : Text) :
    Spec (bufPrint capacity s) True (s.length ≤ capacity) := spec_ensure _ _

theorem spec_prepare (sql : Text) : Spec (prepare sql) (sql.length ≤ maxCInt) True :=
  ((spec_narrow _ _).then (spec_call _)).congr (by simp) Iff.rfl

/-- A value on a backend that does not print it. -/
theorem spec_bindValue {backend : Backend} (hb : backend ≠ .postgresql) (b : Bind) :
    Spec (bindValue b) (b.Fits backend) True := by
  cases b with
  | text s => exact ((spec_narrow _ _).then (spec_call _)).congr (by simp [Bind.Fits]) Iff.rfl
  | int64 n =>
    exact ((spec_narrow _ _).then (spec_call _)).congr (by simp [Bind.Fits, hb]) Iff.rfl

theorem spec_bindValues {backend : Backend} (hb : backend ≠ .postgresql) (binds : List Bind) :
    Spec (Prog.each binds bindValue) (∀ b ∈ binds, b.Fits backend) True :=
  spec_each_of_done fun b _ => spec_bindValue hb b

theorem spec_runWith {backend : Backend} (hb : backend ≠ .postgresql) (binds : List Bind) :
    Spec (runWith binds) (∀ b ∈ binds, b.Fits backend) True :=
  ((spec_bindValues hb binds).then (spec_call _)).congr (by simp) Iff.rfl

theorem spec_execParams (binds : List Bind) :
    Spec (execParams (binds.map Bind.param))
      (binds.length ≤ 32 → ∀ b ∈ binds, b.Fits .postgresql) (binds.length ≤ 32) := by
  have hlengths : Spec (Prog.each (binds.map Bind.param) fun p =>
      (narrow maxCInt p.length : Db Unit)) (∀ b ∈ binds, b.Fits .postgresql) True := by
    refine (spec_each_of_done fun p _ => spec_narrow _ _).congr ?_ Iff.rfl
    rw [List.forall_mem_map]
    exact forall₂_congr fun b _ => length_param_le
  refine ((spec_ensure _ _).bind fun _ => hlengths.then (spec_call _)).congr ?_ ?_ <;>
    simp [List.length_map]

/-- **A statement of which no backend has too many values.** It returns exactly if what is cast of
them fits. -/
theorem spec_execute (backend : Backend) {binds : List Bind} (h : binds.length ≤ 32) :
    Spec (execute backend binds) (∀ b ∈ binds, b.Fits backend) True := by
  have hother : backend ≠ .postgresql → Spec (do call .prepareFailed; runWith binds)
      (∀ b ∈ binds, b.Fits backend) True := fun hb =>
    ((spec_call _).then (spec_runWith hb binds)).congr (by simp) Iff.rfl
  cases backend with
  | sqlite => exact hother (by decide)
  | rocksdb => exact hother (by decide)
  | postgresql => exact (spec_execParams binds).congr (by simp [h]) (by simp [h])

namespace Process

variable {w : Process}

/-! ### What the calls need -/

theorem forall_mem_deleteBinds {backend : Backend} {fromBlock toBlock : UInt64} :
    (∀ b ∈ deleteBinds fromBlock toBlock, b.Fits backend) ↔
      (Bind.int64 fromBlock).Fits backend := by
  unfold deleteBinds openEnd
  split
  · simp
  · next h =>
    have hto : (Bind.int64 toBlock).Fits backend := .inr (by simpa using h)
    simp [hto]

theorem length_deleteBinds_le {fromBlock toBlock : UInt64} :
    (deleteBinds fromBlock toBlock).length ≤ 2 := by
  unfold deleteBinds
  split <;> simp

/-- The statement that deletes a range, where it is printed before. -/
theorem spec_delete (capacity : Nat) (sql : Text) (backend : Backend)
    (fromBlock toBlock : UInt64) :
    Spec (do bufPrint capacity sql; execute backend (deleteBinds fromBlock toBlock))
      (sql.length ≤ capacity → (Bind.int64 fromBlock).Fits backend) (sql.length ≤ capacity) := by
  have hlength : (deleteBinds fromBlock toBlock).length ≤ 32 :=
    length_deleteBinds_le.trans (by decide)
  refine ((spec_bufPrint _ _).bind fun _ => spec_execute backend hlength).congr ?_ ?_
  · rw [forall_mem_deleteBinds]
    simp
  · simp

theorem spec_deleteProjection (fromBlock toBlock : UInt64) (table : Text) :
    Spec (w.deleteProjection fromBlock toBlock table)
      ((w.deleteSql (quoted table) toBlock).length ≤ 512 →
        (Bind.int64 fromBlock).Fits w.backend) True :=
  (spec_delete 512 _ _ _ _).catching

/-- **The loop over the projections** needs nothing that its bound does not need where it fits. -/
theorem spec_deleteProjections (fromBlock toBlock : UInt64) (tables : List Text) : ∃ safe,
    Spec (Prog.each tables (w.deleteProjection fromBlock toBlock)) safe True ∧
      ((Bind.int64 fromBlock).Fits w.backend → safe) :=
  ⟨_, spec_each_of_done fun table _ => spec_deleteProjection fromBlock toBlock table,
    fun h _ _ _ => h⟩

/-- `deleteEventLogsInRange`, where it is a statement. -/
theorem spec_deleteEventLogsInRange (hb : w.backend ≠ .rocksdb) (contractName eventName : Text)
    (fromBlock toBlock : UInt64) :
    Spec (w.deleteEventLogsInRange contractName eventName fromBlock toBlock)
      (w.HasRoom contractName toBlock eventName → (Bind.int64 fromBlock).Fits w.backend)
      (w.HasRoom contractName toBlock eventName) := by
  have h := spec_delete 256 (w.deleteSql (tableName contractName eventName) toBlock) w.backend
    fromBlock toBlock
  unfold deleteEventLogsInRange
  split
  · next heq => exact absurd heq hb
  · exact h

/-- The loops over the events of a contract. -/
theorem spec_each_event {f : Text → Db Unit} {contractName : Text} {fromBlock toBlock : UInt64}
    (h : ∀ name, Spec (f name)
      (w.HasRoom contractName toBlock name → (Bind.int64 fromBlock).Fits w.backend)
      (w.HasRoom contractName toBlock name)) (eventNames : List Text) :
    Spec (Prog.each eventNames f)
      (∀ name ∈ eventNames.head?, w.HasRoom contractName toBlock name →
        (Bind.int64 fromBlock).Fits w.backend)
      (∀ name ∈ eventNames, w.HasRoom contractName toBlock name) :=
  spec_each_head fun name _ => h name

/-- The events first, and then what needs their bound in any case. -/
theorem head_and_iff {names : List Text} {room : Text → Prop} {number rest : Prop} :
    (∀ name ∈ names.head?, room name → number) ∧
        ((∀ name ∈ names, room name) → number ∧ rest) ↔
      ((∀ name ∈ names.head?, room name) → number) ∧ ((∀ name ∈ names, room name) → rest) := by
  cases names with
  | nil => simp
  | cons name names =>
    simp only [List.head?_cons, Option.mem_some_iff, forall_eq', List.forall_mem_cons]
    tauto

theorem spec_deleteProjectionsFromBlock (hb : w.backend ≠ .rocksdb) (fromBlock toBlock : UInt64) :
    ∃ safe, Spec (w.deleteProjectionsFromBlock fromBlock toBlock) safe True ∧
      ((Bind.int64 fromBlock).Fits w.backend → safe) := by
  unfold deleteProjectionsFromBlock
  split
  · exact ⟨True, spec_pure (), fun _ => trivial⟩
  · split
    · next heq => exact absurd heq hb
    · obtain ⟨safe, hspec, hsafe⟩ := spec_deleteProjections (w := w) fromBlock toBlock
        w.projectionTables
      exact ⟨_, (spec_call _).then hspec, fun h => ⟨trivial, hsafe h⟩⟩

theorem spec_deleteRawLogsFrom (hb : w.backend ≠ .rocksdb) (contractKey : Text)
    (fromBlock toBlock : UInt64) :
    Spec (w.deleteRawLogsFrom contractKey fromBlock toBlock)
      ((Bind.text contractKey).Fits w.backend ∧ (Bind.int64 fromBlock).Fits w.backend) True := by
  have hlength : (Bind.text contractKey :: deleteBinds fromBlock toBlock).length ≤ 32 :=
    (Nat.succ_le_succ length_deleteBinds_le).trans (by decide)
  have h := (spec_execute w.backend hlength).congr
    (List.forall_mem_cons.trans (and_congr_right' forall_mem_deleteBinds)) Iff.rfl
  unfold deleteRawLogsFrom
  split
  · next heq => exact absurd heq hb
  · exact h

theorem spec_upsertSyncState (hb : w.backend ≠ .rocksdb) (contractAddress : Text)
    (lastSyncedBlock : UInt64) (status : Text) :
    Spec (w.upsertSyncState contractAddress lastSyncedBlock status)
      (∀ b ∈ syncStateBinds contractAddress lastSyncedBlock status, b.Fits w.backend) True := by
  have h := spec_execute w.backend
    (by simp [syncStateBinds] : (syncStateBinds contractAddress lastSyncedBlock status).length ≤ 32)
  unfold upsertSyncState
  split
  · next heq => exact absurd heq hb
  · exact h

/-- **What a replay needs.** -/
theorem spec_resetForReplay (hb : w.backend ≠ .rocksdb) (stateKey contractName : Text)
    (eventNames : List Text) (fromBlock toBlock : UInt64) : ∃ done,
    Spec (w.resetForReplay stateKey contractName eventNames fromBlock toBlock)
      (((∀ name ∈ eventNames.head?, w.HasRoom contractName toBlock name) →
        (Bind.int64 fromBlock).Fits w.backend) ∧
      ((∀ name ∈ eventNames, w.HasRoom contractName toBlock name) →
        (Bind.text stateKey).Fits w.backend)) done := by
  obtain ⟨safe, hprojections, hsafe⟩ := spec_deleteProjectionsFromBlock hb fromBlock toBlock
  have hevents := spec_each_event
    (fun name => spec_deleteEventLogsInRange hb contractName name fromBlock toBlock) eventNames
  have hbody := hevents.bind fun _ => hprojections.then
    ((spec_deleteRawLogsFrom hb stateKey fromBlock toBlock).then
      (spec_upsertSyncState hb stateKey fromBlock "replaying".toList))
  have hstatus : (Bind.text "replaying".toList).Fits w.backend := by
    change "replaying".toList.length ≤ maxCInt
    decide
  have h := (spec_call DbError.execFailed).then
    (hbody.bind fun _ => spec_call DbError.execFailed).onErr
  have hrest : (safe ∧
      ((Bind.text stateKey).Fits w.backend ∧ (Bind.int64 fromBlock).Fits w.backend) ∧
      ∀ b ∈ syncStateBinds stateKey fromBlock "replaying".toList, b.Fits w.backend) ↔
      (Bind.int64 fromBlock).Fits w.backend ∧ (Bind.text stateKey).Fits w.backend := by
    simp only [syncStateBinds, List.forall_mem_cons, hstatus]
    tauto
  have heq : w.resetForReplay stateKey contractName eventNames fromBlock toBlock = _ := if_neg hb
  rw [heq]
  refine ⟨_, h.congr ?_ Iff.rfl⟩
  rw [hrest, ← head_and_iff]
  tauto

theorem fits_pred {backend : Backend} {n : UInt64} (hn : n ≠ 0) (h : (Bind.int64 n).Fits backend) :
    (Bind.int64 (n - 1)).Fits backend := by
  refine h.imp_right fun hle => ?_
  have hpos : 0 < n.toNat := UInt64.lt_iff_toNat_lt.1 (UInt64.pos_iff_ne_zero.2 hn)
  have hone : 1 ≤ n := UInt64.le_iff_toNat_le.2 hpos
  rw [UInt64.toNat_sub_of_le _ _ hone]
  exact (Nat.sub_le _ _).trans hle

theorem spec_execBind2 (sql chain : Text) (block : UInt64) :
    Spec (execBind2 sql chain block)
      (sql.length ≤ maxCInt ∧ (Bind.text chain).Fits .sqlite ∧ (Bind.int64 block).Fits .sqlite)
      True :=
  ((spec_prepare sql).then (spec_runWith (by decide : Backend.sqlite ≠ .postgresql) _)).congr
    (by simp) Iff.rfl

/-- **What a cut of the log cache needs.** -/
theorem spec_trimLogCacheUnlocked (hon : w.logCacheEnabled = true) (chain : Text)
    (fromBlock : UInt64) : Spec (w.trimLogCacheUnlocked chain fromBlock)
      ((Bind.text chain).Fits w.backend ∧ (Bind.int64 fromBlock).Fits w.backend) True := by
  have hpred : fromBlock ≠ 0 → (Bind.int64 fromBlock).Fits w.backend →
      (Bind.int64 (fromBlock - 1)).Fits w.backend := fits_pred
  unfold trimLogCacheUnlocked
  rw [if_neg (by simp [hon])]
  rcases hb : w.backend with _ | _ | _
  · have hcut := spec_when (c := fromBlock ≠ 0) ((spec_call DbError.prepareFailed).then
      (spec_runWith (by decide : Backend.sqlite ≠ .postgresql)
        [.int64 (fromBlock - 1), .text chain, .int64 fromBlock, .int64 fromBlock]))
    refine ((spec_execBind2 _ chain fromBlock).then
      ((spec_execBind2 _ chain fromBlock).then hcut)).congr ?_ (by simp)
    rw [hb] at hpred
    simp only [List.forall_mem_cons]
    have hlogs : deleteChainLogsSql.length ≤ maxCInt := by decide
    have hranges : deleteChainLogRangesSql.length ≤ maxCInt := by decide
    simp only [hlogs, hranges, true_and]
    tauto
  · have hstmt := spec_execute .postgresql
      (by simp : [Bind.text chain, .int64 fromBlock].length ≤ 32)
    have hcut := spec_when (c := fromBlock ≠ 0) (spec_execute .postgresql
      (by simp : [Bind.int64 (fromBlock - 1), .text chain, .int64 fromBlock].length ≤ 32))
    refine (hstmt.then (hstmt.then hcut)).congr ?_ (by simp)
    rw [hb] at hpred
    simp only [List.forall_mem_cons]
    tauto
  · rw [logCacheEnabled, hb] at hon
    simp at hon

theorem spec_deleteEvents (contractName : Text) (fromBlock : UInt64) (name : Text) :
    Spec (w.deleteEvents contractName fromBlock name)
      (w.HasRoom contractName maxU64 name → (Bind.int64 fromBlock).Fits w.backend)
      (w.HasRoom contractName maxU64 name) :=
  spec_delete 256 (w.deleteSql (tableName contractName name) maxU64) w.backend fromBlock maxU64

/-- The cut of a rollback, if it makes one, needs what the statement after it needs. -/
theorem spec_cut (chain : Text) (fromBlock : UInt64) : ∃ safe,
    Spec (Prog.when (w.logCache = true ∧ chain ≠ []) (w.trimLogCacheUnlocked chain fromBlock)) safe
      True ∧ ((Bind.text chain).Fits w.backend → (Bind.int64 fromBlock).Fits w.backend → safe) := by
  by_cases hon : w.logCacheEnabled = true
  · exact ⟨_, (spec_when (spec_trimLogCacheUnlocked hon chain fromBlock)).congr Iff.rfl (by simp),
      fun hc hf _ => ⟨hc, hf⟩⟩
  · have hoff : w.trimLogCacheUnlocked chain fromBlock = pure () := if_pos (by simpa using hon)
    rw [hoff]
    exact ⟨_, (spec_when (spec_pure ())).congr Iff.rfl (by simp), fun _ _ _ => trivial⟩

/-- **What a rollback needs.** -/
theorem spec_rollbackFromBlock (hb : w.backend ≠ .rocksdb) (contractAddress contractName : Text)
    (eventNames : List Text) (fromBlock : UInt64) (chain : Text) : ∃ done,
    Spec (w.rollbackFromBlock contractAddress contractName eventNames fromBlock chain)
      (((∀ name ∈ eventNames.head?, w.HasRoom contractName maxU64 name) →
        (Bind.int64 fromBlock).Fits w.backend) ∧
      ((∀ name ∈ eventNames, w.HasRoom contractName maxU64 name) →
        (Bind.text contractAddress).Fits w.backend ∧ (Bind.text chain).Fits w.backend)) done := by
  have hevents := spec_each_event (spec_deleteEvents (w := w) contractName fromBlock) eventNames
  obtain ⟨safe, hprojections, hsafe⟩ := spec_deleteProjections (w := w) fromBlock maxU64
    w.projectionTables
  obtain ⟨safe', hcut, hsafe'⟩ := spec_cut (w := w) chain fromBlock
  have hraw := spec_deleteRawLogsFrom hb contractAddress fromBlock maxU64
  have hcontract := spec_execute w.backend
    (by simp : [Bind.text contractAddress, .int64 fromBlock].length ≤ 32)
  have hstate := spec_execute w.backend
    (by simp : [Bind.int64 fromBlock, .text contractAddress].length ≤ 32)
  have hblocks := spec_execute w.backend
    (by simp : [Bind.text chain, .int64 fromBlock].length ≤ 32)
  simp only [List.forall_mem_cons] at hcontract hstate hblocks
  rw [← head_and_iff]
  rcases w with ⟨_ | _ | _, logCache, projections, handlers⟩
  · have hbody := hevents.bind fun _ => hcontract.then (hcontract.then (hstate.then
      (((spec_call DbError.prepareFailed).then hprojections).catching.then (hcut.then
        (hblocks.then (hraw.then (spec_call DbError.execFailed)))))))
    refine ⟨_, ((spec_call DbError.execFailed).then hbody.onErr).congr ?_ Iff.rfl⟩
    tauto
  · have hbody := hevents.bind fun _ => hcontract.then (hcontract.then
      ((spec_call DbError.execFailed).then (hprojections.then (hstate.then (hcut.then
        (hblocks.then (hraw.then (spec_call DbError.execFailed))))))))
    refine ⟨_, ((spec_call DbError.execFailed).then hbody.onErr).congr ?_ Iff.rfl⟩
    tauto
  · exact absurd rfl hb

/-! ### RocksDB -/

theorem returns_bufPrint (capacity : Nat) (s : Text) : Returns (bufPrint capacity s) :=
  returns_ensure _ _

theorem returns_seek (capacity capacity' : Nat) (name : Text) (fromBlock : UInt64) (rest : Text) :
    Returns (seek capacity capacity' name fromBlock rest) :=
  (returns_bufPrint _ _).bind fun _ => returns_bufPrint _ _

theorem returns_deleteEventLogsInRange (hb : w.backend = .rocksdb)
    (contractName eventName : Text) (fromBlock toBlock : UInt64) :
    Returns (w.deleteEventLogsInRange contractName eventName fromBlock toBlock) := by
  rw [deleteEventLogsInRange, hb]
  exact (returns_bufPrint _ _).bind fun _ => (returns_bufPrint _ _).bind fun _ =>
    (returns_bufPrint _ _).bind fun _ => returns_call _

theorem returns_upsertSyncState (hb : w.backend = .rocksdb) (contractAddress : Text)
    (lastSyncedBlock : UInt64) (status : Text) :
    Returns (w.upsertSyncState contractAddress lastSyncedBlock status) := by
  rw [upsertSyncState, hb]
  exact (returns_bufPrint _ _).bind fun _ => (returns_bufPrint _ _).bind fun _ => returns_call _

theorem returns_resetForReplay (hb : w.backend = .rocksdb) (stateKey contractName : Text)
    (eventNames : List Text) (fromBlock toBlock : UInt64) :
    Returns (w.resetForReplay stateKey contractName eventNames fromBlock toBlock) := by
  have hprojections : Returns (w.deleteProjectionsFromBlock fromBlock toBlock) := by
    rw [deleteProjectionsFromBlock, hb]
    split <;> exact returns_pure ()
  have hraw : Returns (w.deleteRawLogsFrom stateKey fromBlock toBlock) := by
    rw [deleteRawLogsFrom, hb]
    exact returns_pure ()
  rw [resetForReplay, if_pos hb]
  exact (returns_each fun _ _ => returns_deleteEventLogsInRange hb _ _ _ _).bind fun _ =>
    hprojections.bind fun _ => hraw.bind fun _ => returns_upsertSyncState hb _ _ _

theorem returns_rollbackFromBlock (hb : w.backend = .rocksdb) (contractAddress contractName : Text)
    (eventNames : List Text) (fromBlock : UInt64) (chain : Text) :
    Returns (w.rollbackFromBlock contractAddress contractName eventNames fromBlock chain) := by
  rw [rollbackFromBlock, hb]
  exact (returns_each fun _ _ => returns_seek _ _ _ _ _).bind fun _ =>
    (returns_seek _ _ _ _ _).bind fun _ => (returns_seek _ _ _ _ _).bind fun _ =>
    (returns_seek _ _ _ _ _).bind fun _ => (returns_call _).bind fun _ =>
    (returns_bufPrint _ _).bind fun _ => (returns_bufPrint _ _).bind fun _ => returns_call _

/-! ### The other calls -/

theorem returns_insertEventLog_iff (contractName eventName : Text) (fields : List DecodedField)
    (blockNumber : UInt64) (txHash : Text) (logIndex : UInt64) (contractAddress : Text) :
    (Call.insertEventLog contractName eventName fields blockNumber txHash logIndex
        contractAddress).Returns w ↔
      (Call.insertEventLog contractName eventName fields blockNumber txHash logIndex
        contractAddress).Fits w := by
  have hlength : (eventBinds fields blockNumber txHash logIndex contractAddress).length =
      fields.length + 4 := by simp [eventBinds]
  rcases w with ⟨_ | _ | _, logCache, projections, handlers⟩
  · refine ((spec_prepare _).then
      (spec_runWith (by decide : Backend.sqlite ≠ .postgresql) _)).returns_iff.trans ?_
    simp [Call.Fits]
  · refine (spec_execParams _).returns_iff.trans ?_
    simp [Call.Fits, hlength]
  · refine iff_of_true ((returns_bufPrint _ _).bind fun _ => returns_call _) ?_
    simp [Call.Fits]

theorem returns_queryEventLogs_iff (contractName eventName : Text)
    (blockFrom blockTo : Option UInt64) (txHash address : Option Text) (limit offset : UInt32)
    (orderDesc : Bool) :
    (Call.queryEventLogs contractName eventName blockFrom blockTo txHash address limit offset
        orderDesc).Returns w ↔
      (Call.queryEventLogs contractName eventName blockFrom blockTo txHash address limit offset
        orderDesc).Fits w := by
  have hlength : (queryBinds blockFrom blockTo txHash address limit offset).length ≤ 32 := by
    simp only [queryBinds, List.length_append, List.length_map, Option.length_toList,
      List.length_cons, List.length_nil]
    split_ifs <;> decide
  rcases w with ⟨_ | _ | _, logCache, projections, handlers⟩
  · refine ((spec_prepare _).then
      ((spec_bindValues (by decide : Backend.sqlite ≠ .postgresql) _).then
        spec_ignored)).returns_iff.trans ?_
    simp [Call.Fits]
  · refine (spec_execParams _).returns_iff.trans ?_
    simp [Call.Fits, hlength]
  · refine iff_of_true ((returns_ensure _ _).bind fun _ => (returns_bufPrint _ _).bind fun _ =>
      (returns_each fun _ _ => returns_bufPrint _ _).bind fun _ => ?_) ?_
    · cases blockTo
      · exact returns_bufPrint _ _
      · exact returns_bufPrint _ _
    · simp [Call.Fits]

theorem returns_loadChainLogs_iff (chain address : Text) (fromBlock toBlock : UInt64) :
    (Call.loadChainLogs chain address fromBlock toBlock).Returns w ↔
      (Call.loadChainLogs chain address fromBlock toBlock).Fits w := by
  change Returns (w.loadChainLogs chain address fromBlock toBlock) ↔
    (w.logCacheEnabled = true →
      ∀ b ∈ rangeBinds chain address fromBlock toBlock, b.Fits w.backend)
  by_cases hon : w.logCacheEnabled = true
  · rw [loadChainLogs, if_neg (by simp [hon]), imp_iff_right hon]
    rcases w with ⟨_ | _ | _, logCache, projections, handlers⟩
    · refine ((spec_call _).then
        ((spec_bindValues (by decide : Backend.sqlite ≠ .postgresql) _).then
          spec_ignored)).returns_iff.trans ?_
      simp
    · have hlength : (rangeBinds chain address fromBlock toBlock).length ≤ 32 := by
        simp [rangeBinds]
      refine ((spec_execute .postgresql hlength).then (spec_call _)).returns_iff.trans ?_
      simp
    · simp [logCacheEnabled] at hon
  · rw [loadChainLogs, if_pos (by simpa using hon)]
    exact iff_of_true (returns_pure ()) fun h => absurd h hon

theorem returns_handleEvent_iff (contractName eventName : Text)
    (blockNumber blockTimestamp logIndex : UInt64) :
    (Call.handleEvent contractName eventName blockNumber blockTimestamp logIndex).Returns w ↔
      (Call.handleEvent contractName eventName blockNumber blockTimestamp logIndex).Fits w := by
  change Returns (w.handleEvent contractName eventName blockNumber blockTimestamp logIndex) ↔ _
  by_cases hhandles : w.Handles contractName eventName
  · rw [handleEvent, if_pos hhandles]
    refine ((spec_narrow _ _).then ((spec_narrow _ _).then ((spec_narrow _ _).then
      ((spec_narrow _ _).then spec_ignored)))).returns_iff.trans ?_
    simp [Call.Fits, hhandles]
  · rw [handleEvent, if_neg hhandles]
    exact iff_of_true (returns_pure ()) fun h => absurd h hhandles

end Process

/-- **When a call returns.** Whatever the database answers, a call with numbers from outside
returns a value or an error exactly if what is cast in it fits. -/
theorem call_returns_iff (w : Process) (call : Call) : call.Returns w ↔ call.Fits w := by
  cases call with
  | insertEventLog => exact Process.returns_insertEventLog_iff _ _ _ _ _ _ _
  | insertRawLog contractAddress blockNumber txHash logIndex topics data reason logAddress =>
    rcases w with ⟨_ | _ | _, logCache, projections, handlers⟩
    · exact (spec_execute .sqlite (by simp [Process.rawLogBinds])).returns_iff.trans
        (by simp [Call.Fits])
    · exact (spec_execute .postgresql (by simp [Process.rawLogBinds])).returns_iff.trans
        (by simp [Call.Fits])
    · exact iff_of_true ((Process.returns_bufPrint _ _).bind fun _ => returns_call _)
        (by simp [Call.Fits])
  | upsertSyncState contractAddress lastSyncedBlock status =>
    by_cases hb : w.backend = .rocksdb
    · exact iff_of_true (Process.returns_upsertSyncState hb _ _ _) fun h => absurd hb h
    · exact (Process.spec_upsertSyncState hb _ _ _).returns_iff.trans (imp_iff_right hb).symm
  | queryEventLogs => exact Process.returns_queryEventLogs_iff _ _ _ _ _ _ _ _ _
  | insertChainLogTx chain address blockNumber txHash logIndex topics data =>
    exact (spec_execute w.backend (by simp [Process.chainLogBinds])).returns_iff
  | loadChainLogs => exact Process.returns_loadChainLogs_iff _ _ _ _
  | execBind2 sql chain block => exact (Process.spec_execBind2 sql chain block).returns_iff
  | deleteEventLogsInRange contractName eventName fromBlock toBlock =>
    by_cases hb : w.backend = .rocksdb
    · exact iff_of_true (Process.returns_deleteEventLogsInRange hb _ _ _ _) fun h => absurd hb h
    · exact (Process.spec_deleteEventLogsInRange hb _ _ _ _).returns_iff.trans
        (imp_iff_right hb).symm
  | setReplay stateKey contractName eventNames fromBlock toBlock =>
    by_cases hb : w.backend = .rocksdb
    · exact iff_of_true (Process.returns_resetForReplay hb _ _ _ _ _) fun h => absurd hb h
    · obtain ⟨done, h⟩ := Process.spec_resetForReplay hb stateKey contractName eventNames fromBlock
        (Process.replayTo fromBlock toBlock)
      exact h.returns_iff.trans (imp_iff_right hb).symm
  | rollbackFromBlock contractAddress contractName eventNames fromBlock chain =>
    by_cases hb : w.backend = .rocksdb
    · exact iff_of_true (Process.returns_rollbackFromBlock hb _ _ _ _ _) fun h => absurd hb h
    · obtain ⟨done, h⟩ := Process.spec_rollbackFromBlock hb contractAddress contractName eventNames
        fromBlock chain
      exact h.returns_iff.trans (imp_iff_right hb).symm
  | handleEvent => exact Process.returns_handleEvent_iff _ _ _ _ _

/-- A node numbers a block `2 ^ 63`, and its event is written into a table of SQLite. -/
theorem not_returns_pushed :
    Responses.parseHexU64 "0x8000000000000000".toList = some (2 ^ 63) ∧
      ¬(Call.insertEventLog "token".toList "Transfer".toList [] (.ofNat (2 ^ 63)) "0x1".toList 0
        "0x2".toList).Returns ⟨.sqlite, false, [], none⟩ := by
  refine ⟨by decide, fun h => ?_⟩
  have hfits := (Process.returns_insertEventLog_iff _ _ _ _ _ _ _).1 h
  have hblock : (Bind.int64 (.ofNat (2 ^ 63))).Fits .sqlite :=
    hfits.2 (by decide) (by decide) _ List.mem_cons_self
  rcases hblock with hbackend | hle
  · cases hbackend
  · exact absurd hle (by decide)

/-- **Every `u64` arrives**: the API reads it from its digits. -/
theorem arrives (n : UInt64) : parseInt 10 (2 ^ 64) (decimal n.toNat) = some n.toNat :=
  parseInt_decimal n.toNat_lt

end Zponder.Binds
