import Zponder.Text

/-!
# The tables, and what one statement does to them

The rows the indexer keeps and the effect of each single statement on them, as
functions on a record of tables. Nothing here can fail: failing, dying and
transactions are the business of the connection (`Imperative.Conn`), which
takes these functions as its statements.

A table whose primary key determines its row is a function from keys to optional
rows; a table that is listed, counted or deleted from by range is a list of rows.
One table exists only for the reader: `Tables.callbacks` gets a row from every run
of an event callback, by the same statement that carries out the writes of that
run, so that it is committed or dropped with them. An event row carries in
`EventRow.created` the moment it was inserted, and a callback row the moment it was
written, which is how the rows of one delivery are told from those of another.
-/

namespace Zponder

/-! ### Rows -/

/-- `eth_rpc.Log` -/
structure Log where
  address : Text
  topics : List Text
  data : Text
  blockNumber : Nat
  transactionHash : Text
  logIndex : Nat
  removed : Bool := false
  deriving DecidableEq, Repr

/-- `db.DecodedField` -/
structure DecodedField where
  name : Text
  value : Text
  deriving DecidableEq, Repr

/-- What the unique index of an event table is over, with the table. -/
structure EventKey where
  table : Text
  contractAddress : Text
  txHash : Text
  logIndex : Nat
  deriving DecidableEq, Repr

/-- A row of an event table. -/
structure EventRow where
  key : EventKey
  fields : List DecodedField
  blockNumber : Nat
  created : Nat
  deriving DecidableEq, Repr

/-- A row of `raw_logs`. -/
structure RawLogRow where
  id : Nat
  contractAddress : Text
  blockNumber : Nat
  txHash : Text
  logIndex : Nat
  topics : Text
  data : Text
  reason : Text
  logAddress : Text
  attempts : Nat
  retryAfter : Nat
  deriving DecidableEq, Repr

/-- A row of `sync_state`. -/
structure SyncState where
  lastSyncedBlock : Nat
  status : Text
  deriving DecidableEq, Repr

/-- A row of `account_states`. The balance column holds the number in decimal. -/
structure AccountState where
  balance : Nat
  lastUpdatedBlock : Nat
  deriving DecidableEq, Repr

/-- A row of `snapshots`, with the members of its JSON column. -/
structure SnapshotRow where
  contractAddress : Text
  blockNumber : Nat
  timestamp : Nat
  contractName : Text
  deriving DecidableEq, Repr

/-- What `eth_getBlockByNumber` says of a block, and a row of `blocks`. -/
structure BlockData where
  number : Nat
  hash : Text
  timestamp : Nat
  deriving DecidableEq, Repr

/-- A row of `template_addresses`. -/
structure TemplateAddress where
  template : Text
  address : Text
  fromBlock : Nat
  backfilled : Bool
  deriving DecidableEq, Repr

/-- `log_cache.ChainLogIn`, and with its chain a row of `chain_logs`. -/
structure ChainLog where
  address : Text
  blockNumber : Nat
  txHash : Text
  logIndex : Nat
  topics : Text
  data : Text
  deriving DecidableEq, Repr

/-- `log_cache.BlockSpan` -/
structure BlockSpan where
  fromBlock : Nat
  toBlock : Nat
  deriving DecidableEq, Repr

/-- A row of a `proj_*` table; `content` stands for its columns other than
`block_number`. -/
structure ProjRow where
  table : Text
  blockNumber : Nat
  content : Text
  deriving DecidableEq, Repr

/-- One run of an event callback: the event it was for, when, the timestamp it was
given, what it inserted, and what it returned. -/
structure CallbackRow where
  key : EventKey
  at_ : Nat
  timestamp : Nat
  rows : List ProjRow
  ok : Bool
  deriving DecidableEq, Repr

/-- All tables of one database. -/
structure Tables where
  events : List EventRow := []
  rawLogs : List RawLogRow := []
  nextRawId : Nat := 1
  syncState : Text → Option SyncState := fun _ => none
  accounts : Text → Text → Option AccountState := fun _ _ => none
  snapshots : List SnapshotRow := []
  blockHashes : Text → Nat → Option Text := fun _ _ => none
  blocks : Text → Nat → Option BlockData := fun _ _ => none
  templateAddresses : List TemplateAddress := []
  projTables : List Text := []
  projs : List ProjRow := []
  chainLogs : List (Text × ChainLog) := []
  chainLogRanges : Text → Text → Text → List BlockSpan := fun _ _ _ => []
  callbacks : List CallbackRow := []

/-- The event table of a contract and one of its events. Neither engine tells the
case of a table name. -/
def eventTable (contractName eventName : Text) : Text :=
  Text.lower ("event_".toList ++ contractName ++ "_".toList ++ eventName)

/-- The upper bound of a range delete: a bound that does not fit the column type
means there is none. -/
def inRange (fromBlock toBlock b : Nat) : Bool :=
  fromBlock ≤ b && (toBlock > 2 ^ 63 - 1 || b ≤ toBlock)

namespace Tables

/-! ### Events -/

def hasEvent (t : Tables) (k : EventKey) : Bool := t.events.any (·.key == k)

/-- `INSERT OR IGNORE` into an event table: whether the row is new, and the table
with it. -/
def insertEvent (r : EventRow) (t : Tables) : Bool × Tables :=
  if t.hasEvent r.key then (false, t) else (true, { t with events := t.events ++ [r] })

/-- A put under the key of an event: it overwrites, and never says so. -/
def putEvent (r : EventRow) (t : Tables) : Bool × Tables :=
  (true, { t with
    events := t.events.filter (fun e => !(e.key == r.key && e.blockNumber == r.blockNumber)) ++ [r] })

/-- `DELETE` the rows of one event table in a range of blocks. -/
def deleteEvents (table : Text) (fromBlock toBlock : Nat) (t : Tables) : Tables :=
  { t with events := t.events.filter fun e =>
      !(e.key.table == table && inRange fromBlock toBlock e.blockNumber) }

/-! ### Dead letters -/

def hasRawLog (t : Tables) (contract txHash : Text) (logIndex : Nat) : Bool :=
  t.rawLogs.any fun r =>
    r.contractAddress == contract && r.txHash == txHash && r.logIndex == logIndex

/-- `INSERT … WHERE NOT EXISTS` into `raw_logs`; the row gets the next id. -/
def insertRawLog (r : RawLogRow) (t : Tables) : Tables :=
  if t.hasRawLog r.contractAddress r.txHash r.logIndex then t
  else { t with
    rawLogs := t.rawLogs ++ [{ r with id := t.nextRawId }]
    nextRawId := t.nextRawId + 1 }

/-- `SELECT … WHERE retry_after <= now ORDER BY attempts, id LIMIT n`. -/
def dueRawLogs (contract : Text) (limit now : Nat) (t : Tables) : List RawLogRow :=
  ((t.rawLogs.filter fun r => r.contractAddress == contract && r.retryAfter ≤ now).insertionSort
    fun a b => a.attempts < b.attempts ∨ (a.attempts = b.attempts ∧ a.id ≤ b.id)).take limit

def deleteRawLog (id : Nat) (t : Tables) : Tables :=
  { t with rawLogs := t.rawLogs.filter (·.id != id) }

def bumpRawLog (id retryAfter : Nat) (t : Tables) : Tables :=
  { t with rawLogs := t.rawLogs.map fun r =>
      if r.id = id then { r with attempts := r.attempts + 1, retryAfter := retryAfter } else r }

def deleteRawLogs (contract : Text) (fromBlock toBlock : Nat) (t : Tables) : Tables :=
  { t with rawLogs := t.rawLogs.filter fun r =>
      !(r.contractAddress == contract && inRange fromBlock toBlock r.blockNumber) }

/-! ### Cursors, hashes, blocks, snapshots -/

def putSyncState (key : Text) (s : SyncState) (t : Tables) : Tables :=
  { t with syncState := Function.update t.syncState key (some s) }

/-- `UPDATE sync_state`: only a row that is there changes. -/
def rewindSyncState (key : Text) (b : Nat) (t : Tables) : Tables :=
  if (t.syncState key).isSome then t.putSyncState key ⟨b, "reorg_rollback".toList⟩ else t

def dropSyncState (key : Text) (t : Tables) : Tables :=
  { t with syncState := Function.update t.syncState key none }

def putBlockHash (key : Text) (b : Nat) (h : Text) (t : Tables) : Tables :=
  let row := Function.update (t.blockHashes key) b (some h)
  { t with blockHashes := Function.update t.blockHashes key row }

def deleteBlockHashes (key : Text) (fromBlock : Nat) (t : Tables) : Tables :=
  { t with blockHashes := Function.update t.blockHashes key fun b =>
      if fromBlock ≤ b then none else t.blockHashes key b }

def putBlock (chain : Text) (d : BlockData) (t : Tables) : Tables :=
  let row := Function.update (t.blocks chain) d.number (some d)
  { t with blocks := Function.update t.blocks chain row }

def deleteBlocks (chain : Text) (fromBlock : Nat) (t : Tables) : Tables :=
  { t with blocks := Function.update t.blocks chain fun b =>
      if fromBlock ≤ b then none else t.blocks chain b }

def addSnapshot (r : SnapshotRow) (t : Tables) : Tables :=
  { t with snapshots := t.snapshots ++ [r] }

def deleteSnapshots (key : Text) (fromBlock : Nat) (t : Tables) : Tables :=
  { t with snapshots := t.snapshots.filter fun r =>
      !(r.contractAddress == key && decide (fromBlock ≤ r.blockNumber)) }

/-! ### Balances -/

def putAccount (contract account : Text) (s : AccountState) (t : Tables) : Tables :=
  let row := Function.update (t.accounts contract) account (some s)
  { t with accounts := Function.update t.accounts contract row }

/-! ### Clones of a template -/

def addTemplateAddress (r : TemplateAddress) (t : Tables) : Tables :=
  if t.templateAddresses.any (fun a => a.template == r.template && a.address == r.address) then t
  else { t with templateAddresses := t.templateAddresses ++ [r] }

def markBackfilled (template address : Text) (t : Tables) : Tables :=
  { t with templateAddresses := t.templateAddresses.map fun a =>
      if a.template = template ∧ a.address = address then { a with backfilled := true } else a }

def deleteTemplateAddresses (template : Text) (fromBlock : Nat) (t : Tables) : Tables :=
  { t with templateAddresses := t.templateAddresses.filter fun a =>
      !(a.template == template && decide (fromBlock ≤ a.fromBlock)) }

/-! ### Projections -/

/-- `DELETE` the rows of one projection table in a range of blocks. -/
def deleteProjRows (table : Text) (fromBlock toBlock : Nat) (t : Tables) : Tables :=
  { t with projs := t.projs.filter fun r =>
      !(r.table == table && inRange fromBlock toBlock r.blockNumber) }

end Tables

end Zponder
