import Zponder.Lib.Conn
import Zponder.Schema

/-!
# One indexer, its database and everything outside it

The state every function of the indexer runs on (`World`), what is fixed while it
runs (`Config`), and what it cannot know (`Env`).

The environment answers by the moment it is asked at: `World.now` counts the
requests of the scan and the logs delivered, and the answer to a request, the
fate of a statement and the behaviour of a callback are functions of that count. A
theorem about every `Env` is therefore one about every sequence of answers,
failures and deaths, and the runs of two different programs on one environment can
be compared. Within one moment the statements are told apart by their `DbCall`, of
which each is sent at most once.

Three fields of the world are kept for the reader alone and are never looked at by
the code: the logs handed to `processLog`, the blocks `rollbackTo` was called with,
and the number of requests for logs.
-/

namespace Zponder

open Imperative

/-! ### Errors -/

/-- The errors of a statement. -/
inductive DbErr where
  | prepareFailed
  | bindFailed
  | execFailed
  | invalidData
  deriving DecidableEq, Repr

/-- The errors a function of the indexer may return. -/
inductive Err where
  | db (e : DbErr)
  | rpcLimitExceeded
  | rpcError
  | invalidTopic
  | invalidCharacter
  | abiMismatch
  | decodeFailed (name : Text)
  | factoryFailed
  | handlerFailed
  | stopped
  | unsupportedOperation
  deriving DecidableEq, Repr

/-- `@errorName` -/
def Err.name : Err → Text
  | .db .prepareFailed => "PrepareFailed".toList
  | .db .bindFailed => "BindFailed".toList
  | .db .execFailed => "ExecFailed".toList
  | .db .invalidData => "InvalidData".toList
  | .rpcLimitExceeded => "RpcLimitExceeded".toList
  | .rpcError => "RpcError".toList
  | .invalidTopic => "InvalidTopic".toList
  | .invalidCharacter => "InvalidCharacter".toList
  | .abiMismatch => "AbiMismatch".toList
  | .decodeFailed name => name
  | .factoryFailed => "FactoryFailed".toList
  | .handlerFailed => "HandlerFailed".toList
  | .stopped => "Stopped".toList
  | .unsupportedOperation => "UnsupportedOperation".toList

/-! ### What is fixed while an indexer runs -/

/-- `db.BackendType` -/
inductive Backend where
  | sqlite
  | postgresql
  | rocksdb
  deriving DecidableEq, Repr

/-- `config.EventFilter` -/
structure EventFilter where
  event : Text
  field : Text
  op : Text
  value : Text
  deriving DecidableEq, Repr

/-- The part of `config.ContractConfig` an indexer reads. -/
structure Contract where
  name : Text
  address : Text
  events : List Text
  fromBlock : Nat
  maxReorgDepth : Option Nat := none
  blockBatchSize : Option Nat := none
  filters : List EventFilter := []
  deriving DecidableEq, Repr

/-- `abi.AbiEvent`: its name and the hash its logs carry as their first topic. -/
structure AbiEvent where
  name : Text
  signature : List Nat
  deriving DecidableEq, Repr

/-- `abi.AbiContract`, by what an indexer asks of it. -/
structure Abi where
  findEventByName : Text → Option AbiEvent
  findEventByTopic0 : List Nat → Option AbiEvent
  decodeLog : AbiEvent → List Text → Text → Except Err (List DecodedField)

/-- The settings of an indexer and of the clients it was given. -/
structure Config where
  backend : Backend
  /-- SQLite reads of balances go through a second connection. -/
  readDb : Bool := false
  /-- `database.log_cache` -/
  logCache : Bool := false
  contract : Contract
  abi : Option Abi
  chain : Text
  trackBlocks : Bool := false
  snapshotInterval : Nat := 0
  /-- An event callback is installed. -/
  eventCallback : Bool := false
  eventTsNeeded : Bool := false
  /-- The factory rules this indexer is the source of, if it has a factory. -/
  factoryIdxs : Option (List Nat) := none
  /-- The chain of the factory that listens for this indexer's rollbacks, if one
  does. -/
  reorgHook : Option Text := none
  templateMode : Bool := false
  maxAddressesPerRequest : Nat := 200
  hasWsConfig : Bool := false

namespace Config

/-- `db.Client.logCacheEnabled` -/
def logCacheEnabled (cfg : Config) : Bool := cfg.logCache && cfg.backend != .rocksdb

/-- The key of an indexer in `sync_state`, `block_hashes`, `snapshots` and
`raw_logs`. A template has no address of its own and uses its name, unless that
does not fit the buffer. -/
def stateKey (cfg : Config) : Text :=
  let key := "template:".toList ++ cfg.contract.name
  if cfg.templateMode ∧ key.length ≤ 256 then key else cfg.contract.address

/-- How the backend treats a failed statement. -/
def engine (cfg : Config) : Engine Err where
  poisons := cfg.backend = .postgresql
  misuse := .db .execFailed

end Config

/-! ### What an indexer cannot know -/

/-- `eth_rpc.LogFilter`, as `makeLogFilter` fills it. -/
structure LogFilter where
  addresses : List Text
  topics : Option (List Text)
  fromBlock : Nat
  toBlock : Nat
  deriving DecidableEq, Repr

/-- The arguments of an event callback. The block's timestamp is left to
`CallbackRow.timestamp`: what a callback makes of it is covered by the moment it
runs at. -/
structure EventCall where
  contractName : Text
  eventName : Text
  fields : List DecodedField
  blockNumber : Nat
  contractAddress : Text
  txHash : Text
  logIndex : Nat
  deriving DecidableEq, Repr

/-- What one run of an event callback does: `edit` to the projection rows that are
there, `inserts` as new ones, `stmt` whether one of its statements failed (its own
code may not care), and the value it returns. -/
structure HandlerRun where
  edit : List ProjRow → List ProjRow := id
  inserts : List ProjRow := []
  stmt : Fault DbErr := .none
  ok : Bool := true

/-- The statements, told apart within one moment. -/
inductive DbCall where
  | beginWrite
  | commitWrite
  | rollbackWrite
  | insertEventLog
  | insertRawLog
  | listRawLogs
  | deleteRawLog
  | bumpRawLogAttempt
  | getSyncState
  | upsertSyncState
  | deleteSyncState
  | getBlockHash
  | upsertBlockHash
  | getBlockTimestamp
  | upsertBlock
  | createSnapshot
  | getAccountBalance (incoming : Bool)
  | upsertAccountState (incoming : Bool)
  | addTemplateAddress (i : Nat)
  | listTemplateAddresses
  | markTemplateAddressBackfilled
  | deleteTemplateAddresses
  | deleteEventLogs (eventName : Text)
  | deleteProjections (table : Text)
  | listProjections
  | deleteSnapshots
  | deleteBlockHashes
  | deleteBlocks
  | deleteRawLogs
  | rewindSyncState
  | trimChainLogs
  | trimChainLogRanges
  | cutChainLogRanges
  | insertChainLog (i : Nat)
  | listLogRanges (address : Text)
  | loadChainLogs (address : Text)
  | markLogRange (i : Nat)
  deriving DecidableEq, Repr

/-- Everything an indexer cannot know: the node, the database's health, its own
callbacks and the clock, at every moment. Where nothing is said, nothing goes wrong
and nothing is known. -/
structure Env where
  fault : Nat → DbCall → Fault DbErr := fun _ _ => .none
  /-- SQLite breaks off a read after so many rows. The code takes the end of the
  rows for the end of the table. -/
  cut : Nat → DbCall → Option Nat := fun _ _ => none
  blockNumber : Nat → Outcome Err Nat := fun _ => .err .rpcError
  blockHash : Nat → Nat → Outcome Err (Option Text) := fun _ _ => .ok none
  blockData : Nat → Nat → Outcome Err (Option BlockData) := fun _ _ => .ok none
  getLogs : Nat → LogFilter → Outcome Err (List Log) := fun _ _ => .err .rpcError
  /-- All logs in the receipts of a block. -/
  blockReceipts : Nat → Nat → Outcome Err (List Log) := fun _ _ => .err .rpcError
  handler : Nat → EventCall → HandlerRun := fun _ _ => {}
  factory : Nat → Nat → Text → List DecodedField → Nat → Bool := fun _ _ _ _ _ => true
  /-- The wall clock. -/
  clock : Nat → Nat := id

/-! ### The state -/

/-- `IndexerState` -/
inductive IndexerState where
  | running
  | stopped
  | errorState
  | replaying
  deriving DecidableEq, Repr

/-- `TemplateAddressSet`: the live clones and those still to be scanned, each with
the block it was found in. -/
structure TemplateAddressSet where
  live : List (Text × Nat) := []
  pending : List (Text × Nat) := []
  deriving DecidableEq, Repr

/-- The memory of an indexer. -/
structure Mem where
  state : IndexerState := .stopped
  currentBlock : Nat
  batchSize : Nat := 500
  lastTip : Nat := 0
  lastSnapshotTime : Nat := 0
  replayLimit : Nat := 0
  /-- The run loop has a thread. -/
  thread : Bool := false
  blockTsCache : List (Nat × Nat) := []
  templateSet : TemplateAddressSet := {}
  liveAddrGen : Nat := 0
  /-- The highest block of a push dropped while a subscription was being confirmed. -/
  droppedLiveHi : Option Nat := none
  lastReorgCheck : Nat := 0
  deriving DecidableEq, Repr

/-- A child indexer of a factory. -/
structure Child where
  cfg : Config
  mem : Mem

/-- An indexer, its connection, and what is kept for the reader. -/
structure World where
  conn : Conn Tables
  /-- How often the write lock is held. -/
  writeDepth : Nat := 0
  mem : Mem
  children : List Child := []
  now : Nat := 0
  requests : Nat := 0
  handed : List Log := []
  rollbacks : List Nat := []

/-- A function of the indexer. -/
abbrev M (α : Type) : Type := Prog World Err α

namespace World

/-- The committed tables. -/
abbrev db (w : World) : Tables := w.conn.committed

/-- No transaction is open. -/
def Quiet (w : World) : Prop := w.conn.txn = none

/-- One more moment. -/
def ticked (w : World) : World := { w with now := w.now + 1 }

/-- One more request for logs. -/
def asked (w : World) : World := { w with now := w.now + 1, requests := w.requests + 1 }

@[simp] theorem ticked_conn (w : World) : w.ticked.conn = w.conn := rfl
@[simp] theorem ticked_mem (w : World) : w.ticked.mem = w.mem := rfl
@[simp] theorem ticked_now (w : World) : w.ticked.now = w.now + 1 := rfl
@[simp] theorem ticked_handed (w : World) : w.ticked.handed = w.handed := rfl
@[simp] theorem asked_conn (w : World) : w.asked.conn = w.conn := rfl
@[simp] theorem asked_mem (w : World) : w.asked.mem = w.mem := rfl
@[simp] theorem asked_now (w : World) : w.asked.now = w.now + 1 := rfl
@[simp] theorem asked_handed (w : World) : w.asked.handed = w.handed := rfl

end World

/-! ### The primitives -/

section Primitives

variable (env : Env) (cfg : Config)

/-- The environment's word on a statement sent at moment `t`. -/
def Env.faultAt (t : Nat) (call : DbCall) : Fault Err := (env.fault t call).map .db

/-- Run a program of the connection. -/
def onConn {ε α : Type} (p : Prog (Conn Tables) ε α) : Prog World ε α :=
  Prog.zoom (·.conn) (fun w c => { w with conn := c }) p

/-- Send a statement: it answers with `(g t).1` and turns the tables into `(g t).2`. -/
def exec {α : Type} (call : DbCall) (g : Tables → α × Tables) : M α := do
  let t ← Prog.read (·.now)
  onConn (Conn.stmt cfg.engine (env.faultAt t call) g)

/-- Send a statement that only writes. -/
def execWrite (call : DbCall) (g : Tables → Tables) : M Unit :=
  exec env cfg call fun t => ((), g t)

/-- Send a statement that only reads. -/
def execRead {α : Type} (call : DbCall) (g : Tables → α) : M α :=
  exec env cfg call fun t => (g t, t)

/-- The rows a loop over `sqlite3_step` gets to see. -/
def cutRows {α : Type} (t : Nat) (call : DbCall) (rows : List α) : List α :=
  match cfg.backend, env.cut t call with
  | .sqlite, some n => rows.take n
  | _, _ => rows

/-- Send a statement that scans the rows `g t`. -/
def execScan {α : Type} (call : DbCall) (g : Tables → List α) : M (List α) := do
  let t ← Prog.read (·.now)
  let rows ← execRead env cfg call g
  pure (cutRows env cfg t call rows)

/-- Send a statement that looks for one row. -/
def execFind {α : Type} (call : DbCall) (g : Tables → Option α) : M (Option α) := do
  let rows ← execScan env cfg call fun t => (g t).toList
  pure rows.head?

/-- `guardEnter` -/
def guardEnter : M Unit := Prog.modify fun w => { w with writeDepth := w.writeDepth + 1 }

/-- `guardLeave` -/
def leave (w : World) : World := { w with writeDepth := w.writeDepth - 1 }

/-- `self.guardEnter(); defer self.guardLeave();` -/
def guarded {α : Type} (p : M α) : M α := do
  guardEnter
  Prog.after p leave

/-- `beginWrite` -/
def beginWrite : M Unit := do
  guardEnter
  let t ← Prog.read (·.now)
  Prog.onErr (onConn (Conn.begin cfg.engine (env.faultAt t .beginWrite))) (Prog.modify leave)

/-- `commitWrite`: the lock is kept when the command fails, for the rollback. -/
def commitWrite : M Unit := do
  let t ← Prog.read (·.now)
  onConn (Conn.commit cfg.engine (env.faultAt t .commitWrite))
  Prog.modify leave

/-- `rollbackWrite` -/
def rollbackWrite : Prog World Empty Unit := do
  let t ← Prog.read (·.now)
  onConn (Conn.rollback (env.faultAt t .rollbackWrite))
  Prog.modify leave

/-- Ask the node; the request takes one moment. -/
def ask {α : Type} (answer : Nat → Outcome Err α) : M α := fun w => (answer w.now, w.ticked)

/-- Ask the node for logs. -/
def askLogs {α : Type} (answer : Nat → Outcome Err α) : M α := fun w => (answer w.now, w.asked)

/-- Ask the node something on the side, within the moment of a delivery. -/
def askAside {α : Type} (answer : Nat → Outcome Err α) : M α := fun w => (answer w.now, w)

/-- A moment passes. -/
def tick : M Unit := Prog.modify World.ticked

/-- Change the memory of the indexer. -/
def setMem (f : Mem → Mem) : M Unit := Prog.modify fun w => { w with mem := f w.mem }

/-- Look at the memory of the indexer. -/
def getMem {α : Type} (f : Mem → α) : M α := Prog.read fun w => f w.mem

/-- `p catch {}` -/
def ignoring (p : M Unit) : M Unit := Prog.catching p fun _ => pure ()

end Primitives

/-! ### The plainest indexer, to try things on -/

/-- An indexer on SQLite without the log cache. -/
def plainConfig : Config where
  backend := .sqlite
  contract := { name := "c".toList, address := "0xAA".toList, events := [], fromBlock := 0 }
  abi := none
  chain := "eth".toList

/-- A database and an indexer before anything has happened. -/
def freshWorld : World := { conn := Conn.quiet {}, mem := { currentBlock := 0 } }

end Zponder
