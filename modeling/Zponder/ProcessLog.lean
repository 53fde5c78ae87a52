import Zponder.Client

/-!
# Processing one log

`Indexer.processLog`, and what happens to a log it fails on. A log is first
classified, which touches nothing (`Zponder.classify`: an error, a log the
configured filters leave out, or an event to record); recording an event is the
part that touches the database. With an event callback installed, on a backend with
transactions, the event row, the balances and everything the callback writes are
one transaction; the factory rules run after it.

The source writes the transaction as `beginWrite`, an `errdefer` and a flag. Here
the part under the `errdefer` is a function of its own (`Zponder.storeEvent`), and
the rollback on its error is `Imperative.Prog.onErr`.
-/

namespace Zponder

open Imperative

/-! ### Classifying -/

/-- An event taken from a log. -/
structure Decoded where
  name : Text
  fields : List DecodedField
  deriving DecidableEq, Repr

/-- What a filter says of a field: nothing, or whether to record the event. A value
that is no number passes, an operator it does not know says nothing. -/
def fieldVerdict (filter : EventFilter) (field : DecodedField) : Option Bool :=
  if field.name ≠ filter.field then none
  else
    match Text.parseU256 field.value, Text.parseU256 filter.value with
    | none, _ => some true
    | some _, none => some true
    | some v, some bound =>
      if filter.op = "gt".toList then some (v > bound)
      else if filter.op = "gte".toList then some (v ≥ bound)
      else if filter.op = "lt".toList then some (v < bound)
      else if filter.op = "lte".toList then some (v ≤ bound)
      else if filter.op = "eq".toList then some (v = bound)
      else none

/-- `shouldRecordEvent`: the first verdict counts; without one the event is
recorded. -/
def shouldRecordEvent (cfg : Config) (ev : Decoded) : Bool :=
  let verdicts := (cfg.contract.filters.filter (·.event == ev.name)).flatMap fun filter =>
    ev.fields.map (fieldVerdict filter)
  (verdicts.findSome? id).getD true

/-- The first half of `processLog`: the event of a log, or nothing if the filters
leave it out. -/
def classify (cfg : Config) (lg : Log) : Except Err (Option Decoded) :=
  match cfg.abi, lg.topics with
  | none, _ => .error .abiMismatch
  | some _, [] => .error .abiMismatch
  | some ac, topic0 :: _ =>
    if topic0.length ≠ 66 ∨ ¬"0x".toList.isPrefixOf topic0 then .error .invalidTopic
    else
      match Text.hexToBytes (topic0.drop 2) with
      | none => .error .invalidCharacter
      | some sig =>
        if sig.length ≠ 32 then .error .invalidTopic
        else
          match ac.findEventByTopic0 sig with
          | none => .error .abiMismatch
          | some evt =>
            match ac.decodeLog evt lg.topics lg.data with
            | .error e => .error e
            | .ok fields =>
              if shouldRecordEvent cfg ⟨evt.name, fields⟩ then .ok (some ⟨evt.name, fields⟩)
              else .ok none

/-- The address a log is stored under. -/
def sourceAddress (lg : Log) : Text := (Text.normalizeHexAddress lg.address).getD lg.address

/-- The key of an event in its table. -/
def eventKey (cfg : Config) (ev : Decoded) (lg : Log) : EventKey :=
  ⟨eventTable cfg.contract.name ev.name, sourceAddress lg, lg.transactionHash, lg.logIndex⟩

/-! ### Transfers -/

/-- The parties and the amount of a transfer, as its fields are scanned: a later
field of one meaning replaces an earlier one. -/
structure TransferFields where
  sender : Option Text := none
  receiver : Option Text := none
  amount : Option Text := none
  deriving DecidableEq, Repr

/-- One turn of the loop over the fields. -/
def TransferFields.scan (acc : TransferFields) (f : DecodedField) : TransferFields :=
  if f.name = "from".toList ∨ f.name = "_from".toList then { acc with sender := some f.value }
  else if f.name = "to".toList ∨ f.name = "_to".toList then { acc with receiver := some f.value }
  else if f.name = "value".toList ∨ f.name = "_value".toList ∨ f.name = "tokens".toList ∨
      f.name = "amount".toList then { acc with amount := some f.value }
  else acc

/-- A transfer between accounts; the zero address and the empty one have no
balance. -/
structure Transfer where
  sender : Option Text
  receiver : Option Text
  amount : Nat
  deriving DecidableEq, Repr

/-- The zero address. -/
def zeroAddr : Text := "0x0000000000000000000000000000000000000000".toList

/-- An account that has a balance. -/
def account (a : Option Text) : Option Text := a.filter fun a => a ≠ zeroAddr ∧ a ≠ []

/-- What `trackTokenTransferState` reads off the fields of an event. -/
def transferOf (fields : List DecodedField) : Option Transfer := do
  let parts := fields.foldl TransferFields.scan {}
  let amount ← Text.parseU256 (← parts.amount)
  some ⟨account parts.sender, account parts.receiver, amount⟩

section ProcessLog

variable (env : Env) (cfg : Config)

/-- `getAccountBalance catch null orelse "0"` -/
def balanceOf (incoming : Bool) (contract holder : Text) : M Nat := do
  let r ← Prog.catching (getAccountBalance env cfg incoming contract holder) fun _ => pure none
  pure (r.getD 0)

/-- The outgoing half of a transfer: never below zero. -/
def debit (contract holder : Text) (amount b : Nat) : M Unit := do
  let current ← balanceOf env cfg false contract holder
  let new := if current > amount then current - amount else 0
  ignoring (upsertAccountState env cfg false contract holder ⟨new, b⟩)

/-- The incoming half of a transfer. A sum that is no `u256` stops the process. -/
def credit (contract holder : Text) (amount b : Nat) : M Unit := do
  let current ← balanceOf env cfg true contract holder
  if current + amount ≥ 2 ^ 256 then onConn Conn.vanish
  else ignoring (upsertAccountState env cfg true contract holder ⟨current + amount, b⟩)

/-- Only a party that has a balance. -/
def forAccount (holder : Option Text) (f : Text → M Unit) : M Unit :=
  match holder with
  | some a => f a
  | none => pure ()

/-- `trackTokenTransferState` -/
def trackTokenTransferState (contract : Text) (fields : List DecodedField) (b : Nat) :
    M Unit := do
  let state ← getMem (·.state)
  if state = .replaying then pure ()
  else
    match transferOf fields with
    | none => pure ()
    | some tr => do
      forAccount tr.sender fun a => debit env cfg contract a tr.amount b
      forAccount tr.receiver fun a => credit env cfg contract a tr.amount b

/-! ### Timestamps, callbacks, factories -/

/-- `rememberBlockTimestamp` -/
def rememberBlockTimestamp (b ts : Nat) : M Unit :=
  setMem fun m =>
    let cache := if m.blockTsCache.length > 4096 then [] else m.blockTsCache
    { m with blockTsCache := (b, ts) :: cache.filter (·.1 != b) }

/-- `resolveBlockTimestamp`: memory, the table, the node; 0 if none of them knows. -/
def resolveBlockTimestamp (b : Nat) : M Nat := do
  if cfg.eventTsNeeded = false then pure 0
  else
    let cached ← getMem fun m => (m.blockTsCache.find? (·.1 == b)).map (·.2)
    match cached with
    | some ts => pure ts
    | none =>
      let stored ← Prog.catching (getBlockTimestamp env cfg cfg.chain b) fun _ => pure none
      match stored with
      | some ts => do
        rememberBlockTimestamp b ts
        pure ts
      | none =>
        let data ← Prog.catching (askAside fun t => env.blockData t b) fun _ => pure none
        match data with
        | none => pure 0
        | some d => do
          ignoring (upsertBlock env cfg cfg.chain d)
          rememberBlockTimestamp d.number d.timestamp
          pure d.timestamp

/-- What a run of the callback does to the tables. -/
def HandlerRun.apply (r : HandlerRun) (key : EventKey) (now ts : Nat) (t : Tables) : Tables :=
  { t with
    projs := r.edit t.projs ++ r.inserts
    callbacks := t.callbacks ++ [⟨key, now, ts, r.inserts, r.ok⟩] }

/-- The statements of an event callback, sent on the indexer's own connection. That
one of them fails is for the callback to notice or not; what it returns is all the
indexer sees. RocksDB takes no statements. -/
def runCallback (key : EventKey) (call : EventCall) (ts : Nat) : M Bool := do
  let now ← Prog.read (·.now)
  let r := env.handler now call
  if cfg.backend = .rocksdb then pure r.ok
  else do
    ignoring (onConn (Conn.stmt cfg.engine .none fun t => ((), r.apply key now ts t)))
    ignoring (onConn (Conn.stmt cfg.engine (r.stmt.map Err.db) fun t => ((), t)))
    pure r.ok

/-- `dispatchFactory`: every rule of the source must take the event. Without a
factory there is none. -/
def dispatchFactory (ev : Decoded) (b : Nat) : M Bool :=
  Prog.read fun w =>
    (cfg.factoryIdxs.getD []).all fun i => env.factory w.now i ev.name ev.fields b

/-! ### Recording an event -/

/-- The event and everything it entails are one transaction. -/
def Config.guardTxn (cfg : Config) : Bool := cfg.eventCallback && cfg.backend != .rocksdb

/-- The arguments of the callback for a log. -/
def eventCall (ev : Decoded) (lg : Log) : EventCall :=
  ⟨cfg.contract.name, ev.name, ev.fields, lg.blockNumber, sourceAddress lg,
    lg.transactionHash, lg.logIndex⟩

/-- What follows the insertion of a new event: balances, callback, commit. -/
def storeNew (ev : Decoded) (lg : Log) (ts : Nat) : M Unit := do
  Prog.when (ev.name = "Transfer".toList)
    (trackTokenTransferState env cfg (sourceAddress lg) ev.fields lg.blockNumber)
  Prog.when (cfg.eventCallback = true) do
    let ok ← runCallback env cfg (eventKey cfg ev lg) (eventCall cfg ev lg) ts
    Prog.when (ok = false) (Prog.throw .handlerFailed)
  Prog.when (cfg.guardTxn = true) (commitWrite env cfg)

/-- The part of `processLog` under its `errdefer`. A row that is there already ends
the transaction without an error. -/
def storeEvent (ev : Decoded) (lg : Log) (ts : Nat) : M Unit := do
  let inserted ← insertEventLog env cfg cfg.contract.name ev.name ev.fields lg.blockNumber
    lg.transactionHash lg.logIndex (sourceAddress lg)
  if inserted = true then storeNew env cfg ev lg ts
  else Prog.when (cfg.guardTxn = true) (Prog.lift (rollbackWrite env))

/-- The timestamp the callback is given, which nobody else needs. -/
def callbackTimestamp (b : Nat) : M Nat :=
  if cfg.eventCallback = true then resolveBlockTimestamp env cfg b else pure 0

/-- The second half of `processLog`. -/
def recordEvent (ev : Decoded) (lg : Log) : M Unit := do
  let ts ← callbackTimestamp env cfg lg.blockNumber
  Prog.when (cfg.guardTxn = true) (beginWrite env cfg)
  Prog.onErr (storeEvent env cfg ev lg ts)
    (Prog.when (cfg.guardTxn = true) (rollbackWrite env))
  let found ← dispatchFactory env cfg ev lg.blockNumber
  Prog.when (found = false) (Prog.throw .factoryFailed)

/-- `processLog` -/
def processLog (lg : Log) : M Unit := do
  Prog.modify fun w => { w with handed := w.handed ++ [lg] }
  match classify cfg lg with
  | .error e => Prog.throw e
  | .ok none => pure ()
  | .ok (some ev) => recordEvent env cfg ev lg

/-! ### Dead letters -/

/-- `recordFailedLog`: a failure to write the dead letter is only logged. -/
def recordFailedLog (lg : Log) (reason : Text) : M Unit :=
  ignoring (insertRawLog env cfg cfg.stateKey lg.blockNumber lg.transactionHash lg.logIndex
    (Text.formatTopicsJson lg.topics) lg.data reason lg.address)

/-- One turn of the loops of `processFetchedLogs` and `replayCachedAddresses`. -/
def deliver (lg : Log) : M Unit := do
  Prog.catching (processLog env cfg lg) fun e => recordFailedLog env cfg lg e.name
  tick

/-- The order of `rpcLogLess`, with equality. -/
def Log.le (a b : Log) : Prop :=
  a.blockNumber < b.blockNumber ∨ (a.blockNumber = b.blockNumber ∧ a.logIndex ≤ b.logIndex)

instance : DecidableRel Log.le := fun _ _ => inferInstanceAs (Decidable (_ ∨ _))

/-- The logs of a page in chain order. -/
def sortLogs (logs : List Log) : List Log := logs.insertionSort Log.le

/-- `processFetchedLogs` -/
def processFetchedLogs (logs : List Log) : M Unit :=
  Prog.each (sortLogs logs) (deliver env cfg)

/-- `deadLetterDelayMs` -/
def deadLetterDelayMs (attemptsBefore : Nat) : Nat := 1000 <<< min attemptsBefore 8

/-- `raw_log_retry_batch` -/
def rawLogRetryBatch : Nat := 16

/-- The log a dead letter holds. -/
def logOfRow (row : RawLogRow) : Log where
  address := if row.logAddress ≠ [] then row.logAddress else cfg.contract.address
  topics := Text.parseTopicsJson row.topics
  data := row.data
  blockNumber := row.blockNumber
  transactionHash := row.txHash
  logIndex := row.logIndex

/-- One turn of the loop of `retryDeadLetters`. -/
def retryDeadLetter (now : Nat) (row : RawLogRow) : M Unit := do
  let result ← Prog.attempt (processLog env cfg (logOfRow cfg row))
  match result with
  | .error _ =>
    ignoring (bumpRawLogAttempt env cfg row.id (now + deadLetterDelayMs row.attempts))
  | .ok _ => ignoring (deleteRawLog env cfg row.id)
  tick

/-- `retryDeadLetters` -/
def retryDeadLetters : M Unit :=
  if cfg.backend = .rocksdb then pure ()
  else do
    let now ← Prog.read fun w => env.clock w.now
    let rows ← Prog.catching (listRawLogs env cfg cfg.stateKey rawLogRetryBatch now)
      fun _ => pure []
    Prog.each rows (retryDeadLetter env cfg now)

end ProcessLog

end Zponder
