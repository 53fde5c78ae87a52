import Zponder.ProcessLog

/-!
# The event callback of the service

What runs between the insertion of an event row and its commit: the rules of
`handlers/*.json`, which put rows into the outbox of the webhooks (a database file of its
own, with a connection of its own), the handlers of the scripts, and the event bus the
server-sent events come from.

The state is what all indexers of the process share (`Zponder.Hook.Hub`). Of the main
database it has the event tables, a row being kept as the arguments of the callback for it;
the statements of `processLog` that go to other tables are there for their failures, which
nobody reports and which may cost the transaction. The outbox has every row that was ever
put into it: what becomes of a row afterwards is the worker's affair. The write lock is held from
`beginWrite` to the commit, so that one log is processed after another.
-/

namespace Zponder.Hook

open Imperative

/-! ### Rules -/

/-- `script_engine.Action` -/
inductive Action where
  | logMsg (msg : Text)
  | webhookUrl (url : Text)
  | updateAccount (contract accountField balanceField : Text)
  deriving DecidableEq, Repr

/-- `script_engine.Rule` -/
structure Rule where
  contract : Text
  event : Text
  field : Text
  op : Text
  val : Text
  action : Action
  deriving DecidableEq, Repr

/-- `std.fmt.parseInt(u256, s, 10) catch 0` -/
def number (s : Text) : Nat := (Text.parseInt 10 (2 ^ 256) s).getD 0

/-- What the loop over the fields asks of one of them. -/
def Rule.takes (r : Rule) (f : DecodedField) : Bool :=
  f.name == r.field &&
    ((r.op == "eq".toList && f.value == r.val) ||
      (r.op == "gt".toList && number f.value > number r.val) ||
      (r.op == "gte".toList && number f.value ≥ number r.val))

/-- Whether `processEvent` finds that a rule matches. -/
def Rule.matched (r : Rule) (call : EventCall) : Bool :=
  (r.contract == "*".toList || r.contract == call.contractName) &&
    (r.event == "*".toList || r.event == call.eventName) &&
    (r.op == "always".toList || call.fields.any r.takes)

/-! ### What is shared -/

/-- A row of `webhook_outbox`, as it is put there. -/
structure OutboxRow where
  url : Text
  payload : Text
  deriving DecidableEq, Repr

/-- What the indexers of one process share. -/
structure Hub where
  /-- The event tables. -/
  conn : Conn (List EventCall) := Conn.quiet []
  /-- The rows ever put into the outbox. -/
  outbox : List OutboxRow := []
  /-- The events ever given to `publish`. -/
  published : List EventCall := []
  now : Nat := 0

/-- What the hook cannot know: besides the rest, whether the outbox takes the row of the
rule at an index, whether its manager is running, and whether the indexer is replaying. -/
structure HookEnv extends Env where
  enqueue : Nat → Nat → Fault DbErr := fun _ _ => .none
  running : Nat → Bool := fun _ => true
  replaying : Nat → Bool := fun _ => false

/-- A program on what is shared. -/
abbrev P (α : Type) : Type := Prog Hub Err α

/-- The key of the unique index an event is under. RocksDB has its own
(`Zponder.Hook.sameRow`). -/
def keyOf (call : EventCall) : EventKey :=
  ⟨eventTable call.contractName call.eventName, call.contractAddress, call.txHash, call.logIndex⟩

/-- The key of a put has the block, and not the address. -/
def sameRow (a b : EventCall) : Bool :=
  eventTable a.contractName a.eventName == eventTable b.contractName b.eventName &&
    a.blockNumber == b.blockNumber && a.txHash == b.txHash && a.logIndex == b.logIndex

section Callback

variable (env : HookEnv) (cfg : Config) (rules : List Rule)

/-- Run a program of the connection. -/
def onStore {ε α : Type} (p : Prog (Conn (List EventCall)) ε α) : Prog Hub ε α :=
  Prog.zoom (·.conn) (fun h c => { h with conn := c }) p

/-- Send a statement to the event tables. -/
def send {α : Type} (call : DbCall) (g : List EventCall → α × List EventCall) : P α := do
  let t ← Prog.read (·.now)
  onStore (Conn.stmt cfg.engine (env.faultAt t call) g)

/-- A statement that goes elsewhere, and whose failure is only logged. -/
def sendAside (φ : Fault Err) : P Unit :=
  Prog.catching (onStore (Conn.stmt cfg.engine φ fun t => ((), t))) fun _ => pure ()

/-! ### Webhooks -/

/-- The fields of a payload. -/
def payloadFields (fields : List DecodedField) : Text :=
  ",".toList.intercalate (fields.map fun f =>
    "\"".toList ++ f.name ++ "\":\"".toList ++ f.value ++ "\"".toList)

/-- What `enqueueEvent` writes of an event. -/
def payload (call : EventCall) : Text :=
  "\x7b\"contract\":\"".toList ++ call.contractName ++ "\",\"event\":\"".toList ++
    call.eventName ++ "\",\"block_number\":".toList ++ (toString call.blockNumber).toList ++
    ",\"fields\":\x7b".toList ++ payloadFields call.fields ++ "\x7d\x7d\x7d".toList

/-- `webhook.Manager.enqueueEvent` -/
def enqueueEvent (i : Nat) (url : Text) (call : EventCall) : P Unit := do
  let t ← Prog.read (·.now)
  Prog.when (env.running t = true ∧ url ≠ []) <|
    match env.enqueue t i with
    | .none => Prog.modify fun h => { h with outbox := h.outbox ++ [⟨url, payload call⟩] }
    | .fail _ => pure ()
    | .crash => onStore Conn.vanish

/-- One turn of the loop of `processEvent`, at the rule with index `i`. -/
def applyRule (call : EventCall) (r : Rule) (i : Nat) : P Unit :=
  Prog.when (r.matched call = true) <|
    match r.action with
    | .logMsg _ => pure ()
    | .webhookUrl url => enqueueEvent env i url call
    | .updateAccount _ _ _ => pure ()

/-- `ScriptEngine.processEvent` -/
def processEvent (call : EventCall) : P Unit :=
  Prog.each rules.zipIdx fun x => applyRule env call x.1 x.2

/-- `JsEngine.handleEvent`, by its statements and the value it returns. -/
def handleEvent (call : EventCall) : P Bool := do
  let t ← Prog.read (·.now)
  Prog.when (cfg.backend ≠ .rocksdb) (sendAside cfg ((env.handler t call).stmt.map Err.db))
  pure (env.handler t call).ok

/-- `CombinedHook.callback` -/
def callback (call : EventCall) : P Bool := do
  processEvent env rules call
  let ok ← handleEvent env cfg call
  Prog.when (ok = true) (Prog.modify fun h => { h with published := h.published ++ [call] })
  pure ok

/-! ### Processing a log -/

/-- The statements of `trackTokenTransferState`. -/
def balanceCalls (fields : List DecodedField) : List DbCall :=
  match transferOf fields with
  | none => []
  | some tr =>
    (if tr.sender.isSome then [.getAccountBalance false, .upsertAccountState false] else []) ++
      if tr.receiver.isSome then [.getAccountBalance true, .upsertAccountState true] else []

/-- `trackTokenTransferState` -/
def trackTokenTransferState (fields : List DecodedField) : P Unit := do
  let t ← Prog.read (·.now)
  Prog.when (env.replaying t = false)
    (Prog.each (balanceCalls fields) fun call => sendAside cfg (env.faultAt t call))

/-- `insertEventLog`: whether the row is new. -/
def insertEventLog (call : EventCall) : P Bool :=
  match cfg.backend with
  | .rocksdb => send env cfg .insertEventLog fun t =>
      (true, t.filter (fun c => !sameRow c call) ++ [call])
  | _ => send env cfg .insertEventLog fun t =>
      if t.any (fun c => keyOf c == keyOf call) then (false, t) else (true, t ++ [call])

/-- What follows the insertion of a new event: balances, callback, commit. -/
def storeNew (call : EventCall) : P Unit := do
  Prog.when (call.eventName = "Transfer".toList) (trackTokenTransferState env cfg call.fields)
  Prog.when (cfg.eventCallback = true) do
    let ok ← callback env cfg rules call
    Prog.when (ok = false) (Prog.throw .handlerFailed)
  Prog.when (cfg.guardTxn = true) do
    let t ← Prog.read (·.now)
    onStore (Conn.commit cfg.engine (env.faultAt t .commitWrite))

/-- The end of a transaction that is not to be kept. -/
def rollback : Prog Hub Empty Unit := do
  let t ← Prog.read (·.now)
  Prog.when (cfg.guardTxn = true) (onStore (Conn.rollback (env.faultAt t .rollbackWrite)))

/-- The part of `processLog` under its `errdefer`. -/
def storeEvent (call : EventCall) : P Unit := do
  let inserted ← insertEventLog env cfg call
  if inserted = true then storeNew env cfg rules call else Prog.lift (rollback env cfg)

/-- `dispatchFactory` -/
def dispatchFactory (call : EventCall) : P Bool :=
  Prog.read fun h => (cfg.factoryIdxs.getD []).all fun i =>
    env.factory h.now i call.eventName call.fields call.blockNumber

/-- The second half of `processLog`. -/
def recordEvent (call : EventCall) : P Unit := do
  Prog.when (cfg.guardTxn = true) do
    let t ← Prog.read (·.now)
    onStore (Conn.begin cfg.engine (env.faultAt t .beginWrite))
  Prog.onErr (storeEvent env cfg rules call) (rollback env cfg)
  let found ← dispatchFactory env cfg call
  Prog.when (found = false) (Prog.throw .factoryFailed)

/-- `processLog` -/
def processLog (lg : Log) : P Unit :=
  match classify cfg lg with
  | .error e => Prog.throw e
  | .ok none => pure ()
  | .ok (some ev) => recordEvent env cfg rules (eventCall cfg ev lg)

end Callback

end Zponder.Hook
