import Zponder.DecodeLog
import Zponder.EventQuery
import Zponder.Lib.JsonRows
import Zponder.World

/-!
# From the ABI to a row and back

The way of an event through the database, as text: the table `autoMigrateContract` makes of
the ABI, the row `insertEventLog` puts into it, and the JSON `queryEventLogs` answers with.
On SQLite and PostgreSQL the columns are named after the inputs, in lower case and with an
underscore for everything else, and the table after the event; on RocksDB there is no table, and
the value of a key is an object with the names as they are.

A name the SQL is built with is not quoted, so it has to be one, and it stands for the
name the backend folds it to. What the backends are relied on for, and do not agree about, is
in `Zponder.EventTables.Sql`. The tables a contract had before are not looked at: the
contract is new to the database (`Zponder.EventTables.Fresh`).

Logs are read back (`Zponder.EventTables.ReadBack`) if every one of them has one row in
the answer, with each field under a column of its own.
-/

namespace Zponder.EventTables

open Decode (Event EventInput decodeLog)

open JsonRows (Value Row)

/-! ### Names -/

/-- What becomes of a character of a name. -/
def columnChar (c : Char) : Char := if c.isAlphanum = true then c.toLower else '_'

/-- `eventColumnName` -/
def eventColumnName (paramName : Text) : Text := "evt_".toList ++ paramName.map columnChar

/-- `event_<contract>_<event>` -/
def tableName (contractName eventName : Text) : Text :=
  "event_".toList ++ contractName ++ "_".toList ++ eventName

/-- The types of columns. -/
inductive SqlType where
  | text
  | integer
  deriving DecidableEq, Repr

/-- `abiTypeToSqlType`: every type but one is `TEXT`. -/
def abiTypeToSqlType (abiType : Text) : SqlType :=
  if abiType = "bool".toList then .integer else .text

/-- `findEventByName`: the first of that name. -/
def findEventByName (abi : List Event) (name : Text) : Option Event :=
  abi.find? fun e => decide (e.name = name)

/-- The backends that have tables. -/
inductive Dialect where
  | sqlite
  | postgresql
  deriving DecidableEq, Repr

/-- A character of a name that is not in quotes. A name with another one in it is taken
apart, and what is left is no statement. -/
def nameChar (c : Char) : Bool := c.isAlphanum || c == '_' || c == '$' || 0x80 ≤ c.toNat

/-- Sixty-three bytes at most, and no part of a character. -/
def clip (name : Text) : Text :=
  if name.length ≤ 63 then name
  else ((name.take 64).reverse.dropWhile fun c => c.toNat / 64 == 2).tail.reverse

/-- What a name that is not in quotes stands for. -/
def Dialect.fold : Dialect → Text → Text
  | .sqlite, name => Text.lower name
  | .postgresql, name => clip (Text.lower name)

/-- How many columns a table may have. -/
def Dialect.maxColumns : Dialect → Nat
  | .sqlite => 2000
  | .postgresql => 1600

/-! ### Tables -/

/-- A row of an event table, with the cell of every column of the ABI. -/
structure TableRow where
  id : Nat
  cells : List (Text × Value)
  blockNumber : Nat
  txHash : Text
  logIndex : Nat
  contractAddress : Text

/-- An event table: the columns of the ABI, and the rows. -/
structure Table where
  columns : List (Text × SqlType)
  rows : List TableRow := []

/-- The event tables, by what their names stand for, and the keys and values of RocksDB. -/
structure Database where
  tables : Text → Option Table := fun _ => none
  store : List (Text × Text) := []

/-- A table is made, or gets another content. -/
def Database.setTable (db : Database) (name : Text) (T : Table) : Database :=
  { db with tables := Function.update db.tables name (some T) }

@[simp] theorem Database.setTable_self (db : Database) (name : Text) (T : Table) :
    (db.setTable name T).tables name = some T := Function.update_self _ _ _

theorem Database.setTable_of_ne (db : Database) {name t : Text} (T : Table) (h : t ≠ name) :
    (db.setTable name T).tables t = db.tables t := Function.update_of_ne h _ _

/-- What is left to the backends. -/
structure Sql where
  /-- What SQLite keeps of a text that may be a number, in an `INTEGER` column. -/
  affinity : Text → Value
  /-- What PostgreSQL prints of a text it has read as an integer. -/
  integer : Text → Option Text
  integer_printed : ∀ v s, integer v = some s → ∀ c ∈ s, c.isDigit = true ∨ c = '-'
  /-- The texts that are of the encoding of the PostgreSQL server. -/
  takes : Text → Bool
  /-- The order of the rows. -/
  arrange : Bool → List TableRow → List TableRow
  arrange_perm : ∀ desc rows, (arrange desc rows).Perm rows
  /-- `CURRENT_TIMESTAMP` -/
  createdAt : Text

/-- A text that comes back through a C string. -/
def cut (s : Text) : Text := s.takeWhile (· ≠ Char.ofNat 0)

/-- What a parameter of a statement is bound to. -/
def Dialect.bound : Dialect → Text → Text
  | .sqlite, s => s
  | .postgresql, s => cut s

/-- A log, and the event its first topic is the signature of. -/
structure Received where
  event : Event
  log : Log

/-- What the log is decoded to. -/
def Received.fields (r : Received) : List DecodedField :=
  (decodeLog r.event r.log.topics r.log.data).fields

section Tables

variable (d : Dialect) (sql : Sql) (contractName : Text)

/-- The name of the column of a field. -/
def column (name : Text) : Text := d.fold (eventColumnName name)

/-- What the name of an event's table stands for. -/
def tableOf (eventName : Text) : Text := d.fold (tableName contractName eventName)

/-- The table of an event: one column for each input, and six for every event. -/
def newTable (evt : Event) : Table where
  columns := evt.inputs.map fun i => (column d i.name, abiTypeToSqlType i.type)

/-- The name of an event's table is one. -/
def Named (eventName : Text) : Prop := (tableName contractName eventName).all nameChar = true

/-- No two columns have one name, and they are not too many. -/
def Creatable (evt : Event) : Prop :=
  (evt.inputs.map fun i => column d i.name).Nodup ∧ evt.inputs.length + 6 ≤ d.maxColumns

instance (eventName : Text) : Decidable (Named contractName eventName) := by
  unfold Named
  infer_instance

instance (evt : Event) : Decidable (Creatable d evt) := by
  unfold Creatable
  infer_instance

/-- `createEventTable` and `createEventTablePG`. A table that is there is left as it is. -/
def createEventTable (evt : Event) (db : Database) : Option Database :=
  if Named contractName evt.name then
    if (db.tables (tableOf d contractName evt.name)).isSome = true then some db
    else if Creatable d evt then
      some (db.setTable (tableOf d contractName evt.name) (newTable d evt))
    else none
  else none

/-- The events whose tables are made, in that order. -/
def listed (abi : List Event) (events : List Text) : List Event :=
  events.filterMap (findEventByName abi)

/-- The first table that cannot be made is the last that is tried. -/
def createAll : List Event → Database → Database
  | [], db => db
  | evt :: evts, db =>
    match createEventTable d contractName evt db with
    | none => db
    | some db => createAll evts db

/-! ### Inserting -/

/-- Nothing in the text keeps it from being a number, with blanks around it. -/
def numeral (s : Text) : Bool :=
  s.all fun c => JsonRows.isNumeric c || c == ' ' || (9 ≤ c.toNat && c.toNat ≤ 13)

/-- What a column keeps of a text. -/
def keep (type : SqlType) (value : Text) : Option Value :=
  match type, d with
  | .text, _ => some (.text (d.bound value))
  | .integer, .sqlite => some (if numeral value = true then sql.affinity value else .text value)
  | .integer, .postgresql => (sql.integer (d.bound value)).map .text

/-- The cell of a column: the first of the fields that has it. -/
def cell (fields : List DecodedField) (col : Text × SqlType) : Option (Text × Value) :=
  match fields.find? fun f => decide (column d f.name = col.1) with
  | none => some (col.1, .null)
  | some f => (keep d sql col.2 f.value).map fun v => (col.1, v)

/-- The parameters of the statement can be sent. -/
def sendable (r : Received) : Bool :=
  match d with
  | .sqlite => true
  | .postgresql =>
    decide (r.fields.length + 4 ≤ 32 ∧ (r.fields.map fun f => column d f.name).Nodup) &&
      (r.log.transactionHash :: r.log.address :: r.fields.map (·.value)).all fun s =>
        sql.takes (cut s)

/-- The unique key of the row is that of the log. -/
def sameKey (r : Received) (row : TableRow) : Bool :=
  row.contractAddress == d.bound r.log.address && row.txHash == d.bound r.log.transactionHash &&
    row.logIndex == r.log.logIndex

/-- The row of a log. -/
def newRow (r : Received) (T : Table) : TableRow where
  id := T.rows.length + 1
  cells := T.columns.filterMap (cell d sql r.fields)
  blockNumber := r.log.blockNumber
  txHash := d.bound r.log.transactionHash
  logIndex := r.log.logIndex
  contractAddress := d.bound r.log.address

/-- `insertEventLog` on SQLite, and `insertEventLogPG`. Without a field the list of the
columns begins with a comma. Behind the fields comes the rest of the columns; a number
above the range of the column cannot be bound. -/
def insertRow (r : Received) (db : Database) : Option Database :=
  if Named contractName r.event.name ∧ r.fields ≠ [] then
    match db.tables (tableOf d contractName r.event.name) with
    | none => none
    | some T =>
      if (∀ f ∈ r.fields, column d f.name ∈ T.columns.map (·.1)) ∧ sendable d sql r = true ∧
          r.log.blockNumber < 2 ^ 63 ∧ r.log.logIndex < 2 ^ 63 ∧
          ∀ col ∈ T.columns, (cell d sql r.fields col).isSome = true then
        if T.rows.any (sameKey d r) = true then some db
        else some (db.setTable (tableOf d contractName r.event.name)
          { T with rows := T.rows ++ [newRow d sql r T] })
      else none
  else none

/-! ### Asking -/

/-- A number in a row: PostgreSQL sends texts only. -/
def Dialect.number : Dialect → Nat → Value
  | .sqlite, n => .number (toString n).toList
  | .postgresql, n => .text (toString n).toList

/-- What is written of a cell. -/
def shown : Value → Value
  | .text s => .text (cut s)
  | v => v

/-- The columns behind those of the ABI. -/
def ownMembers (row : TableRow) : Row :=
  [("block_number".toList, d.number row.blockNumber), ("tx_hash".toList, .text (cut row.txHash)),
    ("log_index".toList, d.number row.logIndex),
    ("contract_address".toList, .text (cut row.contractAddress)),
    ("created_at".toList, .text sql.createdAt)]

/-- `SELECT *` -/
def members (row : TableRow) : Row :=
  ("id".toList, d.number row.id) :: (row.cells.map fun c => (c.1, shown c.2)) ++
    ownMembers d sql row

/-- A member, as it is written. The name of the column is not escaped. -/
def rowMember (m : Text × Value) : Text :=
  "\"".toList ++ m.1 ++ "\":".toList ++ JsonRows.value Text.escapeChar m.2

/-- A row, as it is written. -/
def rowText (row : TableRow) : Text :=
  "\x7b".toList ++ JsonRows.items ((members d sql row).map rowMember) ++ "\x7d".toList

/-- `queryEventLogs` on SQLite, and `queryEventLogsPG`, which does not look at the order
asked for. -/
def selectRows (eventName : Text) (desc : Bool) (limit : Nat) (db : Database) : Option Text :=
  if Named contractName eventName then
    (db.tables (tableOf d contractName eventName)).map fun T =>
      JsonRows.array (((sql.arrange (desc || d == .postgresql) T.rows).take limit).map
        (rowText d sql))
  else none

end Tables

/-! ### RocksDB -/

section Rocks

variable (contractName : Text)

/-- `e:<contract>:<event>:` -/
def keyPrefix (eventName : Text) : Text :=
  "e:".toList ++ contractName ++ ":".toList ++ eventName ++ ":".toList

/-- The key of a log. -/
def rocksKey (r : Received) : Text :=
  keyPrefix contractName r.event.name ++ EventQuery.padded 20 r.log.blockNumber ++ ":".toList ++
    r.log.transactionHash ++ ":".toList ++ EventQuery.padded 20 r.log.logIndex

/-- The log, as `insertEventLogRocks` writes it. -/
def rocksEvent (r : Received) : EventQuery.Event where
  address := r.log.address
  txHash := r.log.transactionHash
  logIndex := r.log.logIndex
  blockNumber := r.log.blockNumber
  fields := r.fields

/-- A put overwrites. -/
def Database.put (db : Database) (key value : Text) : Database :=
  { db with store := db.store.filter (fun kv => decide (kv.1 ≠ key)) ++ [(key, value)] }

/-- `insertEventLogRocks` -/
def insertRocks (r : Received) (db : Database) : Option Database :=
  if (rocksKey contractName r).length ≤ 512 then
    some (db.put (rocksKey contractName r) (EventQuery.eventValue (rocksEvent r)))
  else none

/-- `queryEventLogsRocks` -/
def scanRocks (eventName : Text) (limit : Nat) (db : Database) : Option Text :=
  let start := keyPrefix contractName eventName
  if start.length + 1 ≤ 256 then
    let keys := db.store.insertionSort fun a b => a.1 ≤ b.1
    let found := (keys.dropWhile fun kv => decide (kv.1 < start)).takeWhile fun kv =>
      decide (kv.1 < start ++ EventQuery.top)
    some (JsonRows.array ((found.take limit).map (·.2)))
  else none

end Rocks

/-! ### The three backends -/

/-- Which of the backends that have tables it is. -/
def dialect : Backend → Option Dialect
  | .sqlite => some .sqlite
  | .postgresql => some .postgresql
  | .rocksdb => none

section Backends

variable (b : Backend) (sql : Sql) (contractName : Text)

/-- `autoMigrateContract`. What does not work is logged. -/
def autoMigrateContract (abi : List Event) (events : List Text) (db : Database) : Database :=
  match dialect b with
  | none => db
  | some d => createAll d contractName (listed abi events) db

/-- `insertEventLog` -/
def insertEventLog (r : Received) (db : Database) : Option Database :=
  match dialect b with
  | none => insertRocks contractName r db
  | some d => insertRow d sql contractName r db

/-- `queryEventLogs`, without a filter. -/
def queryEventLogs (eventName : Text) (desc : Bool) (limit : Nat) (db : Database) : Option Text :=
  match dialect b with
  | none => scanRocks contractName eventName limit db
  | some d => selectRows d sql contractName eventName desc limit db

/-- Logs are inserted one after the other. -/
def insertAll : List Received → Database → Option Database
  | [], db => some db
  | r :: rs, db => (insertEventLog b sql contractName r db).bind (insertAll rs)

/-! ### What is asked of them -/

/-- The row is that of the log. -/
def isOf (r : Received) (row : Row) : Bool :=
  decide (("tx_hash".toList, Value.text r.log.transactionHash) ∈ row ∧
    (("log_index".toList, Value.number (toString r.log.logIndex).toList) ∈ row ∨
      ("log_index".toList, Value.text (toString r.log.logIndex).toList) ∈ row))

/-- The name of a field in a row. -/
def fieldName (name : Text) : Text :=
  match dialect b with
  | none => name
  | some d => column d name

/-- The row has every field, each under a name of its own. -/
structure Holds (r : Received) (row : Row) : Prop where
  distinct : (r.fields.map fun f => fieldName b f.name).Nodup
  fields : ∀ f ∈ r.fields,
    row.filter (fun m => decide (m.1 = fieldName b f.name)) = [(fieldName b f.name, .text f.value)]

/-- **Logs can be stored and are read back.** -/
def ReadBack (abi : List Event) (events : List Text) (logs : List Received) (db : Database) :
    Prop :=
  ∃ db', insertAll b sql contractName logs (autoMigrateContract b contractName abi events db) =
      some db' ∧
    ∀ r ∈ logs, ∀ desc limit, logs.length ≤ limit →
      ∃ text rows row, queryEventLogs b sql contractName r.event.name desc limit db' = some text ∧
        JsonRows.readRows text = some rows ∧ rows.filter (isOf r) = [row] ∧ Holds b r row

/-- Nothing of the contract's is in the database. -/
structure Fresh (events : List Text) (db : Database) : Prop where
  tables : ∀ d, ∀ e ∈ events, db.tables (tableOf d contractName e) = none
  store : ∀ e ∈ events, ∀ kv ∈ db.store,
    kv.1 < keyPrefix contractName e ∨ ¬kv.1 < keyPrefix contractName e ++ EventQuery.top

/-- The logs are of events of the contract, and no two are one. -/
structure Logs (abi : List Event) (events : List Text) (logs : List Received) : Prop where
  event : ∀ r ∈ logs, r.event ∈ abi ∧ r.event.name ∈ events
  distinct : logs.Pairwise fun r r' =>
    ¬(r.log.transactionHash = r'.log.transactionHash ∧ r.log.logIndex = r'.log.logIndex)

end Backends

end Zponder.EventTables
