import Mathlib.Data.List.Infix
import Zponder.EventTables

/-!
# Upgrading an event table

An older database has event tables without `contract_address`, or with a unique key without
it. `migrateEventTableAddress` gives a table the column and the key. SQLite cannot change a
key, so that the table is built anew under the name `…__new`, the rows are copied, and the
new table takes the place of the old one, all in one transaction; PostgreSQL changes the
table where it stands.

What the source finds out about a table it reads from the catalog: the names of its columns
as they were spelled, and, for the keys, the text of the statement that made it
(SQLite) or the definitions of its constraints (PostgreSQL), without blanks and in lower case.
A table of the model has these next to what they are about
(`Zponder.TableUpgrade.Table.ddl` and `Zponder.TableUpgrade.Table.keys`), since a
statement may be written in many ways.

Any statement may be refused by the database, and a list of columns may end early: the loop
that reads it does not tell an error from the end
(`Zponder.TableUpgrade.Env.columnsSeen`).
-/

namespace Zponder.TableUpgrade

open Decode (Event EventInput)
open EventTables (eventColumnName tableName abiTypeToSqlType SqlType Named Creatable Dialect)

/-! ### Rows -/

/-- What a cell holds. -/
inductive Value where
  | null
  | integer (n : Int)
  | real (bits : Nat)
  | text (s : Text)
  | blob (s : Text)
  deriving DecidableEq, Repr

/-- A row, with its cells by what the names of their columns stand for. -/
structure Row where
  id : Int
  cells : Text → Value

/-- Names of columns are looked up as the source looks them up, one after the other. -/
scoped instance (name : Text) (names : List Text) : Decidable (name ∈ names) :=
  decidable_of_iff (names.contains name = true) List.contains_iff_mem

def idColumn : Text := "id".toList

def blockColumn : Text := "block_number".toList

def txColumn : Text := "tx_hash".toList

def indexColumn : Text := "log_index".toList

def addressColumn : Text := "contract_address".toList

def createdColumn : Text := "created_at".toList

/-- The columns of an event, besides the id and the address. -/
def eventColumns (evt : Event) : List Text :=
  (evt.inputs.map fun i => eventColumnName i.name) ++
    [blockColumn, txColumn, indexColumn, createdColumn]

/-- The columns of the key. -/
def addressKey : List Text := [addressColumn, txColumn, indexColumn]

/-- The columns of the key before there were addresses. -/
def legacyKey : List Text := [txColumn, indexColumn]

/-- The cells of the key. -/
def Row.key (r : Row) : Value × Value × Value :=
  (r.cells addressColumn, r.cells txColumn, r.cells indexColumn)

/-! ### What is read from a catalog -/

/-- `std.ascii.isWhitespace` -/
def isWhitespace (c : Char) : Bool :=
  c == ' ' || c == '\t' || c == '\n' || c == '\r' || c == '\x0b' || c == '\x0c'

def normalizeSql (sql : Text) : Text :=
  (sql.filter fun c => !isWhitespace c).map Char.toLower

def ddlHasUniqueKey (ddl needle : Text) : Bool := decide (needle <:+: normalizeSql ddl)

def addressUnique : Text := "unique(contract_address,tx_hash,log_index)".toList

def legacyUnique : Text := "unique(tx_hash,log_index)".toList

def ddlHasAddressUnique (ddl : Text) : Bool := ddlHasUniqueKey ddl addressUnique

def ddlHasLegacyUnique (ddl : Text) : Bool := ddlHasUniqueKey ddl legacyUnique

def constraintDefEquals (definition needle : Text) : Bool :=
  decide (normalizeSql definition = needle)

inductive Err where
  | PrepareFailed
  | BindFailed
  | ExecFailed
  deriving DecidableEq, Repr

/-- A transaction: what is refused in the middle changes nothing. -/
def transaction {S : Type} (steps : S → Except Err S) (s : S) : Except Err Unit × S :=
  match steps s with
  | .ok s' => (.ok (), s')
  | .error e => (.error e, s)

/-! ### SQLite -/

/-- A table: its name and the names of its columns as they were spelled, the statement that
made it, the keys, and the rows by their ids. -/
structure Table where
  name : Text
  columns : List Text
  ddl : Option Text
  keys : List (List Text)
  rows : List Row

/-- What the names of the columns stand for. -/
def Table.folded (t : Table) : List Text := t.columns.map Text.lower

/-- The tables, by what their names stand for. -/
abbrev Store := Text → Option Table

/-- What a column makes of the values that are put into it. -/
inductive Affinity where
  | integer
  | text
  | numeric
  deriving DecidableEq, Repr

/-- SQLite: what a column makes of a value, and the time. -/
structure Engine where
  convert : Affinity → Value → Value
  now : Value
  convert_text : ∀ s, convert .text (.text s) = .text s

/-- The calls that may be refused. -/
inductive Step where
  | existsQuery
  | columnsQuery
  | ddlQuery
  | begin
  | create
  | prepareCopy
  | bindCopy
  | copy
  | swap
  | commit
  | make
  deriving DecidableEq, Repr

/-- What the database does in one call: the calls it refuses, how many columns it lists, and
whether it hands over the statement. -/
structure Env where
  refuses : Step → Bool
  columnsSeen : Nat
  ddlSeen : Bool

/-- The call is not refused. -/
def Env.call (env : Env) (step : Step) (e : Err) : Except Err Unit :=
  if env.refuses step then .error e else .ok ()

def sqlTypeText : SqlType → Text
  | .text => "TEXT".toList
  | .integer => "INTEGER".toList

/-- The column of an input. -/
def inputBody (i : EventInput) : Text :=
  "\n  ".toList ++ eventColumnName i.name ++ ' ' :: sqlTypeText (abiTypeToSqlType i.type) ++ [',']

/-- `writeEventTableBody` -/
def writeEventTableBody (evt : Event) : Text :=
  "\n  id INTEGER PRIMARY KEY AUTOINCREMENT,".toList ++ evt.inputs.flatMap inputBody ++
    "\n  block_number INTEGER NOT NULL,".toList ++
    "\n  tx_hash TEXT NOT NULL,".toList ++
    "\n  log_index INTEGER NOT NULL,".toList ++
    "\n  contract_address TEXT NOT NULL DEFAULT '',".toList ++
    "\n  created_at DATETIME DEFAULT CURRENT_TIMESTAMP,".toList ++
    "\n  UNIQUE(contract_address, tx_hash, log_index)\n)".toList

/-- The columns of a new table, and what they make of values. -/
def newColumns (evt : Event) : List (Text × Affinity) :=
  (idColumn, .integer) ::
    (evt.inputs.map fun i => (eventColumnName i.name,
      match abiTypeToSqlType i.type with
      | .text => Affinity.text
      | .integer => Affinity.integer)) ++
    [(blockColumn, .integer), (txColumn, .text), (indexColumn, .integer),
      (addressColumn, .text), (createdColumn, .numeric)]

section Sqlite

variable (eng : Engine) (contractName : Text) (evt : Event) (contractAddress : Text)

def table : Text := tableName contractName evt.name

/-- What the name of the table stands for. -/
def key : Text := Text.lower (table contractName evt)

def newTable : Text := table contractName evt ++ "__new".toList

def newKey : Text := Text.lower (newTable contractName evt)

/-- What the catalog keeps of the statement. Once the table has been renamed, its name is in
quotes. -/
def ddlOf (name : Text) : Text := "CREATE TABLE ".toList ++ name ++ " (".toList ++
  writeEventTableBody evt

/-- A table as it is made, without rows. -/
def freshTable (name : Text) : Table where
  name := name
  columns := (newColumns evt).map Prod.fst
  ddl := some (ddlOf evt name)
  keys := [addressKey]
  rows := []

/-- `createEventTable`: nothing happens to a table that is there. -/
def createEventTable (env : Env) (store : Store) : Except Err Unit × Store :=
  if Named contractName evt.name ∧ env.refuses .make = false then
    match store (key contractName evt) with
    | some _ => (.ok (), store)
    | none =>
      if Creatable .sqlite evt then
        (.ok (), Function.update store (key contractName evt)
          (some (freshTable evt (table contractName evt))))
      else (.error .ExecFailed, store)
  else (.error .ExecFailed, store)

/-- The columns that are copied, as they are spelled in the statement. -/
def copyCols (seen : List Text) : List Text :=
  (idColumn :: eventColumns evt).filter fun c => decide (c ∈ seen)

/-- What is put into the address of a row. -/
def backfill : Value → Value
  | .null => .text contractAddress
  | .text [] => .text contractAddress
  | v => v

/-- The value of a column that is not copied. -/
def default (c : Text) : Value := if c = createdColumn then eng.now else .null

/-- A row of the new table, the `i`-th to be copied. -/
def copyRow (seen : List Text) (i : Nat) (r : Row) : Row where
  id := if idColumn ∈ copyCols evt seen then r.id else i + 1
  cells c :=
    match (newColumns evt).lookup c with
    | none => .null
    | some a =>
      if c = addressColumn then
        eng.convert a (if addressColumn ∈ seen then backfill contractAddress (r.cells c)
          else .text contractAddress)
      else if c ∈ copyCols evt seen then eng.convert a (r.cells c)
      else default eng c

def copyRows (seen : List Text) (rows : List Row) : List Row :=
  rows.mapIdx fun i r => copyRow eng evt contractAddress seen i r

/-- What the constraints of the new table ask of rows. -/
def Insertable (rows : List Row) : Prop :=
  (rows.map (·.id)).Nodup ∧ (rows.map Row.key).Nodup ∧
    ∀ r ∈ rows, r.cells blockColumn ≠ .null ∧ r.cells txColumn ≠ .null ∧
      r.cells indexColumn ≠ .null ∧ r.cells addressColumn ≠ .null

instance (rows : List Row) : Decidable (Insertable rows) := by
  unfold Insertable
  infer_instance

/-- The table is built anew. -/
def rebuild (env : Env) (seen : List Text) (old : Table) (store : Store) : Except Err Store := do
  env.call .begin .ExecFailed
  env.call .create .ExecFailed
  -- a table that was left by an earlier run is dropped
  let store := Function.update store (newKey contractName evt) none
  if ¬Creatable .sqlite evt then throw .ExecFailed
  let new := freshTable evt (newTable contractName evt)
  let store := Function.update store (newKey contractName evt) (some new)
  env.call .prepareCopy .PrepareFailed
  env.call .bindCopy .BindFailed
  env.call .copy .ExecFailed
  let rows := copyRows eng evt contractAddress seen old.rows
  if ¬Insertable rows then throw .ExecFailed
  let store := Function.update store (newKey contractName evt) (some { new with rows := rows })
  env.call .swap .ExecFailed
  let store := Function.update store (key contractName evt) none
  let store := Function.update store (newKey contractName evt) none
  let store := Function.update store (key contractName evt) (some { new with
    name := table contractName evt
    ddl := some (ddlOf evt ('"' :: table contractName evt ++ ['"']))
    rows := rows })
  env.call .commit .ExecFailed
  return store

/-- Is there a table spelled like this? -/
def sqliteTableExists (store : Store) : Bool :=
  match store (key contractName evt) with
  | none => false
  | some t => decide (t.name = table contractName evt)

/-- `migrateEventTableAddress` -/
def migrateEventTableAddress (env : Env) (store : Store) : Except Err Unit × Store :=
  if env.refuses .existsQuery = true ∨ '\'' ∈ table contractName evt then
    (.error .PrepareFailed, store)
  else
    match store (key contractName evt) with
    | none => createEventTable contractName evt env store
    | some old =>
      if sqliteTableExists contractName evt store = false then
        createEventTable contractName evt env store
      else if env.refuses .columnsQuery = true ∨ ¬Named contractName evt.name then
        (.error .PrepareFailed, store)
      else
        let oldCols := old.columns.take env.columnsSeen
        let hasAddress := decide (addressColumn ∈ oldCols)
        if env.refuses .ddlQuery then (.error .PrepareFailed, store)
        else
          let uniqueOk := match (if env.ddlSeen then old.ddl else none) with
            | none => false
            | some ddl => ddlHasAddressUnique ddl && !ddlHasLegacyUnique ddl
          if hasAddress && uniqueOk then (.ok (), store)
          else transaction (rebuild eng contractName evt contractAddress env oldCols old) store

end Sqlite

/-! ### PostgreSQL -/

/-- A table: its name and its columns as the catalog keeps them, the definitions of its unique
constraints, and the rows. A constraint has a name of its own, which is left out. -/
structure PgTable where
  name : Text
  columns : List Text
  constraints : List Text
  rows : List Row

inductive PgStep where
  | find
  | address
  | keys
  | begin
  | addColumn
  | fill
  | alter
  | commit
  | make
  deriving DecidableEq, Repr

/-- The calls that are refused. -/
abbrev PgEnv := PgStep → Bool

/-- The call is not refused. -/
def PgEnv.call (env : PgEnv) (step : PgStep) : Except Err Unit :=
  if env step then .error .ExecFailed else .ok ()

/-- How the catalog writes the key. -/
def addressDefinition : Text := "UNIQUE (contract_address, tx_hash, log_index)".toList

def isTarget (definition : Text) : Bool := constraintDefEquals definition addressUnique

def isStale (definition : Text) : Bool := constraintDefEquals definition legacyUnique

/-- Has the table the column? -/
def PgTable.hasAddress (t : PgTable) : Bool := decide (addressColumn ∈ t.columns)

def PgTable.hasTarget (t : PgTable) : Bool := t.constraints.any isTarget

def PgTable.hasStale (t : PgTable) : Bool := t.constraints.any isStale

/-- `ADD COLUMN contract_address TEXT NOT NULL DEFAULT ''` -/
def PgTable.addColumn (t : PgTable) : PgTable where
  name := t.name
  columns := t.columns ++ [addressColumn]
  constraints := t.constraints
  rows := t.rows.map fun r =>
    { r with cells := Function.update r.cells addressColumn (.text []) }

/-- `UPDATE … SET contract_address = $1 WHERE contract_address = ''` -/
def PgTable.fill (contractAddress : Text) (t : PgTable) : PgTable where
  name := t.name
  columns := t.columns
  constraints := t.constraints
  rows := t.rows.map fun r =>
    if r.cells addressColumn = .text [] then
      { r with cells := Function.update r.cells addressColumn (.text contractAddress) }
    else r

/-- The key can be added: the columns are there, and no two rows without a null have the same
values in them. -/
def PgTable.Addable (t : PgTable) : Prop :=
  txColumn ∈ t.columns ∧ indexColumn ∈ t.columns ∧
    ((t.rows.filter fun r => decide (r.cells addressColumn ≠ .null ∧ r.cells txColumn ≠ .null ∧
      r.cells indexColumn ≠ .null)).map Row.key).Nodup

instance (t : PgTable) : Decidable t.Addable := by
  unfold PgTable.Addable
  infer_instance

section Pg

variable (contractName : Text) (evt : Event) (contractAddress : Text)

/-- `createEventTablePG`, where the table is there. -/
def createEventTablePG (env : PgEnv) (t : PgTable) : Except Err Unit × PgTable :=
  if Named contractName evt.name ∧ env .make = false then (.ok (), t)
  else (.error .ExecFailed, t)

/-- The column and the values. -/
def ensureAddress (env : PgEnv) (old : PgTable) : Except Err PgTable :=
  if old.hasAddress then .ok old
  else do
    env.call .addColumn
    env.call .fill
    return old.addColumn.fill contractAddress

/-- The key: only constraints that are the old one to the letter are dropped. -/
def ensureKey (env : PgEnv) (old t : PgTable) : Except Err PgTable :=
  if old.hasTarget && !old.hasStale then .ok t
  else do
    env.call .alter
    let kept := t.constraints.filter fun d => !isStale d
    if old.hasTarget then return { t with constraints := kept }
    else if Named contractName evt.name ∧ t.Addable then
      return { t with constraints := kept ++ [addressDefinition] }
    else throw .ExecFailed

/-- The table is changed where it stands. -/
def alter (env : PgEnv) (old : PgTable) : Except Err PgTable := do
  env.call .begin
  let t ← ensureAddress contractAddress env old
  let t ← ensureKey contractName evt env old t
  env.call .commit
  return t

/-- `migrateEventTableAddressPG`, for the table that SQL finds under the name. The catalog
is asked for the whole name, of which a table keeps the first 63 bytes. -/
def migrateEventTableAddressPG (env : PgEnv) (old : PgTable) : Except Err Unit × PgTable :=
  if env .find then (.error .ExecFailed, old)
  else if old.name ≠ Text.lower (table contractName evt) then
    createEventTablePG contractName evt env old
  else if env .address then (.error .ExecFailed, old)
  else if env .keys then (.error .ExecFailed, old)
  else if old.hasAddress && old.hasTarget && !old.hasStale then (.ok (), old)
  else transaction (alter contractName evt contractAddress env) old

end Pg

end Zponder.TableUpgrade
